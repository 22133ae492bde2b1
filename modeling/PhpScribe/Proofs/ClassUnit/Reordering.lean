/-
  PhpScribe.Proofs.ClassUnit.Reordering — changes of a class in any order.

  A class has nine slots, and a change is about one of them (`Change.slot`): the adding and
  the replacing of methods and of their arguments, say, are about one slot and are not free
  among themselves. `only` is a class with one slot filled. A change reads and writes its own
  slot alone (`only_changed_same`, `only_changed_other`), so after a run a slot holds what the
  changes about it, in their order, have made of it (`only_changedBy`).

  Hence two runs that hold the same changes about each slot lead to the same unit, however
  the slots are shuffled together (`changes_reordered`), and a manifest can be rebuilt from
  changes that name its members one at a time.
-/

import PhpScribe.Proofs.Lifecycle

namespace PhpScribe.ClassUnit

/-! ## Slots -/

inductive Slot where
  | name
  | ns
  | parent
  | interface
  | packages
  | traits
  | fields
  | constants
  | methods
  deriving DecidableEq

def Change.slot : Change → Slot
  | .name _ => .name
  | .ns _ => .ns
  | .parent _ => .parent
  | .interface _ => .interface
  | .packages _ => .packages
  | .traits _ => .traits
  | .fields _ | .field _ | .fieldOf .. => .fields
  | .constants _ | .constant _ | .constantOf .. => .constants
  | .methods _ | .method _ | .argument .. | .arguments .. => .methods

/-- A class with nothing but one slot of the unit. -/
def only (u : ClassUnit) : Slot → ClassUnit
  | .name => { name := u.name }
  | .ns => { ns := u.ns }
  | .parent => { parent := u.parent }
  | .interface => { interface := u.interface }
  | .packages => { packages := u.packages }
  | .traits => { traits := u.traits }
  | .fields => { fields := u.fields }
  | .constants => { constants := u.constants }
  | .methods => { methods := u.methods }

def changedBy (u : ClassUnit) (cs : List Change) : ClassUnit := cs.foldl changed u

def about (s : Slot) (cs : List Change) : List Change := cs.filter (·.slot = s)

variable {u v : ClassUnit} {cs ds : List Change}

theorem eq_of_only (hgenerated : u.generated = v.generated) (h : ∀ s, u.only s = v.only s) : u = v := by
  have hname := congrArg ClassUnit.name (h .name)
  have hns := congrArg ClassUnit.ns (h .ns)
  have hparent := congrArg ClassUnit.parent (h .parent)
  have hinterface := congrArg ClassUnit.interface (h .interface)
  have hpackages := congrArg ClassUnit.packages (h .packages)
  have htraits := congrArg ClassUnit.traits (h .traits)
  have hfields := congrArg ClassUnit.fields (h .fields)
  have hconstants := congrArg ClassUnit.constants (h .constants)
  have hmethods := congrArg ClassUnit.methods (h .methods)
  cases u
  cases v
  simp_all only [only]

/-! ## One change -/

/-- What a change makes of its slot hangs on that slot alone. -/
theorem only_changed_same (u : ClassUnit) (c : Change) :
    (u.changed c).only c.slot = (u.only c.slot).changed c := by
  cases c <;> rfl

theorem only_changed_other {c : Change} {s : Slot} (h : c.slot ≠ s) (u : ClassUnit) :
    (u.changed c).only s = u.only s := by
  cases c <;> cases s <;> first | rfl | exact absurd rfl h

theorem generated_changed (u : ClassUnit) (c : Change) : (u.changed c).generated = none := by
  cases c <;> rfl

/-! ## Runs -/

/-- A slot goes through the changes about it, and through no other. -/
theorem only_changedBy (u : ClassUnit) (cs : List Change) (s : Slot) :
    (u.changedBy cs).only s = (u.only s).changedBy (about s cs) := by
  induction cs generalizing u with
  | nil => rfl
  | cons c cs ih =>
    have hrun : (u.changedBy (c :: cs)).only s = ((u.changed c).only s).changedBy (about s cs) := ih _
    rw [hrun]
    by_cases h : c.slot = s
    · subst h
      rw [only_changed_same]
      simp [about, changedBy]
    · rw [only_changed_other h]
      simp [about, h]

theorem generated_changedBy (u : ClassUnit) (cs : List Change) :
    (u.changedBy cs).generated = if cs = [] then u.generated else none := by
  induction cs generalizing u with
  | nil => rfl
  | cons c cs ih =>
    have hrun : (u.changedBy (c :: cs)).generated = _ := ih (u.changed c)
    rw [hrun, generated_changed, if_neg (List.cons_ne_nil c cs)]
    exact ite_self none

/-- Every change is about some slot. -/
theorem eq_nil_of_about (h : ∀ s, about s cs = []) : cs = [] := by
  cases cs with
  | nil => rfl
  | cons c cs => simpa [about] using h c.slot

theorem changedBy_congr (h : ∀ s, about s cs = about s ds) : u.changedBy cs = u.changedBy ds := by
  have hnil : cs = [] ↔ ds = [] := by
    constructor
    · rintro rfl
      exact eq_nil_of_about fun s => (h s).symm
    · rintro rfl
      exact eq_nil_of_about h
  refine eq_of_only ?_ fun s => ?_
  · simp only [generated_changedBy, hnil]
  · rw [only_changedBy, only_changedBy, h]

/-! ## Manifests -/

/-- The changes that a manifest asks for, slot by slot. The name is there from the start, and
    a method without a body has the placeholder for one. -/
def ofManifest (m : Manifest) : Slot → List Change
  | .name => []
  | .ns => m.classEntry.ns.toList.map .ns
  | .parent => m.classEntry.parent.toList.map .parent
  | .interface => m.classEntry.interface.toList.map .interface
  | .packages => [.packages m.classEntry.uses]
  | .traits => [.traits m.classEntry.traits]
  | .constants => m.constants.map .constant
  | .fields => m.fields.map .field
  | .methods => m.methods.map fun e =>
    .method {
      name := e.name
      visibility := e.visibility
      isStatic := e.isStatic
      arguments := e.arguments
      returns := e.returns
      body := e.body.getD "//"
      doc := e.doc }

/-- Members added one at a time are added in their order. -/
theorem changedBy_members {α : Type} {f : α → Change} (holding : List α → ClassUnit)
    (h : ∀ as a, (holding as).changed (f a) = holding (as ++ [a])) (as bs : List α) :
    (holding as).changedBy (bs.map f) = holding (as ++ bs) := by
  induction bs generalizing as with
  | nil => exact congrArg holding (List.append_nil as).symm
  | cons b bs ih =>
    have hrun : (holding as).changedBy ((b :: bs).map f) = ((holding as).changed (f b)).changedBy (bs.map f) := rfl
    rw [hrun, h, ih, List.append_assoc]
    rfl

/-- A text that is there is set. -/
theorem changedBy_given {f : String → Change} (holding : Option String → ClassUnit)
    (h : ∀ s, (holding none).changed (f s) = holding (some s)) (o : Option String) :
    (holding none).changedBy (o.toList.map f) = holding o := by
  cases o with
  | none => rfl
  | some s => exact h s

/-- The changes of a manifest make the slots of its unit. -/
theorem only_ofManifest (m : Manifest) (s : Slot) :
    ((new m.classEntry.name).only s).changedBy (ofManifest m s) = m.unit.only s := by
  cases s with
  | name | packages | traits => rfl
  | ns => exact changedBy_given (fun o => { ns := o }) (fun _ => rfl) m.classEntry.ns
  | parent => exact changedBy_given (fun o => { parent := o }) (fun _ => rfl) m.classEntry.parent
  | interface => exact changedBy_given (fun o => { interface := o }) (fun _ => rfl) m.classEntry.interface
  | constants => exact changedBy_members (fun cs => { constants := cs }) (fun _ _ => rfl) [] m.constants
  | fields => exact changedBy_members (fun fs => { fields := fs }) (fun _ _ => rfl) [] m.fields
  | methods =>
    have hmap : ofManifest m .methods = (m.methods.map (·.method)).map .method := List.map_map.symm
    rw [hmap]
    exact changedBy_members (fun ms => { methods := ms }) (fun _ _ => rfl) [] _

theorem changedBy_ofManifest {m : Manifest} (h : ∀ s, about s cs = ofManifest m s) :
    (new m.classEntry.name).changedBy cs = m.unit := by
  refine eq_of_only ?_ fun s => ?_
  · rw [generated_changedBy]
    exact ite_self none
  · rw [only_changedBy, h, only_ofManifest]

/-! ## The order of changes -/

/-- Runs with the same changes about each slot lead to the same unit and to the same text or
    fault. So does every run that sets what a manifest gives and adds its members one at a
    time, each kind in its order and a method without a body with the placeholder: it leads
    to the unit of the manifest. -/
theorem changes_reordered :
    (∀ (u : ClassUnit) (cs ds : List Change), (∀ s, about s cs = about s ds) →
      u.changedBy cs = u.changedBy ds ∧ (u.changedBy cs).generate = (u.changedBy ds).generate) ∧
    ∀ (m : Manifest) (cs : List Change), (∀ s, about s cs = ofManifest m s) →
      (new m.classEntry.name).changedBy cs = m.unit ∧
      ∀ e ∈ m.methods, e.body = none → e.method.body = "//" := by
  refine ⟨fun u cs ds h => ?_, fun m cs h => ⟨changedBy_ofManifest h, fun e _ hbody => ?_⟩⟩
  · have hsame : u.changedBy cs = u.changedBy ds := changedBy_congr h
    exact ⟨hsame, congrArg generate hsame⟩
  · rw [Manifest.MethodEntry.method, hbody]
    rfl

/-- A class renamed between its two fields, and a manifest whose method, without a body,
    comes in front of its constants. -/
theorem changes_reordered_shuffled :
    let cs : List Change := [.field { name := "a" }, .name "B", .field { name := "b" }]
    let ds : List Change := [.name "B", .field { name := "a" }, .field { name := "b" }]
    let m : Manifest :=
      { classEntry := { name := "C", ns := some "App", uses := ["X", "X"] }
        constants := [{ name := "P" }, { name := "Q", value := some .null }]
        fields := []
        methods := [{ name := "f" }] }
    let es : List Change :=
      [.method { name := "f" }, .constant { name := "P" }, .traits [], .ns "App",
        .constant { name := "Q", value := some .null }, .packages ["X", "X"]]
    (∀ s, about s cs = about s ds) ∧ (new "A").changedBy cs = (new "A").changedBy ds ∧
      (∀ s, about s es = ofManifest m s) ∧ (new "C").changedBy es = m.unit := by
  intro cs ds m es
  have hrun : ∀ s, about s cs = about s ds := fun s => by cases s <;> rfl
  have hmanifest : ∀ s, about s es = ofManifest m s := fun s => by cases s <;> rfl
  exact ⟨hrun, (changes_reordered.1 (new "A") cs ds hrun).1, hmanifest,
    (changes_reordered.2 m es hmanifest).1⟩

end PhpScribe.ClassUnit
