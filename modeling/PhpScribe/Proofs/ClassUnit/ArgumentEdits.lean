/-
  PhpScribe.Proofs.ClassUnit.ArgumentEdits — edits of arguments keep to their method.

  An edit names a method and appends to its arguments or replaces them. Names need not be
  unique: an edit is about the first method of its name, and the ones of that name behind it
  are shadowed (`shadowing`). An edit without a method has nothing to change.

  No edit renames or moves a method, so the first method of a name is the same one through a
  whole run (`shadowing_edited`), and its arguments go through the edits of its name alone, in
  their order (`replay`). What stands at each place after a run follows by induction
  (`getElem?_editedBy`), and from it that edits of different names commute, however a run of
  them is shuffled (`editedBy_congr`). Nothing but methods' arguments is touched; the text is
  cleared by every edit (`edits_isolated`).
-/

import PhpScribe.ClassUnit

namespace PhpScribe

inductive ArgumentEdit where
  | append (method : String) (a : Argument)
  | replace (method : String) (as : List Argument)

namespace ArgumentEdit

def method : ArgumentEdit → String
  | .append method _ | .replace method _ => method

def apply : ArgumentEdit → List Argument → List Argument
  | .append _ a, as => as ++ [a]
  | .replace _ bs, _ => bs

end ArgumentEdit

namespace ClassUnit

def edited (u : ClassUnit) : ArgumentEdit → ClassUnit
  | .append method a => u.withArgument method a
  | .replace method as => u.withArguments method as

def editedBy (u : ClassUnit) (es : List ArgumentEdit) : ClassUnit := es.foldl edited u

def editsOf (name : String) (es : List ArgumentEdit) : List ArgumentEdit := es.filter (·.method = name)

def replay (name : String) (es : List ArgumentEdit) (as : List Argument) : List Argument :=
  (editsOf name es).foldl (fun as e => e.apply as) as

/-- The names of the methods in front of a place. -/
def shadowing (u : ClassUnit) (k : Nat) : List String := (u.methods.take k).map (·.name)

def withList (m : Method) (as : List Argument) : Method := { m with arguments := as }

variable {u v : ClassUnit} {e d : ArgumentEdit} {es ds : List ArgumentEdit} {name : String}

@[simp] theorem arguments_withList (m : Method) (as : List Argument) : (withList m as).arguments = as := rfl

@[simp] theorem name_withList (m : Method) (as : List Argument) : (withList m as).name = m.name := rfl

@[simp] theorem withList_withList (m : Method) (as bs : List Argument) :
    withList (withList m as) bs = withList m bs := rfl

@[simp] theorem withList_arguments (m : Method) : withList m m.arguments = m := rfl

@[simp] theorem replay_nil (name : String) (as : List Argument) : replay name [] as = as := rfl

def revise (name : String) (e : ArgumentEdit) (as : List Argument) : List Argument :=
  if e.method = name then e.apply as else as

theorem replay_cons (name : String) (e : ArgumentEdit) (es : List ArgumentEdit) (as : List Argument) :
    replay name (e :: es) as = replay name es (revise name e as) := by
  by_cases he : e.method = name <;> simp [replay, editsOf, revise, he]

/-! ## One edit -/

theorem edited_eq (u : ClassUnit) (e : ArgumentEdit) : u.edited e =
    { u.building with methods := changeFirst e.method (fun m => withList m (e.apply m.arguments)) u.methods } := by
  cases e <;> rfl

section ChangeFirst

variable {f : Method → Method} (ms : List Method)

/-- The first method of the name is changed where it stands. -/
theorem getElem?_changeFirst (k : Nat) : (changeFirst name f ms)[k]? =
    ms[k]?.map fun m => if m.name = name ∧ m.name ∉ (ms.take k).map (·.name) then f m else m := by
  induction ms generalizing k with
  | nil => rfl
  | cons m ms ih =>
    unfold changeFirst
    by_cases hm : m.name = name
    · cases k with
      | zero => simp [hm]
      | succ k =>
        rw [if_pos hm, List.getElem?_cons_succ, List.getElem?_cons_succ, List.take_succ_cons, List.map_cons, hm]
        cases ms[k]? with
        | none => rfl
        | some b => simp +contextual
    · cases k with
      | zero => simp [hm]
      | succ k =>
        rw [if_neg hm, List.getElem?_cons_succ, List.getElem?_cons_succ, ih, List.take_succ_cons, List.map_cons]
        refine congrArg (Option.map · ms[k]?) (funext fun b => ?_)
        by_cases hb : b.name = name
        · simp [hb, Ne.symm hm]
        · simp [hb]

/-- What the change of a method does not show in, no method shows. -/
theorem map_changeFirst {α : Type} {g : Method → α} (hf : ∀ m, g (f m) = g m) :
    (changeFirst name f ms).map g = ms.map g := by
  induction ms with
  | nil => rfl
  | cons m ms ih =>
    unfold changeFirst
    split
    · rw [List.map_cons, hf, List.map_cons]
    · rw [List.map_cons, ih, List.map_cons]

theorem find?_changeFirst (hf : ∀ m, (f m).name = m.name) (other : String) :
    (changeFirst name f ms).find? (·.name == other) =
      (ms.find? (·.name == other)).map fun m => if other = name then f m else m := by
  induction ms with
  | nil => rfl
  | cons m ms ih =>
    unfold changeFirst
    by_cases hm : m.name = name
    · rw [if_pos hm, List.find?_cons, List.find?_cons, hf]
      cases ho : m.name == other with
      | true => simp [← hm, eq_of_beq ho]
      | false =>
        have hother : other ≠ name := by
          rintro rfl
          simp [hm] at ho
        simp [hother]
    · rw [if_neg hm, List.find?_cons, List.find?_cons, ih]
      cases ho : m.name == other with
      | true =>
        have hother : other ≠ name := eq_of_beq ho ▸ hm
        simp [hother]
      | false => rfl

theorem changeFirst_of_absent (h : ∀ m ∈ ms, m.name ≠ name) : changeFirst name f ms = ms := by
  induction ms with
  | nil => rfl
  | cons m ms ih =>
    obtain ⟨hm, hms⟩ := List.forall_mem_cons.1 h
    rw [changeFirst, if_neg hm, ih hms]

end ChangeFirst

theorem shadowing_edited (u : ClassUnit) (e : ArgumentEdit) (k : Nat) :
    (u.edited e).shadowing k = u.shadowing k := by
  rw [shadowing, shadowing, edited_eq, List.map_take, List.map_take]
  exact congrArg (List.take k) (map_changeFirst u.methods fun _ => rfl)

theorem getElem?_edited (u : ClassUnit) (e : ArgumentEdit) (k : Nat) : (u.edited e).methods[k]? =
    u.methods[k]?.map fun m => if m.name ∈ u.shadowing k then m else withList m (revise m.name e m.arguments) := by
  rw [edited_eq]
  refine (getElem?_changeFirst u.methods k).trans ?_
  refine congrArg (Option.map · u.methods[k]?) (funext fun m => ?_)
  by_cases hs : m.name ∈ u.shadowing k
  · rw [if_pos hs, if_neg fun h => h.2 hs]
  · rw [if_neg hs, revise]
    by_cases he : e.method = m.name
    · rw [if_pos ⟨he.symm, hs⟩, if_pos he]
    · rw [if_neg fun h => he h.1.symm, if_neg he, withList_arguments]

theorem findMethod_edited (u : ClassUnit) (e : ArgumentEdit) (name : String) : (u.edited e).findMethod name =
    (u.findMethod name).map fun m => withList m (revise name e m.arguments) := by
  have hname : ∀ m : Method, (withList m (e.apply m.arguments)).name = m.name := fun _ => rfl
  rw [edited_eq]
  refine (find?_changeFirst u.methods hname name).trans ?_
  refine congrArg (Option.map · (u.findMethod name)) (funext fun m => ?_)
  by_cases he : e.method = name
  · rw [if_pos he.symm, revise, if_pos he]
  · rw [if_neg (Ne.symm he), revise, if_neg he, withList_arguments]

/-- An edit of a name that no method has clears the text and changes nothing else. -/
theorem edited_of_absent (h : u.findMethod e.method = none) : u.edited e = u.building := by
  have habsent : ∀ m ∈ u.methods, m.name ≠ e.method := by simpa [findMethod] using h
  rw [edited_eq, changeFirst_of_absent u.methods habsent]
  rfl

/-! ## Runs -/

theorem shadowing_editedBy (u : ClassUnit) (es : List ArgumentEdit) (k : Nat) :
    (u.editedBy es).shadowing k = u.shadowing k := by
  induction es generalizing u with
  | nil => rfl
  | cons e es ih => exact (ih (u.edited e)).trans (shadowing_edited u e k)

/-- What stands at a place after a run: the method that stood there, its arguments replayed
    unless a method of its name stands in front of it. -/
theorem getElem?_editedBy (u : ClassUnit) (es : List ArgumentEdit) (k : Nat) : (u.editedBy es).methods[k]? =
    u.methods[k]?.map fun m => if m.name ∈ u.shadowing k then m else withList m (replay m.name es m.arguments) := by
  induction es generalizing u with
  | nil => simp [editedBy]
  | cons e es ih =>
    have hrun : (u.editedBy (e :: es)).methods[k]? = _ := ih (u.edited e)
    rw [hrun, shadowing_edited, getElem?_edited, Option.map_map]
    refine congrArg (Option.map · u.methods[k]?) (funext fun m => ?_)
    by_cases hs : m.name ∈ u.shadowing k
    · simp [hs]
    · simp [hs, replay_cons]

theorem findMethod_editedBy (u : ClassUnit) (es : List ArgumentEdit) (name : String) :
    (u.editedBy es).findMethod name =
      (u.findMethod name).map fun m => withList m (replay name es m.arguments) := by
  induction es generalizing u with
  | nil => simp [editedBy]
  | cons e es ih =>
    have hrun : (u.editedBy (e :: es)).findMethod name = _ := ih (u.edited e)
    rw [hrun, findMethod_edited, Option.map_map]
    refine congrArg (Option.map · (u.findMethod name)) (funext fun m => ?_)
    simp [replay_cons]

/-- No method is added, lost, moved or changed in anything but its arguments. -/
theorem map_editedBy (u : ClassUnit) (es : List ArgumentEdit) :
    (u.editedBy es).methods.map (withList · []) = u.methods.map (withList · []) := by
  induction es generalizing u with
  | nil => rfl
  | cons e es ih =>
    have hrun : (u.editedBy (e :: es)).methods.map (withList · []) = _ := ih (u.edited e)
    rw [hrun, edited_eq]
    exact map_changeFirst u.methods fun _ => rfl

def frame (u : ClassUnit) : ClassUnit := { u with methods := [], generated := none }

theorem frame_editedBy (u : ClassUnit) (es : List ArgumentEdit) : (u.editedBy es).frame = u.frame := by
  induction es generalizing u with
  | nil => rfl
  | cons e es ih =>
    refine (ih (u.edited e)).trans ?_
    rw [edited_eq]
    rfl

theorem generated_editedBy (u : ClassUnit) (es : List ArgumentEdit) :
    (u.editedBy es).generated = if es = [] then u.generated else none := by
  induction es generalizing u with
  | nil => rfl
  | cons e es ih =>
    have hrun : (u.editedBy (e :: es)).generated = _ := ih (u.edited e)
    rw [hrun, edited_eq, if_neg (List.cons_ne_nil e es)]
    exact ite_self none

theorem eq_of_frame (hframe : u.frame = v.frame) (hmethods : u.methods = v.methods)
    (hgenerated : u.generated = v.generated) : u = v := by
  cases u
  cases v
  simp_all [frame]

/-- There is an edit in a run when there is one of some name. -/
theorem eq_nil_of_editsOf (h : ∀ name, editsOf name es = []) : es = [] := by
  cases es with
  | nil => rfl
  | cons e es => simpa [editsOf] using h e.method

/-- A run hangs on the edits of each name, and not on how they are shuffled together. -/
theorem editedBy_congr (h : ∀ name, editsOf name es = editsOf name ds) : u.editedBy es = u.editedBy ds := by
  have hnil : es = [] ↔ ds = [] := by
    constructor
    · rintro rfl
      exact eq_nil_of_editsOf fun name => (h name).symm
    · rintro rfl
      exact eq_nil_of_editsOf h
  refine eq_of_frame ?_ (List.ext_getElem? fun k => ?_) ?_
  · rw [frame_editedBy, frame_editedBy]
  · simp only [getElem?_editedBy, replay, h]
  · simp only [generated_editedBy, hnil]

theorem editsOf_pair (h : e.method ≠ d.method) (name : String) : editsOf name [e, d] = editsOf name [d, e] := by
  by_cases he : e.method = name
  · have hd : d.method ≠ name := fun hd => h (he.trans hd.symm)
    simp [editsOf, he, hd]
  · by_cases hd : d.method = name <;> simp [editsOf, he, hd]

/-! ## Isolation -/

/-- The first method of a name is the one that is found under it. -/
theorem findMethod_of_first {k : Nat} {m : Method} (hm : u.methods[k]? = some m) (hfirst : m.name ∉ u.shadowing k) :
    u.findMethod m.name = some m := by
  obtain ⟨hk, rfl⟩ := List.getElem?_eq_some_iff.1 hm
  refine List.find?_eq_some_iff_getElem.2 ⟨by simp, k, hk, rfl, fun j hj => ?_⟩
  have hne : u.methods[j].name ≠ u.methods[k].name := fun he =>
    hfirst (he ▸ List.mem_map_of_mem (List.mem_take_iff_getElem.2 ⟨j, by omega, rfl⟩))
  simpa using hne

structure Isolated (u : ClassUnit) (es : List ArgumentEdit) (v : ClassUnit) : Prop where
  count : v.methods.length = u.methods.length
  /-- Every method keeps its place, and all it has but its arguments. -/
  fixed : v.methods.map (withList · []) = u.methods.map (withList · [])
  /-- The arguments of the first method of a name go through the edits of that name. -/
  first : ∀ (k : Nat) (m : Method), u.methods[k]? = some m → m.name ∉ u.shadowing k →
    v.methods[k]? = some (withList m (replay m.name es m.arguments))
  /-- A method behind the first of its name is left alone. -/
  later : ∀ (k : Nat) (m : Method), u.methods[k]? = some m → m.name ∈ u.shadowing k → v.methods[k]? = some m
  /-- So is a method whose name no edit has. -/
  unaddressed : ∀ (k : Nat) (m : Method), u.methods[k]? = some m → editsOf m.name es = [] → v.methods[k]? = some m
  /-- The method found under a name is still the first, and the one that was found before. -/
  found : ∀ (k : Nat) (m : Method), v.methods[k]? = some m → m.name ∉ u.shadowing k → v.findMethod m.name = some m
  same : ∀ name, v.findMethod name = (u.findMethod name).map fun m => withList m (replay name es m.arguments)
  members : v.frame = u.frame
  text : v.generated = if es = [] then u.generated else none

theorem isolated_editedBy (u : ClassUnit) (es : List ArgumentEdit) : Isolated u es (u.editedBy es) where
  count := by simpa using congrArg List.length (map_editedBy u es)
  fixed := map_editedBy u es
  first k m hm hfirst := by rw [getElem?_editedBy, hm, Option.map_some, if_neg hfirst]
  later k m hm hlater := by rw [getElem?_editedBy, hm, Option.map_some, if_pos hlater]
  unaddressed k m hm hnone := by
    rw [getElem?_editedBy, hm, Option.map_some, replay, hnone]
    exact congrArg some (ite_self m)
  found k m hm hfirst := findMethod_of_first hm (by rwa [shadowing_editedBy])
  same := findMethod_editedBy u es
  members := frame_editedBy u es
  text := generated_editedBy u es

/-- Edits of arguments keep to the first method of their name, through every run and from every
    class. Runs with the same edits of each name lead to the same class, so two edits of
    different names commute, and an edit of a name that is not there clears the text, if there
    is one, and does no more. -/
theorem edits_isolated :
    (∀ u es, Isolated u es (u.editedBy es)) ∧
      (∀ (u : ClassUnit) es ds, (∀ name, editsOf name es = editsOf name ds) → u.editedBy es = u.editedBy ds) ∧
      (∀ (u : ClassUnit) e d, e.method ≠ d.method → (u.edited e).edited d = (u.edited d).edited e) ∧
      ∀ (u : ClassUnit) e, u.findMethod e.method = none → u.edited e = u.building := by
  refine ⟨isolated_editedBy, fun u es ds h => editedBy_congr h, fun u e d h => ?_, fun u e h => edited_of_absent h⟩
  have hpair : u.editedBy [e, d] = u.editedBy [d, e] := editedBy_congr (editsOf_pair h)
  exact hpair

/-- Two methods of one name with another between them, edited in two orders, and an edit that
    finds no method. -/
theorem edits_isolated_shadowed :
    let x : Argument := { name := "x" }
    let y : Argument := { name := "y" }
    let f : Method := { name := "f", arguments := [x] }
    let g : Method := { name := "g", body := "return;" }
    let u : ClassUnit := { methods := [f, g, f], generated := some "old" }
    let es : List ArgumentEdit := [.append "f" y, .replace "g" [x], .append "f" x]
    let ds : List ArgumentEdit := [.append "f" y, .append "f" x, .replace "g" [x]]
    (u.methods[0]? = some f ∧ "f" ∉ u.shadowing 0 ∧
        (u.editedBy es).methods[0]? = some (withList f [x, y, x])) ∧
      (u.methods[2]? = some f ∧ "f" ∈ u.shadowing 2 ∧ (u.editedBy es).methods[2]? = some f) ∧
      ((∀ name, editsOf name es = editsOf name ds) ∧ u.editedBy es = u.editedBy ds) ∧
      ("f" ≠ "g" ∧ (u.edited (.append "f" y)).edited (.replace "g" [x]) =
        (u.edited (.replace "g" [x])).edited (.append "f" y)) ∧
      u.findMethod "h" = none ∧ u.edited (.append "h" x) = u.building := by
  intro x y f g u es ds
  have hfirst : "f" ∉ u.shadowing 0 := by decide
  have hlater : "f" ∈ u.shadowing 2 := by decide
  have habsent : u.findMethod "h" = none := by decide +kernel
  have hsame : ∀ name, editsOf name es = editsOf name ds := by
    intro name
    by_cases hf : "f" = name
    · have hg : "g" ≠ name := hf ▸ by decide
      simp [es, ds, editsOf, ArgumentEdit.method, hf, hg]
    · simp [es, ds, editsOf, ArgumentEdit.method, List.filter_cons, hf]
  obtain ⟨hisolated, hshuffled, hcommute, hnone⟩ := edits_isolated
  exact ⟨⟨rfl, hfirst, (hisolated u es).first 0 f rfl hfirst⟩, ⟨rfl, hlater, (hisolated u es).later 2 f rfl hlater⟩,
    ⟨hsame, hshuffled u es ds hsame⟩, ⟨by decide, hcommute u _ _ (by decide)⟩, habsent, hnone u _ habsent⟩

end ClassUnit

end PhpScribe
