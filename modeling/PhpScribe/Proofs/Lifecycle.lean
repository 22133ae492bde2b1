/-
  PhpScribe.Proofs.Lifecycle — units over whole runs of calls.

  A unit is a description and, once generated, a text. It goes through calls: changes of
  the description, texts set from outside, and generations, each of which has to succeed
  for the run to go on. A `UnitKind` says what these calls do, with the laws they obey:
  each call decides afresh whether there is a text, no call looks at the text to change the
  description, and a generation does not look at the text at all. Classes (`ClassUnit.kind`)
  and functions (`FunctionUnit.kind`, whose text is never set from outside) are two kinds.

  After a run (`lifecycle`) there is a text exactly when the last call gave one, the
  description is what the changes alone make of the start (`building_run`), and the next
  generation, be it a text or an error, is that of every unit with the same description:
  neither an old text nor the way the unit came about can be told from it.
-/

import PhpScribe.FunctionUnit
import PhpScribe.Manifest
import PhpScribe.Proofs.ClassUnit.Text

namespace PhpScribe

inductive Call (χ τ : Type) where
  | change (c : χ)
  | text (t : τ)
  | generate

namespace Call

variable {χ τ : Type}

def change? : Call χ τ → Option χ
  | .change c => some c
  | _ => none

def givesText : Call χ τ → Bool
  | .change _ => false
  | .text _ | .generate => true

end Call

/-- A kind of unit: what the calls do, and what is seen of a unit. -/
structure UnitKind (υ χ τ : Type) where
  changed : υ → χ → υ
  withText : υ → τ → υ
  generate : υ → Except LiteralError υ
  isGenerated : υ → Bool
  /-- The unit without its text. -/
  building : υ → υ
  /-- Two units agree in every member but the text. -/
  SameDescription : υ → υ → Prop
  same_iff : ∀ {u v}, SameDescription u v ↔ building u = building v
  isGenerated_changed : ∀ u c, isGenerated (changed u c) = false
  isGenerated_withText : ∀ u t, isGenerated (withText u t) = true
  isGenerated_generate : ∀ {u v}, generate u = .ok v → isGenerated v = true
  building_changed : ∀ u c, building (changed u c) = changed (building u) c
  building_withText : ∀ u t, building (withText u t) = building u
  building_generate : ∀ {u v}, generate u = .ok v → building v = building u
  generate_building : ∀ u, generate (building u) = generate u

namespace UnitKind

variable {υ χ τ : Type} (k : UnitKind υ χ τ) {start u v : υ} {calls : List (Call χ τ)}

def call (u : υ) : Call χ τ → Except LiteralError υ
  | .change c => .ok (k.changed u c)
  | .text t => .ok (k.withText u t)
  | .generate => k.generate u

def run (u : υ) (calls : List (Call χ τ)) : Except LiteralError υ := calls.foldlM k.call u

def changes (u : υ) (calls : List (Call χ τ)) : υ := (calls.filterMap Call.change?).foldl k.changed u

/-! ## One call -/

theorem isGenerated_call {c : Call χ τ} (h : k.call u c = .ok v) : k.isGenerated v = c.givesText := by
  cases c with
  | change c =>
    cases h
    exact k.isGenerated_changed u c
  | text t =>
    cases h
    exact k.isGenerated_withText u t
  | generate => exact k.isGenerated_generate h

def describe (d : υ) (c : Call χ τ) : υ := (c.change?.map (k.changed d)).getD d

theorem building_call {c : Call χ τ} (h : k.call u c = .ok v) :
    k.building v = k.describe (k.building u) c := by
  cases c with
  | change c =>
    cases h
    exact k.building_changed u c
  | text t =>
    cases h
    exact k.building_withText u t
  | generate => exact k.building_generate h

/-! ## Runs -/

theorem foldl_describe (d : υ) (calls : List (Call χ τ)) : calls.foldl k.describe d = k.changes d calls := by
  induction calls generalizing d with
  | nil => rfl
  | cons c calls ih => cases c <;> exact ih _

theorem building_changes (u : υ) (calls : List (Call χ τ)) :
    k.building (k.changes u calls) = k.changes (k.building u) calls := by
  unfold changes
  induction calls.filterMap Call.change? generalizing u with
  | nil => rfl
  | cons c cs ih => rw [List.foldl_cons, ih, k.building_changed, List.foldl_cons]

theorem isGenerated_run (h : k.run start calls = .ok u) :
    k.isGenerated u = (calls.getLast?.map Call.givesText).getD (k.isGenerated start) :=
  decided_by_last k.isGenerated_call h

/-- The description after a run is that of the changes alone. -/
theorem building_run (h : k.run start calls = .ok u) :
    k.building u = k.building (k.changes start calls) := by
  have hrun : k.building u = calls.foldl k.describe (k.building start) := view_of_run k.building_call h
  rw [hrun, foldl_describe, building_changes]

theorem generate_congr (h : k.building u = k.building v) : k.generate u = k.generate v := by
  rw [← k.generate_building u, h, k.generate_building]

/-! ## The lifecycle -/

structure Lifecycle (start : υ) (calls : List (Call χ τ)) (u : υ) : Prop where
  generated_iff : k.isGenerated u = true ↔ ∃ c ∈ calls.getLast?, c.givesText = true
  described : k.SameDescription u (k.changes start calls)
  text_keeps : ∀ t, k.SameDescription (k.withText u t) u
  generate_keeps : ∀ v, k.generate u = .ok v → k.SameDescription v u
  generate_same : ∀ v, k.SameDescription v u → k.generate v = k.generate u
  generate_again : ∀ v, k.generate u = .ok v → k.generate v = .ok v
  generate_behind_text : ∀ t, k.generate (k.withText u t) = k.generate u

theorem lifecycle_of_run (hstart : k.isGenerated start = false) (h : k.run start calls = .ok u) :
    k.Lifecycle start calls u where
  generated_iff := by
    rw [k.isGenerated_run h, hstart]
    cases calls.getLast? with
    | none => simp
    | some c => simp
  described := k.same_iff.2 (k.building_run h)
  text_keeps t := k.same_iff.2 (k.building_withText u t)
  generate_keeps _ hv := k.same_iff.2 (k.building_generate hv)
  generate_same _ hv := k.generate_congr (k.same_iff.1 hv)
  generate_again _ hv := (k.generate_congr (k.building_generate hv)).trans hv
  generate_behind_text t := k.generate_congr (k.building_withText u t)

end UnitKind

/-! ## Classes -/

namespace ClassUnit

inductive Start where
  | named (name : String)
  | empty
  | parts (name : String) (ns : Option String) (packages : List String) (methods : List Method)
      (traits : List String)
  | manifest (m : Manifest)

def Start.unit : Start → ClassUnit
  | .named name => new name
  | .empty => default
  | .parts name ns packages methods traits => ofParts name ns packages methods traits
  | .manifest m => m.unit

inductive Change where
  | name (s : String)
  | ns (s : String)
  | parent (s : String)
  | interface (s : String)
  | packages (ss : List String)
  | traits (ss : List String)
  | fields (fs : List Field)
  | field (f : Field)
  | fieldOf (visibility : Visibility) (name type : String) (isStatic : Bool) (default : Option Value)
  | constants (cs : List Constant)
  | constant (c : Constant)
  | constantOf (visibility : Visibility) (name type : String) (value : Option Value)
  | methods (ms : List Method)
  | method (m : Method)
  | argument (method : String) (a : Argument)
  | arguments (method : String) (as : List Argument)

def changed (u : ClassUnit) : Change → ClassUnit
  | .name s => u.withName s
  | .ns s => u.withNamespace s
  | .parent s => u.withParent s
  | .interface s => u.withInterface s
  | .packages ss => u.withPackages ss
  | .traits ss => u.withTraits ss
  | .fields fs => u.withFields fs
  | .field f => u.withField f
  | .fieldOf visibility name type isStatic default => u.withVariable visibility name type isStatic default
  | .constants cs => u.withConstants cs
  | .constant c => u.withConstant c
  | .constantOf visibility name type value => u.withConstantValue visibility name type value
  | .methods ms => u.withMethods ms
  | .method m => u.withMethod m
  | .argument method a => u.withArgument method a
  | .arguments method as => u.withArguments method as

structure SameDescription (u v : ClassUnit) : Prop where
  name : u.name = v.name
  ns : u.ns = v.ns
  parent : u.parent = v.parent
  interface : u.interface = v.interface
  packages : u.packages = v.packages
  traits : u.traits = v.traits
  fields : u.fields = v.fields
  constants : u.constants = v.constants
  methods : u.methods = v.methods

variable {u v : ClassUnit}

theorem sameDescription_iff : SameDescription u v ↔ u.building = v.building := by
  constructor
  · intro h
    simp only [building, h.name, h.ns, h.parent, h.interface, h.packages, h.traits, h.fields,
      h.constants, h.methods]
  · intro h
    simp only [building, ClassUnit.mk.injEq] at h
    obtain ⟨hname, hns, hparent, hinterface, hpackages, htraits, hfields, hconstants, hmethods, -⟩ := h
    exact ⟨hname, hns, hparent, hinterface, hpackages, htraits, hfields, hconstants, hmethods⟩

theorem withText_of_generate (h : u.generate = .ok v) : ∃ s, v = u.withText s := by
  obtain ⟨s, -, hv⟩ := exists_of_map_ok h
  exact ⟨s, hv.symm⟩

def kind : UnitKind ClassUnit Change String where
  changed
  withText
  generate
  isGenerated
  building
  SameDescription
  same_iff := sameDescription_iff
  isGenerated_changed u c := by cases c <;> rfl
  isGenerated_withText _ _ := rfl
  isGenerated_generate h := by
    obtain ⟨s, rfl⟩ := withText_of_generate h
    rfl
  building_changed u c := by cases c <;> rfl
  building_withText _ _ := rfl
  building_generate h := by
    obtain ⟨s, rfl⟩ := withText_of_generate h
    rfl
  generate_building _ := rfl

theorem isGenerated_start (o : Start) : o.unit.isGenerated = false := by
  cases o <;> rfl

end ClassUnit

/-! ## Functions -/

namespace FunctionUnit

inductive Change where
  | argument (a : Argument)
  | returns (type : String)
  | body (s : String)

def changed (u : FunctionUnit) : Change → FunctionUnit
  | .argument a => u.withArgument a
  | .returns type => u.withReturns type
  | .body s => u.withBody s

structure SameDescription (u v : FunctionUnit) : Prop where
  name : u.name = v.name
  arguments : u.arguments = v.arguments
  returns : u.returns = v.returns
  body : u.body = v.body

variable {u v : FunctionUnit}

theorem sameDescription_iff : SameDescription u v ↔ u.building = v.building := by
  constructor
  · intro h
    simp only [building, h.name, h.arguments, h.returns, h.body]
  · intro h
    simp only [building, FunctionUnit.mk.injEq] at h
    obtain ⟨hname, harguments, hreturns, hbody, -⟩ := h
    exact ⟨hname, harguments, hreturns, hbody⟩

/-- Functions as a kind of unit; no text is set from outside. -/
def kind : UnitKind FunctionUnit Change Empty where
  changed
  withText _ t := t.elim
  generate
  isGenerated
  building
  SameDescription
  same_iff := sameDescription_iff
  isGenerated_changed u c := by cases c <;> rfl
  isGenerated_withText _ t := t.elim
  isGenerated_generate h := by
    obtain ⟨s, -, rfl⟩ := exists_of_map_ok h
    rfl
  building_changed u c := by cases c <;> rfl
  building_withText _ t := t.elim
  building_generate h := by
    obtain ⟨s, -, rfl⟩ := exists_of_map_ok h
    rfl
  generate_building _ := rfl

end FunctionUnit

/-! ## Both kinds -/

/-- A class or a function after any run: there is a text exactly when the last call gave
    one, the description is that of the changes, no text and no generation alters it, and
    what a generation gives hangs on it alone. -/
theorem lifecycle :
    (∀ (o : ClassUnit.Start) (calls : List (Call ClassUnit.Change String)) (u : ClassUnit),
      ClassUnit.kind.run o.unit calls = .ok u → ClassUnit.kind.Lifecycle o.unit calls u) ∧
    ∀ (name : String) (calls : List (Call FunctionUnit.Change Empty)) (u : FunctionUnit),
      FunctionUnit.kind.run (.new name) calls = .ok u →
        FunctionUnit.kind.Lifecycle (.new name) calls u :=
  ⟨fun o _ _ h => ClassUnit.kind.lifecycle_of_run (ClassUnit.isGenerated_start o) h,
    fun _ _ _ h => FunctionUnit.kind.lifecycle_of_run rfl h⟩

/-- A class that was given a text, changed and generated, and a function that was changed
    behind its generation. -/
theorem lifecycle_outdated :
    let field : Field := { name := "x" }
    let calls : List (Call ClassUnit.Change String) := [.text "old", .change (.field field), .generate]
    (∃ u, ClassUnit.kind.run (ClassUnit.Start.named "A").unit calls = .ok u ∧
      ClassUnit.kind.Lifecycle (ClassUnit.Start.named "A").unit calls u) ∧
    ∃ u, FunctionUnit.kind.run (.new "f") [.generate, .change (.returns "int")] = .ok u ∧
      FunctionUnit.kind.Lifecycle (.new "f") [.generate, .change (.returns "int")] u := by
  intro field calls
  have hwrite : ((ClassUnit.new "A").withField field).write.toOption =
      some "<?php\n\ndeclare(strict_types=1);\n\nclass A\n\x7b\n\tprotected $x;\n\x7d\n" := by decide +kernel
  have hclass : ClassUnit.kind.run (ClassUnit.Start.named "A").unit calls = .ok _ :=
    ClassUnit.generate_of_write hwrite
  have hfunction : FunctionUnit.kind.run (.new "f") [.generate, .change (.returns "int")] =
      .ok ((FunctionUnit.new "f").withReturns "int") := rfl
  exact ⟨⟨_, hclass, lifecycle.1 _ _ _ hclass⟩, ⟨_, hfunction, lifecycle.2 _ _ _ hfunction⟩⟩

end PhpScribe
