/-
  PhpScribe.Proofs.Manifest.Lowering — what becomes of the defaults of a manifest.

  A constant, a field or an argument gives its default as a value, by `null_default`, by
  both or not at all (`Given`). Parsing asks two things of each: that not both are given,
  and that the value holds no date; the first one that is at fault, the constants in front
  of the fields and these in front of the arguments, is the fault of the manifest and its
  place is named (`fault?_ofOutline`). All else is taken over as it stands
  (`defaults_unit`).

  So a date never reaches the generator, at any depth. A double that is NaN or infinite
  does: it is a value, but has no literal. A manifest that is accepted is generated exactly
  when its defaults are finite (`parse_generates`), and one with a NaN is accepted and then
  fails (`parse_generates_fails`), with no place to point at.
-/

import Mathlib.Data.List.Basic
import PhpScribe.Manifest.Reader
import PhpScribe.Proofs.ClassUnit.Faults

namespace PhpScribe

/-! ## Dates -/

namespace Toml.Datum

mutual
def hasDate : Datum → Bool
  | .datetime => true
  | .array items => itemsHaveDate items
  | .table members => membersHaveDate members
  | _ => false

def itemsHaveDate : List Datum → Bool
  | [] => false
  | d :: ds => hasDate d || itemsHaveDate ds

def membersHaveDate : List (String × Datum) → Bool
  | [] => false
  | (_, d) :: ms => hasDate d || membersHaveDate ms
end

end Toml.Datum

namespace Value

open Toml (Datum)

def dateFault (there : Bool) : Option LiteralError := if there then some .datetime else none

theorem dateFault_or (a b : Bool) : dateFault (a || b) = (dateFault a).or (dateFault b) := by
  cases a <;> rfl

mutual
/-- A datum has a value unless there is a date in it. -/
theorem fault?_ofToml : (d : Datum) → PhpScribe.fault? (ofToml d) = dateFault d.hasDate
  | .string _ | .integer _ | .float _ | .bool _ | .datetime => rfl
  | .array items => by
    rw [ofToml, fault?_map, fault?_ofTomlItems items]
    rfl
  | .table members => by
    rw [ofToml, fault?_map, fault?_ofTomlMembers members]
    rfl

theorem fault?_ofTomlItems : (ds : List Datum) →
    PhpScribe.fault? (ofTomlItems ds) = dateFault (Datum.itemsHaveDate ds)
  | [] => rfl
  | d :: ds => by
    rw [ofTomlItems, fault?_both, fault?_ofToml d, fault?_ofTomlItems ds, Datum.itemsHaveDate, dateFault_or]

theorem fault?_ofTomlMembers : (ms : List (String × Datum)) →
    PhpScribe.fault? (ofTomlMembers ms) = dateFault (Datum.membersHaveDate ms)
  | [] => rfl
  | (k, d) :: ms => by
    rw [ofTomlMembers, fault?_both, fault?_ofToml d, fault?_ofTomlMembers ms, Datum.membersHaveDate, dateFault_or]
end

end Value

namespace Manifest

open Toml (Datum Span)

/-! ## What a manifest gives -/

/-- A default as it is given: a value with its place, and `null_default` with its own. -/
structure Given where
  default : Option (Datum × Span)
  null : Option (Bool × Span)

namespace Given

/-- What is wrong with a default: both are given, or the value holds a date. -/
def fault? (file : String) (g : Given) : Option Fault :=
  match g.default, g.null with
  | some _, some (true, span) =>
    some (.invalid "a default value and null_default cannot both be set" file span)
  | some (d, span), _ => if d.hasDate then some (.invalid LiteralError.datetime.message file span) else none
  | none, _ => none

/-- The default that a sound one stands for. -/
def value? (g : Given) : Option Value :=
  match g.default, g.null with
  | some (d, _), _ => (Value.ofToml d).toOption
  | none, some (true, _) => some .null
  | none, _ => none

end Given

def Draft.given {α : Type} (d : Draft α) : Given := ⟨d.default, d.null⟩

def Outline.givens (o : Outline) : List Given :=
  o.constants.map (·.given) ++ o.fields.map (·.given) ++ o.methods.flatMap fun m => m.arguments.map (·.given)

/-! ## Parsing -/

variable {file : String}

/-- A default is what it stands for, unless something is wrong with it. -/
theorem default?_eq (file : String) (g : Given) : default? file g.default g.null =
    match g.fault? file with
    | some f => .error f
    | none => .ok g.value? := by
  obtain ⟨default, null⟩ := g
  have hvalue (d : Datum) (span : Span) : default? file (some (d, span)) none =
      match Given.fault? file ⟨some (d, span), none⟩ with
      | some f => .error f
      | none => .ok (Given.value? ⟨some (d, span), none⟩) := by
    have hd := Value.fault?_ofToml d
    cases hdate : d.hasDate with
    | true =>
      rw [hdate] at hd
      simp only [default?, Given.fault?, hdate, fault?_eq_some.1 hd]
      rfl
    | false =>
      rw [hdate] at hd
      obtain ⟨v, hv⟩ := fault?_eq_none.1 hd
      simp only [default?, Given.fault?, Given.value?, hdate, hv]
      rfl
  rcases default with _ | ⟨d, span⟩ <;> rcases null with _ | ⟨_ | _, switch⟩
  · rfl
  · rfl
  · rfl
  · exact hvalue d span
  · exact hvalue d span
  · rfl

theorem value_of_default {g : Given} {v : Option Value} (h : default? file g.default g.null = .ok v) :
    g.fault? file = none ∧ v = g.value? := by
  have hg := (default?_eq file g).symm.trans h
  cases hfault : g.fault? file with
  | some e =>
    rw [hfault] at hg
    exact nomatch hg
  | none =>
    rw [hfault] at hg
    exact ⟨rfl, (Except.ok.inj hg).symm⟩

section Drafts

variable {α β : Type} {f : Draft α → Except Fault β} {complete : Draft α → Option Value → β}

/-- Drafts are at fault where the first default of theirs is. -/
theorem fault?_drafts (hf : ∀ d, f d = (default? file d.default d.null).map (complete d))
    (ds : List (Draft α)) :
    PhpScribe.fault? (ds.mapM f) = (ds.map Draft.given).findSome? (Given.fault? file) := by
  have hd (d : Draft α) : PhpScribe.fault? (f d) = d.given.fault? file := by
    have hg := congrArg PhpScribe.fault? (default?_eq file d.given)
    rw [hf, fault?_map]
    refine hg.trans ?_
    cases d.given.fault? file <;> rfl
  rw [fault?_mapM, funext hd, List.findSome?_map]
  rfl

/-- Drafts without a fault become what their defaults stand for. -/
theorem defaults_drafts (hf : ∀ d, f d = (default? file d.default d.null).map (complete d))
    (default : β → Option Value) (hdefault : ∀ d v, default (complete d v) = v)
    {ds : List (Draft α)} {bs : List β} (h : ds.mapM f = .ok bs) :
    bs.flatMap (fun b => (default b).toList) = (ds.map Draft.given).filterMap Given.value? := by
  have hd {d : Draft α} {b : β} (hb : f d = .ok b) : default b = d.given.value? := by
    rw [hf] at hb
    obtain ⟨v, hv, rfl⟩ := exists_of_map_ok hb
    rw [hdefault]
    exact (value_of_default hv).2
  have hall : bs.map default = (ds.map Draft.given).map Given.value? := by
    rw [map_eq_of_mapM hd h, List.map_map]
    rfl
  have hflat {γ : Type} (g : γ → Option Value) (cs : List γ) :
      cs.flatMap (fun c => (g c).toList) = (cs.map g).filterMap id := by
    rw [List.filterMap_map, List.filterMap_eq_flatMap_toList]
    rfl
  rw [hflat, hall, List.filterMap_map]
  rfl

end Drafts

theorem fault?_methodOf (d : MethodDraft) : PhpScribe.fault? (methodOf file d) =
    (d.arguments.map Draft.given).findSome? (Given.fault? file) := by
  rw [methodOf, fault?_map]
  exact fault?_drafts (fun _ => rfl) d.arguments

/-- A manifest is at fault where the first default is that is at fault. -/
theorem fault?_ofOutline (o : Outline) :
    PhpScribe.fault? (ofOutline file o) = o.givens.findSome? (Given.fault? file) := by
  have hconstants : PhpScribe.fault? (o.constants.mapM (constantOf file)) = _ :=
    fault?_drafts (fun _ => rfl) o.constants
  have hfields : PhpScribe.fault? (o.fields.mapM (fieldOf file)) = _ :=
    fault?_drafts (fun _ => rfl) o.fields
  have hmethods : PhpScribe.fault? (o.methods.mapM (methodOf file)) =
      (o.methods.flatMap fun m => m.arguments.map Draft.given).findSome? (Given.fault? file) := by
    rw [fault?_mapM, funext fault?_methodOf, findSome?_flatMap]
  rw [Outline.givens, List.findSome?_append, List.findSome?_append, ← hconstants, ← hfields, ← hmethods]
  unfold ofOutline
  cases o.constants.mapM (constantOf file) with
  | error e => rfl
  | ok constants =>
    cases o.fields.mapM (fieldOf file) with
    | error e => rfl
    | ok fields => cases o.methods.mapM (methodOf file) <;> rfl

theorem defaults_methodOf {d : MethodDraft} {e : MethodEntry} (h : methodOf file d = .ok e) :
    Declaration.defaults e.method.arguments = (d.arguments.map Draft.given).filterMap Given.value? := by
  obtain ⟨as, has, rfl⟩ := exists_of_map_ok h
  exact defaults_drafts (fun _ => rfl) Argument.default (fun _ _ => rfl) has

/-- The defaults of a class are those of its manifest, in the same order. -/
theorem defaults_unit {o : Outline} {m : Manifest} (h : ofOutline file o = .ok m) :
    m.unit.defaults = o.givens.filterMap Given.value? := by
  obtain ⟨constants, hconstants, h⟩ := exists_of_bind_ok h
  obtain ⟨fields, hfields, h⟩ := exists_of_bind_ok h
  obtain ⟨methods, hmethods, h⟩ := exists_of_bind_ok h
  cases h
  have hc := defaults_drafts (fun _ => rfl) Constant.value (fun _ _ => rfl) hconstants
  have hf := defaults_drafts (fun _ => rfl) Field.default (fun _ _ => rfl) hfields
  have hm := map_eq_of_mapM defaults_methodOf hmethods
  rw [Outline.givens, List.filterMap_append, List.filterMap_append, List.filterMap_flatMap, ← hc, ← hf]
  simp only [ClassUnit.defaults, unit, List.flatMap, ← hm, List.map_map]
  rfl

/-! ## Generating what is accepted -/

/-- A text in the shape of a manifest is refused at the first default that is given twice or
    holds a date, and accepted when there is none. What is accepted keeps its defaults, and
    is generated exactly when none of them holds a NaN or an infinity. -/
theorem parse_generates (text file : String) :
    (∀ o, (Toml.parse? text).bind outline? = some o →
      PhpScribe.fault? (parse text file) = o.givens.findSome? (Given.fault? file)) ∧
    ∀ m, parse text file = .ok m →
      (∃ o, (Toml.parse? text).bind outline? = some o ∧ m.unit.defaults = o.givens.filterMap Given.value?) ∧
      ((∃ u, m.unit.generate = .ok u) ↔ ∀ v ∈ m.unit.defaults, v.Finite) := by
  refine ⟨fun o ho => ?_, fun m hm => ⟨?_, m.unit.exists_generate_iff⟩⟩
  · rw [parse, ho]
    exact fault?_ofOutline o
  · rw [parse] at hm
    cases ho : (Toml.parse? text).bind outline? with
    | none =>
      rw [ho] at hm
      exact nomatch hm
    | some o =>
      rw [ho] at hm
      exact ⟨o, rfl, defaults_unit hm⟩

/-- A field whose default is nested, and one that is null. -/
theorem parse_generates_nested :
    let text := "[class]\nname = \"A\"\n[[fields]]\nname = \"x\"\ndefault = [1, \x7b a = [true] \x7d]\n" ++
      "[[fields]]\nname = \"y\"\nnull_default = true\n"
    ∃ o m, (Toml.parse? text).bind outline? = some o ∧ parse text defaultName = .ok m ∧
      m.unit.defaults = o.givens.filterMap Given.value? ∧ ∀ v ∈ m.unit.defaults, v.Finite := by
  intro text
  have haccepted : (parse text defaultName).toOption.map (fun m => PhpScribe.fault? m.unit.generate) =
      some none := by decide +kernel
  obtain ⟨m, hm, hgenerate⟩ := Option.map_eq_some_iff.1 haccepted
  have hparse := toOption_eq_some.1 hm
  obtain ⟨⟨o, ho, hdefaults⟩, hfinite⟩ := (parse_generates text defaultName).2 m hparse
  exact ⟨o, m, ho, hparse, hdefaults, hfinite.1 (fault?_eq_none.1 hgenerate)⟩

/-- A manifest with a NaN is accepted, and its class cannot be generated. -/
theorem parse_generates_fails :
    let text := "[class]\nname = \"A\"\n[[fields]]\nname = \"x\"\ndefault = nan\n"
    ∃ m, parse text defaultName = .ok m ∧ m.unit.generate = .error .notANumber := by
  intro text
  have haccepted : (parse text defaultName).toOption.bind (fun m => PhpScribe.fault? m.unit.generate) =
      some .notANumber := by decide +kernel
  obtain ⟨m, hm, hgenerate⟩ := Option.bind_eq_some_iff.1 haccepted
  exact ⟨m, toOption_eq_some.1 hm, fault?_eq_some.1 hgenerate⟩

end Manifest

end PhpScribe
