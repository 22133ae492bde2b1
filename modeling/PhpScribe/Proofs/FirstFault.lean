/-
  PhpScribe.Proofs.FirstFault — the double that a failed writing names.

  A class, a function and a single value fail to be written for one cause only, a NaN or an
  infinity in one of their values. `FailsAtFirst` says all of it: there is such a double
  exactly when writing fails, and the error is of the kind of the first one, where a class is
  read by its constants, then its fields, then the arguments of its methods, and each value
  from front to back at all depths (`fails_at_first_nonfinite`). No layout makes a
  difference to it.
-/

import PhpScribe.FunctionUnit
import PhpScribe.Proofs.ClassUnit.Faults

namespace PhpScribe

/-- Failure exactly on the doubles that are NaN or infinite, by the kind of the first one. -/
structure FailsAtFirst {α : Type} (x : Except LiteralError α) (ys : List Float) : Prop where
  fails_iff : (∃ e, x = .error e) ↔ ∃ y ∈ ys, y.isNaN = true ∨ y.isInf = true
  kind_first : ∀ e, x = .error e → ∃ before y after, ys = before ++ y :: after ∧
    (∀ z ∈ before, z.isNaN = false ∧ z.isInf = false) ∧
    (y.isNaN = true ∧ e.kind = "float NaN" ∨
      y.isNaN = false ∧ y.isInf = true ∧ e.kind = "float infinity")

namespace Literal

theorem floatFault_eq_some {y : Float} {e : LiteralError} (h : floatFault y = some e) :
    y.isNaN = true ∧ e.kind = "float NaN" ∨ y.isNaN = false ∧ y.isInf = true ∧ e.kind = "float infinity" := by
  unfold floatFault at h
  split at h
  · next hn =>
    cases h
    exact Or.inl ⟨hn, rfl⟩
  · next hn =>
    split at h
    · next hi =>
      cases h
      exact Or.inr ⟨Bool.eq_false_iff.2 hn, hi, rfl⟩
    · exact nomatch h

theorem floatFault_ne_none {y : Float} : floatFault y ≠ none ↔ y.isNaN = true ∨ y.isInf = true := by
  rw [Ne, floatFault_eq_none, not_and_or, Bool.not_eq_false, Bool.not_eq_false]

end Literal

variable {α : Type} {x : Except LiteralError α} {ys : List Float}

/-- The fault of a computation is that of the first double that has one. -/
theorem failsAtFirst_of_fault? (h : fault? x = ys.findSome? Literal.floatFault) : FailsAtFirst x ys where
  fails_iff := by
    rw [exists_error_iff, h, Ne, List.findSome?_eq_none_iff]
    simp only [not_forall, exists_prop]
    exact exists_congr fun y => and_congr_right fun _ => Literal.floatFault_ne_none
  kind_first e he := by
    rw [← fault?_eq_some, h] at he
    obtain ⟨before, y, after, hys, hy, hbefore⟩ := List.findSome?_eq_some_iff.1 he
    exact ⟨before, y, after, hys, fun z hz => Literal.floatFault_eq_none.1 (hbefore z hz),
      Literal.floatFault_eq_some hy⟩

/-- The doubles of a class in the order in which it is written. -/
def ClassUnit.floats (u : ClassUnit) : List Float := u.defaults.flatMap Value.floats

def FunctionUnit.floats (u : FunctionUnit) : List Float :=
  (Declaration.defaults u.arguments).flatMap Value.floats

theorem findSome?_fault? (vs : List Value) :
    vs.findSome? Value.fault? = (vs.flatMap Value.floats).findSome? Literal.floatFault :=
  (findSome?_flatMap Literal.floatFault Value.floats vs).symm

theorem FunctionUnit.fault?_generate (u : FunctionUnit) :
    fault? u.generate = (Declaration.defaults u.arguments).findSome? Value.fault? := by
  rw [generate, fault?_map, write, fault?_map, Declaration.fault?_arguments]

/-- Generating a class, generating a function and spelling a value in any layout fail exactly
    on a NaN or an infinity, and name the kind of the first one in the order of reading. -/
theorem fails_at_first_nonfinite :
    (∀ u : ClassUnit, FailsAtFirst u.generate u.floats) ∧
    (∀ u : FunctionUnit, FailsAtFirst u.generate u.floats) ∧
    (∀ (v : Value) (l : Layout), FailsAtFirst (Literal.spell l v) v.floats) ∧
    ∀ (v : Value) (l m : Layout), fault? (Literal.spell l v) = fault? (Literal.spell m v) := by
  refine ⟨fun u => ?_, fun u => ?_, fun v l => ?_, fun v l m => ?_⟩
  · exact failsAtFirst_of_fault? (u.fault?_generate.trans (findSome?_fault? _))
  · exact failsAtFirst_of_fault? (u.fault?_generate.trans (findSome?_fault? _))
  · exact failsAtFirst_of_fault? (Literal.fault?_spell l v)
  · rw [Literal.fault?_spell, Literal.fault?_spell]

/-- An argument that is NaN stands behind a field that holds an infinity in a list. -/
example :
    let field : Field := { name := "x", default := some (.list [.float 1.5, .float (1.0 / 0.0)]) }
    let argument : Argument := { name := "y", default := some (.float (0.0 / 0.0)) }
    let method : Method := { name := "f", arguments := [argument] }
    fault? (((ClassUnit.new "C").withMethod method).withField field).generate = some .infinite := by
  decide +kernel

end PhpScribe
