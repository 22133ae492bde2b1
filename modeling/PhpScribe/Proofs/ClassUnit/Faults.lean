/-
  PhpScribe.Proofs.ClassUnit.Faults — which classes can be written.

  All that can fail in the writing of a class is the literal of a default, and a literal
  fails on NaN and on the infinities only. So writing fails with the fault of the first such
  double in the defaults: those of the constants, of the fields, and of the methods'
  arguments, each read from front to back (`fault?_write`). A class whose defaults are all
  finite is generated (`exists_generate_iff`).
-/

import PhpScribe.ClassUnit
import PhpScribe.Proofs.Literal.Term
import PhpScribe.Proofs.Outcome

namespace PhpScribe

/-- The first double that has no literal is the fault of a value. -/
def Value.fault? (v : Value) : Option LiteralError := v.floats.findSome? Literal.floatFault

theorem Literal.fault?_spell (l : Layout) (v : Value) : PhpScribe.fault? (spell l v) = v.fault? := by
  rw [spell_eq, Value.fault?]
  cases v.floats.findSome? floatFault <;> rfl

/-- A computation whose fault and whose only result are known. -/
theorem Literal.eq_orFault {α : Type} {x : Except LiteralError α} {a : α} {fault : Option LiteralError}
    (hfault : PhpScribe.fault? x = fault) (hok : ∀ b, x = .ok b → b = a) : x = orFault a fault := by
  subst hfault
  cases hx : x with
  | error e => rfl
  | ok b =>
    rw [hok b hx]
    rfl

namespace Declaration

theorem fault?_assigned (default : Option Value) :
    fault? (assigned default) = default.toList.findSome? Value.fault? := by
  cases default with
  | none => rfl
  | some v =>
    rw [assigned, fault?_map, Literal.render, Literal.fault?_spell, Option.toList_some, List.findSome?_cons]
    cases v.fault? <;> rfl

theorem fault?_constantLine (c : Constant) :
    fault? (constantLine c) = c.value.toList.findSome? Value.fault? := by
  rw [constantLine, fault?_map, fault?_assigned]

theorem fault?_fieldLine (f : Field) : fault? (fieldLine f) = f.default.toList.findSome? Value.fault? := by
  rw [fieldLine, fault?_map, fault?_assigned]

theorem fault?_argument (a : Argument) : fault? (argument a) = a.default.toList.findSome? Value.fault? := by
  rw [argument, fault?_map, fault?_assigned]

def defaults (as : List Argument) : List Value := as.flatMap (·.default.toList)

theorem fault?_arguments (as : List Argument) :
    fault? (arguments as) = (defaults as).findSome? Value.fault? := by
  rw [arguments, fault?_map, fault?_mapM, funext fault?_argument, defaults, findSome?_flatMap]

theorem fault?_method (m : Method) : fault? (method m) = (defaults m.arguments).findSome? Value.fault? := by
  rw [method, fault?_map, methodSignature, fault?_map, fault?_arguments]

end Declaration

namespace ClassUnit

/-- The defaults of a class in the order in which they are written. -/
def defaults (u : ClassUnit) : List Value :=
  u.constants.flatMap (·.value.toList) ++ u.fields.flatMap (·.default.toList) ++
    u.methods.flatMap fun m => Declaration.defaults m.arguments

theorem fault?_blocks (u : ClassUnit) : fault? u.blocks = u.defaults.findSome? Value.fault? := by
  have hconstants : fault? (u.constants.mapM Declaration.constantLine) =
      (u.constants.flatMap (·.value.toList)).findSome? Value.fault? := by
    rw [fault?_mapM, funext Declaration.fault?_constantLine, findSome?_flatMap]
  have hfields : fault? (u.fields.mapM Declaration.fieldLine) =
      (u.fields.flatMap (·.default.toList)).findSome? Value.fault? := by
    rw [fault?_mapM, funext Declaration.fault?_fieldLine, findSome?_flatMap]
  have hmethods : fault? (u.methods.mapM Declaration.method) =
      (u.methods.flatMap fun m => Declaration.defaults m.arguments).findSome? Value.fault? := by
    rw [fault?_mapM, funext Declaration.fault?_method, findSome?_flatMap]
  rw [defaults, List.findSome?_append, List.findSome?_append, ← hconstants, ← hfields, ← hmethods]
  unfold blocks
  cases u.constants.mapM Declaration.constantLine with
  | error e => rfl
  | ok constants =>
    cases u.fields.mapM Declaration.fieldLine with
    | error e => rfl
    | ok fields => cases u.methods.mapM Declaration.method <;> rfl

/-- Writing fails on the first default that has no literal. -/
theorem fault?_write (u : ClassUnit) : fault? u.write = u.defaults.findSome? Value.fault? := by
  rw [← fault?_blocks]
  unfold write
  cases u.blocks <;> rfl

theorem fault?_generate (u : ClassUnit) : fault? u.generate = u.defaults.findSome? Value.fault? := by
  rw [generate, fault?_map, fault?_write]

theorem exists_generate_iff (u : ClassUnit) : (∃ v, u.generate = .ok v) ↔ ∀ v ∈ u.defaults, v.Finite := by
  rw [← fault?_eq_none, fault?_generate, List.findSome?_eq_none_iff]
  exact forall₂_congr fun v _ => Literal.finite_iff.symm

end ClassUnit

end PhpScribe
