/-
  PhpScribe.Literal.Error — the values that no PHP literal spells.
-/

namespace PhpScribe

inductive LiteralError where
  | notANumber
  | infinite
  /-- A date or time of a manifest. -/
  | datetime
  /-- An integer that is no 64-bit signed one. -/
  | wideInteger (n : UInt64)
  deriving DecidableEq

namespace LiteralError

def kind : LiteralError → String
  | .notANumber => "float NaN"
  | .infinite => "float infinity"
  | .datetime => "datetime"
  | .wideInteger n => "integer " ++ n.toNat.repr ++ " (exceeds i64)"

def message (e : LiteralError) : String := "cannot render " ++ e.kind ++ " as a PHP literal"

end LiteralError

end PhpScribe
