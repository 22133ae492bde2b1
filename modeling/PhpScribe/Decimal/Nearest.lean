/-
  PhpScribe.Decimal.Nearest — the double nearest to a decimal.
-/

namespace PhpScribe.Decimal

def infinity : Float := Float.ofBits 0x7FF0000000000000

/-- The double nearest to `m · 10 ^ e`. A number far outside the range of doubles is
    decided by the place of its first digit alone. -/
def nearest (m : Nat) (e : Int) : Float :=
  let first := (Nat.toDigits 10 m).length + e
  if m = 0 ∨ first < -330 then 0.0
  else if 310 < first then infinity
  else Float.ofScientific m (e < 0) e.natAbs

end PhpScribe.Decimal
