/-
  PhpScribe.Json.Number — the number that a JSON numeral stands for.

  Digits are gathered into a 64-bit significand while they fit. A whole part that does
  not fit stops there, and each further digit of it raises the power of ten by one; a
  fraction gives digits until one does not fit, and the rest of it is left out. The
  double is the significand, rounded, times or over a power of ten, rounded again; so
  the last bit may differ from the nearest double. A number too large for a double is
  an error, one too small is zero. A numeral without point and exponent whose digits fit
  is an integer; minus zero, and a negative number below the signed range, are doubles.
-/

import PhpScribe.Json
import PhpScribe.Text.Digits

namespace PhpScribe.Json

structure Numeral where
  negative : Bool
  whole : List Nat
  fraction : Option (List Nat)
  /-- The sign (`true` for minus) and the digits of the exponent. -/
  exponent : Option (Bool × List Nat)

namespace Numeral

def limit : Nat := Nat.pow 2 64

/-- Digits of the whole part added to a significand, and the power of ten that the digits
    beyond the bound make. -/
def addWhole (n : Nat) : List Nat → Nat × Nat
  | [] => (n, 0)
  | d :: ds => if n * 10 + d < limit then addWhole (n * 10 + d) ds else (n, ds.length + 1)

/-- Digits of the fraction added to a significand, and how many were. -/
def addFraction (n : Nat) : List Nat → Nat × Nat
  | [] => (n, 0)
  | d :: ds =>
    if n * 10 + d < limit then (addFraction (n * 10 + d) ds).map id (· + 1) else (n, 0)

def power (e : Nat) : Float := Float.ofScientific 1 false e

/-- A double over `10 ^ e`, in steps of at most `10 ^ 308`. -/
def scaleDown (x : Float) (e : Nat) : Float :=
  if e ≤ 308 then x / power e
  else if x == 0.0 then x
  else scaleDown (x / power 308) (e - 308)
termination_by e

/-- A significand times a power of ten, if it is not too large. -/
def scale (n : Nat) (e : Int) : Option Float :=
  let x := (UInt64.ofNat n).toFloat
  if e < 0 then some (scaleDown x (-e).toNat)
  else if e ≤ 308 then
    let y := x * power e.toNat
    if y.isInf then none else some y
  else if x == 0.0 then some x
  else none

/-- The largest exponent that is told apart from an overflow. -/
def exponentLimit : Nat := Nat.pow 2 31

def magnitude (n : Nat) (shift : Int) : Option (Bool × List Nat) → Option Float
  | none => scale n shift
  | some (minus, ds) =>
    let e := Text.ofDigits 10 ds
    if e < exponentLimit then scale n (if minus then shift - e else shift + e)
    else if n ≠ 0 ∧ !minus then none
    else some 0.0

def number? (t : Numeral) : Option Number :=
  let (n, excess) := addWhole 0 t.whole
  let signed (x : Float) : Number := .double (if t.negative then -x else x)
  match t.fraction, t.exponent with
  | none, none =>
    if excess = 0 then
      if !t.negative then some (.unsigned (UInt64.ofNat n))
      else if 0 < n ∧ n ≤ Nat.pow 2 63 then some (.signed (Int64.ofInt (-n)))
      else some (signed (UInt64.ofNat n).toFloat)
    else (magnitude n excess none).map signed
  | fraction, exponent =>
    let (n, shift) := addFraction n (fraction.getD [])
    (magnitude n (excess - shift) exponent).map signed

end Numeral

/-- The fraction behind the whole part, if there is one; a point needs a digit behind it. -/
def scanFraction : List Char → Option (Option (List Nat) × List Char)
  | '.' :: s =>
    match Text.spanDigits s with
    | ([], _) => none
    | (ds, rest) => some (some ds, rest)
  | s => some (none, s)

def scanPower (minus : Bool) (s : List Char) : Option (Option (Bool × List Nat) × List Char) :=
  match Text.spanDigits s with
  | ([], _) => none
  | (ds, rest) => some (some (minus, ds), rest)

def scanExponent : List Char → Option (Option (Bool × List Nat) × List Char)
  | 'e' :: '-' :: s | 'E' :: '-' :: s => scanPower true s
  | 'e' :: '+' :: s | 'E' :: '+' :: s => scanPower false s
  | 'e' :: s | 'E' :: s => scanPower false s
  | s => some (none, s)

/-- The whole part of a numeral; a zero in front stands alone. -/
def scanWhole : List Char → Option (List Nat × List Char)
  | '0' :: s => some ([0], s)
  | s =>
    match Text.spanDigits s with
    | ([], _) => none
    | (ds, rest) => some (ds, rest)

def scanMagnitude (negative : Bool) (s : List Char) : Option (Number × List Char) := do
  let (whole, s) ← scanWhole s
  let (fraction, s) ← scanFraction s
  let (exponent, s) ← scanExponent s
  let n ← Numeral.number? { negative, whole, fraction, exponent }
  return (n, s)

def scanNumber : List Char → Option (Number × List Char)
  | '-' :: s => scanMagnitude true s
  | s => scanMagnitude false s

end PhpScribe.Json
