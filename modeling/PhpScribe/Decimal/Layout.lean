/-
  PhpScribe.Decimal.Layout — how a decimal is laid out as text.

  Where the decimal point falls close to the digits, a number is written with its
  places (`0.0001`, `120.5`), and a whole number keeps one place (`100.0`); elsewhere
  one digit stands before the point and an exponent follows (`1.5e300`, `1e-5`). A
  `Layout` says where the one ends and the other begins. Either way the text has a
  point or an exponent, so a double is never taken for an integer.
-/

import PhpScribe.Decimal.Shortest

namespace PhpScribe.Decimal

structure Layout where
  first : Int
  last : Int

def zeros (n : Nat) : List Char := List.replicate n '0'

def intDigits (n : Int) : List Char :=
  if n < 0 then '-' :: Nat.toDigits 10 n.natAbs else Nat.toDigits 10 n.natAbs

/-- With its places; a whole number keeps one. -/
def writePlaces (d : Decimal) : List Char :=
  if d.point ≤ 0 then '0' :: '.' :: zeros (-d.point).toNat ++ d.digits
  else
    let n := d.point.toNat
    if n < d.digits.length then d.digits.take n ++ '.' :: d.digits.drop n
    else d.digits ++ zeros (n - d.digits.length) ++ ['.', '0']

/-- With one digit before the point and an exponent. -/
def writeExponent (d : Decimal) : List Char :=
  let mantissa :=
    match d.digits with
    | [] => ['0']
    | [c] => [c]
    | c :: cs => c :: '.' :: cs
  mantissa ++ 'e' :: intDigits (d.point - 1)

def write (r : Layout) (d : Decimal) : List Char :=
  if r.first ≤ d.point && d.point ≤ r.last then writePlaces d else writeExponent d

end PhpScribe.Decimal
