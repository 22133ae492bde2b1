/-
  PhpScribe.Decimal.Shortest — the shortest decimal that reads back as a given double.

  A non-zero double is `m · 2 ^ q`. The reals that round to it form an interval; its
  ends belong to it exactly when `m` is even, and below a power of two the gap is half
  as wide. For one, two, … seventeen digits the two neighbours of the value on that
  decimal grid are tested in exact arithmetic: the first grid with a point in the
  interval gives the digits, of two such points the nearer, of two equally near the
  upper.

  A `Decimal` stands for `0.d₁d₂… · 10 ^ point`. The digits of a double are decimal digits
  (`ofBits_isDigit`), and there is at least one (`ofBits_ne_nil`).
-/

namespace PhpScribe

/-- The number `0.d₁d₂… · 10 ^ point`. -/
structure Decimal where
  digits : List Char
  point : Int
  deriving DecidableEq, Repr

namespace Decimal

/-- A positive number in the middle of the interval that rounds to it, all over one
    denominator. -/
structure Interval where
  low : Nat
  middle : Nat
  high : Nat
  den : Nat
  closed : Bool
  deriving DecidableEq, Repr

/-- The interval of `m · 2 ^ q`; `narrow`: the gap below is half the gap above. -/
def Interval.ofBinary (m : Nat) (q : Int) (narrow : Bool) : Interval :=
  let scale := Nat.pow 2 (q - 2).toNat
  { low := (4 * m - if narrow then 1 else 2) * scale
    middle := 4 * m * scale
    high := (4 * m + 2) * scale
    den := Nat.pow 2 (2 - q).toNat
    closed := m % 2 == 0 }

def Interval.contains (t : Interval) (e : Int) (d : Nat) : Bool :=
  let x := d * Nat.pow 10 e.toNat * t.den
  let s := Nat.pow 10 (-e).toNat
  if t.closed then t.low * s ≤ x && x ≤ t.high * s else t.low * s < x && x < t.high * s

def Interval.floorAt (t : Interval) (e : Int) : Nat :=
  t.middle * Nat.pow 10 (-e).toNat / (t.den * Nat.pow 10 e.toNat)

/-- The middle is nearer to `d · 10 ^ e` than to the next point of the grid. -/
def Interval.nearsLower (t : Interval) (e : Int) (d : Nat) : Bool :=
  2 * t.middle * Nat.pow 10 (-e).toNat < (2 * d + 1) * (t.den * Nat.pow 10 e.toNat)

/-- The point of the grid `10 ^ e` in the interval that is nearest to the middle. -/
def Interval.onGrid (t : Interval) (e : Int) : Option Nat :=
  let d := t.floorAt e
  match t.contains e d, t.contains e (d + 1) with
  | true, true => some (if t.nearsLower e d then d else d + 1)
  | true, false => some d
  | false, true => some (d + 1)
  | false, false => none

/-- The power of ten just above the middle, for a middle of at least `10 ^ -324`. -/
def Interval.top (t : Interval) : Int :=
  (Nat.toDigits 10 (t.middle * Nat.pow 10 324 / t.den)).length - 324

def ofNat (d : Nat) (e : Int) : Decimal :=
  let ds := Nat.toDigits 10 d
  let kept := (ds.reverse.dropWhile (· == '0')).reverse
  { digits := if kept.isEmpty then ['0'] else kept, point := ds.length + e }

/-- The first grid of at most `n` more digits that has a point in the interval. -/
def Interval.search (t : Interval) : Nat → Int → Decimal
  | 0, e => ofNat (t.floorAt e) e
  | n + 1, e =>
    match t.onGrid e with
    | some d => ofNat d e
    | none => t.search n (e - 1)

def Interval.shortest (t : Interval) : Decimal := t.search 17 (t.top - 1)

/-- The shortest decimal that reads back as the finite double with these bits, the
    sign apart. -/
def ofBits (bits : UInt64) : Decimal :=
  let fraction : Nat := bits.toNat % Nat.pow 2 52
  let biased : Nat := bits.toNat / Nat.pow 2 52 % Nat.pow 2 11
  if biased = 0 then
    if fraction = 0 then ofNat 0 0 else (Interval.ofBinary fraction (-1074) false).shortest
  else
    (Interval.ofBinary (Nat.pow 2 52 + fraction) ((biased : Int) - 1075)
      (fraction == 0 && 1 < biased)).shortest

def ofFloat (x : Float) : Decimal := ofBits x.toBits

/-! ## Digits -/

theorem ofNat_ne_nil (d : Nat) (e : Int) : (ofNat d e).digits ≠ [] := by
  simp only [ofNat]
  split
  · simp
  · simp_all

theorem ofNat_isDigit {d : Nat} {e : Int} {c : Char} (h : c ∈ (ofNat d e).digits) :
    c.isDigit = true := by
  simp only [ofNat] at h
  split at h
  · simp_all
  · have h' := List.mem_reverse.1 h
    have h'' := (List.dropWhile_sublist _).subset h'
    exact Nat.isDigit_of_mem_toDigits (by decide) (by decide) (List.mem_reverse.1 h'')

theorem search_ne_nil (t : Interval) (n : Nat) (e : Int) : (t.search n e).digits ≠ [] := by
  induction n generalizing e with
  | zero => exact ofNat_ne_nil _ _
  | succ n ih =>
    simp only [Interval.search]
    split
    · exact ofNat_ne_nil _ _
    · exact ih _

theorem search_isDigit {t : Interval} {n : Nat} {e : Int} {c : Char}
    (h : c ∈ (t.search n e).digits) : c.isDigit = true := by
  induction n generalizing e with
  | zero => exact ofNat_isDigit h
  | succ n ih =>
    simp only [Interval.search] at h
    split at h
    · exact ofNat_isDigit h
    · exact ih h

theorem ofBits_ne_nil (bits : UInt64) : (ofBits bits).digits ≠ [] := by
  simp only [ofBits]
  split
  · split
    · exact ofNat_ne_nil _ _
    · exact search_ne_nil _ _ _
  · exact search_ne_nil _ _ _

theorem ofBits_isDigit {bits : UInt64} {c : Char} (h : c ∈ (ofBits bits).digits) :
    c.isDigit = true := by
  simp only [ofBits] at h
  split at h
  · split at h
    · exact ofNat_isDigit h
    · exact search_isDigit h
  · exact search_isDigit h

end Decimal

end PhpScribe
