/-
  PhpScribe.Toml.Scalar — scalars that are written without quotes.

  Booleans; integers in four bases, of 64 bits with a sign; doubles with a fraction, an
  exponent or both, `inf` and `nan`; dates and times. Single underscores may stand
  between digits, and a decimal whole part starts with no needless zero. A date is a day
  of the calendar. What fits none of these forms is no scalar.

  A little more has the form of a number than has a value: a number that is too large for
  its type, a base without digits behind it, and groups of digits and other characters
  such as `1_2a`, where each underscore stands between hexadecimal digits.
-/

import PhpScribe.Decimal.Nearest
import PhpScribe.Text.Digits
import PhpScribe.Text.Search
import PhpScribe.Toml.Node

namespace PhpScribe.Toml.Scalar

/-! ## Numbers -/

/-- A text of digits in which single underscores may stand between two. -/
def digits? (digit? : Char → Option Nat) : List Char → Option (List Nat)
  | [] => none
  | [c] => (digit? c).map ([·])
  | c :: '_' :: s => do
    let d ← digit? c
    let ds ← digits? digit? s
    return d :: ds
  | c :: s => do
    let d ← digit? c
    let ds ← digits? digit? s
    return d :: ds

def digitBelow (base : Nat) (c : Char) : Option Nat := (Text.hexDigit? c).filter (· < base)

def digitsOfWhole? : List Char → Option (List Nat)
  | ['0'] => some [0]
  | '0' :: _ => none
  | s => digits? Text.digit? s

/-- An integer of 64 bits with a sign, unless it is too large. -/
def integerOf (negative : Bool) (n : Nat) : Scalar :=
  if n < Nat.pow 2 63 ∨ negative ∧ n = Nat.pow 2 63 then
    .integer (Int64.ofInt (if negative then -n else n))
  else .valueless

def based? (base : Nat) (s : List Char) : Option Scalar :=
  if s.isEmpty then some .valueless
  else (digits? (digitBelow base) s).map fun ds => integerOf false (Text.ofDigits base ds)

def isHexDigit (c : Char) : Bool := (Text.hexDigit? c).isSome

/-- Digits, an underscore, and groups with underscores between them: each group starts
    with a hexadecimal digit, and each but the last ends in one. -/
def isGrouped (s : List Char) : Bool :=
  match Text.spanDigits s with
  | (d :: _, '_' :: rest) =>
    let groups := Text.parts '_' rest
    d != 0 && groups.all (·.head?.any isHexDigit) &&
      groups.dropLast.all (·.getLast?.any isHexDigit)
  | _ => false

def whole? (negative : Bool) (s : List Char) : Option Scalar :=
  match digitsOfWhole? s with
  | some ds => some (integerOf negative (Text.ofDigits 10 ds))
  | none => if isGrouped s then some .valueless else none

def cutAt (p : Char → Bool) : List Char → List Char × Option (List Char)
  | [] => ([], none)
  | c :: s => if p c then ([], some s) else (cutAt p s).map (c :: ·) id

def exponent? : List Char → Option Int
  | '-' :: s => (digits? Text.digit? s).map fun ds => -Text.ofDigits 10 ds
  | '+' :: s => (digits? Text.digit? s).map fun ds => Text.ofDigits 10 ds
  | s => (digits? Text.digit? s).map fun ds => Text.ofDigits 10 ds

/-- A double, unless it is too large. -/
def floatOf (negative : Bool) (whole fraction : List Nat) (exponent : Int) : Scalar :=
  let x := Decimal.nearest (Text.ofDigits 10 (whole ++ fraction)) (exponent - fraction.length)
  if x.isInf then .valueless else .float (if negative then -x else x)

def decimal? (negative : Bool) (s : List Char) : Option Scalar :=
  let (mantissa, e) := cutAt (fun c => c == 'e' || c == 'E') s
  let (w, f) := cutAt (· == '.') mantissa
  match f, e with
  | none, none => whole? negative w
  | _, _ => do
    let ds ← digitsOfWhole? w
    let fraction ← (f.map (digits? Text.digit?)).getD (some [])
    let exponent ← (e.map exponent?).getD (some 0)
    return floatOf negative ds fraction exponent

def signed? (negative : Bool) : List Char → Option Scalar
  | ['i', 'n', 'f'] => some (.float (if negative then -Decimal.infinity else Decimal.infinity))
  | ['n', 'a', 'n'] => some (.float (0.0 / 0.0))
  | s => decimal? negative s

def number? : List Char → Option Scalar
  | '0' :: 'x' :: s => based? 16 s
  | '0' :: 'o' :: s => based? 8 s
  | '0' :: 'b' :: s => based? 2 s
  | '-' :: s => signed? true s
  | '+' :: s => signed? false s
  | s => signed? false s

/-! ## Dates and times -/

def fixed? (n : Nat) (s : List Char) : Option (Nat × List Char) :=
  if n ≤ s.length then
    ((s.take n).mapM Text.digit?).map fun ds => (Text.ofDigits 10 ds, s.drop n)
  else none

def isLeap (year : Nat) : Bool := year % 4 == 0 && (year % 100 != 0 || year % 400 == 0)

def daysIn (year : Nat) : Nat → Nat
  | 2 => if isLeap year then 29 else 28
  | 4 | 6 | 9 | 11 => 30
  | _ => 31

def expect (c : Char) : List Char → Option (List Char)
  | [] => none
  | d :: s => if d = c then some s else none

/-- What follows a day of the calendar, `1979-05-27`. -/
def afterDate (s : List Char) : Option (List Char) := do
  let (year, s) ← fixed? 4 s
  let s ← expect '-' s
  let (month, s) ← fixed? 2 s
  let s ← expect '-' s
  let (day, s) ← fixed? 2 s
  if 1 ≤ month ∧ month ≤ 12 ∧ 1 ≤ day ∧ day ≤ daysIn year month then some s else none

def afterFraction : List Char → Option (List Char)
  | '.' :: s =>
    match Text.spanDigits s with
    | ([], _) => none
    | (_, rest) => some rest
  | s => some s

/-- What follows the seconds, which may be left out. -/
def afterSeconds : List Char → Option (List Char)
  | ':' :: s => do
    let (second, s) ← fixed? 2 s
    if second ≤ 60 then afterFraction s else none
  | s => some s

def afterClock (s : List Char) : Option (List Char) := do
  let (hour, s) ← fixed? 2 s
  let s ← expect ':' s
  let (minute, s) ← fixed? 2 s
  if hour ≤ 23 ∧ minute ≤ 59 then some s else none

def afterTime (s : List Char) : Option (List Char) := (afterClock s).bind afterSeconds

/-- The text is nothing, or the distance to universal time. -/
def isOffset : List Char → Bool
  | [] | ['Z'] | ['z'] => true
  | '+' :: s | '-' :: s => afterClock s == some []
  | _ => false

def isDatetime (s : List Char) : Bool :=
  match afterDate s with
  | some [] => true
  | some (c :: s) => (c == 'T' || c == 't' || c == ' ') && (afterTime s).any isOffset
  | none => afterTime s == some []

def read? (s : List Char) : Option Scalar :=
  if s = ['t', 'r', 'u', 'e'] then some (.bool true)
  else if s = ['f', 'a', 'l', 's', 'e'] then some (.bool false)
  else if isDatetime s then some .datetime
  else number? s

end PhpScribe.Toml.Scalar
