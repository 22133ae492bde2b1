/-
  PhpScribe.Text.Digits — digits and the numbers they spell.
-/

namespace PhpScribe.Text

def hexDigit? (c : Char) : Option Nat :=
  if '0' ≤ c ∧ c ≤ '9' then some (c.toNat - '0'.toNat)
  else if 'a' ≤ c ∧ c ≤ 'f' then some (c.toNat - 'a'.toNat + 10)
  else if 'A' ≤ c ∧ c ≤ 'F' then some (c.toNat - 'A'.toNat + 10)
  else none

def digit? (c : Char) : Option Nat :=
  if '0' ≤ c ∧ c ≤ '9' then some (c.toNat - '0'.toNat) else none

/-- The decimal digits at the front of a text, as values, and what follows them. -/
def spanDigits : List Char → List Nat × List Char
  | [] => ([], [])
  | c :: s =>
    match digit? c with
    | some d => (spanDigits s).map (d :: ·) id
    | none => ([], c :: s)

def ofDigits (base : Nat) (ds : List Nat) : Nat := ds.foldl (fun n d => n * base + d) 0

def ofHex? (s : List Char) : Option Nat := (s.mapM hexDigit?).map (ofDigits 16)

/-- The character at a code point, if there is one: surrogates and what lies beyond the
    last plane are no characters. -/
def scalar? (n : Nat) : Option Char := if h : n.isValidChar then some (Char.ofNatAux n h) else none

theorem spanDigits_length (s : List Char) :
    (spanDigits s).1.length + (spanDigits s).2.length = s.length := by
  fun_induction spanDigits s <;> simp_all
  omega

theorem spanDigits_length_le (s : List Char) : (spanDigits s).2.length ≤ s.length := by
  have := spanDigits_length s
  omega

end PhpScribe.Text
