/-
  PhpScribe.Proofs.Literal.Number — the numbers of a PHP literal, read from their text.

  A number is an optional minus and decimal digits. It is an integer when nothing else
  stands in it and its size is below `2 ^ 63` (PHP reads the minus and the digits apart,
  so the least integer has no such text), and a double when it has a point, an exponent
  or both. `integer?` and `isFloat` are these two readings; they are written from PHP's
  grammar and know nothing of the writer.
  - `integer?_intDigits`: every integer but the least is read back from its digits.
  - `isFloat_floatChars`: the text of a double is a double's number, so it is none of an
    integer (`integer?_eq_none`). `FloatText` keeps that fact with the text.
-/

import Mathlib.Data.List.TakeWhile
import PhpScribe.Literal

namespace PhpScribe.Literal

/-! ## Reading -/

/-- Digits and nothing else, and at least one. -/
def allDigits (s : List Char) : Bool := !s.isEmpty && s.all Char.isDigit

def unsigned : List Char → List Char
  | '-' :: s => s
  | s => s

def integer? (w : List Char) : Option Int64 :=
  if allDigits (unsigned w) then
    let n := Nat.ofDigitChars 10 (unsigned w) 0
    if n < Nat.pow 2 63 then some (Int64.ofInt (if w.head? = some '-' then -n else n)) else none
  else none

/-- Digits around one point; they may be missing on one side of it. -/
def isPlaces (s : List Char) : Bool :=
  match s.dropWhile Char.isDigit with
  | '.' :: places => places.all Char.isDigit && (!places.isEmpty || s.head? != some '.')
  | _ => false

/-- A number without its sign that has a point, an exponent or both. -/
def isMagnitude (s : List Char) : Bool :=
  match s.dropWhile (· != 'e') with
  | 'e' :: power =>
    let mantissa := s.takeWhile (· != 'e')
    (isPlaces mantissa || allDigits mantissa) && allDigits (unsigned power)
  | _ => isPlaces s

def isFloat (w : List Char) : Bool := isMagnitude (unsigned w)

structure FloatText where
  chars : List Char
  isFloat_chars : isFloat chars = true
  deriving DecidableEq

/-! ## Digits -/

theorem allDigits_iff {s : List Char} : allDigits s = true ↔ s ≠ [] ∧ ∀ c ∈ s, c.isDigit = true := by
  simp [allDigits]

theorem unsigned_digits {s : List Char} (h : ∀ c ∈ s, c.isDigit = true) : unsigned s = s := by
  cases s with
  | nil => rfl
  | cons c s =>
    have hc : c ≠ '-' := by
      rintro rfl
      exact absurd (h '-' (by simp)) (by decide)
    unfold unsigned
    split
    · next heq => exact absurd (List.cons.inj heq).1 hc
    · rfl

theorem allDigits_toDigits (n : Nat) : allDigits (Nat.toDigits 10 n) = true :=
  allDigits_iff.2 ⟨Nat.toDigits_ne_nil, fun _ hc => Nat.isDigit_of_mem_toDigits (by decide) (by decide) hc⟩

theorem unsigned_intDigits (n : Int) : unsigned (Decimal.intDigits n) = Nat.toDigits 10 n.natAbs := by
  unfold Decimal.intDigits
  split
  · rfl
  · exact unsigned_digits (allDigits_iff.1 (allDigits_toDigits _)).2

theorem head?_intDigits (n : Int) : (Decimal.intDigits n).head? = some '-' ↔ n < 0 := by
  unfold Decimal.intDigits
  split
  · next h => simp [h]
  · next h =>
    refine ⟨fun he => ?_, fun hn => absurd hn h⟩
    have hm : '-' ∈ Nat.toDigits 10 n.natAbs := List.mem_of_mem_head? he
    exact absurd ((allDigits_iff.1 (allDigits_toDigits _)).2 _ hm) (by decide)

/-! ## Integers -/

theorem integer?_intDigits {n : Int64} (h : n ≠ Int64.minValue) :
    integer? (Decimal.intDigits n.toInt) = some n := by
  have hlow : -2 ^ 63 < n.toInt := by
    have h1 := n.le_toInt
    have h2 : n.toInt ≠ -2 ^ 63 := fun he => h (Int64.toInt_inj.1 (he.trans (by decide)))
    omega
  have hhigh := n.toInt_lt
  unfold integer?
  rw [unsigned_intDigits, if_pos (allDigits_toDigits _), Nat.ofDigitChars_ten_toDigits]
  have hpow : Nat.pow 2 63 = 9223372036854775808 := rfl
  rw [hpow, if_pos (by omega)]
  simp only [head?_intDigits]
  have he : (if n.toInt < 0 then -(n.toInt.natAbs : Int) else n.toInt.natAbs) = n.toInt := by
    split <;> omega
  rw [he, Int64.ofInt_toInt]

/-! ## Doubles -/

theorem isPlaces_append {a b : List Char} (ha : ∀ c ∈ a, c.isDigit = true)
    (hb : ∀ c ∈ b, c.isDigit = true) (hne : a ≠ [] ∨ b ≠ []) : isPlaces (a ++ '.' :: b) = true := by
  have hd : (a ++ '.' :: b).dropWhile Char.isDigit = '.' :: b := by
    rw [List.dropWhile_append_of_pos ha]
    rfl
  unfold isPlaces
  rw [hd]
  simp only [Bool.and_eq_true, List.all_eq_true, Bool.or_eq_true]
  refine ⟨hb, ?_⟩
  rcases hne with h | h
  · cases a with
    | nil => exact absurd rfl h
    | cons c a =>
      right
      have hc : c ≠ '.' := by
        rintro rfl
        exact absurd (ha '.' (by simp)) (by decide)
      simpa using hc
  · left
    simpa using h

theorem ne_e_of_isDigit {c : Char} (h : c.isDigit = true) : (c != 'e') = true := by
  have hc : c ≠ 'e' := by
    rintro rfl
    exact absurd h (by decide)
  simpa using hc

theorem isMagnitude_places {a b : List Char} (ha : ∀ c ∈ a, c.isDigit = true)
    (hb : ∀ c ∈ b, c.isDigit = true) (hne : a ≠ [] ∨ b ≠ []) :
    isMagnitude (a ++ '.' :: b) = true := by
  have hall : ∀ c ∈ a ++ '.' :: b, (c != 'e') = true := by
    intro c hc
    rcases List.mem_append.1 hc with hc | hc
    · exact ne_e_of_isDigit (ha c hc)
    · rcases List.mem_cons.1 hc with rfl | hc
      · decide
      · exact ne_e_of_isDigit (hb c hc)
  have hd : (a ++ '.' :: b).dropWhile (· != 'e') = [] := List.dropWhile_eq_nil_iff.2 hall
  unfold isMagnitude
  rw [hd]
  exact isPlaces_append ha hb hne

theorem isMagnitude_exponent {m power : List Char} (hm : ∀ c ∈ m, (c != 'e') = true)
    (h : isPlaces m = true ∨ allDigits m = true) (hp : allDigits (unsigned power) = true) :
    isMagnitude (m ++ 'e' :: power) = true := by
  have hd : (m ++ 'e' :: power).dropWhile (· != 'e') = 'e' :: power := by
    rw [List.dropWhile_append_of_pos hm]
    rfl
  have ht : (m ++ 'e' :: power).takeWhile (· != 'e') = m := by
    rw [List.takeWhile_append_of_pos hm]
    simp
  unfold isMagnitude
  rw [hd, ht]
  simpa [hp] using h

variable {d : Decimal}

theorem isMagnitude_writePlaces (hd : ∀ c ∈ d.digits, c.isDigit = true) :
    isMagnitude (Decimal.writePlaces d) = true := by
  have hz : ∀ n, ∀ c ∈ Decimal.zeros n, c.isDigit = true := by
    intro n c hc
    rw [(List.mem_replicate.1 hc).2]
    decide
  unfold Decimal.writePlaces
  split
  · refine isMagnitude_places (a := ['0']) (by simp) ?_ (Or.inl (by simp))
    intro c hc
    rcases List.mem_append.1 hc with hc | hc
    · exact hz _ c hc
    · exact hd c hc
  · dsimp only
    split
    · next hlt =>
      refine isMagnitude_places (fun c hc => hd c (List.mem_of_mem_take hc))
        (fun c hc => hd c (List.mem_of_mem_drop hc)) (Or.inr ?_)
      simpa using hlt
    · refine isMagnitude_places ?_ (by simp) (Or.inr (by simp))
      intro c hc
      rcases List.mem_append.1 hc with hc | hc
      · exact hd c hc
      · exact hz _ c hc

theorem isMagnitude_writeExponent (hne : d.digits ≠ [])
    (hd : ∀ c ∈ d.digits, c.isDigit = true) : isMagnitude (Decimal.writeExponent d) = true := by
  have hp : allDigits (unsigned (Decimal.intDigits (d.point - 1))) = true := by
    rw [unsigned_intDigits]
    exact allDigits_toDigits _
  unfold Decimal.writeExponent
  split
  · next h => exact absurd h hne
  · next c h =>
    have hc := hd c (by simp [h])
    exact isMagnitude_exponent (by simpa using ne_e_of_isDigit hc)
      (Or.inr (allDigits_iff.2 ⟨by simp, by simpa using hc⟩)) hp
  · next c cs _ h =>
    have hc := hd c (by simp [h])
    have hcs : ∀ x ∈ cs, x.isDigit = true := fun x hx => hd x (by simp [h, hx])
    refine isMagnitude_exponent ?_
      (Or.inl (isPlaces_append (a := [c]) (by simpa using hc) hcs (Or.inl (by simp)))) hp
    intro x hx
    rcases List.mem_cons.1 hx with rfl | hx
    · exact ne_e_of_isDigit hc
    · rcases List.mem_cons.1 hx with rfl | hx
      · decide
      · exact ne_e_of_isDigit (hcs x hx)

theorem isMagnitude_write (hne : d.digits ≠ []) (hd : ∀ c ∈ d.digits, c.isDigit = true)
    (r : Decimal.Layout) : isMagnitude (Decimal.write r d) = true := by
  unfold Decimal.write
  split
  · exact isMagnitude_writePlaces hd
  · exact isMagnitude_writeExponent hne hd

/-- A sign is no part of a magnitude. -/
theorem unsigned_magnitude {s : List Char} (h : isMagnitude s = true) : unsigned s = s := by
  unfold unsigned
  split
  · next t =>
    exfalso
    have hp : ∀ u, isPlaces ('-' :: u) = false := fun _ => rfl
    have ha : ∀ u, allDigits ('-' :: u) = false := fun _ => rfl
    simp only [isMagnitude, List.dropWhile_cons, List.takeWhile_cons] at h
    split at h <;> simp [hp, ha] at h
  · rfl

/-- The characters of a double; the sign of a zero is written. -/
def floatChars (x : Float) : List Char :=
  let digits := Decimal.write floatLayout (Decimal.ofFloat x)
  if x.toBits ≥ 0x8000000000000000 then '-' :: digits else digits

theorem isFloat_floatChars (x : Float) : isFloat (floatChars x) = true := by
  have h : isMagnitude (Decimal.write floatLayout (Decimal.ofFloat x)) = true :=
    isMagnitude_write (Decimal.ofBits_ne_nil _) (fun _ hc => Decimal.ofBits_isDigit hc) _
  unfold isFloat floatChars
  dsimp only
  split
  · exact h
  · rw [unsigned_magnitude h]
    exact h

def floatText (x : Float) : FloatText := ⟨floatChars x, isFloat_floatChars x⟩

/-- No word is an integer and a double. -/
theorem integer?_eq_none {w : List Char} (h : isFloat w = true) : integer? w = none := by
  unfold integer?
  split
  · next ha =>
    exfalso
    obtain ⟨-, hd⟩ := allDigits_iff.1 ha
    have h1 : (unsigned w).dropWhile (· != 'e') = [] :=
      List.dropWhile_eq_nil_iff.2 fun c hc => ne_e_of_isDigit (hd c hc)
    have h2 : (unsigned w).dropWhile Char.isDigit = [] := List.dropWhile_eq_nil_iff.2 hd
    simp only [isFloat, isMagnitude, h1, isPlaces, h2] at h
    exact nomatch h
  · rfl

end PhpScribe.Literal
