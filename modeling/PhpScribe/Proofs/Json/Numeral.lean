/-
  PhpScribe.Proofs.Json.Numeral — numerals as they are written, and the integers they are.

  A numeral is written with an optional minus, a whole part without zeros in front, and
  perhaps a fraction and an exponent (`Numeral.Spelled`). It ends where the next character
  cannot go on with it (`Numeral.Stops`). The scanner takes exactly the numerals so written
  that stand for a number (`scanNumber_eq_some`).

  A numeral without fraction and exponent is an integer as it is written, however large
  (`Numeral.integer`). `becomes_of_number?`: it becomes that very integer when it lies in the
  signed 64-bit range and is not minus zero, it has no value when it lies above that range
  but still in 64 bits, and else it becomes a double.
-/

import PhpScribe.Json.Number
import PhpScribe.Proofs.Outcome

namespace PhpScribe

/-! ## Digits -/

namespace Text

def digitChars (ds : List Nat) : List Char := ds.map Nat.digitChar

def Ends (p : Char → Bool) (s : List Char) : Prop := ∀ c ∈ s.head?, p c = false

theorem ends_nil (p : Char → Bool) : Ends p [] := fun _ h => nomatch h

@[simp] theorem ends_cons {p : Char → Bool} {c : Char} {s : List Char} : Ends p (c :: s) ↔ p c = false := by
  simp [Ends]

theorem digit?_digitChar {d : Nat} (h : d < 10) : digit? (Nat.digitChar d) = some d := by
  have hall : ∀ d < 10, digit? (Nat.digitChar d) = some d := by decide
  exact hall d h

theorem isDigit_digitChar {d : Nat} (h : d < 10) : (Nat.digitChar d).isDigit = true := by
  have hall : ∀ d < 10, (Nat.digitChar d).isDigit = true := by decide
  exact hall d h

theorem isDigit_iff {c : Char} : c.isDigit = true ↔ '0' ≤ c ∧ c ≤ '9' := by
  simp [Char.isDigit, Char.le_def]

theorem digit?_eq_none {c : Char} : digit? c = none ↔ c.isDigit = false := by
  rw [← Bool.not_eq_true, isDigit_iff]
  simp [digit?]

theorem digit?_eq_some {c : Char} {d : Nat} : digit? c = some d ↔ d < 10 ∧ c = Nat.digitChar d := by
  constructor
  · intro h
    simp only [digit?, Option.ite_none_right_eq_some, Option.some.injEq, Char.le_def,
      UInt32.le_iff_toNat_le] at h
    obtain ⟨⟨h0, h9⟩, rfl⟩ := h
    have hzero : '0'.toNat = 48 := rfl
    have h0 : 48 ≤ c.toNat := h0
    have h9 : c.toNat ≤ 57 := h9
    have hd : c.toNat - '0'.toNat < 10 := by omega
    refine ⟨hd, Char.toNat_inj.1 ?_⟩
    rw [Nat.toNat_digitChar_of_lt_ten hd]
    omega
  · rintro ⟨hd, rfl⟩
    exact digit?_digitChar hd

theorem spanDigits_digitChars {ds : List Nat} {rest : List Char} (hd : ∀ d ∈ ds, d < 10)
    (hr : Ends Char.isDigit rest) : spanDigits (digitChars ds ++ rest) = (ds, rest) := by
  induction ds with
  | nil =>
    cases rest with
    | nil => rfl
    | cons c rest =>
      rw [digitChars, List.map_nil, List.nil_append, spanDigits, digit?_eq_none.2 (ends_cons.1 hr)]
  | cons d ds ih =>
    have ih := ih fun e he => hd e (List.mem_cons_of_mem _ he)
    rw [digitChars, List.map_cons, List.cons_append, spanDigits, digit?_digitChar (hd d List.mem_cons_self)]
    rw [digitChars] at ih
    simp [ih]

theorem of_spanDigits {s rest : List Char} {ds : List Nat} (h : spanDigits s = (ds, rest)) :
    s = digitChars ds ++ rest ∧ (∀ d ∈ ds, d < 10) ∧ Ends Char.isDigit rest := by
  induction s generalizing ds with
  | nil =>
    cases h
    exact ⟨rfl, nofun, ends_nil _⟩
  | cons c s ih =>
    rw [spanDigits] at h
    cases hc : digit? c with
    | none =>
      rw [hc] at h
      cases h
      exact ⟨rfl, nofun, ends_cons.2 (digit?_eq_none.1 hc)⟩
    | some d =>
      rw [hc] at h
      obtain ⟨hd, rfl⟩ := digit?_eq_some.1 hc
      obtain ⟨rfl, hs⟩ := Prod.mk.inj h
      have hspan : spanDigits s = ((spanDigits s).1, rest) := Prod.ext rfl hs
      obtain ⟨hs', hds, hr⟩ := ih hspan
      refine ⟨?_, ?_, hr⟩
      · rw [digitChars, List.map_cons, List.cons_append]
        exact congrArg _ hs'
      · intro e he
        rcases List.mem_cons.1 he with rfl | he
        · exact hd
        · exact hds e he

end Text

namespace Json

open Text (digitChars Ends ends_nil ends_cons)

/-! ## The parts of a numeral -/

def IsDigits (ds : List Nat) : Prop := ds ≠ [] ∧ ∀ d ∈ ds, d < 10

inductive WholeText : List Nat → List Char → Prop
  | zero : WholeText [0] ['0']
  | digits {d : Nat} {ds : List Nat} : d ≠ 0 → IsDigits (d :: ds) → WholeText (d :: ds) (digitChars (d :: ds))

inductive FractionText : Option (List Nat) → List Char → Prop
  | none : FractionText none []
  | some {ds : List Nat} : IsDigits ds → FractionText (some ds) ('.' :: digitChars ds)

inductive ExponentText : Option (Bool × List Nat) → List Char → Prop
  | none : ExponentText none []
  | some {e : Char} {sign : List Char} {ds : List Nat} :
    e = 'e' ∨ e = 'E' → sign = [] ∨ sign = ['+'] ∨ sign = ['-'] → IsDigits ds →
      ExponentText (some (decide (sign = ['-']), ds)) (e :: (sign ++ digitChars ds))

def goesOnWhole (ds : List Nat) (c : Char) : Bool := ds != [0] && c.isDigit

def goesOnFraction : Option (List Nat) → Char → Bool
  | none, c => c == '.'
  | some _, c => c.isDigit

def goesOnExponent : Option (Bool × List Nat) → Char → Bool
  | none, c => c == 'e' || c == 'E'
  | some _, c => c.isDigit

theorem isDigits_of_span {s rest : List Char} {ds : List Nat} (h : Text.spanDigits s = (ds, rest))
    (hne : ds ≠ []) : s = digitChars ds ++ rest ∧ IsDigits ds ∧ Ends Char.isDigit rest := by
  obtain ⟨hs, hd, hr⟩ := Text.of_spanDigits h
  exact ⟨hs, ⟨hne, hd⟩, hr⟩

theorem scanWhole_append {ds : List Nat} {w rest : List Char} (h : WholeText ds w)
    (hr : Ends (goesOnWhole ds) rest) : scanWhole (w ++ rest) = some (ds, rest) := by
  cases h with
  | zero => rfl
  | @digits d ds hd0 hds =>
    have hd : d < 10 := hds.2 d List.mem_cons_self
    have hr : Ends Char.isDigit rest := fun c hc => by simpa [goesOnWhole, hd0] using hr c hc
    have hc : Nat.digitChar d ≠ '0' := by
      have hall : ∀ d < 10, d ≠ 0 → Nat.digitChar d ≠ '0' := by decide
      exact hall d hd hd0
    have hs := Text.spanDigits_digitChars hds.2 hr
    rw [digitChars, List.map_cons, List.cons_append] at hs ⊢
    unfold scanWhole
    split
    · next heq => exact absurd (List.cons.inj heq).1 hc
    · rw [hs]

theorem of_scanWhole {s rest : List Char} {ds : List Nat} (h : scanWhole s = some (ds, rest)) :
    ∃ w, WholeText ds w ∧ Ends (goesOnWhole ds) rest ∧ s = w ++ rest := by
  unfold scanWhole at h
  split at h
  · cases h
    exact ⟨_, .zero, fun _ _ => rfl, rfl⟩
  · next h0 =>
    split at h
    · exact nomatch h
    · next ds' rest' hne hs =>
      cases h
      obtain ⟨rfl, hds, hr⟩ := isDigits_of_span hs hne
      cases ds with
      | nil => exact absurd rfl hds.1
      | cons d ds =>
        have hd0 : d ≠ 0 := by
          rintro rfl
          exact h0 _ rfl
        exact ⟨_, .digits hd0 hds, fun c hc => by simp [goesOnWhole, hr c hc], rfl⟩

theorem scanFraction_append {f : Option (List Nat)} {w rest : List Char} (h : FractionText f w)
    (hr : Ends (goesOnFraction f) rest) : scanFraction (w ++ rest) = some (f, rest) := by
  cases h with
  | none =>
    unfold scanFraction
    split
    · next heq =>
      rw [List.nil_append] at heq
      exact absurd hr (by simp [heq, goesOnFraction])
    · rfl
  | @some ds hds =>
    have hs := Text.spanDigits_digitChars hds.2 hr
    rw [List.cons_append, scanFraction, hs]
    split
    · next heq => exact absurd (Prod.mk.inj heq).1 hds.1
    · next heq =>
      cases heq
      rfl

theorem of_scanFraction {s rest : List Char} {f : Option (List Nat)} (h : scanFraction s = some (f, rest)) :
    ∃ w, FractionText f w ∧ Ends (goesOnFraction f) rest ∧ s = w ++ rest := by
  unfold scanFraction at h
  split at h
  · split at h
    · exact nomatch h
    · next ds' rest' hne hs =>
      cases h
      obtain ⟨rfl, hds, hr⟩ := isDigits_of_span hs hne
      exact ⟨_, .some hds, hr, rfl⟩
  · next hne =>
    cases h
    refine ⟨_, .none, fun c hc => ?_, rfl⟩
    cases s with
    | nil => exact nomatch hc
    | cons d s =>
      cases hc
      have hc : c ≠ '.' := fun hp => hne s (by rw [hp])
      simpa [goesOnFraction] using hc

theorem scanPower_append {minus : Bool} {ds : List Nat} {rest : List Char} (h : IsDigits ds)
    (hr : Ends Char.isDigit rest) : scanPower minus (digitChars ds ++ rest) = some (some (minus, ds), rest) := by
  rw [scanPower, Text.spanDigits_digitChars h.2 hr]
  split
  · next heq => exact absurd (Prod.mk.inj heq).1 h.1
  · next heq =>
    cases heq
    rfl

theorem of_scanPower {minus : Bool} {s rest : List Char} {e : Option (Bool × List Nat)}
    (h : scanPower minus s = some (e, rest)) :
    ∃ ds, e = some (minus, ds) ∧ IsDigits ds ∧ Ends Char.isDigit rest ∧ s = digitChars ds ++ rest := by
  unfold scanPower at h
  split at h
  · exact nomatch h
  · next ds' rest' hne hs =>
    cases h
    obtain ⟨rfl, hds, hr⟩ := isDigits_of_span hs hne
    exact ⟨_, rfl, hds, hr, rfl⟩

/-- Digits have no sign in front of them. -/
theorem digitChars_append_ne {ds : List Nat} (h : IsDigits ds) (rest s : List Char) :
    digitChars ds ++ rest ≠ '-' :: s ∧ digitChars ds ++ rest ≠ '+' :: s := by
  cases ds with
  | nil => exact absurd rfl h.1
  | cons d ds =>
    have hd := Text.isDigit_digitChar (h.2 d List.mem_cons_self)
    rw [digitChars, List.map_cons, List.cons_append]
    constructor
    all_goals
      intro he
      rw [(List.cons.inj he).1] at hd
      exact absurd hd (by decide)

theorem scanExponent_letter {e : Char} {s : List Char} (he : e = 'e' ∨ e = 'E')
    (hm : ∀ u, s ≠ '-' :: u) (hp : ∀ u, s ≠ '+' :: u) : scanExponent (e :: s) = scanPower false s := by
  rcases he with rfl | rfl
  all_goals
    rw [scanExponent]
    · exact hm
    · exact hp

theorem scanExponent_append {e : Option (Bool × List Nat)} {w rest : List Char} (h : ExponentText e w)
    (hr : Ends (goesOnExponent e) rest) : scanExponent (w ++ rest) = some (e, rest) := by
  cases h with
  | none =>
    have hne : ∀ c s, rest = c :: s → c ≠ 'e' ∧ c ≠ 'E' := by
      rintro c s rfl
      simpa [goesOnExponent] using hr
    rw [List.nil_append]
    unfold scanExponent
    split <;> first
      | rfl
      | exact absurd rfl (hne _ _ rfl).1
      | exact absurd rfl (hne _ _ rfl).2
  | @some e sign ds he hsign hds =>
    have hp (minus : Bool) : scanPower minus (digitChars ds ++ rest) = some (some (minus, ds), rest) :=
      scanPower_append hds hr
    obtain ⟨hm, hpl⟩ := forall_and.1 (digitChars_append_ne hds rest)
    rw [List.cons_append, List.append_assoc]
    rcases hsign with rfl | rfl | rfl
    · rw [List.nil_append, scanExponent_letter he hm hpl]
      exact hp false
    · rcases he with rfl | rfl <;> exact hp false
    · rcases he with rfl | rfl <;> exact hp true

theorem of_scanExponent {s rest : List Char} {e : Option (Bool × List Nat)}
    (h : scanExponent s = some (e, rest)) :
    ∃ w, ExponentText e w ∧ Ends (goesOnExponent e) rest ∧ s = w ++ rest := by
  unfold scanExponent at h
  split at h
  case h_7 _ _ _ _ h5 h6 =>
    cases h
    refine ⟨_, .none, fun c hc => ?_, rfl⟩
    cases s with
    | nil => exact nomatch hc
    | cons d s =>
      cases hc
      have hc : c ≠ 'e' ∧ c ≠ 'E' := ⟨fun hl => h5 s (by rw [hl]), fun hl => h6 s (by rw [hl])⟩
      simpa [goesOnExponent] using hc
  all_goals
    obtain ⟨ds, rfl, hds, hr, rfl⟩ := of_scanPower h
  · exact ⟨_, .some (.inl rfl) (.inr (.inr rfl)) hds, hr, rfl⟩
  · exact ⟨_, .some (.inr rfl) (.inr (.inr rfl)) hds, hr, rfl⟩
  · exact ⟨_, .some (.inl rfl) (.inr (.inl rfl)) hds, hr, rfl⟩
  · exact ⟨_, .some (.inr rfl) (.inr (.inl rfl)) hds, hr, rfl⟩
  · exact ⟨_, .some (.inl rfl) (.inl rfl) hds, hr, rfl⟩
  · exact ⟨_, .some (.inr rfl) (.inl rfl) hds, hr, rfl⟩

/-! ## Numerals -/

namespace Numeral

def Magnitude (t : Numeral) (cs : List Char) : Prop :=
  ∃ w f e, WholeText t.whole w ∧ FractionText t.fraction f ∧ ExponentText t.exponent e ∧ cs = w ++ (f ++ e)

def Spelled (t : Numeral) (cs : List Char) : Prop :=
  if t.negative then ∃ m, t.Magnitude m ∧ cs = '-' :: m else t.Magnitude cs

/-- The numeral does not go on in the text: neither does its last part, nor does a part
    begin that it does not have. -/
def Stops (t : Numeral) (rest : List Char) : Prop :=
  Ends (goesOnExponent t.exponent) rest ∧ (t.exponent = none →
    Ends (goesOnFraction t.fraction) rest ∧ (t.fraction = none → Ends (goesOnWhole t.whole) rest))

/-- A numeral ends where none of its parts goes on. -/
theorem stops_iff {t : Numeral} {f e rest : List Char} (hf : FractionText t.fraction f)
    (he : ExponentText t.exponent e) :
    t.Stops rest ↔ Ends (goesOnWhole t.whole) (f ++ (e ++ rest)) ∧
      Ends (goesOnFraction t.fraction) (e ++ rest) ∧ Ends (goesOnExponent t.exponent) rest := by
  obtain ⟨negative, whole, fraction, exponent⟩ := t
  dsimp only at hf he
  have hdot : goesOnWhole whole '.' = false := by simp [goesOnWhole, Char.isDigit]
  cases he with
  | none =>
    cases hf with
    | none =>
      simp only [Stops, List.nil_append, true_implies]
      rw [and_comm, and_comm (a := Ends (goesOnFraction none) rest), and_assoc]
    | some hds => simp [Stops, hdot, and_comm]
  | @some l sign ds hl hsign hds =>
    have hw : goesOnWhole whole l = false := by
      rcases hl with rfl | rfl <;> simp [goesOnWhole, Char.isDigit]
    have hfl : goesOnFraction fraction l = false := by
      rcases hl with rfl | rfl <;> cases fraction <;> rfl
    cases hf with
    | none => simp [Stops, hw, hfl]
    | some hds' => simp [Stops, hdot, hfl]

theorem scanMagnitude_append {t : Numeral} {cs rest : List Char} {n : Number} (ht : t.Magnitude cs)
    (hr : t.Stops rest) (hn : t.number? = some n) :
    scanMagnitude t.negative (cs ++ rest) = some (n, rest) := by
  obtain ⟨w, f, e, hw, hf, he, rfl⟩ := ht
  obtain ⟨h1, h2, h3⟩ := (stops_iff hf he).1 hr
  rw [List.append_assoc, List.append_assoc, scanMagnitude, scanWhole_append hw h1]
  simp [scanFraction_append hf h2, scanExponent_append he h3, hn]

theorem of_scanMagnitude {negative : Bool} {s rest : List Char} {n : Number}
    (h : scanMagnitude negative s = some (n, rest)) :
    ∃ (t : Numeral) (cs : List Char), t.negative = negative ∧ t.Magnitude cs ∧ t.Stops rest ∧
      t.number? = some n ∧ s = cs ++ rest := by
  simp only [scanMagnitude, bind, Option.bind_eq_some_iff] at h
  obtain ⟨⟨ds, s₁⟩, hs₁, ⟨f, s₂⟩, hs₂, ⟨e, s₃⟩, hs₃, m, hm, h⟩ := h
  cases h
  obtain ⟨w, hw, h1, rfl⟩ := of_scanWhole hs₁
  obtain ⟨cf, hf, h2, rfl⟩ := of_scanFraction hs₂
  obtain ⟨ce, he, h3, rfl⟩ := of_scanExponent hs₃
  refine ⟨⟨negative, ds, f, e⟩, _, rfl, ⟨w, cf, ce, hw, hf, he, rfl⟩, ?_, hm, by simp⟩
  exact (stops_iff hf he).2 ⟨h1, h2, h3⟩

/-- A magnitude begins with a digit. -/
theorem Magnitude.head {t : Numeral} {cs : List Char} (h : t.Magnitude cs) :
    ∃ c s, cs = c :: s ∧ c.isDigit = true := by
  obtain ⟨w, f, e, hw, -, -, rfl⟩ := h
  generalize t.whole = ds at hw
  cases hw with
  | zero => exact ⟨_, _, rfl, by decide⟩
  | @digits d ds _ hds => exact ⟨_, _, rfl, Text.isDigit_digitChar (hds.2 d List.mem_cons_self)⟩

theorem Spelled.head {t : Numeral} {cs : List Char} (h : t.Spelled cs) :
    ∃ c s, cs = c :: s ∧ (c = '-' ∨ c.isDigit = true) := by
  unfold Spelled at h
  split at h
  · obtain ⟨m, -, rfl⟩ := h
    exact ⟨_, _, rfl, .inl rfl⟩
  · obtain ⟨c, s, rfl, hc⟩ := h.head
    exact ⟨_, _, rfl, .inr hc⟩

end Numeral

theorem scanNumber_digit {c : Char} {s : List Char} (h : c.isDigit = true) :
    scanNumber (c :: s) = scanMagnitude false (c :: s) := by
  unfold scanNumber
  split
  · next heq =>
    rw [(List.cons.inj heq).1] at h
    exact absurd h (by decide)
  · rfl

/-- The scanner takes a numeral up to where it stops, if it stands for a number, and takes
    nothing else. -/
theorem scanNumber_eq_some {s rest : List Char} {n : Number} :
    scanNumber s = some (n, rest) ↔
      ∃ (t : Numeral) (cs : List Char), t.Spelled cs ∧ t.Stops rest ∧ t.number? = some n ∧ s = cs ++ rest := by
  constructor
  · intro h
    unfold scanNumber at h
    split at h
    · obtain ⟨t, cs, hneg, ht, hr, hn, rfl⟩ := Numeral.of_scanMagnitude h
      exact ⟨t, _, by rw [Numeral.Spelled, if_pos hneg]; exact ⟨cs, ht, rfl⟩, hr, hn, rfl⟩
    · obtain ⟨t, cs, hneg, ht, hr, hn, rfl⟩ := Numeral.of_scanMagnitude h
      exact ⟨t, cs, by rwa [Numeral.Spelled, if_neg (by simp [hneg])], hr, hn, rfl⟩
  · rintro ⟨t, cs, ht, hr, hn, rfl⟩
    unfold Numeral.Spelled at ht
    split at ht
    · next hneg =>
      obtain ⟨m, hm, rfl⟩ := ht
      rw [List.cons_append, scanNumber, ← hneg]
      exact Numeral.scanMagnitude_append hm hr hn
    · next hneg =>
      have hscan := Numeral.scanMagnitude_append ht hr hn
      obtain ⟨c, s, rfl, hc⟩ := ht.head
      rw [Bool.eq_false_iff.2 hneg] at hscan
      rw [List.cons_append, scanNumber_digit hc]
      exact hscan

/-! ## Integers -/

namespace Numeral

def size (t : Numeral) : Nat := Text.ofDigits 10 t.whole

def Integral (t : Numeral) : Prop := t.fraction = none ∧ t.exponent = none

def integer (t : Numeral) : Int := if t.negative then -t.size else t.size

/-- An integer in the signed 64-bit range, and not minus zero. -/
def Fits (t : Numeral) : Prop :=
  t.Integral ∧ Int64.minValue.toInt ≤ t.integer ∧ t.integer ≤ Int64.maxValue.toInt ∧
    ¬ (t.negative = true ∧ t.integer = 0)

/-- An integer beyond that range that fits 64 bits without a sign. -/
def Wide (t : Numeral) : Prop :=
  t.Integral ∧ Int64.maxValue.toInt < t.integer ∧ t.integer < UInt64.size

theorem le_foldl_digits (n : Nat) (ds : List Nat) : n ≤ ds.foldl (fun n d => n * 10 + d) n := by
  induction ds generalizing n with
  | nil => exact Nat.le_refl n
  | cons d ds ih =>
    have := ih (n * 10 + d)
    rw [List.foldl_cons]
    omega

/-- Digits are gathered while they fit, so all of them exactly when the number does. -/
theorem addWhole_eq {n : Nat} {ds : List Nat} (h : ds.foldl (fun n d => n * 10 + d) n < limit) :
    addWhole n ds = (ds.foldl (fun n d => n * 10 + d) n, 0) := by
  induction ds generalizing n with
  | nil => rfl
  | cons d ds ih =>
    rw [List.foldl_cons] at h ⊢
    rw [addWhole, if_pos (Nat.lt_of_le_of_lt (le_foldl_digits _ ds) h), ih h]

theorem addWhole_excess {n : Nat} {ds : List Nat} (hn : n < limit)
    (h : limit ≤ ds.foldl (fun n d => n * 10 + d) n) : (addWhole n ds).2 ≠ 0 := by
  induction ds generalizing n with
  | nil => exact absurd h (Nat.not_le_of_lt hn)
  | cons d ds ih =>
    rw [addWhole]
    split
    · next hd => exact ih hd h
    · exact Nat.succ_ne_zero _

theorem number?_of_size_lt {t : Numeral} (hi : t.Integral) (hs : t.size < limit) :
    t.number? =
      if t.negative = false then some (.unsigned (UInt64.ofNat t.size))
      else if 0 < t.size ∧ t.size ≤ Nat.pow 2 63 then some (.signed (Int64.ofInt (-t.size)))
      else some (.double (-(UInt64.ofNat t.size).toFloat)) := by
  obtain ⟨negative, whole, fraction, exponent⟩ := t
  obtain ⟨rfl, rfl⟩ := hi
  have hw : addWhole 0 whole = (Text.ofDigits 10 whole, 0) := addWhole_eq hs
  simp only [number?, hw, size, if_true]
  cases negative <;> rfl

/-- All that is no integer of 64 bits is a double. -/
theorem number?_double {t : Numeral} {n : Number} (h : t.number? = some n)
    (ht : t.Integral → limit ≤ t.size) : ∃ x, n = .double x := by
  obtain ⟨negative, whole, fraction, exponent⟩ := t
  have hmap : ∀ {o : Option Float} {f : Float → Number}, (∀ x, ∃ y, f x = .double y) →
      o.map f = some n → ∃ x, n = .double x := by
    intro o f hf ho
    obtain ⟨x, -, rfl⟩ := Option.map_eq_some_iff.1 ho
    obtain ⟨y, hy⟩ := hf x
    exact ⟨y, hy⟩
  simp only [number?] at h
  split at h
  · have hne : (addWhole 0 whole).2 ≠ 0 := addWhole_excess (by decide) (ht ⟨rfl, rfl⟩)
    rw [if_neg hne] at h
    exact hmap (fun x => ⟨_, rfl⟩) h
  · exact hmap (fun x => ⟨_, rfl⟩) h

theorem toInt_minValue : Int64.minValue.toInt = -(Nat.pow 2 63 : Nat) := by decide

theorem toInt_maxValue : Int64.maxValue.toInt = (Nat.pow 2 63 : Nat) - 1 := by decide

theorem fits_iff {t : Numeral} : t.Fits ↔
    t.Integral ∧ if t.negative then 0 < t.size ∧ t.size ≤ Nat.pow 2 63 else t.size < Nat.pow 2 63 := by
  unfold Fits integer
  refine and_congr_right fun _ => ?_
  rw [toInt_minValue, toInt_maxValue]
  cases t.negative <;> simp <;> omega

theorem wide_iff {t : Numeral} :
    t.Wide ↔ t.Integral ∧ t.negative = false ∧ Nat.pow 2 63 ≤ t.size ∧ t.size < limit := by
  have hsize : UInt64.size = limit := rfl
  have hpow : 0 < Nat.pow 2 63 := by decide
  unfold Wide integer
  refine and_congr_right fun _ => ?_
  rw [toInt_maxValue, hsize]
  cases t.negative with
  | false =>
    simp only [Bool.false_eq_true, if_false, true_and]
    omega
  | true =>
    simp only [if_true, Bool.true_eq_false, false_and, iff_false]
    omega

/-- What becomes of a number, told from its numeral. -/
inductive Becomes (t : Numeral) (n : Number) : Prop
  | int (m : Int64) : t.Fits → Value.ofNumber n = .ok (.int m) → m.toInt = t.integer → Becomes t n
  | error : t.Wide → Value.ofNumber n = .error (.wideInteger (UInt64.ofNat t.integer.toNat)) → Becomes t n
  | double (x : Float) : ¬ t.Fits → ¬ t.Wide → Value.ofNumber n = .ok (.float x) → Becomes t n

variable {t : Numeral} {n : Number}

theorem becomes_nonneg (hi : t.Integral) (hneg : t.negative = false) (hs : t.size < limit)
    (h : t.number? = some n) : t.Becomes n := by
  have he : t.integer = t.size := by simp [integer, hneg]
  have hn : (UInt64.ofNat t.size).toNat = t.size := UInt64.toNat_ofNat_of_lt' hs
  rw [number?_of_size_lt hi hs, if_pos hneg] at h
  cases h
  by_cases hr : t.size < Nat.pow 2 63
  · refine .int (Int64.ofNat t.size) (fits_iff.2 ⟨hi, by simp [hneg, hr]⟩) ?_ ?_
    · rw [Value.ofNumber, hn, if_pos hr]
    · rw [Int64.toInt_ofNat_of_lt hr, he]
  · refine .error (wide_iff.2 ⟨hi, hneg, Nat.le_of_not_lt hr, hs⟩) ?_
    rw [Value.ofNumber, hn, if_neg hr, he, Int.toNat_natCast]

theorem becomes_negative (hi : t.Integral) (hneg : t.negative = true) (hs : t.size < limit)
    (h : t.number? = some n) : t.Becomes n := by
  have he : t.integer = -t.size := by simp [integer, hneg]
  rw [number?_of_size_lt hi hs, if_neg (by simp [hneg])] at h
  split at h
  · next hr =>
    have hlow : -(Nat.pow 2 63 : Nat) ≤ -(t.size : Int) := by omega
    cases h
    refine .int _ (fits_iff.2 ⟨hi, by simp [hneg, hr]⟩) rfl ?_
    rw [Int64.toInt_ofInt_of_le hlow (by omega), he]
  · next hr =>
    cases h
    refine .double _ (fun hf => hr ?_) (fun hw => ?_) rfl
    · simpa [hneg] using (fits_iff.1 hf).2
    · exact nomatch hneg.symm.trans (wide_iff.1 hw).2.1

theorem becomes_double (hs : t.Integral → limit ≤ t.size) (h : t.number? = some n) : t.Becomes n := by
  obtain ⟨x, rfl⟩ := number?_double h hs
  have hlt : Nat.pow 2 63 < limit := by decide
  refine .double x (fun hf => ?_) (fun hw => ?_) rfl
  · obtain ⟨hi, hf⟩ := fits_iff.1 hf
    have := hs hi
    split at hf <;> omega
  · obtain ⟨hi, -, -, hw⟩ := wide_iff.1 hw
    exact absurd hw (Nat.not_lt_of_le (hs hi))

/-- Every number becomes an integer, an error or a double, and its numeral tells which. -/
theorem becomes_of_number? (h : t.number? = some n) : t.Becomes n := by
  by_cases hs : t.Integral ∧ t.size < limit
  · cases hneg : t.negative with
    | false => exact becomes_nonneg hs.1 hneg hs.2 h
    | true => exact becomes_negative hs.1 hneg hs.2 h
  · exact becomes_double (fun hi => Nat.le_of_not_lt fun hlt => hs ⟨hi, hlt⟩) h

end Numeral

end Json

end PhpScribe
