/-
  PhpScribe.Json.Token — the tokens of a JSON text.

  A string is written in double quotes; behind a backslash stand one of eight letters or
  `u` and four hexadecimal digits, and a code point beyond the first plane takes two
  such escapes. A surrogate alone is refused, and so is a control character that is not
  escaped. Each scanner leaves a shorter text (`scanEscape_length`,
  `scanString_length`, `scanNumber_length`), so scanning ends.
-/

import PhpScribe.Json.Number

namespace PhpScribe.Json

inductive Token where
  | openArray
  | closeArray
  | openObject
  | closeObject
  | comma
  | colon
  | null
  | bool (b : Bool)
  | number (n : Number)
  | string (s : String)

/-! ## Strings -/

def scanHex : List Char → Option (Nat × List Char)
  | a :: b :: c :: d :: s => (Text.ofHex? [a, b, c, d]).map (·, s)
  | _ => none

def joinSurrogates (high low : Nat) : Nat :=
  0x10000 + (high - 0xD800) * 0x400 + (low - 0xDC00)

def scanLow (high : Nat) : List Char → Option (Char × List Char)
  | '\\' :: 'u' :: s =>
    match scanHex s with
    | some (low, rest) =>
      if 0xDC00 ≤ low ∧ low < 0xE000 then
        (Text.scalar? (joinSurrogates high low)).map (·, rest)
      else none
    | none => none
  | _ => none

def scanUnicode (s : List Char) : Option (Char × List Char) :=
  match scanHex s with
  | some (n, rest) =>
    if 0xD800 ≤ n ∧ n < 0xDC00 then scanLow n rest else (Text.scalar? n).map (·, rest)
  | none => none

def scanEscape : List Char → Option (Char × List Char)
  | '"' :: s => some ('"', s)
  | '\\' :: s => some ('\\', s)
  | '/' :: s => some ('/', s)
  | 'b' :: s => some ('\x08', s)
  | 'f' :: s => some ('\x0c', s)
  | 'n' :: s => some ('\n', s)
  | 'r' :: s => some ('\r', s)
  | 't' :: s => some ('\t', s)
  | 'u' :: s => scanUnicode s
  | _ => none

theorem scanHex_length {s rest : List Char} {n : Nat} (h : scanHex s = some (n, rest)) :
    rest.length < s.length := by
  unfold scanHex at h
  split at h
  · obtain ⟨_, _, h⟩ := Option.map_eq_some_iff.1 h
    cases h
    simp only [List.length_cons]
    omega
  · exact nomatch h

theorem scanLow_length {n : Nat} {s rest : List Char} {c : Char}
    (h : scanLow n s = some (c, rest)) : rest.length < s.length := by
  unfold scanLow at h
  split at h
  · split at h
    · next hs =>
      have := scanHex_length hs
      split at h
      · obtain ⟨_, _, h⟩ := Option.map_eq_some_iff.1 h
        cases h
        simp only [List.length_cons]
        omega
      · exact nomatch h
    · exact nomatch h
  · exact nomatch h

theorem scanUnicode_length {s rest : List Char} {c : Char}
    (h : scanUnicode s = some (c, rest)) : rest.length < s.length := by
  unfold scanUnicode at h
  split at h
  · next hs =>
    have := scanHex_length hs
    split at h
    · have := scanLow_length h
      omega
    · obtain ⟨_, _, h⟩ := Option.map_eq_some_iff.1 h
      cases h
      exact this
  · exact nomatch h

theorem scanEscape_length {s rest : List Char} {c : Char}
    (h : scanEscape s = some (c, rest)) : rest.length < s.length := by
  unfold scanEscape at h
  split at h
  case h_9 =>
    have := scanUnicode_length h
    simp only [List.length_cons]
    omega
  case h_10 => exact nomatch h
  all_goals (cases h; simp)

/-- The contents of a string behind its opening quote, and what follows the closing one. -/
def scanString : List Char → Option (List Char × List Char)
  | [] => none
  | '"' :: s => some ([], s)
  | '\\' :: s =>
    match h : scanEscape s with
    | some (c, rest) =>
      have : rest.length < s.length + 1 := Nat.lt_succ_of_lt (scanEscape_length h)
      (scanString rest).map (·.map (c :: ·) id)
    | none => none
  | c :: s => if c.toNat < 0x20 then none else (scanString s).map (·.map (c :: ·) id)
termination_by s => s.length

theorem scanString_length {s cs rest : List Char} (h : scanString s = some (cs, rest)) :
    rest.length < s.length := by
  fun_induction scanString s generalizing cs with
  | case1 => exact nomatch h
  | case2 s => cases h; simp
  | case3 s c rest' hs hlt ih =>
    obtain ⟨⟨a, b⟩, ha, h⟩ := Option.map_eq_some_iff.1 h
    cases h
    exact Nat.lt_trans (ih ha) (by simp only [List.length_cons]; omega)
  | case4 => exact nomatch h
  | case5 => exact nomatch h
  | case6 c s _ _ hc ih =>
    obtain ⟨⟨a, b⟩, ha, h⟩ := Option.map_eq_some_iff.1 h
    cases h
    exact Nat.lt_trans (ih ha) (by simp only [List.length_cons]; omega)

/-! ## Numbers -/

theorem spanDigits_length_lt {s rest : List Char} {d : Nat} {ds : List Nat}
    (h : Text.spanDigits s = (d :: ds, rest)) : rest.length < s.length := by
  have := Text.spanDigits_length s
  rw [h] at this
  simp only [List.length_cons] at this
  omega

theorem spanDigits_rest {s rest : List Char} {ds : List Nat}
    (h : Text.spanDigits s = (ds, rest)) : rest.length ≤ s.length := by
  have := Text.spanDigits_length_le s
  rw [h] at this
  exact this

theorem scanWhole_length {s rest : List Char} {ds : List Nat}
    (h : scanWhole s = some (ds, rest)) : rest.length < s.length := by
  unfold scanWhole at h
  split at h
  · cases h; simp
  · split at h
    · exact nomatch h
    · next ds' rest' hne hs =>
      cases h
      rcases ds with _ | ⟨d, ds⟩
      · exact absurd rfl hne
      · exact spanDigits_length_lt hs

theorem scanFraction_length {s rest : List Char} {ds : Option (List Nat)}
    (h : scanFraction s = some (ds, rest)) : rest.length ≤ s.length := by
  unfold scanFraction at h
  split at h
  · split at h
    · exact nomatch h
    · next hs =>
      cases h
      exact Nat.le_succ_of_le (spanDigits_rest hs)
  · cases h; exact Nat.le_refl _

theorem scanPower_length {minus : Bool} {s rest : List Char} {e : Option (Bool × List Nat)}
    (h : scanPower minus s = some (e, rest)) : rest.length ≤ s.length := by
  unfold scanPower at h
  split at h
  · exact nomatch h
  · next hs =>
    cases h
    exact spanDigits_rest hs

theorem scanExponent_length {s rest : List Char} {e : Option (Bool × List Nat)}
    (h : scanExponent s = some (e, rest)) : rest.length ≤ s.length := by
  unfold scanExponent at h
  split at h
  all_goals first
    | (cases h; exact Nat.le_refl _)
    | exact Nat.le_trans (scanPower_length h) (by simp only [List.length_cons]; omega)

theorem scanMagnitude_length {negative : Bool} {s rest : List Char} {n : Number}
    (h : scanMagnitude negative s = some (n, rest)) : rest.length < s.length := by
  simp only [scanMagnitude, bind, Option.bind_eq_some_iff] at h
  obtain ⟨⟨ds, s₁⟩, h₁, ⟨f, s₂⟩, h₂, ⟨e, s₃⟩, h₃, m, _, h⟩ := h
  cases h
  have h₁ := scanWhole_length h₁
  have h₂ := scanFraction_length h₂
  have h₃ := scanExponent_length h₃
  exact Nat.lt_of_le_of_lt (Nat.le_trans h₃ h₂) h₁

theorem scanNumber_length {s rest : List Char} {n : Number}
    (h : scanNumber s = some (n, rest)) : rest.length < s.length := by
  unfold scanNumber at h
  split at h
  · have := scanMagnitude_length h
    simp only [List.length_cons]
    omega
  · exact scanMagnitude_length h

/-! ## Texts -/

/-- Space, tab, newline and carriage return may stand between tokens. -/
def isSpace (c : Char) : Bool := c == ' ' || c == '\t' || c == '\n' || c == '\r'

/-- The token at the front of a text that does not start with white space. -/
def next : List Char → Option (Token × List Char)
  | '[' :: s => some (.openArray, s)
  | ']' :: s => some (.closeArray, s)
  | '{' :: s => some (.openObject, s)
  | '}' :: s => some (.closeObject, s)
  | ',' :: s => some (.comma, s)
  | ':' :: s => some (.colon, s)
  | 'n' :: 'u' :: 'l' :: 'l' :: s => some (.null, s)
  | 't' :: 'r' :: 'u' :: 'e' :: s => some (.bool true, s)
  | 'f' :: 'a' :: 'l' :: 's' :: 'e' :: s => some (.bool false, s)
  | '"' :: s => (scanString s).map (·.map (.string ∘ String.ofList) id)
  | s => (scanNumber s).map (·.map .number id)

theorem next_length {s rest : List Char} {t : Token} (h : next s = some (t, rest)) :
    rest.length < s.length := by
  unfold next at h
  split at h
  case h_10 =>
    obtain ⟨⟨a, b⟩, ha, h⟩ := Option.map_eq_some_iff.1 h
    cases h
    have := scanString_length ha
    simp only [id, List.length_cons]
    omega
  case h_11 =>
    obtain ⟨⟨a, b⟩, ha, h⟩ := Option.map_eq_some_iff.1 h
    cases h
    exact scanNumber_length ha
  all_goals (cases h; simp only [List.length_cons]; omega)

def tokens? : List Char → Option (List Token)
  | [] => some []
  | c :: s =>
    if isSpace c then tokens? s
    else
      match h : next (c :: s) with
      | some (t, rest) =>
        have : rest.length < s.length + 1 := next_length h
        (tokens? rest).map (t :: ·)
      | none => none
termination_by s => s.length

end PhpScribe.Json
