/-
  PhpScribe.Proofs.ConfigFile.Passing — the scans of a config file in front of a literal.

  The scans share nothing with what writes a literal, and a literal may hold brackets,
  quotes, arrows and marks of comments in its strings, at any depth and in any layout.
  Both scans still come out right behind it, whatever follows:
  - `scans_pass_literal`: the scan for keys is as deep behind a literal as in front of it
    and has found no key, but for a string that stands in front of an arrow; the scan for
    the end of the code has its mark at the literal's end.
  - `quote_read_back`: such a string ends at its own quote and is read as what it was,
    so a section has the name that was written.
-/

import PhpScribe.Proofs.ConfigFile.Loops

namespace PhpScribe.ConfigFile

/-! ## The end of a literal is code -/

/-- Without comments a text ends in code if its last character is not white space. -/
theorem Sealed.endsInCode {s u : List Char} {c : Char} (h : Sealed s) (hs : s = u ++ [c])
    (hc : Text.isBlank c = false) : tokens s ≠ [] ∧ EndsInCode (tokens s) := by
  have htext := text_tokens s
  rcases List.eq_nil_or_concat (tokens s) with hnil | ⟨ts, t, hts⟩
  · rw [hnil, hs] at htext
    exact absurd htext.symm (by simp)
  rw [List.concat_eq_append] at hts
  refine ⟨by rw [hts]; simp, ?_⟩
  rw [hts, endsInCode_snoc]
  cases t with
  | comment x => exact absurd (by rw [hts]; simp) (h.visible x)
  | quoted q body closed => rfl
  | symbol d =>
    rw [hts, hs, text_append] at htext
    have hd : d = c := List.cons.inj (List.append_inj_right' htext rfl) |>.1
    rw [hd, Token.isCode, hc]
    rfl

theorem isAlphanum_bounds {c : Char} (h : c.isAlphanum = true) : 48 ≤ c.toNat ∧ c.toNat ≤ 122 := by
  have hkinds : ((c.isUpper || c.isLower) || c.isDigit) = true := h
  rcases Bool.or_eq_true_iff.1 hkinds with hletter | hdigit
  · rcases Bool.or_eq_true_iff.1 hletter with hupper | hlower
    · have hrange : 65 ≤ c.toNat ∧ c.toNat ≤ 90 := of_decide_eq_true hupper
      omega
    · obtain ⟨hlow, hhigh⟩ := Bool.and_eq_true_iff.1 hlower
      have hlow : 97 ≤ c.toNat := of_decide_eq_true hlow
      have hhigh : c.toNat ≤ 122 := of_decide_eq_true hhigh
      omega
  · obtain ⟨hlow, hhigh⟩ := Bool.and_eq_true_iff.1 hdigit
    have hlow : 48 ≤ c.toNat := of_decide_eq_true hlow
    have hhigh : c.toNat ≤ 57 := of_decide_eq_true hhigh
    omega

/-- White space is no part of a word. -/
theorem isBlank_of_isWordChar {c : Char} (h : Literal.isWordChar c = true) : Text.isBlank c = false := by
  have hrange : 43 ≤ c.toNat ∧ c.toNat ≤ 122 := by
    simp only [Literal.isWordChar, Bool.or_eq_true, beq_iff_eq] at h
    rcases h with (((h | rfl) | rfl) | rfl) | rfl
    · have hbounds := isAlphanum_bounds h
      omega
    · decide
    · decide
    · decide
    · decide
  simp only [Text.isBlank, Bool.or_eq_false_iff, Bool.and_eq_false_iff, decide_eq_false_iff_not, beq_eq_false_iff_ne]
  omega

/-- A word is not empty and holds no white space. -/
theorem endsInCode_word {w : List Char} {t : Term} (hw : Literal.word? w = some t)
    (h : ∀ c ∈ w, Literal.isWordChar c = true) : tokens w ≠ [] ∧ EndsInCode (tokens w) := by
  rcases List.eq_nil_or_concat w with rfl | ⟨u, c, rfl⟩
  · rw [Literal.word?_nil] at hw
    cases hw
  · rw [List.concat_eq_append] at h ⊢
    exact (sealed_word h).endsInCode rfl (isBlank_of_isWordChar (h c (by simp)))

theorem endsInCode_chars (t : Term) (l : Layout) :
    tokens (t.chars l) ≠ [] ∧ EndsInCode (tokens (t.chars l)) := by
  have hsealed := sealed_chars t l
  cases t with
  | null => exact hsealed.endsInCode (u := ['n', 'u', 'l']) rfl rfl
  | bool b =>
    cases b with
    | false => exact hsealed.endsInCode (u := ['f', 'a', 'l', 's']) rfl rfl
    | true => exact hsealed.endsInCode (u := ['t', 'r', 'u']) rfl rfl
  | int n => exact endsInCode_word (Literal.word?_int n) (Literal.isWordChar_int n)
  | float x => exact endsInCode_word (Literal.word?_float x) (Literal.isWordChar_floatText x)
  | string x => exact hsealed.endsInCode (u := '\'' :: Literal.escape x.toList) rfl rfl
  | array es =>
    cases es with
    | nil => exact hsealed.endsInCode (u := ['[']) rfl rfl
    | cons e es => exact hsealed.endsInCode (c := ']') (by rw [Term.chars, ← List.cons_append]) rfl

/-! ## Literals are passed -/

theorem endsInCode_append {ts us : List Token} (ht : EndsInCode ts) (hu : EndsInCode us) :
    EndsInCode (ts ++ us) := by
  rcases List.eq_nil_or_concat us with rfl | ⟨vs, t, rfl⟩
  · rwa [List.append_nil]
  · rw [List.concat_eq_append] at hu ⊢
    rw [← List.append_assoc, endsInCode_snoc]
    exact endsInCode_snoc.1 hu

/-- The code of a text behind a literal goes on from the literal. -/
theorem splitCode_chars (t : Term) (l : Layout) (r : List Char) :
    (splitCode (t.chars l ++ r)).1 = t.chars l ++ (splitCode r).1 := by
  obtain ⟨ts, us, htok, hts, hus⟩ := exists_endsInCode (tokens r)
  have hall : tokens (t.chars l ++ r) = (tokens (t.chars l) ++ ts) ++ us := by
    rw [(sealed_chars t l).tokens_append, htok, List.append_assoc]
  have hcode := endsInCode_append (endsInCode_chars t l).2 hts
  rw [splitCode_eq hall hcode hus, splitCode_eq htok hts hus, text_append, text_tokens]

theorem reaches_chars (t : Term) (l : Layout) {r : List Char}
    (h : arrowFollows (tokens r) = false ∨ ∀ x, t ≠ .string x) {d : Nat} (hd : 1 ≤ d) (ks : List String) :
    Reaches KeyScan.turn ⟨t.chars l ++ r, d, ks⟩ ⟨r, d, ks⟩ := by
  have hsealed := sealed_chars t l
  obtain ⟨ks', hreach⟩ := KeyScan.reaches_lexed (hsealed.lexed r) hd (nesting_chars t l hd) ks
  rw [text_tokens] at hreach
  have htotal : ks' ++ keysFrom d (tokens r) = ks ++ keysFrom d (tokens (t.chars l ++ r)) :=
    KeyScan.total_of_reaches hreach hd
  rw [hsealed.tokens_append, keysFrom_chars t l h hd] at htotal
  cases List.append_cancel_right htotal
  exact hreach

/-- Behind the spelling of a value both scans come to the text that follows it, the one as
    deep as before and with the same keys, the other with its mark in between. -/
theorem scans_pass_literal {v : Value} (hv : v.Finite) (l : Layout) (r : List Char) :
    ∃ s, Literal.spell l v = .ok s ∧
      (∀ d ks, 1 ≤ d → (∀ x, v ≠ .string x) ∨ ¬['=', '>'] <+: Text.trimStart r →
        Reaches KeyScan.turn ⟨s.toList ++ r, d, ks⟩ ⟨r, d, ks⟩ ∧
        keysFrom d (tokens (s.toList ++ r)) = keysFrom d (tokens r)) ∧
      (∀ front n, Reaches (CodeScan.turn (front ++ (s.toList ++ r))) ⟨s.toList ++ r, n⟩
        ⟨r, width (front ++ s.toList)⟩) ∧
      (splitCode (s.toList ++ r)).1 = s.toList ++ (splitCode r).1 := by
  refine ⟨_, Literal.spell_of_finite hv l, ?_, ?_, ?_⟩
  · intro d ks hd h
    have hpass : arrowFollows (tokens r) = false ∨ ∀ x, v.term ≠ .string x := by
      rcases h with hne | harrow
      · refine Or.inr fun x hx => ?_
        cases v with
        | string y => exact hne y rfl
        | _ => cases hx
      · rw [← arrowFollows_tokens, Bool.not_eq_true] at harrow
        exact Or.inl harrow
    rw [String.toList_ofList, (sealed_chars v.term l).tokens_append]
    exact ⟨reaches_chars v.term l hpass hd ks, keysFrom_chars v.term l hpass hd⟩
  · intro front n
    obtain ⟨hne, hcode⟩ := endsInCode_chars v.term l
    have hreach := CodeScan.reaches_code ((sealed_chars v.term l).lexed r) hne hcode front n
    rw [text_tokens] at hreach
    rwa [String.toList_ofList]
  · rw [String.toList_ofList]
    exact splitCode_chars v.term l r

/-- An array of a string that imitates the end of the array, two brackets deep. -/
theorem scans_pass_literal_imitation :
    (Value.list [.string "']; // =>"]).Finite ∧
    ∃ s, Literal.spell .inline (.list [.string "']; // =>"]) = .ok s ∧
      Reaches KeyScan.turn ⟨s.toList ++ " => 1".toList, 2, ["a"]⟩ ⟨" => 1".toList, 2, ["a"]⟩ ∧
      Reaches (CodeScan.turn (s.toList ++ " => 1".toList)) ⟨s.toList ++ " => 1".toList, 0⟩
        ⟨" => 1".toList, width s.toList⟩ := by
  have hfinite : (Value.list [.string "']; // =>"]).Finite := nofun
  obtain ⟨s, hs, hkeys, hcode, -⟩ := scans_pass_literal hfinite .inline " => 1".toList
  exact ⟨hfinite, s, hs, (hkeys 2 ["a"] (by decide) (Or.inl nofun)).1, hcode [] 0⟩

/-! ## Names -/

def Scans (f : ConfigFile) (st : KeyScan) : Prop :=
  ∃ rest, Text.afterFirst returnOpen f.source.toList = some rest ∧ Reaches KeyScan.turn ⟨rest, 1, []⟩ st

/-- Wherever the scan is, the sections are the keys so far and those to come. -/
theorem Scans.sections {f : ConfigFile} {st : KeyScan} (h : f.Scans st) : f.sections = st.total := by
  obtain ⟨rest, hrest, hreach⟩ := h
  rw [KeyScan.total_of_reaches hreach Nat.one_pos, ConfigFile.sections, hrest]
  rfl

theorem keysFrom_quote (s : String) {r : List Char} (h : ['=', '>'] <+: Text.trimStart r) :
    keysFrom 1 (tokens ((Literal.quote s).toList ++ r)) = s :: keysFrom 1 (tokens r) := by
  rw [Literal.toList_quote, tokens_quoteChars, keysFrom, if_pos ⟨rfl, arrowFollows_tokens r |>.2 h⟩, unescape_escape,
    String.ofList_toList]

/-- A quoted string is split off as the string, at its own quote, whatever it holds and
    whatever follows; so where an arrow does, the file has a section of that very name. -/
theorem quote_read_back (s : String) (r : List Char) :
    splitQuoted '\'' ((Literal.quote s).toList ++ r) = .ok (s.toList, r) ∧
    (∃ u body, (Literal.quote s).toList ++ r = '\'' :: u ∧ next '\'' u = (.quoted '\'' body true, r) ∧
      String.ofList (unescape '\'' body) = s) ∧
    ∀ (f : ConfigFile) (ks : List String), f.Scans ⟨(Literal.quote s).toList ++ r, 1, ks⟩ →
      ['=', '>'] <+: Text.trimStart r → ∀ name,
      (f.hasSection name = true ↔ name ∈ ks ∨ name = s ∨ name ∈ keysFrom 1 (tokens r)) := by
  have hquote : (Literal.quote s).toList ++ r = '\'' :: (Literal.escape s.toList ++ '\'' :: r) := by
    rw [Literal.toList_quote, Literal.quoteChars, List.append_assoc]
    rfl
  refine ⟨?_, ⟨_, _, hquote, next_quoteChars s.toList r, ?_⟩, ?_⟩
  · rw [hquote, splitQuoted_next (Or.inl rfl), literalBody_escape, unescape_escape]
  · rw [unescape_escape, String.ofList_toList]
  · intro f ks hf harrow name
    have hsections : f.sections = ks ++ keysFrom 1 (tokens ((Literal.quote s).toList ++ r)) := hf.sections
    rw [keysFrom_quote s harrow] at hsections
    simp [hasSection, hsections]

/-- A name of quotes and backslashes, the last of them in front of the closing quote. -/
theorem quote_read_back_backslash :
    Scans ⟨"return ['it\\'s \\\\' => 1];"⟩ ⟨(Literal.quote "it's \\").toList ++ " => 1];".toList, 1, []⟩ ∧
    ['=', '>'] <+: Text.trimStart " => 1];".toList ∧
    hasSection ⟨"return ['it\\'s \\\\' => 1];"⟩ "it's \\" = true := by
  have hscan : Scans ⟨"return ['it\\'s \\\\' => 1];"⟩
      ⟨(Literal.quote "it's \\").toList ++ " => 1];".toList, 1, []⟩ := ⟨_, by decide, .refl⟩
  have harrow : ['=', '>'] <+: Text.trimStart " => 1];".toList := by decide
  have hread := (quote_read_back "it's \\" " => 1];".toList).2.2 _ [] hscan harrow "it's \\"
  exact ⟨hscan, harrow, hread.2 (Or.inr (Or.inl rfl))⟩

end PhpScribe.ConfigFile
