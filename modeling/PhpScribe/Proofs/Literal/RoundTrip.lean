/-
  PhpScribe.Proofs.Literal.RoundTrip — what is spelled is read back.

  `run_chars`: started in front of a term's characters, with any arrays open around it,
  the reader comes out directly behind them holding that term. The proof is one
  induction over terms: inside an array the reader has put the entries written so far on
  its top frame, and what follows a value there is a comma or the closing bracket, so no
  word runs on (`ends_more`). The characters of strings are met by `quoted?` alone.

  `read_spell`: every value without NaN and infinity has a literal in every layout, and
  in front of anything that may follow a value the reader gets that value back and leaves
  what follows alone. A layout is not read, and values that share a literal, be it in two
  layouts, are alike.
-/

import PhpScribe.Proofs.Literal.Reader

namespace PhpScribe.Literal

/-! ## Words -/

theorem not_isSpace_of_isWordChar {c : Char} (h : isWordChar c = true) :
    isSpace c = false ∧ c ≠ '[' ∧ c ≠ ']' ∧ c ≠ '\'' := by
  refine ⟨?_, ?_, ?_, ?_⟩
  · rw [Bool.eq_false_iff]
    intro hs
    simp only [isSpace, Bool.or_eq_true, beq_iff_eq] at hs
    rcases hs with ((rfl | rfl) | rfl) | rfl <;> exact absurd h (by decide)
  all_goals
    rintro rfl
    exact absurd h (by decide)

theorem isWordChar_of_isDigit {c : Char} (h : c.isDigit = true) : isWordChar c = true := by
  simp [isWordChar, Char.isAlphanum, h]

theorem isWordChar_of_allDigits {s : List Char} (h : allDigits s = true) :
    ∀ c ∈ s, isWordChar c = true :=
  fun c hc => isWordChar_of_isDigit ((allDigits_iff.1 h).2 c hc)

/-- A sign in front of word characters makes no other text of them. -/
theorem isWordChar_of_unsigned {s : List Char} (h : ∀ c ∈ unsigned s, isWordChar c = true) :
    ∀ c ∈ s, isWordChar c = true := by
  unfold unsigned at h
  split at h
  · intro c hc
    rcases List.mem_cons.1 hc with rfl | hc
    · decide
    · exact h c hc
  · exact h

theorem isWordChar_of_isPlaces {s : List Char} (h : isPlaces s = true) :
    ∀ c ∈ s, isWordChar c = true := by
  intro c hc
  unfold isPlaces at h
  split at h
  · next places hd =>
    simp only [Bool.and_eq_true, List.all_eq_true] at h
    rw [← List.takeWhile_append_dropWhile (p := Char.isDigit) (l := s), hd] at hc
    rcases List.mem_append.1 hc with hc | hc
    · exact isWordChar_of_isDigit (List.mem_takeWhile_imp hc)
    · rcases List.mem_cons.1 hc with rfl | hc
      · decide
      · exact isWordChar_of_isDigit (h.1 c hc)
  · exact nomatch h

theorem isWordChar_of_isMagnitude {s : List Char} (h : isMagnitude s = true) :
    ∀ c ∈ s, isWordChar c = true := by
  unfold isMagnitude at h
  split at h
  · next power hd =>
    simp only [Bool.and_eq_true, Bool.or_eq_true] at h
    intro c hc
    rw [← List.takeWhile_append_dropWhile (p := (· != 'e')) (l := s), hd] at hc
    rcases List.mem_append.1 hc with hc | hc
    · rcases h.1 with h1 | h1
      · exact isWordChar_of_isPlaces h1 c hc
      · exact isWordChar_of_allDigits h1 c hc
    · rcases List.mem_cons.1 hc with rfl | hc
      · decide
      · exact isWordChar_of_unsigned (isWordChar_of_allDigits h.2) c hc
  · exact isWordChar_of_isPlaces h

theorem isWordChar_floatText (t : FloatText) : ∀ c ∈ t.chars, isWordChar c = true :=
  isWordChar_of_unsigned (isWordChar_of_isMagnitude t.isFloat_chars)

theorem isWordChar_int (n : Int64) : ∀ c ∈ (int n).toList, isWordChar c = true := by
  unfold int
  split
  · exact List.all_eq_true.1 (by decide)
  · rw [String.toList_ofList]
    apply isWordChar_of_unsigned
    rw [unsigned_intDigits]
    exact isWordChar_of_allDigits (allDigits_toDigits _)

/-- A keyword is no number. -/
theorem word?_integer {w : List Char} {n : Int64} (h : integer? w = some n) :
    word? w = some (.int n) := by
  have hk : ∀ k, integer? k = none → w ≠ k := by
    rintro k hk rfl
    rw [hk] at h
    exact nomatch h
  simp [word?, h, hk _ (by decide : integer? ['n', 'u', 'l', 'l'] = none),
    hk _ (by decide : integer? ['t', 'r', 'u', 'e'] = none),
    hk _ (by decide : integer? ['f', 'a', 'l', 's', 'e'] = none),
    hk _ (by decide : integer? ['P', 'H', 'P', '_', 'I', 'N', 'T', '_', 'M', 'I', 'N'] = none)]

theorem word?_float (t : FloatText) : word? t.chars = some (.float t) := by
  have hk : ∀ k, isFloat k = false → t.chars ≠ k := by
    intro k hk he
    have := t.isFloat_chars
    rw [he, hk] at this
    exact nomatch this
  simp [word?, integer?_eq_none t.isFloat_chars, t.isFloat_chars,
    hk _ (by decide : isFloat ['n', 'u', 'l', 'l'] = false),
    hk _ (by decide : isFloat ['t', 'r', 'u', 'e'] = false),
    hk _ (by decide : isFloat ['f', 'a', 'l', 's', 'e'] = false),
    hk _ (by decide : isFloat ['P', 'H', 'P', '_', 'I', 'N', 'T', '_', 'M', 'I', 'N'] = false)]

theorem word?_int (n : Int64) : word? (int n).toList = some (.int n) := by
  unfold int
  split
  · next h =>
    subst h
    rfl
  · next h =>
    rw [String.toList_ofList]
    exact word?_integer (integer?_intDigits h)

theorem quoted?_escape (s r : List Char) : quoted? (escape s ++ '\'' :: r) = some (s, r) := by
  induction s with
  | nil => rfl
  | cons c s ih =>
    by_cases h1 : c = '\\'
    · subst h1
      simp [escape, quoted?, ih]
    · by_cases h2 : c = '\''
      · subst h2
        simp [escape, quoted?, ih]
      · simp [escape, h1, h2, quoted?, ih]

/-! ## Steps -/

/-- No word runs on into the text. -/
def Ends (s : List Char) : Prop := ∀ c ∈ s.head?, isWordChar c = false

theorem ends_cons {c : Char} {s : List Char} (h : isWordChar c = false) : Ends (c :: s) := by
  intro d hd
  cases hd
  exact h

theorem takeWhile_word {w rest : List Char} (hw : ∀ c ∈ w, isWordChar c = true) (hr : Ends rest) :
    (w ++ rest).takeWhile isWordChar = w ∧ (w ++ rest).dropWhile isWordChar = rest := by
  have h : rest.takeWhile isWordChar = [] ∧ rest.dropWhile isWordChar = rest := by
    cases rest with
    | nil => exact ⟨rfl, rfl⟩
    | cons c rest => simp [hr c rfl]
  rw [List.takeWhile_append_of_pos hw, List.dropWhile_append_of_pos hw, h.1, h.2]
  exact ⟨List.append_nil w, rfl⟩

theorem scalar?_cons {c : Char} (h : c ≠ '\'') (s : List Char) :
    scalar? (c :: s) =
      (word? ((c :: s).takeWhile isWordChar)).map (·, (c :: s).dropWhile isWordChar) := by
  unfold scalar?
  split
  · next heq => exact absurd (List.cons.inj heq).1 h
  · rfl

namespace Reader

variable {b : Bool} {fs : List Frame} {f : Frame} {t : Term} {s rest : List Char}

theorem run_of_step {r r' : Reader} (hr : r.result? = none) (hs : r.step = some r') :
    r.run = r'.run := by
  rw [run]
  simp only [hr]
  split
  · next r'' h =>
    rw [hs] at h
    cases h
    rfl
  · next h =>
    rw [hs] at h
    cases h

theorem run_open : run ⟨.value b, fs, '[' :: s⟩ = run ⟨.value true, ⟨[], none⟩ :: fs, s⟩ :=
  run_of_step rfl rfl

theorem run_close : run ⟨.value true, f :: fs, ']' :: s⟩ = run ⟨.after (.array f.done.reverse), fs, s⟩ :=
  run_of_step rfl rfl

theorem run_comma : run ⟨.after t, f :: fs, ',' :: s⟩ = run ⟨.value true, f.add t :: fs, s⟩ :=
  run_of_step rfl rfl

theorem run_close_after :
    run ⟨.after t, f :: fs, ']' :: s⟩ = run ⟨.after (.array (f.add t).done.reverse), fs, s⟩ :=
  run_of_step rfl rfl

theorem run_spaces {w : List Char} (hw : ∀ c ∈ w, isSpace c = true) :
    run ⟨.value b, fs, w ++ s⟩ = run ⟨.value b, fs, s⟩ := by
  induction w with
  | nil => rfl
  | cons c w ih =>
    have hs : step ⟨.value b, fs, c :: (w ++ s)⟩ = some ⟨.value b, fs, w ++ s⟩ := by
      simp [step, hw c (by simp)]
    rw [List.cons_append, run_of_step rfl hs, ih fun d hd => hw d (by simp [hd])]

theorem run_scalar {c : Char} {r : List Char} (hs : isSpace c = false) (ho : c ≠ '[') (hc : c ≠ ']')
    (h : scalar? (c :: s) = some (t, r)) : run ⟨.value b, fs, c :: s⟩ = run ⟨.after t, fs, r⟩ :=
  run_of_step rfl (by simp [step, hs, ho, hc, h])

theorem run_word {w : List Char} (hw : ∀ c ∈ w, isWordChar c = true) (ht : word? w = some t)
    (hr : Ends rest) : run ⟨.value b, fs, w ++ rest⟩ = run ⟨.after t, fs, rest⟩ := by
  cases w with
  | nil => exact absurd ht (by simp [word?_nil])
  | cons c w =>
    obtain ⟨h1, h2, h3, h4⟩ := not_isSpace_of_isWordChar (hw c (by simp))
    obtain ⟨htake, hdrop⟩ := takeWhile_word hw hr
    have hs : scalar? (c :: w ++ rest) = some (t, rest) := by
      rw [List.cons_append, scalar?_cons h4, ← List.cons_append, htake, hdrop, ht]
      rfl
    exact run_scalar h1 h2 h3 hs

theorem run_quote (u : String) :
    run ⟨.value b, fs, quoteChars u.toList ++ rest⟩ = run ⟨.after (.string u), fs, rest⟩ := by
  have h : scalar? (quoteChars u.toList ++ rest) = some (.string u, rest) := by
    simp [quoteChars, scalar?, quoted?_escape]
  exact run_scalar (by decide) (by decide) (by decide) h

theorem run_int (n : Int64) (hr : Ends rest) :
    run ⟨.value b, fs, (int n).toList ++ rest⟩ = run ⟨.after (.int n), fs, rest⟩ :=
  run_word (isWordChar_int n) (word?_int n) hr

/-- Behind the scalar of a key stands its arrow. -/
theorem run_arrow {k : Key} (h : key? t = some k) (done : List (Option Key × Term)) :
    run ⟨.after t, ⟨done, none⟩ :: fs, ' ' :: '=' :: '>' :: ' ' :: s⟩ =
      run ⟨.value false, ⟨done, some k⟩ :: fs, s⟩ := by
  have h1 : step ⟨.after t, ⟨done, none⟩ :: fs, ' ' :: '=' :: '>' :: ' ' :: s⟩ =
      some ⟨.after t, ⟨done, none⟩ :: fs, '=' :: '>' :: ' ' :: s⟩ := rfl
  have h2 : step ⟨.after t, ⟨done, none⟩ :: fs, '=' :: '>' :: ' ' :: s⟩ =
      some ⟨.value false, ⟨done, some k⟩ :: fs, ' ' :: s⟩ := by
    simp [step, isSpace, arrow, h]
  have h3 : step ⟨.value false, ⟨done, some k⟩ :: fs, ' ' :: s⟩ =
      some ⟨.value false, ⟨done, some k⟩ :: fs, s⟩ := rfl
  rw [run_of_step rfl h1, run_of_step rfl h2, run_of_step rfl h3]

theorem run_keyChars (k : Option Key) (done : List (Option Key × Term)) :
    run ⟨.value true, ⟨done, none⟩ :: fs, Term.keyChars k ++ s⟩ =
      run ⟨.value k.isNone, ⟨done, k⟩ :: fs, s⟩ := by
  cases k with
  | none => rfl
  | some k =>
    cases k with
    | int n =>
      have he : Ends (' ' :: '=' :: '>' :: ' ' :: s) := ends_cons (by decide)
      simp only [Term.keyChars, key, List.append_assoc, List.cons_append, List.nil_append]
      rw [run_int n he]
      exact run_arrow rfl done
    | str u =>
      simp only [Term.keyChars, key, toList_quote, List.append_assoc, List.cons_append, List.nil_append]
      rw [run_quote u]
      exact run_arrow rfl done

end Reader

/-! ## Terms -/

theorem isSpace_indent (i : Indent) (n : Nat) : ∀ c ∈ i.chars n, isSpace c = true := by
  intro c hc
  cases i with
  | tab =>
    rw [(List.mem_replicate.1 hc).2]
    decide
  | spaces w =>
    rw [(List.mem_replicate.1 hc).2]
    decide

theorem isSpace_newline_indent (i : Indent) (n : Nat) : ∀ c ∈ '\n' :: i.chars n, isSpace c = true := by
  intro c hc
  rcases List.mem_cons.1 hc with rfl | hc
  · decide
  · exact isSpace_indent i n c hc

theorem isSpace_lead (l : Layout) : ∀ c ∈ l.lead, isSpace c = true := by
  cases l with
  | inline => simp [Layout.lead]
  | multiline i d => exact isSpace_newline_indent i (d + 1)

theorem isSpace_gap (l : Layout) : ∀ c ∈ l.gap, isSpace c = true := by
  cases l with
  | inline => simp [Layout.gap, isSpace]
  | multiline i d => exact isSpace_newline_indent i (d + 1)

/-- What follows a value in an array starts with a comma or the closing bracket. -/
theorem ends_more (l : Layout) (es : List (Option Key × Term)) (rest : List Char) :
    Ends (Term.moreChars l es ++ (l.trail ++ ']' :: rest)) := by
  cases es with
  | nil => cases l <;> exact ends_cons (by decide)
  | cons e es => exact ends_cons (by decide)

/-- The end of an array, with or without a last comma. -/
theorem run_trail (l : Layout) (t : Term) (f : Frame) (fs : List Frame) (rest : List Char) :
    Reader.run ⟨.after t, f :: fs, l.trail ++ ']' :: rest⟩ =
      Reader.run ⟨.after (.array (f.add t).done.reverse), fs, rest⟩ := by
  cases l with
  | inline => exact Reader.run_close_after
  | multiline i d =>
    have h : Layout.trail (.multiline i d) ++ ']' :: rest = ',' :: (('\n' :: i.chars d) ++ ']' :: rest) := rfl
    rw [h, Reader.run_comma, Reader.run_spaces (isSpace_newline_indent i d), Reader.run_close]

mutual
theorem run_chars : (t : Term) → (l : Layout) → (b : Bool) → (fs : List Frame) → (rest : List Char) →
    Ends rest → Reader.run ⟨.value b, fs, t.chars l ++ rest⟩ = Reader.run ⟨.after t, fs, rest⟩
  | .null, _, _, _, _, hr => Reader.run_word (w := ['n', 'u', 'l', 'l']) (List.all_eq_true.1 rfl) rfl hr
  | .bool true, _, _, _, _, hr => Reader.run_word (w := ['t', 'r', 'u', 'e']) (List.all_eq_true.1 rfl) rfl hr
  | .bool false, _, _, _, _, hr => Reader.run_word (w := ['f', 'a', 'l', 's', 'e']) (List.all_eq_true.1 rfl) rfl hr
  | .int n, _, _, _, _, hr => Reader.run_int n hr
  | .float t, _, _, _, _, hr => Reader.run_word (isWordChar_floatText t) (word?_float t) hr
  | .string s, _, _, _, _, _ => Reader.run_quote s
  | .array [], _, _, fs, rest, _ => by
    rw [Term.chars, List.cons_append, List.cons_append, List.nil_append, Reader.run_open]
    exact Reader.run_close
  | .array ((k, t) :: es), l, b, fs, rest, _ => by
    have hvalue := run_chars t l.nested k.isNone (⟨[], k⟩ :: fs) _ (ends_more l es rest)
    have hmore := run_moreChars es l t ⟨[], k⟩ fs rest
    simp only [Term.chars, List.cons_append, List.append_assoc, List.nil_append]
    rw [Reader.run_open, Reader.run_spaces (isSpace_lead l), Reader.run_keyChars, hvalue, hmore]
    rfl

/-- The top frame holds the entries in front of `t`. -/
theorem run_moreChars : (es : List (Option Key × Term)) → (l : Layout) → (t : Term) → (f : Frame) →
    (fs : List Frame) → (rest : List Char) →
    Reader.run ⟨.after t, f :: fs, Term.moreChars l es ++ (l.trail ++ ']' :: rest)⟩ =
      Reader.run ⟨.after (.array ((f.add t).done.reverse ++ es)), fs, rest⟩
  | [], l, t, f, fs, rest => by
    rw [Term.moreChars, List.nil_append, List.append_nil]
    exact run_trail l t f fs rest
  | (k, u) :: es, l, t, f, fs, rest => by
    have hvalue := run_chars u l.nested k.isNone (⟨(f.add t).done, k⟩ :: fs) _ (ends_more l es rest)
    have hmore := run_moreChars es l u ⟨(f.add t).done, k⟩ fs rest
    simp only [Term.moreChars, List.cons_append, List.append_assoc]
    rw [Reader.run_comma, Reader.run_spaces (isSpace_gap l)]
    simp only [Frame.add] at hvalue hmore ⊢
    rw [Reader.run_keyChars, hvalue, hmore]
    simp
end

/-! ## Values -/

/-- Nothing, or a text that starts with a character that may stand behind a value. -/
def Follows (s : List Char) : Prop := ∀ c ∈ s.head?, c ∈ [',', ';', ']', ')', '\n']

theorem Follows.ends {s : List Char} (h : Follows s) : Ends s := by
  intro c hc
  have hm := h c hc
  simp only [List.mem_cons, List.not_mem_nil, or_false] at hm
  rcases hm with rfl | rfl | rfl | rfl | rfl <;> decide

theorem read_chars (t : Term) (l : Layout) {rest : List Char} (hr : Ends rest) :
    read (t.chars l ++ rest) = some (t, rest) := by
  rw [read, run_chars t l false [] rest hr, Reader.run]
  rfl

/-- The literal of a value is read as that value, whatever its layout and whatever follows
    it; what is read tells values apart up to `Alike`, and so does the literal itself. -/
theorem read_spell (v : Value) (hv : v.Finite) (l : Layout) :
    ∃ s, spell l v = .ok s ∧
      (∀ rest, Follows rest → read (s.toList ++ rest) = some (v.term, rest)) ∧
      (∀ w : Value, w.term = v.term ↔ w.Alike v) ∧
      ∀ (w : Value) (m : Layout), spell m w = .ok s → w.Alike v := by
  have hspell := spell_of_finite hv l
  refine ⟨_, hspell, fun rest hr => ?_, fun w => Value.term_eq_iff w v, fun w m hw => ?_⟩
  · rw [String.toList_ofList]
    exact read_chars v.term l hr.ends
  · have hsame : w.term.chars m = v.term.chars l := by
      have h := (spell_of_finite (finite_of_spell hw) m).symm.trans hw
      simpa using congrArg String.toList (Except.ok.inj h)
    have hread : some (w.term, []) = some (v.term, ([] : List Char)) := by
      have hn : Ends [] := fun c hc => nomatch hc
      rw [← read_chars w.term m hn, ← read_chars v.term l hn, hsame]
    rw [← Value.term_eq_iff]
    exact (Prod.mk.inj (Option.some.inj hread)).1

/-- Keys and strings that imitate what stands around them, the least integer and an empty
    map, in front of a closing bracket. -/
theorem read_spell_imitation :
    let v : Value := .map [(.str "it's ]; \\", .list [.int Int64.minValue, .float 0.5]), (.int (-7), .map [])]
    v.Finite ∧ ∃ s, spell (.multiline .tab 1) v = .ok s ∧
      read (s.toList ++ [']', ';']) = some (v.term, [']', ';']) := by
  intro v
  have hv : v.Finite := by
    intro x hx
    have hx : x = 0.5 := by simpa [v, Value.floats, Value.entryFloats, Value.itemFloats] using hx
    subst hx
    decide
  obtain ⟨s, hs, hread, -⟩ := read_spell v hv (.multiline .tab 1)
  refine ⟨hv, s, hs, hread _ ?_⟩
  intro c hc
  cases hc
  decide

end PhpScribe.Literal
