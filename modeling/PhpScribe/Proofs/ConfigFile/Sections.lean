/-
  PhpScribe.Proofs.ConfigFile.Sections — which keys a scan over tokens collects.

  A scan is cut in two where the second part does not complete an arrow (`Inert`) and no
  bracket has closed the array the scan started in (`nesting`): then the keys of the
  first part come first, and the second is scanned at the depth the first ends at
  (`keysFrom_append`). Inside a nested array nothing is a key, so a literal passes
  unseen at any depth, a lone string at the outer level apart, which is one in front of
  an arrow (`keysFrom_chars`, `nesting_chars`). An entry `name => literal,` adds its name
  and nothing else, whatever name and literal hold (`keysFrom_entry`).
-/

import PhpScribe.Proofs.ConfigFile.Lexing

namespace PhpScribe.ConfigFile

/-! ## Cutting a scan -/

/-- How many brackets deep the tokens end that start `d` deep, if they never close the
    outermost of them. -/
def nesting : Nat → List Token → Option Nat
  | d, [] => some d
  | d, .symbol c :: ts =>
    if c = '[' ∨ c = '(' then nesting (d + 1) ts
    else if c = ']' ∨ c = ')' then if d ≤ 1 then none else nesting (d - 1) ts
    else nesting d ts
  | d, _ :: ts => nesting d ts

/-- The tokens neither are nor complete an arrow. -/
def Inert (ts : List Token) : Prop := arrowFollows ts = false ∧ ts.head? ≠ some (.symbol '>')

theorem nesting_append (d : Nat) (ts us : List Token) :
    nesting d (ts ++ us) = (nesting d ts).bind (nesting · us) := by
  fun_induction nesting d ts with
  | case1 d => rfl
  | case2 d c ts hc ih => simp only [List.cons_append, nesting, if_pos hc, ih]
  | case3 d c ts hc hc' hd =>
    simp only [List.cons_append, nesting, if_neg hc, if_pos hc', if_pos hd, Option.bind_none]
  | case4 d c ts hc hc' hd ih => simp only [List.cons_append, nesting, if_neg hc, if_pos hc', if_neg hd, ih]
  | case5 d c ts hc hc' ih => simp only [List.cons_append, nesting, if_neg hc, if_neg hc', ih]
  | case6 d t ts ht ih =>
    rw [List.cons_append, nesting, ih]
    exact ht

theorem arrowFollows_symbol (c : Char) (ts : List Token) : arrowFollows (.symbol c :: ts) =
    (decide (c = '=' ∧ ts.head? = some (.symbol '>')) || (Text.isBlank c && arrowFollows ts)) := by
  conv => lhs; unfold arrowFollows
  split
  · next us h =>
    cases h
    rfl
  · next d us h1 h2 =>
    cases h2
    by_cases hc : c = '=' ∧ ts.head? = some (.symbol '>')
    · obtain ⟨us, rfl⟩ := List.head?_eq_some_iff.1 hc.2
      exact absurd hc.1 (h1 us rfl)
    · rw [decide_eq_false hc, Bool.false_or]
  · next h => exact absurd rfl (h c ts)

theorem arrowFollows_append {p : List Token} (hp : Inert p) (ts : List Token) :
    arrowFollows (ts ++ p) = arrowFollows ts := by
  induction ts with
  | nil => exact hp.1
  | cons t ts ih =>
    cases t with
    | comment x => rfl
    | quoted q x b => rfl
    | symbol c =>
      have hh : (ts ++ p).head? = some (.symbol '>') ↔ ts.head? = some (.symbol '>') := by
        cases ts with
        | nil => exact ⟨fun h => absurd h hp.2, nofun⟩
        | cons t ts => exact Iff.rfl
      rw [List.cons_append, arrowFollows_symbol, arrowFollows_symbol, ih]
      simp only [hh]

theorem keysFrom_append {p : List Token} (hp : Inert p) {d e : Nat} {ts : List Token}
    (h : nesting d ts = some e) : keysFrom d (ts ++ p) = keysFrom d ts ++ keysFrom e p := by
  fun_induction keysFrom d ts with
  | case1 d =>
    cases h
    rfl
  | case2 d x ts ih =>
    rw [List.cons_append, keysFrom, ih h]
  | case3 d q body closed ts hk ih =>
    rw [← arrowFollows_append hp] at hk
    rw [List.cons_append, keysFrom, if_pos hk, ih h, List.cons_append]
  | case4 d q body closed ts hk ih =>
    rw [← arrowFollows_append hp] at hk
    rw [List.cons_append, keysFrom, if_neg hk, ih h]
  | case5 d c ts hc ih =>
    rw [nesting, if_pos hc] at h
    rw [List.cons_append, keysFrom, if_pos hc, ih h]
  | case6 d c ts hc hc' hd =>
    rw [nesting, if_neg hc, if_pos hc', if_pos hd] at h
    exact nomatch h
  | case7 d c ts hc hc' hd ih =>
    rw [nesting, if_neg hc, if_pos hc', if_neg hd] at h
    rw [List.cons_append, keysFrom, if_neg hc, if_pos hc', if_neg hd, ih h]
  | case8 d c ts hc hc' ih =>
    rw [nesting, if_neg hc, if_neg hc'] at h
    rw [List.cons_append, keysFrom, if_neg hc, if_neg hc', ih h]

/-! ## What a scan passes over -/

/-- A scan that is `n` brackets deep or deeper finds no key in the tokens, and is as deep
    behind them as in front of them. -/
structure Passes (n : Nat) (ts : List Token) : Prop where
  level : ∀ d, n ≤ d → nesting d ts = some d
  keys : ∀ d, n ≤ d → ∀ us, keysFrom d (ts ++ us) = keysFrom d us

theorem Passes.mono {m n : Nat} {ts : List Token} (h : Passes m ts) (hmn : m ≤ n) : Passes n ts :=
  ⟨fun d hd => h.level d (hmn.trans hd), fun d hd => h.keys d (hmn.trans hd)⟩

theorem Passes.append {n : Nat} {ts us : List Token} (ht : Passes n ts) (hu : Passes n us) :
    Passes n (ts ++ us) := by
  refine ⟨fun d hd => ?_, fun d hd vs => ?_⟩
  · rw [nesting_append, ht.level d hd, Option.bind_some, hu.level d hd]
  · rw [List.append_assoc, ht.keys d hd, hu.keys d hd]

theorem passes_nil (n : Nat) : Passes n [] := ⟨fun _ _ => rfl, fun _ _ _ => rfl⟩

def isBracket (c : Char) : Bool := c = '[' || c = '(' || c = ']' || c = ')'

/-- A class of characters without brackets. -/
theorem isBracket_eq_false {p : Char → Bool}
    (hp : p '[' = false ∧ p '(' = false ∧ p ']' = false ∧ p ')' = false) {c : Char} (h : p c = true) :
    isBracket c = false := by
  obtain ⟨h1, h2, h3, h4⟩ := hp
  by_contra hb
  simp only [isBracket, Bool.not_eq_false, Bool.or_eq_true, decide_eq_true_eq] at hb
  rcases hb with ((rfl | rfl) | rfl) | rfl
  · exact absurd h (by simp [h1])
  · exact absurd h (by simp [h2])
  · exact absurd h (by simp [h3])
  · exact absurd h (by simp [h4])

theorem passes_symbol {c : Char} (h : isBracket c = false) : Passes 0 [.symbol c] := by
  simp only [isBracket, Bool.or_eq_false_iff, decide_eq_false_iff_not] at h
  obtain ⟨⟨⟨h1, h2⟩, h3⟩, h4⟩ := h
  refine ⟨fun d _ => ?_, fun d _ us => ?_⟩
  · rw [nesting, if_neg (not_or.2 ⟨h1, h2⟩), if_neg (not_or.2 ⟨h3, h4⟩), nesting]
  · rw [List.cons_append, keysFrom, if_neg (not_or.2 ⟨h1, h2⟩), if_neg (not_or.2 ⟨h3, h4⟩), List.nil_append]

/-- Behind two brackets no literal is a key. -/
theorem passes_quoted (q : Char) (body : List Char) (closed : Bool) :
    Passes 2 [.quoted q body closed] := by
  refine ⟨fun d _ => rfl, fun d hd us => ?_⟩
  rw [List.cons_append, keysFrom, if_neg (by omega), List.nil_append]

theorem passes_brackets {ts : List Token} (h : Passes 2 ts) :
    Passes 1 (.symbol '[' :: (ts ++ [.symbol ']'])) := by
  refine ⟨fun d hd => ?_, fun d hd us => ?_⟩
  · rw [nesting, if_pos (Or.inl rfl), nesting_append, h.level (d + 1) (by omega), Option.bind_some,
      nesting, if_neg (by decide), if_pos (Or.inl rfl), if_neg (by omega), Nat.add_sub_cancel, nesting]
  · rw [List.cons_append, keysFrom, if_pos (Or.inl rfl), List.append_assoc, h.keys (d + 1) (by omega),
      List.cons_append, keysFrom, if_neg (by decide), if_pos (Or.inl rfl), if_neg (by omega),
      List.nil_append, Nat.add_sub_cancel]

theorem passes_plain {s : List Char} (h : ∀ c ∈ s, Plain c ∧ isBracket c = false) :
    Passes 0 (tokens s) := by
  rw [tokens_symbols fun c hc => (h c hc).1]
  induction s with
  | nil => exact passes_nil 0
  | cons c s ih =>
    have hc := passes_symbol (h c (by simp)).2
    exact hc.append (ih fun d hd => h d (by simp [hd]))

/-! ## Literals -/

theorem passes_word {s : List Char} (h : ∀ c ∈ s, Literal.isWordChar c = true) : Passes 0 (tokens s) :=
  passes_plain fun c hc =>
    ⟨plain_of_isWordChar (h c hc), isBracket_eq_false ⟨by decide, by decide, by decide, by decide⟩ (h c hc)⟩

theorem passes_space {s : List Char} (h : ∀ c ∈ s, Literal.isSpace c = true) : Passes 0 (tokens s) :=
  passes_plain fun c hc =>
    ⟨plain_of_isSpace (h c hc), isBracket_eq_false ⟨by decide, by decide, by decide, by decide⟩ (h c hc)⟩

theorem passes_quoteChars (s : List Char) : Passes 2 (tokens (Literal.quoteChars s)) := by
  rw [tokens_quoteChars_nil]
  exact passes_quoted _ _ _

theorem passes_keyChars (k : Option Key) : Passes 2 (tokens (Term.keyChars k)) := by
  cases k with
  | none =>
    rw [Term.keyChars, tokens]
    exact passes_nil 2
  | some k =>
    have harrow : Passes 0 (tokens [' ', '=', '>', ' ']) := passes_plain (by simp [Plain, isBracket])
    rw [Term.keyChars, (sealed_key k).tokens_append]
    refine Passes.append ?_ (harrow.mono (by omega))
    cases k with
    | int n => exact (passes_word (Literal.isWordChar_int n)).mono (by omega)
    | str s =>
      rw [Literal.key, Literal.toList_quote]
      exact passes_quoteChars s.toList

theorem passes_trail (l : Layout) : Passes 0 (tokens l.trail) := by
  cases l with
  | inline =>
    rw [Layout.trail, tokens]
    exact passes_nil 0
  | multiline i d =>
    rw [Layout.trail, tokens_plain (by simp [Plain])]
    exact (passes_symbol (c := ',') rfl).append (passes_space (Literal.isSpace_newline_indent i d))

/-- The tokens of an array pass by its entries alone. -/
theorem passes_array {l : Layout} {k : Option Key} {t : Term} {es : List (Option Key × Term)}
    (ht : Passes 2 (tokens (t.chars l.nested))) (hes : Passes 2 (tokens (Term.moreChars l es))) :
    Passes 1 (tokens ((Term.array ((k, t) :: es)).chars l)) := by
  have hlead := sealed_space (Literal.isSpace_lead l)
  have hclose : tokens [']'] = [.symbol ']'] := tokens_symbols (by simp [Plain])
  simp only [Term.chars, List.append_assoc]
  rw [tokens_plain (by simp [Plain]), hlead.tokens_append, (sealed_keyChars k).tokens_append,
    (sealed_chars t _).tokens_append, (sealed_moreChars es l).tokens_append,
    (sealed_trail l).tokens_append, hclose]
  simp only [← List.append_assoc]
  have hspace := (passes_space (Literal.isSpace_lead l)).mono (Nat.zero_le 2)
  have htrail := (passes_trail l).mono (Nat.zero_le 2)
  exact passes_brackets ((((hspace.append (passes_keyChars k)).append ht).append hes).append htrail)

/-- Behind how many brackets a literal is no key: a string may be one in the array itself. -/
def seclusion : Term → Nat
  | .string _ => 2
  | _ => 1

theorem seclusion_le (t : Term) : seclusion t ≤ 2 := by
  unfold seclusion
  split <;> omega

theorem seclusion_of_ne {t : Term} (h : ∀ s, t ≠ .string s) : seclusion t = 1 := by
  unfold seclusion
  split
  · next s => exact absurd rfl (h s)
  · rfl

mutual
theorem passes_chars : (t : Term) → (l : Layout) → Passes (seclusion t) (tokens (t.chars l))
  | .null, _ | .bool true, _ | .bool false, _ =>
    (passes_plain (by simp [Term.chars, Plain, isBracket])).mono (Nat.zero_le 1)
  | .int n, _ => (passes_word (Literal.isWordChar_int n)).mono (Nat.zero_le 1)
  | .float t, _ => (passes_word (Literal.isWordChar_floatText t)).mono (Nat.zero_le 1)
  | .string s, _ => passes_quoteChars s.toList
  | .array [], _ => by
    have h : tokens ['[', ']'] = [.symbol '[', .symbol ']'] := tokens_symbols (by simp [Plain])
    rw [Term.chars, h]
    exact passes_brackets (passes_nil 2)
  | .array ((_, t) :: es), l =>
    passes_array ((passes_chars t l.nested).mono (seclusion_le t)) (passes_moreChars es l)

theorem passes_moreChars :
    (es : List (Option Key × Term)) → (l : Layout) → Passes 2 (tokens (Term.moreChars l es))
  | [], _ => by
    rw [Term.moreChars, tokens]
    exact passes_nil 2
  | (k, t) :: es, l => by
    have hgap := passes_space (Literal.isSpace_gap l)
    have hcomma := passes_symbol (c := ',') rfl
    simp only [Term.moreChars, List.append_assoc]
    rw [tokens_plain (by simp [Plain]), (sealed_space (Literal.isSpace_gap l)).tokens_append,
      (sealed_keyChars k).tokens_append, (sealed_chars t _).tokens_append]
    have hspace := (hcomma.append hgap).mono (Nat.zero_le 2)
    have hvalue := (passes_chars t l.nested).mono (seclusion_le t)
    exact hspace.append ((passes_keyChars k).append (hvalue.append (passes_moreChars es l)))
end

/-- A literal that is not a string is no key at any depth. -/
theorem passes_chars_of_ne {t : Term} (h : ∀ s, t ≠ .string s) (l : Layout) :
    Passes 1 (tokens (t.chars l)) := by
  have ht := passes_chars t l
  rwa [seclusion_of_ne h] at ht

/-- A literal in the array itself passes too, but for a string in front of an arrow. -/
theorem keysFrom_chars (t : Term) (l : Layout) {us : List Token}
    (h : arrowFollows us = false ∨ ∀ s, t ≠ .string s) {d : Nat} (hd : 1 ≤ d) :
    keysFrom d (tokens (t.chars l) ++ us) = keysFrom d us := by
  by_cases ht : ∃ s, t = .string s
  · obtain ⟨s, rfl⟩ := ht
    have ha : arrowFollows us = false := h.resolve_right fun hs => hs s rfl
    rw [Term.chars, tokens_quoteChars_nil, List.cons_append, keysFrom, if_neg (by simp [ha]), List.nil_append]
  · exact (passes_chars_of_ne (fun s hs => ht ⟨s, hs⟩) l).keys d hd us

theorem nesting_chars (t : Term) (l : Layout) {d : Nat} (hd : 1 ≤ d) :
    nesting d (tokens (t.chars l)) = some d := by
  by_cases ht : ∃ s, t = .string s
  · obtain ⟨s, rfl⟩ := ht
    rw [Term.chars, tokens_quoteChars_nil]
    rfl
  · exact (passes_chars_of_ne (fun s hs => ht ⟨s, hs⟩) l).level d hd

/-! ## Entries -/

def entryChars (name : String) (t : Term) : List Char :=
  Indent.config.chars 1 ++ (Literal.quoteChars name.toList ++ ([' ', '=', '>', ' '] ++
    (t.chars (.config 1) ++ [','])))

theorem entry_of_finite {v : Value} (h : v.Finite) (name : String) :
    entry name v = .ok (String.ofList (entryChars name v.term)) := by
  rw [entry, Literal.spell_of_finite h]
  refine congrArg Except.ok (String.toList_injective ?_)
  simp [entryChars, Indent.text]

theorem sealed_indent : Sealed (Indent.config.chars 1) := sealed_plain (forall_of_all (by decide))

theorem sealed_arrow : Sealed [' ', '=', '>', ' '] := sealed_plain (forall_of_all (by decide))

theorem sealed_comma : Sealed [','] := sealed_plain (forall_of_all (by decide))

theorem sealed_entryChars (name : String) (t : Term) : Sealed (entryChars name t) := by
  have hvalue := (sealed_chars t (.config 1)).append sealed_comma
  exact sealed_indent.append ((sealed_quoteChars _).append (sealed_arrow.append hvalue))

theorem tokens_entryChars (name : String) (t : Term) :
    tokens (entryChars name t) = tokens (Indent.config.chars 1) ++
      .quoted '\'' (Literal.escape name.toList) true :: (tokens [' ', '=', '>', ' '] ++
        (tokens (t.chars (.config 1)) ++ [.symbol ','])) := by
  have hcomma : tokens [','] = [.symbol ','] := tokens_symbols (forall_of_all (by decide))
  rw [entryChars, sealed_indent.tokens_append, tokens_quoteChars, sealed_arrow.tokens_append,
    (sealed_chars t _).tokens_append, hcomma]

theorem passes_indent : Passes 0 (tokens (Indent.config.chars 1)) :=
  passes_plain (forall_of_all (by decide))

theorem passes_arrow : Passes 0 (tokens [' ', '=', '>', ' ']) := passes_plain (forall_of_all (by decide))

/-- An entry adds its name to the keys, whatever its name and its literal hold. -/
theorem keysFrom_entry (name : String) (t : Term) (us : List Token) :
    keysFrom 1 (tokens (entryChars name t) ++ us) = name :: keysFrom 1 us := by
  have hcomma : Passes 0 [.symbol ','] := passes_symbol rfl
  rw [tokens_entryChars]
  simp only [List.append_assoc, List.cons_append]
  rw [passes_indent.keys 1 (by omega), keysFrom, if_pos, unescape_escape, String.ofList_toList]
  · rw [passes_arrow.keys 1 (by omega), keysFrom_chars t _ (Or.inl rfl) (by omega)]
    exact congrArg _ (hcomma.keys 1 (by omega) us)
  · refine ⟨rfl, ?_⟩
    rw [tokens_symbols (forall_of_all (by decide))]
    rfl

theorem nesting_entry (name : String) (t : Term) :
    nesting 1 (tokens (entryChars name t)) = some 1 := by
  rw [tokens_entryChars, nesting_append, passes_indent.level 1 (by omega), Option.bind_some, nesting,
    nesting_append, passes_arrow.level 1 (by omega), Option.bind_some, nesting_append,
    nesting_chars t _ (by omega)]
  · rfl
  · nofun

end PhpScribe.ConfigFile
