/-
  PhpScribe.Proofs.ConfigFile.Lexing — the tokens of a text put together from parts.

  Whether a token is over hangs on the next character alone, and every token is over at
  the end of the text (`Leads.like`). So tokens that stand in front of one text are the
  tokens in front of any other that starts alike, and of none (`Lexed.like`): a text may
  be cut at the end of a token, and continued there by something else.

  A text is sealed when no token of it is a comment or can run into what follows.
  Characters that start neither comment nor literal are, and so is a single-quoted
  literal, whatever stands inside (`sealed_quoteChars`); texts put together from sealed
  ones are too. Hence a PHP literal is sealed in every layout (`sealed_chars`).
-/

import PhpScribe.ConfigFile
import PhpScribe.Proofs.Literal.RoundTrip

namespace PhpScribe.ConfigFile

def text (ts : List Token) : List Char := ts.flatMap Token.chars

@[simp] theorem text_nil : text [] = [] := rfl

@[simp] theorem text_cons (t : Token) (ts : List Token) : text (t :: ts) = t.chars ++ text ts := rfl

@[simp] theorem text_append (ts us : List Token) : text (ts ++ us) = text ts ++ text us :=
  List.flatMap_append

@[simp] theorem tokens_nil : tokens [] = [] := by rw [tokens]

@[simp] theorem text_tokens (s : List Char) : text (tokens s) = s := flatMap_chars_tokens s

@[simp] theorem text_symbols (s : List Char) : text (s.map .symbol) = s := by
  induction s with
  | nil => rfl
  | cons c s ih => simp [Token.chars, ih]

/-! ## What ends a token -/

/-- The second text starts as the first does, or is empty. -/
def Like (r r' : List Char) : Prop := r' = [] ∨ r'.head? = r.head?

theorem like_append {r r' : List Char} (h : Like r r') (s : List Char) : Like (s ++ r) (s ++ r') := by
  cases s with
  | nil => exact h
  | cons c s => exact Or.inr rfl

/-- What stands at the front of the second text stands at the front of the first. -/
theorem Like.front {r r' s : List Char} {c : Char} (h : Like r r') (hr : r' = c :: s) :
    ∃ u, r = c :: u := by
  subst hr
  rcases h with h | h
  · exact nomatch h
  · cases r with
    | nil => exact nomatch h
    | cons d r =>
      cases h
      exact ⟨r, rfl⟩

theorem like_nil {r : List Char} (h : Like [] r) : r = [] := by
  rcases h with h | h
  · exact h
  · exact List.head?_eq_none_iff.1 h

theorem blockComment_like {s r : List Char} (h : Like (blockComment s).2 r) :
    blockComment ((blockComment s).1 ++ r) = ((blockComment s).1, r) := by
  fun_induction blockComment s with
  | case1 =>
    rw [like_nil h]
    rfl
  | case2 s => rfl
  | case3 c s hne ih =>
    have hs := blockComment_append s
    have ih := ih h
    simp only [Prod.map_fst, List.cons_append]
    rw [blockComment]
    · rw [ih]
      rfl
    · intro u hc hu
      obtain ⟨v, hv⟩ := (like_append h (blockComment s).1).front hu
      exact hne v hc (hs.symm.trans hv)

theorem lineComment_like {s r : List Char} (h : Like (lineComment s).2 r) :
    lineComment ((lineComment s).1 ++ r) = ((lineComment s).1, r) := by
  fun_induction lineComment s with
  | case1 =>
    rw [like_nil h]
    rfl
  | case2 s =>
    cases r with
    | nil => rfl
    | cons d r =>
      obtain ⟨u, hu⟩ := h.front rfl
      cases hu
      rfl
  | case3 c s hne ih =>
    have ih := ih h
    simp only [Prod.map_fst, List.cons_append]
    rw [lineComment]
    · rw [ih]
      rfl
    · exact hne

theorem literalBody_like {q : Char} {s r : List Char} (h : Like (literalBody q s).2.2 r) :
    literalBody q ((literalBody q s).1 ++ (if (literalBody q s).2.1 then [q] else []) ++ r) =
      ((literalBody q s).1, (literalBody q s).2.1, r) := by
  fun_induction literalBody q s with
  | case1 =>
    rw [like_nil h]
    rfl
  | case2 c s ih =>
    have ih := ih h
    simp only [Prod.map_fst, Prod.map_snd, id_eq, List.cons_append] at ih ⊢
    rw [literalBody, ih]
    rfl
  | case3 s hne =>
    simp only [if_true, List.nil_append, List.cons_append]
    rw [literalBody]
    · rw [if_pos rfl]
    · intro d u hc hu
      obtain ⟨v, hv⟩ := h.front hu
      exact hne d v hc hv
  | case4 c s hne hq ih =>
    have hs := literalBody_append q s
    have ih := ih h
    simp only [Prod.map_fst, Prod.map_snd, id_eq, List.cons_append] at ih ⊢
    rw [literalBody]
    · rw [if_neg hq, ih]
      rfl
    · intro d u hc hu
      obtain ⟨v, hv⟩ := (like_append h _).front hu
      exact hne d v hc (hs.symm.trans hv)

theorem next_quote {q : Char} (hq : q = '\'' ∨ q = '"') (s : List Char) :
    next q s = (.quoted q (literalBody q s).1 (literalBody q s).2.1, (literalBody q s).2.2) := by
  rcases hq with rfl | rfl <;> rfl

/-- A character that starts neither a comment nor a literal in front of this text. -/
theorem next_symbol {c : Char} {s : List Char} (hh : c ≠ '#') (hq : ¬(c = '\'' ∨ c = '"'))
    (hs : c = '/' → ∀ u, s ≠ '*' :: u ∧ s ≠ '/' :: u) : next c s = (.symbol c, s) := by
  unfold next
  split
  · next u => exact absurd rfl (hs rfl u).1
  · next u => exact absurd rfl (hs rfl u).2
  · exact absurd rfl hh
  · exact if_neg hq

/-- The five ways in which a token starts. -/
theorem next_cases {c : Char} {s r : List Char} {t : Token} (h : next c s = (t, r)) :
    (∃ u, t = .comment ('/' :: '*' :: (blockComment u).1) ∧ r = (blockComment u).2) ∨
    (∃ u, t = .comment ('/' :: '/' :: (lineComment u).1) ∧ r = (lineComment u).2) ∨
    (∃ u, t = .comment ('#' :: (lineComment u).1) ∧ r = (lineComment u).2) ∨
    ((c = '\'' ∨ c = '"') ∧ t = .quoted c (literalBody c s).1 (literalBody c s).2.1 ∧
      r = (literalBody c s).2.2) ∨
    (c ≠ '#' ∧ ¬(c = '\'' ∨ c = '"') ∧ (c = '/' → ∀ u, s ≠ '*' :: u ∧ s ≠ '/' :: u) ∧
      t = .symbol c ∧ r = s) := by
  revert h
  fun_cases next c s with
  | case1 u =>
    intro h
    obtain ⟨ht, hr⟩ := Prod.mk.inj h
    exact Or.inl ⟨u, ht.symm, hr.symm⟩
  | case2 u =>
    intro h
    obtain ⟨ht, hr⟩ := Prod.mk.inj h
    exact Or.inr (Or.inl ⟨u, ht.symm, hr.symm⟩)
  | case3 u =>
    intro h
    obtain ⟨ht, hr⟩ := Prod.mk.inj h
    exact Or.inr (Or.inr (Or.inl ⟨s, ht.symm, hr.symm⟩))
  | case4 c s h1 h2 h3 hq body closed rest hb =>
    intro h
    obtain ⟨ht, hr⟩ := Prod.mk.inj h
    refine Or.inr (Or.inr (Or.inr (Or.inl ⟨hq, ?_, ?_⟩)))
    · rw [hb, ht]
    · rw [hb, hr]
  | case5 c s h1 h2 h3 hq =>
    intro h
    obtain ⟨ht, hr⟩ := Prod.mk.inj h
    refine Or.inr (Or.inr (Or.inr (Or.inr ⟨h3, hq, fun hc u => ⟨fun hu => h1 u hc hu, fun hu => h2 u hc hu⟩, ?_⟩)))
    exact ⟨ht.symm, hr.symm⟩

/-- The token is the first one of some text, and `r` is what follows it there. -/
def Leads (t : Token) (r : List Char) : Prop := ∃ c s, next c s = (t, r)

theorem leads_comment {x r : List Char} : Leads (.comment x) r ↔
    (∃ u, x = '/' :: '*' :: (blockComment u).1 ∧ r = (blockComment u).2) ∨
    (∃ p u, (p = ['/', '/'] ∨ p = ['#']) ∧ x = p ++ (lineComment u).1 ∧ r = (lineComment u).2) := by
  constructor
  · rintro ⟨c, s, h⟩
    rcases next_cases h with ⟨u, ht, hr⟩ | ⟨u, ht, hr⟩ | ⟨u, ht, hr⟩ | ⟨-, ht, -⟩ | ⟨-, -, -, ht, -⟩
    · exact Or.inl ⟨u, Token.comment.inj ht, hr⟩
    · exact Or.inr ⟨['/', '/'], u, Or.inl rfl, Token.comment.inj ht, hr⟩
    · exact Or.inr ⟨['#'], u, Or.inr rfl, Token.comment.inj ht, hr⟩
    · cases ht
    · cases ht
  · rintro (⟨u, rfl, rfl⟩ | ⟨p, u, rfl | rfl, rfl, rfl⟩)
    · exact ⟨'/', '*' :: u, rfl⟩
    · exact ⟨'/', '/' :: u, rfl⟩
    · exact ⟨'#', u, rfl⟩

theorem leads_quoted {q : Char} {body r : List Char} {closed : Bool} : Leads (.quoted q body closed) r ↔
    (q = '\'' ∨ q = '"') ∧ ∃ u, literalBody q u = (body, closed, r) := by
  constructor
  · rintro ⟨c, s, h⟩
    rcases next_cases h with ⟨u, ht, -⟩ | ⟨u, ht, -⟩ | ⟨u, ht, -⟩ | ⟨hq, ht, hr⟩ | ⟨-, -, -, ht, -⟩
    · cases ht
    · cases ht
    · cases ht
    · obtain ⟨rfl, rfl, rfl⟩ := Token.quoted.inj ht
      exact ⟨hq, s, by rw [hr]⟩
    · cases ht
  · rintro ⟨hq, u, hu⟩
    exact ⟨q, u, by rw [next_quote hq, hu]⟩

theorem leads_symbol {c : Char} {r : List Char} : Leads (.symbol c) r ↔
    c ≠ '#' ∧ ¬(c = '\'' ∨ c = '"') ∧ (c = '/' → ∀ u, r ≠ '*' :: u ∧ r ≠ '/' :: u) := by
  constructor
  · rintro ⟨d, s, h⟩
    rcases next_cases h with ⟨u, ht, -⟩ | ⟨u, ht, -⟩ | ⟨u, ht, -⟩ | ⟨-, ht, -⟩ | ⟨hh, hq, hs, ht, rfl⟩
    · cases ht
    · cases ht
    · cases ht
    · cases ht
    · cases ht
      exact ⟨hh, hq, hs⟩
  · rintro ⟨hh, hq, hs⟩
    exact ⟨c, r, next_symbol hh hq hs⟩

theorem Leads.tokens {t : Token} {r : List Char} (h : Leads t r) :
    tokens (t.chars ++ r) = t :: tokens r := by
  obtain ⟨c, s, hn⟩ := h
  have ha := next_append c s
  rw [hn] at ha
  rw [ha, ConfigFile.tokens, hn]

theorem Leads.chars_ne_nil {t : Token} {r : List Char} (h : Leads t r) : t.chars ≠ [] := by
  obtain ⟨c, s, hn⟩ := h
  have := chars_next_ne_nil c s
  rwa [hn] at this

theorem Leads.like {t : Token} {r r' : List Char} (h : Leads t r) (hr : Like r r') : Leads t r' := by
  cases t with
  | comment x =>
    rcases leads_comment.1 h with ⟨u, hx, rfl⟩ | ⟨p, u, hp, hx, rfl⟩
    · have hu := blockComment_like hr
      exact leads_comment.2 (Or.inl ⟨(blockComment u).1 ++ r', by rw [hu, hx], by rw [hu]⟩)
    · have hu := lineComment_like hr
      exact leads_comment.2 (Or.inr ⟨p, (lineComment u).1 ++ r', hp, by rw [hu, hx], by rw [hu]⟩)
  | quoted q body closed =>
    obtain ⟨hq, u, hu⟩ := leads_quoted.1 h
    have hl := literalBody_like (q := q) (s := u) (r := r') (by rw [hu]; exact hr)
    rw [hu] at hl
    exact leads_quoted.2 ⟨hq, _, hl⟩
  | symbol c =>
    obtain ⟨hh, hq, hs⟩ := leads_symbol.1 h
    refine leads_symbol.2 ⟨hh, hq, fun hc u => ⟨fun hu => ?_, fun hu => ?_⟩⟩
    · obtain ⟨v, hv⟩ := hr.front hu
      exact (hs hc v).1 hv
    · obtain ⟨v, hv⟩ := hr.front hu
      exact (hs hc v).2 hv

/-! ## Tokens in front of a text -/

/-- The tokens are the first ones of their text in front of `r`. -/
def Lexed : List Token → List Char → Prop
  | [], _ => True
  | t :: ts, r => Leads t (text ts ++ r) ∧ Lexed ts r

theorem Lexed.tokens {ts : List Token} {r : List Char} (h : Lexed ts r) :
    tokens (text ts ++ r) = ts ++ tokens r := by
  induction ts with
  | nil => rfl
  | cons t ts ih => rw [text_cons, List.append_assoc, h.1.tokens, ih h.2, List.cons_append]

theorem lexed_tokens (s : List Char) : Lexed (tokens s) [] := by
  fun_induction ConfigFile.tokens s with
  | case1 => trivial
  | case2 c s ih =>
    refine ⟨⟨c, s, ?_⟩, ih⟩
    rw [List.append_nil, text_tokens]

theorem lexed_append {ts us : List Token} {r : List Char} :
    Lexed (ts ++ us) r ↔ Lexed ts (text us ++ r) ∧ Lexed us r := by
  induction ts with
  | nil => simp [Lexed]
  | cons t ts ih => simp only [List.cons_append, Lexed, ih, text_append, List.append_assoc, and_assoc]

theorem Lexed.like {ts : List Token} {r r' : List Char} (h : Lexed ts r) (hr : Like r r') :
    Lexed ts r' := by
  induction ts with
  | nil => trivial
  | cons t ts ih => exact ⟨h.1.like (like_append hr (text ts)), ih h.2⟩

/-- Tokens of a text may be cut off anywhere between two of them. -/
theorem tokens_text {ts : List Token} {r : List Char} (h : Lexed ts r) : tokens (text ts) = ts := by
  have := (h.like (Or.inl rfl)).tokens
  rwa [List.append_nil, ConfigFile.tokens, List.append_nil] at this

/-! ## Sealed texts -/

/-- No token of the text is a comment or can run into what follows. -/
structure Sealed (s : List Char) : Prop where
  lexed : ∀ r, Lexed (tokens s) r
  visible : ∀ x, Token.comment x ∉ tokens s

theorem Sealed.tokens_append {s : List Char} (h : Sealed s) (r : List Char) :
    tokens (s ++ r) = tokens s ++ tokens r := by
  have := (h.lexed r).tokens
  rwa [text_tokens] at this

theorem Sealed.append {s u : List Char} (hs : Sealed s) (hu : Sealed u) : Sealed (s ++ u) := by
  refine ⟨fun r => ?_, fun x hx => ?_⟩
  · rw [hs.tokens_append, lexed_append]
    exact ⟨hs.lexed _, hu.lexed r⟩
  · rw [hs.tokens_append] at hx
    rcases List.mem_append.1 hx with hx | hx
    · exact hs.visible x hx
    · exact hu.visible x hx

/-- A single token that is not a comment and ends in front of any text. -/
theorem sealed_of_tokens {s : List Char} {t : Token} (ht : tokens s = [t]) (hl : ∀ r, Leads t r)
    (hc : ∀ x, t ≠ .comment x) : Sealed s := by
  refine ⟨fun r => ?_, fun x hx => ?_⟩
  · rw [ht]
    exact ⟨hl _, trivial⟩
  · rw [ht, List.mem_singleton] at hx
    exact hc x hx.symm

theorem sealed_nil : Sealed [] := by
  refine ⟨fun r => ?_, fun x => ?_⟩
  · rw [tokens]
    trivial
  · rw [tokens]
    exact List.not_mem_nil

/-- A property of all characters of a text that can be run. -/
theorem forall_of_all {P : Char → Prop} [DecidablePred P] {s : List Char}
    (h : (s.all fun c => decide (P c)) = true) : ∀ c ∈ s, P c := by
  simpa using h

/-- Neither a comment nor a literal starts with this character. -/
def Plain (c : Char) : Prop := c ≠ '/' ∧ c ≠ '#' ∧ c ≠ '\'' ∧ c ≠ '"'

instance (c : Char) : Decidable (Plain c) :=
  inferInstanceAs (Decidable (c ≠ '/' ∧ c ≠ '#' ∧ c ≠ '\'' ∧ c ≠ '"'))

theorem next_plain {c : Char} (h : Plain c) (s : List Char) : next c s = (.symbol c, s) :=
  next_symbol h.2.1 (not_or.2 h.2.2) fun hc => absurd hc h.1

theorem tokens_plain {c : Char} (h : Plain c) (s : List Char) :
    tokens (c :: s) = .symbol c :: tokens s := by
  rw [tokens, next_plain h]

theorem leads_plain {c : Char} (h : Plain c) (r : List Char) : Leads (.symbol c) r :=
  ⟨c, r, next_plain h r⟩

theorem sealed_cons {c : Char} {s : List Char} (hc : Plain c) (hs : Sealed s) : Sealed (c :: s) := by
  have ht : tokens [c] = [.symbol c] := by rw [tokens_plain hc, tokens]
  have hone := sealed_of_tokens ht (leads_plain hc) fun _ hx => Token.noConfusion hx
  exact hone.append hs

theorem sealed_plain {s : List Char} (h : ∀ c ∈ s, Plain c) : Sealed s := by
  induction s with
  | nil => exact sealed_nil
  | cons c s ih => exact sealed_cons (h c (by simp)) (ih fun d hd => h d (by simp [hd]))

theorem tokens_symbols {s : List Char} (h : ∀ c ∈ s, Plain c) : tokens s = s.map .symbol := by
  induction s with
  | nil => rw [tokens]; rfl
  | cons c s ih => rw [tokens_plain (h c (by simp)), ih fun d hd => h d (by simp [hd]), List.map_cons]

/-! ## Literals -/

theorem literalBody_escape (s r : List Char) :
    literalBody '\'' (Literal.escape s ++ '\'' :: r) = (Literal.escape s, true, r) := by
  induction s with
  | nil => rfl
  | cons c s ih =>
    by_cases hc : c = '\\' ∨ c = '\''
    · simp [Literal.escape, hc, literalBody, ih]
    · obtain ⟨h1, h2⟩ := not_or.1 hc
      simp [Literal.escape, h1, h2, literalBody, ih]

theorem unescape_escape (s : List Char) : unescape '\'' (Literal.escape s) = s := by
  induction s with
  | nil => rfl
  | cons c s ih =>
    by_cases hc : c = '\\' ∨ c = '\''
    · rw [Literal.escape, if_pos hc, unescape, if_pos hc.symm, ih]
    · obtain ⟨h1, h2⟩ := not_or.1 hc
      rw [Literal.escape, if_neg hc, unescape, ih]
      · exact fun h => absurd h h1
      · exact fun _ _ h => absurd h h1

theorem next_quoteChars (s r : List Char) :
    next '\'' (Literal.escape s ++ '\'' :: r) = (.quoted '\'' (Literal.escape s) true, r) := by
  rw [next_quote (Or.inl rfl), literalBody_escape]

theorem tokens_quoteChars (s r : List Char) :
    tokens (Literal.quoteChars s ++ r) = .quoted '\'' (Literal.escape s) true :: tokens r := by
  simp only [Literal.quoteChars, List.cons_append, List.append_assoc, List.nil_append]
  rw [tokens, next_quoteChars]

theorem tokens_quoteChars_nil (s : List Char) :
    tokens (Literal.quoteChars s) = [.quoted '\'' (Literal.escape s) true] := by
  have h := tokens_quoteChars s []
  rwa [List.append_nil, tokens_nil] at h

theorem sealed_quoteChars (s : List Char) : Sealed (Literal.quoteChars s) :=
  sealed_of_tokens (tokens_quoteChars_nil s) (fun r => ⟨'\'', _, next_quoteChars s r⟩)
    fun _ hx => Token.noConfusion hx

theorem plain_of_isWordChar {c : Char} (h : Literal.isWordChar c = true) : Plain c := by
  refine ⟨?_, ?_, ?_, ?_⟩ <;>
  · rintro rfl
    exact absurd h (by decide)

theorem plain_of_isSpace {c : Char} (h : Literal.isSpace c = true) : Plain c := by
  refine ⟨?_, ?_, ?_, ?_⟩ <;>
  · rintro rfl
    exact absurd h (by decide)

theorem sealed_word {s : List Char} (h : ∀ c ∈ s, Literal.isWordChar c = true) : Sealed s :=
  sealed_plain fun c hc => plain_of_isWordChar (h c hc)

theorem sealed_space {s : List Char} (h : ∀ c ∈ s, Literal.isSpace c = true) : Sealed s :=
  sealed_plain fun c hc => plain_of_isSpace (h c hc)

theorem sealed_key (k : Key) : Sealed (Literal.key k).toList := by
  cases k with
  | int n => exact sealed_word (Literal.isWordChar_int n)
  | str s =>
    rw [Literal.key, Literal.toList_quote]
    exact sealed_quoteChars s.toList

theorem sealed_keyChars (k : Option Key) : Sealed (Term.keyChars k) := by
  cases k with
  | none => exact sealed_nil
  | some k =>
    refine (sealed_key k).append (sealed_plain ?_)
    simp [Plain]

theorem sealed_trail (l : Layout) : Sealed l.trail := by
  cases l with
  | inline => exact sealed_nil
  | multiline i d =>
    exact sealed_cons (by simp [Plain]) (sealed_space (Literal.isSpace_newline_indent i d))

mutual
theorem sealed_chars : (t : Term) → (l : Layout) → Sealed (t.chars l)
  | .null, _ | .bool true, _ | .bool false, _ => sealed_plain (by simp [Term.chars, Plain])
  | .int n, _ => sealed_word (Literal.isWordChar_int n)
  | .float t, _ => sealed_word (Literal.isWordChar_floatText t)
  | .string s, _ => sealed_quoteChars s.toList
  | .array [], _ => sealed_plain (by simp [Term.chars, Plain])
  | .array ((k, t) :: es), l => by
    have hlead := sealed_space (Literal.isSpace_lead l)
    have hentry := (sealed_keyChars k).append (sealed_chars t l.nested)
    have hmore := (sealed_moreChars es l).append (sealed_trail l)
    have hall := (hlead.append hentry).append (hmore.append (sealed_plain (s := [']']) (by simp [Plain])))
    have := sealed_cons (c := '[') (by simp [Plain]) hall
    simpa only [Term.chars, List.append_assoc] using this

theorem sealed_moreChars : (es : List (Option Key × Term)) → (l : Layout) → Sealed (Term.moreChars l es)
  | [], _ => sealed_nil
  | (k, t) :: es, l => by
    have hgap := sealed_space (Literal.isSpace_gap l)
    have hentry := (sealed_keyChars k).append (sealed_chars t l.nested)
    have := sealed_cons (c := ',') (by simp [Plain]) ((hgap.append hentry).append (sealed_moreChars es l))
    simpa only [Term.moreChars, List.append_assoc] using this
end

end PhpScribe.ConfigFile
