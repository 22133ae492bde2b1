/-
  PhpScribe.Proofs.ConfigFile.Splice — a section added to a file written by hand.

  A file returns an array (`Returns`) when its first `return [` starts at a token and the
  bracket that closes that one is the bracket of the last `];`. Whatever else stands in
  it, in comments, literals or nested arrays:
  (1) `Returns.addSection`: a new section with a value that can be spelled is accepted,
      and behind the last code of the array stands an `insertion`: a comma if one is
      needed, the white space and comments that stood there, and the entry. The result
      returns an array too, so it can be edited again.
  (2) `addSection_spliced`: all code stays where it is, and so do the comments, but for
      white space at the end of the last one in front of the bracket; the sections are
      the old ones and the new one.
-/

import PhpScribe.Proofs.ConfigFile.Cut

namespace PhpScribe.ConfigFile

/-! ## The text of an edited file -/

def commaAfter (ts : List Token) : List Token :=
  if ts.getLast? = some (.symbol '[') ∨ ts.getLast? = some (.symbol ',') then [] else [.symbol ',']

theorem commaAfter_snoc (ts : List Token) (t : Token) : commaAfter (ts ++ [t]) = commaAfter [t] := by
  simp [commaAfter]

theorem passes_commaAfter (ts : List Token) : Passes 0 (commaAfter ts) := by
  unfold commaAfter
  split
  · exact passes_nil 0
  · exact passes_symbol rfl

/-- What is put behind the last code for an entry: a comma, what stood behind that code,
    and the entry on lines of its own. -/
def insertion (comma rest entry : List Token) : List Token :=
  comma ++ (rest ++ .symbol '\n' :: (entry ++ [.symbol '\n']))

/-- The separator is chosen by the last character, which is that of the last token. -/
theorem Leads.separator {t : Token} {d : Char} {r : List Char} (h : Leads t (d :: r))
    (ht : t.isCode = true) (s : List Char) : separator (s ++ t.chars) = text (commaAfter [t]) := by
  cases t with
  | comment x => cases ht
  | quoted q body closed =>
    obtain ⟨hq, rfl, -⟩ := h.quoted
    have hl : (s ++ (Token.quoted q body true).chars).getLast? = some q := by
      rw [show s ++ (Token.quoted q body true).chars = (s ++ q :: body) ++ [q] by simp [Token.chars]]
      exact List.getLast?_concat
    rw [ConfigFile.separator, hl]
    rcases hq with rfl | rfl <;> rfl
  | symbol c =>
    have hl : (s ++ (Token.symbol c).chars).getLast? = some c := by simp [Token.chars]
    rw [ConfigFile.separator, hl]
    split
    · next hc => cases hc; rfl
    · next hc => cases hc; rfl
    · next h1 h2 =>
      have hne : ¬([Token.symbol c].getLast? = some (.symbol '[') ∨
          [Token.symbol c].getLast? = some (.symbol ',')) := by
        rintro (hc | hc)
        · cases hc
          exact h1 rfl
        · cases hc
          exact h2 rfl
      rw [commaAfter, if_neg hne]
      rfl

/-- A new name and a value that can be spelled are accepted, and the new text is the old
    one with a comma, if one is needed, behind its last code and the entry on lines of its
    own in front of the bracket. -/
theorem addSection_eq {f : ConfigFile} {before after : List Char} {ts us : List Token} {t : Token}
    (hs : Text.splitLast returnClose f.source.toList = some (before, after))
    (hb : tokens before = ts ++ t :: us) (ht : t.isCode = true) (hus : ∀ u ∈ us, u.isCode = false)
    {name : String} (hn : name ∉ f.sections) {v : Value} (hv : v.Finite) :
    ∃ g, f.addSection name v = .ok g ∧ g.source.toList = text (ts ++ [t]) ++
      (separator (text (ts ++ [t])) ++ (Text.trimEnd (text us) ++
        '\n' :: (entryChars name v.term ++ '\n' :: after))) := by
  have hsec : f.hasSection name = false := by simpa [hasSection] using hn
  have hb' : tokens before = (ts ++ [t]) ++ us := by rw [hb, List.append_assoc, List.singleton_append]
  simp only [addSection, hsec, hs, entry_of_finite hv, splitCode_eq hb' (endsInCode_snoc.2 ht) hus,
    Bool.false_eq_true, if_false]
  exact ⟨_, rfl, by simp⟩

/-! ## Files that return an array -/

/-- The file returns an array: its first `return [` starts at a token, and the bracket
    that closes that one is the bracket of the last `];`. -/
structure Returns (f : ConfigFile) (head inside tail : List Token) : Prop where
  tokens_eq : tokens f.source.toList =
    head ++ (returnOpen.map .symbol ++ (inside ++ .symbol ']' :: tail))
  first : Text.afterFirst returnOpen f.source.toList = some (text (inside ++ .symbol ']' :: tail))
  closed : nesting 1 inside = some 1
  last : Text.splitLast returnClose f.source.toList =
    some (text (head ++ (returnOpen.map .symbol ++ inside)), text (.symbol ']' :: tail))

theorem inert_close (ts : List Token) : Inert (.symbol ']' :: ts) := by
  refine ⟨?_, nofun⟩
  rw [arrowFollows_symbol]
  rfl

theorem keysFrom_close (ts : List Token) : keysFrom 1 (.symbol ']' :: ts) = [] := by
  rw [keysFrom, if_neg (by decide), if_pos (Or.inl rfl), if_pos (by omega)]

variable {f : ConfigFile} {head inside tail : List Token}

theorem Returns.lexed (hf : Returns f head inside tail) :
    Lexed (head ++ (returnOpen.map .symbol ++ (inside ++ .symbol ']' :: tail))) [] := by
  rw [← hf.tokens_eq]
  exact lexed_tokens f.source.toList

theorem Returns.source_eq (hf : Returns f head inside tail) : f.source.toList =
    text head ++ (returnOpen ++ text (inside ++ .symbol ']' :: tail)) := by
  rw [← text_tokens f.source.toList, hf.tokens_eq, text_append, text_append, text_symbols]

/-- What is behind `return [` is tokens of its own. -/
theorem Returns.lexed_inside (hf : Returns f head inside tail) :
    Lexed (inside ++ .symbol ']' :: tail) [] := by
  obtain ⟨-, h⟩ := lexed_append.1 hf.lexed
  exact (lexed_append.1 h).2

/-- The text in front of the bracket has the tokens it has in the file. -/
theorem Returns.tokens_before (hf : Returns f head inside tail) :
    tokens (text (head ++ (returnOpen.map .symbol ++ inside))) =
      head ++ (returnOpen.map .symbol ++ inside) := by
  have h : Lexed ((head ++ (returnOpen.map .symbol ++ inside)) ++ .symbol ']' :: tail) [] := by
    simpa only [List.append_assoc] using hf.lexed
  exact tokens_text (lexed_append.1 h).1

theorem Returns.sections (hf : Returns f head inside tail) : f.sections = keysFrom 1 inside := by
  rw [ConfigFile.sections, hf.first]
  show keysFrom 1 (tokens (text (inside ++ .symbol ']' :: tail))) = _
  rw [tokens_text hf.lexed_inside, keysFrom_append (inert_close tail) hf.closed, keysFrom_close,
    List.append_nil]

theorem Returns.nesting_init {init space : List Token} (hf : Returns f head (init ++ space) tail)
    (hspace : ∀ t ∈ space, t.isCode = false) : nesting 1 init = some 1 := by
  have hc := hf.closed
  rw [nesting_append] at hc
  cases hd : nesting 1 init with
  | none =>
    rw [hd] at hc
    cases hc
  | some d =>
    rw [hd, Option.bind_some, (passes_space_comments hspace).level d (Nat.zero_le d)] at hc
    exact hc

/-- Another file with the same tokens in front of the array and behind it returns an
    array too, if the tokens between them close no bracket too many. -/
theorem Returns.of_tokens (hf : Returns f head inside tail) {g : ConfigFile} {us : List Token}
    (hg : tokens g.source.toList = head ++ (returnOpen.map .symbol ++ (us ++ .symbol ']' :: tail)))
    (hus : nesting 1 us = some 1) : Returns g head us tail := by
  have hsrc : g.source.toList = text head ++ (returnOpen ++ text (us ++ .symbol ']' :: tail)) := by
    rw [← text_tokens g.source.toList, hg, text_append, text_append, text_symbols]
  refine ⟨hg, ?_, hus, ?_⟩
  · have hfirst := hf.first
    rw [hf.source_eq] at hfirst
    rw [hsrc]
    exact Text.afterFirst_congr hfirst _
  · have hback := Text.splitLast_back hf.last
    have := Text.splitLast_of_back hback (text (head ++ (returnOpen.map .symbol ++ us)))
    rw [hsrc, ← this]
    simp only [text_append, text_symbols, List.append_assoc]

theorem append_of_snoc {a b c ts : List Token} {t : Token} (h : a ++ (b ++ c) = ts ++ [t]) (us : List Token) :
    a ++ (b ++ (c ++ us)) = ts ++ t :: us := by
  rw [← List.append_assoc b, ← List.append_assoc a, h, List.append_assoc]
  rfl

/-- The code of the array ends somewhere behind the bracket that opens it, or with that
    bracket; white space and comments follow. -/
theorem exists_lastCode (ts us : List Token) : ∃ init space, us = init ++ space ∧
    (∀ t ∈ space, t.isCode = false) ∧
    ∃ vs t, ts ++ (returnOpen.map Token.symbol ++ init) = vs ++ [t] ∧ t.isCode = true := by
  obtain ⟨init, space, rfl, hinit, hspace⟩ := exists_endsInCode us
  refine ⟨init, space, rfl, hspace, ?_⟩
  rcases List.eq_nil_or_concat init with rfl | ⟨vs, t, rfl⟩
  · refine ⟨ts ++ returnOpen.dropLast.map .symbol, .symbol '[', ?_, rfl⟩
    rw [List.append_assoc]
    rfl
  · rw [List.concat_eq_append] at hinit ⊢
    exact ⟨ts ++ (returnOpen.map .symbol ++ vs), t, by simp only [List.append_assoc], endsInCode_snoc.1 hinit⟩

/-! ## The tokens of an edited file -/

section Insertion

variable {ts space rest after : List Token} {t : Token} {e : List Char}

/-- Tokens stay the tokens of their text when an entry is put behind the last code. -/
theorem lexed_insertion (h : Lexed (ts ++ t :: (space ++ .symbol ']' :: after)) []) (ht : t.isCode = true)
    (hrest : Lexed rest ('\n' :: (e ++ '\n' :: ']' :: text after))) (he : Sealed e) :
    Lexed (ts ++ t :: (insertion (commaAfter [t]) rest (tokens e) ++ .symbol ']' :: after)) [] := by
  obtain ⟨hts, hlead, hspace⟩ := lexed_append.1 h
  have hclose : Lexed (.symbol ']' :: after) [] := (lexed_append.1 hspace).2
  have hnl : ∀ r, Leads (.symbol '\n') r := leads_plain (by decide)
  have hcomma : ∀ r, Lexed (commaAfter [t]) r := by
    intro r
    unfold commaAfter
    split
    · trivial
    · exact ⟨leads_plain (by decide) r, trivial⟩
  have hentry : Lexed (tokens e ++ .symbol '\n' :: .symbol ']' :: after) [] :=
    lexed_append.2 ⟨he.lexed _, hnl _, hclose⟩
  have hlines : Lexed (rest ++ .symbol '\n' :: (tokens e ++ .symbol '\n' :: .symbol ']' :: after)) [] := by
    refine lexed_append.2 ⟨?_, hnl _, hentry⟩
    simpa [Token.chars] using hrest
  have hins : Lexed (insertion (commaAfter [t]) rest (tokens e) ++ .symbol ']' :: after) [] := by
    have := lexed_append.2 ⟨hcomma _, hlines⟩
    simpa [insertion] using this
  refine lexed_append.2 ⟨?_, ?_, hins⟩
  · -- what follows these tokens is another text now, but starts as it did
    obtain ⟨c, cs, hc⟩ := List.exists_cons_of_ne_nil hlead.chars_ne_nil
    refine hts.like ?_
    rw [text_cons, text_cons, hc]
    exact Or.inr rfl
  · by_cases hsep : [t].getLast? = some (.symbol '[') ∨ [t].getLast? = some (.symbol ',')
    · rcases hsep with hsep | hsep <;>
      · cases hsep
        exact leads_plain (by decide) _
    · obtain ⟨d, r, hd⟩ : ∃ d r, text (space ++ .symbol ']' :: after) ++ [] = d :: r :=
        List.exists_cons_of_ne_nil (by simp [Token.chars])
      rw [hd] at hlead
      rw [insertion, commaAfter, if_neg hsep]
      exact hlead.comma ht _

theorem insertion_eq (comma rest entry : List Token) : insertion comma rest entry =
    (comma ++ (rest ++ [.symbol '\n'])) ++ (entry ++ [.symbol '\n']) := by
  simp [insertion]

/-- What an insertion has in front of its entry. -/
theorem passes_front (us : List Token) (hrest : ∀ u ∈ rest, u.isCode = false) :
    Passes 0 (commaAfter us ++ (rest ++ [.symbol '\n'])) :=
  (passes_commaAfter us).append ((passes_space_comments hrest).append (passes_symbol rfl))

theorem nesting_insertion (us : List Token) (hrest : ∀ u ∈ rest, u.isCode = false) (name : String)
    (v : Term) : nesting 1 (insertion (commaAfter us) rest (tokens (entryChars name v))) = some 1 := by
  have hnl : Passes 0 [.symbol '\n'] := passes_symbol rfl
  rw [insertion_eq, nesting_append, (passes_front us hrest).level 1 (by omega), Option.bind_some,
    nesting_append, nesting_entry, Option.bind_some, hnl.level 1 (by omega)]

theorem inert_insertion (us : List Token) (hrest : ∀ u ∈ rest, u.isCode = false) (name : String)
    (v : Term) (vs : List Token) :
    Inert (insertion (commaAfter us) rest (tokens (entryChars name v)) ++ vs) := by
  unfold insertion commaAfter
  split
  · -- only white space and comments stand in front of the name
    have hindent : ∀ u ∈ tokens (Indent.config.chars 1), u.isCode = false := by
      rw [tokens_symbols (forall_of_all (by decide))]
      decide
    have hnl : ∀ u ∈ [Token.symbol '\n'], u.isCode = false := by decide
    rw [tokens_entryChars]
    simp only [List.nil_append, List.append_assoc, List.cons_append]
    refine inert_space_comments hrest (inert_space_comments hnl ?_)
    exact inert_space_comments hindent ⟨rfl, nofun⟩
  · refine ⟨?_, nofun⟩
    rw [List.cons_append, List.nil_append, List.cons_append, arrowFollows_symbol]
    rfl

theorem keysFrom_insertion (us : List Token) (hrest : ∀ u ∈ rest, u.isCode = false) (name : String)
    (v : Term) : keysFrom 1 (insertion (commaAfter us) rest (tokens (entryChars name v))) = [name] := by
  rw [insertion_eq, (passes_front us hrest).keys 1 (by omega), keysFrom_entry]
  rfl

end Insertion

/-! ## Adding a section -/

/-- What adding a section does to a file that returns an array: an entry is put behind the
    last code of the array, and the file returns an array as before. -/
theorem Returns.addSection (hf : Returns f head inside tail) {name : String} (hn : name ∉ f.sections)
    {v : Value} (hv : v.Finite) :
    ∃ g init space rest, f.addSection name v = .ok g ∧ inside = init ++ space ∧
      (∀ t ∈ space, t.isCode = false) ∧ (∀ t ∈ rest, t.isCode = false) ∧
      solid rest = trimLast (solid space) ∧
      (∃ ts t, head ++ (returnOpen.map Token.symbol ++ init) = ts ++ [t] ∧ t.isCode = true ∧
        g.Returns head (init ++ insertion (commaAfter [t]) rest (tokens (entryChars name v.term))) tail) := by
  obtain ⟨init, space, rfl, hspace, ts, t, hlast, ht⟩ := exists_lastCode head inside
  have hcut := append_of_snoc hlast
  have hall : Lexed (ts ++ t :: (space ++ .symbol ']' :: tail)) [] := by
    rw [← hcut, ← List.append_assoc init]
    exact hf.lexed
  obtain ⟨-, hlead, hbehind⟩ := lexed_append.1 hall
  have hspacelex : Lexed space (']' :: text tail) := by
    have := (lexed_append.1 hbehind).1
    rwa [List.append_nil] at this
  have hsep : separator (text (ts ++ [t])) = text (commaAfter [t]) := by
    obtain ⟨d, r, hd⟩ : ∃ d r, text (space ++ .symbol ']' :: tail) ++ [] = d :: r :=
      List.exists_cons_of_ne_nil (by simp [Token.chars])
    rw [hd] at hlead
    rw [text_append, text_cons, text_nil, List.append_nil]
    exact hlead.separator ht (text ts)
  obtain ⟨rest, htext, hlex, hrest, hsolid⟩ := exists_trimmed hspace hspacelex
    (entryChars name v.term ++ '\n' :: ']' :: text tail)
  obtain ⟨g, hg, hsrc⟩ := addSection_eq hf.last (hf.tokens_before.trans (hcut space)) ht hspace hn hv
  -- the tokens of the new text
  have hlexed := lexed_insertion hall ht hlex (sealed_entryChars name v.term)
  have hnew : g.source.toList = text (ts ++ t :: (insertion (commaAfter [t]) rest
      (tokens (entryChars name v.term)) ++ .symbol ']' :: tail)) := by
    rw [hsrc, hsep, ← htext]
    simp [insertion, Token.chars]
  refine ⟨g, init, space, rest, hg, rfl, hspace, hrest, hsolid, ts, t, hlast, ht, ?_⟩
  have hnewtok := (congrArg tokens hnew).trans (tokens_text hlexed)
  rw [← hcut, ← List.append_assoc init] at hnewtok
  refine hf.of_tokens hnewtok ?_
  rw [nesting_append, hf.nesting_init hspace, Option.bind_some]
  exact nesting_insertion [t] hrest name v.term

/-! ## What an edit keeps -/

/-- Tokens are those of `before` and `after` with an entry between them: behind the last
    code of `before` come a comma, if that is needed, the comments that stood there, the
    last of them without the white space at its end, and the entry. -/
structure Spliced (before entry after new : List Token) : Prop where
  code_eq : code new = code before ++ (commaAfter (code before) ++ (code entry ++ code after))
  solid_eq : ∃ kept comments, solid before = kept ++ comments ∧
    (∃ ts t, kept = ts ++ [t] ∧ t.isCode = true) ∧ (∀ t ∈ comments, ∃ x, t = .comment x) ∧
    solid new = kept ++ (commaAfter (code before) ++ (trimLast comments ++ (code entry ++ solid after)))

/-- White space in an entry does not count. -/
theorem Spliced.of_code {before entry entry' after new : List Token} (h : Spliced before entry after new)
    (he : code entry = code entry') : Spliced before entry' after new := by
  obtain ⟨hcode, hsolid⟩ := h
  rw [he] at hcode hsolid
  exact ⟨hcode, hsolid⟩

/-- White space and comments without the white space are comments. -/
theorem comment_of_mem_solid {ts : List Token} (h : ∀ t ∈ ts, t.isCode = false) {t : Token}
    (ht : t ∈ solid ts) : ∃ x, t = .comment x := by
  obtain ⟨hmem, hsp⟩ := List.mem_filter.1 ht
  have hcode := h t hmem
  cases t with
  | comment x => exact ⟨x, rfl⟩
  | quoted q x b => cases hcode
  | symbol c =>
    simp only [Token.isSpace, Token.isCode] at hsp hcode
    rw [hsp] at hcode
    cases hcode

theorem code_insertion (t : Token) {rest : List Token} (hrest : ∀ u ∈ rest, u.isCode = false)
    (entry : List Token) :
    code (insertion (commaAfter [t]) rest entry) = commaAfter [t] ++ code entry := by
  have hcomma : code (commaAfter [t]) = commaAfter [t] := by
    unfold commaAfter
    split <;> rfl
  rw [insertion, code_append, hcomma, code_append, code_eq_nil hrest, List.nil_append]
  show _ ++ code (entry ++ [.symbol '\n']) = _
  rw [code_append]
  exact congrArg _ (List.append_nil _)

theorem solid_insertion (t : Token) (rest entry : List Token) :
    solid (insertion (commaAfter [t]) rest entry) = commaAfter [t] ++ (solid rest ++ solid entry) := by
  have hcomma : solid (commaAfter [t]) = commaAfter [t] := by
    unfold commaAfter
    split <;> rfl
  rw [insertion, solid_append, hcomma, solid_append]
  show _ ++ (_ ++ solid (entry ++ [.symbol '\n'])) = _
  rw [solid_append]
  exact congrArg _ (congrArg _ (List.append_nil _))

theorem spliced_insertion (ts : List Token) {space rest entry : List Token} {t : Token}
    (ht : t.isCode = true) (hspace : ∀ u ∈ space, u.isCode = false) (hrest : ∀ u ∈ rest, u.isCode = false)
    (hsolid : solid rest = trimLast (solid space)) (hentry : ∀ x, .comment x ∉ entry)
    (after : List Token) : Spliced (ts ++ t :: space) entry after
      (ts ++ t :: (insertion (commaAfter [t]) rest entry ++ after)) := by
  have hcode : ∀ us, code (ts ++ t :: us) = code ts ++ [t] ++ code us := by
    intro us
    have hone : code [t] = [t] := by simp [code, ht]
    rw [code_append, ← List.singleton_append, code_append, hone, List.append_assoc]
  have hsol : ∀ us, solid (ts ++ t :: us) = solid ts ++ [t] ++ solid us := by
    intro us
    rw [solid_append, ← List.singleton_append, solid_append, solid_code ht, List.append_assoc]
  have hbefore : code (ts ++ t :: space) = code ts ++ [t] := by
    rw [hcode, code_eq_nil hspace, List.append_nil]
  have hcomma : commaAfter (code (ts ++ t :: space)) = commaAfter [t] := by
    rw [hbefore, commaAfter_snoc]
  refine ⟨?_, solid ts ++ [t], solid space, hsol space, ⟨solid ts, t, rfl, ht⟩,
    fun u hu => comment_of_mem_solid hspace hu, ?_⟩
  · rw [hcomma, hbefore, hcode, code_append, code_insertion t hrest]
    simp only [List.append_assoc]
  · rw [hcomma, hsol, solid_append, solid_insertion, hsolid, solid_eq_code hentry]
    simp only [List.append_assoc]

/-- The tokens of a section's line, from its name on. -/
theorem tokens_line {v : Value} {s : String} (hs : Literal.spell (.config 1) v = .ok s) (name : String) :
    tokens (entryChars name v.term) = tokens (Indent.config.chars 1) ++
      tokens (Literal.quote name ++ " => " ++ s ++ ",").toList := by
  have hv := Literal.spell_of_finite (Literal.finite_of_spell hs) (.config 1)
  rw [hs] at hv
  cases hv
  rw [entryChars, sealed_indent.tokens_append]
  simp

/-- White space and comments at the end of the array hold no key, and an insertion holds
    that of its entry. -/
theorem Returns.sections_insertion {g : ConfigFile} {init space us rest : List Token} {name : String}
    {v : Term} (hf : Returns f head (init ++ space) tail) (hspace : ∀ t ∈ space, t.isCode = false)
    (hrest : ∀ t ∈ rest, t.isCode = false)
    (hg : Returns g head (init ++ insertion (commaAfter us) rest (tokens (entryChars name v))) tail) :
    g.sections = f.sections ++ [name] := by
  have hinit := hf.nesting_init hspace
  have hnone : keysFrom 1 space = [] := by
    have := (passes_space_comments hspace).keys 1 (by omega) []
    rwa [List.append_nil] at this
  have hinert : Inert space := by
    have hnil : Inert [] := ⟨rfl, nofun⟩
    have := inert_space_comments hspace hnil
    rwa [List.append_nil] at this
  have hins := inert_insertion us hrest name v []
  rw [List.append_nil] at hins
  rw [hg.sections, hf.sections, keysFrom_append hins hinit, keysFrom_append hinert hinit, hnone,
    List.append_nil, keysFrom_insertion us hrest]

/-- A file that returns an array takes every new section whose value can be spelled. Its
    code and its comments stay where they are, the comma and the entry apart, and its
    sections are the old ones and the new one. -/
theorem addSection_spliced (hf : Returns f head inside tail) {name : String} (hn : name ∉ f.sections)
    {v : Value} {s : String} (hs : Literal.spell (.config 1) v = .ok s) :
    ∃ g, f.addSection name v = .ok g ∧
      Spliced (head ++ (returnOpen.map .symbol ++ inside))
        (tokens (Literal.quote name ++ " => " ++ s ++ ",").toList) (.symbol ']' :: tail)
        (tokens g.source.toList) ∧
      g.sections = f.sections ++ [name] := by
  obtain ⟨g, init, space, rest, hg, rfl, hspace, hrest, hsolid, ts, t, hlast, ht, hret⟩ :=
    hf.addSection hn (Literal.finite_of_spell hs)
  refine ⟨g, hg, ?_, ?_⟩
  · have hcut := append_of_snoc hlast
    have hentry := (sealed_entryChars name v.term).visible
    have hspliced := spliced_insertion ts ht hspace hrest hsolid hentry (.symbol ']' :: tail)
    rw [← hcut, ← hcut, ← List.append_assoc init, ← hret.tokens_eq] at hspliced
    refine hspliced.of_code ?_
    rw [tokens_line hs, code_append, tokens_symbols (forall_of_all (by decide))]
    rfl
  · exact hf.sections_insertion hspace hrest hret

/-- A comma goes in front of the comment behind the last entry. -/
theorem addSection_spliced_comment :
    Returns ⟨"return ['a' => 1 // old \n];"⟩ []
        ([.quoted '\'' ['a'] true] ++ [' ', '=', '>', ' ', '1', ' '].map .symbol ++
          [.comment ['/', '/', ' ', 'o', 'l', 'd', ' '], .symbol '\n']) [.symbol ';'] ∧
      Literal.spell (.config 1) (.bool true) = .ok "true" ∧
      ∃ g, addSection ⟨"return ['a' => 1 // old \n];"⟩ "b" (.bool true) = .ok g ∧
        g.sections = ["a", "b"] := by
  have hf : Returns ⟨"return ['a' => 1 // old \n];"⟩ []
      ([.quoted '\'' ['a'] true] ++ [' ', '=', '>', ' ', '1', ' '].map .symbol ++
        [.comment ['/', '/', ' ', 'o', 'l', 'd', ' '], .symbol '\n']) [.symbol ';'] := by
    refine ⟨?_, by rfl, by rfl, by rfl⟩
    show tokens (returnOpen ++ (Literal.quoteChars ['a'] ++ ([' ', '=', '>', ' ', '1', ' '] ++
      '/' :: ['/', ' ', 'o', 'l', 'd', ' ', '\n', ']', ';']))) = _
    have hopen : Sealed returnOpen := sealed_plain (forall_of_all (by decide))
    have harrow : Sealed [' ', '=', '>', ' ', '1', ' '] := sealed_plain (forall_of_all (by decide))
    rw [hopen.tokens_append, (sealed_quoteChars _).tokens_append, harrow.tokens_append, tokens_quoteChars_nil,
      tokens_symbols (s := returnOpen) (forall_of_all (by decide)),
      tokens_symbols (s := [' ', '=', '>', ' ', '1', ' ']) (forall_of_all (by decide)), tokens]
    show _ ++ (_ ++ (_ ++ .comment _ :: tokens ['\n', ']', ';'])) = _
    rw [tokens_symbols (forall_of_all (by decide))]
    rfl
  have hsec : sections ⟨"return ['a' => 1 // old \n];"⟩ = ["a"] := by
    rw [hf.sections]
    rfl
  have hs : Literal.spell (.config 1) (.bool true) = .ok "true" := rfl
  have hn : "b" ∉ sections ⟨"return ['a' => 1 // old \n];"⟩ := by
    rw [hsec]
    decide
  obtain ⟨g, hg, -, hnew⟩ := addSection_spliced hf hn hs
  rw [hsec] at hnew
  exact ⟨hf, hs, g, hg, hnew⟩

end PhpScribe.ConfigFile
