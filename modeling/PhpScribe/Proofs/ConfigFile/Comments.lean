/-
  PhpScribe.Proofs.ConfigFile.Comments — a comment put into a config file.

  A comment is put, with a blank on either side, behind a white space character that
  stands outside comments and literals (`Commented`). The scan for sections reads a text
  behind its first `return [`, so two things decide what comes of it (`Clear`):
  - in front of that `return [`, the comment must not hold one of its own, and must not
    stand between its word and its bracket: the array is found by its text alone
    (`sections_commented_fails`);
  - behind it, the place must be outside comments and literals for the scan as well,
    which starts there, and no key of the array may be waiting for its arrow.
  Then the sections are the same, and so are the names that are refused
  (`sections_commented`).
-/

import PhpScribe.Proofs.ConfigFile.Answers
import PhpScribe.Proofs.ConfigFile.Grammar

namespace PhpScribe.ConfigFile

/-! ## The start of the array -/

theorem returnOpen_blank {n : Nat} {c : Char} (h : returnOpen[n]? = some c) (hc : Text.isBlank c = true) :
    n = 6 := by
  have hn : n < 8 := by
    by_contra hn
    rw [List.getElem?_eq_none (by simpa [returnOpen] using hn)] at h
    cases h
  have hall : ∀ n < 8, returnOpen[n]?.any Text.isBlank = true → n = 6 := by decide
  exact hall n hn (by rw [h]; exact hc)

def CutsOpening (before : List Char) (w : Char) (after : List Char) : Prop :=
  returnOpen.take 6 <:+ before ∧ w = ' ' ∧ after.head? = some '['

/-- White space parts two searches, unless it is the blank of the pattern. -/
theorem afterFirst_blank {p q : List Char} {c : Char} (hc : Text.isBlank c = true) (hp : ¬returnOpen <:+: p)
    (hcut : ¬CutsOpening p c q) :
    Text.afterFirst returnOpen (p ++ c :: q) = Text.afterFirst returnOpen q := by
  have happ : p ++ c :: q = (p ++ [c]) ++ q := by simp
  rw [happ]
  refine Text.afterFirst_skip fun u v huv hv hpre => ?_
  obtain ⟨x, d, rfl⟩ := (List.eq_nil_or_concat v).resolve_left hv
  rw [List.concat_eq_append] at huv hpre
  rw [← List.append_assoc] at huv
  obtain ⟨rfl, hd⟩ := List.append_inj' huv rfl
  cases hd
  rw [List.append_assoc, List.singleton_append] at hpre
  by_cases hlen : returnOpen.length ≤ x.length
  · have hin : returnOpen <+: x := List.prefix_of_prefix_length_le hpre (List.prefix_append x _) hlen
    exact hp (hin.isInfix.trans (List.suffix_append u x).isInfix)
  · obtain ⟨t, ht⟩ := hpre
    have hat : returnOpen[x.length]? = some c := by
      have := congrArg (·[x.length]?) ht
      simp only [List.getElem?_append_right (Nat.le_refl _), Nat.sub_self, List.getElem?_cons_zero] at this
      rwa [List.getElem?_append_left (by omega)] at this
    have hsix := returnOpen_blank hat hc
    have hsplit : returnOpen.take 6 ++ ' ' :: '[' :: t = x ++ c :: q := ht
    obtain ⟨rfl, hrest⟩ := List.append_inj hsplit hsix.symm
    cases hrest
    exact hcut ⟨List.suffix_append u _, rfl, rfl⟩

/-! ## A scan behind which something else follows -/

/-- The tokens end with a literal that is a key if an arrow comes next. -/
def AwaitsArrow (d : Nat) (ts : List Token) : Prop := ∃ init q body closed space,
  ts = init ++ .quoted q body closed :: space ∧ (∀ t ∈ space, t.isSpace = true) ∧ nesting d init = some 1

/-- An arrow is looked for behind white space alone. -/
theorem arrowFollows_congr {p p' : List Token} (hhead : p.head? = p'.head?) {ts : List Token}
    (h : arrowFollows p = arrowFollows p' ∨ ∃ t ∈ ts, t.isSpace = false) :
    arrowFollows (ts ++ p) = arrowFollows (ts ++ p') := by
  induction ts with
  | nil =>
    rcases h with h | ⟨t, ht, -⟩
    · exact h
    · exact nomatch ht
  | cons t ts ih =>
    cases t with
    | comment x => rfl
    | quoted q x b => rfl
    | symbol c =>
      have hheads : (ts ++ p).head? = (ts ++ p').head? := by
        cases ts with
        | nil => exact hhead
        | cons t ts => rfl
      rw [List.cons_append, List.cons_append, arrowFollows_symbol, arrowFollows_symbol, hheads]
      cases hc : Text.isBlank c with
      | false => rfl
      | true =>
        rw [ih]
        rcases h with h | ⟨t, ht, hs⟩
        · exact Or.inl h
        · rcases List.mem_cons.1 ht with rfl | ht
          · rw [Token.isSpace, hc] at hs
            cases hs
          · exact Or.inr ⟨t, ht, hs⟩

theorem AwaitsArrow.cons {d e : Nat} {t : Token} {ts : List Token}
    (h : ∀ us, nesting d (t :: us) = nesting e us) (ha : AwaitsArrow e ts) : AwaitsArrow d (t :: ts) := by
  obtain ⟨init, q, body, closed, space, rfl, hspace, hinit⟩ := ha
  exact ⟨t :: init, q, body, closed, space, rfl, hspace, (h init).trans hinit⟩

/-- What follows a scan may be replaced by what holds the same keys at every depth, if it
    starts alike and no key waits for the arrow in it. -/
theorem keysFrom_congr {p p' : List Token} (hhead : p.head? = p'.head?)
    (hkeys : ∀ d, keysFrom d p = keysFrom d p') {d : Nat} {ts : List Token}
    (h : arrowFollows p = arrowFollows p' ∨ ¬AwaitsArrow d ts) :
    keysFrom d (ts ++ p) = keysFrom d (ts ++ p') := by
  -- the induction is on the tokens in front; a key at their end is where the arrow matters
  have hdown : ∀ {d e : Nat} {t : Token} {ts : List Token}, (∀ us, nesting d (t :: us) = nesting e us) →
      arrowFollows p = arrowFollows p' ∨ ¬AwaitsArrow d (t :: ts) →
      arrowFollows p = arrowFollows p' ∨ ¬AwaitsArrow e ts :=
    fun hn h => h.imp_right fun hno ha => hno (ha.cons hn)
  induction ts generalizing d with
  | nil => exact hkeys d
  | cons t ts ih =>
    rw [List.cons_append, List.cons_append]
    cases t with
    | comment x =>
      rw [keysFrom, keysFrom]
      exact ih (hdown (fun _ => rfl) h)
    | quoted q body closed =>
      have hrest := ih (hdown (d := d) (e := d) (fun _ => rfl) h)
      rw [keysFrom, keysFrom, hrest]
      by_cases hd : d = 1
      · have harrow : arrowFollows (ts ++ p) = arrowFollows (ts ++ p') := by
          refine arrowFollows_congr hhead (h.imp_right fun hno => ?_)
          by_contra hall
          refine hno ⟨[], q, body, closed, ts, rfl, fun t ht => ?_, by rw [hd]; rfl⟩
          by_contra hs
          exact hall ⟨t, ht, by simpa using hs⟩
        rw [harrow]
      · rw [if_neg fun hk => hd hk.1, if_neg fun hk => hd hk.1]
    | symbol c =>
      rw [keysFrom, keysFrom]
      by_cases ho : c = '[' ∨ c = '('
      · rw [if_pos ho, if_pos ho]
        exact ih (hdown (fun _ => by rw [nesting, if_pos ho]) h)
      · rw [if_neg ho, if_neg ho]
        by_cases hc : c = ']' ∨ c = ')'
        · rw [if_pos hc, if_pos hc]
          by_cases hd : d ≤ 1
          · rw [if_pos hd, if_pos hd]
          · rw [if_neg hd, if_neg hd]
            exact ih (hdown (fun _ => by rw [nesting, if_neg ho, if_pos hc, if_neg hd]) h)
        · rw [if_neg hc, if_neg hc]
          exact ih (hdown (fun _ => by rw [nesting, if_neg ho, if_neg hc]) h)

/-! ## A comment put in -/

/-- The second file is the first with a comment, and a blank on either side of it, put
    behind a white space character that is a token of the first. -/
structure Commented (f g : ConfigFile) (ts us : List Token) (w : Char) (k : Comment) : Prop where
  tokens_eq : tokens f.source.toList = ts ++ .symbol w :: us
  blank : Text.isBlank w = true
  source_eq : g.source.toList = text ts ++ w :: ' ' :: (k.chars ++ ' ' :: text us)

/-- The comment leaves the array where it is found, and the place is one outside comments
    and literals for the scan of that array too, with no key waiting for its arrow. -/
def Clear (ts us : List Token) (w : Char) (k : Comment) : Prop :=
  match Text.afterFirst returnOpen (text ts) with
  | none => ¬CutsOpening (text ts) w (text us) ∧ ¬returnOpen <:+: k.chars
  | some r => tokens (r ++ w :: text us) = tokens r ++ .symbol w :: us ∧
      ¬(AwaitsArrow 1 (tokens r) ∧ arrowFollows us = true)

def insertedTokens (k : Comment) : List Token := .symbol ' ' :: (k.tokens ++ [.symbol ' '])

theorem isCode_insertedTokens (k : Comment) : ∀ t ∈ insertedTokens k, t.isCode = false := by
  intro t ht
  rcases List.mem_cons.1 ht with rfl | ht
  · rfl
  · rcases List.mem_append.1 ht with ht | ht
    · exact k.isCode_tokens t ht
    · rw [List.mem_singleton.1 ht]
      rfl

theorem tokens_inserted (k : Comment) (r : List Char) :
    tokens (' ' :: (k.chars ++ ' ' :: r)) = insertedTokens k ++ tokens r := by
  rw [tokens_plain (by decide), k.tokens_append, tokens_plain (by decide)]
  simp [insertedTokens]

variable {f g : ConfigFile} {ts us : List Token} {w : Char} {k : Comment}

theorem Commented.source_eq_text (h : Commented f g ts us w k) : f.source.toList = text ts ++ w :: text us := by
  have := congrArg text h.tokens_eq
  rwa [text_tokens, text_append] at this

theorem Commented.tokens_behind (h : Commented f g ts us w k) : tokens (text us) = us := by
  have hlex := lexed_tokens f.source.toList
  rw [h.tokens_eq] at hlex
  exact tokens_text (lexed_append.1 hlex).2.2

/-- Behind the place, a scan finds what it found. -/
theorem keysFrom_inserted (hw : Text.isBlank w = true) (d : Nat) :
    keysFrom d (.symbol w :: us) = keysFrom d (.symbol w :: (insertedTokens k ++ us)) := by
  have hblank : Passes 0 [.symbol w] := passes_symbol (isBracket_of_isBlank hw)
  have hpass := hblank.append (passes_space_comments (isCode_insertedTokens k))
  exact (hblank.keys d (Nat.zero_le d) us).trans (hpass.keys d (Nat.zero_le d) us).symm

/-- The comment keeps an arrow from being seen. -/
theorem arrowFollows_inserted (hw : Text.isBlank w = true) :
    arrowFollows (.symbol w :: (insertedTokens k ++ us)) = false := by
  have hne : w ≠ '=' := by
    rintro rfl
    exact absurd hw (by decide)
  have hcomment : arrowFollows (k.tokens ++ [.symbol ' '] ++ us) = false := by cases k <;> rfl
  rw [arrowFollows_symbol, insertedTokens, List.cons_append, arrowFollows_symbol, hcomment]
  simp [hne]

theorem Comment.chars_snoc (k : Comment) : ∃ s c, k.chars = s ++ [c] ∧ (c = '/' ∨ c = '\n') := by
  cases k with
  | block body ends => exact ⟨'/' :: '*' :: (body ++ ['*']), '/', by simp [chars], Or.inl rfl⟩
  | line hash body ends => exact ⟨mark hash ++ body, '\n', by simp [chars], Or.inr rfl⟩

/-- In front of the array, the place of the comment does not matter. -/
theorem Commented.afterFirst_of_front (h : Commented f g ts us w k)
    (hfront : Text.afterFirst returnOpen (text ts) = none) (hcut : ¬CutsOpening (text ts) w (text us))
    (hk : ¬returnOpen <:+: k.chars) :
    Text.afterFirst returnOpen g.source.toList = Text.afterFirst returnOpen f.source.toList := by
  have hts := Text.afterFirst_eq_none.1 hfront
  have hhead : ∃ c s, k.chars ++ ' ' :: text us = c :: s ∧ c ≠ '[' := by
    obtain ⟨c, s, hc, hor⟩ := k.chars_cons
    refine ⟨c, s ++ ' ' :: text us, by rw [hc]; rfl, ?_⟩
    rcases hor with rfl | rfl <;> decide
  have hlast : ¬CutsOpening k.chars ' ' (text us) := by
    rintro ⟨⟨u, hu⟩, -, -⟩
    obtain ⟨s, c, hc, hor⟩ := k.chars_snoc
    have hn : (u ++ returnOpen.take 5) ++ ['n'] = s ++ [c] := by
      rw [List.append_assoc, ← hc]
      exact hu
    obtain ⟨-, hn⟩ := List.append_inj' hn rfl
    cases hn
    rcases hor with hor | hor <;> exact absurd hor (by decide)
  obtain ⟨c, s, hs, hc⟩ := hhead
  have hnil : ¬returnOpen <:+: [] := by decide
  have h1 : Text.afterFirst returnOpen (text ts ++ w :: ' ' :: (k.chars ++ ' ' :: text us)) =
      Text.afterFirst returnOpen (' ' :: (k.chars ++ ' ' :: text us)) :=
    afterFirst_blank h.blank hts fun hc => absurd hc.2.2 (by simp)
  have h2 : Text.afterFirst returnOpen ([] ++ ' ' :: (k.chars ++ ' ' :: text us)) =
      Text.afterFirst returnOpen (k.chars ++ ' ' :: text us) :=
    afterFirst_blank rfl hnil fun hcut => hc (by
      have := hcut.2.2
      rw [hs] at this
      exact Option.some.inj this)
  rw [h.source_eq, h.source_eq_text, h1, afterFirst_blank h.blank hts hcut]
  exact h2.trans (afterFirst_blank rfl hk hlast)

theorem Commented.sections_eq (h : Commented f g ts us w k) (hclear : Clear ts us w k) :
    g.sections = f.sections := by
  unfold Clear at hclear
  cases hfront : Text.afterFirst returnOpen (text ts) with
  | none =>
    rw [hfront] at hclear
    rw [sections, sections, h.afterFirst_of_front hfront hclear.1 hclear.2]
  | some r =>
    rw [hfront] at hclear
    obtain ⟨htok, hkey⟩ := hclear
    have hf := Text.afterFirst_append hfront (w :: text us)
    have hg := Text.afterFirst_append hfront (w :: ' ' :: (k.chars ++ ' ' :: text us))
    -- the tokens between the array's bracket and the place are the same in both files
    have hlex := lexed_tokens (r ++ w :: text us)
    rw [htok] at hlex
    have hfrontlex : Lexed (tokens r) (w :: ' ' :: (k.chars ++ ' ' :: text us)) :=
      (lexed_append.1 hlex).1.like (Or.inr rfl)
    have htok' := hfrontlex.tokens
    rw [text_tokens, tokens_plain (plain_of_isBlank h.blank), tokens_inserted, h.tokens_behind] at htok'
    rw [sections, sections, h.source_eq_text, h.source_eq, hf, hg]
    show keysFrom 1 (tokens _) = keysFrom 1 (tokens _)
    rw [htok, htok']
    have hhead : (Token.symbol w :: us).head? = (Token.symbol w :: (insertedTokens k ++ us)).head? := rfl
    refine (keysFrom_congr hhead (keysFrom_inserted h.blank) ?_).symm
    by_cases harrow : arrowFollows us = true
    · exact Or.inr fun ha => hkey ⟨ha, harrow⟩
    · refine Or.inl ?_
      have hne : w ≠ '=' := by
        rintro rfl
        exact absurd h.blank (by decide)
      rw [arrowFollows_inserted h.blank, arrowFollows_symbol]
      simp [hne, harrow]

/-- Behind a white space character a comment changes no section, and so no answer that
    hangs on the sections. -/
theorem sections_commented (h : Commented f g ts us w k) (hclear : Clear ts us w k) :
    g.sections = f.sections ∧ (∀ name, g.hasSection name = f.hasSection name) ∧
      ∀ name v, g.addSection name v = .error (.duplicate name) ↔
        f.addSection name v = .error (.duplicate name) := by
  have hsec := h.sections_eq hclear
  refine ⟨hsec, fun name => ?_, fun name v => ?_⟩
  · rw [hasSection, hasSection, hsec]
  · rw [addSection_duplicate_iff, addSection_duplicate_iff, hsec]

/-- Where the `return [` is a piece of the file's own tokens, a place behind it is clear
    but for a key that waits for its arrow. -/
theorem clear_of_tokens {head inside : List Token} {s : List Char}
    (hs : tokens s = head ++ (returnOpen.map .symbol ++ (inside ++ .symbol w :: us)))
    (hfirst : Text.afterFirst returnOpen (text (head ++ (returnOpen.map .symbol ++ inside))) = some (text inside))
    (hkey : ¬(AwaitsArrow 1 inside ∧ arrowFollows us = true)) :
    Clear (head ++ (returnOpen.map .symbol ++ inside)) us w k := by
  have hlex := lexed_tokens s
  rw [hs] at hlex
  have hbehind := (lexed_append.1 (lexed_append.1 hlex).2).2
  have hinside : tokens (text inside) = inside := tokens_text (lexed_append.1 hbehind).1
  have hall : tokens (text inside ++ w :: text us) = inside ++ .symbol w :: us := by
    have := tokens_text hbehind
    rwa [text_append] at this
  unfold Clear
  rw [hfirst]
  show tokens (text inside ++ w :: text us) = tokens (text inside) ++ _ ∧
    ¬(AwaitsArrow 1 (tokens (text inside)) ∧ _)
  rw [hall, hinside]
  exact ⟨rfl, hkey⟩

/-- A comment in a nested array that looks like an entry. -/
theorem sections_commented_nested :
    let ts := tokens "<?php ".toList ++ (returnOpen.map .symbol ++ tokens "'a' => [1,".toList)
    let us := tokens "2]];".toList
    let k := Comment.line false " 'b' => [".toList (by decide)
    Commented ⟨"<?php return ['a' => [1, 2]];"⟩ ⟨"<?php return ['a' => [1,  // 'b' => [\n 2]];"⟩ ts us ' ' k ∧
      Clear ts us ' ' k ∧ sections ⟨"<?php return ['a' => [1,  // 'b' => [\n 2]];"⟩ = ["a"] := by
  intro ts us k
  have hput : Commented ⟨"<?php return ['a' => [1, 2]];"⟩ ⟨"<?php return ['a' => [1,  // 'b' => [\n 2]];"⟩
      ts us ' ' k := ⟨by decide +kernel, rfl, by decide +kernel⟩
  have hclear : Clear ts us ' ' k := by
    apply clear_of_tokens (s := "<?php return ['a' => [1, 2]];".toList)
    · decide +kernel
    · decide +kernel
    · exact fun h => absurd h.2 (by decide +kernel)
  have hold : sections ⟨"<?php return ['a' => [1, 2]];"⟩ = ["a"] := by decide +kernel
  exact ⟨hput, hclear, (sections_commented hput hclear).1.trans hold⟩

/-- The array is found by its text: a comment cuts its `return [`, or brings one of its
    own, and a `return [` in a comment has the scan start in the middle of it. -/
theorem sections_commented_fails :
    let cut := tokens "['a' => 1];".toList
    let behind := tokens "return ['a' => 1];".toList
    let inside := tokens "' => 1];".toList
    let c := Comment.block [' ', 'c', ' '] (Text.afterFirst_eq_none.1 rfl)
    let opening := Comment.block " return [ ".toList (Text.afterFirst_eq_none.1 rfl)
    (Commented ⟨"return ['a' => 1];"⟩ ⟨"return  /* c */ ['a' => 1];"⟩ (tokens "return".toList) cut ' ' c ∧
      sections ⟨"return ['a' => 1];"⟩ = ["a"] ∧ sections ⟨"return  /* c */ ['a' => 1];"⟩ = []) ∧
    (Commented ⟨" return ['a' => 1];"⟩ ⟨"  /* return [ */ return ['a' => 1];"⟩ [] behind ' ' opening ∧
      sections ⟨" return ['a' => 1];"⟩ = ["a"] ∧ sections ⟨"  /* return [ */ return ['a' => 1];"⟩ = []) ∧
    (Commented ⟨"# return ['\n' => 1];"⟩ ⟨"# return ['\n /* c */ ' => 1];"⟩
        (tokens "# return ['".toList) inside '\n' c ∧
      sections ⟨"# return ['\n' => 1];"⟩ = ["\n"] ∧
      sections ⟨"# return ['\n /* c */ ' => 1];"⟩ = ["\n /* c */ "]) := by
  intro cut behind inside c opening
  refine ⟨⟨⟨?_, rfl, ?_⟩, ?_, ?_⟩, ⟨⟨?_, rfl, ?_⟩, ?_, ?_⟩, ⟨?_, rfl, ?_⟩, ?_, ?_⟩ <;> decide +kernel

end PhpScribe.ConfigFile
