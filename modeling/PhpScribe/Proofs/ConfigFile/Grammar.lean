/-
  PhpScribe.Proofs.ConfigFile.Grammar — arrays written by hand, and the sections in them.

  An array is given as a tree: items with or without a key, white space and comments
  around them (`Filler`), and values that are a row of literals, brackets with such rows
  in them to any depth, and other characters (`Piece`). Comments, literals and characters
  carry what makes them end where they end; a slash is no part of a comment, and a
  literal in a value stands in front of no arrow (`Item`).

  The text of such an array is scanned from its front. White space and comments hold no
  key (`keysFrom_gap`), nor does what is two brackets deep (`keysFrom_pieces`), nor the
  array's own values (`keysFrom_value`); a label adds its name (`keysFrom_label`). So the
  sections of a file are the keys of the array in their order, whatever stands in front
  of its first `return [` and behind its closing bracket (`sections_written`).
-/

import PhpScribe.Proofs.ConfigFile.Cut

namespace PhpScribe.ConfigFile

/-! ## Comments -/

/-- A comment with its ends; that of a line comment is the newline. -/
inductive Comment where
  | block (body : List Char) (ends : ¬['*', '/'] <:+: body)
  | line (hash : Bool) (body : List Char) (ends : '\n' ∉ body)

namespace Comment

def mark (hash : Bool) : List Char := if hash then ['#'] else ['/', '/']

def chars : Comment → List Char
  | .block body _ => '/' :: '*' :: (body ++ ['*', '/'])
  | .line hash body _ => mark hash ++ (body ++ ['\n'])

/-- The newline behind a line comment is a token of its own. -/
def tokens : Comment → List Token
  | .block body _ => [.comment ('/' :: '*' :: (body ++ ['*', '/']))]
  | .line hash body _ => [.comment (mark hash ++ body), .symbol '\n']

end Comment

theorem blockComment_body {body : List Char} (h : ¬['*', '/'] <:+: body) (r : List Char) :
    blockComment (body ++ '*' :: '/' :: r) = (body ++ ['*', '/'], r) := by
  induction body with
  | nil => rfl
  | cons c body ih =>
    have hbody : ¬['*', '/'] <:+: body := fun hi => h (List.infix_cons hi)
    rw [List.cons_append, blockComment]
    · rw [ih hbody]
      rfl
    · intro u hc hu
      cases body with
      | nil => exact absurd (List.cons.inj hu).1 (by decide)
      | cons d body =>
        rw [hc, (List.cons.inj hu).1] at h
        exact h (List.prefix_append ['*', '/'] body).isInfix

/-- What a comment token starts with, and what ends it. -/
theorem tokens_blockComment (s : List Char) : tokens ('/' :: '*' :: s) =
    .comment ('/' :: '*' :: (blockComment s).1) :: tokens (blockComment s).2 := by
  rw [tokens]
  rfl

theorem tokens_lineComment (hash : Bool) (s : List Char) : tokens (Comment.mark hash ++ s) =
    .comment (Comment.mark hash ++ (lineComment s).1) :: tokens (lineComment s).2 := by
  cases hash with
  | true =>
    show tokens ('#' :: s) = _
    rw [tokens]
    rfl
  | false =>
    show tokens ('/' :: '/' :: s) = _
    rw [tokens]
    rfl

theorem Comment.tokens_append (k : Comment) (r : List Char) :
    ConfigFile.tokens (k.chars ++ r) = k.tokens ++ ConfigFile.tokens r := by
  cases k with
  | block body ends =>
    simp only [chars, List.cons_append, List.append_assoc, List.nil_append]
    rw [tokens_blockComment, blockComment_body ends]
    rfl
  | line hash body ends =>
    simp only [chars, List.append_assoc, List.cons_append, List.nil_append]
    rw [ConfigFile.tokens_lineComment, lineComment_newline ends, tokens_plain (by decide)]
    rfl

theorem Comment.isCode_tokens (k : Comment) : ∀ t ∈ k.tokens, t.isCode = false := by
  cases k with
  | block body ends =>
    intro t ht
    rw [List.mem_singleton.1 ht]
    rfl
  | line hash body ends =>
    intro t ht
    rcases List.mem_cons.1 ht with rfl | ht
    · rfl
    · rw [List.mem_singleton.1 ht]
      rfl

/-- A comment starts with a character that is neither white space nor part of an arrow. -/
theorem Comment.chars_cons (k : Comment) : ∃ c s, k.chars = c :: s ∧ (c = '/' ∨ c = '#') := by
  cases k with
  | block body ends => exact ⟨'/', _, rfl, Or.inl rfl⟩
  | line hash body ends =>
    cases hash with
    | true => exact ⟨'#', _, rfl, Or.inr rfl⟩
    | false => exact ⟨'/', _, rfl, Or.inl rfl⟩

/-! ## White space and comments -/

inductive Filler where
  | blank (c : Char) (isBlank : Text.isBlank c = true)
  | comment (k : Comment)

namespace Filler

def chars : Filler → List Char
  | .blank c _ => [c]
  | .comment k => k.chars

end Filler

def gapChars (g : List Filler) : List Char := g.flatMap Filler.chars

theorem plain_of_isBlank {c : Char} (h : Text.isBlank c = true) : Plain c := by
  refine ⟨?_, ?_, ?_, ?_⟩ <;>
  · rintro rfl
    exact absurd h (by decide)

theorem isBracket_of_isBlank {c : Char} (h : Text.isBlank c = true) : isBracket c = false :=
  isBracket_eq_false (p := Text.isBlank) ⟨rfl, rfl, rfl, rfl⟩ h

/-- A character that starts no token of its own and is no bracket is passed over. -/
theorem keysFrom_symbol {c : Char} {r : List Char} (hnext : next c r = (.symbol c, r))
    (hb : isBracket c = false) (d : Nat) : keysFrom d (tokens (c :: r)) = keysFrom d (tokens r) := by
  rw [tokens, hnext]
  exact (passes_symbol hb).keys d (Nat.zero_le d) (tokens r)

theorem keysFrom_blank {c : Char} (h : Text.isBlank c = true) (d : Nat) (r : List Char) :
    keysFrom d (tokens (c :: r)) = keysFrom d (tokens r) :=
  keysFrom_symbol (next_plain (plain_of_isBlank h) r) (isBracket_of_isBlank h) d

theorem keysFrom_comment (k : Comment) (d : Nat) (r : List Char) :
    keysFrom d (tokens (k.chars ++ r)) = keysFrom d (tokens r) := by
  rw [k.tokens_append]
  exact (passes_space_comments k.isCode_tokens).keys d (Nat.zero_le d) (tokens r)

theorem keysFrom_gap (g : List Filler) (d : Nat) (r : List Char) :
    keysFrom d (tokens (gapChars g ++ r)) = keysFrom d (tokens r) := by
  induction g with
  | nil => rfl
  | cons f g ih =>
    show keysFrom d (tokens ((f.chars ++ gapChars g) ++ r)) = _
    rw [List.append_assoc]
    cases f with
    | blank c hc => exact (keysFrom_blank hc d _).trans ih
    | comment k => exact (keysFrom_comment k d _).trans ih

theorem keysFrom_spaces {s : List Char} (hs : ∀ c ∈ s, Text.isBlank c = true) (d : Nat) (r : List Char) :
    keysFrom d (tokens (s ++ r)) = keysFrom d (tokens r) := by
  induction s with
  | nil => rfl
  | cons c s ih =>
    rw [List.cons_append, keysFrom_blank (hs c (by simp))]
    exact ih fun d hd => hs d (by simp [hd])

/-! ## Arrows -/

/-- The first token of a text is a symbol only if it is the first character. -/
theorem tokens_cons_cases (c : Char) (s : List Char) : (∃ ts, tokens (c :: s) = .symbol c :: ts) ∨
    ∃ t ts, tokens (c :: s) = t :: ts ∧ ∀ d, t ≠ .symbol d := by
  rw [tokens]
  cases h : next c s with
  | mk t r =>
    rcases next_cases h with ⟨u, rfl, -⟩ | ⟨u, rfl, -⟩ | ⟨u, rfl, -⟩ | ⟨-, rfl, -⟩ | ⟨-, -, -, rfl, -⟩
    · exact Or.inr ⟨_, _, rfl, nofun⟩
    · exact Or.inr ⟨_, _, rfl, nofun⟩
    · exact Or.inr ⟨_, _, rfl, nofun⟩
    · exact Or.inr ⟨_, _, rfl, nofun⟩
    · exact Or.inl ⟨_, rfl⟩

theorem arrowFollows_of_ne {t : Token} (h : ∀ c, t ≠ .symbol c) (ts : List Token) :
    arrowFollows (t :: ts) = false := by
  cases t with
  | comment x => rfl
  | quoted q x b => rfl
  | symbol c => exact absurd rfl (h c)

/-- The scan looks for an arrow behind the white space of the text. -/
theorem arrowFollows_tokens (s : List Char) :
    arrowFollows (tokens s) = true ↔ ['=', '>'] <+: Text.trimStart s := by
  induction s with
  | nil =>
    rw [tokens_nil]
    exact ⟨nofun, fun h => absurd h.length_le (by decide)⟩
  | cons c s ih =>
    by_cases hc : Text.isBlank c = true
    · have htrim : Text.trimStart (c :: s) = Text.trimStart s := List.dropWhile_cons_of_pos hc
      have he : c ≠ '=' := by
        rintro rfl
        exact absurd hc (by decide)
      rw [tokens_plain (plain_of_isBlank hc), arrowFollows_symbol, htrim, ← ih]
      simp [hc, he]
    · have htrim : Text.trimStart (c :: s) = c :: s := List.dropWhile_cons_of_neg hc
      rw [htrim]
      by_cases he : c = '='
      · subst he
        rw [tokens_plain (by decide), arrowFollows_symbol, List.cons_prefix_cons]
        cases s with
        | nil =>
          rw [tokens_nil]
          exact ⟨nofun, fun h => absurd h.2.length_le (by decide)⟩
        | cons d s =>
          by_cases hd : d = '>'
          · subst hd
            rw [tokens_plain (by decide)]
            exact ⟨fun _ => ⟨rfl, List.prefix_append ['>'] s⟩, fun _ => rfl⟩
          · have hhead : (tokens (d :: s)).head? ≠ some (.symbol '>') := by
              rcases tokens_cons_cases d s with ⟨ts, ht⟩ | ⟨t, ts, ht, hne⟩
              · simpa [ht] using hd
              · simpa [ht] using hne '>'
            simp [hhead, Ne.symm hd, Text.isBlank]
      · have hno : arrowFollows (tokens (c :: s)) = false := by
          rcases tokens_cons_cases c s with ⟨ts, ht⟩ | ⟨t, ts, ht, hne⟩
          · rw [ht, arrowFollows_symbol]
            simp [hc, he]
          · rw [ht, arrowFollows_of_ne hne]
        rw [hno, List.cons_prefix_cons]
        exact ⟨nofun, fun h => absurd h.1.symm he⟩

/-- What neither is nor completes an arrow does not make one of what stands in front. -/
theorem no_arrow_append {x y : List Char} (hx : ¬['=', '>'] <+: Text.trimStart x)
    (hy : ¬['=', '>'] <+: Text.trimStart y) (hhead : y.head? ≠ some '>') :
    ¬['=', '>'] <+: Text.trimStart (x ++ y) := by
  induction x with
  | nil => exact hy
  | cons c x ih =>
    by_cases hc : Text.isBlank c = true
    · have htrim : ∀ z, Text.trimStart (c :: z) = Text.trimStart z := fun z => List.dropWhile_cons_of_pos hc
      rw [htrim] at hx
      rw [List.cons_append, htrim]
      exact ih hx
    · have htrim : ∀ z, Text.trimStart (c :: z) = c :: z := fun z => List.dropWhile_cons_of_neg hc
      rw [htrim] at hx
      rw [List.cons_append, htrim]
      intro h
      obtain ⟨hc', h⟩ := List.cons_prefix_cons.1 h
      cases x with
      | nil =>
        obtain ⟨z, hz⟩ := h
        exact hhead (by rw [List.nil_append] at hz; rw [← hz]; rfl)
      | cons d x =>
        refine hx (List.cons_prefix_cons.2 ⟨hc', ?_⟩)
        rw [← (List.cons_prefix_cons.1 h).1]
        exact List.prefix_append ['>'] x

/-- White space and comments in front of such a text are such a text. -/
theorem no_arrow_gap (g : List Filler) {y : List Char} (hy : ¬['=', '>'] <+: Text.trimStart y)
    (hhead : y.head? ≠ some '>') :
    ¬['=', '>'] <+: Text.trimStart (gapChars g ++ y) ∧ (gapChars g ++ y).head? ≠ some '>' := by
  induction g with
  | nil => exact ⟨hy, hhead⟩
  | cons f g ih =>
    show ¬_ <+: Text.trimStart ((f.chars ++ gapChars g) ++ y) ∧ ((f.chars ++ gapChars g) ++ y).head? ≠ _
    rw [List.append_assoc]
    cases f with
    | blank c hc =>
      refine ⟨?_, ?_⟩
      · show ¬_ <+: Text.trimStart (c :: (gapChars g ++ y))
        rw [Text.trimStart, List.dropWhile_cons_of_pos hc]
        exact ih.1
      · rintro h
        cases h
        exact absurd hc (by decide)
    | comment k =>
      obtain ⟨c, s, hk, hc⟩ := k.chars_cons
      have hchars : (Filler.comment k).chars = c :: s := hk
      rw [hchars, List.cons_append, Text.trimStart, List.dropWhile_cons_of_neg]
      · rcases hc with rfl | rfl
        · exact ⟨fun h => absurd (List.cons_prefix_cons.1 h).1 (by decide), by simp⟩
        · exact ⟨fun h => absurd (List.cons_prefix_cons.1 h).1 (by decide), by simp⟩
      · rcases hc with rfl | rfl <;> decide

/-! ## Literals -/

inductive Stroke where
  | plain (c : Char)
  | escaped (c : Char)

namespace Stroke

def chars : Stroke → List Char
  | .plain c => [c]
  | .escaped c => ['\\', c]

/-- What is meant in quotes `q`: the backslash counts in front of the quote and of another
    backslash. -/
def meaning (q : Char) : Stroke → List Char
  | .plain c => [c]
  | .escaped c => if c = q ∨ c = '\\' then [c] else ['\\', c]

end Stroke

structure Quoted where
  quote : Char
  isQuote : quote = '\'' ∨ quote = '"'
  strokes : List Stroke
  closes : ∀ c, .plain c ∈ strokes → c ≠ quote ∧ c ≠ '\\'

namespace Quoted

def body (l : Quoted) : List Char := l.strokes.flatMap Stroke.chars

def chars (l : Quoted) : List Char := l.quote :: (l.body ++ [l.quote])

def meaning (l : Quoted) : String := String.ofList (l.strokes.flatMap (Stroke.meaning l.quote))

end Quoted

theorem literalBody_strokes {q : Char} (hq : q ≠ '\\') {ss : List Stroke}
    (h : ∀ c, .plain c ∈ ss → c ≠ q ∧ c ≠ '\\') (r : List Char) :
    literalBody q (ss.flatMap Stroke.chars ++ q :: r) = (ss.flatMap Stroke.chars, true, r) := by
  induction ss with
  | nil =>
    show literalBody q (q :: r) = _
    rw [literalBody, if_pos rfl]
    · rfl
    · exact fun _ _ hc => absurd hc hq
  | cons s ss ih =>
    have ih := ih fun c hc => h c (by simp [hc])
    cases s with
    | plain c =>
      obtain ⟨hcq, hcb⟩ := h c (by simp)
      show literalBody q (c :: (ss.flatMap Stroke.chars ++ q :: r)) = _
      rw [literalBody, if_neg hcq, ih]
      · rfl
      · exact fun _ _ hc => absurd hc hcb
    | escaped c =>
      show literalBody q ('\\' :: c :: (ss.flatMap Stroke.chars ++ q :: r)) = _
      rw [literalBody, ih]
      rfl

theorem unescape_strokes {q : Char} {ss : List Stroke} (h : ∀ c, .plain c ∈ ss → c ≠ q ∧ c ≠ '\\') :
    unescape q (ss.flatMap Stroke.chars) = ss.flatMap (Stroke.meaning q) := by
  induction ss with
  | nil => rfl
  | cons s ss ih =>
    have ih := ih fun c hc => h c (by simp [hc])
    cases s with
    | plain c =>
      have hcb := (h c (by simp)).2
      show unescape q (c :: ss.flatMap Stroke.chars) = c :: _
      rw [unescape, ih]
      · rfl
      · exact fun hc => absurd hc hcb
      · exact fun _ _ hc => absurd hc hcb
    | escaped c =>
      show unescape q ('\\' :: c :: ss.flatMap Stroke.chars) = (if _ then _ else _) ++ _
      rw [unescape, ih]
      split
      · rfl
      · rfl

theorem Quoted.tokens_append (l : Quoted) (r : List Char) :
    tokens (l.chars ++ r) = .quoted l.quote l.body true :: tokens r := by
  have hq : l.quote ≠ '\\' := by
    rcases l.isQuote with h | h <;>
    · rw [h]
      decide
  have hbody := literalBody_strokes hq l.closes r
  simp only [chars, body, List.cons_append, List.append_assoc, List.nil_append]
  rw [tokens, next_quote l.isQuote, hbody]

theorem Quoted.unescape_body (l : Quoted) :
    String.ofList (unescape l.quote l.body) = l.meaning := by
  rw [body, unescape_strokes l.closes]
  rfl

/-- A literal is a key of the array in which it stands in front of an arrow. -/
theorem keysFrom_key (l : Quoted) {r : List Char} (h : ['=', '>'] <+: Text.trimStart r) :
    keysFrom 1 (tokens (l.chars ++ r)) = l.meaning :: keysFrom 1 (tokens r) := by
  rw [l.tokens_append, keysFrom, if_pos ⟨rfl, (arrowFollows_tokens r).2 h⟩, l.unescape_body]

/-- It is none where brackets are around it or no arrow follows. -/
theorem keysFrom_literal (l : Quoted) {d : Nat} {r : List Char}
    (h : 2 ≤ d ∨ ¬['=', '>'] <+: Text.trimStart r) :
    keysFrom d (tokens (l.chars ++ r)) = keysFrom d (tokens r) := by
  rw [l.tokens_append, keysFrom, if_neg]
  rintro ⟨hd, ha⟩
  rcases h with h | h
  · omega
  · exact h ((arrowFollows_tokens r).1 ha)

/-! ## Values -/

def isLoose (c : Char) : Bool := c != '#' && c != '\'' && c != '"' && !isBracket c

/-- A part of a value; in round or square brackets stands what may stand in a value, and
    comments. -/
inductive Piece where
  | literal (l : Quoted)
  | comment (k : Comment)
  | group (round : Bool) (inside : List Piece)
  | char (c : Char) (loose : isLoose c = true)

namespace Piece

def openBracket (round : Bool) : Char := if round then '(' else '['

def closeBracket (round : Bool) : Char := if round then ')' else ']'

mutual
def chars : Piece → List Char
  | .literal l => l.chars
  | .comment k => k.chars
  | .group round inside => openBracket round :: (charsOf inside ++ [closeBracket round])
  | .char c _ => [c]

def charsOf : List Piece → List Char
  | [] => []
  | p :: ps => p.chars ++ charsOf ps
end

mutual
/-- No slash in the piece starts a comment, if the piece stands in front of this text. -/
def Fits : Piece → List Char → Prop
  | .literal _, _ => True
  | .comment _, _ => True
  | .group round inside, r => FitAll inside (closeBracket round :: r)
  | .char c _, r => c = '/' → r.head? ≠ some '/' ∧ r.head? ≠ some '*'

def FitAll : List Piece → List Char → Prop
  | [], _ => True
  | p :: ps, r => p.Fits (charsOf ps ++ r) ∧ FitAll ps r
end

end Piece

theorem keysFrom_char {c : Char} (hc : isLoose c = true) {r : List Char}
    (hr : c = '/' → r.head? ≠ some '/' ∧ r.head? ≠ some '*') (d : Nat) :
    keysFrom d (tokens (c :: r)) = keysFrom d (tokens r) := by
  simp only [isLoose, Bool.and_eq_true, bne_iff_ne, Bool.not_eq_true'] at hc
  obtain ⟨⟨⟨hh, hs⟩, hd⟩, hb⟩ := hc
  refine keysFrom_symbol (next_symbol hh (not_or.2 ⟨hs, hd⟩) fun he u => ⟨fun hu => ?_, fun hu => ?_⟩) hb d
  · exact (hr he).2 (by rw [hu]; rfl)
  · exact (hr he).1 (by rw [hu]; rfl)

theorem keysFrom_open (round : Bool) (d : Nat) (r : List Char) :
    keysFrom d (tokens (Piece.openBracket round :: r)) = keysFrom (d + 1) (tokens r) := by
  cases round <;>
  · rw [Piece.openBracket, tokens_plain (by decide), keysFrom]
    rfl

theorem keysFrom_closing (round : Bool) {d : Nat} (hd : 1 ≤ d) (r : List Char) :
    keysFrom (d + 1) (tokens (Piece.closeBracket round :: r)) = keysFrom d (tokens r) := by
  cases round <;>
  · rw [Piece.closeBracket, tokens_plain (by decide), keysFrom, if_neg (by decide), if_pos (by decide),
      if_neg (by omega), Nat.add_sub_cancel]

mutual
/-- What stands in nested brackets holds no key and closes what it opens. -/
theorem keysFrom_piece : (p : Piece) → ∀ {r : List Char}, p.Fits r → ∀ {d : Nat}, 2 ≤ d →
    keysFrom d (tokens (p.chars ++ r)) = keysFrom d (tokens r)
  | .literal l, _, _, _, hd => keysFrom_literal l (Or.inl hd)
  | .comment k, _, _, d, _ => keysFrom_comment k d _
  | .group round inside, r, h, d, hd => keysFrom_group round inside r h (Nat.le_of_succ_le hd)
  | .char _ hc, _, h, d, _ => keysFrom_char hc h d

theorem keysFrom_pieces : (ps : List Piece) → ∀ {r : List Char}, Piece.FitAll ps r → ∀ {d : Nat}, 2 ≤ d →
    keysFrom d (tokens (Piece.charsOf ps ++ r)) = keysFrom d (tokens r)
  | [], _, _, _, _ => rfl
  | p :: ps, r, h, d, hd => by
    rw [Piece.charsOf, List.append_assoc, keysFrom_piece p h.1 hd, keysFrom_pieces ps h.2 hd]

theorem keysFrom_group : (round : Bool) → (inside : List Piece) → ∀ (r : List Char),
    (Piece.group round inside).Fits r → ∀ {d : Nat}, 1 ≤ d →
    keysFrom d (tokens ((Piece.group round inside).chars ++ r)) = keysFrom d (tokens r)
  | round, inside, r, h, d, hd => by
    rw [Piece.chars, List.cons_append, List.append_assoc, keysFrom_open, List.singleton_append,
      keysFrom_pieces inside h (by omega), keysFrom_closing round hd]
end

/-! ## Items -/

/-- A text in front of which no slash starts a comment that starts none in front of `r`. -/
def Milder (r r' : List Char) : Prop :=
  (r'.head? = some '/' → r.head? = some '/') ∧ (r'.head? = some '*' → r.head? = some '*')

theorem milder_append {r r' : List Char} (h : Milder r r') (s : List Char) : Milder (s ++ r) (s ++ r') := by
  cases s with
  | nil => exact h
  | cons c s => exact ⟨id, id⟩

mutual
theorem Piece.Fits.milder : (p : Piece) → ∀ {r r' : List Char}, Milder r r' → p.Fits r → p.Fits r'
  | .literal _, _, _, _, _ => trivial
  | .comment _, _, _, _, _ => trivial
  | .group round inside, _, _, hr, h => Piece.FitAll.milder inside (milder_append hr [closeBracket round]) h
  | .char _ _, _, _, hr, h => fun hc => ⟨fun h' => (h hc).1 (hr.1 h'), fun h' => (h hc).2 (hr.2 h')⟩

theorem Piece.FitAll.milder : (ps : List Piece) → ∀ {r r' : List Char}, Milder r r' →
    Piece.FitAll ps r → Piece.FitAll ps r'
  | [], _, _, _, _ => trivial
  | p :: ps, _, _, hr, h =>
    ⟨Piece.Fits.milder p (milder_append hr (Piece.charsOf ps)) h.1, Piece.FitAll.milder ps hr h.2⟩
end

/-- No literal outside nested brackets stands in front of an arrow. -/
def Unkeyed : List Piece → Prop
  | [] => True
  | .literal _ :: ps => ¬['=', '>'] <+: Text.trimStart (Piece.charsOf ps) ∧ Unkeyed ps
  | _ :: ps => Unkeyed ps

structure Label where
  key : Quoted
  space : List Char
  blank : ∀ c ∈ space, Text.isBlank c = true
  gap : List Filler

def Label.chars (l : Label) : List Char := l.key.chars ++ (l.space ++ ('=' :: '>' :: gapChars l.gap))

structure Item where
  before : List Filler
  label : Option Label
  value : List Piece
  after : List Filler
  /-- Outside nested brackets, comments stand around the value and not in it. -/
  visible : ∀ k, .comment k ∉ value
  fits : Piece.FitAll value (gapChars after)
  unkeyed : Unkeyed value

namespace Item

def labelChars (i : Item) : List Char :=
  match i.label with
  | some l => l.chars
  | none => []

def chars (i : Item) : List Char :=
  gapChars i.before ++ (i.labelChars ++ (Piece.charsOf i.value ++ gapChars i.after))

def keys (i : Item) : List String := (i.label.map fun l => l.key.meaning).toList

end Item

/-- The values of the array itself hold no key. -/
theorem keysFrom_value {ps : List Piece} (hvisible : ∀ k, .comment k ∉ ps) {r : List Char}
    (hfits : Piece.FitAll ps r) (hkey : Unkeyed ps) (hr : ¬['=', '>'] <+: Text.trimStart r)
    (hhead : r.head? ≠ some '>') : keysFrom 1 (tokens (Piece.charsOf ps ++ r)) = keysFrom 1 (tokens r) := by
  induction ps with
  | nil => rfl
  | cons p ps ih =>
    have hvisible' : ∀ k, .comment k ∉ ps := fun k hk => hvisible k (List.mem_cons_of_mem p hk)
    rw [Piece.charsOf, List.append_assoc]
    cases p with
    | literal l =>
      have hnone := no_arrow_append hkey.1 hr hhead
      rw [Piece.chars, keysFrom_literal l (Or.inr hnone)]
      exact ih hvisible' hfits.2 hkey.2
    | comment k => exact absurd List.mem_cons_self (hvisible k)
    | group round inside =>
      rw [keysFrom_group round inside _ hfits.1 (Nat.le_refl 1)]
      exact ih hvisible' hfits.2 hkey
    | char c hc =>
      rw [Piece.chars, List.singleton_append, keysFrom_char hc hfits.1]
      exact ih hvisible' hfits.2 hkey

theorem keysFrom_label (l : Label) (r : List Char) :
    keysFrom 1 (tokens (l.chars ++ r)) = l.key.meaning :: keysFrom 1 (tokens r) := by
  have hspace : ∀ s, Text.trimStart (l.space ++ '=' :: s) = '=' :: s := fun s => by
    rw [Text.trimStart, List.dropWhile_append_of_pos l.blank, List.dropWhile_cons_of_neg (by decide)]
  have harrow : ∀ c, c = '=' ∨ c = '>' → ∀ s, keysFrom 1 (tokens (c :: s)) = keysFrom 1 (tokens s) := by
    rintro c (rfl | rfl) s
    · exact keysFrom_symbol (next_plain (by decide) s) rfl 1
    · exact keysFrom_symbol (next_plain (by decide) s) rfl 1
  simp only [Label.chars, List.append_assoc, List.cons_append]
  rw [keysFrom_key l.key, keysFrom_spaces l.blank, harrow '=' (Or.inl rfl), harrow '>' (Or.inr rfl),
    keysFrom_gap]
  rw [hspace]
  exact List.prefix_append ['=', '>'] _

/-- An item adds its key, in front of a comma and of the closing bracket. -/
theorem keysFrom_item (i : Item) {c : Char} (hc : c = ',' ∨ c = ']') (r : List Char) :
    keysFrom 1 (tokens (i.chars ++ c :: r)) = i.keys ++ keysFrom 1 (tokens (c :: r)) := by
  have hnone : ¬['=', '>'] <+: Text.trimStart (c :: r) ∧ (c :: r).head? ≠ some '>' := by
    rcases hc with rfl | rfl <;>
    · rw [Text.trimStart, List.dropWhile_cons_of_neg (by decide)]
      exact ⟨fun h => absurd (List.cons_prefix_cons.1 h).1 (by decide), by simp⟩
  have hgap := no_arrow_gap i.after hnone.1 hnone.2
  have hmild : Milder (gapChars i.after) (gapChars i.after ++ c :: r) := by
    have hone : Milder [] (c :: r) := by rcases hc with rfl | rfl <;> simp [Milder]
    have := milder_append hone (gapChars i.after)
    rwa [List.append_nil] at this
  have hvalue : keysFrom 1 (tokens (Piece.charsOf i.value ++ (gapChars i.after ++ c :: r))) =
      keysFrom 1 (tokens (c :: r)) := by
    rw [keysFrom_value i.visible (i.fits.milder i.value hmild) i.unkeyed hgap.1 hgap.2, keysFrom_gap]
  simp only [Item.chars, List.append_assoc]
  rw [keysFrom_gap, Item.labelChars, Item.keys]
  cases i.label with
  | none => exact hvalue
  | some l =>
    rw [keysFrom_label, hvalue]
    rfl

/-! ## Arrays -/

/-- What stands in an array: items with commas between them, and perhaps one at the end. -/
inductive Items where
  | none (gap : List Filler)
  | last (i : Item)
  | more (i : Item) (rest : Items)

namespace Items

def chars : Items → List Char
  | .none gap => gapChars gap
  | .last i => i.chars
  | .more i rest => i.chars ++ ',' :: rest.chars

def keys : Items → List String
  | .none _ => []
  | .last i => i.keys
  | .more i rest => i.keys ++ rest.keys

end Items

theorem keysFrom_items (is : Items) (r : List Char) : keysFrom 1 (tokens (is.chars ++ ']' :: r)) = is.keys := by
  have hclose : keysFrom 1 (tokens (']' :: r)) = [] := by
    rw [tokens_plain (by decide), keysFrom, if_neg (by decide), if_pos (Or.inl rfl), if_pos (Nat.le_refl 1)]
  induction is with
  | none gap =>
    rw [Items.chars, keysFrom_gap, hclose]
    rfl
  | last i =>
    rw [Items.chars, keysFrom_item i (Or.inr rfl), hclose, List.append_nil]
    rfl
  | more i rest ih =>
    have hcomma : ∀ s, keysFrom 1 (tokens (',' :: s)) = keysFrom 1 (tokens s) := fun s =>
      keysFrom_symbol (next_plain (by decide) s) rfl 1
    rw [Items.chars, List.append_assoc, List.cons_append, keysFrom_item i (Or.inl rfl), hcomma, ih]
    rfl

theorem returnOpen_unbordered : ∀ n < returnOpen.length, 0 < n → ¬returnOpen.drop n <+: returnOpen := by
  decide +kernel

/-- The sections of a file are the keys of the array behind its first `return [`, in their
    order and with their repetitions. -/
theorem sections_written {head : List Char} (hhead : ¬returnOpen <:+: head) (is : Items) (tail : List Char) :
    sections ⟨String.ofList (head ++ (returnOpen ++ (is.chars ++ ']' :: tail)))⟩ = is.keys := by
  have hfirst := Text.afterFirst_of_unbordered returnOpen_unbordered hhead (is.chars ++ ']' :: tail)
  rw [sections, String.toList_ofList, hfirst]
  exact keysFrom_items is tail

def nestedItem : Item where
  before :=
    [.comment (.block [' ', '\'', 'n', 'o', '\'', ' ', '=', '>', ' ', '['] (Text.afterFirst_eq_none.1 rfl)),
      .blank ' ' rfl]
  label := some
    { key := ⟨'\'', Or.inl rfl, [.plain 'i', .plain 't', .escaped '\'', .plain 's'], by simp⟩
      space := [' ']
      blank := forall_of_all rfl
      gap := [.blank ' ' rfl] }
  value := [.group false [.literal ⟨'\'', Or.inl rfl, [.plain 'x'], by simp⟩, .char '=' rfl, .char '>' rfl,
    .literal ⟨'\'', Or.inl rfl, [.plain ']'], by simp⟩]]
  after := []
  visible := by simp
  fits := by simp [Piece.FitAll, Piece.Fits]
  unkeyed := trivial

theorem sections_written_nested : ¬returnOpen <:+: "<?php ".toList ∧
    sections ⟨"<?php return [/* 'no' => [*/ 'it\\'s' => ['x'=>']'],];"⟩ = ["it's"] := by
  have hhead : ¬returnOpen <:+: "<?php ".toList := Text.afterFirst_eq_none.1 rfl
  have hitem : nestedItem.chars = "/* 'no' => [*/ 'it\\'s' => ['x'=>']']".toList := by
    simp [nestedItem, Item.chars, Item.labelChars, gapChars, Filler.chars, Comment.chars, Label.chars,
      Quoted.chars, Quoted.body, Stroke.chars, Piece.charsOf, Piece.chars, Piece.openBracket,
      Piece.closeBracket]
  have htext : "<?php return [/* 'no' => [*/ 'it\\'s' => ['x'=>']'],];" = String.ofList ("<?php ".toList ++
      (returnOpen ++ ((Items.more nestedItem (.none [])).chars ++ ']' :: [';']))) := by
    apply String.toList_injective
    rw [Items.chars, hitem, String.toList_ofList]
    rfl
  rw [htext, sections_written hhead (.more nestedItem (.none [])) [';']]
  exact ⟨hhead, rfl⟩

end PhpScribe.ConfigFile
