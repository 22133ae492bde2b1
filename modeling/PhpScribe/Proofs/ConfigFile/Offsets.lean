/-
  PhpScribe.Proofs.ConfigFile.Offsets — scanners that keep their place in bytes.

  A scanner over UTF-8 that keeps its place as a number of bytes can be wrong about that
  number: behind the end of the text and inside a character there is nothing to cut, and
  a difference may come out below zero. Here the scanners of config files are given in
  this form, with offsets found and added up by hand. A text is cut at a position of it
  that is valid and at no other (`cutAt`), a difference is taken only where there is one
  (`minus`); all else is a `Breach`.

  None of them ever comes to one, and what they give are the tokens of the text:
  - `findFirst_of_afterFirst` / `findLast_eq`: an offset that is found is that of the
    pattern, and may be cut at.
  - `skipComment_next`: a comment in front of a text is skipped as a whole, and nothing
    else is.
  - `splitQuoted_next`: a literal gives its contents, unescaped, and what follows it.
-/

import PhpScribe.Proofs.ConfigFile.Lexing

namespace PhpScribe.ConfigFile

inductive Breach where
  /-- A cut behind the end of the text, or inside a character. -/
  | cut
  /-- A difference below zero. -/
  | below
  deriving DecidableEq

def width (s : List Char) : Nat := (String.ofList s).utf8ByteSize

/-- A text cut behind its first `n` bytes, where that is a position between characters. -/
def cutAt (n : Nat) (s : List Char) : Except Breach (List Char × List Char) :=
  if h : (String.Pos.Raw.mk n).IsValid (String.ofList s) then
    let p : (String.ofList s).Pos := ⟨⟨n⟩, h⟩
    .ok (((String.ofList s).sliceTo p).copy.toList, ((String.ofList s).sliceFrom p).copy.toList)
  else .error .cut

def behind (n : Nat) (s : List Char) : Except Breach (List Char) := (cutAt n s).map (·.2)

def minus (m n : Nat) : Except Breach Nat := if n ≤ m then .ok (m - n) else .error .below

/-! ## Positions -/

@[simp] theorem width_nil : width [] = 0 := rfl

@[simp] theorem width_append (s t : List Char) : width (s ++ t) = width s + width t := by
  rw [width, String.ofList_append, String.utf8ByteSize_append, width, width]

@[simp] theorem width_singleton (c : Char) : width [c] = c.utf8Size := by
  rw [width, ← String.singleton_eq_ofList, String.utf8ByteSize_singleton]

theorem width_cons (c : Char) (s : List Char) : width (c :: s) = c.utf8Size + width s := by
  have h := width_append [c] s
  rwa [width_singleton] at h

theorem cutAt_width (a b : List Char) : cutAt (width a) (a ++ b) = .ok (a, b) := by
  have hvalid : (String.Pos.Raw.mk (width a)).IsValid (String.ofList (a ++ b)) :=
    String.Pos.Raw.isValid_iff_exists_append.2 ⟨_, _, String.ofList_append, rfl⟩
  have hsplits : (String.Pos.mk _ hvalid).Splits (String.ofList a) (String.ofList b) :=
    ⟨String.ofList_append, rfl⟩
  obtain ⟨hfront, hback⟩ := (String.Pos.splits _).eq hsplits
  rw [cutAt, dif_pos hvalid]
  simp only [hfront, hback, String.toList_ofList]

theorem behind_width (a b : List Char) : behind (width a) (a ++ b) = .ok b := by
  rw [behind, cutAt_width]
  rfl

theorem behind_head (c : Char) (s : List Char) : behind c.utf8Size (c :: s) = .ok s := by
  have h := behind_width [c] s
  rwa [width_singleton] at h

/-! ## Patterns -/

def findFirst (pat : List Char) : List Char → Option Nat
  | [] => if pat.isEmpty then some 0 else none
  | c :: s => if pat.isPrefixOf (c :: s) then some 0 else (findFirst pat s).map (c.utf8Size + ·)

def findLast (pat : List Char) : List Char → Option Nat
  | [] => if pat.isEmpty then some 0 else none
  | c :: s =>
    match findLast pat s with
    | some n => some (c.utf8Size + n)
    | none => if pat.isPrefixOf (c :: s) then some 0 else none

variable {pat s : List Char}

theorem findFirst_of_afterFirst {r : List Char} (h : Text.afterFirst pat s = some r) :
    ∃ p, s = p ++ (pat ++ r) ∧ findFirst pat s = some (width p) := by
  induction s with
  | nil =>
    rw [Text.afterFirst] at h
    split at h
    · next hp =>
      cases h
      exact ⟨[], by simpa using hp, by rw [findFirst, if_pos hp]; rfl⟩
    · cases h
  | cons c s ih =>
    rw [Text.afterFirst] at h
    split at h
    · next hp =>
      obtain ⟨t, ht⟩ := List.isPrefixOf_iff_prefix.1 hp
      rw [← ht, List.drop_left] at h
      cases h
      exact ⟨[], ht.symm, by rw [findFirst, if_pos hp]; rfl⟩
    · next hp =>
      obtain ⟨p, rfl, hn⟩ := ih h
      exact ⟨c :: p, rfl, by rw [findFirst, if_neg hp, hn, width_cons]; rfl⟩

theorem findFirst_of_absent (h : Text.afterFirst pat s = none) : findFirst pat s = none := by
  induction s with
  | nil =>
    rw [Text.afterFirst] at h
    split at h
    · cases h
    · next hp => rw [findFirst, if_neg hp]
  | cons c s ih =>
    rw [Text.afterFirst] at h
    split at h
    · cases h
    · next hp => rw [findFirst, if_neg hp, ih h]; rfl

theorem findLast_eq (pat s : List Char) :
    findLast pat s = (Text.splitLast pat s).map fun p => width p.1 := by
  induction s with
  | nil =>
    rw [findLast, Text.splitLast]
    split <;> rfl
  | cons c s ih =>
    rw [findLast, Text.splitLast, ih]
    cases Text.splitLast pat s with
    | some p => exact congrArg some (width_cons c p.1).symm
    | none =>
      show (if _ then _ else _) = _
      split <;> rfl

/-! ## Comments -/

/-- The text behind the comment in front of a text, if there is one. -/
def skipComment (s : List Char) : Except Breach (Option (List Char)) :=
  match s with
  | '/' :: '*' :: body =>
    match findFirst ['*', '/'] body with
    | some n => (behind (n + 2) body).map some
    | none => .ok (some [])
  | s =>
    if ['/', '/'].isPrefixOf s ∨ ['#'].isPrefixOf s then
      match findFirst ['\n'] s with
      | some n => (behind n s).map some
      | none => .ok (some [])
    else .ok none

theorem blockComment_rest (s : List Char) :
    (blockComment s).2 = (Text.afterFirst ['*', '/'] s).getD [] := by
  fun_induction blockComment s with
  | case1 => rfl
  | case2 s => rfl
  | case3 c s hne ih =>
    have hno : ¬['*', '/'].isPrefixOf (c :: s) = true := by
      intro hp
      obtain ⟨t, ht⟩ := List.isPrefixOf_iff_prefix.1 hp
      cases ht
      exact hne t rfl rfl
    rw [Text.afterFirst, if_neg hno, ← ih]
    rfl

theorem lineComment_rest (s : List Char) :
    (lineComment s).2 = ((Text.afterFirst ['\n'] s).map ('\n' :: ·)).getD [] := by
  fun_induction lineComment s with
  | case1 => rfl
  | case2 s => rfl
  | case3 c s hne ih =>
    have hno : ¬['\n'].isPrefixOf (c :: s) = true := by
      intro hp
      obtain ⟨t, ht⟩ := List.isPrefixOf_iff_prefix.1 hp
      cases ht
      exact hne rfl
    rw [Text.afterFirst, if_neg hno, ← ih]
    rfl

theorem skipComment_block (s : List Char) :
    skipComment ('/' :: '*' :: s) = .ok (some (blockComment s).2) := by
  rw [skipComment, blockComment_rest]
  cases h : Text.afterFirst ['*', '/'] s with
  | none => rw [findFirst_of_absent h]; rfl
  | some r =>
    obtain ⟨p, rfl, hn⟩ := findFirst_of_afterFirst h
    have hcut := behind_width (p ++ ['*', '/']) r
    have hwidth : width (p ++ ['*', '/']) = width p + 2 := width_append p ['*', '/']
    rw [hwidth, List.append_assoc] at hcut
    rw [hn]
    show (behind (width p + 2) (p ++ (['*', '/'] ++ r))).map some = _
    rw [hcut]
    rfl

/-- A line comment is skipped up to its newline, which is looked for from its mark on. -/
theorem skipComment_line {mark : List Char} (hm : mark = ['/', '/'] ∨ mark = ['#']) (s : List Char) :
    skipComment (mark ++ s) = .ok (some (lineComment s).2) := by
  have hskip : skipComment (mark ++ s) = match findFirst ['\n'] (mark ++ s) with
      | some n => (behind n (mark ++ s)).map some
      | none => .ok (some []) := by
    rcases hm with rfl | rfl <;> rfl
  have hafter : Text.afterFirst ['\n'] (mark ++ s) = Text.afterFirst ['\n'] s := by
    rcases hm with rfl | rfl <;> rfl
  rw [hskip, lineComment_rest, ← hafter]
  cases h : Text.afterFirst ['\n'] (mark ++ s) with
  | none => rw [findFirst_of_absent h]; rfl
  | some r =>
    obtain ⟨p, hp, hn⟩ := findFirst_of_afterFirst h
    rw [hn, hp]
    show (behind (width p) (p ++ (['\n'] ++ r))).map some = _
    rw [behind_width]
    rfl

theorem skipComment_none {c : Char} {s : List Char} (hh : c ≠ '#')
    (hs : c = '/' → ∀ u, s ≠ '*' :: u ∧ s ≠ '/' :: u) : skipComment (c :: s) = .ok none := by
  have hmark : ¬(['/', '/'].isPrefixOf (c :: s) = true ∨ ['#'].isPrefixOf (c :: s) = true) := by
    rintro (hp | hp)
    · obtain ⟨u, hu⟩ := List.isPrefixOf_iff_prefix.1 hp
      cases hu
      exact (hs rfl u).2 rfl
    · obtain ⟨u, hu⟩ := List.isPrefixOf_iff_prefix.1 hp
      cases hu
      exact hh rfl
  unfold skipComment
  split
  · next u hu =>
    cases hu
    exact absurd rfl (hs rfl u).1
  · exact if_neg hmark

/-- A comment in front is skipped as a whole, and nothing else is skipped. -/
theorem skipComment_next (c : Char) (s : List Char) : skipComment (c :: s) = .ok (match next c s with
    | (.comment _, r) => some r
    | _ => none) := by
  fun_cases next c s with
  | case1 s => exact skipComment_block s
  | case2 s => exact skipComment_line (Or.inl rfl) s
  | case3 s => exact skipComment_line (Or.inr rfl) s
  | case4 c s h1 h2 h3 hq body closed rest hb =>
    refine skipComment_none h3 fun hc => ?_
    rcases hq with rfl | rfl <;> cases hc
  | case5 c s h1 h2 h3 hq =>
    exact skipComment_none h3 fun hc u => ⟨fun hu => h1 u hc hu, fun hu => h2 u hc hu⟩

/-! ## Literals -/

/-- The contents of a literal in quotes `q`, behind those read so far, and the text behind
    its closing quote. The characters stand behind `i` bytes of the whole text. -/
def unquote (q : Char) (whole : List Char) : Nat → List Char → List Char →
    Except Breach (List Char × List Char)
  | _, read, [] => .ok (read, [])
  | i, read, c :: s =>
    if c = '\\' then
      match s with
      | [] => .ok (read, [])
      | d :: s =>
        let char := if d ≠ q ∧ d ≠ '\\' then ['\\', d] else [d]
        unquote q whole (i + c.utf8Size + d.utf8Size) (read ++ char) s
    else if c = q then (behind (i + c.utf8Size) whole).map (read, ·)
    else unquote q whole (i + c.utf8Size) (read ++ [c]) s

def splitQuoted (q : Char) : List Char → Except Breach (List Char × List Char)
  | [] => .ok ([], [])
  | c :: s => unquote q (c :: s) c.utf8Size [] s

theorem unquote_eq {q : Char} (hq : q ≠ '\\') (pre read s : List Char) :
    unquote q (pre ++ s) (width pre) read s =
      .ok (read ++ unescape q (literalBody q s).1, (literalBody q s).2.2) := by
  fun_induction literalBody q s generalizing pre read with
  | case1 =>
    show Except.ok _ = Except.ok (_ ++ [], _)
    rw [List.append_nil]
  | case2 c s ih =>
    have hwidth : width (pre ++ ['\\', c]) = width pre + ('\\').utf8Size + c.utf8Size := by
      rw [width_append, width_cons, width_singleton, Nat.add_assoc]
    have ih := ih (pre ++ ['\\', c]) (read ++ if c ≠ q ∧ c ≠ '\\' then ['\\', c] else [c])
    rw [hwidth, List.append_assoc] at ih
    rw [unquote, if_pos rfl]
    show unquote q (pre ++ (['\\', c] ++ s)) _ _ s = _
    rw [ih]
    show _ = Except.ok (_ ++ unescape q ('\\' :: c :: (literalBody q s).1), (literalBody q s).2.2)
    rw [unescape, List.append_assoc]
    by_cases hc : c = q ∨ c = '\\'
    · rw [if_pos hc, if_neg (by rw [← not_or]; exact not_not_intro hc)]
      rfl
    · rw [if_neg hc, if_pos (not_or.1 hc)]
      rfl
  | case3 s hne =>
    have hcut := behind_width (pre ++ [q]) s
    rw [width_append, width_singleton, List.append_assoc] at hcut
    unfold unquote
    rw [if_neg hq, if_pos rfl]
    show (behind _ (pre ++ ([q] ++ s))).map _ = Except.ok (_ ++ [], s)
    rw [hcut, List.append_nil]
    rfl
  | case4 c s hne hc ih =>
    by_cases hb : c = '\\'
    · -- a backslash that nothing follows stands at the end of an open literal
      subst hb
      cases s with
      | nil =>
        show Except.ok _ = Except.ok (_ ++ [], _)
        rw [List.append_nil]
        rfl
      | cons d s => exact absurd rfl (hne d s rfl)
    · have ih := ih (pre ++ [c]) (read ++ [c])
      rw [width_append, width_singleton, List.append_assoc, List.append_assoc] at ih
      unfold unquote
      rw [if_neg hb, if_neg hc]
      show unquote q (pre ++ ([c] ++ s)) _ _ s = _
      rw [ih]
      show _ = Except.ok (_ ++ unescape q (c :: (literalBody q s).1), (literalBody q s).2.2)
      rw [unescape]
      · rfl
      · exact fun h => absurd h hb
      · exact fun _ _ h => absurd h hb

theorem splitQuoted_next {c : Char} (hq : c = '\'' ∨ c = '"') (s : List Char) :
    splitQuoted c (c :: s) = .ok (unescape c (literalBody c s).1, (literalBody c s).2.2) := by
  have hb : c ≠ '\\' := by
    rcases hq with rfl | rfl <;> decide
  have h := unquote_eq hb [c] [] s
  rw [width_singleton] at h
  exact h

end PhpScribe.ConfigFile
