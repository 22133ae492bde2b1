/-
  PhpScribe.Proofs.ConfigFile.Cut — a text cut behind its last code, and continued.

  White space and comments may be taken off the end of the tokens of any text, and what is
  left is what `splitCode` leaves (`exists_endsInCode`, `splitCode_eq`).

  Code in front of something may stand in front of a comma instead (`Leads.comma`), and a
  comment may lose the white space at its end where a newline follows (`Leads.trimEnd`).
  So the white space and the comments behind the last code of a text may be trimmed as
  one text and be followed by new lines: the comments stay as they are and in their
  order, but for the white space at the end of the last one (`exists_trimmed`).

  White space and comments are passed over by the scan for keys (`passes_space_comments`)
  and take no part in an arrow (`inert_space_comments`).
-/

import Mathlib.Data.List.Induction
import PhpScribe.Proofs.ConfigFile.Sections

namespace PhpScribe.ConfigFile

/-! ## The last code of a text -/

def EndsInCode (ts : List Token) : Prop := ∀ t ∈ ts.getLast?, t.isCode = true

theorem endsInCode_snoc {ts : List Token} {t : Token} : EndsInCode (ts ++ [t]) ↔ t.isCode = true := by
  simp [EndsInCode]

/-- White space and comments may be taken off the end of all tokens. -/
theorem exists_endsInCode (ts : List Token) :
    ∃ init space, ts = init ++ space ∧ EndsInCode init ∧ ∀ t ∈ space, t.isCode = false := by
  induction ts using List.reverseRecOn with
  | nil => exact ⟨[], [], rfl, nofun, nofun⟩
  | append_singleton ts t ih =>
    cases ht : t.isCode with
    | true => exact ⟨ts ++ [t], [], by simp, endsInCode_snoc.2 ht, nofun⟩
    | false =>
      obtain ⟨init, space, rfl, hinit, hspace⟩ := ih
      refine ⟨init, space ++ [t], by simp, hinit, fun u hu => ?_⟩
      rcases List.mem_append.1 hu with hu | hu
      · exact hspace u hu
      · rwa [List.mem_singleton.1 hu]

theorem splitCode_eq {s : List Char} {ts us : List Token} (hs : tokens s = ts ++ us) (hts : EndsInCode ts)
    (hus : ∀ u ∈ us, u.isCode = false) : splitCode s = (text ts, text us) := by
  have hskip : ∀ u ∈ us.reverse, (!u.isCode) = true := fun u hu => by simp [hus u (List.mem_reverse.1 hu)]
  simp only [splitCode, hs, List.reverse_append]
  rw [List.dropWhile_append_of_pos hskip, List.takeWhile_append_of_pos hskip]
  rcases List.eq_nil_or_concat ts with rfl | ⟨vs, t, rfl⟩
  · simp [text]
  · rw [List.concat_eq_append] at hts ⊢
    rw [List.reverse_append, List.reverse_singleton, List.singleton_append, List.dropWhile_cons,
      List.takeWhile_cons, if_neg (by simp [endsInCode_snoc.1 hts]), if_neg (by simp [endsInCode_snoc.1 hts])]
    simp [text]

/-! ## A token in front of a new text -/

theorem literalBody_closed {q : Char} (hq : q ≠ '\\') {s : List Char} (h : (literalBody q s).2.1 = true)
    (r : List Char) : literalBody q ((literalBody q s).1 ++ q :: r) = ((literalBody q s).1, true, r) := by
  fun_induction literalBody q s with
  | case1 => cases h
  | case2 c s ih =>
    simp only [Prod.map_fst, Prod.map_snd, id_eq, List.cons_append] at h ⊢
    rw [literalBody, ih h]
    rfl
  | case3 s hne =>
    rw [List.nil_append, literalBody]
    · rw [if_pos rfl]
    · exact fun _ _ hc => absurd hc hq
  | case4 c s hne hc ih =>
    simp only [Prod.map_fst, Prod.map_snd, id_eq, List.cons_append] at h ⊢
    rw [literalBody]
    · rw [if_neg hc, ih h]
      rfl
    · intro d u hb hu
      cases s with
      | nil => cases h
      | cons d s => exact hne d s hb rfl

theorem literalBody_open {q : Char} {s : List Char} (h : (literalBody q s).2.1 = false) :
    (literalBody q s).2.2 = [] := by
  fun_induction literalBody q s with
  | case1 => rfl
  | case2 c s ih => exact ih h
  | case3 s hne => cases h
  | case4 c s hne hc ih => exact ih h

/-- A literal that something follows is closed, and ends in front of any text. -/
theorem Leads.quoted {q : Char} {body : List Char} {closed : Bool} {d : Char} {r : List Char}
    (h : Leads (.quoted q body closed) (d :: r)) :
    (q = '\'' ∨ q = '"') ∧ closed = true ∧ ∀ r', Leads (.quoted q body true) r' := by
  obtain ⟨hq, u, hu⟩ := leads_quoted.1 h
  have hne : q ≠ '\\' := by rcases hq with rfl | rfl <;> decide
  have hclosed : closed = true := by
    by_contra ho
    have hrest := literalBody_open (q := q) (s := u) (by rw [hu]; simpa using ho)
    rw [hu] at hrest
    cases hrest
  subst hclosed
  refine ⟨hq, rfl, fun r' => ?_⟩
  have hl := literalBody_closed hne (s := u) (by rw [hu]) r'
  rw [hu] at hl
  exact leads_quoted.2 ⟨hq, _, hl⟩

/-- Code that something follows may be followed by a comma instead. -/
theorem Leads.comma {t : Token} {d : Char} {r : List Char} (h : Leads t (d :: r)) (ht : t.isCode = true)
    (r' : List Char) : Leads t (',' :: r') := by
  cases t with
  | comment x => cases ht
  | quoted q body closed =>
    obtain ⟨-, rfl, hl⟩ := h.quoted
    exact hl _
  | symbol c =>
    obtain ⟨hh, hq, -⟩ := leads_symbol.1 h
    refine leads_symbol.2 ⟨hh, hq, fun _ u => ⟨fun hu => ?_, fun hu => ?_⟩⟩
    · exact absurd (List.cons.inj hu).1 (by decide)
    · exact absurd (List.cons.inj hu).1 (by decide)

/-! ## A comment without the white space at its end -/

theorem newline_notMem_lineComment (s : List Char) : '\n' ∉ (lineComment s).1 := by
  fun_induction lineComment s with
  | case1 => exact List.not_mem_nil
  | case2 s => exact List.not_mem_nil
  | case3 c s hne ih =>
    simp only [Prod.map_fst, List.mem_cons, not_or]
    exact ⟨fun hc => hne hc.symm, ih⟩

theorem lineComment_newline {s : List Char} (h : '\n' ∉ s) (r : List Char) :
    lineComment (s ++ '\n' :: r) = (s, '\n' :: r) := by
  induction s with
  | nil => rfl
  | cons c s ih =>
    simp only [List.mem_cons, not_or] at h
    rw [List.cons_append, lineComment]
    · rw [ih h.2]
      rfl
    · exact fun hc => h.1 hc.symm

/-- A block comment that something follows ends with its own end, in front of any text. -/
theorem blockComment_closed {s : List Char} (h : (blockComment s).2 ≠ []) :
    (∃ x, (blockComment s).1 = x ++ ['/']) ∧
      ∀ r, blockComment ((blockComment s).1 ++ r) = ((blockComment s).1, r) := by
  fun_induction blockComment s with
  | case1 => exact absurd rfl h
  | case2 s => exact ⟨⟨['*'], rfl⟩, fun r => rfl⟩
  | case3 c s hne ih =>
    obtain ⟨⟨x, hx⟩, hr⟩ := ih h
    refine ⟨⟨c :: x, by simp [hx]⟩, fun r => ?_⟩
    have hs := blockComment_append s
    simp only [Prod.map_fst, List.cons_append]
    rw [blockComment]
    · rw [hr r]
      rfl
    · intro u hc hu
      rw [hx] at hs hu
      cases x with
      | nil =>
        cases hu
        exact hne _ hc hs.symm
      | cons d x =>
        cases hu
        exact hne _ hc hs.symm

/-- The token with the white space at its end removed, if it is a comment. -/
def Token.trimEnd : Token → Token
  | .comment x => .comment (Text.trimEnd x)
  | t => t

/-- A comment starts with a character that is not white space. -/
theorem Leads.comment_cons {x r : List Char} (h : Leads (.comment x) r) :
    ∃ c y, x = c :: y ∧ Text.isBlank c = false := by
  rcases leads_comment.1 h with ⟨u, rfl, -⟩ | ⟨p, u, rfl | rfl, rfl, -⟩
  · exact ⟨'/', _, rfl, rfl⟩
  · exact ⟨'/', _, rfl, rfl⟩
  · exact ⟨'#', _, rfl, rfl⟩

/-- A comment that something follows may lose the white space at its end and be followed
    by a newline. -/
theorem Leads.trimEnd {x : List Char} {d : Char} {r : List Char} (h : Leads (.comment x) (d :: r))
    (r' : List Char) : Leads (.comment (Text.trimEnd x)) ('\n' :: r') := by
  rcases leads_comment.1 h with ⟨u, rfl, hr⟩ | ⟨p, u, hp, rfl, -⟩
  · -- a block comment has no white space at its end
    obtain ⟨⟨y, hy⟩, hu⟩ := blockComment_closed (s := u) (by rw [← hr]; exact List.cons_ne_nil d r)
    have htrim : Text.trimEnd ('/' :: '*' :: (blockComment u).1) = '/' :: '*' :: (blockComment u).1 := by
      rw [hy]
      exact Text.trimEnd_snoc rfl ('/' :: '*' :: y)
    have hu := hu ('\n' :: r')
    rw [htrim]
    exact leads_comment.2 (Or.inl ⟨_, by rw [hu], by rw [hu]⟩)
  · have hline : lineComment (Text.trimEnd (lineComment u).1 ++ '\n' :: r') =
        (Text.trimEnd (lineComment u).1, '\n' :: r') :=
      lineComment_newline (fun hm => newline_notMem_lineComment u (Text.mem_of_mem_trimEnd hm)) r'
    have htrim : Text.trimEnd (p ++ (lineComment u).1) = p ++ Text.trimEnd (lineComment u).1 := by
      rcases hp with rfl | rfl
      · exact (Text.trimEnd_cons rfl _).trans (congrArg _ (Text.trimEnd_cons rfl _))
      · exact Text.trimEnd_cons rfl _
    rw [htrim]
    exact leads_comment.2 (Or.inr ⟨p, _, hp, by rw [hline], by rw [hline]⟩)

/-! ## White space and comments -/

def Token.isSpace : Token → Bool
  | .symbol c => Text.isBlank c
  | _ => false

/-- The tokens without white space. -/
def solid (ts : List Token) : List Token := ts.filter fun t => !t.isSpace

theorem solid_append (ts us : List Token) : solid (ts ++ us) = solid ts ++ solid us :=
  List.filter_append ts us

theorem solid_code {t : Token} (h : t.isCode = true) : solid [t] = [t] := by
  cases t with
  | comment x => cases h
  | quoted q x b => rfl
  | symbol c =>
    have hc : Text.isBlank c = false := by simpa [Token.isCode] using h
    simp [solid, Token.isSpace, hc]

theorem solid_space {c : Char} (h : Text.isBlank c = true) : solid [.symbol c] = [] := by
  simp [solid, Token.isSpace, h]

def code (ts : List Token) : List Token := ts.filter Token.isCode

theorem code_append (ts us : List Token) : code (ts ++ us) = code ts ++ code us := List.filter_append ts us

theorem code_eq_nil {ts : List Token} (h : ∀ t ∈ ts, t.isCode = false) : code ts = [] := by
  rw [code, List.filter_eq_nil_iff]
  intro t ht
  simp [h t ht]

/-- Without comments, what is not white space is code. -/
theorem solid_eq_code {ts : List Token} (h : ∀ x, .comment x ∉ ts) : solid ts = code ts := by
  refine List.filter_congr fun t ht => ?_
  cases t with
  | comment x => exact absurd ht (h x)
  | quoted q x b => rfl
  | symbol c => rfl

/-- The tokens with the white space at the end of the last one removed, if that is a
    comment. -/
def trimLast (ts : List Token) : List Token := ts.dropLast ++ (ts.getLast?.map Token.trimEnd).toList

theorem trimLast_snoc (ts : List Token) (t : Token) : trimLast (ts ++ [t]) = ts ++ [t.trimEnd] := by
  simp [trimLast]

/-- White space and comments that something follows may lose the white space at their
    end and be followed by a newline: all comments stay, but for the end of the last. -/
theorem exists_trimmed {ts : List Token} (hts : ∀ t ∈ ts, t.isCode = false) {d : Char} {r : List Char}
    (h : Lexed ts (d :: r)) (r' : List Char) :
    ∃ us, text us = Text.trimEnd (text ts) ∧ Lexed us ('\n' :: r') ∧ (∀ t ∈ us, t.isCode = false) ∧
      solid us = trimLast (solid ts) := by
  induction ts using List.reverseRecOn generalizing d r with
  | nil => exact ⟨[], rfl, trivial, hts, rfl⟩
  | append_singleton ts t ih =>
    obtain ⟨hl, ht, -⟩ := lexed_append.1 h
    have hts' : ∀ u ∈ ts, u.isCode = false := fun u hu => hts u (by simp [hu])
    have hcode := hts t (by simp)
    cases t with
    | quoted q x b => cases hcode
    | symbol c =>
      -- a blank goes, and what is in front of it is trimmed in its turn
      have hc : Text.isBlank c = true := by simpa [Token.isCode] using hcode
      obtain ⟨us, htext, hlex, hus, hsolid⟩ := ih hts' hl
      refine ⟨us, ?_, hlex, hus, ?_⟩
      · rw [htext, text_append]
        exact (Text.trimEnd_append_blank (u := [c]) (by simpa using hc) (text ts)).symm
      · rw [hsolid, solid_append, solid_space hc, List.append_nil]
    | comment x =>
      obtain ⟨c, y, rfl, hc⟩ := ht.comment_cons
      have hne : Text.trimEnd (c :: y) ≠ [] := by
        rw [Text.trimEnd_cons hc]
        exact List.cons_ne_nil _ _
      have hlike : Like (c :: y ++ d :: r) (Text.trimEnd (c :: y) ++ '\n' :: r') := by
        rw [Text.trimEnd_cons hc]
        exact Or.inr rfl
      refine ⟨ts ++ [.comment (Text.trimEnd (c :: y))], ?_, ?_, ?_, ?_⟩
      · rw [text_append, text_append]
        simp only [text_cons, text_nil, Token.chars, List.append_nil]
        rw [Text.trimEnd_append hne]
      · have hfront : Lexed ts (text [.comment (Text.trimEnd (c :: y))] ++ '\n' :: r') := by
          refine hl.like ?_
          simpa only [text_cons, text_nil, Token.chars, List.append_nil] using hlike
        exact lexed_append.2 ⟨hfront, ht.trimEnd r', trivial⟩
      · intro u hu
        rcases List.mem_append.1 hu with hu | hu
        · exact hts' u hu
        · rw [List.mem_singleton.1 hu]
          rfl
      · rw [solid_append, solid_append]
        exact (trimLast_snoc (solid ts) (.comment (c :: y))).symm

/-- White space and comments neither open nor close a bracket, and hold no key. -/
theorem passes_space_comments {ts : List Token} (h : ∀ t ∈ ts, t.isCode = false) : Passes 0 ts := by
  induction ts with
  | nil => exact passes_nil 0
  | cons t ts ih =>
    have ht := h t (by simp)
    have ih := ih fun u hu => h u (by simp [hu])
    cases t with
    | quoted q x b => cases ht
    | comment x =>
      have hcomment : Passes 0 [.comment x] := ⟨fun d _ => rfl, fun d _ us => rfl⟩
      exact hcomment.append ih
    | symbol c =>
      have hc : Text.isBlank c = true := by simpa [Token.isCode] using ht
      have hb := isBracket_eq_false (p := Text.isBlank) ⟨rfl, rfl, rfl, rfl⟩ hc
      exact (passes_symbol hb).append ih

/-- They complete no arrow, and do not start one either in front of a literal or of
    nothing. -/
theorem inert_space_comments {ts us : List Token} (h : ∀ t ∈ ts, t.isCode = false) (hu : Inert us) :
    Inert (ts ++ us) := by
  induction ts with
  | nil => exact hu
  | cons t ts ih =>
    have ht := h t (by simp)
    have ih := ih fun u hu => h u (by simp [hu])
    cases t with
    | quoted q x b => cases ht
    | comment x => exact ⟨rfl, nofun⟩
    | symbol c =>
      have hc : c ≠ '=' ∧ c ≠ '>' := by
        constructor <;>
        · rintro rfl
          exact absurd ht (by decide)
      refine ⟨?_, fun hh => hc.2 (by cases hh; rfl)⟩
      rw [List.cons_append, arrowFollows_symbol, ih.1]
      simp [hc.1]

end PhpScribe.ConfigFile
