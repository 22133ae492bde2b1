/-
  PhpScribe.Proofs.Text.Lines — the lines of a text are what its newlines part.

  A part that a newline ends is a line once the one carriage return in front of that newline
  is taken off; behind the last newline there is a line only if something stands there, and
  nothing is taken off it (`lines_eq`). So no line holds a newline (`newline_notMem_lines`),
  and a pattern without line ends occurs in a text exactly when it occurs in one of its lines
  (`isInfix_iff_lines`).
-/

import Mathlib.Data.List.Basic
import PhpScribe.Text.Lines
import PhpScribe.Text.Search

namespace PhpScribe.Text

variable {c : Char} {p s t pat : List Char} {ps : List (List Char)}

/-! ## Lines and parts -/

/-- A part without the carriage return that belongs to the end of its line. -/
def stripReturn (p : List Char) : List Char := if p.getLast? = some '\r' then p.dropLast else p

def linesOfParts : List (List Char) → List (List Char)
  | [] => []
  | [p] => if p = [] then [] else [p]
  | p :: q :: ps => stripReturn p :: linesOfParts (q :: ps)

theorem stripReturn_cons (h : p ≠ [] ∨ c ≠ '\r') : stripReturn (c :: p) = c :: stripReturn p := by
  cases p with
  | nil => simpa [stripReturn] using h
  | cons d p =>
    simp only [stripReturn, List.getLast?_cons_cons, List.dropLast_cons_cons]
    split <;> rfl

theorem linesOfParts_cons (p : List Char) (h : ps ≠ []) :
    linesOfParts (p :: ps) = stripReturn p :: linesOfParts ps := by
  obtain ⟨q, qs, rfl⟩ := List.exists_cons_of_ne_nil h
  rfl

/-- A character in front of the parts stands in front of the first line, unless it is the
    carriage return of an end. -/
theorem linesOfParts_grow (h : ps = [] ∨ p ≠ [] ∨ c ≠ '\r') :
    linesOfParts ((c :: p) :: ps) =
      match linesOfParts (p :: ps) with
      | [] => [[c]]
      | l :: ls => (c :: l) :: ls := by
  cases ps with
  | nil =>
    by_cases hp : p = []
    · rw [hp]
      rfl
    · simp [linesOfParts, hp]
  | cons q qs => simp only [linesOfParts, stripReturn_cons (h.resolve_left (List.cons_ne_nil q qs))]

theorem lines_eq (s : List Char) : lines s = linesOfParts (parts '\n' s) := by
  fun_induction lines s with
  | case1 => rfl
  | case2 s ih =>
    rw [parts, if_pos rfl, linesOfParts_cons [] (parts_ne_nil _ s), ih]
    rfl
  | case3 s ih =>
    have hs : parts '\n' ('\r' :: '\n' :: s) = ['\r'] :: parts '\n' s := rfl
    rw [hs, linesOfParts_cons _ (parts_ne_nil _ s), ih]
    rfl
  | case4 c s hc hr hl ih | case5 c s hc hr l ls hl ih =>
    obtain ⟨p, ps, hs⟩ := List.exists_cons_of_ne_nil (parts_ne_nil '\n' s)
    have hgrow : ps = [] ∨ p ≠ [] ∨ c ≠ '\r' := by
      by_cases hp : p = []
      · obtain hps | ⟨t, ht⟩ := eq_of_parts_nil (hp ▸ hs)
        · exact Or.inl hps
        · exact Or.inr (Or.inr fun hcr => hr t hcr ht)
      · exact Or.inr (Or.inl hp)
    rw [parts_cons hc hs, linesOfParts_grow hgrow, ← hs, ← ih, hl]

/-- One carriage return is taken off in front of a newline, and none at the end of a text. -/
example : lines "a\r\r\n\n b\r".toList = ["a\r".toList, [], " b\r".toList] := by decide

/-! ## What stands in a line -/

theorem mem_of_mem_stripReturn (h : c ∈ stripReturn p) : c ∈ p := by
  unfold stripReturn at h
  split at h
  · exact List.dropLast_subset p h
  · exact h

theorem notMem_linesOfParts (h : ∀ p ∈ ps, c ∉ p) : ∀ l ∈ linesOfParts ps, c ∉ l := by
  fun_induction linesOfParts ps with
  | case1 => exact nofun
  | case2 => exact nofun
  | case3 p hp => exact h
  | case4 p q ps ih =>
    obtain ⟨hp, hps⟩ := List.forall_mem_cons.1 h
    refine List.forall_mem_cons.2 ⟨fun hmem => hp (mem_of_mem_stripReturn hmem), ih hps⟩

theorem newline_notMem_lines (s : List Char) : ∀ l ∈ lines s, '\n' ∉ l := by
  rw [lines_eq]
  exact notMem_linesOfParts fun p hp => notMem_of_mem_parts hp

/-! ## Patterns that no line end can be part of -/

theorem isPrefix_append_cons (hc : c ∉ pat) : pat <+: s ++ c :: t ↔ pat <+: s := by
  refine ⟨fun h => ?_, fun h => h.trans (List.prefix_append s _)⟩
  obtain hs | ⟨u, rfl⟩ := List.prefix_or_prefix_of_prefix h (List.prefix_append s (c :: t))
  · exact hs
  · rw [List.prefix_append_right_inj] at h
    cases u with
    | nil => simp
    | cons d u =>
      obtain rfl : d = c := (List.cons_prefix_cons.1 h).1
      simp at hc

/-- A pattern does not go over a character that is not in it. -/
theorem isInfix_append_cons (hc : c ∉ pat) : pat <:+: s ++ c :: t ↔ pat <:+: s ∨ pat <:+: t := by
  induction s with
  | nil =>
    rw [List.nil_append, List.infix_cons_iff, ← List.nil_append (c :: t), isPrefix_append_cons hc]
    simp
  | cons d s ih =>
    rw [List.cons_append, List.infix_cons_iff, List.infix_cons_iff, ih, ← List.cons_append,
      isPrefix_append_cons hc, or_assoc]

theorem isInfix_iff_parts (hpat : pat ≠ []) (hc : c ∉ pat) (s : List Char) :
    pat <:+: s ↔ ∃ p ∈ parts c s, pat <:+: p := by
  by_cases hs : c ∈ s
  · obtain ⟨a, b, hab⟩ := List.append_of_mem hs
    have hlength : s.length = a.length + (b.length + 1) := by rw [hab, List.length_append, List.length_cons]
    rw [hab, isInfix_append_cons hc, isInfix_iff_parts hpat hc a, isInfix_iff_parts hpat hc b, parts_append]
    simp only [List.mem_append, or_and_right, exists_or]
  · rw [parts_of_notMem hs]
    simp
termination_by s.length

theorem isInfix_stripReturn (hpat : pat ≠ []) (hr : '\r' ∉ pat) : pat <:+: stripReturn p ↔ pat <:+: p := by
  unfold stripReturn
  split
  · next h =>
    obtain ⟨q, rfl⟩ := List.getLast?_eq_some_iff.1 h
    rw [List.dropLast_concat, isInfix_append_cons hr]
    simp [hpat]
  · rfl

theorem isInfix_linesOfParts (hpat : pat ≠ []) (hr : '\r' ∉ pat) :
    (∃ l ∈ linesOfParts ps, pat <:+: l) ↔ ∃ p ∈ ps, pat <:+: p := by
  fun_induction linesOfParts ps with
  | case1 => rfl
  | case2 => simp [hpat]
  | case3 p hp => rfl
  | case4 p q ps ih => rw [List.exists_mem_cons_iff, List.exists_mem_cons_iff, ih, isInfix_stripReturn hpat hr]

/-- A pattern without line ends occurs in a text when it does in one of its lines. -/
theorem isInfix_iff_lines (hpat : pat ≠ []) (hn : '\n' ∉ pat) (hr : '\r' ∉ pat) (s : List Char) :
    pat <:+: s ↔ ∃ l ∈ lines s, pat <:+: l := by
  rw [lines_eq, isInfix_linesOfParts hpat hr, isInfix_iff_parts hpat hn]

end PhpScribe.Text
