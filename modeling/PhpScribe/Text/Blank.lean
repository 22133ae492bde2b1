/-
  PhpScribe.Text.Blank — white space and trimming, on lists of characters.

  White space is the Unicode property White_Space, not the six ASCII characters: a
  line that holds only a no-break space is blank. Trimming leaves no blank at the end
  it trims (`trimStart_head`, `trimEnd_last`). Trimming the end stops at the last
  character that is not white space, and at no other (`trimEnd_snoc`, `trimEnd_append`,
  `trimEnd_eq`).
-/

namespace PhpScribe.Text

/-- The characters with the Unicode property White_Space. -/
def isBlank (c : Char) : Bool :=
  let n := c.toNat
  (0x09 ≤ n && n ≤ 0x0D) || n == 0x20 || n == 0x85 || n == 0xA0 || n == 0x1680 ||
    (0x2000 ≤ n && n ≤ 0x200A) || n == 0x2028 || n == 0x2029 || n == 0x202F || n == 0x205F ||
    n == 0x3000

def trimStart (s : List Char) : List Char := s.dropWhile isBlank

def trimEnd (s : List Char) : List Char := (s.reverse.dropWhile isBlank).reverse

/-- Nothing but white space; the empty text is blank. -/
def allBlank (s : List Char) : Bool := s.all isBlank

theorem trimStart_head {s t : List Char} {c : Char} (h : trimStart s = c :: t) :
    isBlank c = false := by
  induction s with
  | nil => simp [trimStart] at h
  | cons d s ih =>
    by_cases hd : isBlank d = true
    · exact ih (by simpa [trimStart, hd] using h)
    · simp only [trimStart, List.dropWhile_cons, hd] at h
      simp at h
      simpa [← h.1] using hd

theorem trimEnd_last {s t : List Char} {c : Char} (h : trimEnd s = t ++ [c]) :
    isBlank c = false := by
  have h' : trimStart s.reverse = c :: t.reverse := by
    have := congrArg List.reverse h
    simpa [trimEnd, trimStart] using this
  exact trimStart_head h'

theorem trimEnd_cons {c : Char} (h : isBlank c = false) (s : List Char) :
    trimEnd (c :: s) = c :: trimEnd s := by
  unfold trimEnd
  rw [List.reverse_cons, List.dropWhile_append]
  split
  · next he =>
    rw [List.isEmpty_iff] at he
    rw [he, List.dropWhile_cons, if_neg (by simp [h])]
    rfl
  · rw [List.reverse_append]
    rfl

theorem trimEnd_append {u : List Char} (h : trimEnd u ≠ []) (s : List Char) :
    trimEnd (s ++ u) = s ++ trimEnd u := by
  unfold trimEnd at h ⊢
  rw [List.reverse_append, List.dropWhile_append, if_neg, List.reverse_append, List.reverse_reverse]
  rw [List.isEmpty_iff]
  exact fun he => h (by rw [he]; rfl)

theorem trimEnd_snoc {c : Char} (h : isBlank c = false) (s : List Char) :
    trimEnd (s ++ [c]) = s ++ [c] := by
  unfold trimEnd
  rw [List.reverse_append, List.reverse_singleton, List.singleton_append, List.dropWhile_cons,
    if_neg (by simp [h]), List.reverse_cons, List.reverse_reverse]

theorem trimEnd_append_blank {u : List Char} (h : ∀ c ∈ u, isBlank c = true) (s : List Char) :
    trimEnd (s ++ u) = trimEnd s := by
  unfold trimEnd
  rw [List.reverse_append, List.dropWhile_append_of_pos fun c hc => h c (List.mem_reverse.1 hc)]

theorem exists_trimEnd_append (s : List Char) : ∃ u, s = trimEnd s ++ u ∧ ∀ c ∈ u, isBlank c = true := by
  refine ⟨(s.reverse.takeWhile isBlank).reverse, ?_, fun c hc => ?_⟩
  · rw [trimEnd, ← List.reverse_append, List.takeWhile_append_dropWhile, List.reverse_reverse]
  · exact List.all_eq_true.1 List.all_takeWhile c (List.mem_reverse.1 hc)

/-- Trimming cuts a text into what has no white space at its end and white space. -/
theorem trimEnd_eq {s t : List Char} : trimEnd s = t ↔
    (∀ c ∈ t.getLast?, isBlank c = false) ∧ ∃ u, s = t ++ u ∧ ∀ c ∈ u, isBlank c = true := by
  constructor
  · rintro rfl
    refine ⟨fun c hc => ?_, exists_trimEnd_append s⟩
    obtain ⟨t, ht⟩ := List.getLast?_eq_some_iff.1 hc
    exact trimEnd_last ht
  · rintro ⟨hlast, u, rfl, hu⟩
    rw [trimEnd_append_blank hu]
    rcases List.eq_nil_or_concat t with rfl | ⟨t, c, rfl⟩
    · rfl
    · rw [List.concat_eq_append] at hlast ⊢
      exact trimEnd_snoc (hlast c (by simp)) t

theorem mem_of_mem_trimEnd {c : Char} {s : List Char} (h : c ∈ trimEnd s) : c ∈ s := by
  unfold trimEnd at h
  rw [List.mem_reverse] at h
  exact List.mem_reverse.1 ((List.dropWhile_sublist isBlank).mem h)

end PhpScribe.Text
