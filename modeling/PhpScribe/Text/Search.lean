/-
  PhpScribe.Text.Search — finding a character or a pattern in a text.

  `parts` cuts a text at every occurrence of a character, `afterFirst` gives what follows
  the first occurrence of a pattern, `splitLast` cuts a text in front of the last one.
  That cut loses nothing (`splitLast_append`), what follows it starts with the pattern
  (`splitLast_isPrefix`), and nothing else decides it but that the pattern does not occur
  behind that start (`splitLast_eq_some`); the parts of a text do not hold the character
  they were cut at (`notMem_of_mem_parts`), and a text made by ending each of some parts with
  it is cut into these (`parts_terminated`). Where a pattern is found does not hang on what stands
  behind its first occurrence (`afterFirst_congr`, `afterFirst_append`) or in front of its
  last one (`splitLast_of_back`), nor on a front in which no occurrence starts
  (`afterFirst_skip`).
-/

namespace PhpScribe.Text

/-- The parts of a text between the occurrences of a character; there is always one. -/
def parts (sep : Char) : List Char → List (List Char)
  | [] => [[]]
  | c :: s =>
    if c = sep then [] :: parts sep s
    else match parts sep s with
      | [] => [[c]]
      | p :: ps => (c :: p) :: ps

theorem notMem_of_mem_parts {sep : Char} {s p : List Char} (h : p ∈ parts sep s) : sep ∉ p := by
  induction s generalizing p with
  | nil => simp_all [parts]
  | cons c s ih =>
    simp only [parts] at h
    split at h
    · rcases List.mem_cons.1 h with rfl | h
      · simp
      · exact ih h
    · next hc =>
      split at h
      · simp_all [Ne.symm hc]
      · next q qs hq =>
        rcases List.mem_cons.1 h with rfl | h
        · simp [Ne.symm hc, ih (p := q) (by simp [hq])]
        · exact ih (by simp [hq, h])

theorem parts_ne_nil (sep : Char) (s : List Char) : parts sep s ≠ [] := by
  cases s with
  | nil => simp [parts]
  | cons c s =>
    rw [parts]
    split
    · simp
    · split <;> simp

theorem parts_cons {sep c : Char} {s p : List Char} {ps : List (List Char)} (hc : c ≠ sep)
    (hs : parts sep s = p :: ps) : parts sep (c :: s) = (c :: p) :: ps := by
  rw [parts, if_neg hc, hs]

/-- On either side of the character a text is cut for itself. -/
theorem parts_append (sep : Char) (s t : List Char) :
    parts sep (s ++ sep :: t) = parts sep s ++ parts sep t := by
  induction s with
  | nil => simp [parts]
  | cons c s ih =>
    obtain ⟨p, ps, hs⟩ := List.exists_cons_of_ne_nil (parts_ne_nil sep s)
    rw [List.cons_append, parts, parts, ih, hs]
    by_cases hc : c = sep <;> simp [hc]

theorem parts_of_notMem {sep : Char} {s : List Char} (h : sep ∉ s) : parts sep s = [s] := by
  induction s with
  | nil => rfl
  | cons c s ih =>
    obtain ⟨hc, hs⟩ := not_or.1 (mt List.mem_cons.2 h)
    rw [parts, if_neg (Ne.symm hc), ih hs]

/-- Behind the last of some parts that are each ended by the character there is an empty one. -/
theorem parts_terminated {sep : Char} {ps : List (List Char)} (h : ∀ p ∈ ps, sep ∉ p) :
    parts sep (ps.flatMap (· ++ [sep])) = ps ++ [[]] := by
  induction ps with
  | nil => rfl
  | cons p ps ih =>
    obtain ⟨hp, hps⟩ := List.forall_mem_cons.1 h
    rw [List.flatMap_cons, List.append_assoc, List.singleton_append, parts_append, parts_of_notMem hp, ih hps]
    rfl

/-- The first part is empty at the end of a text and in front of the character only. -/
theorem eq_of_parts_nil {sep : Char} {s : List Char} {ps : List (List Char)} (h : parts sep s = [] :: ps) :
    ps = [] ∨ ∃ t, s = sep :: t := by
  cases s with
  | nil => exact Or.inl (List.cons.inj h).2.symm
  | cons c t =>
    by_cases hc : c = sep
    · exact Or.inr ⟨t, by rw [hc]⟩
    · obtain ⟨p, qs, ht⟩ := List.exists_cons_of_ne_nil (parts_ne_nil sep t)
      rw [parts_cons hc ht] at h
      exact nomatch (List.cons.inj h).1

def afterFirst (pat : List Char) : List Char → Option (List Char)
  | [] => if pat.isEmpty then some [] else none
  | c :: s =>
    if pat.isPrefixOf (c :: s) then some ((c :: s).drop pat.length) else afterFirst pat s

/-- The text cut in front of the last occurrence of the pattern. -/
def splitLast (pat : List Char) : List Char → Option (List Char × List Char)
  | [] => if pat.isEmpty then some ([], []) else none
  | c :: s =>
    match splitLast pat s with
    | some (a, b) => some (c :: a, b)
    | none => if pat.isPrefixOf (c :: s) then some ([], c :: s) else none

theorem splitLast_append {pat s a b : List Char} (h : splitLast pat s = some (a, b)) :
    a ++ b = s := by
  induction s generalizing a b with
  | nil =>
    simp only [splitLast] at h
    split at h <;> simp_all
  | cons c s ih =>
    simp only [splitLast] at h
    split at h
    · next a' b' hs =>
      simp only [Option.some.injEq, Prod.mk.injEq] at h
      obtain ⟨rfl, rfl⟩ := h
      simp [ih hs]
    · split at h
      · simp only [Option.some.injEq, Prod.mk.injEq] at h
        simp [← h.1, ← h.2]
      · exact nomatch h

theorem splitLast_isPrefix {pat s a b : List Char} (h : splitLast pat s = some (a, b)) :
    pat <+: b := by
  induction s generalizing a b with
  | nil =>
    simp only [splitLast] at h
    split at h
    · simp_all
    · exact nomatch h
  | cons c s ih =>
    simp only [splitLast] at h
    split at h
    · next a' b' hs =>
      simp only [Option.some.injEq, Prod.mk.injEq] at h
      exact h.2 ▸ ih hs
    · split at h
      · next hp =>
        simp only [Option.some.injEq, Prod.mk.injEq] at h
        exact h.2 ▸ List.isPrefixOf_iff_prefix.1 hp
      · exact nomatch h

theorem splitLast_back {pat s a b : List Char} (h : splitLast pat s = some (a, b)) :
    splitLast pat b = some ([], b) := by
  induction s generalizing a b with
  | nil =>
    simp only [splitLast] at h
    split at h <;> simp_all [splitLast]
  | cons c s ih =>
    by_cases hs : ∃ a' b', splitLast pat s = some (a', b')
    · obtain ⟨a', b', hs⟩ := hs
      simp only [splitLast, hs, Option.some.injEq, Prod.mk.injEq] at h
      exact h.2 ▸ ih hs
    · have hnone : splitLast pat s = none := by
        cases hp : splitLast pat s with
        | none => rfl
        | some p => exact absurd ⟨p.1, p.2, hp⟩ hs
      have h' := h
      simp only [splitLast, hnone] at h'
      split at h'
      · simp only [Option.some.injEq, Prod.mk.injEq] at h'
        obtain ⟨rfl, rfl⟩ := h'
        exact h
      · exact nomatch h'

theorem splitLast_of_back {pat b : List Char} (h : splitLast pat b = some ([], b)) (a : List Char) :
    splitLast pat (a ++ b) = some (a, b) := by
  induction a with
  | nil => exact h
  | cons c a ih => simp only [List.cons_append, splitLast, ih]

theorem splitLast_eq_none {pat s : List Char} : splitLast pat s = none ↔ ¬pat <:+: s := by
  induction s with
  | nil => simp [splitLast, List.isEmpty_iff]
  | cons c s ih =>
    rw [List.infix_cons_iff, not_or, ← ih, ← List.isPrefixOf_iff_prefix, splitLast]
    cases splitLast pat s with
    | none => simp
    | some p => simp

/-- The text is cut where the pattern stands and from where on it does not occur again. -/
theorem splitLast_eq_some {pat s a b : List Char} (hpat : pat ≠ []) :
    splitLast pat s = some (a, b) ↔ a ++ b = s ∧ pat <+: b ∧ ¬pat <:+: b.tail := by
  constructor
  · intro h
    refine ⟨splitLast_append h, splitLast_isPrefix h, ?_⟩
    have hback := splitLast_back h
    cases b with
    | nil => exact fun hin => hpat (List.infix_nil.1 hin)
    | cons c b =>
      rw [List.tail_cons, ← splitLast_eq_none]
      rw [splitLast] at hback
      split at hback
      · simp at hback
      · assumption
  · rintro ⟨rfl, hpre, hlast⟩
    refine splitLast_of_back ?_ a
    cases b with
    | nil => exact absurd (List.prefix_nil.1 hpre) hpat
    | cons c b =>
      rw [List.tail_cons, ← splitLast_eq_none] at hlast
      rw [splitLast, hlast]
      exact if_pos (List.isPrefixOf_iff_prefix.2 hpre)

theorem isPrefixOf_append {pat p : List Char} (h : pat.length ≤ p.length) (r r' : List Char) :
    pat.isPrefixOf (p ++ r) = pat.isPrefixOf (p ++ r') := by
  have hiff : ∀ u, pat <+: p ++ u ↔ pat <+: p := fun u =>
    ⟨fun hp => List.prefix_of_prefix_length_le hp (List.prefix_append p u) h,
      fun hp => hp.trans (List.prefix_append p u)⟩
  rw [Bool.eq_iff_iff, List.isPrefixOf_iff_prefix, List.isPrefixOf_iff_prefix, hiff, hiff]

theorem afterFirst_self (pat r : List Char) : afterFirst pat (pat ++ r) = some r := by
  cases hs : pat ++ r with
  | nil =>
    obtain ⟨rfl, rfl⟩ := List.append_eq_nil_iff.1 hs
    rfl
  | cons c s =>
    have hp : pat.isPrefixOf (c :: s) = true := by
      rw [← hs, List.isPrefixOf_iff_prefix]
      exact List.prefix_append pat r
    rw [afterFirst, if_pos hp, ← hs, List.drop_left]

theorem afterFirst_congr {pat p r : List Char} (h : afterFirst pat (p ++ (pat ++ r)) = some r)
    (r' : List Char) : afterFirst pat (p ++ (pat ++ r')) = some r' := by
  induction p with
  | nil => exact afterFirst_self pat r'
  | cons c p ih =>
    rw [List.cons_append, afterFirst] at h ⊢
    split at h
    · have hl := congrArg List.length (Option.some.inj h)
      simp only [List.length_drop, List.length_cons, List.length_append] at hl
      omega
    · next hn =>
      have hp : pat.isPrefixOf (c :: (p ++ (pat ++ r'))) = pat.isPrefixOf (c :: (p ++ (pat ++ r))) := by
        have hl : pat.length ≤ (c :: (p ++ pat)).length := by
          rw [List.length_cons, List.length_append]
          omega
        have := isPrefixOf_append hl r' r
        simpa only [List.cons_append, List.append_assoc] using this
      rw [hp, if_neg hn]
      exact ih h

theorem isInfix_of_afterFirst {pat p r : List Char} (h : afterFirst pat p = some r) : pat <:+: p := by
  induction p with
  | nil =>
    simp only [afterFirst] at h
    split at h
    · next hp => exact (List.isEmpty_iff.1 hp) ▸ List.infix_rfl
    · exact nomatch h
  | cons c s ih =>
    rw [afterFirst] at h
    split at h
    · next hp => exact (List.isPrefixOf_iff_prefix.1 hp).isInfix
    · exact List.infix_cons (ih h)

theorem afterFirst_eq_none {pat p : List Char} : afterFirst pat p = none ↔ ¬pat <:+: p := by
  constructor
  · intro h hp
    induction p with
    | nil =>
      rw [List.infix_nil.1 hp] at h
      exact nomatch h
    | cons c s ih =>
      rw [afterFirst] at h
      split at h
      · exact nomatch h
      · next hn =>
        rcases List.infix_cons_iff.1 hp with hp | hp
        · exact hn (List.isPrefixOf_iff_prefix.2 hp)
        · exact ih h hp
  · intro h
    cases hf : afterFirst pat p with
    | none => rfl
    | some r => exact absurd (isInfix_of_afterFirst hf) h

theorem afterFirst_isSuffix {pat p r : List Char} (h : afterFirst pat p = some r) : r <:+ p := by
  induction p with
  | nil =>
    simp only [afterFirst] at h
    split at h
    · cases h
      exact List.suffix_rfl
    · exact nomatch h
  | cons c s ih =>
    rw [afterFirst] at h
    split at h
    · exact Option.some.inj h ▸ List.drop_suffix _ _
    · exact (ih h).trans (List.suffix_cons c s)

/-- An occurrence within the front of a text is the first one of the whole. -/
theorem afterFirst_append {pat p r : List Char} (h : afterFirst pat p = some r) (q : List Char) :
    afterFirst pat (p ++ q) = some (r ++ q) := by
  induction p with
  | nil =>
    simp only [afterFirst] at h
    split at h
    · next hp =>
      cases h
      rw [List.isEmpty_iff.1 hp]
      exact afterFirst_self [] q
    · exact nomatch h
  | cons c s ih =>
    rw [afterFirst] at h
    rw [List.cons_append, afterFirst]
    split at h
    · next hp =>
      have hpre := List.isPrefixOf_iff_prefix.1 hp
      have hpos : pat.isPrefixOf (c :: (s ++ q)) = true :=
        List.isPrefixOf_iff_prefix.2 (hpre.trans (List.prefix_append (c :: s) q))
      rw [if_pos hpos, ← List.cons_append, List.drop_append_of_le_length hpre.length_le,
        Option.some.inj h]
    · next hn =>
      rw [if_neg, ih h]
      intro hp
      -- the pattern occurs further on in the front, so it is no longer than that
      have hle : pat.length ≤ (c :: s).length :=
        Nat.le_succ_of_le (isInfix_of_afterFirst h).length_le
      refine hn (List.isPrefixOf_iff_prefix.2 ?_)
      exact List.prefix_of_prefix_length_le (List.isPrefixOf_iff_prefix.1 hp)
        (List.prefix_append (c :: s) q) hle

/-- A front in which no occurrence starts is passed over. -/
theorem afterFirst_skip {pat p q : List Char}
    (h : ∀ u v, p = u ++ v → v ≠ [] → ¬pat <+: v ++ q) :
    afterFirst pat (p ++ q) = afterFirst pat q := by
  induction p with
  | nil => rfl
  | cons c s ih =>
    rw [List.cons_append, afterFirst, if_neg]
    · exact ih fun u v hs hv => h (c :: u) v (by rw [hs]; rfl) hv
    · intro hp
      exact h [] (c :: s) rfl (List.cons_ne_nil c s) (List.isPrefixOf_iff_prefix.1 hp)

/-- A pattern that no end of its own starts again is first found where it is put, behind a
    text that does not hold it. -/
theorem afterFirst_of_unbordered {pat p : List Char}
    (hpat : ∀ n < pat.length, 0 < n → ¬pat.drop n <+: pat) (hp : ¬pat <:+: p) (r : List Char) :
    afterFirst pat (p ++ (pat ++ r)) = some r := by
  rw [afterFirst_skip, afterFirst_self]
  intro u v hu hv hpre
  by_cases hlen : pat.length ≤ v.length
  · have hin : pat <+: v := List.prefix_of_prefix_length_le hpre (List.prefix_append v _) hlen
    exact hp (hu ▸ hin.isInfix.trans (List.suffix_append u v).isInfix)
  · obtain ⟨t, ht⟩ := hpre
    have hv' : 0 < v.length := List.length_pos_iff.2 hv
    have hdrop : pat.drop v.length <+: pat ++ r := by
      have := congrArg (List.drop v.length) ht
      rw [List.drop_left, List.drop_append_of_le_length (by omega)] at this
      exact ⟨t, this⟩
    refine hpat v.length (by omega) hv' ?_
    exact List.prefix_of_prefix_length_le hdrop (List.prefix_append pat r) (by simp)

/-- What follows such a pattern is what follows the first one exactly when it does not occur in
    the text in front of it. -/
theorem afterFirst_put_iff {pat p : List Char} (hne : pat ≠ [])
    (hpat : ∀ n < pat.length, 0 < n → ¬pat.drop n <+: pat) (r : List Char) :
    afterFirst pat (p ++ (pat ++ r)) = some r ↔ ¬pat <:+: p := by
  refine ⟨fun h hp => ?_, fun hp => afterFirst_of_unbordered hpat hp r⟩
  cases hin : afterFirst pat p with
  | none => exact afterFirst_eq_none.1 hin hp
  | some rest =>
    have hlength := congrArg List.length (Option.some.inj ((afterFirst_append hin _).symm.trans h))
    simp only [List.length_append] at hlength
    exact hne (List.length_eq_zero_iff.1 (by omega))

end PhpScribe.Text
