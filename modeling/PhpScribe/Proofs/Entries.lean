/-
  PhpScribe.Proofs.Entries — what stays of entries that are put one after the other.

  Each key comes once (`nodup_keys_ofList`), and under it stands the value that was put
  last (`get?_ofList`). So nothing gets lost exactly when no key was put twice
  (`length_ofList`), and then the entries are those that were put (`ofList_of_nodup`).
-/

import Mathlib.Data.List.Induction
import Mathlib.Data.List.Perm.Subperm
import PhpScribe.Entries

namespace PhpScribe.Entries

variable {κ ν : Type} [DecidableEq κ] {k : κ} {v : ν} {es : List (κ × ν)}

/-- Values may be changed before or after they are looked up. -/
theorem get?_map {μ : Type} (f : ν → μ) (k : κ) (es : List (κ × ν)) :
    get? k (es.map fun e => (e.1, f e.2)) = (get? k es).map f := by
  induction es with
  | nil => rfl
  | cons e es ih =>
    rw [List.map_cons, get?, get?]
    split
    · rfl
    · exact ih

theorem get?_eq_none : get? k es = none ↔ k ∉ keys es := by
  induction es with
  | nil => simp [get?, keys]
  | cons e es ih =>
    rw [get?]
    split
    · next h => simp [keys, h]
    · next h =>
      rw [ih]
      simp [keys, Ne.symm h]

theorem mem_of_get? (h : get? k es = some v) : (k, v) ∈ es := by
  induction es with
  | nil => exact nomatch h
  | cons e es ih =>
    rw [get?] at h
    split at h
    · next hk =>
      subst hk
      cases h
      exact List.mem_cons_self
    · exact List.mem_cons_of_mem _ (ih h)

theorem mem_of_mem_put {e : κ × ν} (h : e ∈ put k v es) : e = (k, v) ∨ e ∈ es := by
  induction es with
  | nil => exact Or.inl (List.mem_singleton.1 h)
  | cons d es ih =>
    rw [put] at h
    split at h
    · next hk =>
      subst hk
      exact (List.mem_cons.1 h).imp id (List.mem_cons_of_mem _)
    · rcases List.mem_cons.1 h with rfl | h
      · exact Or.inr List.mem_cons_self
      · exact (ih h).imp id (List.mem_cons_of_mem _)

/-- Without repetitions every entry is found under its key. -/
theorem get?_of_mem (hn : (keys es).Nodup) (h : (k, v) ∈ es) : get? k es = some v := by
  induction es with
  | nil => exact nomatch h
  | cons e es ih =>
    obtain ⟨hk, hn⟩ := List.nodup_cons.1 hn
    rw [get?]
    rcases List.mem_cons.1 h with rfl | h
    · simp
    · have hne : e.1 ≠ k := by
        rintro rfl
        exact hk (List.mem_map.2 ⟨_, h, rfl⟩)
      rw [if_neg hne]
      exact ih hn h

theorem put_of_not_mem (h : k ∉ keys es) : put k v es = es ++ [(k, v)] := by
  induction es with
  | nil => rfl
  | cons e es ih =>
    obtain ⟨hne, hk⟩ := not_or.1 (mt List.mem_cons.2 h)
    rw [put, if_neg (Ne.symm hne), ih hk]
    rfl

/-! ## Entries put one after the other -/

theorem ofList_concat (es : List (κ × ν)) (k : κ) (v : ν) : ofList (es ++ [(k, v)]) = put k v (ofList es) := by
  simp [ofList]

theorem nodup_keys_ofList (es : List (κ × ν)) : (keys (ofList es)).Nodup := by
  induction es using List.reverseRecOn with
  | nil => exact List.nodup_nil
  | append_singleton es e ih =>
    rw [ofList_concat es e.1 e.2]
    exact nodup_keys_put _ _ ih

/-- The last one put under a key is the one that is found. -/
theorem get?_ofList (k : κ) (es : List (κ × ν)) : get? k (ofList es) = get? k es.reverse := by
  induction es using List.reverseRecOn with
  | nil => rfl
  | append_singleton es e ih =>
    rw [ofList_concat es e.1 e.2, List.reverse_append, List.reverse_singleton, List.singleton_append, get?]
    split
    · next h =>
      subst h
      exact get?_put_self _ _ _
    · next h => rw [get?_put_of_ne (Ne.symm h), ih]

theorem mem_keys_ofList : k ∈ keys (ofList es) ↔ k ∈ keys es := by
  have h : k ∈ keys es.reverse ↔ k ∈ keys es := by simp [keys]
  rw [← h, ← not_iff_not, ← get?_eq_none, ← get?_eq_none, get?_ofList]

theorem ofList_of_nodup (h : (keys es).Nodup) : ofList es = es := by
  induction es using List.reverseRecOn with
  | nil => rfl
  | append_singleton es e ih =>
    rw [keys, List.map_append, List.nodup_append] at h
    have hk : e.1 ∉ keys es := fun hm => h.2.2 _ hm _ (by simp) rfl
    rw [ofList_concat es e.1 e.2, ih h.1, put_of_not_mem hk]

/-- No entry is lost exactly when no two of them share their key. -/
theorem length_ofList : (ofList es).length = es.length ↔ (keys es).Nodup := by
  refine ⟨fun h => ?_, fun h => congrArg List.length (ofList_of_nodup h)⟩
  have hsub : (keys (ofList es)).Subperm (keys es) :=
    (nodup_keys_ofList es).subperm fun _ hm => mem_keys_ofList.1 hm
  have hlen : (keys es).length ≤ (keys (ofList es)).length := by simp [keys, h]
  exact (hsub.perm_of_length_le hlen).nodup_iff.1 (nodup_keys_ofList es)

end PhpScribe.Entries
