/-
  PhpScribe.Entries — keyed entries in the order in which their keys first came.

  Putting a key that is already there replaces the value where it stands; a new key
  goes to the end. So the keys stay free of repetitions (`nodup_keys_put`), and
  looking up after a put finds the value put (`get?_put_self`) and leaves every other
  key alone (`get?_put_of_ne`).
-/

namespace PhpScribe.Entries

variable {κ ν : Type} [DecidableEq κ]

def get? (k : κ) : List (κ × ν) → Option ν
  | [] => none
  | (j, v) :: es => if j = k then some v else get? k es

def put (k : κ) (v : ν) : List (κ × ν) → List (κ × ν)
  | [] => [(k, v)]
  | (j, w) :: es => if j = k then (j, v) :: es else (j, w) :: put k v es

/-- Entries put one after the other: of a repeated key the first position and the
    last value stay. -/
def ofList (es : List (κ × ν)) : List (κ × ν) :=
  es.foldl (fun acc e => put e.1 e.2 acc) []

def keys (es : List (κ × ν)) : List κ := es.map (·.1)

theorem get?_put_self (k : κ) (v : ν) (es : List (κ × ν)) : get? k (put k v es) = some v := by
  induction es with
  | nil => simp [put, get?]
  | cons e es ih =>
    obtain ⟨j, w⟩ := e
    by_cases h : j = k <;> simp [put, get?, h, ih]

theorem get?_put_of_ne {k j : κ} (h : j ≠ k) (v : ν) (es : List (κ × ν)) :
    get? j (put k v es) = get? j es := by
  induction es with
  | nil => simp [put, get?, Ne.symm h]
  | cons e es ih =>
    obtain ⟨i, w⟩ := e
    by_cases hi : i = k
    · subst hi; simp [put, get?, Ne.symm h]
    · simp [put, get?, hi, ih]

theorem mem_keys_put {k j : κ} {v : ν} {es : List (κ × ν)} :
    j ∈ keys (put k v es) ↔ j = k ∨ j ∈ keys es := by
  induction es with
  | nil => simp [put, keys]
  | cons e es ih =>
    obtain ⟨i, w⟩ := e
    by_cases hi : i = k
    · subst hi; simp [put, keys]
    · simp only [keys, put, hi, if_false, List.map_cons, List.mem_cons] at ih ⊢
      rw [ih]
      constructor
      · rintro (h | h | h) <;> simp [h]
      · rintro (h | h | h) <;> simp [h]

theorem nodup_keys_put (k : κ) (v : ν) {es : List (κ × ν)} (h : (keys es).Nodup) :
    (keys (put k v es)).Nodup := by
  induction es with
  | nil => simp [put, keys]
  | cons e es ih =>
    obtain ⟨i, w⟩ := e
    simp only [keys, List.map_cons, List.nodup_cons] at h
    by_cases hi : i = k
    · subst hi; simpa [put, keys] using h
    · simp only [put, hi, if_false, keys, List.map_cons, List.nodup_cons]
      refine ⟨fun hm => ?_, ih h.2⟩
      rcases mem_keys_put.1 hm with h' | h'
      · exact hi h'
      · exact h.1 h'

end PhpScribe.Entries
