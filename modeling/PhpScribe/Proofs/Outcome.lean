/-
  PhpScribe.Proofs.Outcome — computations that may fail, taken apart by their success.
-/

import Mathlib.Data.List.Forall2

namespace PhpScribe

variable {α β γ ε : Type}

theorem exists_of_map_ok {x : Except ε α} {f : α → β} {b : β} (h : x.map f = .ok b) :
    ∃ a, x = .ok a ∧ f a = b := by
  cases x with
  | error e => exact nomatch h
  | ok a => exact ⟨a, rfl, Except.ok.inj h⟩

theorem exists_of_bind_ok {x : Except ε α} {f : α → Except ε β} {b : β} (h : (x >>= f) = .ok b) :
    ∃ a, x = .ok a ∧ f a = .ok b := by
  cases x with
  | error e => exact nomatch h
  | ok a => exact ⟨a, rfl, h⟩

theorem toOption_eq_some {x : Except ε α} {a : α} : x.toOption = some a ↔ x = .ok a := by
  cases x <;> simp [Except.toOption]

theorem map_map (x : Except ε α) (f : α → β) (g : β → γ) : (x.map f).map g = x.map fun a => g (f a) := by
  cases x <;> rfl

/-- A pass over a list gives the result of its head and the results of the rest. -/
theorem exists_of_mapM_cons {f : α → Except ε β} {a : α} {as : List α} {bs : List β}
    (h : (a :: as).mapM f = .ok bs) : ∃ b cs, f a = .ok b ∧ as.mapM f = .ok cs ∧ bs = b :: cs := by
  rw [List.mapM_cons] at h
  obtain ⟨b, hb, h⟩ := exists_of_bind_ok h
  obtain ⟨cs, hcs, h⟩ := exists_of_bind_ok h
  cases h
  exact ⟨b, cs, hb, hcs, rfl⟩

/-- A pass over a list relates argument and result place by place. -/
theorem forall₂_of_mapM {f : α → Except ε β} {R : α → β → Prop} {as : List α} {bs : List β}
    (hf : ∀ a ∈ as, ∀ b, f a = .ok b → R a b) (h : as.mapM f = .ok bs) : List.Forall₂ R as bs := by
  induction as generalizing bs with
  | nil =>
    cases h
    exact .nil
  | cons a as ih =>
    obtain ⟨ha, has⟩ := List.forall_mem_cons.1 hf
    obtain ⟨b, cs, hb, hcs, rfl⟩ := exists_of_mapM_cons h
    exact .cons (ha b hb) (ih has hcs)

/-- What every step of a pass sees alike in its argument and in its result, the lists agree in. -/
theorem map_eq_of_mapM {f : α → Except ε β} {g : β → γ} {h : α → γ} (hf : ∀ {a b}, f a = .ok b → g b = h a)
    {as : List α} {bs : List β} (hb : as.mapM f = .ok bs) : bs.map g = as.map h := by
  induction as generalizing bs with
  | nil =>
    cases hb
    rfl
  | cons a as ih =>
    obtain ⟨b, cs, ha, hcs, rfl⟩ := exists_of_mapM_cons hb
    rw [List.map_cons, List.map_cons, hf ha, ih hcs]

/-- At each place stands the result of what stands there. -/
theorem getElem?_of_mapM {f : α → Except ε β} {as : List α} {bs : List β} {i : Nat} {a : α}
    (h : as.mapM f = .ok bs) (ha : as[i]? = some a) : ∃ b, bs[i]? = some b ∧ f a = .ok b := by
  induction as generalizing bs i with
  | nil => exact nomatch ha
  | cons c as ih =>
    obtain ⟨b, cs, hb, hcs, rfl⟩ := exists_of_mapM_cons h
    cases i with
    | zero =>
      cases ha
      exact ⟨b, rfl, hb⟩
    | succ i =>
      have hrest := ih hcs ha
      exact hrest

/-! ## Two computations alike -/

section Alike

variable {x : Except ε α} {y : Except ε β} {F : α → γ} {G : β → γ}

/-- Computations whose results are seen alike fail alike, and stay alike in every view that
    hangs on the first. -/
theorem map_eq_of_map_eq {δ : Type} {H : α → δ} {K : β → δ} (h : x.map F = y.map G)
    (hview : ∀ a b, F a = G b → H a = K b) : x.map H = y.map K := by
  cases x with
  | error e => cases y with
    | error e' => exact congrArg _ (Except.error.inj h)
    | ok b => exact nomatch h
  | ok a => cases y with
    | error e' => exact nomatch h
    | ok b => exact congrArg _ (hview a b (Except.ok.inj h))

/-- Passes over two lists are alike when their first steps are and what remains of them is. -/
theorem map_cons_eq_of_map_eq {xs : Except ε (List α)} {ys : Except ε (List β)} {h : β → β}
    (hstep : x.map F = y.map fun b => G (h b)) (hrest : xs.map (List.map F) = ys.map (List.map G)) :
    (do let a ← x; let as ← xs; return a :: as : Except ε (List α)).map (List.map F) =
      (do let b ← y; let bs ← ys; return h b :: bs : Except ε (List β)).map (List.map G) := by
  cases x with
  | error e => cases y with
    | error e' => exact congrArg _ (Except.error.inj hstep)
    | ok b => exact nomatch hstep
  | ok a => cases y with
    | error e' => exact nomatch hstep
    | ok b =>
      have ha := Except.ok.inj hstep
      have hcons := map_eq_of_map_eq (H := fun as => F a :: as.map F) (K := fun bs => G (h b) :: bs.map G) hrest
        fun as bs htail => by rw [ha, htail]
      cases xs <;> cases ys <;> exact hcons

end Alike

/-! ## Faults -/

def fault? : Except ε α → Option ε
  | .error e => some e
  | .ok _ => none

theorem fault?_eq_none {x : Except ε α} : fault? x = none ↔ ∃ a, x = .ok a := by
  cases x <;> simp [fault?]

theorem fault?_eq_some {x : Except ε α} {e : ε} : fault? x = some e ↔ x = .error e := by
  cases x <;> simp [fault?]

theorem exists_error_iff {x : Except ε α} : (∃ e, x = .error e) ↔ fault? x ≠ none := by
  rw [Option.ne_none_iff_exists']
  exact exists_congr fun e => fault?_eq_some.symm

@[simp] theorem fault?_map (x : Except ε α) (f : α → β) : fault? (x.map f) = fault? x := by
  cases x <;> rfl

/-- The first of two computations decides, if it fails. -/
theorem fault?_bind {x : Except ε α} {f : α → Except ε β} {o : Option ε} (hf : ∀ a, fault? (f a) = o) :
    fault? (x >>= f) = (fault? x).or o := by
  cases x with
  | error e => rfl
  | ok a => exact hf a

/-- Of two computations whose results are put together, the first that fails decides. -/
theorem fault?_both (x : Except ε α) (y : Except ε β) (g : α → β → γ) :
    fault? (do let a ← x; let b ← y; return g a b) = (fault? x).or (fault? y) := by
  refine fault?_bind fun a => ?_
  cases y <;> rfl

theorem fault?_mapM (f : α → Except ε β) (as : List α) :
    fault? (as.mapM f) = as.findSome? fun a => fault? (f a) := by
  induction as with
  | nil => rfl
  | cons a as ih =>
    have hrest (b : β) : fault? (do let bs ← as.mapM f; pure (b :: bs)) = fault? (as.mapM f) := by
      cases as.mapM f <;> rfl
    rw [List.mapM_cons, fault?_bind hrest, ih, List.findSome?_cons]
    cases fault? (f a) <;> rfl

/-- The first result among lists in a row is the first of the first list that has one. -/
theorem findSome?_flatMap (f : β → Option γ) (g : α → List β) (as : List α) :
    (as.flatMap g).findSome? f = as.findSome? fun a => (g a).findSome? f := by
  induction as with
  | nil => rfl
  | cons a as ih =>
    rw [List.flatMap_cons, List.findSome?_append, ih, List.findSome?_cons]
    cases (g a).findSome? f <;> rfl

/-! ## Runs -/

section Run

variable {σ κ δ : Type} {f : σ → κ → Except ε σ} {cs : List κ} {s t : σ}

/-- What every step decides afresh is as the last step has decided it. -/
theorem decided_by_last {p : σ → Bool} {q : κ → Bool} (hstep : ∀ {s c t}, f s c = .ok t → p t = q c)
    (h : cs.foldlM f s = .ok t) : p t = (cs.getLast?.map q).getD (p s) := by
  induction cs generalizing s with
  | nil =>
    cases h
    rfl
  | cons c cs ih =>
    rw [List.foldlM_cons] at h
    obtain ⟨u, hu, h⟩ := exists_of_bind_ok h
    rw [ih h, List.getLast?_cons]
    cases hl : cs.getLast? with
    | none => exact hstep hu
    | some d => rfl

/-- A view of the state that every step changes on its own goes through a run of its own. -/
theorem view_of_run {view : σ → δ} {g : δ → κ → δ}
    (hstep : ∀ {s c t}, f s c = .ok t → view t = g (view s) c) (h : cs.foldlM f s = .ok t) :
    view t = cs.foldl g (view s) := by
  induction cs generalizing s with
  | nil =>
    cases h
    rfl
  | cons c cs ih =>
    rw [List.foldlM_cons] at h
    obtain ⟨u, hu, h⟩ := exists_of_bind_ok h
    rw [ih h, hstep hu, List.foldl_cons]

end Run

end PhpScribe
