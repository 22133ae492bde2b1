/-
  PhpScribe.Proofs.FileTree.Growth — the directories that are made on the way to a file.

  Making directories puts some where nothing was and does no more (`Grown`,
  `makeSteps_grown`). Where a path leads once they are made can be told before: there it
  leads if every name that is not there counts as that of a directory (`aim`), and no
  directory that is made changes that (`Grown.aim_eq`). If no file is in the way, the
  directories are made (`makeSteps_of_aim`).
-/

import PhpScribe.Proofs.FileTree.Places

namespace PhpScribe

/-! ## Paths cut behind a step -/

namespace Path

theorem stop_pos_of_mem_stepsFrom {parts : List (List Char)} {start : Nat} {step : Step}
    (h : step ∈ stepsFrom start parts) : 0 < step.stop := by
  induction parts generalizing start with
  | nil => exact nomatch h
  | cons p ps ih =>
    unfold stepsFrom at h
    by_cases hidle : isIdle p = true
    · simp only [hidle, if_true] at h
      exact ih h
    · simp only [hidle, Bool.false_eq_true, if_false, List.mem_cons] at h
      rcases h with rfl | h
      · have hp : p ≠ [] := by
          rintro rfl
          exact hidle rfl
        have := List.length_pos_iff.2 hp
        show 0 < start + p.length
        omega
      · exact ih h

theorem stop_pos {s : String} {step : Step} (h : step ∈ (ofString s).steps) : 0 < step.stop :=
  stop_pos_of_mem_stepsFrom h

theorem steps_ofString_empty : (ofString "").steps = [] := by decide

theorem upTo_steps (p : Path) (back : List Step) : (p.upTo back).steps = back.reverse := rfl

theorem upTo_text_cons (p : Path) (step : Step) (back : List Step) :
    (p.upTo (step :: back)).text.toList = p.text.toList.take step.stop := by
  simp [upTo]

end Path

namespace FileTree

variable {t u : FileTree} {place l : Location} {p : Path} {step : Path.Step} {back steps : List Path.Step}

theorem isRefused_take {s : String} (h : isRefused s = false) (n : Nat) :
    isRefused (String.ofList (s.toList.take n)) = false := by
  have hcut : String.ofList (s.toList.take n) ++ String.ofList (s.toList.drop n) = s := by
    rw [← String.ofList_append, List.take_append_drop, String.ofList_toList]
  have hsize : (String.ofList (s.toList.take n)).utf8ByteSize ≤ s.utf8ByteSize := by
    have := congrArg String.utf8ByteSize hcut
    rw [String.utf8ByteSize_append] at this
    omega
  simp only [isRefused, Bool.or_eq_false_iff, decide_eq_false_iff_not, String.toList_ofList, gt_iff_lt] at h ⊢
  refine ⟨by omega, ?_⟩
  have hnul : '\x00' ∉ s.toList := by simpa using h.2
  simpa using fun hmem => hnul (List.mem_of_mem_take hmem)

/-- Every cut of a path behind one of these steps is a text that a system takes. -/
def Takes (p : Path) (back : List Path.Step) : Prop :=
  isRefused p.text = false ∧ ∀ step ∈ back, p.text.toList.take step.stop ≠ []

theorem find_upTo (h : Takes p back) (hstep : step ∈ back) (rest : List Path.Step) (t : FileTree) :
    t.find (p.upTo (step :: rest)) = t.follow [] (step :: rest).reverse := by
  have hempty : ((p.upTo (step :: rest)).text.isEmpty) = false := by
    have := h.2 step hstep
    rw [← p.upTo_text_cons step rest] at this
    simpa [String.isEmpty_iff] using this
  have hrefused : isRefused (p.upTo (step :: rest)).text = false := isRefused_take h.1 step.stop
  have hdir : (p.upTo (step :: rest)).asDirectory = false := rfl
  simp only [find, hrefused, hempty, hdir, Bool.false_eq_true, if_false, walk_eq_follow, Path.upTo_steps]
  split <;> simp_all

/-- The way to the directory of a path that a system takes. -/
theorem takes_parent {path : String} (h : isRefused path = false) :
    Takes (Path.ofString path).parent (Path.ofString path).parent.steps.reverse := by
  have hback : ∀ step ∈ (Path.ofString path).steps.reverse.tail, 0 < step.stop := by
    intro step hstep
    exact Path.stop_pos (List.mem_reverse.1 (List.mem_of_mem_tail hstep))
  rw [Path.parent, Path.upTo_steps, List.reverse_reverse]
  cases htail : (Path.ofString path).steps.reverse.tail with
  | nil =>
    refine ⟨?_, nofun⟩
    show isRefused (if (Path.ofString path).absolute then "/" else "") = false
    split <;> decide
  | cons last back =>
    rw [htail] at hback
    have hpath : path.toList ≠ [] := by
      intro hnil
      obtain rfl : path = "" := String.toList_injective hnil
      rw [Path.steps_ofString_empty] at htail
      cases htail
    refine ⟨isRefused_take (s := path) h last.stop, fun step hstep => ?_⟩
    have hlast := hback last (List.mem_cons_self ..)
    have hpos := hback step hstep
    have hlen := List.length_pos_iff.2 hpath
    rw [Path.upTo_text_cons, List.take_take, ← List.length_pos_iff, List.length_take]
    show 0 < min _ path.toList.length
    omega

/-! ## Growing -/

/-- Directories have been made where nothing was, and no more. -/
def Grown (t u : FileTree) : Prop :=
  ∀ l, u.get? l = t.get? l ∨ t.get? l = none ∧ u.get? l = some .directory

theorem Grown.refl (t : FileTree) : t.Grown t := fun _ => Or.inl rfl

theorem Grown.trans {v : FileTree} (h : t.Grown u) (h' : u.Grown v) : t.Grown v := by
  intro l
  rcases h l with he | ⟨hn, hd⟩ <;> rcases h' l with he' | ⟨hn', hd'⟩
  · exact Or.inl (he'.trans he)
  · exact Or.inr ⟨he ▸ hn', hd'⟩
  · exact Or.inr ⟨hn, he' ▸ hd⟩
  · exact Or.inr ⟨hn, hd'⟩

theorem Grown.file_iff (h : t.Grown u) {content : ByteArray} :
    u.get? l = some (.file content) ↔ t.get? l = some (.file content) := by
  rcases h l with he | ⟨hn, hd⟩
  · rw [he]
  · simp [hn, hd]

theorem Grown.directory (h : t.Grown u) (hl : t.get? l = some .directory) : u.get? l = some .directory := by
  rcases h l with he | ⟨hn, hd⟩
  · rw [he, hl]
  · exact hd

theorem grown_put (hl : t.get? l = none) (hp : t.get? l.dropLast = some .directory) :
    t.Grown (t.put l .directory) := by
  intro k
  by_cases hk : k = l
  · subst hk
    have hne : k ≠ [] := by
      rintro rfl
      rw [get?_root] at hl
      cases hl
    exact Or.inr ⟨hl, get?_put_self hne _ t⟩
  · exact Or.inl (get?_put_of_ne hk _ (by simp [hl]) hp)

theorem makeDirectory_grown (p : Path) (t : FileTree) : t.Grown (t.makeDirectory p).2 := by
  have hfound := t.find_holds p
  unfold makeDirectory
  split
  · next l hfree =>
    rw [hfree] at hfound
    exact grown_put hfound.1 hfound.2
  · exact .refl t
  · exact .refl t

def ensure (t : FileTree) (p : Path) : Bool × FileTree :=
  match t.makeDirectory p with
  | (.made, u) => (true, u)
  | (_, u) => (u.look p == some .directory, u)

theorem ensure_grown (t : FileTree) (p : Path) : t.Grown (t.ensure p).2 := by
  have := makeDirectory_grown p t
  unfold ensure
  split <;> simp_all

theorem ensure_of_directory (h : t.find p = .directory l) : t.ensure p = (true, t) := by
  simp [ensure, makeDirectory, look, h]

theorem ensure_of_free (h : t.find p = .free l) : t.ensure p = (true, t.put l .directory) := by
  simp [ensure, makeDirectory, h]

/-- A directory is made at once, or behind those that lead to it. -/
theorem makeSteps_cons (p : Path) (step : Path.Step) (back : List Path.Step) (t : FileTree) :
    (Disk.makeSteps p (step :: back) : StateM FileTree Bool) t =
      match t.find (p.upTo (step :: back)), (Disk.makeSteps p back : StateM FileTree Bool) t with
      | .missing, (true, u) => u.ensure (p.upTo (step :: back))
      | .missing, (false, u) => (false, u)
      | _, _ => t.ensure (p.upTo (step :: back)) := by
  simp only [Disk.makeSteps, bind, StateT.bind, Disk.makeDirectory, makeDirectory, ensure]
  cases hfind : t.find (p.upTo (step :: back)) with
  | missing =>
    rcases hmade : (Disk.makeSteps p back : StateM FileTree Bool) t with ⟨made, u⟩
    simp only [StateT.bind, hmade]
    cases made with
    | false => rfl
    | true =>
      simp only [if_true, StateT.bind, bind]
      cases u.find (p.upTo (step :: back)) <;> rfl
  | free l => rfl
  | directory l => rfl
  | file l content => rfl
  | blocked => rfl

theorem makeSteps_grown (p : Path) (back : List Path.Step) (t : FileTree) :
    t.Grown ((Disk.makeSteps p back : StateM FileTree Bool) t).2 := by
  induction back with
  | nil => exact .refl t
  | cons step back ih =>
    rw [makeSteps_cons]
    split
    · next u hmissing hmade =>
      rw [hmade] at ih
      exact ih.trans (ensure_grown u _)
    · next u hmissing hmade =>
      rw [hmade] at ih
      exact ih
    · exact ensure_grown t _

/-! ## Where a path leads in the end -/

def isPassable (t : FileTree) (l : Location) : Bool :=
  match t.get? l with
  | some (.file _) => false
  | _ => true

/-- One step on, where a name that is not there counts as that of a directory. -/
def advance (t : FileTree) (place : Location) (step : Path.Step) : Option Location :=
  if !t.isPassable place then none
  else if step.name = ".." then some place.dropLast
  else if isName step.name then some (place ++ [step.name])
  else none

/-- The place to which steps lead once the directories on the way are made. -/
def aim (t : FileTree) (place : Location) (steps : List Path.Step) : Option Location :=
  steps.foldlM t.advance place

theorem aim_concat : t.aim place (steps ++ [step]) = (t.aim place steps).bind (t.advance · step) := by
  simp [aim, List.foldlM_append]

theorem aim_cons : t.aim place (step :: steps) = (t.advance place step).bind (t.aim · steps) := rfl

theorem isPassable_of_directory (h : t.get? l = some .directory) : t.isPassable l = true := by
  simp [isPassable, h]

theorem isPassable_of_none (h : t.get? l = none) : t.isPassable l = true := by
  simp [isPassable, h]

theorem Grown.isPassable_eq (h : t.Grown u) (l : Location) : u.isPassable l = t.isPassable l := by
  rcases h l with he | ⟨hn, hd⟩
  · simp [isPassable, he]
  · rw [isPassable_of_directory hd, isPassable_of_none hn]

/-- Making directories changes nothing in where paths aim. -/
theorem Grown.aim_eq (h : t.Grown u) (place : Location) (steps : List Path.Step) :
    u.aim place steps = t.aim place steps := by
  have hstep : u.advance = t.advance := by
    funext place step
    simp [advance, h.isPassable_eq]
  simp [aim, hstep]

theorem aim_singleton : t.aim place [step] = t.advance place step := by
  simp [aim]

/-- A step that goes on comes from no file, and goes back or to a name. -/
theorem advance_cases (h : t.advance place step = some l) :
    t.isPassable place = true ∧
      (step.name = ".." ∧ l = place.dropLast ∨
        step.name ≠ ".." ∧ isName step.name = true ∧ l = place ++ [step.name]) := by
  unfold advance at h
  split at h
  · exact nomatch h
  · next hplace =>
    refine ⟨by simpa using hplace, ?_⟩
    split at h
    · next hup => exact Or.inl ⟨hup, (Option.some.inj h).symm⟩
    · next hup =>
      split at h
      · next hname => exact Or.inr ⟨hup, hname, (Option.some.inj h).symm⟩
      · exact nomatch h

/-- From a directory a walk goes one step on, and further if a directory is there. -/
theorem follow_cons (hplace : t.get? place = some .directory) (step : Path.Step) (rest : List Path.Step) :
    t.follow place (step :: rest) =
      match t.advance place step with
      | none => .blocked
      | some on =>
        match t.get? on with
        | some .directory => t.follow on rest
        | some (.file content) => if rest.isEmpty then .file on content else .blocked
        | none => if rest.isEmpty then .free on else .missing := by
  have hpass := isPassable_of_directory hplace
  by_cases hup : step.name = ".."
  · simp [follow, advance, hpass, hup, get?_dropLast hplace]
  · cases hname : isName step.name with
    | false => simp [follow, advance, hpass, hup, hname]
    | true =>
      rcases he : t.get? (place ++ [step.name]) with _ | _ | content <;>
        simp [follow, advance, hpass, hup, hname, he]

def Found.place? : Found → Option Location
  | .directory l | .file l _ | .free l => some l
  | .missing | .blocked => none

/-- A path aims at the place where it ends, unless a directory on the way is not there. -/
theorem aim_of_follow (hplace : t.get? place = some .directory) (h : t.follow place steps ≠ .missing) :
    t.aim place steps = (t.follow place steps).place? := by
  induction steps generalizing place with
  | nil => rfl
  | cons step rest ih =>
    rw [follow_cons hplace] at h ⊢
    rw [aim_cons]
    cases hon : t.advance place step with
    | none => rfl
    | some on =>
      simp only [hon] at h
      show t.aim on rest = _
      cases he : t.get? on with
      | none =>
        cases rest with
        | nil => simp [he, aim, Found.place?]
        | cons next rest => simp [he] at h
      | some e =>
        cases e with
        | directory => simpa [he] using ih he (by simpa [he] using h)
        | file content =>
          cases rest with
          | nil => simp [he, aim, Found.place?]
          | cons next rest => simp [he, aim_cons, advance, isPassable, Found.place?]

/-! ## Making what is missing -/

/-- One step more goes on from a directory, and only from there. -/
theorem follow_concat (t : FileTree) (place : Location) (steps : List Path.Step) (step : Path.Step) :
    t.follow place (steps ++ [step]) =
      match t.follow place steps with
      | .directory l => t.follow l [step]
      | .free _ => .missing
      | .file _ _ => .blocked
      | found => found := by
  induction steps generalizing place with
  | nil => rfl
  | cons first rest ih =>
    rw [List.cons_append, follow]
    conv => rhs; rw [follow]
    by_cases hup : first.name = ".."
    · simp only [hup, if_true]
      exact ih _
    · simp only [hup, if_false]
      split
      · rfl
      · split
        · exact ih _
        · cases rest <;> rfl
        · cases rest <;> rfl

/-- A place that was free is found once a directory is there. -/
theorem Grown.follow_of_free (h : t.Grown u) (hplace : t.get? place = some .directory)
    (hfree : t.follow place steps = .free l) (hl : u.get? l = some .directory) :
    u.follow place steps = .directory l := by
  induction steps generalizing place with
  | nil => exact nomatch hfree
  | cons step rest ih =>
    rw [follow_cons hplace] at hfree
    rw [follow_cons (h.directory hplace), ← aim_singleton, h.aim_eq, aim_singleton]
    cases hon : t.advance place step with
    | none => simp [hon] at hfree
    | some on =>
      cases he : t.get? on with
      | none =>
        cases rest with
        | nil =>
          obtain rfl : on = l := by simpa [hon, he] using hfree
          simp [hl, follow]
        | cons next rest => simp [hon, he] at hfree
      | some e =>
        cases e with
        | directory => simpa [h.directory he] using ih he (by simpa [hon, he] using hfree)
        | file content => cases rest <;> simp [hon, he] at hfree

theorem ensure_of_follow {q : Path} (hfind : t.find q = t.follow [] steps)
    (h : t.follow [] steps = .directory l ∨ t.follow [] steps = .free l) :
    ∃ u, t.ensure q = (true, u) ∧ t.Grown u ∧ u.follow [] steps = .directory l := by
  rcases h with h | h
  · exact ⟨t, ensure_of_directory (hfind.trans h), .refl t, h⟩
  · obtain ⟨hnone, hparent⟩ : (Found.free l).Holds t := h ▸ follow_holds t.get?_root steps
    have hne : l ≠ [] := by
      rintro rfl
      exact nomatch hnone
    have hgrown := grown_put hnone hparent
    exact ⟨_, ensure_of_free (hfind.trans h), hgrown, hgrown.follow_of_free t.get?_root h (get?_put_self hne _ t)⟩

/-- One step from a directory leads to a directory or to a free place, unless to a file. -/
theorem follow_step (hplace : t.get? place = some .directory) (hstep : t.advance place step = some l)
    (hl : t.isPassable l = true) :
    t.follow place [step] = .directory l ∨ t.follow place [step] = .free l := by
  rw [follow_cons hplace, hstep]
  cases he : t.get? l with
  | none => exact Or.inr (by simp [he])
  | some e =>
    cases e with
    | directory => exact Or.inl (by simp [he, follow])
    | file content => simp [isPassable, he] at hl

/-- Of directories that are there none is made. -/
theorem makeSteps_of_directory (hp : Takes p back) (h : t.follow [] back.reverse = .directory l) :
    (Disk.makeSteps p back : StateM FileTree Bool) t = (true, t) := by
  cases back with
  | nil => rfl
  | cons step back =>
    have hfind := (find_upTo hp (List.mem_cons_self ..) back t).trans h
    rw [makeSteps_cons, hfind]
    exact ensure_of_directory hfind

/-- Directories that no file is in the way of are made. -/
theorem makeSteps_of_aim (hp : Takes p back) (haim : t.aim [] back.reverse = some l)
    (hl : t.isPassable l = true) :
    ∃ u, (Disk.makeSteps p back : StateM FileTree Bool) t = (true, u) ∧ t.Grown u ∧
      u.follow [] back.reverse = .directory l := by
  induction back generalizing l with
  | nil =>
    obtain rfl : [] = l := Option.some.inj haim
    exact ⟨t, rfl, .refl t, rfl⟩
  | cons step back ih =>
    have hfind := fun u => find_upTo hp (List.mem_cons_self ..) back u
    have hends : ∀ found, t.follow [] (step :: back).reverse = found → found ≠ .missing → found.place? = some l := by
      rintro found rfl hfound
      exact (aim_of_follow t.get?_root hfound).symm.trans haim
    have hholds := follow_holds t.get?_root (step :: back).reverse
    rw [makeSteps_cons, hfind]
    cases hfollow : t.follow [] (step :: back).reverse with
    | directory k =>
      obtain rfl : k = l := Option.some.inj (hends _ hfollow nofun)
      exact ensure_of_follow (hfind t) (Or.inl hfollow)
    | free k =>
      obtain rfl : k = l := Option.some.inj (hends _ hfollow nofun)
      exact ensure_of_follow (hfind t) (Or.inr hfollow)
    | file k content =>
      obtain rfl : k = l := Option.some.inj (hends _ hfollow nofun)
      rw [hfollow] at hholds
      simp [isPassable, show t.get? k = some (.file content) from hholds] at hl
    | blocked => exact nomatch hends _ hfollow nofun
    | missing =>
      -- The directories in front are made first; then one step is left.
      rw [List.reverse_cons, aim_concat] at haim
      obtain ⟨above, habove, hstep⟩ := Option.bind_eq_some_iff.1 haim
      obtain ⟨u, hmade, hgrown, hu⟩ := ih ⟨hp.1, fun s hs => hp.2 s (List.mem_cons_of_mem _ hs)⟩ habove
        (advance_cases hstep).1
      rw [← aim_singleton, ← hgrown.aim_eq, aim_singleton] at hstep
      rw [← hgrown.isPassable_eq] at hl
      have hlast : u.follow [] (step :: back).reverse = u.follow above [step] := by
        rw [List.reverse_cons, follow_concat, hu]
      have habove' : (Found.directory above).Holds u := hu ▸ follow_holds u.get?_root back.reverse
      obtain ⟨v, hv, hgrown', hend⟩ := ensure_of_follow (hfind u) (hlast ▸ follow_step habove' hstep hl)
      rw [hmade]
      exact ⟨v, hv, hgrown.trans hgrown', hend⟩

end FileTree

end PhpScribe
