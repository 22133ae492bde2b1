/-
  PhpScribe.Proofs.FileTree.Places — a walk through a tree, seen by its places.

  A walk carries what is in the directories behind it (`walk`); what it meets depends on
  nothing but what stands at the places it passes (`follow`, `walk_eq_follow`). So where
  a path leads says what stands there: a directory or a file it finds is in the tree, and
  a free place is free in a directory that is there (`find_holds`).
-/

import PhpScribe.FileTree

namespace PhpScribe

variable {t : FileTree} {place l : Location} {name : String} {e : Entry}

namespace Branch

theorem at?_append (b : Branch) (l k : Location) : b.at? (l ++ k) = (b.at? l).bind (·.at? k) := by
  induction l generalizing b with
  | nil => rfl
  | cons name l ih =>
    show (Entries.get? name b.members).bind (·.at? (l ++ k)) = _
    cases hg : Entries.get? name b.members with
    | none => simp [at?, hg]
    | some c => simpa [at?, hg] using ih c

end Branch

namespace FileTree

/-! ## Places and what is above them -/

theorem get?_concat (h : t.get? (place ++ [name]) = some e) : t.get? place = some .directory := by
  simp only [get?, Branch.at?_append] at h ⊢
  cases hb : t.root.at? place with
  | none => simp [hb] at h
  | some b =>
    cases b with
    | directory ms => rfl
    | file c => simp [hb, Branch.at?, Branch.members, Entries.get?] at h

theorem get?_dropLast (h : t.get? l = some e) : t.get? l.dropLast = some .directory := by
  rcases List.eq_nil_or_concat l with rfl | ⟨l, name, rfl⟩
  · exact t.get?_root
  · rw [List.concat_eq_append] at h ⊢
    rw [List.dropLast_concat]
    exact get?_concat h

/-! ## The walk by places -/

def follow (t : FileTree) (place : Location) : List Path.Step → Found
  | [] => .directory place
  | step :: rest =>
    if step.name = ".." then t.follow place.dropLast rest
    else if !isName step.name then .blocked
    else
      let on := place ++ [step.name]
      match t.get? on with
      | some .directory => t.follow on rest
      | some (.file content) => if rest.isEmpty then .file on content else .blocked
      | none => if rest.isEmpty then .free on else .missing

/-- A trail leads from the root to the directory that holds `here`. -/
def Trail.Stands (t : FileTree) : Trail → List (String × Branch) → Prop
  | [], here => here = t.members
  | (name, above) :: back, here => Entries.get? name above = some (.directory here) ∧ Trail.Stands t back above

theorem Trail.place_cons (name : String) (above : List (String × Branch)) (back : Trail) :
    Trail.place ((name, above) :: back) = Trail.place back ++ [name] := by
  simp [Trail.place]

theorem Trail.Stands.at? {trail : Trail} {here : List (String × Branch)} (h : trail.Stands t here) :
    t.root.at? trail.place = some (.directory here) := by
  induction trail generalizing here with
  | nil =>
    obtain rfl : here = t.members := h
    rfl
  | cons entry back ih =>
    obtain ⟨name, above⟩ := entry
    obtain ⟨hname, hback⟩ := h
    rw [place_cons, Branch.at?_append, ih hback]
    simp [Branch.at?, Branch.members, hname]

/-- What stands under a name in the directory where a trail ends. -/
theorem Trail.Stands.get? {trail : Trail} {here : List (String × Branch)} (h : trail.Stands t here) (name : String) :
    t.get? (trail.place ++ [name]) = (Entries.get? name here).map Branch.entry := by
  simp only [FileTree.get?, Branch.at?_append, h.at?, Option.bind_some]
  cases hg : Entries.get? name here with
  | none => simp [Branch.at?, Branch.members, hg]
  | some b => simp [Branch.at?, Branch.members, hg]

theorem Trail.Stands.walk {trail : Trail} {here : List (String × Branch)} (h : trail.Stands t here)
    (steps : List Path.Step) : walk trail here steps = t.follow trail.place steps := by
  induction steps generalizing trail here with
  | nil => rfl
  | cons step rest ih =>
    unfold FileTree.walk follow
    by_cases hup : step.name = ".."
    · simp only [hup, if_true]
      cases trail with
      | nil => exact ih h
      | cons entry back =>
        obtain ⟨name, above⟩ := entry
        rw [place_cons, List.dropLast_concat]
        exact ih h.2
    · simp only [hup, if_false, h.get? step.name]
      cases hg : Entries.get? step.name here with
      | none => simp [place_cons]
      | some b =>
        cases b with
        | file content => simp [place_cons, Branch.entry]
        | directory inner =>
          have hon : Trail.Stands t ((step.name, here) :: trail) inner := ⟨hg, h⟩
          simp [place_cons, Branch.entry, ih hon]

/-- A walk from the root is told by its places. -/
theorem walk_eq_follow (t : FileTree) (steps : List Path.Step) : walk [] t.members steps = t.follow [] steps :=
  Trail.Stands.walk (show Trail.Stands t [] t.members from rfl) steps

/-! ## What a path finds -/

def Found.Holds (t : FileTree) : Found → Prop
  | .directory l => t.get? l = some .directory
  | .file l content => t.get? l = some (.file content)
  | .free l => t.get? l = none ∧ t.get? l.dropLast = some .directory
  | .missing | .blocked => True

theorem follow_holds (h : t.get? place = some .directory) (steps : List Path.Step) :
    (t.follow place steps).Holds t := by
  induction steps generalizing place with
  | nil => exact h
  | cons step rest ih =>
    unfold follow
    by_cases hup : step.name = ".."
    · simp only [hup, if_true]
      exact ih (get?_dropLast h)
    · simp only [hup, if_false]
      split
      · trivial
      · split
        · next hon => exact ih hon
        · next content hon =>
          split
          · exact hon
          · trivial
        · next hon =>
          split
          · exact ⟨hon, by simpa using h⟩
          · trivial

theorem find_holds (t : FileTree) (p : Path) : (t.find p).Holds t := by
  have hwalk := follow_holds t.get?_root p.steps
  rw [← walk_eq_follow] at hwalk
  unfold find
  split
  · trivial
  · split
    · trivial
    · split
      · next l content hfound =>
        split
        · trivial
        · rwa [hfound] at hwalk
      · exact hwalk

end FileTree

end PhpScribe
