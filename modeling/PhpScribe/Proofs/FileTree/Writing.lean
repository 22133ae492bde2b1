/-
  PhpScribe.Proofs.FileTree.Writing — what reading and writing a file does to a tree.

  Reading changes nothing (`readText_eq`). A text written to a path replaces the file that
  is found there and changes nothing else (`writeText_of_find`). A path at which nothing is
  found may still end at a file, for the directories on its way are made first: it lands
  where it aims (`Lands`), though never without two dots on the way (`Lands.find`). So of
  the files of a tree exactly the one a path lands at is replaced (`get?_writeText`), also
  where the path is only written to when nothing stands there (`get?_writeNew`).
-/

import PhpScribe.Proofs.FileTree.Growth

namespace PhpScribe.FileTree

variable {t u : FileTree} {l : Location} {p : Path} {path text : String} {old content : ByteArray}

/-! ## The file a path leads to -/

theorem find_eq_file :
    t.find p = .file l content ↔
      isRefused p.text = false ∧ p.text ≠ "" ∧ p.asDirectory = false ∧ t.follow [] p.steps = .file l content := by
  unfold find
  rw [walk_eq_follow]
  by_cases hrefused : isRefused p.text = true
  · simp [hrefused]
  · by_cases hempty : p.text = ""
    · rw [hempty] at hrefused ⊢
      simp [hrefused]
    · cases t.follow [] p.steps with
      | file k c => cases hdir : p.asDirectory <;> simp [hrefused, hempty]
      | _ => simp [hrefused, hempty]

/-- Where a text that is written to a path ends up, if a file is there. -/
def Lands (t : FileTree) (path : String) (l : Location) : Prop :=
  isRefused path = false ∧ (Path.ofString path).asDirectory = false ∧
    t.aim [] (Path.ofString path).steps = some l

instance : Decidable (t.Lands path l) := inferInstanceAs (Decidable (_ ∧ _ ∧ _))

theorem Grown.lands_iff (h : t.Grown u) : u.Lands path l ↔ t.Lands path l := by
  rw [Lands, Lands, h.aim_eq]

theorem lands_of_find (h : t.find (Path.ofString path) = .file l content) : t.Lands path l := by
  obtain ⟨hrefused, -, hdir, hfollow⟩ := find_eq_file.1 h
  refine ⟨hrefused, hdir, ?_⟩
  rw [aim_of_follow t.get?_root, hfollow]
  · rfl
  · rw [hfollow]
    exact nofun

/-- A path that lands at a file ends with a name, behind the directory of that file. -/
theorem Lands.steps (h : t.Lands path l) (hl : t.get? l = some (.file old)) :
    ∃ front last above, (Path.ofString path).steps = front ++ [last] ∧ t.aim [] front = some above ∧
      t.advance above last = some l := by
  rcases List.eq_nil_or_concat (Path.ofString path).steps with hnil | ⟨front, last, hsteps⟩
  · have haim := h.2.2
    rw [hnil] at haim
    obtain rfl : [] = l := Option.some.inj haim
    rw [get?_root] at hl
    cases hl
  · have haim := h.2.2
    rw [List.concat_eq_append] at hsteps
    rw [hsteps, aim_concat] at haim
    obtain ⟨above, habove, hlast⟩ := Option.bind_eq_some_iff.1 haim
    exact ⟨front, last, above, hsteps, habove, hlast⟩

/-- Nothing is behind a name that is not there, unless one goes back. -/
theorem get?_aim_of_none {place : Location} {steps : List Path.Step} (hplain : ∀ s ∈ steps, s.name ≠ "..")
    (hplace : t.get? place = none) (haim : t.aim place steps = some l) : t.get? l = none := by
  induction steps generalizing place with
  | nil =>
    obtain rfl : place = l := Option.some.inj haim
    exact hplace
  | cons step rest ih =>
    rw [aim_cons] at haim
    obtain ⟨on, hon, hrest⟩ := Option.bind_eq_some_iff.1 haim
    obtain ⟨-, ⟨hup, -⟩ | ⟨-, -, rfl⟩⟩ := advance_cases hon
    · exact absurd hup (hplain step (List.mem_cons_self ..))
    · refine ih (fun s hs => hplain s (List.mem_cons_of_mem _ hs)) ?_ hrest
      cases he : t.get? (place ++ [step.name]) with
      | none => rfl
      | some e =>
        rw [get?_concat he] at hplace
        cases hplace

/-- Steps that never go back lead to the file they aim at. -/
theorem follow_of_aim {place : Location} {steps : List Path.Step} (hplain : ∀ s ∈ steps, s.name ≠ "..")
    (hplace : t.get? place = some .directory) (haim : t.aim place steps = some l)
    (hl : t.get? l = some (.file old)) : t.follow place steps = .file l old := by
  induction steps generalizing place with
  | nil =>
    obtain rfl : place = l := Option.some.inj haim
    rw [hplace] at hl
    cases hl
  | cons step rest ih =>
    have hplain' : ∀ s ∈ rest, s.name ≠ ".." := fun s hs => hplain s (List.mem_cons_of_mem _ hs)
    rw [aim_cons] at haim
    obtain ⟨on, hon, hrest⟩ := Option.bind_eq_some_iff.1 haim
    obtain ⟨-, ⟨hup, -⟩ | ⟨hup, hname, rfl⟩⟩ := advance_cases hon
    · exact absurd hup (hplain step (List.mem_cons_self ..))
    · cases he : t.get? (place ++ [step.name]) with
      | none =>
        rw [get?_aim_of_none hplain' he hrest] at hl
        cases hl
      | some e =>
        cases e with
        | directory => simpa [follow, hup, hname, he] using ih hplain' he hrest
        | file content =>
          cases rest with
          | nil =>
            obtain rfl : place ++ [step.name] = l := Option.some.inj hrest
            simp [follow_cons hplace, hon, hl]
          | cons next rest => simp [aim_cons, advance, isPassable, he] at hrest

/-- A path without two dots leads to the file it lands at. -/
theorem Lands.find (h : t.Lands path l) (hl : t.get? l = some (.file old))
    (hplain : ∀ s ∈ (Path.ofString path).steps, s.name ≠ "..") : t.find (Path.ofString path) = .file l old := by
  have hpath : path ≠ "" := by
    rintro rfl
    obtain ⟨front, last, -, hsteps, -, -⟩ := h.steps hl
    simp [Path.steps_ofString_empty] at hsteps
  exact find_eq_file.2 ⟨h.1, hpath, h.2.1, follow_of_aim hplain t.get?_root h.2.2 hl⟩

/-! ## Reading -/

def textAt (t : FileTree) (path : String) : Except FileError String :=
  match (t.load (Path.ofString path)).bind String.fromUTF8? with
  | some text => .ok text
  | none => .error (.read path)

theorem readText_eq (path : String) (t : FileTree) :
    (Disk.readText path : StateM FileTree (Except FileError String)) t = (textAt t path, t) := by
  simp only [Disk.readText, textAt, bind, StateT.bind, Disk.load]
  cases (t.load (Path.ofString path)).bind String.fromUTF8? <;> rfl

theorem isDirectory_eq (p : Path) (t : FileTree) :
    (Disk.isDirectory p : StateM FileTree Bool) t = (t.look p == some .directory, t) := rfl

/-! ## Writing -/

theorem writeText_eq (path text : String) (t : FileTree) :
    (Disk.writeText path text : StateM FileTree (Except FileError Nat)) t =
      match (Disk.makeAll (Path.ofString path).parent : StateM FileTree Bool) t with
      | (false, u) => (.error (.write path), u)
      | (true, u) =>
        match u.store (Path.ofString path) text.toUTF8 with
        | (false, v) => (.error (.write path), v)
        | (true, v) => (.ok text.utf8ByteSize, v) := by
  simp only [Disk.writeText, bind, StateT.bind, Disk.store]
  rcases (Disk.makeAll (Path.ofString path).parent : StateM FileTree Bool) t with ⟨made, u⟩
  cases made with
  | false => rfl
  | true =>
    simp only [if_true, StateT.bind]
    rcases u.store (Path.ofString path) text.toUTF8 with ⟨stored, v⟩
    cases stored <;> rfl

theorem parent_steps {front : List Path.Step} {last : Path.Step} (h : (Path.ofString path).steps = front ++ [last]) :
    (Path.ofString path).parent.steps = front := by
  simp [Path.parent, Path.upTo_steps, h]

theorem store_of_find (h : t.find p = .file l old) (content : ByteArray) :
    t.store p content = (true, t.put l (.file content)) := by
  simp [store, h]

theorem makeAll_parent {front : List Path.Step} {last : Path.Step} {above : Location}
    (hrefused : isRefused path = false) (hsteps : (Path.ofString path).steps = front ++ [last])
    (habove : t.aim [] front = some above) (hpass : t.isPassable above = true) :
    ∃ u, (Disk.makeAll (Path.ofString path).parent : StateM FileTree Bool) t = (true, u) ∧ t.Grown u ∧
      u.follow [] front = .directory above := by
  have hback : (Path.ofString path).parent.steps.reverse.reverse = front := by
    rw [List.reverse_reverse, parent_steps hsteps]
  obtain ⟨u, hmade, hgrown, hu⟩ := makeSteps_of_aim (takes_parent hrefused) (hback ▸ habove) hpass
  exact ⟨u, hmade, hgrown, hback ▸ hu⟩

/-- The file a path lands at is found once its directory is there. -/
theorem find_of_follow {front : List Path.Step} {last : Path.Step} {above : Location} (h : t.Lands path l)
    (hl : t.get? l = some (.file old)) (hsteps : (Path.ofString path).steps = front ++ [last])
    (hfront : t.follow [] front = .directory above) (hlast : t.advance above last = some l) :
    t.find (Path.ofString path) = .file l old := by
  have hpath : path ≠ "" := by
    rintro rfl
    simp [Path.steps_ofString_empty] at hsteps
  have habove : (Found.directory above).Holds t := hfront ▸ follow_holds t.get?_root front
  refine find_eq_file.2 ⟨h.1, hpath, h.2.1, ?_⟩
  rw [hsteps, follow_concat, hfront]
  simp [follow_cons habove, hlast, hl]

/-- Behind the directories that were made stands the file a path lands at. -/
theorem Lands.writeText (h : t.Lands path l) (hl : t.get? l = some (.file old)) (text : String) :
    ∃ u, t.Grown u ∧ (Disk.writeText path text : StateM FileTree (Except FileError Nat)) t =
      (.ok text.utf8ByteSize, u.put l (.file text.toUTF8)) := by
  obtain ⟨front, last, above, hsteps, habove, hlast⟩ := h.steps hl
  obtain ⟨u, hmade, hgrown, hfront⟩ := makeAll_parent h.1 hsteps habove (advance_cases hlast).1
  rw [← aim_singleton, ← hgrown.aim_eq, aim_singleton] at hlast
  have hfind := find_of_follow (hgrown.lands_iff.2 h) (hgrown.file_iff.2 hl) hsteps hfront hlast
  refine ⟨u, hgrown, ?_⟩
  rw [writeText_eq, hmade]
  simp only [store_of_find hfind]

/-- A file that is found is replaced, and no directory is made. -/
theorem writeText_of_find (h : t.find (Path.ofString path) = .file l old) (text : String) :
    (Disk.writeText path text : StateM FileTree (Except FileError Nat)) t =
      (.ok text.utf8ByteSize, t.put l (.file text.toUTF8)) := by
  have hfollow := (find_eq_file.1 h).2.2.2
  have hlands := lands_of_find h
  have hl : (Found.file l old).Holds t := h ▸ t.find_holds _
  obtain ⟨front, last, above, hsteps, -, -⟩ := hlands.steps hl
  have hmade : (Disk.makeAll (Path.ofString path).parent : StateM FileTree Bool) t = (true, t) := by
    rw [hsteps, follow_concat] at hfollow
    cases hfront : t.follow [] front with
    | directory k =>
      apply makeSteps_of_directory (takes_parent hlands.1)
      rw [List.reverse_reverse, parent_steps hsteps]
      exact hfront
    | _ => simp [hfront] at hfollow
  rw [writeText_eq, hmade]
  simp only [store_of_find h]

theorem get?_put_file (hl : t.get? l = some (.file old)) (content : ByteArray) (k : Location) :
    (t.put l (.file content)).get? k = if k = l then some (.file content) else t.get? k := by
  have hne : l ≠ [] := by
    rintro rfl
    rw [get?_root] at hl
    cases hl
  by_cases hk : k = l
  · subst hk
    simp [get?_put_self hne]
  · rw [if_neg hk]
    exact get?_put_of_ne hk _ (by simp [hl]) (get?_dropLast hl)

/-- Writing to another place leaves a file alone. -/
theorem get?_store (hl : t.get? l = some (.file old)) (content : ByteArray) (hp : ∀ c, t.find p ≠ .file l c) :
    (t.store p content).2.get? l = some (.file old) := by
  have hfound := t.find_holds p
  unfold store
  split
  · next k hfree =>
    rw [hfree] at hfound
    split
    · exact hl
    · rw [get?_put_of_ne ?_ _ (by simp [hfound.1]) hfound.2]
      · exact hl
      · rintro rfl
        rw [hfound.1] at hl
        cases hl
  · next k c hfile =>
    rw [hfile] at hfound
    rw [get?_put_file hfound, if_neg ?_]
    · exact hl
    · rintro rfl
      exact hp c hfile
  · exact hl

/-- Of the files of a tree a text replaces the one its path lands at. -/
theorem get?_writeText (path text : String) (hl : t.get? l = some (.file old)) :
    ((Disk.writeText path text : StateM FileTree (Except FileError Nat)) t).2.get? l =
      some (.file (if t.Lands path l then text.toUTF8 else old)) := by
  by_cases h : t.Lands path l
  · obtain ⟨u, hgrown, hwrite⟩ := h.writeText hl text
    rw [hwrite, if_pos h, get?_put_file (hgrown.file_iff.2 hl), if_pos rfl]
  · have hgrown : t.Grown ((Disk.makeAll (Path.ofString path).parent : StateM FileTree Bool) t).2 :=
      makeSteps_grown _ _ t
    rw [if_neg h, writeText_eq]
    rcases hmade : (Disk.makeAll (Path.ofString path).parent : StateM FileTree Bool) t with ⟨made, u⟩
    rw [hmade] at hgrown
    have hu : u.get? l = some (.file old) := hgrown.file_iff.2 hl
    cases made with
    | false => exact hu
    | true =>
      have hstore := get?_store hu text.toUTF8 fun c hfind => h (hgrown.lands_iff.1 (lands_of_find hfind))
      rcases hstored : u.store (Path.ofString path) text.toUTF8 with ⟨stored, v⟩
      rw [hstored] at hstore
      cases stored <;> simpa only [hstored] using hstore

theorem writeNew_eq (path text : String) (t : FileTree) :
    (Disk.writeNew path text : StateM FileTree (Except FileError (Option Nat))) t =
      if (t.look (Path.ofString path)).isSome then (.ok none, t)
      else
        let written := (Disk.writeText path text : StateM FileTree (Except FileError Nat)) t
        (written.1.map some, written.2) := by
  simp only [Disk.writeNew, Disk.exists?, Functor.map, StateT.map, bind, StateT.bind, Disk.look]
  cases t.look (Path.ofString path) <;> rfl

/-- A text that is to replace no file replaces the one its path lands at without leading
    to it. -/
theorem get?_writeNew (path text : String) (hl : t.get? l = some (.file old)) :
    ((Disk.writeNew path text : StateM FileTree (Except FileError (Option Nat))) t).2.get? l =
      some (.file (if t.look (Path.ofString path) = none ∧ t.Lands path l then text.toUTF8 else old)) := by
  rw [writeNew_eq]
  cases hlook : t.look (Path.ofString path) with
  | some kind => simpa using hl
  | none => simpa using get?_writeText path text hl

end PhpScribe.FileTree
