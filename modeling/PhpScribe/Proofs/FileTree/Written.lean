/-
  PhpScribe.Proofs.FileTree.Written — where a text that has been written is found.

  When a text is reported as written, its path leads to a file with that text from then on,
  wherever it led before, and nothing else has happened but that directories were made where
  nothing was (`Written`, `writeText_ok`). The walk that led to the place leads there again,
  for a file that is put at its end is on the way of no walk that got there (`follow_filled`).

  The place itself is told by the last step: a path that ends with a name behind the steps to a
  directory is written in that directory, under that name (`Written.inside`). A name that is put
  behind the text of a path and a slash is such a last step (`Path.steps_slash`).
-/

import PhpScribe.Proofs.FileTree.Writing

namespace PhpScribe

/-! ## A name behind the steps of a path -/

namespace Path

variable {name : String}

theorem stepsFrom_append (start : Nat) (ps qs : List (List Char)) :
    ∃ stop, stepsFrom start (ps ++ qs) = stepsFrom start ps ++ stepsFrom stop qs := by
  induction ps generalizing start with
  | nil => exact ⟨start, rfl⟩
  | cons p ps ih =>
    obtain ⟨stop, h⟩ := ih (start + p.length + 1)
    refine ⟨stop, ?_⟩
    rw [List.cons_append, stepsFrom, stepsFrom, h]
    split <;> rfl

structure IsName (name : String) : Prop where
  noSlash : '/' ∉ name.toList
  notIdle : isIdle name.toList = false
  notBack : name ≠ ".."

theorem IsName.stepsFrom (h : IsName name) (start : Nat) :
    stepsFrom start [name.toList] = [⟨name, start + name.toList.length⟩] := by
  simp [Path.stepsFrom, h.notIdle]

theorem IsName.steps (h : IsName name) : ∃ step, step.name = name ∧ (ofString name).steps = [step] := by
  refine ⟨⟨name, 0 + name.toList.length⟩, rfl, ?_⟩
  show Path.stepsFrom 0 (Text.parts '/' name.toList) = _
  rw [Text.parts_of_notMem h.noSlash, h.stepsFrom]

/-- A name behind a slash is one more step. -/
theorem steps_slash (h : IsName name) (dir : String) :
    ∃ step, step.name = name ∧ (ofString (dir ++ "/" ++ name)).steps = (ofString dir).steps ++ [step] := by
  have htext : (dir ++ "/" ++ name).toList = dir.toList ++ '/' :: name.toList := by simp
  obtain ⟨stop, hsteps⟩ := stepsFrom_append 0 (Text.parts '/' dir.toList) [name.toList]
  refine ⟨⟨name, stop + name.toList.length⟩, rfl, ?_⟩
  show stepsFrom 0 (Text.parts '/' (dir ++ "/" ++ name).toList) = _
  rw [htext, Text.parts_append, Text.parts_of_notMem h.noSlash, hsteps, h.stepsFrom]
  rfl

/-- A slash at the end of a path is no step. -/
theorem steps_slash_end (dir : String) : (ofString (dir ++ "/")).steps = (ofString dir).steps := by
  have htext : (dir ++ "/").toList = dir.toList ++ ['/'] := by simp
  obtain ⟨stop, hsteps⟩ := stepsFrom_append 0 (Text.parts '/' dir.toList) [[]]
  show stepsFrom 0 (Text.parts '/' (dir ++ "/").toList) = _
  rw [htext, Text.parts_append]
  refine hsteps.trans ?_
  exact List.append_nil _

end Path

namespace FileTree

variable {t v : FileTree} {place l k : Location} {p : Path} {path text : String} {content : ByteArray} {found : Found}
  {step : Path.Step} {front steps : List Path.Step}

/-! ## Walking to a place that was filled -/

/-- What is found where a free place or a file was found, once a file is put there. -/
def Found.filled (content : ByteArray) : Found → Found
  | .free l | .file l _ => .file l content
  | found => found

theorem advance_of_directory (ht : t.get? place = some .directory) (hv : v.get? place = some .directory)
    (step : Path.Step) : v.advance place step = t.advance place step := by
  simp [advance, isPassable_of_directory ht, isPassable_of_directory hv]

/-- The walk to a place leads there again when the directories are still there. -/
theorem follow_filled (hdirectory : ∀ k, t.get? k = some .directory → v.get? k = some .directory)
    (hplace : t.get? place = some .directory) (hend : (t.follow place steps).place? = some l)
    (hholds : ((t.follow place steps).filled content).Holds v) :
    v.follow place steps = (t.follow place steps).filled content := by
  induction steps generalizing place with
  | nil => rfl
  | cons step rest ih =>
    rw [follow_cons hplace] at hend hholds ⊢
    rw [follow_cons (hdirectory place hplace), advance_of_directory hplace (hdirectory place hplace)]
    cases hon : t.advance place step with
    | none => rfl
    | some on =>
      simp only [hon] at hend hholds ⊢
      cases he : t.get? on with
      | none =>
        cases rest with
        | nil =>
          have hv : v.get? on = some (.file content) := by simpa [he, Found.filled, Found.Holds] using hholds
          simp [hv, Found.filled]
        | cons next rest => simp [he, Found.place?] at hend
      | some e =>
        cases e with
        | directory =>
          simp only [he, hdirectory on he] at hend hholds ⊢
          exact ih he hend hholds
        | file old =>
          cases rest with
          | nil =>
            have hv : v.get? on = some (.file content) := by simpa [he, Found.filled, Found.Holds] using hholds
            simp [hv, Found.filled]
          | cons next rest => simp [he, Found.place?] at hend

/-! ## Writing -/

/-- Where a path ends is what its steps lead to. -/
theorem follow_of_find (hfound : (t.find p).place? = some l) :
    isRefused p.text = false ∧ p.text ≠ "" ∧ t.follow [] p.steps = t.find p := by
  unfold find at hfound ⊢
  rw [walk_eq_follow] at hfound ⊢
  by_cases hrefused : isRefused p.text = true
  · simp [hrefused, Found.place?] at hfound
  · by_cases hempty : p.text = ""
    · rw [hempty] at hrefused hfound
      simp [hrefused, Found.place?] at hfound
    · cases hfollow : t.follow [] p.steps with
      | file k old => cases hdir : p.asDirectory <;> simp_all [Found.place?]
      | _ => simp [hrefused, hempty]

structure Written (t v : FileTree) (path : String) (l : Location) (text : String) : Prop where
  found : v.find (Path.ofString path) = .file l text.toUTF8
  before : t.get? l ≠ some .directory
  elsewhere : ∀ k ≠ l, v.get? k = t.get? k ∨ t.get? k = none ∧ v.get? k = some .directory

theorem Written.directory (h : Written t v path l text) (hk : t.get? k = some .directory) :
    v.get? k = some .directory := by
  have hne : k ≠ l := by
    rintro rfl
    exact h.before hk
  rcases h.elsewhere k hne with he | ⟨-, hd⟩
  · rw [he, hk]
  · exact hd

/-- A name behind the steps to a directory is written in that directory. -/
theorem Written.inside (h : Written t v path l text) (hsteps : (Path.ofString path).steps = front ++ [step])
    (hback : step.name ≠ "..") (hfront : t.follow [] front = .directory k) : l = k ++ [step.name] := by
  have hk : (Found.directory k).Holds t := hfront ▸ follow_holds t.get?_root front
  have hfront' : v.follow [] front = .directory k := by
    have hends : (t.follow [] front).place? = some k := by rw [hfront]; rfl
    have hholds : ((t.follow [] front).filled text.toUTF8).Holds v := by rw [hfront]; exact h.directory hk
    rw [follow_filled (fun _ => h.directory) t.get?_root hends hholds, hfront]
    rfl
  have hfile := (find_eq_file.1 h.found).2.2.2
  rw [hsteps, follow_concat, hfront'] at hfile
  -- the last step leads from the directory to the file
  change v.follow k [step] = _ at hfile
  rw [follow_cons (h.directory hk)] at hfile
  cases hon : v.advance k step with
  | none => simp [hon] at hfile
  | some on =>
    obtain ⟨-, ⟨hup, -⟩ | ⟨-, -, rfl⟩⟩ := advance_cases hon
    · exact absurd hup hback
    · rcases he : v.get? (k ++ [step.name]) with _ | _ | old
      · simp [hon, he] at hfile
      · simp [hon, he, follow] at hfile
      · simp only [hon, he, List.isEmpty_nil, if_true, Found.file.injEq] at hfile
        exact hfile.1.symm

/-- A file can be stored where a path ends at a file, or at a free place in a directory. -/
theorem store_ok (h : t.store p content = (true, v)) :
    p.asDirectory = false ∧ ∃ l, v = t.put l (.file content) ∧ (t.find p).place? = some l ∧
      (t.find p).filled content = .file l content ∧ t.get? l ≠ some .directory ∧
        t.get? l.dropLast = some .directory := by
  have hholds := t.find_holds p
  unfold store at h
  split at h
  · next l hfree =>
    rw [hfree] at hholds
    split at h
    · cases h
    · next hdir =>
      cases h
      exact ⟨by simpa using hdir, l, rfl, by rw [hfree]; rfl, by rw [hfree]; rfl, by simp [hholds.1], hholds.2⟩
  · next l old hfile =>
    have hl : t.get? l = some (.file old) := by rwa [hfile] at hholds
    cases h
    exact ⟨(find_eq_file.1 hfile).2.2.1, l, rfl, by rw [hfile]; rfl, by rw [hfile]; rfl, by simp [hl], get?_dropLast hl⟩
  · cases h

/-- A file that is stored is found, and nothing but it is changed. -/
theorem written_of_store {u : FileTree} (hgrown : t.Grown u)
    (h : u.store (Path.ofString path) text.toUTF8 = (true, v)) : ∃ l, Written t v path l text := by
  obtain ⟨hdir, l, rfl, hplace, hfilled, hl, habove⟩ := store_ok h
  obtain ⟨hrefused, hpath, hfollow⟩ := follow_of_find hplace
  have hne : l ≠ [] := by
    rintro rfl
    exact hl u.get?_root
  have hself := get?_put_self hne (.file text.toUTF8) u
  have hother {k : Location} (hk : k ≠ l) := get?_put_of_ne hk (.file text.toUTF8) hl habove
  have hdirectory (k : Location) (hk : u.get? k = some .directory) :
      (u.put l (.file text.toUTF8)).get? k = some .directory := by
    have hkl : k ≠ l := by
      rintro rfl
      exact hl hk
    rw [hother hkl, hk]
  refine ⟨l, ?_, fun ht => hl (hgrown.directory ht), fun k hk => ?_⟩
  · refine find_eq_file.2 ⟨hrefused, hpath, hdir, ?_⟩
    rw [← hfilled, ← hfollow]
    apply follow_filled hdirectory u.get?_root
    · rw [hfollow, hplace]
    · rw [hfollow, hfilled]
      exact hself
  · rw [hother hk]
    exact hgrown k

/-- What is reported as written has been written. -/
theorem writeText_ok {n : Nat}
    (h : (Disk.writeText path text : StateM FileTree (Except FileError Nat)) t = (.ok n, v)) :
    n = text.utf8ByteSize ∧ ∃ l, Written t v path l text := by
  have hgrown : t.Grown ((Disk.makeAll (Path.ofString path).parent : StateM FileTree Bool) t).2 :=
    makeSteps_grown _ _ t
  rw [writeText_eq] at h
  rcases hmade : (Disk.makeAll (Path.ofString path).parent : StateM FileTree Bool) t with ⟨made, u⟩
  rw [hmade] at h hgrown
  cases made with
  | false => cases h
  | true =>
    rcases hstored : u.store (Path.ofString path) text.toUTF8 with ⟨stored, w⟩
    simp only [hstored] at h
    cases stored with
    | false => cases h
    | true =>
      cases h
      exact ⟨rfl, written_of_store hgrown hstored⟩

end FileTree

end PhpScribe
