/-
  PhpScribe.Proofs.Command.Keeping — the files that tasks not told to replace any leave alone.

  Actors: a tree, and tasks that may make files but are not to replace one: a file
  written unless something stands there, a class or a config file written without
  force, a class printed, a manifest checked (`Task`). A task either changes nothing or
  writes one text to one path, known from the tree before (`draft?`, `perform_eq`).

  Such a task looks at its path first and makes the directories on the way second. A
  path that leads out of a directory that is not there, by two dots, leads nowhere at
  first and to a file in the end; the file is replaced (`Replaces`,
  `performAll_keeps_fails`). That is all there is to it: through every run of tasks a
  file stays a file, and it keeps its bytes unless a task replaces it in that way
  (`performAll_keeps`). No path without two dots does (`not_replaces_of_plain`).
-/

import PhpScribe.Command.Run
import PhpScribe.Proofs.FileTree.Writing

namespace PhpScribe.Command

open FileTree (textAt readText_eq isDirectory_eq)

variable {t : FileTree} {l : Location} {old : ByteArray}

/-! ## Tasks -/

def manifestAt (t : FileTree) (path : String) : Except Manifest.Fault Manifest :=
  match textAt t path with
  | .ok text => Manifest.parse text path
  | .error _ => .error (.unreadable path)

theorem loadManifest_eq (path : String) (t : FileTree) :
    (Manifest.load path : StateM FileTree (Except Manifest.Fault Manifest)) t = (manifestAt t path, t) := by
  simp only [Manifest.load, manifestAt, bind, StateT.bind, readText_eq]
  cases textAt t path <;> rfl

inductive Task where
  /-- A file, unless something stands there. -/
  | write (path text : String)
  | generate (manifest : String) (output : Option String)
  /-- A class that is printed; force makes no difference. -/
  | dryRun (manifest : String) (output : Option String) (force : Bool)
  | init (file : String)
  | check (manifest : String)

namespace Task

/-- What a task leaves of a tree, whatever it reports. -/
def perform (t : FileTree) : Task → FileTree
  | .write path text => ((Disk.writeNew path text : StateM FileTree (Except FileError (Option Nat))) t).2
  | .generate manifest output => (((Command.generate manifest output false false).run : StateM FileTree Outcome) t).2
  | .dryRun manifest output force => (((Command.generate manifest output true force).run : StateM FileTree Outcome) t).2
  | .init file => (((Command.configInit file false).run : StateM FileTree Outcome) t).2
  | .check manifest => (((Command.check manifest).run : StateM FileTree Outcome) t).2

def performAll (t : FileTree) (tasks : List Task) : FileTree := tasks.foldl perform t

def draft? (t : FileTree) : Task → Option (String × String)
  | .write path text => some (path, text)
  | .generate manifest output =>
    match manifestAt t manifest with
    | .error _ => none
    | .ok d =>
      match d.unit.write with
      | .error _ => none
      | .ok text =>
        let isDirectory := output.any fun path => t.look (Path.ofString path) == some .directory
        some (target output isDirectory d.unit.name, text)
  | .init file => some (file, ConfigFile.skeleton.source)
  | .dryRun _ _ _ | .check _ => none

theorem save_eq (path text : String) (t : FileTree) :
    ((save false path text : StateM FileTree Outcome) t).2 =
      ((Disk.writeNew path text : StateM FileTree (Except FileError (Option Nat))) t).2 := by
  simp only [save, Bool.false_eq_true, if_false, bind, StateT.bind]
  rcases (Disk.writeNew path text : StateM FileTree (Except FileError (Option Nat))) t with ⟨result, u⟩
  match result with
  | .ok (some bytes) => rfl
  | .ok none => rfl
  | .error e => rfl

/-- A task writes its draft where nothing stands, and that is all it does. -/
theorem perform_eq (task : Task) (t : FileTree) :
    task.perform t =
      match task.draft? t with
      | some (path, text) => ((Disk.writeNew path text : StateM FileTree (Except FileError (Option Nat))) t).2
      | none => t := by
  cases task with
  | write path text => rfl
  | init file => exact save_eq file _ t
  | check manifest =>
    simp only [perform, draft?, Command.run, runCheck, bind, StateT.bind, loadManifest_eq]
    cases manifestAt t manifest <;> rfl
  | dryRun manifest output force =>
    simp only [perform, draft?, Command.run, runGenerate, bind, StateT.bind, loadManifest_eq]
    cases manifestAt t manifest with
    | error fault => rfl
    | ok d =>
      cases hd : d.unit.write with
      | error e =>
        simp only [hd]
        rfl
      | ok text =>
        simp only [hd, if_true]
        rfl
  | generate manifest output =>
    simp only [perform, draft?, Command.run, runGenerate, bind, StateT.bind, loadManifest_eq]
    cases manifestAt t manifest with
    | error fault => rfl
    | ok d =>
      cases hd : d.unit.write with
      | error e =>
        simp only [hd]
        rfl
      | ok text =>
        simp only [hd, Bool.false_eq_true, if_false, ← save_eq]
        cases output with
        | none => rfl
        | some path =>
          simp only [StateT.bind, isDirectory_eq, Option.any_some]
          rfl

/-! ## What becomes of a file -/

/-- The path of the draft leads to nothing, but to the file at a place once the directories
    on its way are made. -/
def Replaces (task : Task) (t : FileTree) (l : Location) : Prop :=
  ∃ draft ∈ task.draft? t, t.look (Path.ofString draft.1) = none ∧ t.Lands draft.1 l

instance (task : Task) : Decidable (task.Replaces t l) := inferInstanceAs (Decidable (∃ draft ∈ task.draft? t, _))

def left (task : Task) (t : FileTree) (l : Location) (old : ByteArray) : ByteArray :=
  match task.draft? t with
  | some (path, text) =>
    if t.look (Path.ofString path) = none ∧ t.Lands path l then text.toUTF8 else old
  | none => old

theorem left_of_not_replaces {task : Task} (h : ¬task.Replaces t l) : task.left t l old = old := by
  unfold left
  split
  · next path text hdraft => exact if_neg fun hl => h ⟨(path, text), hdraft, hl⟩
  · rfl

/-- A file stays a file, and only one that the path of the draft lands at is changed. -/
theorem get?_perform (task : Task) (hl : t.get? l = some (.file old)) :
    (task.perform t).get? l = some (.file (task.left t l old)) := by
  rw [perform_eq, left]
  split
  · next path text hdraft => exact FileTree.get?_writeNew path text hl
  · exact hl

/-- A path without two dots replaces no file. -/
theorem not_replaces_of_plain {task : Task} {path text : String} (hdraft : task.draft? t = some (path, text))
    (hplain : ∀ s ∈ (Path.ofString path).steps, s.name ≠ "..") (hl : t.get? l = some (.file old)) :
    ¬task.Replaces t l := by
  rintro ⟨draft, hmem, hlook, hlands⟩
  obtain rfl : (path, text) = draft := Option.some.inj (hdraft.symm.trans hmem)
  rw [FileTree.look, hlands.find hl hplain] at hlook
  cases hlook

/-- No task of a list replaces the file at a place, in the tree it meets. -/
def Spares (l : Location) : FileTree → List Task → Prop
  | _, [] => True
  | t, task :: tasks => ¬task.Replaces t l ∧ Spares l (task.perform t) tasks

instance decidableSpares (l : Location) : (t : FileTree) → (tasks : List Task) → Decidable (Spares l t tasks)
  | _, [] => isTrue trivial
  | t, task :: tasks =>
    have := decidableSpares l (task.perform t) tasks
    inferInstanceAs (Decidable (¬task.Replaces t l ∧ Spares l (task.perform t) tasks))

theorem get?_performAll (tasks : List Task) (hl : t.get? l = some (.file old)) :
    ∃ content, (performAll t tasks).get? l = some (.file content) ∧ (Spares l t tasks → content = old) := by
  induction tasks generalizing t old with
  | nil => exact ⟨old, hl, fun _ => rfl⟩
  | cons task tasks ih =>
    obtain ⟨content, hcontent, hkept⟩ := ih (get?_perform task hl)
    refine ⟨content, hcontent, fun h => ?_⟩
    rw [hkept h.2, left_of_not_replaces h.1]

/-- Through every run of tasks, and from every moment of it on, a file stays a file; it
    keeps its bytes as long as no task has a path that leads to nothing and lands there. -/
theorem performAll_keeps (before after : List Task) (t : FileTree)
    (hl : (performAll t before).get? l = some (.file old)) :
    (∃ content, (performAll t (before ++ after)).get? l = some (.file content)) ∧
      (Spares l (performAll t before) after → (performAll t (before ++ after)).get? l = some (.file old)) := by
  have hrun : performAll t (before ++ after) = performAll (performAll t before) after := List.foldl_append
  obtain ⟨content, hcontent, hkept⟩ := get?_performAll after hl
  rw [hrun]
  exact ⟨⟨content, hcontent⟩, fun h => hkept h ▸ hcontent⟩

/-- A config file that is left alone by a path that leads to it and back again, and by a
    path into a directory that is new. -/
theorem performAll_keeps_config :
    let t := FileTree.empty.put ["src"] .directory
    let after := [Task.write "src/../conf.php" "fresh", .init "new/conf.php"]
    let config := some (Entry.file ConfigFile.skeleton.source.toUTF8)
    (performAll t [.init "conf.php"]).get? ["conf.php"] = config ∧
      Spares ["conf.php"] (performAll t [.init "conf.php"]) after ∧
      (performAll t ([.init "conf.php"] ++ after)).get? ["conf.php"] = config := by
  intro t after config
  have hl : (performAll t [.init "conf.php"]).get? ["conf.php"] = config := by decide +kernel
  have hspares : Spares ["conf.php"] (performAll t [.init "conf.php"]) after := by decide +kernel
  exact ⟨hl, hspares, (performAll_keeps _ after t hl).2 hspares⟩

/-- A path that leads out of a directory that is not there. -/
theorem performAll_keeps_fails :
    let t := (FileTree.empty.put ["conf.php"] (.file "old".toUTF8)).put ["class.toml"]
      (.file "[class]\nname = \"User\"\n".toUTF8)
    t.get? ["conf.php"] = some (.file "old".toUTF8) ∧
      (performAll t [.write "new/../conf.php" "fresh"]).get? ["conf.php"] = some (.file "fresh".toUTF8) ∧
      (performAll t [.init "new/../conf.php"]).get? ["conf.php"] =
        some (.file ConfigFile.skeleton.source.toUTF8) ∧
      (performAll t [.generate "class.toml" (some "new/../conf.php")]).get? ["conf.php"] ≠
        some (.file "old".toUTF8) := by
  decide +kernel

end Task

end PhpScribe.Command
