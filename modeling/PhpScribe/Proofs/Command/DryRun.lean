/-
  PhpScribe.Proofs.Command.DryRun — a dry run shows what a run writes.

  A run that generates a class goes from the manifest to the text of the class, and parts there:
  a dry run prints the text, a real one writes it to a file unless it leaves the file that is
  there as it is (`runGenerate_eq`). Whatever fails in front of that point fails in both.

  A dry run touches nothing, and succeeds exactly when the manifest can be read, is a manifest
  and describes a class that can be written (`Renders`). When a real run reports a file, the
  report says for sure which one (`written_inj`), that file holds the text the dry run prints,
  and it is where it was asked for: the output path, or in the directory of that path under
  the name of the class (`Placed`, `dry_run_shows`).
-/

import PhpScribe.Proofs.Command.Keeping
import PhpScribe.Proofs.FileTree.Written

namespace PhpScribe.Command

open FileTree (Written)

variable {t v : FileTree} {manifest path name : String} {l : Location} {output : Option String} {u : ClassUnit}

/-! ## Reports -/

/-- Digits in front of what is no digit are told from what follows them. -/
theorem digits_inj {a b r s : List Char} {c : Char} (ha : ∀ d ∈ a, d.isDigit = true)
    (hb : ∀ d ∈ b, d.isDigit = true) (hc : c.isDigit = false) (h : a ++ c :: r = b ++ c :: s) : a = b ∧ r = s := by
  have htake {x y : List Char} (hx : ∀ d ∈ x, d.isDigit = true) : (x ++ c :: y).takeWhile (·.isDigit) = x := by
    rw [List.takeWhile_append_of_pos hx, List.takeWhile_cons_of_neg (by simp [hc]), List.append_nil]
  have hab : a = b := by rw [← htake (y := r) ha, h, htake hb]
  subst hab
  exact ⟨rfl, (List.cons.inj (List.append_cancel_left h)).2⟩

/-- A report tells the path and the number of bytes. -/
theorem written_inj {m n : Nat} {path path' : String} (h : written path m = written path' n) :
    path = path' ∧ m = n := by
  have hdigits (k : Nat) : ∀ d ∈ (Nat.toDigits 10 k).reverse, d.isDigit = true := fun d hd =>
    Nat.isDigit_of_mem_toDigits (by decide) (by decide) (List.mem_reverse.1 hd)
  have hlist (path : String) (k : Nat) : (written path k).toList =
      "✓ ".toList ++ ((path.toList ++ [' ', '('] ++ Nat.toDigits 10 k) ++ " bytes)\n".toList) := by
    simp [written, Nat.repr]
  have hcore : path.toList ++ [' ', '('] ++ Nat.toDigits 10 m = path'.toList ++ [' ', '('] ++ Nat.toDigits 10 n := by
    have htext := congrArg String.toList h
    rw [hlist, hlist] at htext
    exact List.append_cancel_right (List.append_cancel_left htext)
  -- read from the end, the number stands in front of the bracket
  have hback := congrArg List.reverse hcore
  simp only [List.reverse_append, List.reverse_cons, List.reverse_nil, List.nil_append, List.cons_append] at hback
  obtain ⟨hnumber, hpath⟩ := digits_inj (hdigits m) (hdigits n) (by decide) hback
  refine ⟨String.toList_injective (List.reverse_inj.1 (List.cons.inj hpath).2), ?_⟩
  rw [← Nat.ofDigitChars_ten_toDigits (n := m), List.reverse_inj.1 hnumber, Nat.ofDigitChars_ten_toDigits]

theorem written_ne_skipped (path path' : String) (n : Nat) : written path n ≠ skipped path' := by
  intro h
  have hhead := congrArg (fun s : String => s.toList.head?) h
  simp [written, skipped] at hhead

/-! ## Up to the text -/

/-- The file of the manifest can be read as text, the text is a manifest, and the class it
    describes is generated. -/
def Renders (t : FileTree) (manifest : String) (u : ClassUnit) : Prop :=
  ∃ content source d, t.load (Path.ofString manifest) = some content ∧ String.fromUTF8? content = some source ∧
    Manifest.parse source manifest = .ok d ∧ d.unit.generate = .ok u

def generatedAt (t : FileTree) (manifest : String) : Except String ClassUnit :=
  match manifestAt t manifest with
  | .error f => .error f.message
  | .ok d =>
    match d.unit.generate with
    | .error e => .error e.message
    | .ok u => .ok u

theorem manifestAt_eq_ok {d : Manifest} : manifestAt t manifest = .ok d ↔
    ∃ content source, t.load (Path.ofString manifest) = some content ∧ String.fromUTF8? content = some source ∧
      Manifest.parse source manifest = .ok d := by
  unfold manifestAt FileTree.textAt
  constructor
  · intro h
    cases hsource : (t.load (Path.ofString manifest)).bind String.fromUTF8? with
    | none => simp [hsource] at h
    | some source =>
      obtain ⟨content, hload, hdecoded⟩ := Option.bind_eq_some_iff.1 hsource
      exact ⟨content, source, hload, hdecoded, by simpa [hsource] using h⟩
  · rintro ⟨content, source, hload, hdecoded, hparse⟩
    simpa [hload, hdecoded] using hparse

theorem generatedAt_eq_ok : generatedAt t manifest = .ok u ↔ Renders t manifest u := by
  constructor
  · intro h
    unfold generatedAt at h
    cases hmanifest : manifestAt t manifest with
    | error f => simp [hmanifest] at h
    | ok d =>
      obtain ⟨content, source, hload, hsource, hparse⟩ := manifestAt_eq_ok.1 hmanifest
      cases hgenerate : d.unit.generate with
      | error e => simp [hmanifest, hgenerate] at h
      | ok w =>
        simp only [hmanifest, hgenerate, Except.ok.injEq] at h
        exact ⟨content, source, d, hload, hsource, hparse, h ▸ hgenerate⟩
  · rintro ⟨content, source, d, hload, hsource, hparse, hgenerate⟩
    simp only [generatedAt, manifestAt_eq_ok.2 ⟨content, source, hload, hsource, hparse⟩, hgenerate]

def destination (t : FileTree) (output : Option String) (name : String) : String :=
  target output (output.any fun path => t.look (Path.ofString path) == some .directory) name

theorem runGenerate_eq (t : FileTree) (manifest : String) (output : Option String) (dryRun force : Bool) :
    ((Command.generate manifest output dryRun force).run : StateM FileTree Outcome) t =
      match generatedAt t manifest with
      | .error message => (.failed message, t)
      | .ok u =>
        if dryRun then (.done u.text, t)
        else (save force (destination t output u.name) u.text : StateM FileTree Outcome) t := by
  simp only [Command.run, runGenerate, bind, StateT.bind, loadManifest_eq, generatedAt]
  cases manifestAt t manifest with
  | error f => rfl
  | ok d =>
    simp only [ClassUnit.generate]
    cases hd : d.unit.write with
    | error e => rfl
    | ok text =>
      cases dryRun with
      | true => rfl
      | false =>
        cases output with
        | none => rfl
        | some path => rfl

/-! ## The file -/

theorem save_run (force : Bool) (path text : String) (t : FileTree) :
    (save force path text : StateM FileTree Outcome) t =
      if !force && (t.look (Path.ofString path)).isSome then (.done (skipped path), t)
      else
        match (Disk.writeText path text : StateM FileTree (Except FileError Nat)) t with
        | (.ok bytes, u) => (.done (written path bytes), u)
        | (.error e, u) => (.failed e.message, u) := by
  cases force with
  | true =>
    simp only [save, if_true, bind, StateT.bind]
    rcases (Disk.writeText path text : StateM FileTree (Except FileError Nat)) t with ⟨_ | _, u⟩ <;> rfl
  | false =>
    simp only [save, Bool.false_eq_true, if_false, bind, StateT.bind, FileTree.writeNew_eq]
    cases t.look (Path.ofString path) with
    | some kind => rfl
    | none => rcases (Disk.writeText path text : StateM FileTree (Except FileError Nat)) t with ⟨_ | _, u⟩ <;> rfl

/-- What is reported as written has been written, and the report is about it. -/
theorem save_written {force : Bool} {text path' : String} {bytes : Nat}
    (h : (save force path text : StateM FileTree Outcome) t = (.done (written path' bytes), v)) :
    path' = path ∧ bytes = text.utf8ByteSize ∧ ∃ l, Written t v path l text := by
  rw [save_run] at h
  split at h
  · exact absurd (congrArg (·.1.out) h).symm (written_ne_skipped path' path bytes)
  · split at h
    · next n u hwrite =>
      obtain ⟨hout, rfl⟩ := Prod.mk.inj h
      obtain ⟨rfl, rfl⟩ := written_inj (congrArg Outcome.out hout)
      exact ⟨rfl, FileTree.writeText_ok hwrite⟩
    · exact nomatch congrArg (·.1.exit) h

theorem isName_php (h : '/' ∉ name.toList) : Path.IsName (name ++ ".php") where
  noSlash := by simpa using h
  notIdle := by
    have hlength : (name ++ ".php").toList.length ≠ 0 ∧ (name ++ ".php").toList.length ≠ 1 := by simp
    rw [Path.isIdle, Bool.or_eq_false_iff]
    refine ⟨?_, ?_⟩
    · rw [List.isEmpty_eq_false_iff]
      exact fun he => hlength.1 (by rw [he]; rfl)
    · rw [beq_eq_false_iff_ne]
      exact fun he => hlength.2 (by rw [he]; rfl)
  notBack := by
    intro he
    have hlast := congrArg (fun s : String => s.toList.getLast?) he
    simp at hlast

/-- In a directory the file is one step behind it. -/
theorem steps_target (h : '/' ∉ name.toList) (dir : String) : ∃ step, step.name = name ++ ".php" ∧
    (Path.ofString (target (some dir) true name)).steps = (Path.ofString dir).steps ++ [step] := by
  have hhead : (name ++ ".php").toList.head? ≠ some '/' := fun he =>
    (isName_php h).noSlash (List.mem_of_head? he)
  simp only [target, Bool.not_true, Bool.false_eq_true, if_false, beq_iff_eq, hhead]
  split
  · next hslash =>
    -- a slash at the end of the path is the slash between
    obtain ⟨front, hfront⟩ := List.getLast?_eq_some_iff.1 hslash
    obtain rfl : dir = String.ofList front ++ "/" := String.toList_injective (by simp [hfront])
    rw [Path.steps_slash_end]
    exact Path.steps_slash (isName_php h) _
  · exact Path.steps_slash (isName_php h) dir

/-- Where the file of a class is asked for, if the name of the class is no path. -/
def Placed (t : FileTree) (name path : String) (l : Location) : Option String → Prop
  | none => path = name ++ ".php" ∧ l = [name ++ ".php"]
  | some dir =>
    (∀ k, t.find (Path.ofString dir) = .directory k → l = k ++ [name ++ ".php"]) ∧
      (t.look (Path.ofString dir) ≠ some .directory → path = dir)

theorem placed_of_written {text : String} (h : '/' ∉ name.toList) (output : Option String)
    (hwritten : Written t v (destination t output name) l text) :
    Placed t name (destination t output name) l output := by
  have hback {step : Path.Step} (hstep : step.name = name ++ ".php") : step.name ≠ ".." :=
    hstep ▸ (isName_php h).notBack
  cases output with
  | none =>
    obtain ⟨step, hstep, hsteps⟩ := (isName_php h).steps
    have hroot : t.follow [] [] = .directory [] := rfl
    have hl : l = [] ++ [step.name] := hwritten.inside (hsteps.trans (List.nil_append _).symm) (hback hstep) hroot
    exact ⟨rfl, by rw [hl, hstep, List.nil_append]⟩
  | some dir =>
    refine ⟨fun k hk => ?_, fun hlook => ?_⟩
    · have hlook : t.look (Path.ofString dir) = some .directory := by simp [FileTree.look, hk]
      obtain ⟨step, hstep, hsteps⟩ := steps_target h dir
      obtain ⟨-, -, hfollow⟩ := FileTree.follow_of_find (t := t) (p := Path.ofString dir) (by rw [hk]; rfl)
      rw [destination, Option.any_some, hlook] at hwritten
      exact hstep ▸ hwritten.inside hsteps (hback hstep) (hfollow.trans hk)
    · simp [destination, target, hlook]

/-! ## Dry and real -/

/-- A dry run and a real run of one manifest on one tree: the dry one touches nothing and
    succeeds exactly when there is a class to print, which it does. What fails dry fails in
    the same way for real. A file that is reported for real holds the text that is printed dry,
    of as many bytes as reported, at the place that was asked for, and no other file of the tree
    is changed. -/
theorem dry_run_shows (t : FileTree) (manifest : String) (output : Option String) (force : Bool) :
    let dry := ((Command.generate manifest output true force).run : StateM FileTree Outcome) t
    let real := ((Command.generate manifest output false force).run : StateM FileTree Outcome) t
    dry.2 = t ∧
      (dry.1.exit = 0 ↔ ∃ u, Renders t manifest u) ∧
      (∀ u, Renders t manifest u → dry.1 = .done u.text) ∧
      (dry.1.exit ≠ 0 → real = dry) ∧
      ∀ path bytes, real.1 = .done (written path bytes) →
        dry.1.exit = 0 ∧ ∃ u l, Renders t manifest u ∧ Written t real.2 path l dry.1.out ∧
          bytes = dry.1.out.toUTF8.size ∧ ('/' ∉ u.name.toList → Placed t u.name path l output) := by
  simp only [runGenerate_eq]
  cases hgenerated : generatedAt t manifest with
  | error message =>
    have hnone (u : ClassUnit) : ¬Renders t manifest u := fun hu =>
      nomatch hgenerated.symm.trans (generatedAt_eq_ok.2 hu)
    refine ⟨rfl, ⟨nofun, fun ⟨u, hu⟩ => absurd hu (hnone u)⟩, fun u hu => absurd hu (hnone u), fun _ => rfl, ?_⟩
    intro path bytes hdone
    exact nomatch congrArg Outcome.exit hdone
  | ok u =>
    have hu : Renders t manifest u := generatedAt_eq_ok.1 hgenerated
    refine ⟨rfl, ⟨fun _ => ⟨u, hu⟩, fun _ => rfl⟩, fun w hw => ?_, fun hexit => absurd rfl hexit, ?_⟩
    · cases hgenerated.symm.trans (generatedAt_eq_ok.2 hw)
      rfl
    · intro path bytes hdone
      obtain ⟨rfl, rfl, l, hwritten⟩ := save_written (Prod.ext hdone rfl)
      exact ⟨rfl, u, l, hu, hwritten, rfl, fun h => placed_of_written h output hwritten⟩

/-- A class for a directory that is there. -/
theorem dry_run_shows_in_directory :
    let t := (FileTree.empty.put ["class.toml"] (.file "[class]\nname = \"User\"\n".toUTF8)).put ["src"] .directory
    let dry := ((Command.generate "class.toml" (some "src") true false).run : StateM FileTree Outcome) t
    let real := ((Command.generate "class.toml" (some "src") false false).run : StateM FileTree Outcome) t
    real.1 = .done (written "src/User.php" 48) ∧ dry.1.exit = 0 ∧
      Written t real.2 "src/User.php" ["src", "User.php"] dry.1.out ∧ 48 = dry.1.out.toUTF8.size := by
  intro t dry real
  have hreported : real.1 = .done (written "src/User.php" 48) := by decide +kernel
  have hname : (generatedAt t "class.toml").toOption.map (·.name) = some "User" := by decide +kernel
  have hdirectory : t.find (Path.ofString "src") = .directory ["src"] := by rfl
  obtain ⟨-, -, -, -, hreal⟩ := dry_run_shows t "class.toml" (some "src") false
  obtain ⟨hexit, u, l, hu, hwritten, hbytes, hplaced⟩ := hreal "src/User.php" 48 hreported
  rw [generatedAt_eq_ok.2 hu] at hname
  have huser : u.name = "User" := Option.some.inj hname
  rw [huser] at hplaced
  obtain rfl : l = ["src", "User.php"] := (hplaced (by decide)).1 ["src"] hdirectory
  exact ⟨hreported, hexit, hwritten, hbytes⟩

end PhpScribe.Command
