/-
  PhpScribe.Proofs.Command.Adding — a section is added to a file, or nothing happens.

  What can go wrong with an addition goes wrong before the file is written: the JSON, its
  numbers, the file, the name, the bracket. And the file that has been read can be
  written, without a directory on the way to make. So an addition that fails leaves the
  tree as it is, and one that succeeds changes exactly the file, to the text that adding
  the section to its old text gives (`runAdd_spec`, `answer_add`). It does change it, for
  its entry is not white space (`addSection_ne`).
-/

import PhpScribe.Command.Run
import PhpScribe.Proofs.ConfigFile.Answers
import PhpScribe.Proofs.FileTree.Writing
import PhpScribe.Proofs.Outcome

namespace PhpScribe

/-! ## What adding a section puts in -/

namespace ConfigFile

/-- Adding a section adds something that is not white space. -/
theorem addSection_ne {f new : ConfigFile} {name : String} {v : Value} (h : f.addSection name v = .ok new) :
    new.source ≠ f.source := by
  obtain ⟨-, cut, s, -, hnew⟩ := addSection_eq_ok.1 h
  intro hsame
  have hblanks : cut.blanks.countP (!Text.isBlank ·) = 0 :=
    List.countP_eq_zero.2 fun c hc => by simp [cut.blank c hc]
  -- the quotes of the name are not white space
  have hquote : 0 < (Literal.quote name).toList.countP (!Text.isBlank ·) :=
    List.countP_pos_iff.2 ⟨'\'', by simp [Literal.quoteChars], by decide⟩
  rw [hsame] at hnew
  have hcount := congrArg (List.countP (!Text.isBlank ·)) (cut.source_eq.trans hnew)
  simp only [Cut.insert, String.toList_append, List.countP_append, List.countP_cons] at hcount
  omega

end ConfigFile

namespace Command

open FileTree (textAt readText_eq)

variable {t u : FileTree} {l : Location} {file name json old : String}

/-! ## Operands -/

/-- Arguments that are all operands: each starts without a hyphen or is nothing but one, or
    `--` stands in front. -/
inductive Operands : List String → List String → Prop
  | nil : Operands [] []
  | plain {a : String} {args operands : List String} (h : a.toList = ['-'] ∨ a.toList.head? ≠ some '-')
      (rest : Operands args operands) : Operands (a :: args) (a :: operands)
  | behindEnd (operands : List String) : Operands ("--" :: operands) operands

theorem ofString_plain {a : String} (h : a.toList = ['-'] ∨ a.toList.head? ≠ some '-') :
    Form.ofString a = .plain := by
  unfold Form.ofString
  rcases h with h | h
  · rw [h]
    rfl
  · split
    · next hs => simp [hs] at h
    · next hs => simp [hs] at h
    · next hs => simp [hs] at h
    · rfl

theorem readLevel_operands {args operands : List String} (h : Operands args operands) {level : Level}
    (hlevel : level.isGroup = false) (g : Given) : readLevel level g args = readOperands level g operands := by
  induction h generalizing g with
  | nil => rfl
  | plain h rest ih =>
    unfold readLevel readOperands
    simp only [ofString_plain h, hlevel, Bool.false_eq_true, if_false]
    exact congrArg _ (funext ih)
  | behindEnd operands => rfl

theorem read_add {args : List String} (h : Operands args [file, name, json]) :
    read ("config" :: "add" :: args) =
      if file.isEmpty then .error (.invalid file) else .ok (.run false (.configAdd file name json)) := by
  show (readLevel (leafLevel [] [.path, .text, .text]) .nothing args).bind _ = _
  rw [readLevel_operands h rfl]
  by_cases hfile : file.isEmpty = true
  · simp [readOperands, Given.addOperand, Given.nothing, leafLevel, Operand.accepts, hfile, Except.bind]
  · simp [readOperands, Given.addOperand, Given.nothing, leafLevel, Operand.accepts, hfile, Except.bind,
      Given.has, Given.value?]

/-! ## Adding -/

/-- The value that a JSON text stands for is added to a text as a section. -/
def Adds (name json old : String) (new : ConfigFile) : Prop :=
  ∃ doc value, Json.parse? json = some doc ∧ Value.ofJson doc = .ok value ∧
    ConfigFile.addSection ⟨old⟩ name value = .ok new

/-- The path leads to a file with a text, and the section can be added to that. -/
def Addable (t : FileTree) (file name json : String) : Prop :=
  ∃ l old new, t.find (Path.ofString file) = .file l old.toUTF8 ∧ Adds name json old new

structure Addition (t u : FileTree) (file name json : String) (l : Location) (old : String)
    (new : ConfigFile) : Prop where
  found : t.find (Path.ofString file) = .file l old.toUTF8
  added : Adds name json old new
  changed : new.source.toUTF8 ≠ old.toUTF8
  here : u.get? l = some (.file new.source.toUTF8)
  elsewhere : ∀ k ≠ l, u.get? k = t.get? k

/-- Bytes are decoded to the text whose encoding they are. -/
theorem fromUTF8?_eq_some {content : ByteArray} : String.fromUTF8? content = some old ↔ old.toUTF8 = content := by
  unfold String.fromUTF8?
  constructor
  · intro h
    split at h
    · cases h
      rfl
    · cases h
  · rintro rfl
    exact dif_pos old.isValidUTF8

theorem textAt_eq_ok : textAt t file = .ok old ↔ ∃ l, t.find (Path.ofString file) = .file l old.toUTF8 := by
  constructor
  · intro h
    unfold textAt at h
    split at h
    · next text htext =>
      cases h
      obtain ⟨content, hload, htext⟩ := Option.bind_eq_some_iff.1 htext
      unfold FileTree.load at hload
      split at hload
      · next l c hfind =>
        cases hload
        exact ⟨l, fromUTF8?_eq_some.1 htext ▸ hfind⟩
      · cases hload
    · cases h
  · rintro ⟨l, hfind⟩
    have hload : t.load (Path.ofString file) = some old.toUTF8 := by rw [FileTree.load, hfind]
    rw [textAt, hload, Option.bind_some, fromUTF8?_eq_some.2 rfl]

theorem sectionValue_eq_ok {v : Value} :
    sectionValue json = .ok v ↔ ∃ doc, Json.parse? json = some doc ∧ Value.ofJson doc = .ok v := by
  unfold sectionValue
  cases Json.parse? json with
  | none => simp
  | some doc => cases hdoc : Value.ofJson doc <;> simp [Except.mapError, hdoc]

theorem adds_iff {new : ConfigFile} : Adds name json old new ↔
    ∃ v, sectionValue json = .ok v ∧ ConfigFile.addSection ⟨old⟩ name v = .ok new := by
  simp only [sectionValue_eq_ok]
  constructor
  · rintro ⟨doc, v, hdoc, hv, hnew⟩
    exact ⟨v, ⟨doc, hdoc, hv⟩, hnew⟩
  · rintro ⟨v, ⟨doc, hdoc, hv⟩, hnew⟩
    exact ⟨doc, v, hdoc, hv, hnew⟩

theorem loadConfig_eq (path : String) (t : FileTree) :
    (ConfigFile.load path : StateM FileTree (Except FileError ConfigFile)) t =
      ((textAt t path).map ConfigFile.mk, t) := by
  simp only [ConfigFile.load, bind, StateT.bind, readText_eq]
  rfl

/-- A failure touches nothing, and a success changes the file and nothing else. -/
theorem runAdd_spec (file name json : String) (t : FileTree) :
    let result := (runAdd file name json : StateM FileTree Outcome) t
    (¬Addable t file name json ∧ ∃ message, result = (.failed message, t)) ∨
      ∃ l old new, Addition t result.2 file name json l old new ∧
        result.1 = .done ("✓ added '" ++ name ++ "' to " ++ file ++ " (" ++ new.source.toUTF8.size.repr ++ " bytes)\n") := by
  unfold runAdd
  cases hvalue : sectionValue json with
  | error e =>
    refine Or.inl ⟨?_, e, rfl⟩
    rintro ⟨l, old, new, -, hadds⟩
    obtain ⟨v, hv, -⟩ := adds_iff.1 hadds
    exact nomatch hvalue.symm.trans hv
  | ok v =>
    simp only [bind, StateT.bind, loadConfig_eq]
    cases htext : textAt t file with
    | error e =>
      refine Or.inl ⟨?_, e.message, rfl⟩
      rintro ⟨l, old, -, hfind, -⟩
      exact nomatch htext.symm.trans (textAt_eq_ok.2 ⟨l, hfind⟩)
    | ok old =>
      obtain ⟨l, hfind⟩ := textAt_eq_ok.1 htext
      simp only [Except.map]
      cases hnew : ConfigFile.addSection ⟨old⟩ name v with
      | error e =>
        refine Or.inl ⟨?_, e.message, rfl⟩
        rintro ⟨l', old', new, hfind', hadds⟩
        obtain ⟨v', hv, hok⟩ := adds_iff.1 hadds
        cases hvalue.symm.trans hv
        cases htext.symm.trans (textAt_eq_ok.2 ⟨l', hfind'⟩)
        exact nomatch hnew.symm.trans hok
      | ok new =>
        -- The file that was read is there, so it can be written.
        have hl : (FileTree.Found.file l old.toUTF8).Holds t := hfind ▸ t.find_holds _
        simp only [StateT.bind, FileTree.writeText_of_find hfind new.source]
        refine Or.inr ⟨l, old, new, ?_, rfl⟩
        have hput := FileTree.get?_put_file hl new.source.toUTF8
        exact {
          found := hfind
          added := adds_iff.2 ⟨v, hvalue, hnew⟩
          changed := fun h => ConfigFile.addSection_ne hnew (String.toByteArray_inj.1 h)
          here := (hput l).trans (if_pos rfl)
          elsewhere := fun k hk => (hput k).trans (if_neg hk) }

/-- Whatever the three arguments are: a code that is not 0 leaves the tree as it is, and
    with code 0 the file holds its old text with the section added, of as many bytes as
    reported, while every other place is as it was. The code is 0 whenever it can be. -/
theorem answer_add {args : List String} (h : Operands args [file, name, json]) (t : FileTree) :
    let result := (answer ("config" :: "add" :: args) : StateM FileTree Outcome) t
    (result.1.exit ≠ 0 → result.2 = t) ∧
      (result.1.exit = 0 → ∃ l old new, Addition t result.2 file name json l old new ∧
        result.1 = .done ("✓ added '" ++ name ++ "' to " ++ file ++ " (" ++ new.source.toUTF8.size.repr ++
          " bytes)\n")) ∧
      (Addable t file name json → result.1.exit = 0) := by
  intro result
  by_cases hfile : file.isEmpty = true
  · have hresult : result = (.misused (UsageError.invalid file).message, t) := by
      simp only [result, answer, read_add h, hfile, if_true]
      rfl
    rw [hresult]
    refine ⟨fun _ => rfl, fun hzero => absurd hzero (Nat.succ_ne_zero 1), ?_⟩
    rintro ⟨l, old, -, hfind, -⟩
    exact absurd (String.isEmpty_iff.1 hfile) (FileTree.find_eq_file.1 hfind).2.1
  · have hresult : result = (runAdd file name json : StateM FileTree Outcome) t := by
      simp only [result, answer, read_add h, hfile]
      rfl
    rw [hresult]
    obtain ⟨hnot, message, hfailed⟩ | ⟨l, old, new, hadded, hdone⟩ := runAdd_spec file name json t
    · rw [hfailed]
      exact ⟨fun _ => rfl, fun hzero => absurd hzero (Nat.succ_ne_zero 0), fun haddable => absurd haddable hnot⟩
    · have hexit : ((runAdd file name json : StateM FileTree Outcome) t).1.exit = 0 := by
        rw [hdone]
        rfl
      exact ⟨fun hne => absurd hexit hne, fun _ => ⟨l, old, new, hadded, hdone⟩, fun _ => hexit⟩

/-- A name that looks like an option, behind `--`. -/
theorem answer_add_option :
    let t := FileTree.empty.put ["app.php"] (.file "<?php\nreturn [\n];\n".toUTF8)
    let result := (answer ["config", "add", "app.php", "--", "-x", "[1]"] : StateM FileTree Outcome) t
    Operands ["app.php", "--", "-x", "[1]"] ["app.php", "-x", "[1]"] ∧ result.1.exit = 0 ∧
      ∃ l old new, Addition t result.2 "app.php" "-x" "[1]" l old new ∧
        result.1 = .done ("✓ added '-x' to app.php (" ++ new.source.toUTF8.size.repr ++ " bytes)\n") := by
  intro t result
  have hargs : Operands ["app.php", "--", "-x", "[1]"] ["app.php", "-x", "[1]"] :=
    .plain (.inr (by decide)) (.behindEnd _)
  have hexit : result.1.exit = 0 := by decide +kernel
  exact ⟨hargs, hexit, (answer_add hargs t).2.1 hexit⟩

end Command

end PhpScribe
