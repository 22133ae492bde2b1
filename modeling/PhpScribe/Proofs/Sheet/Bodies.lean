/-
  PhpScribe.Proofs.Sheet.Bodies — a body of code survives its indentation.

  A text that is put on a sheet becomes one line there for each of its own, in their order
  (`Indented`). A line of white space is left empty. Any other stands, just as it is, behind the
  white space of the level: taking that off its front gives the line back, also where it starts
  or ends with white space of its own, or with more of the same (`Stands`).

  So which lines are empty does not hang on the level, no line is left with nothing but white
  space on it, and what is on the sheet tells all of the text but how its blank lines were
  spelled (`body_survives`).
-/

import Mathlib.Data.List.Forall2
import PhpScribe.Proofs.Sheet.Rows
import PhpScribe.Proofs.Text.Lines

namespace PhpScribe

/-! ## The white space of a level -/

namespace Indent

theorem isBlank_chars (i : Indent) (n : Nat) : ∀ c ∈ i.chars n, Text.isBlank c = true := by
  intro c hc
  cases i with
  | tab =>
    rw [List.eq_of_mem_replicate hc]
    rfl
  | spaces w =>
    rw [List.eq_of_mem_replicate hc]
    rfl

theorem newline_notMem_chars (i : Indent) (n : Nat) : '\n' ∉ i.chars n := by
  cases i <;> simp [chars]

end Indent

namespace Fragment

variable {pad l k : List Char}

/-! ## One line -/

/-- How a line of a text stands on a sheet, behind the white space of the level. -/
inductive Stands (pad : List Char) : List Char → List Char → Prop
  | blank {l : List Char} (h : Text.allBlank l = true) : Stands pad l []
  | line {l : List Char} (h : Text.allBlank l = false) : Stands pad l (pad ++ l)

def Alike (l k : List Char) : Prop := l = k ∨ Text.allBlank l = true ∧ Text.allBlank k = true

def standing (pad l : List Char) : List Char := if Text.allBlank l then [] else pad ++ l

theorem stands_standing (pad l : List Char) : Stands pad l (standing pad l) := by
  unfold standing
  by_cases hl : Text.allBlank l = true
  · rw [if_pos hl]
    exact .blank hl
  · rw [if_neg hl]
    exact .line (by simpa using hl)

theorem standing_eq_nil : standing pad l = [] ↔ Text.allBlank l = true := by
  unfold standing
  split
  · next hl => simp [hl]
  · next hl =>
    have hne : l ≠ [] := by
      rintro rfl
      exact hl rfl
    simp [hne, hl]

/-- The white space of the level does not make a line blank that is not. -/
theorem allBlank_standing (h : ∀ c ∈ pad, Text.isBlank c = true) (l : List Char) :
    Text.allBlank (standing pad l) = Text.allBlank l := by
  have hpad : pad.all Text.isBlank = true := List.all_eq_true.2 h
  unfold standing
  split
  · next hl => exact hl.symm
  · simp [Text.allBlank, hpad]

theorem standing_inj : standing pad l = standing pad k ↔ Alike l k := by
  by_cases hl : Text.allBlank l = true
  · rw [standing_eq_nil.2 hl, eq_comm, standing_eq_nil]
    constructor
    · intro hk
      exact Or.inr ⟨hl, hk⟩
    · rintro (rfl | ⟨-, hk⟩)
      · exact hl
      · exact hk
  · by_cases hk : Text.allBlank k = true
    · have hne : l ≠ k := by
        rintro rfl
        exact hl hk
      rw [standing_eq_nil.2 hk, standing_eq_nil]
      simp [Alike, hl, hne]
    · simp [standing, Alike, hl, hk]

theorem newline_notMem_standing (hpad : '\n' ∉ pad) (hl : '\n' ∉ l) : '\n' ∉ standing pad l := by
  unfold standing
  split
  · exact List.not_mem_nil
  · simp [hpad, hl]

/-! ## All lines -/

/-- The lines that a text adds to a sheet: what the newlines part in that which is written. -/
def linesAt (i : Indent) (level : Nat) (t : String) : List (List Char) :=
  (Text.parts '\n' (allText i level (ofText t)).toList).dropLast

variable (i : Indent) (level : Nat) (t : String)

theorem toList_allText_ofText : (allText i level (ofText t)).toList =
    ((Text.lines t.toList).map (standing (i.chars level))).flatMap (· ++ ['\n']) := by
  rw [allText_ofText, Text.linesOf]
  induction Text.lines t.toList with
  | nil => rfl
  | cons l ls ih =>
    simp only [List.map_cons, List.flatMap_cons, Text.concat, String.toList_append, ih, String.toList_ofList]
    congr 1
    unfold standing
    split <;> simp [Indent.text]

theorem parts_allText_ofText : Text.parts '\n' (allText i level (ofText t)).toList =
    (Text.lines t.toList).map (standing (i.chars level)) ++ [[]] := by
  rw [toList_allText_ofText, Text.parts_terminated]
  intro out hout
  obtain ⟨l, hl, rfl⟩ := List.mem_map.1 hout
  exact newline_notMem_standing (i.newline_notMem_chars level) (Text.newline_notMem_lines _ l hl)

theorem linesAt_eq : linesAt i level t = (Text.lines t.toList).map (standing (i.chars level)) := by
  rw [linesAt, parts_allText_ofText, List.dropLast_concat]

theorem forall₂_alike_iff {ls ks : List (List Char)} :
    List.Forall₂ Alike ls ks ↔ ls.map (standing pad) = ks.map (standing pad) := by
  rw [← List.forall₂_eq_eq_eq, List.forall₂_map_left_iff, List.forall₂_map_right_iff]
  simp only [standing_inj]

theorem allText_ofText_eq_iff {u : String} :
    allText i level (ofText t) = allText i level (ofText u) ↔ linesAt i level t = linesAt i level u := by
  refine ⟨fun h => by rw [linesAt, h, linesAt], fun h => ?_⟩
  rw [linesAt_eq, linesAt_eq] at h
  apply String.toList_injective
  rw [toList_allText_ofText, toList_allText_ofText, h]

structure Indented (i : Indent) (level : Nat) (t : String) : Prop where
  written : ∀ text, Sheet.emitAll (ofText t) ⟨i, level, text⟩ = ⟨i, level, text ++ allText i level (ofText t)⟩
  /-- Each line is ended by a newline. -/
  ended : Text.parts '\n' (allText i level (ofText t)).toList = linesAt i level t ++ [[]]
  /-- There is one line for each line of the text. -/
  stands : List.Forall₂ (Stands (i.chars level)) (Text.lines t.toList) (linesAt i level t)
  /-- No line has nothing but white space on it. -/
  clean : ∀ l ∈ linesAt i level t, Text.allBlank l = true → l = []
  /-- The lines that are empty are the blank lines of the text, at whatever level. -/
  blanks : (linesAt i level t).map List.isEmpty = (Text.lines t.toList).map Text.allBlank

theorem indented : Indented i level t where
  written text := Sheet.emitAll_eq (ofText t) ⟨i, level, text⟩
  ended := by rw [linesAt_eq, parts_allText_ofText]
  stands := by
    rw [linesAt_eq, List.forall₂_map_right_iff]
    exact List.forall₂_same.2 fun l _ => stands_standing _ l
  clean := by
    rw [linesAt_eq]
    intro out hout hblank
    obtain ⟨l, -, rfl⟩ := List.mem_map.1 hout
    rw [allBlank_standing (i.isBlank_chars level)] at hblank
    exact standing_eq_nil.2 hblank
  blanks := by
    rw [linesAt_eq, List.map_map]
    refine List.map_congr_left fun l _ => ?_
    rw [Bool.eq_iff_iff, Function.comp_apply, List.isEmpty_iff, standing_eq_nil]

/-- Every text stands on every sheet line by line, and two texts look the same on a sheet
    exactly when their lines are the same up to blank ones. -/
theorem body_survives (t : String) :
    Text.lines t.toList = Text.linesOfParts (Text.parts '\n' t.toList) ∧
      (∀ i level, Indented i level t) ∧
      ∀ (u : String) (b : Sheet), Sheet.emitAll (ofText t) b = Sheet.emitAll (ofText u) b ↔
        List.Forall₂ Alike (Text.lines t.toList) (Text.lines u.toList) := by
  refine ⟨Text.lines_eq _, fun i level => indented i level t, fun u b => ?_⟩
  have hsheet (s : String) :
      Sheet.emitAll (ofText s) b = { b with text := b.text ++ allText b.indent b.level (ofText s) } :=
    (indented b.indent b.level s).written b.text
  rw [forall₂_alike_iff, ← linesAt_eq b.indent b.level t, ← linesAt_eq b.indent b.level u,
    ← allText_ofText_eq_iff, hsheet, hsheet]
  constructor
  · intro h
    exact (String.append_right_inj b.text).1 (congrArg Sheet.text h)
  · intro h
    rw [h]

/-- A line that starts with a tab of its own, and one that holds nothing but a space. -/
example : linesAt .tab 1 "\tf();\r\n \n\x7d" = ["\t\tf();".toList, [], "\t\x7d".toList] := by
  rw [linesAt_eq]
  decide

end Fragment

end PhpScribe
