/-
  PhpScribe.Proofs.Sheet.Rows — what a fragment says, whatever sheet it is written on.

  A fragment is a list of rows: each is blank, or a text with its depth below the
  fragment. Writing a fragment appends its rows to the sheet, at the sheet's own
  indentation and level, and changes nothing else (`emit_eq`); the rows of the parts are
  the rows of the whole, a block's body one deeper.
-/

import PhpScribe.Sheet

namespace PhpScribe

/-- A line of code, its depth counted from the fragment it belongs to. -/
inductive Row where
  | blank
  | line (depth : Nat) (text : String)
  deriving DecidableEq

namespace Row

def deeper : Row → Row
  | .blank => .blank
  | .line depth s => .line (depth + 1) s

def text (indent : Indent) (level : Nat) : Row → String
  | .blank => "\n"
  | .line depth s => indent.text (level + depth) ++ s ++ "\n"

theorem text_deeper (indent : Indent) (level : Nat) (r : Row) :
    r.deeper.text indent level = r.text indent (level + 1) := by
  cases r with
  | blank => rfl
  | line depth s => simp only [deeper, text, Nat.add_assoc, Nat.add_comm 1]

end Row

namespace Fragment

mutual
def rows : Fragment → List Row
  | .line s => [.line 0 s]
  | .blank => [.blank]
  | .block header body close =>
    .line 0 header :: ((allRows body).map Row.deeper ++ (close.map (Row.line 0)).toList)
  | .indent body => (allRows body).map Row.deeper
  | .sequence parts => allRows parts
  | .doc lines => .line 0 "/**" :: (lines.map (fun s => .line 0 (Sheet.docLine s)) ++ [.line 0 " */"])

def allRows : List Fragment → List Row
  | [] => []
  | f :: fs => rows f ++ allRows fs
end

theorem allRows_append (fs gs : List Fragment) : allRows (fs ++ gs) = allRows fs ++ allRows gs := by
  induction fs with
  | nil => rfl
  | cons f fs ih => rw [List.cons_append, allRows, ih, allRows, List.append_assoc]

end Fragment

namespace Sheet

def append (rs : List Row) (b : Sheet) : Sheet :=
  { b with text := b.text ++ Text.concat (rs.map (Row.text b.indent b.level)) }

theorem append_nil (b : Sheet) : b.append [] = b := by
  simp [append, Text.concat]

theorem append_append (rs qs : List Row) (b : Sheet) : (b.append rs).append qs = b.append (rs ++ qs) := by
  simp [append, Text.concat_append, String.append_assoc]

theorem line_eq (s : String) (b : Sheet) : b.line s = b.append [.line 0 s] := by
  simp [line, append, Text.concat, Row.text, String.append_assoc]

theorem blank_eq (b : Sheet) : b.blank = b.append [.blank] := by
  simp [blank, append, Text.concat, Row.text]

theorem docLines_eq (lines : List String) (b : Sheet) :
    lines.foldl (fun b s => b.line (docLine s)) b = b.append (lines.map fun s => .line 0 (docLine s)) := by
  induction lines generalizing b with
  | nil => exact (append_nil b).symm
  | cons s lines ih => rw [List.foldl_cons, ih, line_eq, append_append, List.map_cons, List.singleton_append]

/-- Rows one level deeper are deeper rows. -/
theorem shallower_append_deeper (rs : List Row) (b : Sheet) :
    (b.deeper.append rs).shallower = b.append (rs.map Row.deeper) := by
  simp only [append, deeper, shallower, List.map_map, Nat.add_sub_cancel, Sheet.mk.injEq, true_and]
  refine congrArg (b.text ++ Text.concat ·) (List.map_congr_left fun r _ => ?_)
  exact (Row.text_deeper b.indent b.level r).symm

mutual
/-- Writing a fragment appends its rows and leaves the level as it was. -/
theorem emit_eq : (f : Fragment) → (b : Sheet) → emit f b = b.append f.rows
  | .line s, b => line_eq s b
  | .blank, b => blank_eq b
  | .block header body none, b => by
    simp only [emit, emitAll_eq body, shallower_append_deeper, line_eq, append_append]
    simp [Fragment.rows]
  | .block header body (some c), b => by
    simp only [emit, emitAll_eq body, shallower_append_deeper, line_eq, append_append]
    simp [Fragment.rows]
  | .indent body, b => by
    simp only [emit, emitAll_eq body, shallower_append_deeper, Fragment.rows]
  | .sequence parts, b => emitAll_eq parts b
  | .doc lines, b => by
    rw [emit, docBlock, docLines_eq, line_eq, line_eq, append_append, append_append]
    rfl

theorem emitAll_eq : (fs : List Fragment) → (b : Sheet) → emitAll fs b = b.append (Fragment.allRows fs)
  | [], b => (append_nil b).symm
  | f :: fs, b => by
    rw [emitAll, emitAll_eq fs, emit_eq f, append_append]
    rfl
end

end Sheet

/-! ## The text of fragments -/

namespace Fragment

def allText (i : Indent) (level : Nat) (fs : List Fragment) : String :=
  Text.concat ((allRows fs).map (Row.text i level))

variable (i : Indent) (level : Nat)

@[simp] theorem allText_nil : allText i level [] = "" := rfl

theorem allText_append (fs gs : List Fragment) :
    allText i level (fs ++ gs) = allText i level fs ++ allText i level gs := by
  simp only [allText, allRows_append, List.map_append, Text.concat_append]

theorem allText_cons (f : Fragment) (fs : List Fragment) :
    allText i level (f :: fs) = Text.concat (f.rows.map (Row.text i level)) ++ allText i level fs := by
  simp only [allText, allRows, List.map_append, Text.concat_append]

@[simp] theorem allText_line (s : String) (fs : List Fragment) :
    allText i level (.line s :: fs) = i.text level ++ s ++ "\n" ++ allText i level fs := by
  simp [allText_cons, rows, Text.concat, Row.text]

@[simp] theorem allText_blank (fs : List Fragment) :
    allText i level (.blank :: fs) = "\n" ++ allText i level fs := by
  simp [allText_cons, rows, Text.concat, Row.text]

theorem concat_deeper (rs : List Row) : Text.concat ((rs.map Row.deeper).map (Row.text i level)) =
    Text.concat (rs.map (Row.text i (level + 1))) := by
  rw [List.map_map]
  exact congrArg Text.concat (List.map_congr_left fun r _ => Row.text_deeper i level r)

@[simp] theorem allText_indent (body fs : List Fragment) :
    allText i level (.indent body :: fs) = allText i (level + 1) body ++ allText i level fs := by
  rw [allText_cons, rows, concat_deeper]
  rfl

@[simp] theorem allText_sequence (parts fs : List Fragment) :
    allText i level (.sequence parts :: fs) = allText i level parts ++ allText i level fs := by
  rw [allText_cons, rows]
  rfl

@[simp] theorem allText_block (header close : String) (body fs : List Fragment) :
    allText i level (.block header body (some close) :: fs) = i.text level ++ header ++ "\n" ++
      allText i (level + 1) body ++ (i.text level ++ close ++ "\n") ++ allText i level fs := by
  rw [allText_cons, rows, List.map_cons, List.map_append, Text.concat, Text.concat_append, concat_deeper]
  simp [Row.text, Text.concat, allText, String.append_assoc]

@[simp] theorem allText_doc (lines : List String) (fs : List Fragment) :
    allText i level (.doc lines :: fs) = i.text level ++ "/**\n" ++
      Text.concat (lines.map fun s => i.text level ++ Sheet.docLine s ++ "\n") ++
        (i.text level ++ " */\n") ++ allText i level fs := by
  rw [allText_cons, rows, List.map_cons, List.map_append, Text.concat, Text.concat_append, List.map_map]
  simp [Row.text, Text.concat, String.append_assoc, Function.comp_def]

/-- A text line by line, its blank lines empty. -/
theorem allText_ofText (s : String) : allText i level (ofText s) =
    Text.concat ((Text.linesOf s).map fun l =>
      if Text.allBlank l.toList then "\n" else i.text level ++ l ++ "\n") := by
  unfold ofText Text.linesOf
  induction Text.lines s.toList with
  | nil => rfl
  | cons l ls ih =>
    rw [List.map_cons, ofLine]
    by_cases hl : Text.allBlank l = true
    · rw [if_pos hl, allText_blank, ih]
      simp [Text.concat, hl]
    · rw [if_neg hl, allText_line, ih]
      simp [Text.concat, hl]

end Fragment

/-- The text of fragments on an empty sheet. -/
theorem Sheet.text_emitAll_new (i : Indent) (fs : List Fragment) :
    ((Sheet.new i).emitAll fs).text = Fragment.allText i 0 fs := by
  rw [emitAll_eq]
  simp [append, new, Fragment.allText]

end PhpScribe
