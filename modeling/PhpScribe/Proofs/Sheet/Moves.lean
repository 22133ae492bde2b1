/-
  PhpScribe.Proofs.Sheet.Moves — writing a fragment, move by move.

  A sheet knows four moves: a line, a blank line, one level deeper, one level back. What
  moves a fragment makes, and in which order, is read off the fragment alone
  (`Fragment.moves`). Going back at level zero is where a sheet would lose count, so a
  move there is refused; no fragment ever asks for it, whatever sheet it is written on,
  and its moves are all there is to writing it (`run_moves`).

  So what a fragment means does not hang on the sheet (`emit_meaning`): it appends its
  rows, each at the sheet's level and the row's own depth, and leaves the sheet at the
  level at which it found it.
-/

import PhpScribe.Proofs.Sheet.Rows

namespace PhpScribe

inductive Move where
  | line (text : String)
  | blank
  | deeper
  | shallower
  deriving DecidableEq

namespace Fragment

mutual
def moves : Fragment → List Move
  | .line s => [.line s]
  | .blank => [.blank]
  | .block header body close =>
    .line header :: .deeper :: (allMoves body ++ .shallower :: (close.map Move.line).toList)
  | .indent body => .deeper :: (allMoves body ++ [.shallower])
  | .sequence parts => allMoves parts
  | .doc lines => .line "/**" :: (lines.map (fun s => .line (Sheet.docLine s)) ++ [.line " */"])

def allMoves : List Fragment → List Move
  | [] => []
  | f :: fs => moves f ++ allMoves fs
end

theorem allRows_eq_flatMap (fs : List Fragment) : allRows fs = fs.flatMap rows := by
  induction fs with
  | nil => rfl
  | cons f fs ih => rw [allRows, ih, List.flatMap_cons]

end Fragment

namespace Sheet

/-- Make one move; there is no way back from level zero. -/
def move? (b : Sheet) : Move → Option Sheet
  | .line s => some (b.line s)
  | .blank => some b.blank
  | .deeper => some b.deeper
  | .shallower => if b.level = 0 then none else some b.shallower

/-- Make moves one after the other, as long as none is refused. -/
def run? (ms : List Move) (b : Sheet) : Option Sheet := ms.foldlM move? b

theorem run?_append (ms ns : List Move) (b : Sheet) :
    run? (ms ++ ns) b = (run? ms b).bind (run? ns) := List.foldlM_append

theorem run?_line (s : String) (ms : List Move) (b : Sheet) :
    run? (.line s :: ms) b = run? ms (b.line s) := rfl

theorem run?_deeper (ms : List Move) (b : Sheet) :
    run? (.deeper :: ms) b = run? ms b.deeper := rfl

/-- Behind a level that has been entered there is a way back. -/
theorem run?_shallower {b : Sheet} (h : 0 < b.level) (ms : List Move) :
    run? (.shallower :: ms) b = run? ms b.shallower := by
  have hmove : move? b .shallower = some b.shallower := if_neg (by omega)
  show (move? b .shallower).bind (run? ms) = run? ms b.shallower
  rw [hmove]
  rfl

/-- What is written one level deeper and kept at that level can be left again. -/
theorem run?_body {body : List Move} {b c : Sheet} (hbody : run? body b.deeper = some c)
    (hlevel : c.level = b.deeper.level) (ms : List Move) :
    run? (.deeper :: (body ++ .shallower :: ms)) b = run? ms c.shallower := by
  have hpos : 0 < c.level := by
    rw [hlevel]
    exact Nat.succ_pos b.level
  rw [run?_deeper, run?_append, hbody]
  exact run?_shallower hpos ms

theorem run?_docLines (lines : List String) (ms : List Move) (b : Sheet) :
    run? (lines.map (fun s => .line (docLine s)) ++ ms) b =
      run? ms (lines.foldl (fun b s => b.line (docLine s)) b) := by
  induction lines generalizing b with
  | nil => rfl
  | cons s lines ih => exact ih (b.line (docLine s))

mutual
/-- A fragment is written by its moves, and none of them is refused. -/
theorem run_moves : (f : Fragment) → (b : Sheet) → run? f.moves b = some (emit f b)
  | .line _, _ | .blank, _ => rfl
  | .block header body none, b => by
    have hbody := run_allMoves body (b.line header).deeper
    rw [Fragment.moves, run?_line, run?_body hbody (level_emitAll body _)]
    rfl
  | .block header body (some c), b => by
    have hbody := run_allMoves body (b.line header).deeper
    rw [Fragment.moves, run?_line, run?_body hbody (level_emitAll body _)]
    rfl
  | .indent body, b => by
    have hbody := run_allMoves body b.deeper
    rw [Fragment.moves, run?_body hbody (level_emitAll body _)]
    rfl
  | .sequence parts, b => run_allMoves parts b
  | .doc lines, b => by
    rw [Fragment.moves, run?_line, run?_docLines]
    rfl

theorem run_allMoves : (fs : List Fragment) → (b : Sheet) →
    run? (Fragment.allMoves fs) b = some (emitAll fs b)
  | [], _ => rfl
  | f :: fs, b => by
    rw [Fragment.allMoves, run?_append, run_moves f b]
    exact run_allMoves fs (emit f b)
end

/-- Writing things that are made of fragments is writing each of them in its turn. -/
theorem emitAll_flatMap {α : Type} (fragments : α → List Fragment) (nodes : List α) (b : Sheet) :
    emitAll (nodes.flatMap fragments) b = nodes.foldl (fun b n => emitAll (fragments n) b) b := by
  induction nodes generalizing b with
  | nil => rfl
  | cons n nodes ih => rw [List.flatMap_cons, emitAll_append, ih, List.foldl_cons]

/-- What a fragment means is its rows, on every sheet: each row is appended at the sheet's
    level and the row's depth, the sheet is at its level again, and on the way it never
    goes back from level zero. Rows of parts are the rows of the whole, a level in them is
    one depth, and what is made of fragments may be written part by part. -/
theorem emit_meaning :
    (∀ (f : Fragment) (i : Indent) (level : Nat) (text : String),
      run? f.moves ⟨i, level, text⟩ = some (emit f ⟨i, level, text⟩) ∧
      emit f ⟨i, level, text⟩ = ⟨i, level, text ++ Text.concat (f.rows.map (Row.text i level))⟩) ∧
    (∀ parts, (Fragment.sequence parts).rows = parts.flatMap Fragment.rows) ∧
    (∀ body, (Fragment.indent body).rows = (body.flatMap Fragment.rows).map Row.deeper) ∧
    ∀ {α : Type} (fragments : α → List Fragment) (nodes : List α) (b : Sheet),
      emitAll (nodes.flatMap fragments) b = nodes.foldl (fun b n => emitAll (fragments n) b) b := by
  refine ⟨fun f i level text => ⟨run_moves f _, emit_eq f _⟩, fun parts => ?_, fun body => ?_, emitAll_flatMap⟩
  · rw [Fragment.rows, Fragment.allRows_eq_flatMap]
  · rw [Fragment.rows, Fragment.allRows_eq_flatMap]

/-- A block in an indented part: its body stands two levels below the fragment. -/
example : (Fragment.indent [.block "f(" [.line "1,", .blank] (some ");")]).rows =
    [.line 1 "f(", .line 2 "1,", .blank, .line 1 ");"] := rfl

end Sheet

end PhpScribe
