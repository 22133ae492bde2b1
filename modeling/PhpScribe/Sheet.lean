/-
  PhpScribe.Sheet — a text under construction, with its level of indentation.

  Writing a line puts the white space of the current level in front of it, also in
  front of an empty line; a blank line has none. Fragments raise the level for their
  bodies and leave it as they found it (`level_emit`).
-/

import PhpScribe.Fragment
import PhpScribe.Indent

namespace PhpScribe

structure Sheet where
  indent : Indent
  level : Nat
  text : String
  deriving DecidableEq

namespace Sheet

def new (indent : Indent) : Sheet := ⟨indent, 0, ""⟩

def code : Sheet := new .code

def config : Sheet := new .config

instance : Inhabited Sheet := ⟨code⟩

def line (s : String) (b : Sheet) : Sheet :=
  { b with text := b.text ++ b.indent.text b.level ++ s ++ "\n" }

def blank (b : Sheet) : Sheet := { b with text := b.text ++ "\n" }

def deeper (b : Sheet) : Sheet := { b with level := b.level + 1 }

/-- One level back; at level zero nothing changes. -/
def shallower (b : Sheet) : Sheet := { b with level := b.level - 1 }

def docLine (s : String) : String := if s.isEmpty then " *" else " * " ++ s

def docBlock (lines : List String) (b : Sheet) : Sheet :=
  (lines.foldl (fun b s => b.line (docLine s)) (b.line "/**")).line " */"

mutual
def emit : Fragment → Sheet → Sheet
  | .line s, b => b.line s
  | .blank, b => b.blank
  | .block header body close, b =>
    let b := (emitAll body (b.line header).deeper).shallower
    match close with
    | some s => b.line s
    | none => b
  | .indent body, b => (emitAll body b.deeper).shallower
  | .sequence parts, b => emitAll parts b
  | .doc lines, b => b.docBlock lines

def emitAll : List Fragment → Sheet → Sheet
  | [], b => b
  | f :: fs, b => emitAll fs (emit f b)
end

/-! ## The level is kept -/

theorem level_docLines (lines : List String) (b : Sheet) :
    (lines.foldl (fun b s => b.line (docLine s)) b).level = b.level := by
  induction lines generalizing b with
  | nil => rfl
  | cons s lines ih => rw [List.foldl_cons, ih]; rfl

mutual
theorem level_emit : (f : Fragment) → (b : Sheet) → (emit f b).level = b.level
  | .line _, _ | .blank, _ => rfl
  | .block header body none, b => by
    simp only [emit, shallower, level_emitAll body]
    simp [deeper, line]
  | .block header body (some c), b => by
    simp only [emit, shallower, line, level_emitAll body]
    simp [deeper]
  | .indent body, b => by
    simp only [emit, shallower, level_emitAll body]
    simp [deeper]
  | .sequence parts, b => by simp only [emit, level_emitAll parts]
  | .doc lines, b => level_docLines lines (b.line "/**")

theorem level_emitAll : (fs : List Fragment) → (b : Sheet) → (emitAll fs b).level = b.level
  | [], _ => rfl
  | f :: fs, b => by rw [emitAll, level_emitAll fs, level_emit f]
end

theorem emitAll_append (fs gs : List Fragment) (b : Sheet) :
    emitAll (fs ++ gs) b = emitAll gs (emitAll fs b) := by
  induction fs generalizing b with
  | nil => rfl
  | cons f fs ih => simp only [List.cons_append, emitAll, ih]

end Sheet

end PhpScribe
