/-
  PhpScribe.Indent — the white space in front of a line.

  One level is a tab or a fixed number of spaces; `text n` is the text of `n` levels.
-/

namespace PhpScribe

inductive Indent where
  | tab
  | spaces (width : UInt8)
  deriving DecidableEq, Repr

namespace Indent

/-- Class bodies are indented with tabs. -/
def code : Indent := .tab

/-- Config arrays are indented with four spaces. -/
def config : Indent := .spaces 4

instance : Inhabited Indent := ⟨code⟩

def chars (i : Indent) (n : Nat) : List Char :=
  match i with
  | .tab => List.replicate n '\t'
  | .spaces w => List.replicate (w.toNat * n) ' '

def text (i : Indent) (n : Nat) : String := String.ofList (i.chars n)

end Indent

end PhpScribe
