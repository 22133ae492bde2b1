/-
  PhpScribe.Path — paths as the steps to a file.

  Empty steps and single dots lead nowhere and are left out; two dots stay, for what they
  lead to hangs on the tree. A slash or a dot at the end asks for a directory. The empty
  text is a path to nothing, a lone dot the path to the directory one is in.

  A path keeps its text, for that is what a system is given, and may be too long where
  its steps are few. A path cut behind one of its steps has the text up to that step.
-/

import PhpScribe.Text.Search

namespace PhpScribe

structure Path.Step where
  name : String
  /-- Where the step ends in the text of its path, in characters. -/
  stop : Nat
  deriving DecidableEq

structure Path where
  text : String
  absolute : Bool
  steps : List Path.Step
  /-- The path asks for a directory. -/
  asDirectory : Bool
  deriving DecidableEq

namespace Path

def isIdle (p : List Char) : Bool := p.isEmpty || p == ['.']

def stepsFrom (start : Nat) : List (List Char) → List Step
  | [] => []
  | p :: ps =>
    let stop := start + p.length
    if isIdle p then stepsFrom (stop + 1) ps
    else ⟨String.ofList p, stop⟩ :: stepsFrom (stop + 1) ps

def ofString (s : String) : Path :=
  let parts := Text.parts '/' s.toList
  { text := s
    absolute := s.toList.head? == some '/'
    steps := stepsFrom 0 parts
    asDirectory := !s.isEmpty && parts.getLast?.any isIdle }

/-- A path cut behind some of its steps, given with the last of them first. -/
def upTo (p : Path) (back : List Step) : Path :=
  { text :=
      match back with
      | [] => if p.absolute then "/" else ""
      | step :: _ => String.ofList (p.text.toList.take step.stop)
    absolute := p.absolute
    steps := back.reverse
    asDirectory := false }

def parent (p : Path) : Path := p.upTo p.steps.reverse.tail

end Path

end PhpScribe
