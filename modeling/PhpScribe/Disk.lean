/-
  PhpScribe.Disk — reading and writing files.

  A disk is anything that can look at a path, read a file, make a directory and write a
  file; the operations here are made from these four. Writing a file first makes the
  directories that lead to it, from the outermost that is missing inwards; directories
  made before a failure stay. A file is text, and one that is not cannot be read.
-/

import PhpScribe.Path

namespace PhpScribe

inductive Kind where
  | directory
  | file
  deriving DecidableEq

inductive Made where
  | made
  /-- A directory on the way is not there. -/
  | noParent
  | refused
  deriving DecidableEq

class Disk (m : Type → Type) where
  /-- What stands at a path, if anything does. -/
  look : Path → m (Option Kind)
  /-- The bytes of a file. -/
  load : Path → m (Option ByteArray)
  makeDirectory : Path → m Made
  /-- Write a file in a directory that is there; whether it was written. -/
  store : Path → ByteArray → m Bool

inductive FileError where
  | write (path : String)
  | read (path : String)
  deriving DecidableEq

def FileError.message : FileError → String
  | .write path => "failed to write '" ++ path ++ "'"
  | .read path => "failed to read '" ++ path ++ "'"

namespace Disk

variable {m : Type → Type} [Monad m] [Disk m]

def exists? (path : String) : m Bool := (·.isSome) <$> look (Path.ofString path)

def isDirectory (p : Path) : m Bool := (· == some .directory) <$> look p

/-- Make the directory that some steps of a path lead to, the last step first, and the
    directories on the way; whether it is there in the end. -/
def makeSteps (p : Path) : List Path.Step → m Bool
  | [] => pure true
  | step :: back => do
    let here := p.upTo (step :: back)
    match ← makeDirectory here with
    | .made => return true
    | .refused => isDirectory here
    | .noParent =>
      if ← makeSteps p back then
        match ← makeDirectory here with
        | .made => return true
        | _ => isDirectory here
      else return false

def makeAll (p : Path) : m Bool := makeSteps p p.steps.reverse

def writeText (path text : String) : m (Except FileError Nat) := do
  let p := Path.ofString path
  if ← makeAll p.parent then
    if ← store p text.toUTF8 then return .ok text.utf8ByteSize
  return .error (.write path)

def readText (path : String) : m (Except FileError String) := do
  match (← load (Path.ofString path)).bind String.fromUTF8? with
  | some text => return .ok text
  | none => return .error (.read path)

/-- Write a text to a path unless something stands there; the bytes when it was written. -/
def writeNew (path text : String) : m (Except FileError (Option Nat)) := do
  if ← exists? path then return .ok none
  return (← writeText path text).map some

end Disk

end PhpScribe
