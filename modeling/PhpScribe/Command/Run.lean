/-
  PhpScribe.Command.Run — what the commands do on a disk.

  A command that succeeds, or leaves an existing file as it is, ends with code 0; one
  that fails ends with 1 and prints nothing. Arguments that make no request end with 2
  and touch no file.
-/

import PhpScribe.Command.Arguments
import PhpScribe.Command.Script
import PhpScribe.ConfigFile.File
import PhpScribe.Json.Reader
import PhpScribe.Manifest.File

namespace PhpScribe.Command

variable {m : Type → Type} [Monad m] [Disk m]

/-! ## Reports -/

def written (path : String) (bytes : Nat) : String :=
  "✓ " ++ path ++ " (" ++ bytes.repr ++ " bytes)\n"

def added (name path : String) (bytes : Nat) : String :=
  "✓ added '" ++ name ++ "' to " ++ path ++ " (" ++ bytes.repr ++ " bytes)\n"

def skipped (path : String) : String :=
  "- " ++ path ++ " already exists (use --force to overwrite)\n"

def count (n : Nat) (noun : String) : String :=
  n.repr ++ " " ++ noun ++ if n = 1 then "" else "s"

def classLine (c : Manifest.ClassEntry) : String :=
  (match c.ns with | some ns => ns ++ "\\" | none => "") ++ c.name ++
    (match c.parent with | some p => " extends " ++ p | none => "") ++
    (match c.interface with | some i => " implements " ++ i | none => "")

def methodLine (e : Manifest.MethodEntry) : String :=
  "    " ++ e.name ++ "(" ++ Text.join ", " (e.arguments.map ("$" ++ ·.name)) ++ ")\n"

def report (path : String) (d : Manifest) : String :=
  "✓ " ++ path ++ " is valid\n\n  " ++ classLine d.classEntry ++ "\n" ++
    (if d.classEntry.traits.isEmpty then ""
      else "  uses " ++ Text.join ", " d.classEntry.traits ++ "\n") ++
    "\n  " ++ count d.constants.length "constant" ++ "\n  " ++ count d.fields.length "field" ++
    "\n  " ++ count d.methods.length "method" ++ ":\n" ++ Text.concat (d.methods.map methodLine)

/-! ## Commands -/

/-- The file that a class goes to: in the output if that is a directory, else the output
    itself. -/
def target (output : Option String) (isDirectory : Bool) (name : String) : String :=
  let file := name ++ ".php"
  match output with
  | none => file
  | some path =>
    if !isDirectory then path
    else if file.toList.head? == some '/' then file
    else if path.toList.getLast? == some '/' then path ++ file
    else path ++ "/" ++ file

/-- Write a text to a path unless something stands there, or in any case. -/
def save (force : Bool) (path text : String) : m Outcome := do
  if force then
    match ← Disk.writeText path text with
    | .ok bytes => return .done (written path bytes)
    | .error e => return .failed e.message
  else
    match ← Disk.writeNew path text with
    | .ok (some bytes) => return .done (written path bytes)
    | .ok none => return .done (skipped path)
    | .error e => return .failed e.message

def runGenerate (manifest : String) (output : Option String) (dryRun force : Bool) : m Outcome := do
  match ← Manifest.load manifest with
  | .error f => return .failed f.message
  | .ok d =>
    match d.unit.write with
    | .error e => return .failed e.message
    | .ok text =>
      if dryRun then return .done text
      else
        let isDirectory ← match output with
          | some path => Disk.isDirectory (Path.ofString path)
          | none => pure false
        save force (target output isDirectory d.unit.name) text

def runCheck (manifest : String) : m Outcome := do
  match ← Manifest.load manifest with
  | .error f => return .failed f.message
  | .ok d => return .done (report manifest d)

def runInit (file : String) (force : Bool) : m Outcome :=
  save force file ConfigFile.skeleton.source

def sectionValue (json : String) : Except String Value :=
  match Json.parse? json with
  | none => .error "section contents are not valid JSON"
  | some doc => (Value.ofJson doc).mapError LiteralError.message

def runAdd (file name json : String) : m Outcome := do
  match sectionValue json with
  | .error e => return .failed e
  | .ok v =>
    match ← ConfigFile.load file with
    | .error e => return .failed e.message
    | .ok config =>
      match config.addSection name v with
      | .error e => return .failed e.message
      | .ok new =>
        match ← Disk.writeText file new.source with
        | .ok bytes => return .done (added name file bytes)
        | .error e => return .failed e.message

/-- A script is printed, or written where its directory already is. -/
def runCompletions (shell : Shell) (output : Option String) : m Outcome := do
  match output with
  | none => return .done (script shell)
  | some path =>
    if ← Disk.store (Path.ofString path) (script shell).toUTF8 then return .done ""
    else return .failed (FileError.write path).message

def run : Command → m Outcome
  | .generate manifest output dryRun force => runGenerate manifest output dryRun force
  | .check manifest => runCheck manifest
  | .configInit file force => runInit file force
  | .configAdd file name json => runAdd file name json
  | .completions shell output => runCompletions shell output

def answer (args : List String) : m Outcome :=
  match read args with
  | .ok (.run _ c) => c.run
  | .ok (.help names) => pure (.done (helpText names))
  | .ok .version => pure (.done versionLine)
  | .error e => pure (.misused e.message)

end PhpScribe.Command
