/-
  PhpScribe.Command — what the program can be asked to do, and what comes of it.
-/

namespace PhpScribe

inductive Shell where
  | bash
  | elvish
  | fish
  | powershell
  | zsh
  deriving DecidableEq

namespace Shell

def ofName? (s : String) : Option Shell :=
  if s = "bash" then some .bash
  else if s = "elvish" then some .elvish
  else if s = "fish" then some .fish
  else if s = "powershell" then some .powershell
  else if s = "zsh" then some .zsh
  else none

end Shell

inductive Command where
  /-- Write the class of a manifest; `dryRun`: print it instead. -/
  | generate (manifest : String) (output : Option String) (dryRun force : Bool)
  /-- Report on a manifest. -/
  | check (manifest : String)
  /-- Write an empty config file. -/
  | configInit (file : String) (force : Bool)
  /-- Add a section to a config file; its contents are JSON. -/
  | configAdd (file name json : String)
  | completions (shell : Shell) (output : Option String)
  deriving DecidableEq

inductive Request where
  | run (verbose : Bool) (command : Command)
  /-- Help on the command that these names lead to. -/
  | help (names : List String)
  | version
  deriving DecidableEq

/-- What a run leaves behind, files apart: a code, and what it says. -/
structure Outcome where
  exit : Nat
  out : String
  err : String
  deriving DecidableEq

namespace Outcome

def done (out : String) : Outcome := ⟨0, out, ""⟩

def failed (message : String) : Outcome := ⟨1, "", message ++ "\n"⟩

def misused (message : String) : Outcome := ⟨2, "", message ++ "\n"⟩

end Outcome

end PhpScribe
