/-
  PhpScribe.Command.Arguments — the request that a list of arguments makes.

  Arguments are read from left to right, and the first that is wrong ends it. An option
  is a flag or takes a path, behind it (`-m x`, `--manifest x`) or as part of it (`-mx`,
  `-m=x`, `--manifest=x`); flags of one letter may be written together. No option is
  given twice at one level, no path is empty, and no option's value starts with a dash,
  unless it is part of the option or a dash alone. Behind `--` nothing is an option. Help
  is given as soon as it is asked for.
-/

import PhpScribe.Command

namespace PhpScribe.Command

inductive UsageError where
  | unknownOption (option : String)
  | missingValue (option : String)
  | emptyValue (option : String)
  | needlessValue (option : String)
  | repeated (option : String)
  | unexpected (argument : String)
  | invalid (argument : String)
  | missingOperand
  | unknownCommand (name : String)
  | noCommand
  deriving DecidableEq

def UsageError.message : UsageError → String
  | .unknownOption o => "unexpected argument '" ++ o ++ "'"
  | .missingValue o => "a value is required for '" ++ o ++ "'"
  | .emptyValue o => "the value of '" ++ o ++ "' may not be empty"
  | .needlessValue o => "'" ++ o ++ "' takes no value"
  | .repeated o => "'" ++ o ++ "' cannot be used multiple times"
  | .unexpected a => "unexpected argument '" ++ a ++ "'"
  | .invalid a => "invalid value '" ++ a ++ "'"
  | .missingOperand => "a required argument was not provided"
  | .unknownCommand n => "unrecognized subcommand '" ++ n ++ "'"
  | .noCommand => "a subcommand is required"

/-! ## Levels -/

structure Switch where
  long : String
  short : Option Char
  takesPath : Bool

inductive Operand where
  | path
  | text
  | shell

def Operand.accepts : Operand → String → Bool
  | .path, s => !s.isEmpty
  | .text, _ => true
  | .shell, s => (Shell.ofName? s).isSome

structure Level where
  switches : List Switch
  operands : List Operand
  /-- The first argument that is no option names a command. -/
  isGroup : Bool
  hasVersion : Bool

def verbose : Switch := ⟨"verbose", some 'v', false⟩

def manifest : Switch := ⟨"manifest", some 'm', true⟩

def output : Switch := ⟨"output", some 'o', true⟩

def dryRun : Switch := ⟨"dry-run", none, false⟩

def force : Switch := ⟨"force", none, false⟩

def rootLevel : Level := ⟨[verbose], [], true, true⟩

def groupLevel : Level := ⟨[verbose], [], true, false⟩

def leafLevel (switches : List Switch) (operands : List Operand) : Level :=
  ⟨verbose :: switches, operands, false, false⟩

/-! ## Reading one level -/

structure Given where
  options : List (String × String)
  operands : List String

namespace Given

def nothing : Given := ⟨[], []⟩

def value? (g : Given) (s : Switch) : Option String := g.options.lookup s.long

def has (g : Given) (s : Switch) : Bool := (g.value? s).isSome

/-- An option with its value; a flag has none to tell. -/
def addOption (g : Given) (s : Switch) (value : String) : Except UsageError Given :=
  if s.takesPath && value.isEmpty then .error (.emptyValue s.long)
  else if g.has s then .error (.repeated s.long)
  else .ok { g with options := g.options ++ [(s.long, value)] }

def addOperand (l : Level) (g : Given) (s : String) : Except UsageError Given :=
  match l.operands[g.operands.length]? with
  | none => .error (.unexpected s)
  | some o =>
    if o.accepts s then .ok { g with operands := g.operands ++ [s] } else .error (.invalid s)

end Given

inductive Form where
  | endOfOptions
  | long (name : String) (value : Option String)
  /-- One dash and letters behind it. -/
  | short (letters : List Char)
  | plain

/-- The text in front of the first `=` and the text behind it. -/
def cutValue : List Char → List Char × Option (List Char)
  | [] => ([], none)
  | '=' :: s => ([], some s)
  | c :: s => (cutValue s).map (c :: ·) id

def Form.ofString (s : String) : Form :=
  match s.toList with
  | ['-', '-'] => .endOfOptions
  | '-' :: '-' :: cs => .long (String.ofList (cutValue cs).1) ((cutValue cs).2.map String.ofList)
  | '-' :: c :: cs => .short (c :: cs)
  | _ => .plain

inductive Effect where
  | given (g : Given)
  /-- The value of the option is the next argument. -/
  | wants (g : Given) (s : Switch)
  | help
  | version

def longEffect (l : Level) (g : Given) (name : String) (value : Option String) :
    Except UsageError Effect :=
  if name = "help" then
    if value.isSome then .error (.needlessValue name) else .ok .help
  else if name = "version" ∧ l.hasVersion then
    if value.isSome then .error (.needlessValue name) else .ok .version
  else
    match l.switches.find? (·.long == name), value with
    | none, _ => .error (.unknownOption name)
    | some s, none =>
      if s.takesPath then .ok (.wants g s) else (g.addOption s "").map .given
    | some s, some v =>
      if s.takesPath then (g.addOption s v).map .given else .error (.needlessValue name)

def shortEffect (l : Level) (g : Given) : List Char → Except UsageError Effect
  | [] => .ok (.given g)
  | c :: cs =>
    if c = 'h' then .ok .help
    else if c = 'V' ∧ l.hasVersion then .ok .version
    else
      match l.switches.find? (·.short == some c) with
      | none => .error (.unknownOption (String.ofList [c]))
      | some s =>
        if s.takesPath then
          match cs with
          | [] => .ok (.wants g s)
          | '=' :: v => (g.addOption s (String.ofList v)).map .given
          | v => (g.addOption s (String.ofList v)).map .given
        else (g.addOption s "").bind fun g => shortEffect l g cs

inductive Reading where
  | all (g : Given)
  /-- The name of a command, and the arguments behind it. -/
  | command (g : Given) (name : String) (rest : List String)
  | help
  | version

/-- Arguments none of which is an option. -/
def readOperands (l : Level) (g : Given) : List String → Except UsageError Reading
  | [] => .ok (.all g)
  | a :: rest => (g.addOperand l a).bind fun g => readOperands l g rest

def readLevel (l : Level) (g : Given) : List String → Except UsageError Reading
  | [] => .ok (.all g)
  | a :: rest =>
    let effect : Except UsageError Effect :=
      match Form.ofString a with
      | .long name value => longEffect l g name value
      | .short letters => shortEffect l g letters
      | _ => .ok (.given g)
    match Form.ofString a, effect with
    | .endOfOptions, _ => readOperands l g rest
    | .plain, _ =>
      if l.isGroup then .ok (.command g a rest)
      else (g.addOperand l a).bind fun g => readLevel l g rest
    | _, .error e => .error e
    | _, .ok .help => .ok .help
    | _, .ok .version => .ok .version
    | _, .ok (.given g) => readLevel l g rest
    | _, .ok (.wants g s) =>
      match rest with
      | [] => .error (.missingValue s.long)
      | v :: rest =>
        match Form.ofString v with
        | .plain => (g.addOption s v).bind fun g => readLevel l g rest
        | _ => .error (.missingValue s.long)

/-! ## Requests -/

def subcommands : List String → List String
  | [] => ["generate", "check", "config", "completions", "help"]
  | ["config"] => ["init", "add", "help"]
  | _ => []

def readHelp (names : List String) : List String → Except UsageError Request
  | [] => .ok (.help names)
  | a :: rest =>
    if (subcommands names).contains a then readHelp (names ++ [a]) rest
    else .error (.unknownCommand a)

/-- A command that leads to no other: its level, and the command of what was given there. -/
def readLeaf (names : List String) (isVerbose : Bool) (l : Level)
    (command : Given → Option Command) (args : List String) :
    Except UsageError Request :=
  (readLevel l .nothing args).bind fun
    | .help | .version | .command _ _ _ => .ok (.help names)
    | .all g =>
      match command g with
      | some c => .ok (.run (isVerbose || g.has verbose) c)
      | none => .error .missingOperand

def defaultManifest : String := "class.toml"

def readGenerate (isVerbose : Bool) : List String → Except UsageError Request :=
  readLeaf ["generate"] isVerbose (leafLevel [manifest, output, dryRun, force] []) fun g =>
    some (.generate ((g.value? manifest).getD defaultManifest) (g.value? output) (g.has dryRun)
      (g.has force))

def readCheck (isVerbose : Bool) : List String → Except UsageError Request :=
  readLeaf ["check"] isVerbose (leafLevel [manifest] []) fun g =>
    some (.check ((g.value? manifest).getD defaultManifest))

def readCompletions (isVerbose : Bool) : List String → Except UsageError Request :=
  readLeaf ["completions"] isVerbose (leafLevel [output] [.shell]) fun g =>
    match g.operands with
    | [s] => (Shell.ofName? s).map (.completions · (g.value? output))
    | _ => none

def readInit (isVerbose : Bool) : List String → Except UsageError Request :=
  readLeaf ["config", "init"] isVerbose (leafLevel [force] [.path]) fun g =>
    match g.operands with
    | [file] => some (.configInit file (g.has force))
    | _ => none

def readAdd (isVerbose : Bool) : List String → Except UsageError Request :=
  readLeaf ["config", "add"] isVerbose (leafLevel [] [.path, .text, .text]) fun g =>
    match g.operands with
    | [file, name, json] => some (.configAdd file name json)
    | _ => none

def readConfig (isVerbose : Bool) (args : List String) : Except UsageError Request :=
  (readLevel groupLevel .nothing args).bind fun
    | .help | .version => .ok (.help ["config"])
    | .all _ => .error .noCommand
    | .command g name rest =>
      let isVerbose := isVerbose || g.has verbose
      if name = "init" then readInit isVerbose rest
      else if name = "add" then readAdd isVerbose rest
      else if name = "help" then readHelp ["config"] rest
      else .error (.unknownCommand name)

def read (args : List String) : Except UsageError Request :=
  (readLevel rootLevel .nothing args).bind fun
    | .help => .ok (.help [])
    | .version => .ok .version
    | .all _ => .error .noCommand
    | .command g name rest =>
      let isVerbose := g.has verbose
      if name = "generate" then readGenerate isVerbose rest
      else if name = "check" then readCheck isVerbose rest
      else if name = "config" then readConfig isVerbose rest
      else if name = "completions" then readCompletions isVerbose rest
      else if name = "help" then readHelp [] rest
      else .error (.unknownCommand name)

end PhpScribe.Command
