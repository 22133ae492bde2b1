/-
  PhpScribe.Command.Script — the texts of help and of the completion scripts.
-/

import PhpScribe.Command

namespace PhpScribe.Command

def versionLine : String := "phpgen 0.3.0\n"

def summary : List String → String
  | [] => "Generate PHP class files from TOML descriptions"
  | ["generate"] => "Generate a PHP class from class.toml"
  | ["check"] => "Validate class.toml without generating code"
  | ["config"] => "Create or extend a PHP config file"
  | ["config", "init"] => "Create an empty config file"
  | ["config", "add"] => "Add a section to an existing config file"
  | ["completions"] => "Generate shell completions"
  | _ => "Print help on a command"

def usage : List String → String
  | [] => "phpgen [-v] <generate | check | config | completions | help>"
  | ["generate"] => "phpgen generate [-m <MANIFEST>] [-o <OUTPUT>] [--dry-run] [--force]"
  | ["check"] => "phpgen check [-m <MANIFEST>]"
  | ["config"] => "phpgen config <init | add | help>"
  | ["config", "init"] => "phpgen config init <FILE> [--force]"
  | ["config", "add"] => "phpgen config add <FILE> <SECTION> <JSON>"
  | ["completions"] => "phpgen completions <SHELL> [-o <OUTPUT>]"
  | _ => "phpgen help [COMMAND]..."

def helpText (names : List String) : String :=
  summary names ++ "\n\nUsage: " ++ usage names ++ "\n"

def script : Shell → String
  | .bash => "complete -W 'generate check config completions help' phpgen\n"
  | .zsh => "#compdef phpgen\ncompadd generate check config completions help\n"
  | .fish => "complete -c phpgen -f -a 'generate check config completions help'\n"
  | .elvish =>
    "set edit:completion:arg-completer[phpgen] = \x7b|@words|\n" ++
      "  put generate check config completions help\n\x7d\n"
  | .powershell =>
    "Register-ArgumentCompleter -Native -CommandName 'phpgen' -ScriptBlock \x7b\n" ++
      "  'generate', 'check', 'config', 'completions', 'help'\n\x7d\n"

end PhpScribe.Command
