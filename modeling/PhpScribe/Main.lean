/-
  PhpScribe.Main — the program, on the files of the machine.
-/

import PhpScribe.Command.Run

namespace PhpScribe

def succeeds {α : Type} (act : IO α) : IO Bool := do
  try
    discard act
    return true
  catch _ => return false

instance : Disk IO where
  look p := do
    if ← succeeds (IO.FS.realPath (p.text ++ "/.")) then return some .directory
    else if ← succeeds (IO.FS.realPath p.text) then return some .file
    else return none
  load p := do
    try return some (← IO.FS.readBinFile p.text)
    catch _ => return none
  makeDirectory p := do
    try
      IO.FS.createDir p.text
      return .made
    catch
      | .noFileOrDirectory .. => return .noParent
      | _ => return .refused
  store p content := succeeds (IO.FS.writeBinFile p.text content)

end PhpScribe

def main (args : List String) : IO UInt32 := do
  let outcome ← (PhpScribe.Command.answer args : IO PhpScribe.Outcome)
  IO.print outcome.out
  IO.eprint outcome.err
  return outcome.exit.toUInt32
