/-
  PhpScribe.ConfigFile.File — config files on a disk.
-/

import PhpScribe.ConfigFile
import PhpScribe.Disk

namespace PhpScribe.ConfigFile

def load {m : Type → Type} [Monad m] [Disk m] (path : String) :
    m (Except FileError ConfigFile) := do
  return (← Disk.readText path).map ConfigFile.mk

end PhpScribe.ConfigFile
