/-
  PhpScribe.Manifest.File — manifests on a disk.
-/

import PhpScribe.Disk
import PhpScribe.Manifest.Reader

namespace PhpScribe.Manifest

/-- The manifest in the file at a path; faults in it name the path. -/
def load {m : Type → Type} [Monad m] [Disk m] (path : String) : m (Except Fault Manifest) := do
  match ← Disk.readText path with
  | .ok text => return parse text path
  | .error _ => return .error (.unreadable path)

end PhpScribe.Manifest
