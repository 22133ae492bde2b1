/-
  PhpScribe.Fragment — pieces of code before they are indented.

  A fragment says what stands on a line and what stands one level deeper, never how
  wide a level is. A text becomes one fragment a line (`ofText`); its blank lines
  become blank fragments, so that indenting leaves no white space on them.
-/

import PhpScribe.Text.Blank
import PhpScribe.Text.Lines

namespace PhpScribe

inductive Fragment where
  | line (text : String)
  | blank
  /-- A header, a body one level deeper, and a closing line if there is one. -/
  | block (header : String) (body : List Fragment) (close : Option String)
  | indent (body : List Fragment)
  | sequence (parts : List Fragment)
  /-- A documentation comment, one text a line. -/
  | doc (lines : List String)
  deriving Inhabited

namespace Fragment

def ofLine (l : List Char) : Fragment :=
  if Text.allBlank l then .blank else .line (String.ofList l)

def ofText (s : String) : List Fragment := (Text.lines s.toList).map ofLine

end Fragment

end PhpScribe
