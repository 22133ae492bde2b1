/-
  PhpScribe.Toml.Node — the tree of a TOML document, each node with its place.

  A table remembers how it came to be, for that decides whether later lines may add to
  it: by a header of its own, only on the way to another header, by dotted keys, or
  whole in braces. An array is written whole, or grows with each `[[header]]`.
-/

namespace PhpScribe

namespace Toml

/-- A place in a text, in bytes. -/
structure Span where
  start : Nat
  length : Nat
  deriving DecidableEq

def Span.between (start stop : Nat) : Span := ⟨start, stop - start⟩

inductive Scalar where
  | string (s : String)
  | integer (n : Int64)
  | float (x : Float)
  | bool (b : Bool)
  /-- A date, a time, or both. -/
  | datetime
  /-- A number in form only: too large for its type, without digits, or with other
      characters among its digits. A document may hold it where nobody asks for it. -/
  | valueless

inductive Origin where
  | header
  /-- On the way to the table of a longer header. -/
  | implied
  | dotted
  /-- Whole, in braces. -/
  | braces
  deriving DecidableEq

inductive Node where
  | scalar (s : Scalar) (span : Span)
  /-- `ofHeaders`: one table for each `[[header]]`. -/
  | array (ofHeaders : Bool) (items : List Node) (span : Span)
  | table (origin : Origin) (members : List (String × Node)) (span : Span)

abbrev Members := List (String × Node)

def Node.span : Node → Span
  | .scalar _ span => span
  | .array _ _ span => span
  | .table _ _ span => span

end Toml

end PhpScribe
