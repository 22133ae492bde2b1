/-
  PhpScribe.Toml.Datum — what a node holds, apart from its place and how it came to be.

  A node with a valueless number in it holds nothing. A table whose first key is
  `dateKey` stands for the date that its text spells: its other members do not count, and
  it holds nothing when there is no such date. The tables of a whole document are tables
  under any key.

  The value of a datum is what it is as a literal; a date has none (`Value.ofToml`).
-/

import PhpScribe.Literal.Error
import PhpScribe.Toml.Scalar
import PhpScribe.Value

namespace PhpScribe

namespace Toml

inductive Datum where
  | string (s : String)
  | integer (n : Int64)
  | float (x : Float)
  | bool (b : Bool)
  /-- A date, a time, or both. -/
  | datetime
  | array (items : List Datum)
  /-- The members in the order of the document. -/
  | table (members : List (String × Datum))

namespace Datum

def ofScalar? : Scalar → Option Datum
  | .string s => some (.string s)
  | .integer n => some (.integer n)
  | .float x => some (.float x)
  | .bool b => some (.bool b)
  | .datetime => some .datetime
  | .valueless => none

/-- The key of a text that spells a date, in a table that stands for that date. -/
def dateKey : String := "$__toml_private_datetime"

def spellsDate : Node → Bool
  | .scalar (.string s) _ => Scalar.isDatetime s.toList
  | _ => false

mutual
def ofNode? : Node → Option Datum
  | .scalar s _ => ofScalar? s
  | .array _ items _ => (ofItems? items).map .array
  | .table _ members _ => ofTable? members

def ofItems? : List Node → Option (List Datum)
  | [] => some []
  | n :: ns => do
    let d ← ofNode? n
    let ds ← ofItems? ns
    return d :: ds

def ofTable? : List (String × Node) → Option Datum
  | [] => some (.table [])
  | (k, n) :: ms =>
    if k = dateKey then if spellsDate n then some .datetime else none
    else do
      let d ← ofNode? n
      let ds ← ofMembers? ms
      return .table ((k, d) :: ds)

def ofMembers? : List (String × Node) → Option (List (String × Datum))
  | [] => some []
  | (k, n) :: ms => do
    let d ← ofNode? n
    let ds ← ofMembers? ms
    return (k, d) :: ds
end

def ofDocument? (members : Members) : Option Datum := (ofMembers? members).map .table

end Datum

end Toml

namespace Value

mutual
def ofToml : Toml.Datum → Except LiteralError Value
  | .string s => .ok (.string s)
  | .integer n => .ok (.int n)
  | .float x => .ok (.float x)
  | .bool b => .ok (.bool b)
  | .datetime => .error .datetime
  | .array items => (ofTomlItems items).map .list
  | .table members => (ofTomlMembers members).map Value.ofEntries

def ofTomlItems : List Toml.Datum → Except LiteralError (List Value)
  | [] => .ok []
  | d :: ds => do
    let v ← ofToml d
    let vs ← ofTomlItems ds
    return v :: vs

def ofTomlMembers : List (String × Toml.Datum) → Except LiteralError (List (Key × Value))
  | [] => .ok []
  | (k, d) :: ms => do
    let v ← ofToml d
    let es ← ofTomlMembers ms
    return (.str k, v) :: es
end

end Value

end PhpScribe
