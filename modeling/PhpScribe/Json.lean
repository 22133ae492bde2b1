/-
  PhpScribe.Json — JSON documents, and the values they give.

  A number without a point or an exponent that fits 64 bits, signed or unsigned, is an
  integer; every other number is a double. The members of an object keep their order.
  An unsigned integer beyond the signed range is the one thing in a document that has
  no value (`ofJson`); the first one in reading order is named.
-/

import PhpScribe.Literal.Error
import PhpScribe.Value

namespace PhpScribe

namespace Json

inductive Number where
  | unsigned (n : UInt64)
  /-- A negative integer. -/
  | signed (n : Int64)
  | double (x : Float)

end Json

inductive Json where
  | null
  | bool (b : Bool)
  | number (n : Json.Number)
  | string (s : String)
  | array (items : List Json)
  | object (members : List (String × Json))
  deriving Inhabited

namespace Value

def ofNumber : Json.Number → Except LiteralError Value
  | .unsigned n =>
    if n.toNat < Nat.pow 2 63 then .ok (.int (Int64.ofNat n.toNat)) else .error (.wideInteger n)
  | .signed n => .ok (.int n)
  | .double x => .ok (.float x)

mutual
def ofJson : Json → Except LiteralError Value
  | .null => .ok .null
  | .bool b => .ok (.bool b)
  | .number n => ofNumber n
  | .string s => .ok (.string s)
  | .array items => (ofJsonItems items).map .list
  | .object members => (ofJsonMembers members).map Value.ofEntries

def ofJsonItems : List Json → Except LiteralError (List Value)
  | [] => .ok []
  | j :: js => do
    let v ← ofJson j
    let vs ← ofJsonItems js
    return v :: vs

def ofJsonMembers : List (String × Json) → Except LiteralError (List (Key × Value))
  | [] => .ok []
  | (k, j) :: ms => do
    let v ← ofJson j
    let es ← ofJsonMembers ms
    return (.str k, v) :: es
end

end Value

end PhpScribe
