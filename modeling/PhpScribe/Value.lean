/-
  PhpScribe.Value — the values that have a spelling as PHP literals.

  Null, booleans, 64-bit integers, doubles, strings, lists, and maps whose entries
  keep their order. `Value.eqv` is the equality of values as data: maps are compared
  without their order, and doubles as numbers, so that NaN differs from itself and
  the two zeros are one.
-/

import PhpScribe.Entries

namespace PhpScribe

inductive Key where
  | int (n : Int64)
  | str (s : String)
  deriving DecidableEq

inductive Value where
  | null
  | bool (b : Bool)
  | int (n : Int64)
  | float (x : Float)
  | string (s : String)
  /-- A sequential array. -/
  | list (items : List Value)
  /-- A keyed array, in the order of its entries. -/
  | map (entries : List (Key × Value))
  deriving Inhabited

namespace Value

/-- A map from its entries; a repeated key keeps its first position and takes its
    last value. -/
def ofEntries (es : List (Key × Value)) : Value := .map (Entries.ofList es)

def kind : Value → String
  | .null => "null"
  | .bool _ => "bool"
  | .int _ => "int"
  | .float _ => "float"
  | .string _ => "string"
  | .list _ => "list"
  | .map _ => "map"

def isNull : Value → Bool
  | .null => true
  | _ => false

mutual
def eqv : Value → Value → Bool
  | .null, .null => true
  | .bool a, .bool b => a == b
  | .int m, .int n => m == n
  | .float x, .float y => x == y
  | .string s, .string t => s == t
  | .list as, .list bs => eqvAll as bs
  | .map es, .map fs => es.length == fs.length && eqvEntries es fs
  | _, _ => false

def eqvAll : List Value → List Value → Bool
  | [], [] => true
  | a :: as, b :: bs => eqv a b && eqvAll as bs
  | _, _ => false

/-- Every entry of the first has an equal value under its key in the second. -/
def eqvEntries : List (Key × Value) → List (Key × Value) → Bool
  | [], _ => true
  | (k, v) :: es, fs =>
    (match Entries.get? k fs with
      | some w => eqv v w
      | none => false) && eqvEntries es fs
end

def eqv? : Option Value → Option Value → Bool
  | none, none => true
  | some v, some w => eqv v w
  | _, _ => false

end Value

end PhpScribe
