/-
  PhpScribe.Literal — values spelled as PHP literals.

  A scalar has one spelling. An array is written on one line (`[1, 'a' => 2]`) or with
  one entry a line and a comma after each; the arrays inside it stand one level
  deeper. An empty array is `[]` either way. A double is written with its shortest
  digits and always marked as a double; NaN, the infinities and nothing else have no
  literal, and the first such value in reading order is the one that is named.
-/

import PhpScribe.Decimal.Layout
import PhpScribe.Indent
import PhpScribe.Literal.Error
import PhpScribe.Literal.Quoted
import PhpScribe.Text.Lines
import PhpScribe.Value

namespace PhpScribe

inductive Layout where
  /-- All on one line. -/
  | inline
  /-- One entry a line; the bracket that opens the array stands at level `depth`. -/
  | multiline (indent : Indent) (depth : Nat)
  deriving DecidableEq, Inhabited

namespace Layout

/-- The layout of config files, whose opening bracket stands at level `depth`. -/
def config (depth : Nat) : Layout := .multiline .config depth

def nested : Layout → Layout
  | .inline => .inline
  | .multiline indent depth => .multiline indent (depth + 1)

def bracket (l : Layout) (entries : List String) : String :=
  if entries.isEmpty then "[]"
  else
    match l with
    | .inline => "[" ++ Text.join ", " entries ++ "]"
    | .multiline indent depth =>
      "[\n" ++ Text.concat (entries.map (indent.text (depth + 1) ++ · ++ ",\n")) ++
        indent.text depth ++ "]"

end Layout

namespace Literal

/-- The least integer has no literal of its own, for PHP reads a minus and the digits
    apart; its constant stands for it. -/
def int (n : Int64) : String :=
  if n = Int64.minValue then "PHP_INT_MIN" else String.ofList (Decimal.intDigits n.toInt)

/-- Doubles from `0.0001` up to `10 ^ 16` are written with their places. -/
def floatLayout : Decimal.Layout := ⟨-3, 16⟩

def float (x : Float) : Except LiteralError String :=
  if x.isNaN then .error .notANumber
  else if x.isInf then .error .infinite
  else
    let digits := Decimal.write floatLayout (Decimal.ofFloat x)
    .ok (String.ofList (if x.toBits ≥ 0x8000000000000000 then '-' :: digits else digits))

def key : Key → String
  | .int n => int n
  | .str s => quote s

mutual
def spell (l : Layout) : Value → Except LiteralError String
  | .null => .ok "null"
  | .bool true => .ok "true"
  | .bool false => .ok "false"
  | .int n => .ok (int n)
  | .float x => float x
  | .string s => .ok (quote s)
  | .list items => (spellItems l.nested items).map l.bracket
  | .map entries => (spellEntries l.nested entries).map l.bracket

def spellItems (l : Layout) : List Value → Except LiteralError (List String)
  | [] => .ok []
  | v :: vs => do
    let s ← spell l v
    let ss ← spellItems l vs
    return s :: ss

def spellEntries (l : Layout) : List (Key × Value) → Except LiteralError (List String)
  | [] => .ok []
  | (k, v) :: es => do
    let s ← spell l v
    let ss ← spellEntries l es
    return (key k ++ " => " ++ s) :: ss
end

def render (v : Value) : Except LiteralError String := spell .inline v

end Literal

end PhpScribe
