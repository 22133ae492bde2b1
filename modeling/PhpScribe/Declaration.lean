/-
  PhpScribe.Declaration — the lines and fragments that declare PHP things.

  Single lines (a field, a constant, a signature) are strings without indentation; what
  takes several lines is a list of fragments. A piece that is absent or empty leaves no
  trace: no type, no space before it. Only a default value can fail to be written, and
  the first that fails is the one reported.
-/

import PhpScribe.Fragment
import PhpScribe.Literal
import PhpScribe.Member

namespace PhpScribe.Declaration

def openTag : String := "<?php"

def strictTypes : String := "declare(strict_types=1);"

/-! ## Lines -/

def namespaceLine (name : String) : String := "namespace " ++ name ++ ";"

def importLine (package : String) : String := "use " ++ package ++ ";"

/-- `class C extends P implements I`. -/
def classHeader (name : String) (parent interface : Option String) : String :=
  "class " ++ name ++
    (match parent with | some p => " extends " ++ p | none => "") ++
    (match interface with | some i => " implements " ++ i | none => "")

def traitLine (traits : List String) : String := Text.concat (traits.map importLine)

/-- A type and the space in front of it; nothing for the empty type. -/
def spaced (type : String) : String := if type.isEmpty then "" else " " ++ type

def assigned : Option Value → Except LiteralError String
  | none => .ok ""
  | some v => (Literal.render v).map (" = " ++ ·)

def fieldLine (f : Field) : Except LiteralError String :=
  (assigned f.default).map fun value =>
    f.visibility.keyword ++ (if f.isStatic then " static" else "") ++ spaced f.type ++ " $" ++
      f.name ++ value ++ ";"

def constantLine (c : Constant) : Except LiteralError String :=
  (assigned c.value).map fun value =>
    c.visibility.keyword ++ " const" ++ spaced c.type ++ " " ++ c.name ++ value ++ ";"

/-- A type that is there and not empty. -/
def given (type : Option String) : Option String := type.filter (!·.isEmpty)

def argument (a : Argument) : Except LiteralError String :=
  (assigned a.default).map fun value =>
    (match given a.type with | some t => t ++ " $" | none => "$") ++ a.name ++ value

def arguments (as : List Argument) : Except LiteralError String :=
  (as.mapM argument).map (Text.join ", ")

def functionHead (name args : String) (returns : Option String) : String :=
  "function " ++ name ++ "(" ++ args ++ ")" ++
    (match given returns with | some t => ": " ++ t | none => "")

/-- `public static function f($x): int` -/
def methodSignature (m : Method) : Except LiteralError String :=
  (arguments m.arguments).map fun args =>
    m.visibility.keyword ++ (if m.isStatic then " static" else "") ++ " " ++
      functionHead m.name args m.returns

/-! ## Documentation -/

def paramTag (a : Argument) : String :=
  "@param " ++ (given a.type).getD "mixed" ++ " $" ++ a.name

def docTags (m : Method) : List String :=
  m.arguments.map paramTag ++ ((given m.returns).map ("@return " ++ ·)).toList

/-- The lines of a method's documentation comment: the summary, then the tags, with an
    empty line between the two if both are there. -/
def docLines (m : Method) : Option (List String) :=
  m.doc.map fun summary =>
    let lines := Text.linesOf summary
    let tags := docTags m
    if lines.isEmpty || tags.isEmpty then lines ++ tags else lines ++ "" :: tags

/-! ## Fragments -/

def methodBlock (doc : Option (List String)) (signature body : String) : List Fragment :=
  (doc.map Fragment.doc).toList ++
    [.block (signature ++ " \x7b") (Fragment.ofText body) (some "\x7d")]

def method (m : Method) : Except LiteralError (List Fragment) :=
  (methodSignature m).map fun signature => methodBlock (docLines m) signature m.body

def preamble (ns : Option String) (packages : List String) : List Fragment :=
  [.line openTag, .blank, .line strictTypes, .blank] ++
    (match ns with | some n => [.line (namespaceLine n), .blank] | none => []) ++
    (if packages.isEmpty then [] else packages.map (.line ∘ importLine) ++ [.blank])

/-- Blocks of members with one blank line between neighbours. -/
def separated : List (List Fragment) → List Fragment
  | [] => []
  | [b] => b
  | b :: c :: rest => b ++ .blank :: separated (c :: rest)

/-- A class of member blocks; empty blocks leave no trace. -/
def classBody (header : String) (blocks : List (List Fragment)) : List Fragment :=
  [.line header, .line "\x7b", .indent (separated (blocks.filter (!·.isEmpty))), .line "\x7d"]

end PhpScribe.Declaration
