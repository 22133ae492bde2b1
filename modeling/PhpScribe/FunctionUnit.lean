/-
  PhpScribe.FunctionUnit — a global function, guarded against a second declaration.

  It is built and generated as a class is: every change drops the text, and `generate`
  writes it anew.
-/

import PhpScribe.Declaration
import PhpScribe.Sheet

namespace PhpScribe

structure FunctionUnit where
  name : String
  arguments : List Argument := []
  returns : Option String := none
  body : String := placeholderBody
  generated : Option String := none

namespace FunctionUnit

def new (name : String) : FunctionUnit := { name }

def text (u : FunctionUnit) : String := u.generated.getD ""

def isGenerated (u : FunctionUnit) : Bool := u.generated.isSome

def building (u : FunctionUnit) : FunctionUnit := { u with generated := none }

def withArgument (u : FunctionUnit) (a : Argument) : FunctionUnit :=
  { u.building with arguments := u.arguments ++ [a] }

def withReturns (u : FunctionUnit) (type : String) : FunctionUnit :=
  { u.building with returns := some type }

def withBody (u : FunctionUnit) (body : String) : FunctionUnit := { u.building with body }

/-- The function inside the test that it is not yet declared. -/
def guarded (u : FunctionUnit) (args : String) : Fragment :=
  .block ("if (!function_exists(" ++ Literal.quote u.name ++ ")) \x7b")
    (Declaration.methodBlock none (Declaration.functionHead u.name args u.returns) u.body)
    (some "\x7d")

def write (u : FunctionUnit) : Except LiteralError String :=
  (Declaration.arguments u.arguments).map fun args =>
    ((Sheet.code.emitAll (Declaration.preamble none [])).emit (u.guarded args)).text

def generate (u : FunctionUnit) : Except LiteralError FunctionUnit :=
  u.write.map fun text => { u with generated := some text }

def eqv (a b : FunctionUnit) : Bool :=
  a.name == b.name && eqvBy Argument.eqv a.arguments b.arguments && a.returns == b.returns &&
    a.body == b.body && a.generated == b.generated

end FunctionUnit

end PhpScribe
