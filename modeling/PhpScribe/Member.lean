/-
  PhpScribe.Member — the members of a class.

  Fields are protected unless they say otherwise, constants and methods public. A
  default that is absent and a default that is null are two things: the first leaves
  the `=` away. A method without a body of its own holds a lone comment.
-/

import PhpScribe.Value

namespace PhpScribe

inductive Visibility where
  | «public»
  | «protected»
  | «private»
  deriving DecidableEq, Repr

namespace Visibility

instance : Inhabited Visibility := ⟨.public⟩

def keyword : Visibility → String
  | .public => "public"
  | .protected => "protected"
  | .private => "private"

def ofKeyword? (s : String) : Option Visibility :=
  if s = "public" then some .public
  else if s = "protected" then some .protected
  else if s = "private" then some .private
  else none

end Visibility

structure Field where
  name : String
  visibility : Visibility := .protected
  /-- The type; empty for none. -/
  type : String := ""
  isStatic : Bool := false
  default : Option Value := none

structure Constant where
  name : String
  visibility : Visibility := .public
  /-- The type; empty for none. -/
  type : String := ""
  /-- Kept with the constant; it is never written. -/
  isStatic : Bool := false
  value : Option Value := none

structure Argument where
  name : String
  type : Option String := none
  default : Option Value := none

def placeholderBody : String := "//"

structure Method where
  name : String
  visibility : Visibility := .public
  isStatic : Bool := false
  arguments : List Argument := []
  returns : Option String := none
  body : String := placeholderBody
  /-- The summary of the documentation comment. -/
  doc : Option String := none

namespace Field

def eqv (a b : Field) : Bool :=
  a.name == b.name && a.visibility == b.visibility && a.type == b.type &&
    a.isStatic == b.isStatic && Value.eqv? a.default b.default

end Field

namespace Constant

def eqv (a b : Constant) : Bool :=
  a.name == b.name && a.visibility == b.visibility && a.type == b.type &&
    a.isStatic == b.isStatic && Value.eqv? a.value b.value

end Constant

def eqvBy {α : Type} (f : α → α → Bool) : List α → List α → Bool
  | [], [] => true
  | a :: as, b :: bs => f a b && eqvBy f as bs
  | _, _ => false

namespace Argument

def eqv (a b : Argument) : Bool :=
  a.name == b.name && a.type == b.type && Value.eqv? a.default b.default

end Argument

namespace Method

def isStub (m : Method) : Bool := m.body == placeholderBody

def eqv (a b : Method) : Bool :=
  a.name == b.name && a.visibility == b.visibility && a.isStatic == b.isStatic &&
    eqvBy Argument.eqv a.arguments b.arguments && a.returns == b.returns && a.body == b.body &&
    a.doc == b.doc

end Method

end PhpScribe
