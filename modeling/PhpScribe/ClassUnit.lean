/-
  PhpScribe.ClassUnit — the description of one class and, once generated, its text.

  A unit is either being built or generated. Every change gives a unit that is being
  built, so a text never outlives the description it was made from; only
  `withText`, which sets the text itself, keeps the unit generated. `generate` makes
  the text from the description alone.
-/

import PhpScribe.Declaration
import PhpScribe.Sheet

namespace PhpScribe

structure ClassUnit where
  name : String := ""
  ns : Option String := none
  parent : Option String := none
  interface : Option String := none
  packages : List String := []
  traits : List String := []
  fields : List Field := []
  constants : List Constant := []
  methods : List Method := []
  generated : Option String := none

namespace ClassUnit

instance : Inhabited ClassUnit := ⟨{}⟩

def new (name : String) : ClassUnit := { name }

def ofParts (name : String) (ns : Option String) (packages : List String)
    (methods : List Method) (traits : List String) : ClassUnit :=
  { name, ns, packages, methods, traits }

/-- The text; empty while the unit is being built. -/
def text (u : ClassUnit) : String := u.generated.getD ""

def isGenerated (u : ClassUnit) : Bool := u.generated.isSome

def findMethod (u : ClassUnit) (name : String) : Option Method := u.methods.find? (·.name == name)

/-! ## Changes -/

def building (u : ClassUnit) : ClassUnit := { u with generated := none }

def withName (u : ClassUnit) (name : String) : ClassUnit := { u.building with name }

def withNamespace (u : ClassUnit) (ns : String) : ClassUnit := { u.building with ns := some ns }

def withParent (u : ClassUnit) (parent : String) : ClassUnit :=
  { u.building with parent := some parent }

def withInterface (u : ClassUnit) (interface : String) : ClassUnit :=
  { u.building with interface := some interface }

def withPackages (u : ClassUnit) (packages : List String) : ClassUnit :=
  { u.building with packages }

def withTraits (u : ClassUnit) (traits : List String) : ClassUnit := { u.building with traits }

def withFields (u : ClassUnit) (fields : List Field) : ClassUnit := { u.building with fields }

def withField (u : ClassUnit) (f : Field) : ClassUnit :=
  { u.building with fields := u.fields ++ [f] }

def withVariable (u : ClassUnit) (visibility : Visibility) (name type : String) (isStatic : Bool)
    (default : Option Value) : ClassUnit :=
  u.withField { name, visibility, type, isStatic, default }

def withConstants (u : ClassUnit) (constants : List Constant) : ClassUnit :=
  { u.building with constants }

def withConstant (u : ClassUnit) (c : Constant) : ClassUnit :=
  { u.building with constants := u.constants ++ [c] }

/-- Append a constant from its parts; it is not static. -/
def withConstantValue (u : ClassUnit) (visibility : Visibility) (name type : String)
    (value : Option Value) : ClassUnit :=
  u.withConstant { name, visibility, type, value }

def withMethods (u : ClassUnit) (methods : List Method) : ClassUnit := { u.building with methods }

def withMethod (u : ClassUnit) (m : Method) : ClassUnit :=
  { u.building with methods := u.methods ++ [m] }

/-- Change the first method of a name where it stands; without one nothing changes. -/
def changeFirst (name : String) (f : Method → Method) : List Method → List Method
  | [] => []
  | m :: ms => if m.name = name then f m :: ms else m :: changeFirst name f ms

def withArgument (u : ClassUnit) (name : String) (a : Argument) : ClassUnit :=
  { u.building with
    methods := changeFirst name (fun m => { m with arguments := m.arguments ++ [a] }) u.methods }

def withArguments (u : ClassUnit) (name : String) (as : List Argument) : ClassUnit :=
  { u.building with methods := changeFirst name (fun m => { m with arguments := as }) u.methods }

def withText (u : ClassUnit) (text : String) : ClassUnit := { u with generated := some text }

/-! ## Generation -/

/-- The blocks of members in their order: traits, constants, fields, methods. -/
def blocks (u : ClassUnit) : Except LiteralError (List (List Fragment)) := do
  let constants ← u.constants.mapM Declaration.constantLine
  let fields ← u.fields.mapM Declaration.fieldLine
  let methods ← u.methods.mapM Declaration.method
  return [if u.traits.isEmpty then [] else [.line (Declaration.traitLine u.traits)],
    constants.map .line, fields.map .line, methods.map .sequence]

/-- The class header; an empty parent or interface counts as absent. -/
def header (u : ClassUnit) : String :=
  Declaration.classHeader u.name (Declaration.given u.parent) (Declaration.given u.interface)

def write (u : ClassUnit) : Except LiteralError String := do
  let blocks ← u.blocks
  let preamble := Declaration.preamble (Declaration.given u.ns) u.packages
  return ((Sheet.code.emitAll preamble).emitAll (Declaration.classBody u.header blocks)).text

def generate (u : ClassUnit) : Except LiteralError ClassUnit := u.write.map u.withText

/-! ## Equality -/

def eqv (a b : ClassUnit) : Bool :=
  a.name == b.name && a.ns == b.ns && a.parent == b.parent && a.interface == b.interface &&
    a.packages == b.packages && a.traits == b.traits && eqvBy Field.eqv a.fields b.fields &&
    eqvBy Constant.eqv a.constants b.constants && eqvBy Method.eqv a.methods b.methods &&
    a.generated == b.generated

end ClassUnit

end PhpScribe
