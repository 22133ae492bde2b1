/-
  PhpScribe.Manifest — descriptions of a class, and what can be wrong with one.

  A manifest holds what a class file is made from; `Manifest.unit` makes the unit, with
  everything in the order of the manifest. A fault is of one of three kinds: the file
  cannot be read, the text is no manifest, or a default in it is one that cannot be
  written; only the last has a place in the text.
-/

import PhpScribe.ClassUnit
import PhpScribe.Toml.Node

namespace PhpScribe

namespace Manifest

structure ClassEntry where
  name : String
  ns : Option String := none
  parent : Option String := none
  interface : Option String := none
  uses : List String := []
  traits : List String := []

structure MethodEntry where
  name : String
  visibility : Visibility := default
  isStatic : Bool := false
  returns : Option String := none
  body : Option String := none
  doc : Option String := none
  arguments : List Argument := []

/-- The method of an entry; one without a body gets the placeholder. -/
def MethodEntry.method (m : MethodEntry) : Method :=
  { name := m.name
    visibility := m.visibility
    isStatic := m.isStatic
    arguments := m.arguments
    returns := m.returns
    body := m.body.getD placeholderBody
    doc := m.doc }

end Manifest

structure Manifest where
  classEntry : Manifest.ClassEntry
  constants : List Constant
  fields : List Field
  methods : List Manifest.MethodEntry

namespace Manifest

def unit (m : Manifest) : ClassUnit :=
  { name := m.classEntry.name
    ns := m.classEntry.ns
    parent := m.classEntry.parent
    interface := m.classEntry.interface
    packages := m.classEntry.uses
    traits := m.classEntry.traits
    fields := m.fields
    constants := m.constants
    methods := m.methods.map MethodEntry.method }

inductive Fault where
  /-- The file at this path cannot be read. -/
  | unreadable (path : String)
  /-- The text of this name is no manifest. -/
  | malformed (name : String)
  /-- A default in the text of this name, at this place. -/
  | invalid (message : String) (name : String) (span : Toml.Span)
  deriving DecidableEq

namespace Fault

def message : Fault → String
  | .unreadable path => "failed to read '" ++ path ++ "'"
  | .malformed _ => "failed to parse class manifest"
  | .invalid message _ _ => message

def code : Fault → Option String
  | .unreadable _ => none
  | .malformed _ => some "phpgen::parse_error"
  | .invalid _ _ _ => some "phpgen::validation_error"

def help : Fault → Option String
  | .unreadable _ => some "run 'phpgen generate --manifest <path>' with an existing class manifest"
  | _ => none

def file : Fault → Option String
  | .unreadable _ => none
  | .malformed name => some name
  | .invalid _ name _ => some name

def span : Fault → Option Toml.Span
  | .invalid _ _ span => some span
  | _ => none

end Fault

def defaultName : String := "class.toml"

end Manifest

end PhpScribe
