/-
  PhpScribe.Manifest.Reader — the manifest that a text spells.

  A default is a value, or null when `null_default` says so; to give both is a fault at
  `null_default`, and a value without a literal is a fault at that value. Faults are
  looked for in the constants, then in the fields, then in the arguments of the methods.
-/

import PhpScribe.Manifest.Draft
import PhpScribe.Toml.Reader

namespace PhpScribe.Manifest

open Toml (Datum Span)

def default? (file : String) :
    Option (Datum × Span) → Option (Bool × Span) → Except Fault (Option Value)
  | some _, some (true, span) =>
    .error (.invalid "a default value and null_default cannot both be set" file span)
  | none, some (true, _) => .ok (some .null)
  | none, _ => .ok none
  | some (d, span), _ =>
    match Value.ofToml d with
    | .ok v => .ok (some v)
    | .error e => .error (.invalid e.message file span)

def constantOf (file : String) (d : Draft Constant) : Except Fault Constant :=
  (default? file d.default d.null).map fun v => { d.base with value := v }

def fieldOf (file : String) (d : Draft Field) : Except Fault Field :=
  (default? file d.default d.null).map fun v => { d.base with default := v }

def argumentOf (file : String) (d : Draft Argument) : Except Fault Argument :=
  (default? file d.default d.null).map fun v => { d.base with default := v }

def methodOf (file : String) (d : MethodDraft) : Except Fault MethodEntry :=
  (d.arguments.mapM (argumentOf file)).map fun as => { d.base with arguments := as }

def ofOutline (file : String) (o : Outline) : Except Fault Manifest := do
  let constants ← o.constants.mapM (constantOf file)
  let fields ← o.fields.mapM (fieldOf file)
  let methods ← o.methods.mapM (methodOf file)
  return { classEntry := o.classEntry, constants, fields, methods }

/-- The manifest that a text spells; `file` is the name to report it under. -/
def parse (text file : String) : Except Fault Manifest :=
  match (Toml.parse? text).bind outline? with
  | none => .error (.malformed file)
  | some o => ofOutline file o

end PhpScribe.Manifest
