/-
  PhpScribe.Manifest.Draft — a manifest whose defaults are still data of its document.

  The members of the document are matched with what a manifest may hold: every key has
  to be known, and every value of the right kind. A record is a table, or an array that
  gives its members by their places, where only the members at the end that have a
  default may be missing; what stands behind the last one is not looked at, and may be
  anything. Which of two faults in the shape is met first does not matter, for all are
  reported alike.
-/

import PhpScribe.Manifest
import PhpScribe.Entries
import PhpScribe.Toml.Datum

namespace PhpScribe.Manifest

open Toml (Datum Node Members Span)

/-- Something with a default that is given as a value, as `null_default`, or both. -/
structure Draft (α : Type) where
  base : α
  default : Option (Datum × Span)
  null : Option (Bool × Span)

structure MethodDraft where
  base : MethodEntry
  arguments : List (Draft Argument)

structure Outline where
  classEntry : ClassEntry
  constants : List (Draft Constant)
  fields : List (Draft Field)
  methods : List MethodDraft

/-! ## Shapes -/

def string? : Node → Option String
  | .scalar (.string s) _ => some s
  | _ => none

def bool? : Node → Option Bool
  | .scalar (.bool b) _ => some b
  | _ => none

def list? {α : Type} (shape : Node → Option α) : Node → Option (List α)
  | .array _ items _ => items.mapM shape
  | _ => none

/-- A keyword, or a table of that one key with nothing in it. -/
def visibility? : Node → Option Visibility
  | .scalar (.string s) _ => Visibility.ofKeyword? s
  | .table _ [(k, .table _ [] _)] _ => Visibility.ofKeyword? k
  | .table _ [(k, .array _ [] _)] _ => Visibility.ofKeyword? k
  | _ => none

abbrev Record := String → Option Node

/-- A record of the given names. In an array the first `least` members have to be there;
    what comes behind the last one does not count. -/
def record? (names : List String) (least : Nat) : Node → Option Record
  | .table _ members _ =>
    if members.all fun e => names.contains e.1 then some fun k => Entries.get? k members else none
  | .array _ items _ => if least ≤ items.length then some fun k => items[names.idxOf k]? else none
  | .scalar _ _ => none

namespace Record

def required {α : Type} (r : Record) (k : String) (shape : Node → Option α) : Option α :=
  (r k).bind shape

def optional {α : Type} (r : Record) (k : String) (shape : Node → Option α) :
    Option (Option α) :=
  match r k with
  | none => some none
  | some n => (shape n).map some

def default {α : Type} (r : Record) (k : String) (shape : Node → Option α) (a : α) :
    Option α :=
  (r.optional k shape).map (·.getD a)

end Record

def null? (n : Node) : Option (Bool × Span) := (bool? n).map (·, n.span)

def datum? (n : Node) : Option (Datum × Span) := (Datum.ofNode? n).map (·, n.span)

/-! ## Records -/

def class? (n : Node) : Option ClassEntry := do
  let r ← record? ["name", "namespace", "extends", "implements", "uses", "traits"] 4 n
  return {
    name := ← r.required "name" string?
    ns := ← r.optional "namespace" string?
    parent := ← r.optional "extends" string?
    interface := ← r.optional "implements" string?
    uses := ← r.default "uses" (list? string?) []
    traits := ← r.default "traits" (list? string?) [] }

def constant? (n : Node) : Option (Draft Constant) := do
  let r ← record? ["name", "visibility", "type", "static", "value", "null_default"] 5 n
  let base : Constant := {
    name := ← r.required "name" string?
    visibility := ← r.default "visibility" visibility? .public
    type := ← r.default "type" string? ""
    isStatic := ← r.default "static" bool? false }
  return {
    base
    default := ← r.optional "value" datum?
    null := ← r.optional "null_default" null? }

def field? (n : Node) : Option (Draft Field) := do
  let r ← record? ["name", "visibility", "type", "static", "default", "null_default"] 5 n
  let base : Field := {
    name := ← r.required "name" string?
    visibility := ← r.default "visibility" visibility? .protected
    type := ← r.default "type" string? ""
    isStatic := ← r.default "static" bool? false }
  return {
    base
    default := ← r.optional "default" datum?
    null := ← r.optional "null_default" null? }

def argument? (n : Node) : Option (Draft Argument) := do
  let r ← record? ["name", "type", "default", "null_default"] 3 n
  let base : Argument := {
    name := ← r.required "name" string?
    type := ← r.optional "type" string? }
  return {
    base
    default := ← r.optional "default" datum?
    null := ← r.optional "null_default" null? }

def method? (n : Node) : Option MethodDraft := do
  let r ← record? ["name", "visibility", "static", "returns", "body", "doc", "args"] 6 n
  let base : MethodEntry := {
    name := ← r.required "name" string?
    visibility := ← r.default "visibility" visibility? .public
    isStatic := ← r.default "static" bool? false
    returns := ← r.optional "returns" string?
    body := ← r.optional "body" string?
    doc := ← r.optional "doc" string? }
  return { base, arguments := ← r.default "args" (list? argument?) [] }

def outline? (members : Members) : Option Outline := do
  let document : Node := .table .header members ⟨0, 0⟩
  let r ← record? ["class", "constants", "fields", "methods"] 1 document
  return {
    classEntry := ← r.required "class" class?
    constants := ← r.default "constants" (list? constant?) []
    fields := ← r.default "fields" (list? field?) []
    methods := ← r.default "methods" (list? method?) [] }

end PhpScribe.Manifest
