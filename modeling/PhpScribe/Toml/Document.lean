/-
  PhpScribe.Toml.Document — what a header and a line of a document add to its tables.

  A header names a table once. On the way to it, tables that are not there come into
  being, and a table that came so may still get a header of its own; it then takes its
  place at the end. `[[header]]` adds a table to an array, and the way through such an
  array goes through its last table. Dotted keys make tables too, and may add to tables
  that dotted keys made, to no other. Tables in braces and arrays in brackets are closed
  for good. No key is given twice.
-/

import PhpScribe.Entries
import PhpScribe.Toml.Node

namespace PhpScribe.Toml

structure KeyPart where
  name : String
  span : Span

/-- The way to a table: all parts of a key but the last. -/
abbrev Way := List KeyPart

namespace Members

def add (k : String) (n : Node) (ms : Members) : Option Members :=
  match Entries.get? k ms with
  | none => some (ms ++ [(k, n)])
  | some _ => none

def changeLast (f : Members → Option Members) : List Node → Option (List Node)
  | [] => none
  | [.table origin members span] => (f members).map fun ms => [.table origin ms span]
  | [_] => none
  | n :: m :: ns => (changeLast f (m :: ns)).map (n :: ·)

def changeAt (f : Members → Option Members) : Way → Members → Option Members
  | [], ms => f ms
  | k :: ks, ms =>
    match Entries.get? k.name ms with
    | none => (changeAt f ks []).map fun inner => ms ++ [(k.name, .table .implied inner k.span)]
    | some (.table .braces _ _) => none
    | some (.table origin inner span) =>
      (changeAt f ks inner).map fun inner => Entries.put k.name (.table origin inner span) ms
    | some (.array true items span) =>
      (changeLast (changeAt f ks) items).map fun items =>
        Entries.put k.name (.array true items span) ms
    | some (.array false _ _) | some (.scalar _ _) => none

def openTable (k : KeyPart) (span : Span) (ms : Members) : Option Members :=
  match Entries.get? k.name ms with
  | none => some (ms ++ [(k.name, .table .header [] span)])
  | some (.table .implied inner _) =>
    some (ms.filter (·.1 != k.name) ++ [(k.name, .table .header inner span)])
  | some _ => none

def openItem (k : KeyPart) (span : Span) (ms : Members) : Option Members :=
  let item : Node := .table .header [] span
  match Entries.get? k.name ms with
  | none => some (ms ++ [(k.name, .array true [item] span)])
  | some (.array true items first) =>
    some (Entries.put k.name (.array true (items ++ [item]) first) ms)
  | some _ => none

/-- Give a node to a dotted key. The last table on the way has to be one that dotted keys
    made; the tables before it may also be implied by headers. -/
def assign (n : Node) (last : String) : Way → Members → Option Members
  | [], ms => add last n ms
  | k :: ks, ms =>
    match Entries.get? k.name ms with
    | none =>
      (assign n last ks []).map fun inner => ms ++ [(k.name, .table .dotted inner k.span)]
    | some (.table .dotted inner span) =>
      (assign n last ks inner).map fun inner =>
        Entries.put k.name (.table .dotted inner span) ms
    | some (.table .implied inner span) =>
      if ks.isEmpty then none
      else (assign n last ks inner).map fun inner =>
        Entries.put k.name (.table .implied inner span) ms
    | some (.array true items span) =>
      if ks.isEmpty then none
      else (changeLast (assign n last ks) items).map fun items =>
        Entries.put k.name (.array true items span) ms
    | some (.table .header _ _) | some (.table .braces _ _) | some (.array false _ _)
    | some (.scalar _ _) => none

end Members

/-- How many parts a key may have. -/
def maxKey : Nat := 80

/-- A key cut in front of its last part; none when it is too long. -/
def cutKey (ks : List KeyPart) : Option (Way × KeyPart) :=
  match ks.getLast? with
  | some last => if ks.length ≤ maxKey then some (ks.dropLast, last) else none
  | none => none

structure Document where
  root : Members
  current : Way

namespace Document

def empty : Document := ⟨[], []⟩

def table (ks : List KeyPart) (span : Span) (d : Document) : Option Document := do
  let (way, last) ← cutKey ks
  let root ← Members.changeAt (Members.openTable last span) way d.root
  return ⟨root, ks⟩

def item (ks : List KeyPart) (span : Span) (d : Document) : Option Document := do
  let (way, last) ← cutKey ks
  let root ← Members.changeAt (Members.openItem last span) way d.root
  return ⟨root, ks⟩

def line (ks : List KeyPart) (n : Node) (d : Document) : Option Document := do
  let (way, last) ← cutKey ks
  let root ← Members.changeAt (Members.assign n last.name way) d.current d.root
  return ⟨root, d.current⟩

end Document

end PhpScribe.Toml
