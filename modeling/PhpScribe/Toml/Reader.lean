/-
  PhpScribe.Toml.Reader — the document that a TOML text spells.

  The reader goes through the tokens once. A phase says what may come next; arrays and
  tables in braces that are still open lie on a stack of frames. Newlines and comments may
  stand between the tokens of those, but not within a key: behind one, only `=` goes on. A
  scalar without quotes is gathered from atoms and dots, and a date may take a time from
  behind a space. More than `maxDepth` open arrays and tables are refused.
-/

import PhpScribe.Toml.Document
import PhpScribe.Toml.Scalar
import PhpScribe.Toml.Token

namespace PhpScribe.Toml

/-- How many arrays and tables in braces may be open at a time. -/
def maxDepth : Nat := 80

inductive Place where
  /-- In front of `=`, at the start of a line. -/
  | line
  /-- In a header that starts at an offset, with one or two brackets. -/
  | header (item : Bool) (start : Nat)
  /-- In front of `=`, in a table in braces. -/
  | member

inductive Frame where
  /-- The items read so far, the last one first. -/
  | array (start : Nat) (done : List Node)
  /-- The members read so far, and the key of the one whose value is being read. -/
  | table (start : Nat) (done : Members) (key : List KeyPart)

structure Pending where
  text : List Char
  start : Nat
  stop : Nat

inductive Phase where
  | lineStart
  | lineEnd
  /-- A header has been opened: its key, or a second bracket. -/
  | headerStart (start : Nat)
  /-- A second bracket that closes a header. -/
  | headerEnd (key : List KeyPart) (start : Nat)
  /-- A part of a key. -/
  | key (place : Place) (done : List KeyPart)
  /-- A dot, or what ends a key. -/
  | keyEnd (place : Place) (done : List KeyPart)
  /-- The `=` behind the key of a member that a newline or a comment has ended. -/
  | memberKeyEnd (key : List KeyPart)
  /-- A value behind `=`; newlines may stand in front of it inside braces only. -/
  | value
  /-- An item of an array, or its end. -/
  | item
  | itemEnd
  /-- A member of a table in braces, or its end. -/
  | member
  | memberEnd
  | scalar (p : Pending)
  /-- A space behind a date, which stops at `stop`. -/
  | dateSpace (p : Pending)

structure Reader where
  phase : Phase
  frames : List Frame
  /-- The key of the line whose value is being read. -/
  key : List KeyPart
  document : Document

namespace Reader

def start : Reader := ⟨.lineStart, [], [], .empty⟩

def isBare (c : Char) : Bool := c.isAlphanum || c == '-' || c == '_'

def keyPart? (l : Lexeme) : Option KeyPart :=
  match l.token with
  | .atom s => if s.all isBare then some ⟨String.ofList s, l.span⟩ else none
  | .string s false => some ⟨s, l.span⟩
  | _ => none

def goto (r : Reader) (p : Phase) : Reader := { r with phase := p }

/-- A value is whole: it goes where the reader was about to put it. -/
def complete (r : Reader) (n : Node) : Option Reader :=
  match r.frames with
  | [] => (r.document.line r.key n).map fun d => ⟨.lineEnd, [], [], d⟩
  | .array start done :: frames =>
    some { r with phase := .itemEnd, frames := .array start (n :: done) :: frames }
  | .table start done key :: frames => do
    let (way, last) ← cutKey key
    let done ← Members.assign n last.name way done
    return { r with phase := .memberEnd, frames := .table start done [] :: frames }

def beginValue (r : Reader) (l : Lexeme) : Option Reader :=
  match l.token with
  | .string s _ => r.complete (.scalar (.string s) l.span)
  | .atom s => some (r.goto (.scalar ⟨s, l.start, l.stop⟩))
  | .openBracket =>
    if r.frames.length < maxDepth then
      some { r with phase := .item, frames := .array l.start [] :: r.frames }
    else none
  | .openBrace =>
    if r.frames.length < maxDepth then
      some { r with phase := .member, frames := .table l.start [] [] :: r.frames }
    else none
  | _ => none

def closeArray (r : Reader) (stop : Nat) : Option Reader :=
  match r.frames with
  | .array start done :: frames =>
    { r with frames }.complete (.array false done.reverse (.between start stop))
  | _ => none

def closeTable (r : Reader) (stop : Nat) : Option Reader :=
  match r.frames with
  | .table start done _ :: frames =>
    { r with frames }.complete (.table .braces done (.between start stop))
  | _ => none

def beginAssignment (r : Reader) (place : Place) (key : List KeyPart) : Option Reader :=
  match place, r.frames with
  | .line, [] => some { r with phase := .value, key }
  | .member, .table start done _ :: frames =>
    some { r with phase := .value, frames := .table start done key :: frames }
  | _, _ => none

def closeHeader (r : Reader) (place : Place) (key : List KeyPart) (stop : Nat) : Option Reader :=
  match place with
  | .header false start =>
    (r.document.table key (.between start stop)).map fun d =>
      { r with phase := .lineEnd, document := d }
  | .header true start => some (r.goto (.headerEnd key start))
  | _ => none

/-- Newlines and comments may stand between tokens: in arrays and in braces. -/
def isOpen (r : Reader) : Bool := !r.frames.isEmpty

def stepPlain (r : Reader) (l : Lexeme) : Option Reader :=
  match r.phase, l.token with
  | .lineStart, .space _ | .lineStart, .newline | .lineStart, .comment => some r
  | .lineStart, .openBracket => some (r.goto (.headerStart l.start))
  | .lineStart, _ => (keyPart? l).map fun k => r.goto (.keyEnd .line [k])
  | .lineEnd, .space _ | .lineEnd, .comment => some r
  | .lineEnd, .newline => some (r.goto .lineStart)
  | .headerStart start, .openBracket => some (r.goto (.key (.header true start) []))
  | .headerStart start, .space _ => some (r.goto (.key (.header false start) []))
  | .headerStart start, _ =>
    (keyPart? l).map fun k => r.goto (.keyEnd (.header false start) [k])
  | .headerEnd key start, .closeBracket =>
    (r.document.item key (.between start l.stop)).map fun d =>
      { r with phase := .lineEnd, document := d }
  | .key _ _, .space _ => some r
  | .key place done, _ => (keyPart? l).map fun k => r.goto (.keyEnd place (done ++ [k]))
  | .keyEnd _ _, .space _ => some r
  | .keyEnd place done, .dot => some (r.goto (.key place done))
  | .keyEnd place done, .equals => r.beginAssignment place done
  | .keyEnd place done, .closeBracket => r.closeHeader place done l.stop
  | .keyEnd .member key, .newline | .keyEnd .member key, .comment =>
    some (r.goto (.memberKeyEnd key))
  | .memberKeyEnd _, .space _ | .memberKeyEnd _, .newline | .memberKeyEnd _, .comment => some r
  | .memberKeyEnd key, .equals => r.beginAssignment .member key
  | .value, .space _ => some r
  | .value, .newline | .value, .comment => if r.isOpen then some r else none
  | .value, _ => r.beginValue l
  | .item, .space _ | .item, .newline | .item, .comment => some r
  | .item, .closeBracket => r.closeArray l.stop
  | .item, _ => r.beginValue l
  | .itemEnd, .space _ | .itemEnd, .newline | .itemEnd, .comment => some r
  | .itemEnd, .comma => some (r.goto .item)
  | .itemEnd, .closeBracket => r.closeArray l.stop
  | .member, .space _ | .member, .newline | .member, .comment => some r
  | .member, .closeBrace => r.closeTable l.stop
  | .member, _ => (keyPart? l).map fun k => r.goto (.keyEnd .member [k])
  | .memberEnd, .space _ | .memberEnd, .newline | .memberEnd, .comment => some r
  | .memberEnd, .comma => some (r.goto .member)
  | .memberEnd, .closeBrace => r.closeTable l.stop
  | _, _ => none

def completeScalar (r : Reader) (p : Pending) : Option Reader :=
  (Scalar.read? p.text).bind fun s => r.complete (.scalar s (.between p.start p.stop))

def extend (p : Pending) (s : List Char) (stop : Nat) : Phase :=
  .scalar { p with text := p.text ++ s, stop }

def step (r : Reader) (l : Lexeme) : Option Reader :=
  match r.phase, l.token with
  | .scalar p, .atom s => some (r.goto (extend p s l.stop))
  | .scalar p, .dot => some (r.goto (extend p ['.'] l.stop))
  | .scalar p, .space true =>
    if Scalar.afterDate p.text = some [] then some (r.goto (.dateSpace p))
    else (r.completeScalar p).bind (·.stepPlain l)
  | .scalar p, _ => (r.completeScalar p).bind (·.stepPlain l)
  | .dateSpace p, .atom s => some (r.goto (extend p (' ' :: s) l.stop))
  | .dateSpace p, _ => (r.completeScalar p).bind (·.stepPlain l)
  | _, _ => r.stepPlain l

def run (r : Reader) : List Lexeme → Option Reader
  | [] => some r
  | l :: ls => (r.step l).bind (run · ls)

/-- The tables, when nothing is left open at the end of the text. -/
def result? (r : Reader) : Option Members :=
  match r.phase with
  | .lineStart | .lineEnd => some r.document.root
  | _ => none

/-- The end of the text ends a scalar. -/
def finish (r : Reader) : Option Members :=
  match r.phase with
  | .scalar p | .dateSpace p => (r.completeScalar p).bind result?
  | _ => r.result?

end Reader

def parse? (s : String) : Option Members :=
  (tokens? s.toList).bind fun ls => (Reader.start.run ls).bind Reader.finish

end PhpScribe.Toml
