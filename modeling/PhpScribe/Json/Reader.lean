/-
  PhpScribe.Json.Reader — the document that a JSON text spells.

  The reader goes through the tokens once. What it has read of the arrays and objects
  that are still open lies on a stack of frames, and a phase says what may come next. A
  member whose name has been there before takes the old one's place. More than
  `maxDepth` open arrays and objects are refused.
-/

import PhpScribe.Json.Token

namespace PhpScribe.Json

/-- How many arrays and objects may be open at a time. -/
def maxDepth : Nat := 127

inductive Frame where
  /-- The items read so far, the last one first. -/
  | array (done : List Json)
  /-- The members read so far, and the name of the one whose value is being read. -/
  | object (done : List (String × Json)) (name : String)

inductive Phase where
  | value
  /-- The first item of an array, or its end. -/
  | firstItem
  /-- The name of a member; `first`: or the end of the object. -/
  | name (done : List (String × Json)) (first : Bool)
  | colon (done : List (String × Json)) (name : String)
  /-- A whole value has been read: what separates it from the next, or an end. -/
  | filled (j : Json)

structure Reader where
  frames : List Frame
  phase : Phase

namespace Reader

def start (frames : List Frame) : Token → Option Reader
  | .null => some ⟨frames, .filled .null⟩
  | .bool b => some ⟨frames, .filled (.bool b)⟩
  | .number n => some ⟨frames, .filled (.number n)⟩
  | .string s => some ⟨frames, .filled (.string s)⟩
  | .openArray =>
    if frames.length < maxDepth then some ⟨.array [] :: frames, .firstItem⟩ else none
  | .openObject =>
    if frames.length < maxDepth then some ⟨frames, .name [] true⟩ else none
  | _ => none

def step (r : Reader) (t : Token) : Option Reader :=
  match r.phase, t, r.frames with
  | .value, t, frames => start frames t
  | .firstItem, .closeArray, .array done :: frames =>
    some ⟨frames, .filled (.array done.reverse)⟩
  | .firstItem, t, frames => start frames t
  | .name done _, .string s, frames => some ⟨frames, .colon done s⟩
  | .name done true, .closeObject, frames => some ⟨frames, .filled (.object done)⟩
  | .colon done name, .colon, frames => some ⟨.object done name :: frames, .value⟩
  | .filled j, .comma, .array done :: frames => some ⟨.array (j :: done) :: frames, .value⟩
  | .filled j, .closeArray, .array done :: frames =>
    some ⟨frames, .filled (.array (j :: done).reverse)⟩
  | .filled j, .comma, .object done name :: frames =>
    some ⟨frames, .name (Entries.put name j done) false⟩
  | .filled j, .closeObject, .object done name :: frames =>
    some ⟨frames, .filled (.object (Entries.put name j done))⟩
  | _, _, _ => none

def run (r : Reader) : List Token → Option Reader
  | [] => some r
  | t :: ts => (r.step t).bind (run · ts)

def result? : Reader → Option Json
  | ⟨[], .filled j⟩ => some j
  | _ => none

end Reader

def parse? (s : String) : Option Json :=
  (tokens? s.toList).bind fun ts => ((Reader.mk [] .value).run ts).bind Reader.result?

end PhpScribe.Json
