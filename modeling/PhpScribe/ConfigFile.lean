/-
  PhpScribe.ConfigFile — files that return one keyed array.

  The sections of a file are the keys of the array behind the first `return [`; what
  stands in nested brackets, in comments or in literals is none. Adding a section puts
  one entry in front of the last `];` and keeps everything else: the entries stay where
  they are, a missing comma goes behind the last code, and comments behind that code
  stay behind the comma.
-/

import PhpScribe.ClassUnit
import PhpScribe.ConfigFile.Token
import PhpScribe.Text.Search

namespace PhpScribe

structure ConfigFile where
  source : String
  deriving DecidableEq

namespace ConfigFile

def returnOpen : List Char := ['r', 'e', 't', 'u', 'r', 'n', ' ', '[']

def returnClose : List Char := [']', ';']

/-! ## Sections -/

/-- The next tokens are `=>`, white space in front of it apart. -/
def arrowFollows : List Token → Bool
  | .symbol '=' :: .symbol '>' :: _ => true
  | .symbol c :: ts => Text.isBlank c && arrowFollows ts
  | _ => false

/-- The keys of the array in which the tokens start, `depth` brackets deep. -/
def keysFrom : Nat → List Token → List String
  | _, [] => []
  | depth, .comment _ :: ts => keysFrom depth ts
  | depth, .quoted q body _ :: ts =>
    if depth = 1 ∧ arrowFollows ts then String.ofList (unescape q body) :: keysFrom depth ts
    else keysFrom depth ts
  | depth, .symbol c :: ts =>
    if c = '[' ∨ c = '(' then keysFrom (depth + 1) ts
    else if c = ']' ∨ c = ')' then if depth ≤ 1 then [] else keysFrom (depth - 1) ts
    else keysFrom depth ts

def sections (f : ConfigFile) : List String :=
  match Text.afterFirst returnOpen f.source.toList with
  | some rest => keysFrom 1 (tokens rest)
  | none => []

def hasSection (f : ConfigFile) (name : String) : Bool := f.sections.contains name

/-! ## Files -/

def skeleton : ConfigFile :=
  ⟨(Sheet.config.emitAll [.line Declaration.openTag, .blank, .line Declaration.strictTypes,
    .blank, .line (String.ofList returnOpen), .line (String.ofList returnClose)]).text⟩

def unit (f : ConfigFile) : ClassUnit := ({} : ClassUnit).withText f.source

/-! ## Adding a section -/

inductive EditError where
  | duplicate (name : String)
  /-- No `];` to put an entry in front of. -/
  | noArrayEnd
  | literal (e : LiteralError)
  deriving DecidableEq

def EditError.message : EditError → String
  | .duplicate name => "section '" ++ name ++ "' already exists"
  | .noArrayEnd => "config file has no closing `];` to insert before"
  | .literal e => e.message

/-- A text cut behind its last code; what follows is white space and comments. -/
def splitCode (s : List Char) : List Char × List Char :=
  let back := (tokens s).reverse
  ((back.dropWhile (!·.isCode)).reverse.flatMap Token.chars,
    (back.takeWhile (!·.isCode)).reverse.flatMap Token.chars)

/-- The comma that an entry behind this code needs. -/
def separator (code : List Char) : List Char :=
  match code.getLast? with
  | some '[' | some ',' => []
  | _ => [',']

def entry (name : String) (v : Value) : Except LiteralError String :=
  (Literal.spell (.config 1) v).map fun s =>
    Indent.config.text 1 ++ Literal.quote name ++ " => " ++ s ++ ","

/-- The file with `name => v` as the last entry of its array. -/
def addSection (f : ConfigFile) (name : String) (v : Value) : Except EditError ConfigFile :=
  if f.hasSection name then .error (.duplicate name)
  else
    match Text.splitLast returnClose f.source.toList with
    | none => .error .noArrayEnd
    | some (before, after) =>
      match entry name v with
      | .error e => .error (.literal e)
      | .ok entry =>
        let (code, trailing) := splitCode before
        .ok ⟨String.ofList (code ++ separator code ++ Text.trimEnd trailing) ++ "\n" ++ entry ++
          "\n" ++ String.ofList after⟩

theorem splitCode_append (s : List Char) : (splitCode s).1 ++ (splitCode s).2 = s := by
  simp only [splitCode, ← List.flatMap_append, ← List.reverse_append,
    List.takeWhile_append_dropWhile, List.reverse_reverse, flatMap_chars_tokens]

end ConfigFile

end PhpScribe
