/-
  PhpScribe.Toml.Token — the tokens of a TOML text, each with its place.

  Punctuation, white space, newlines, comments and strings are tokens; any other run of
  characters is an atom, whose meaning hangs on where it stands: it may be part of a
  dotted key as well as of a number. A quote inside an atom starts no string. Places count
  bytes, a byte order mark at the front of the text among them.
-/

import PhpScribe.Toml.Node
import PhpScribe.Toml.Quoted

namespace PhpScribe.Toml

inductive Token where
  | dot
  | equals
  | comma
  | openBracket
  | closeBracket
  | openBrace
  | closeBrace
  /-- Spaces and tabs; `single` when it is one space. -/
  | space (single : Bool)
  | newline
  | comment
  /-- The contents of a string; `lines` when it is of a form that goes over lines. -/
  | string (s : String) (lines : Bool)
  | atom (s : List Char)

structure Lexeme where
  token : Token
  start : Nat
  stop : Nat

def Lexeme.span (l : Lexeme) : Span := .between l.start l.stop

/-- The characters of an atom. Quotes are among them, for a string starts only where no
    atom goes on. -/
def isAtom (c : Char) : Bool :=
  !(['.', '=', ',', '[', ']', '\x7b', '\x7d', ' ', '\t', '\n', '\r', '#'].contains c)

def isSpace (c : Char) : Bool := c == ' ' || c == '\t'

def quoted (step : Step) (c : Char) (s : List Char) : Option (Token × Rest (c :: s)) :=
  (gather step s).map fun (cs, rest) => (.string (String.ofList cs) false, rest.behind)

def quotedLines (step : Step) (c : Char) (s : List Char) :
    Option (Token × Rest (c :: c :: c :: s)) :=
  let start := dropNewline s
  (gather step start.text).map fun (cs, rest) =>
    (.string (String.ofList cs) true, (start.trans rest.toTail).behind.behind.behind)

def next : (s : List Char) → Option (Token × Rest s)
  | [] => none
  | '.' :: _ => some (.dot, .tail)
  | '=' :: _ => some (.equals, .tail)
  | ',' :: _ => some (.comma, .tail)
  | '[' :: _ => some (.openBracket, .tail)
  | ']' :: _ => some (.closeBracket, .tail)
  | '\x7b' :: _ => some (.openBrace, .tail)
  | '\x7d' :: _ => some (.closeBrace, .tail)
  | '\n' :: _ => some (.newline, .tail)
  | '\r' :: '\n' :: _ => some (.newline, .behind .tail)
  | '#' :: r =>
    let isText (c : Char) : Bool := c != '\n' && c != '\r'
    if (r.takeWhile isText).all isPlain then some (.comment, (Tail.dropWhile isText r).behind)
    else none
  | '"' :: '"' :: '"' :: r => quotedLines linesStep '"' r
  | '\'' :: '\'' :: '\'' :: r => quotedLines literalLinesStep '\'' r
  | '"' :: r => quoted basicStep '"' r
  | '\'' :: r => quoted literalStep '\'' r
  | c :: r =>
    if isSpace c then
      let rest := Tail.dropWhile isSpace r
      some (.space (c == ' ' && rest.width == 0), rest.behind)
    else if isAtom c then
      some (.atom (c :: r.takeWhile isAtom), (Tail.dropWhile isAtom r).behind)
    else none

/-- The tokens of a text that starts at an offset; none when some part of it is no
    token. -/
def lexemes? (start : Nat) (s : List Char) : Option (List Lexeme) :=
  match s with
  | [] => some []
  | c :: r =>
    match next (c :: r) with
    | none => none
    | some (token, rest) =>
      let stop := start + rest.width
      (lexemes? stop rest.text).map (⟨token, start, stop⟩ :: ·)
termination_by bytes s
decreasing_by exact rest.bytes_lt

/-- The tokens of a text, the byte order mark at its front apart. -/
def tokens? (s : List Char) : Option (List Lexeme) :=
  match s with
  | '\uFEFF' :: r => lexemes? (Char.utf8Size '\uFEFF') r
  | _ => lexemes? 0 s

end PhpScribe.Toml
