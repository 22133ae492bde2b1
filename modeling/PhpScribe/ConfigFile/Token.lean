/-
  PhpScribe.ConfigFile.Token — the tokens of a config file.

  A token is a comment (`/* */`, or `//` and `#` up to the end of the line), a quoted
  literal, or any other single character. Every text is a sequence of tokens, also one
  with an open comment or quote at its end, and the tokens put together are the text
  (`flatMap_chars_tokens`). A comment or literal hides whatever stands inside it.

  `unescape` reads the inside of a quoted literal: a backslash before the literal's own
  quote or before a backslash stands for that character, any other is kept, and one at
  the very end of an open literal is dropped.
-/

import PhpScribe.Text.Blank

namespace PhpScribe.ConfigFile

inductive Token where
  /-- A comment with its delimiters; the newline that ends a line comment is not in it. -/
  | comment (text : List Char)
  /-- A literal in the given quotes; `closed` when the closing quote is there. -/
  | quoted (quote : Char) (body : List Char) (closed : Bool)
  | symbol (c : Char)
  deriving DecidableEq

namespace Token

def chars : Token → List Char
  | .comment text => text
  | .quoted q body closed => q :: body ++ if closed then [q] else []
  | .symbol c => [c]

def isCode : Token → Bool
  | .comment _ => false
  | .quoted _ _ _ => true
  | .symbol c => !Text.isBlank c

end Token

/-- The rest of a block comment, up to and with its end, and what follows. -/
def blockComment : List Char → List Char × List Char
  | [] => ([], [])
  | '*' :: '/' :: s => (['*', '/'], s)
  | c :: s => (blockComment s).map (c :: ·) id

/-- The rest of a line, without its newline, and what follows. -/
def lineComment : List Char → List Char × List Char
  | [] => ([], [])
  | '\n' :: s => ([], '\n' :: s)
  | c :: s => (lineComment s).map (c :: ·) id

/-- The inside of a literal in quotes `q`, whether its closing quote is there, and what
    follows. -/
def literalBody (q : Char) : List Char → List Char × Bool × List Char
  | [] => ([], false, [])
  | '\\' :: c :: s => (literalBody q s).map ('\\' :: c :: ·) id
  | c :: s => if c = q then ([], true, s) else (literalBody q s).map (c :: ·) id

def next : Char → List Char → Token × List Char
  | '/', '*' :: s => (blockComment s).map (fun text => .comment ('/' :: '*' :: text)) id
  | '/', '/' :: s => (lineComment s).map (fun text => .comment ('/' :: '/' :: text)) id
  | '#', s => (lineComment s).map (fun text => .comment ('#' :: text)) id
  | c, s =>
    if c = '\'' ∨ c = '"' then
      match literalBody c s with
      | (body, closed, rest) => (.quoted c body closed, rest)
    else (.symbol c, s)

/-! ## Nothing is lost -/

theorem blockComment_append (s : List Char) : (blockComment s).1 ++ (blockComment s).2 = s := by
  fun_induction blockComment s <;> simp_all

theorem lineComment_append (s : List Char) : (lineComment s).1 ++ (lineComment s).2 = s := by
  fun_induction lineComment s <;> simp_all

theorem literalBody_append (q : Char) (s : List Char) :
    (literalBody q s).1 ++ (if (literalBody q s).2.1 then [q] else []) ++ (literalBody q s).2.2
      = s := by
  fun_induction literalBody q s <;> simp_all

theorem next_append (c : Char) (s : List Char) : (next c s).1.chars ++ (next c s).2 = c :: s := by
  fun_cases next c s
  · simp [Token.chars, blockComment_append]
  · simp [Token.chars, lineComment_append]
  · simp [Token.chars, lineComment_append]
  · next h => simpa [Token.chars, h] using literalBody_append c s
  · simp [Token.chars]

theorem chars_next_ne_nil (c : Char) (s : List Char) : (next c s).1.chars ≠ [] := by
  fun_cases next c s <;> simp [Token.chars]

theorem length_next_lt (c : Char) (s : List Char) : (next c s).2.length < (c :: s).length := by
  have h := congrArg List.length (next_append c s)
  have := List.length_pos_iff.2 (chars_next_ne_nil c s)
  rw [List.length_append] at h
  omega

def tokens : List Char → List Token
  | [] => []
  | c :: s => (next c s).1 :: tokens (next c s).2
termination_by s => s.length
decreasing_by exact length_next_lt c s

theorem flatMap_chars_tokens (s : List Char) : (tokens s).flatMap Token.chars = s := by
  fun_induction tokens s with
  | case1 => rfl
  | case2 c s ih => rw [List.flatMap_cons, ih, next_append]

/-! ## Contents of a literal -/

def unescape (q : Char) : List Char → List Char
  | [] => []
  | ['\\'] => []
  | '\\' :: c :: s =>
    if c = q ∨ c = '\\' then c :: unescape q s else '\\' :: c :: unescape q s
  | c :: s => c :: unescape q s

end PhpScribe.ConfigFile
