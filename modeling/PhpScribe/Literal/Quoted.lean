/-
  PhpScribe.Literal.Quoted — single-quoted strings.

  Inside single quotes PHP knows two escapes only, a backslash before a backslash and
  before a quote, so nothing else needs care and no `$` starts a variable. An escaped
  text ends no literal, since each of its quotes has a backslash in front of it.
-/

namespace PhpScribe.Literal

def escape : List Char → List Char
  | [] => []
  | c :: s => if c = '\\' ∨ c = '\'' then '\\' :: c :: escape s else c :: escape s

def quoteChars (s : List Char) : List Char := '\'' :: escape s ++ ['\'']

def quote (s : String) : String := String.ofList (quoteChars s.toList)

@[simp] theorem toList_quote (s : String) : (quote s).toList = quoteChars s.toList := by
  simp [quote]

end PhpScribe.Literal
