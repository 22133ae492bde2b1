/-
  PhpScribe.Text.Lines — cutting a text into lines, and joining texts.

  A line ends at a newline, and a carriage return directly before that newline
  belongs to the line's end. A text that ends in a newline has no empty last line,
  and a carriage return at the very end of a text is part of its last line.
-/

namespace PhpScribe.Text

/-- The lines of a text, without their ends. -/
def lines : List Char → List (List Char)
  | [] => []
  | '\n' :: s => [] :: lines s
  | '\r' :: '\n' :: s => [] :: lines s
  | c :: s =>
    match lines s with
    | [] => [[c]]
    | l :: ls => (c :: l) :: ls

def join (sep : String) : List String → String
  | [] => ""
  | [s] => s
  | s :: t :: rest => s ++ sep ++ join sep (t :: rest)

def concat : List String → String
  | [] => ""
  | s :: rest => s ++ concat rest

def linesOf (s : String) : List String := (lines s.toList).map String.ofList

theorem concat_append (ss ts : List String) :
    concat (ss ++ ts) = concat ss ++ concat ts := by
  induction ss with
  | nil => simp [concat]
  | cons s ss ih => simp [concat, ih, String.append_assoc]

end PhpScribe.Text
