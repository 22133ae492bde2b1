/-
  PhpScribe.Toml.Quoted — strings in quotes, in their four forms.

  Single quotes take everything as it stands, double quotes know escapes; three quotes
  let a string go over several lines, take the newline behind the opening quotes away,
  and may have up to two more quotes in front of the closing ones. In the double form a
  backslash at the end of a line joins it with the next text. Control characters other
  than the tab are refused, and a carriage return counts only in front of a newline.

  Scanners give the rest of the text and how many bytes stand in front of it; as these
  are more than none, a string is gathered piece by piece (`gather`).
-/

import PhpScribe.Text.Digits

namespace PhpScribe.Toml

def bytes : List Char → Nat
  | [] => 0
  | c :: s => c.utf8Size + bytes s

theorem bytes_append (s t : List Char) : bytes (s ++ t) = bytes s + bytes t := by
  induction s with
  | nil => simp [bytes]
  | cons c s ih => simp [bytes, ih, Nat.add_assoc]

structure Tail (s : List Char) where
  text : List Char
  /-- How many bytes stand in front of it. -/
  width : Nat
  total : width + bytes text = bytes s

/-- An end of a text that is not all of it. -/
structure Rest (s : List Char) extends Tail s where
  positive : 0 < width

namespace Tail

def all (s : List Char) : Tail s := ⟨s, 0, Nat.zero_add _⟩

def drop (n : Nat) (s : List Char) : Tail s :=
  ⟨s.drop n, bytes (s.take n), by rw [← bytes_append, List.take_append_drop]⟩

def dropWhile (p : Char → Bool) (s : List Char) : Tail s :=
  ⟨s.dropWhile p, bytes (s.takeWhile p), by
    rw [← bytes_append, List.takeWhile_append_dropWhile]⟩

def behind {c : Char} {s : List Char} (t : Tail s) : Rest (c :: s) where
  text := t.text
  width := c.utf8Size + t.width
  total := by rw [bytes, ← t.total, Nat.add_assoc]
  positive := Nat.add_pos_left c.utf8Size_pos _

def trans {s : List Char} (t : Tail s) (u : Tail t.text) : Tail s :=
  ⟨u.text, t.width + u.width, by rw [← t.total, ← u.total, Nat.add_assoc]⟩

end Tail

namespace Rest

def tail {c : Char} {s : List Char} : Rest (c :: s) := (Tail.all s).behind

def behind {c : Char} {s : List Char} (r : Rest s) : Rest (c :: s) := r.toTail.behind

def trans {s : List Char} (r : Rest s) (q : Rest r.text) : Rest s :=
  ⟨r.toTail.trans q.toTail, Nat.add_pos_left r.positive _⟩

theorem bytes_lt {s : List Char} (r : Rest s) : bytes r.text < bytes s := by
  have := r.total
  have := r.positive
  omega

end Rest

def isPlain (c : Char) : Bool := c == '\t' || (0x20 ≤ c.toNat && c.toNat != 0x7F)

/-! ## Escapes -/

def scanPoint (n : Nat) (s : List Char) : Option (Char × Tail s) :=
  let digits := s.take n
  if digits.length = n then
    ((Text.ofHex? digits).bind Text.scalar?).map fun c => (c, .drop n s)
  else none

def letterEscape? : Char → Option Char
  | 'b' => some '\x08'
  | 't' => some '\t'
  | 'n' => some '\n'
  | 'f' => some '\x0c'
  | 'r' => some '\r'
  | 'e' => some '\x1b'
  | '"' => some '"'
  | '\\' => some '\\'
  | _ => none

/-- How many digits of a code point follow a letter. -/
def pointDigits? : Char → Option Nat
  | 'x' => some 2
  | 'u' => some 4
  | 'U' => some 8
  | _ => none

def scanEscape : (s : List Char) → Option (Char × Rest s)
  | [] => none
  | c :: s =>
    match letterEscape? c, pointDigits? c with
    | some x, _ => some (x, .tail)
    | none, some n => (scanPoint n s).map fun (x, rest) => (x, rest.behind)
    | none, none => none

/-- White space and newlines, dropped from the front of a text. -/
def skipLines : (s : List Char) → Tail s
  | ' ' :: s => (skipLines s).behind.toTail
  | '\t' :: s => (skipLines s).behind.toTail
  | '\n' :: s => (skipLines s).behind.toTail
  | '\r' :: '\n' :: s => (skipLines s).behind.behind.toTail
  | s => .all s

def newline? : (s : List Char) → Option (Tail s)
  | '\n' :: _ => some Rest.tail.toTail
  | '\r' :: '\n' :: _ => some Rest.tail.behind.toTail
  | _ => none

/-- The text behind a backslash at the end of a line, the white space in front of it
    dropped. -/
def joinedLine? (s : List Char) : Option (Tail s) :=
  let blank := Tail.dropWhile (fun c => c == ' ' || c == '\t') s
  (newline? blank.text).map fun t => blank.trans (t.trans (skipLines t.text))

/-! ## Pieces -/

/-- A piece of a string: some characters, or the last ones in front of its end. -/
inductive Piece where
  | more (cs : List Char)
  | last (cs : List Char)

abbrev Step := (s : List Char) → Option (Piece × Rest s)

def escapePiece (s : List Char) : Option (Piece × Rest ('\\' :: s)) :=
  (scanEscape s).map fun (c, rest) => (.more [c], rest.behind)

def basicStep : Step
  | [] => none
  | '"' :: _ => some (.last [], .tail)
  | '\\' :: r => escapePiece r
  | c :: _ => if isPlain c then some (.more [c], .tail) else none

def literalStep : Step
  | [] => none
  | '\'' :: _ => some (.last [], .tail)
  | c :: _ => if isPlain c then some (.more [c], .tail) else none

def linesStep : Step
  | [] => none
  | '"' :: '"' :: '"' :: '"' :: '"' :: _ =>
    some (.last ['"', '"'], .behind (.behind (.behind (.behind .tail))))
  | '"' :: '"' :: '"' :: '"' :: _ => some (.last ['"'], .behind (.behind (.behind .tail)))
  | '"' :: '"' :: '"' :: _ => some (.last [], .behind (.behind .tail))
  | '\n' :: _ => some (.more ['\n'], .tail)
  | '\r' :: '\n' :: _ => some (.more ['\r', '\n'], .behind .tail)
  | '\\' :: r =>
    match joinedLine? r with
    | some rest => some (.more [], rest.behind)
    | none => escapePiece r
  | c :: _ => if isPlain c then some (.more [c], .tail) else none

def literalLinesStep : Step
  | [] => none
  | '\'' :: '\'' :: '\'' :: '\'' :: '\'' :: _ =>
    some (.last ['\'', '\''], .behind (.behind (.behind (.behind .tail))))
  | '\'' :: '\'' :: '\'' :: '\'' :: _ => some (.last ['\''], .behind (.behind (.behind .tail)))
  | '\'' :: '\'' :: '\'' :: _ => some (.last [], .behind (.behind .tail))
  | '\n' :: _ => some (.more ['\n'], .tail)
  | '\r' :: '\n' :: _ => some (.more ['\r', '\n'], .behind .tail)
  | c :: _ => if isPlain c then some (.more [c], .tail) else none

def gather (step : Step) (s : List Char) : Option (List Char × Rest s) :=
  match step s with
  | none => none
  | some (.last cs, rest) => some (cs, rest)
  | some (.more cs, rest) =>
    (gather step rest.text).map fun (t, q) => (cs ++ t, rest.trans q)
termination_by bytes s
decreasing_by exact rest.bytes_lt

def dropNewline (s : List Char) : Tail s := (newline? s).getD (.all s)

end PhpScribe.Toml
