/-
  PhpScribe.Proofs.Json.Lexing — the lexemes of a JSON text.

  A lexeme is a token whose number, if it is one, is still there as it was written. A text
  has the lexemes that stand in it one after the other, with white space in front of them
  and behind (`Lexes`); a numeral goes as far as it can, and the inside of a string is what
  the scanner of strings takes.

  `tokens?_eq_some`: the tokens of a text are those of its lexemes, and a text without
  lexemes has none. So nothing is lost on the way to the tokens but how the numbers were
  written.
-/

import PhpScribe.Json.Token
import PhpScribe.Proofs.Json.Numeral

namespace PhpScribe.Json

structure WrittenNumber where
  numeral : Numeral
  number : Number
  number?_eq : numeral.number? = some number

inductive Lexeme where
  | openArray
  | closeArray
  | openObject
  | closeObject
  | comma
  | colon
  | null
  | bool (b : Bool)
  | number (n : WrittenNumber)
  | string (s : String)

namespace Lexeme

def token : Lexeme → Token
  | .openArray => .openArray
  | .closeArray => .closeArray
  | .openObject => .openObject
  | .closeObject => .closeObject
  | .comma => .comma
  | .colon => .colon
  | .null => .null
  | .bool b => .bool b
  | .number n => .number n.number
  | .string s => .string s

/-- The characters of a lexeme that is written in one way only. -/
def chars? : Lexeme → Option (List Char)
  | .openArray => some ['[']
  | .closeArray => some [']']
  | .openObject => some ['{']
  | .closeObject => some ['}']
  | .comma => some [',']
  | .colon => some [':']
  | .null => some ['n', 'u', 'l', 'l']
  | .bool true => some ['t', 'r', 'u', 'e']
  | .bool false => some ['f', 'a', 'l', 's', 'e']
  | .number _ | .string _ => none

/-- A lexeme stands at the front of a text, and `rest` is what follows it. -/
inductive Begins : List Char → Lexeme → List Char → Prop
  | fixed {l : Lexeme} {cs rest : List Char} : l.chars? = some cs → Begins (cs ++ rest) l rest
  | number {n : WrittenNumber} {cs rest : List Char} :
    n.numeral.Spelled cs → n.numeral.Stops rest → Begins (cs ++ rest) (.number n) rest
  | string {s cs rest : List Char} :
    scanString s = some (cs, rest) → Begins ('"' :: s) (.string (String.ofList cs)) rest

end Lexeme

inductive Lexes : List Char → List Lexeme → Prop
  | nil : Lexes [] []
  | space {c : Char} {s : List Char} {ls : List Lexeme} : isSpace c = true → Lexes s ls → Lexes (c :: s) ls
  | lexeme {s rest : List Char} {l : Lexeme} {ls : List Lexeme} :
    l.Begins s rest → Lexes rest ls → Lexes s (l :: ls)

/-! ## One lexeme -/

theorem next_number {c : Char} {s : List Char} (h : c = '-' ∨ c.isDigit = true) :
    next (c :: s) = (scanNumber (c :: s)).map (·.map .number id) := by
  have hne : ∀ d : Char, d ≠ '-' → d.isDigit = false → c ≠ d := by
    rintro d hm hd rfl
    rcases h with h | h
    · exact hm h
    · exact absurd h (by simp [hd])
  unfold next
  split
  case h_11 => rfl
  all_goals
    next heq => exact absurd (List.cons.inj heq).1 (hne _ (by decide) (by decide))

theorem fixed_begins (l : Lexeme) (cs rest : List Char) (h : l.chars? = some cs) :
    ∃ l' : Lexeme, l'.Begins (cs ++ rest) rest ∧ l'.token = l.token := ⟨l, .fixed h, rfl⟩

/-- The next token is that of the lexeme at the front, and there is none without one. -/
theorem next_eq_some {s rest : List Char} {t : Token} :
    next s = some (t, rest) ↔ ∃ l : Lexeme, l.Begins s rest ∧ l.token = t := by
  constructor
  · intro h
    unfold next at h
    split at h
    case h_10 =>
      obtain ⟨⟨cs, rest⟩, hs, he⟩ := Option.map_eq_some_iff.1 h
      cases he
      exact ⟨_, .string hs, rfl⟩
    case h_11 =>
      obtain ⟨⟨n, rest⟩, hs, he⟩ := Option.map_eq_some_iff.1 h
      cases he
      obtain ⟨t, cs, ht, hr, hn, rfl⟩ := scanNumber_eq_some.1 hs
      exact ⟨.number ⟨t, n, hn⟩, .number ht hr, rfl⟩
    all_goals cases h
    · exact fixed_begins .openArray ['['] rest rfl
    · exact fixed_begins .closeArray [']'] rest rfl
    · exact fixed_begins .openObject ['{'] rest rfl
    · exact fixed_begins .closeObject ['}'] rest rfl
    · exact fixed_begins .comma [','] rest rfl
    · exact fixed_begins .colon [':'] rest rfl
    · exact fixed_begins .null ['n', 'u', 'l', 'l'] rest rfl
    · exact fixed_begins (.bool true) ['t', 'r', 'u', 'e'] rest rfl
    · exact fixed_begins (.bool false) ['f', 'a', 'l', 's', 'e'] rest rfl
  · rintro ⟨l, hl, rfl⟩
    cases hl with
    | fixed hc =>
      cases l
      case number | string => exact nomatch hc
      case bool b => cases b <;> (cases hc; rfl)
      all_goals
        cases hc
        rfl
    | @number n cs _ hs hr =>
      obtain ⟨c, u, rfl, hc⟩ := hs.head
      have hn := scanNumber_eq_some.2 ⟨n.numeral, _, hs, hr, n.number?_eq, rfl⟩
      rw [List.cons_append] at hn ⊢
      rw [next_number hc, hn]
      rfl
    | string hs =>
      rw [next, hs]
      rfl

theorem not_isSpace_of_number {c : Char} (h : c = '-' ∨ c.isDigit = true) : isSpace c = false := by
  rw [Bool.eq_false_iff]
  intro hs
  simp only [isSpace, Bool.or_eq_true, beq_iff_eq] at hs
  rcases hs with ((rfl | rfl) | rfl) | rfl <;> exact absurd h (by decide)

theorem not_isSpace_of_begins {s rest : List Char} {l : Lexeme} (h : l.Begins s rest) :
    ∃ c u, s = c :: u ∧ isSpace c = false := by
  cases h with
  | fixed hc =>
    cases l
    case number | string => exact nomatch hc
    case bool b => cases b <;> (cases hc; exact ⟨_, _, rfl, by decide⟩)
    all_goals
      cases hc
      exact ⟨_, _, rfl, by decide⟩
  | number hs _ =>
    obtain ⟨c, u, rfl, hc⟩ := hs.head
    exact ⟨c, _, rfl, not_isSpace_of_number hc⟩
  | string _ => exact ⟨_, _, rfl, by decide⟩

/-! ## All lexemes -/

theorem tokens?_space {c : Char} (h : isSpace c = true) (s : List Char) : tokens? (c :: s) = tokens? s := by
  rw [tokens?, if_pos h]

theorem tokens?_next {s rest : List Char} {t : Token} {c : Char} (hc : isSpace c = false)
    (h : next (c :: s) = some (t, rest)) : tokens? (c :: s) = (tokens? rest).map (t :: ·) := by
  rw [tokens?, if_neg (by simp [hc])]
  grind

/-- The tokens of a text are those of its lexemes. -/
theorem tokens?_eq_some {s : List Char} {ts : List Token} :
    tokens? s = some ts ↔ ∃ ls, Lexes s ls ∧ ls.map Lexeme.token = ts := by
  constructor
  · intro h
    fun_induction tokens? s generalizing ts with
    | case1 =>
      cases h
      exact ⟨[], .nil, rfl⟩
    | case2 c s hc ih =>
      obtain ⟨ls, hl, rfl⟩ := ih h
      exact ⟨ls, .space hc hl, rfl⟩
    | case3 c s _ t rest hn _ ih =>
      obtain ⟨us, hu, rfl⟩ := Option.map_eq_some_iff.1 h
      obtain ⟨ls, hl, rfl⟩ := ih hu
      obtain ⟨l, hb, rfl⟩ := next_eq_some.1 hn
      exact ⟨l :: ls, .lexeme hb hl, rfl⟩
    | case4 => exact nomatch h
  · rintro ⟨ls, hl, rfl⟩
    induction hl with
    | nil => rw [tokens?, List.map_nil]
    | space hc _ ih => rw [tokens?_space hc, ih]
    | lexeme hb _ ih =>
      obtain ⟨c, u, rfl, hc⟩ := not_isSpace_of_begins hb
      rw [tokens?_next hc (next_eq_some.2 ⟨_, hb, rfl⟩), ih]
      rfl

end PhpScribe.Json
