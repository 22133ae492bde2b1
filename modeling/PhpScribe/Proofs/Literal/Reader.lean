/-
  PhpScribe.Proofs.Literal.Reader — PHP's reading of a literal.

  A reader goes through a text lexeme by lexeme. The arrays that are still open lie on a
  stack of frames, and a phase says what may come next: a value (or, in an array, its
  closing bracket), or what may stand behind a value. Between lexemes of an array white
  space is free, an entry may have a key with `=>` behind it, and the last entry may have
  a comma. A single-quoted string knows two escapes, a backslash before a backslash and
  before a quote. Words are keywords, the constant `PHP_INT_MIN` and numbers. The reader
  stops directly behind the value it was started at.

  Every step leaves a shorter text (`step_length`), so reading ends.
-/

import PhpScribe.Proofs.Literal.Term

namespace PhpScribe.Literal

/-! ## Lexemes -/

def isSpace (c : Char) : Bool := c == ' ' || c == '\n' || c == '\t' || c == '\r'

def isWordChar (c : Char) : Bool := c.isAlphanum || c == '_' || c == '.' || c == '-' || c == '+'

def word? (w : List Char) : Option Term :=
  if w = ['n', 'u', 'l', 'l'] then some .null
  else if w = ['t', 'r', 'u', 'e'] then some (.bool true)
  else if w = ['f', 'a', 'l', 's', 'e'] then some (.bool false)
  else if w = "PHP_INT_MIN".toList then some (.int Int64.minValue)
  else match integer? w with
    | some n => some (.int n)
    | none => if h : isFloat w = true then some (.float ⟨w, h⟩) else none

/-- The string whose inside stands at the front of a text, and what follows its quote. -/
def quoted? : List Char → Option (List Char × List Char)
  | [] => none
  | '\'' :: s => some ([], s)
  | '\\' :: '\\' :: s => (quoted? s).map (Prod.map ('\\' :: ·) id)
  | '\\' :: '\'' :: s => (quoted? s).map (Prod.map ('\'' :: ·) id)
  | c :: s => (quoted? s).map (Prod.map (c :: ·) id)

def scalar? : List Char → Option (Term × List Char)
  | '\'' :: s => (quoted? s).map (Prod.map (fun t => .string (String.ofList t)) id)
  | s => (word? (s.takeWhile isWordChar)).map (·, s.dropWhile isWordChar)

def key? : Term → Option Key
  | .int n => some (.int n)
  | .string s => some (.str s)
  | _ => none

/-! ## The reader -/

structure Frame where
  /-- The entries read so far, the last one first. -/
  done : List (Option Key × Term)
  /-- The key of the entry whose value is being read. -/
  key : Option Key

def Frame.add (f : Frame) (t : Term) : Frame := ⟨(f.key, t) :: f.done, none⟩

inductive Phase where
  /-- A value; `closable`: or the bracket that closes the array. -/
  | value (closable : Bool)
  | after (t : Term)

structure Reader where
  phase : Phase
  frames : List Frame
  text : List Char

namespace Reader

/-- The value that has been read, once no array is open, and the text behind it. -/
def result? : Reader → Option (Term × List Char)
  | ⟨.after t, [], s⟩ => some (t, s)
  | _ => none

def arrow (t : Term) (f : Frame) (fs : List Frame) : List Char → Option Reader
  | '>' :: s =>
    match key? t, f.key with
    | some k, none => some ⟨.value false, { f with key := some k } :: fs, s⟩
    | _, _ => none
  | _ => none

def step : Reader → Option Reader
  | ⟨.value closable, fs, c :: s⟩ =>
    if isSpace c then some ⟨.value closable, fs, s⟩
    else if c = '[' then some ⟨.value true, ⟨[], none⟩ :: fs, s⟩
    else if c = ']' then
      match closable, fs with
      | true, f :: fs => some ⟨.after (.array f.done.reverse), fs, s⟩
      | _, _ => none
    else (scalar? (c :: s)).map fun p => ⟨.after p.1, fs, p.2⟩
  | ⟨.after t, f :: fs, c :: s⟩ =>
    if isSpace c then some ⟨.after t, f :: fs, s⟩
    else if c = ',' then some ⟨.value true, f.add t :: fs, s⟩
    else if c = ']' then some ⟨.after (.array (f.add t).done.reverse), fs, s⟩
    else if c = '=' then arrow t f fs s
    else none
  | _ => none

end Reader

theorem quoted?_length {s t r : List Char} (h : quoted? s = some (t, r)) : r.length < s.length := by
  fun_induction quoted? s generalizing t r with
  | case1 => exact nomatch h
  | case2 s =>
    cases h
    simp
  | case3 s ih | case4 s ih | case5 c s _ _ _ ih =>
    obtain ⟨⟨t', r'⟩, hq, he⟩ := Option.map_eq_some_iff.1 h
    cases he
    have := ih hq
    simp only [id_eq, List.length_cons]
    omega

theorem word?_nil : word? [] = none := by decide

theorem scalar?_length {s r : List Char} {t : Term} (h : scalar? s = some (t, r)) :
    r.length < s.length := by
  unfold scalar? at h
  split at h
  · obtain ⟨⟨t', r'⟩, hq, he⟩ := Option.map_eq_some_iff.1 h
    cases he
    have := quoted?_length hq
    simp only [id, List.length_cons]
    omega
  · obtain ⟨t', hw, he⟩ := Option.map_eq_some_iff.1 h
    cases he
    have hne : s.takeWhile isWordChar ≠ [] := by
      intro hn
      rw [hn, word?_nil] at hw
      exact nomatch hw
    have hl := congrArg List.length (List.takeWhile_append_dropWhile (p := isWordChar) (l := s))
    have := List.length_pos_iff.2 hne
    rw [List.length_append] at hl
    omega

namespace Reader

theorem arrow_length {t : Term} {f : Frame} {fs : List Frame} {s : List Char} {r : Reader}
    (h : arrow t f fs s = some r) : r.text.length < s.length := by
  unfold arrow at h
  split at h
  · split at h
    · cases h
      simp
    · exact nomatch h
  · exact nomatch h

theorem step_length {r r' : Reader} (h : r.step = some r') : r'.text.length < r.text.length := by
  unfold step at h
  split at h
  · split at h
    · cases h; simp
    · split at h
      · cases h; simp
      · split at h
        · split at h
          · cases h; simp
          · exact nomatch h
        · obtain ⟨⟨t, s'⟩, hs, he⟩ := Option.map_eq_some_iff.1 h
          cases he
          exact scalar?_length hs
  · split at h
    · cases h; simp
    · split at h
      · cases h; simp
      · split at h
        · cases h; simp
        · split at h
          · have := arrow_length h
            simp only [List.length_cons]
            omega
          · exact nomatch h
  · exact nomatch h

def run (r : Reader) : Option (Term × List Char) :=
  match r.result? with
  | some p => some p
  | none =>
    match _h : r.step with
    | some r' => r'.run
    | none => none
termination_by r.text.length
decreasing_by exact step_length _h

end Reader

def read (s : List Char) : Option (Term × List Char) := Reader.run ⟨.value false, [], s⟩

end PhpScribe.Literal
