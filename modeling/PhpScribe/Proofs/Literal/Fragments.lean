/-
  PhpScribe.Proofs.Literal.Fragments — values laid out by a sheet.

  An array with one entry a line is laid out twice in this library. Spelling hands a depth
  down and puts strings together from the innermost array outwards; a sheet keeps a level
  and writes lines from top to bottom. `Value.fragment` is the value as the sheet takes
  it: a scalar and an empty array are one line, any other array is a block between
  brackets, and each of its entries is such a fragment in its turn, with its key in front
  and a comma behind it.

  The two agree on every value, at every level of every indentation, and fail alike
  (`textAt_fragment`); so a sheet at level `d` writes the line on which the spelling at
  depth `d` starts, and all that follows it (`emit_fragment`). The line of a config
  section is such a line too (`entry_eq_fragment`).
-/

import PhpScribe.ConfigFile
import PhpScribe.Proofs.Literal.Term
import PhpScribe.Proofs.Outcome
import PhpScribe.Proofs.Sheet.Rows

namespace PhpScribe

/-! ## The fragment of a value -/

def Fragment.array (front back : String) (entries : List Fragment) : Fragment :=
  if entries.isEmpty then .line (front ++ "[]" ++ back)
  else .block (front ++ "[") entries (some ("]" ++ back))

namespace Value

mutual
/-- The value as a fragment, with what stands in front of it and behind it. -/
def fragment (front back : String) : Value → Except LiteralError Fragment
  | .list items => (itemFragments items).map (Fragment.array front back)
  | .map entries => (entryFragments entries).map (Fragment.array front back)
  | scalar => (Literal.render scalar).map fun s => .line (front ++ s ++ back)

def itemFragments : List Value → Except LiteralError (List Fragment)
  | [] => .ok []
  | v :: vs => do
    let f ← fragment "" "," v
    let fs ← itemFragments vs
    return f :: fs

def entryFragments : List (Key × Value) → Except LiteralError (List Fragment)
  | [] => .ok []
  | (k, v) :: es => do
    let f ← fragment (Literal.key k ++ " => ") "," v
    let fs ← entryFragments es
    return f :: fs
end

end Value

/-! ## Its text -/

namespace Fragment

variable (i : Indent)

def textAt (level : Nat) (f : Fragment) : String := allText i level [f]

theorem allText_eq_concat (level : Nat) (fs : List Fragment) :
    allText i level fs = Text.concat (fs.map (textAt i level)) := by
  induction fs with
  | nil => rfl
  | cons f fs ih =>
    have hcons := allText_append i level [f] fs
    rw [List.singleton_append, ih] at hcons
    exact hcons

theorem emit_eq_textAt (level : Nat) (f : Fragment) (text : String) :
    Sheet.emit f ⟨i, level, text⟩ = ⟨i, level, text ++ f.textAt i level⟩ := by
  rw [Sheet.emit_eq, textAt, allText, allRows, allRows, List.append_nil]
  rfl

theorem textAt_line (level : Nat) (s : String) : textAt i level (.line s) = i.text level ++ s ++ "\n" := by
  rw [textAt, allText_line, allText_nil, String.append_empty]

/-- A block of the entries of an array is the array with one entry a line. -/
theorem textAt_array (level : Nat) (front back : String) {entries : List Fragment} {ss : List String}
    (h : entries.map (textAt i (level + 1)) = ss.map (i.text (level + 1) ++ · ++ ",\n")) :
    textAt i level (array front back entries) =
      i.text level ++ (front ++ Layout.bracket (.multiline i level) ss ++ back) ++ "\n" := by
  have hlength : entries.length = ss.length := by simpa using congrArg List.length h
  cases ss with
  | nil =>
    rw [List.length_nil] at hlength
    rw [List.eq_nil_of_length_eq_zero hlength]
    exact textAt_line i level (front ++ "[]" ++ back)
  | cons s ss =>
    have hne : ¬entries.isEmpty = true := by
      intro he
      rw [List.isEmpty_iff.1 he] at hlength
      exact nomatch hlength
    rw [array, if_neg hne, textAt, allText_block, allText_nil, String.append_empty, allText_eq_concat, h]
    have hopen : "[\n" = "[" ++ "\n" := by decide
    simp only [Layout.bracket, List.isEmpty_cons, Bool.false_eq_true, if_false, hopen, String.append_assoc]

end Fragment

/-! ## Both ways agree -/

namespace Value

open Fragment (textAt textAt_array textAt_line)

variable (i : Indent)

theorem textAt_scalar (level : Nat) (front back : String) (x : Except LiteralError String) :
    (x.map fun s => Fragment.line (front ++ s ++ back)).map (textAt i level) =
      x.map fun s => i.text level ++ (front ++ s ++ back) ++ "\n" := by
  cases x with
  | error e => rfl
  | ok s => exact congrArg Except.ok (textAt_line i level _)

theorem textAt_brackets (level : Nat) (front back : String) {fs : Except LiteralError (List Fragment)}
    {ss : Except LiteralError (List String)}
    (h : fs.map (List.map (textAt i (level + 1))) = ss.map (List.map (i.text (level + 1) ++ · ++ ",\n"))) :
    (fs.map (Fragment.array front back)).map (textAt i level) =
      (ss.map (Layout.bracket (.multiline i level))).map fun s =>
        i.text level ++ (front ++ s ++ back) ++ "\n" := by
  rw [map_map, map_map]
  exact map_eq_of_map_eq h fun fs ss hlines => textAt_array i level front back hlines

/-- The comma behind an entry ends its line. -/
theorem text_entry (level : Nat) (front s : String) :
    i.text level ++ (front ++ s ++ ",") ++ "\n" = i.text level ++ (front ++ s) ++ ",\n" := by
  have hend : ",\n" = "," ++ "\n" := by decide
  simp only [hend, String.append_assoc]

mutual
/-- The fragment of a value has the text of its literal, and fails where that fails. -/
theorem textAt_fragment : (v : Value) → (level : Nat) → (front back : String) →
    (v.fragment front back).map (textAt i level) =
      (Literal.spell (.multiline i level) v).map fun s => i.text level ++ (front ++ s ++ back) ++ "\n"
  | .null, level, front, back | .bool true, level, front, back | .bool false, level, front, back
  | .int _, level, front, back | .float _, level, front, back | .string _, level, front, back => by
    simp only [fragment, Literal.render, Literal.spell]
    exact textAt_scalar i level front back _
  | .list items, level, front, back => textAt_brackets i level front back (textAt_items items (level + 1))
  | .map entries, level, front, back => textAt_brackets i level front back (textAt_entries entries (level + 1))

theorem textAt_items : (vs : List Value) → (level : Nat) →
    (itemFragments vs).map (List.map (textAt i level)) =
      (Literal.spellItems (.multiline i level) vs).map (List.map (i.text level ++ · ++ ",\n"))
  | [], _ => rfl
  | v :: vs, level => by
    have hstep := textAt_fragment v level "" ","
    simp only [text_entry] at hstep
    simp only [String.empty_append] at hstep
    exact map_cons_eq_of_map_eq (h := id) hstep (textAt_items vs level)

theorem textAt_entries : (es : List (Key × Value)) → (level : Nat) →
    (entryFragments es).map (List.map (textAt i level)) =
      (Literal.spellEntries (.multiline i level) es).map (List.map (i.text level ++ · ++ ",\n"))
  | [], _ => rfl
  | (k, v) :: es, level => by
    have hstep := textAt_fragment v level (Literal.key k ++ " => ") ","
    simp only [text_entry] at hstep
    exact map_cons_eq_of_map_eq (h := fun s => Literal.key k ++ " => " ++ s) hstep (textAt_entries es level)
end

/-- A sheet writes the fragment of a value as the literal with one entry a line, from the
    sheet's level on: the indentation of that level, the literal, and a newline. -/
theorem emit_fragment (v : Value) (hv : v.Finite) (level : Nat) :
    ∃ s f, Literal.spell (.multiline i level) v = .ok s ∧ v.fragment "" "" = .ok f ∧
      ∀ text, Sheet.emit f ⟨i, level, text⟩ = ⟨i, level, text ++ (i.text level ++ s ++ "\n")⟩ := by
  obtain ⟨s, hs⟩ : ∃ s, Literal.spell (.multiline i level) v = .ok s := ⟨_, Literal.spell_of_finite hv _⟩
  have hlines := textAt_fragment i v level "" ""
  rw [hs] at hlines
  obtain ⟨f, hf, htext⟩ := exists_of_map_ok hlines
  refine ⟨s, f, hs, hf, fun text => ?_⟩
  simp only [String.empty_append, String.append_empty] at htext
  rw [Fragment.emit_eq_textAt, htext]

/-- The contents of a string stay as they are, also behind a newline in it. -/
theorem emit_fragment_newline :
    let v : Value := .map [(.str "a", .list [.string "x\ny"]), (.int 2, .map [])]
    v.Finite ∧ ∃ f, v.fragment "" "" = .ok f ∧
      (Sheet.emit f ⟨.spaces 2, 1, "return\n"⟩).text =
        "return\n  [\n    'a' => [\n      'x\ny',\n    ],\n    2 => [],\n  ]\n" := by
  intro v
  have hv : v.Finite := fun x hx => nomatch hx
  obtain ⟨s, f, hs, hf, hemit⟩ := emit_fragment (.spaces 2) v hv 1
  have hspell : Literal.spell (.multiline (.spaces 2) 1) v =
      .ok "[\n    'a' => [\n      'x\ny',\n    ],\n    2 => [],\n  ]" := rfl
  rw [hspell] at hs
  cases hs
  refine ⟨hv, f, hf, ?_⟩
  rw [hemit]
  decide

end Value

/-- The line of a section is the fragment of its value behind its name. -/
theorem ConfigFile.entry_eq_fragment (name : String) (v : Value) :
    (entry name v).map (· ++ "\n") =
      (v.fragment (Literal.quote name ++ " => ") ",").map (Fragment.textAt .config 1) := by
  rw [Value.textAt_fragment, entry, map_map]
  rfl

end PhpScribe
