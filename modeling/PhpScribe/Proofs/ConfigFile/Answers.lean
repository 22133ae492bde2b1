/-
  PhpScribe.Proofs.ConfigFile.Answers — a section added to any text at all.

  Nothing asks that the text is PHP: a quote or a comment may be open at its end, and a
  `];` may stand in a literal. Where an entry goes is told without the scan that finds it
  (`Cut`): in front of the last `];`, behind the last character that is code when the
  text up to there is read from its start. There is such a cut whenever there is a `];`
  (`exists_cut`), and the scan finds no other (`Cut.splitLast_eq`, `CodeEnd.splitCode_eq`).
  So every answer is told by the sections, the cut and the value (`addSection_answers`).
-/

import PhpScribe.Proofs.ConfigFile.Cut

namespace PhpScribe.ConfigFile

/-! ## The characters that are code -/

def codeMarks (ts : List Token) : List Bool := ts.flatMap fun t => t.chars.map fun _ => t.isCode

theorem codeMarks_append (ts us : List Token) : codeMarks (ts ++ us) = codeMarks ts ++ codeMarks us :=
  List.flatMap_append

theorem length_codeMarks (ts : List Token) : (codeMarks ts).length = (text ts).length := by
  induction ts with
  | nil => rfl
  | cons t ts ih =>
    rw [text_cons, List.length_append, ← ih, codeMarks, List.flatMap_cons, List.length_append, List.length_map]
    rfl

theorem codeMarks_space {ts : List Token} (h : ∀ t ∈ ts, t.isCode = false) : true ∉ codeMarks ts := by
  intro hmem
  obtain ⟨t, ht, hmem⟩ := List.mem_flatMap.1 hmem
  obtain ⟨c, -, hc⟩ := List.mem_map.1 hmem
  rw [h t ht] at hc
  cases hc

/-- The last character of code is marked. -/
theorem codeMarks_snoc {t : Token} (h : t.isCode = true) (ts : List Token) :
    ∃ bs, codeMarks (ts ++ [t]) = bs ++ [true] := by
  have hne : t.chars ≠ [] := by
    cases t with
    | comment x => cases h
    | quoted q body closed => exact List.cons_ne_nil _ _
    | symbol c => exact List.cons_ne_nil _ _
  obtain ⟨s, c, hs⟩ := (List.eq_nil_or_concat t.chars).resolve_left hne
  have hmarks : codeMarks [t] = s.map (fun _ => true) ++ [true] := by
    rw [codeMarks, List.flatMap_singleton, hs, h, List.concat_eq_append, List.map_append]
    rfl
  exact ⟨codeMarks ts ++ s.map fun _ => true, by rw [codeMarks_append, hmarks, List.append_assoc]⟩

/-- The text is cut behind its last character that is code: what follows is the longest
    end without code. -/
structure CodeEnd (s code gap : List Char) : Prop where
  append_eq : code ++ gap = s
  quiet : true ∉ (codeMarks (tokens s)).drop code.length
  longest : ∀ n, true ∉ (codeMarks (tokens s)).drop n → code.length ≤ n

theorem codeEnd_splitCode (s : List Char) : CodeEnd s (splitCode s).1 (splitCode s).2 := by
  obtain ⟨ts, us, htok, hts, hus⟩ := exists_endsInCode (tokens s)
  have hmarks : codeMarks (tokens s) = codeMarks ts ++ codeMarks us := by rw [htok, codeMarks_append]
  refine ⟨splitCode_append s, ?_, fun n hn => ?_⟩
  · rw [splitCode_eq htok hts hus, hmarks, ← length_codeMarks, List.drop_left]
    exact codeMarks_space hus
  · rw [splitCode_eq htok hts hus, ← length_codeMarks]
    by_contra hlt
    rcases List.eq_nil_or_concat ts with rfl | ⟨vs, t, rfl⟩
    · exact hlt (Nat.zero_le n)
    · -- the mark of the last character of code is behind every shorter cut
      rw [List.concat_eq_append] at hts hmarks hlt
      obtain ⟨bs, hbs⟩ := codeMarks_snoc (endsInCode_snoc.1 hts) vs
      rw [hbs, List.length_append, List.length_singleton] at hlt
      refine hn ?_
      rw [hmarks, hbs, List.append_assoc, List.drop_append_of_le_length (by omega)]
      simp

/-- There is no second place behind the last code. -/
theorem CodeEnd.splitCode_eq {s code gap : List Char} (h : CodeEnd s code gap) :
    splitCode s = (code, gap) := by
  have hs := codeEnd_splitCode s
  have hlength : (splitCode s).1.length = code.length :=
    Nat.le_antisymm (hs.longest _ h.quiet) (h.longest _ hs.quiet)
  exact Prod.ext_iff.2 (List.append_inj (hs.append_eq.trans h.append_eq.symm) hlength)

/-! ## Where an entry goes -/

/-- A text in four parts: up to its last code in front of the last `];`, the comments and
    white space behind that code, more white space, and the rest. -/
structure Cut (source : List Char) where
  head : List Char
  kept : List Char
  blanks : List Char
  tail : List Char
  source_eq : head ++ (kept ++ (blanks ++ tail)) = source
  close_tail : returnClose <+: tail
  close_last : ¬returnClose <:+: tail.tail
  codeEnd : CodeEnd (head ++ (kept ++ blanks)) head (kept ++ blanks)
  kept_last : ∀ c ∈ kept.getLast?, Text.isBlank c = false
  blank : ∀ c ∈ blanks, Text.isBlank c = true

/-- The text with a section put in: a comma behind the code unless that ends with a comma or
    an opening bracket, and the section on lines of its own in place of the white space. -/
def Cut.insert {source : List Char} (cut : Cut source) (name literal : String) : List Char :=
  cut.head ++ ((if cut.head.getLast? = some '[' ∨ cut.head.getLast? = some ',' then [] else [',']) ++
    (cut.kept ++ '\n' :: (("    " ++ Literal.quote name ++ " => " ++ literal ++ ",").toList ++
      '\n' :: cut.tail)))

variable {source : List Char}

theorem Cut.splitLast_eq (cut : Cut source) :
    Text.splitLast returnClose source = some (cut.head ++ (cut.kept ++ cut.blanks), cut.tail) := by
  refine (Text.splitLast_eq_some (List.cons_ne_nil _ _)).2 ⟨?_, cut.close_tail, cut.close_last⟩
  simpa only [List.append_assoc] using cut.source_eq

theorem Cut.trimEnd_eq (cut : Cut source) : Text.trimEnd (cut.kept ++ cut.blanks) = cut.kept :=
  Text.trimEnd_eq.2 ⟨cut.kept_last, cut.blanks, rfl, cut.blank⟩

theorem exists_cut (h : returnClose <:+: source) : Nonempty (Cut source) := by
  cases hsplit : Text.splitLast returnClose source with
  | none => exact absurd h (Text.splitLast_eq_none.1 hsplit)
  | some p =>
    obtain ⟨before, tail⟩ := p
    obtain ⟨rfl, hclose, hlast⟩ := (Text.splitLast_eq_some (List.cons_ne_nil _ _)).1 hsplit
    obtain ⟨hkept, blanks, hgap, hblank⟩ := Text.trimEnd_eq.1 (Eq.refl (Text.trimEnd (splitCode before).2))
    have hend := codeEnd_splitCode before
    have hbefore := hend.append_eq
    rw [hgap] at hend hbefore
    exact ⟨{
      head := (splitCode before).1
      kept := Text.trimEnd (splitCode before).2
      blanks := blanks
      tail := tail
      source_eq := by rw [← List.append_assoc _ blanks, ← List.append_assoc, hbefore]
      close_tail := hclose
      close_last := hlast
      codeEnd := by rwa [hbefore]
      kept_last := hkept
      blank := hblank }⟩

theorem separator_eq (code : List Char) :
    separator code = if code.getLast? = some '[' ∨ code.getLast? = some ',' then [] else [','] := by
  unfold separator
  split
  · next h => rw [if_pos (Or.inl h)]
  · next h => rw [if_pos (Or.inr h)]
  · next h1 h2 => rw [if_neg (not_or.2 ⟨h1, h2⟩)]

/-! ## The answers -/

section Answers

variable {f : ConfigFile} {name : String}

theorem hasSection_iff : f.hasSection name = true ↔ name ∈ f.sections := by simp [hasSection]

theorem addSection_of_mem (h : name ∈ f.sections) (v : Value) :
    f.addSection name v = .error (.duplicate name) := if_pos (hasSection_iff.2 h)

theorem addSection_of_no_close (hn : name ∉ f.sections) (h : ¬returnClose <:+: f.source.toList) (v : Value) :
    f.addSection name v = .error .noArrayEnd := by
  unfold addSection
  rw [if_neg fun hs => hn (hasSection_iff.1 hs), Text.splitLast_eq_none.2 h]

/-- A new section is put in at the cut, if its value can be spelled. -/
theorem Cut.addSection_eq (cut : Cut f.source.toList) (hn : name ∉ f.sections) (v : Value) :
    f.addSection name v = match Literal.spell (.config 1) v with
      | .error e => .error (.literal e)
      | .ok s => .ok ⟨String.ofList (cut.insert name s)⟩ := by
  unfold addSection entry
  rw [if_neg fun hs => hn (hasSection_iff.1 hs), cut.splitLast_eq]
  cases Literal.spell (.config 1) v with
  | error e => rfl
  | ok s =>
    simp only [Except.map, cut.codeEnd.splitCode_eq, cut.trimEnd_eq, separator_eq]
    refine congrArg (fun t => Except.ok (ConfigFile.mk t)) (String.toList_injective ?_)
    have hindent : Indent.config.text 1 = "    " := by decide
    simp [Cut.insert, hindent]

theorem exists_spell_error {v : Value} (h : ¬v.Finite) (l : Layout) : ∃ e, Literal.spell l v = .error e := by
  cases hs : Literal.spell l v with
  | error e => exact ⟨e, rfl⟩
  | ok s => exact absurd (Literal.finite_of_spell hs) h

/-- What decides, in its order: the name, the bracket, the value. -/
theorem addSection_cases (f : ConfigFile) (name : String) (v : Value) :
    (name ∈ f.sections ∧ f.addSection name v = .error (.duplicate name)) ∨
    (name ∉ f.sections ∧ ¬returnClose <:+: f.source.toList ∧ f.addSection name v = .error .noArrayEnd) ∨
    (name ∉ f.sections ∧ returnClose <:+: f.source.toList ∧ ¬v.Finite ∧
      ∃ e, f.addSection name v = .error (.literal e)) ∨
    (name ∉ f.sections ∧ returnClose <:+: f.source.toList ∧ v.Finite ∧ ∃ g, f.addSection name v = .ok g) := by
  by_cases hn : name ∈ f.sections
  · exact Or.inl ⟨hn, addSection_of_mem hn v⟩
  by_cases hclose : returnClose <:+: f.source.toList
  · obtain ⟨cut⟩ := exists_cut hclose
    have hcut := cut.addSection_eq hn v
    by_cases hv : v.Finite
    · rw [Literal.spell_of_finite hv] at hcut
      exact Or.inr (Or.inr (Or.inr ⟨hn, hclose, hv, _, hcut⟩))
    · obtain ⟨e, he⟩ := exists_spell_error hv (.config 1)
      rw [he] at hcut
      exact Or.inr (Or.inr (Or.inl ⟨hn, hclose, hv, e, hcut⟩))
  · exact Or.inr (Or.inl ⟨hn, hclose, addSection_of_no_close hn hclose v⟩)

/-- Each answer is given in the one case in which it is due. -/
theorem addSection_iff (f : ConfigFile) (name : String) (v : Value) :
    (f.addSection name v = .error (.duplicate name) ↔ name ∈ f.sections) ∧
    (f.addSection name v = .error .noArrayEnd ↔ name ∉ f.sections ∧ ¬returnClose <:+: f.source.toList) ∧
    ((∃ e, f.addSection name v = .error (.literal e)) ↔
      name ∉ f.sections ∧ returnClose <:+: f.source.toList ∧ ¬v.Finite) ∧
    ((∃ g, f.addSection name v = .ok g) ↔
      name ∉ f.sections ∧ returnClose <:+: f.source.toList ∧ v.Finite) := by
  rcases addSection_cases f name v with ⟨hn, h⟩ | ⟨hn, hc, h⟩ | ⟨hn, hc, hv, e, h⟩ | ⟨hn, hc, hv, g, h⟩ <;>
    simp [*]

theorem addSection_duplicate_iff (f : ConfigFile) (name : String) (v : Value) :
    f.addSection name v = .error (.duplicate name) ↔ name ∈ f.sections := (addSection_iff f name v).1

/-- A section that is added is put in at the cut, and the other way round. -/
theorem addSection_eq_ok {v : Value} {g : ConfigFile} : f.addSection name v = .ok g ↔
    name ∉ f.sections ∧ ∃ (cut : Cut f.source.toList) (s : String), Literal.spell (.config 1) v = .ok s ∧
      g.source.toList = cut.insert name s := by
  constructor
  · intro hg
    obtain ⟨hn, hclose, hv⟩ := (addSection_iff f name v).2.2.2.1 ⟨g, hg⟩
    obtain ⟨cut⟩ := exists_cut hclose
    have hs := Literal.spell_of_finite hv (.config 1)
    have hcut := cut.addSection_eq hn v
    rw [hs, hg] at hcut
    cases hcut
    exact ⟨hn, cut, _, hs, String.toList_ofList⟩
  · rintro ⟨hn, cut, s, hs, hg⟩
    rw [cut.addSection_eq hn v, hs]
    show Except.ok (ConfigFile.mk (String.ofList (cut.insert name s))) = .ok g
    rw [← hg, String.ofList_toList]

/-- Whatever the text, the name and the value are: a section that is there is a duplicate;
    else, without a `];` there is no place for it; else a double that is NaN or infinite
    cannot be spelled; and else the section is put in at the cut, and nothing else changes. -/
theorem addSection_answers (f : ConfigFile) (name : String) (v : Value) :
    (f.addSection name v = .error (.duplicate name) ↔ name ∈ f.sections) ∧
    (f.addSection name v = .error .noArrayEnd ↔ name ∉ f.sections ∧ ¬returnClose <:+: f.source.toList) ∧
    ((∃ e, f.addSection name v = .error (.literal e)) ↔ name ∉ f.sections ∧
      returnClose <:+: f.source.toList ∧ ∃ x ∈ v.floats, x.isNaN = true ∨ x.isInf = true) ∧
    ((∃ g, f.addSection name v = .ok g) ↔ name ∉ f.sections ∧ returnClose <:+: f.source.toList ∧
      ∀ x ∈ v.floats, x.isNaN = false ∧ x.isInf = false) ∧
    ∀ g, f.addSection name v = .ok g ↔ name ∉ f.sections ∧
      ∃ (cut : Cut f.source.toList) (s : String), Literal.spell (.config 1) v = .ok s ∧
        g.unit.isGenerated = true ∧ g.unit.text.toList = cut.insert name s := by
  have hfaulty : (∃ x ∈ v.floats, x.isNaN = true ∨ x.isInf = true) ↔ ¬v.Finite := by
    simp [Value.Finite, imp_iff_not_or]
  have hfinite : (∀ x ∈ v.floats, x.isNaN = false ∧ x.isInf = false) ↔ v.Finite := Iff.rfl
  obtain ⟨hduplicate, hnoEnd, hliteral, hok⟩ := addSection_iff f name v
  rw [hfaulty, hfinite]
  refine ⟨hduplicate, hnoEnd, hliteral, hok, fun g => ?_⟩
  have hunit : g.unit.isGenerated = true := rfl
  have htext : g.unit.text = g.source := rfl
  simp only [addSection_eq_ok, hunit, htext, true_and]

/-- A comment that the cut leaves open. -/
example : addSection ⟨"return [1 /* ];"⟩ "a" .null = .ok ⟨"return [1, /*\n    'a' => null,\n];"⟩ := by
  decide +kernel

end Answers

end PhpScribe.ConfigFile
