/-
  PhpScribe.Proofs.DocComment — where the documentation comment of a method ends.

  A comment ends at the first `*/` behind its opening. The one a method is documented with is
  to end at its own last line, behind the summary and the tags and in front of the signature.

  What could end it earlier stands on one line, for the end of a comment goes over no end of a
  line (`endsComment_inside`). It does not come about where a line is put together: the star in
  front of a line is kept from its text by a space (`endsComment_docLine`), and in a tag the type
  is kept from the name by a dollar sign (`endsComment_paramTag`). So a summary is safe whose
  lines start with a slash, or end with a star and go on with one. What is left is a summary that
  holds the end of a comment itself: it is written as it is, and there the comment ends
  (`comment_ends`, `a_summary_ends_its_comment`).
-/

import PhpScribe.Declaration
import PhpScribe.Proofs.Outcome
import PhpScribe.Proofs.Sheet.Bodies

namespace PhpScribe.Declaration

variable {lines : List String} {s summary : String} {m : Method} {a : Argument}

/-! ## The end of a comment -/

def commentEnd : List Char := ['*', '/']

def EndsComment (s : String) : Prop := commentEnd <:+: s.toList

theorem endsComment_iff_isSome : EndsComment s ↔ (Text.afterFirst commentEnd s.toList).isSome = true := by
  rw [Option.isSome_iff_ne_none, Ne, Text.afterFirst_eq_none, not_not, EndsComment]

instance (s : String) : Decidable (EndsComment s) := decidable_of_iff' _ endsComment_iff_isSome

theorem not_commentEnd_of_notMem {cs : List Char} (h : '*' ∉ cs) : ¬commentEnd <:+: cs := fun hin =>
  h (hin.subset (by decide))

theorem commentEnd_unbordered : ∀ n < commentEnd.length, 0 < n → ¬commentEnd.drop n <+: commentEnd := by
  decide

/-! ## Lines of a comment -/

variable (i : Indent) (level : Nat)

theorem not_commentEnd_chars : ¬commentEnd <:+: i.chars level :=
  not_commentEnd_of_notMem fun h => nomatch i.isBlank_chars level '*' h

/-- A line ends the comment when its text does. -/
theorem endsComment_docLine (s : String) (rest : List Char) :
    commentEnd <:+: (i.text level ++ Sheet.docLine s ++ "\n").toList ++ rest ↔
      EndsComment s ∨ commentEnd <:+: rest := by
  have hstar : ¬commentEnd <:+: ['*'] := by decide
  by_cases hs : s = ""
  · have htext : (i.text level ++ Sheet.docLine s ++ "\n").toList ++ rest =
        i.chars level ++ ' ' :: (['*'] ++ '\n' :: rest) := by
      simp [hs, Sheet.docLine, Indent.text]
    have hempty : ¬EndsComment "" := by decide
    rw [htext, Text.isInfix_append_cons (by decide), Text.isInfix_append_cons (by decide), hs]
    simp [not_commentEnd_chars, hstar, hempty]
  · have htext : (i.text level ++ Sheet.docLine s ++ "\n").toList ++ rest =
        i.chars level ++ ' ' :: (['*'] ++ ' ' :: (s.toList ++ '\n' :: rest)) := by
      simp [hs, Sheet.docLine, Indent.text]
    rw [htext, Text.isInfix_append_cons (by decide), Text.isInfix_append_cons (by decide),
      Text.isInfix_append_cons (by decide)]
    simp [not_commentEnd_chars, hstar, EndsComment]

/-- What stands between the opening of a comment and its own end. -/
def inside (i : Indent) (level : Nat) (lines : List String) : String :=
  "\n" ++ Text.concat (lines.map fun s => i.text level ++ Sheet.docLine s ++ "\n") ++ (i.text level ++ " ")

theorem endsComment_inside : EndsComment (inside i level lines) ↔ ∃ s ∈ lines, EndsComment s := by
  have hlines (rest : List Char) :
      commentEnd <:+: (Text.concat (lines.map fun s => i.text level ++ Sheet.docLine s ++ "\n")).toList ++ rest ↔
        (∃ s ∈ lines, EndsComment s) ∨ commentEnd <:+: rest := by
    induction lines with
    | nil => simp [Text.concat]
    | cons s lines ih =>
      rw [List.map_cons, Text.concat, String.toList_append, List.append_assoc, endsComment_docLine, ih,
        List.exists_mem_cons_iff, or_assoc]
  have htext : (inside i level lines).toList =
      [] ++ '\n' :: ((Text.concat (lines.map fun s => i.text level ++ Sheet.docLine s ++ "\n")).toList ++
        (i.chars level ++ ' ' :: [])) := by
    simp [inside, Indent.text]
  rw [EndsComment, htext, Text.isInfix_append_cons (by decide), hlines, Text.isInfix_append_cons (by decide)]
  have hnil : ¬commentEnd <:+: [] := by decide
  simp [hnil, not_commentEnd_chars]

/-! ## Summary and tags -/

structure TagsSafe (m : Method) : Prop where
  name : ∀ a ∈ m.arguments, ¬EndsComment a.name
  type : ∀ a ∈ m.arguments, ∀ type ∈ a.type, ¬EndsComment type
  returns : ∀ type ∈ m.returns, ¬EndsComment type

theorem endsComment_paramTag :
    EndsComment (paramTag a) ↔ EndsComment ((given a.type).getD "mixed") ∨ EndsComment a.name := by
  have htext : (paramTag a).toList =
      "@param".toList ++ ' ' :: (((given a.type).getD "mixed").toList ++ ' ' :: ([] ++ '$' :: a.name.toList)) := by
    simp [paramTag]
  have hfront : ¬commentEnd <:+: "@param".toList := not_commentEnd_of_notMem (by decide)
  have hnil : ¬commentEnd <:+: [] := by decide
  rw [EndsComment, htext, Text.isInfix_append_cons (by decide), Text.isInfix_append_cons (by decide),
    Text.isInfix_append_cons (by decide)]
  simp only [hfront, hnil, false_or, EndsComment]

theorem endsComment_returnTag (type : String) : EndsComment ("@return " ++ type) ↔ EndsComment type := by
  have htext : ("@return " ++ type).toList = "@return".toList ++ ' ' :: type.toList := by simp
  have hfront : ¬commentEnd <:+: "@return".toList := not_commentEnd_of_notMem (by decide)
  rw [EndsComment, htext, Text.isInfix_append_cons (by decide)]
  simp only [hfront, false_or, EndsComment]

theorem not_endsComment_of_mem_docTags (h : TagsSafe m) : ∀ s ∈ docTags m, ¬EndsComment s := by
  intro s hs
  rcases List.mem_append.1 hs with hparam | hreturn
  · obtain ⟨a, ha, rfl⟩ := List.mem_map.1 hparam
    rw [endsComment_paramTag, not_or]
    refine ⟨?_, h.name a ha⟩
    cases htype : given a.type with
    | none =>
      show ¬EndsComment "mixed"
      decide
    | some type => exact h.type a ha type (Option.filter_eq_some_iff.1 htype).1
  · obtain ⟨type, htype, rfl⟩ := Option.map_eq_some_iff.1 (Option.mem_toList.1 hreturn)
    rw [endsComment_returnTag]
    exact h.returns type (Option.filter_eq_some_iff.1 htype).1

theorem endsComment_linesOf (summary : String) :
    (∃ s ∈ Text.linesOf summary, EndsComment s) ↔ EndsComment summary := by
  rw [EndsComment, Text.isInfix_iff_lines (by decide) (by decide) (by decide)]
  simp [Text.linesOf, EndsComment]

/-- The lines of a comment: the summary and the tags, with nothing but empty lines between. -/
theorem exists_docLines (hdoc : m.doc = some summary) : ∃ gap : List String, (∀ s ∈ gap, s = "") ∧
    docLines m = some (Text.linesOf summary ++ (gap ++ docTags m)) := by
  by_cases hone : ((Text.linesOf summary).isEmpty || (docTags m).isEmpty) = true
  · refine ⟨[], nofun, ?_⟩
    simp only [docLines, hdoc, Option.map_some, if_pos hone, List.nil_append]
  · refine ⟨[""], fun s hs => List.mem_singleton.1 hs, ?_⟩
    simp only [docLines, hdoc, Option.map_some, if_neg hone, List.singleton_append]

/-- Of what stands in a comment only the summary can end it. -/
theorem endsComment_docLines {gap : List String} (htags : TagsSafe m) (hgap : ∀ s ∈ gap, s = "") :
    (∃ s ∈ Text.linesOf summary ++ (gap ++ docTags m), EndsComment s) ↔ EndsComment summary := by
  have hempty : ¬EndsComment "" := by decide
  have hbehind : ¬∃ s ∈ gap ++ docTags m, EndsComment s := by
    rintro ⟨s, hs, hends⟩
    rcases List.mem_append.1 hs with hs | hs
    · exact hempty (hgap s hs ▸ hends)
    · exact not_endsComment_of_mem_docTags htags s hs hends
  rw [← endsComment_linesOf]
  simp only [List.mem_append (s := Text.linesOf summary), or_and_right, exists_or, hbehind, or_false]

/-! ## The comment of a method -/

def behind (i : Indent) (level : Nat) (signature body : String) : String :=
  "\n" ++ Fragment.allText i level [.block (signature ++ " \x7b") (Fragment.ofText body) (some "\x7d")]

theorem text_methodBlock (signature body : String) (b : Sheet) :
    (Sheet.emitAll (methodBlock (some lines) signature body) b).text.toList =
      (b.text ++ b.indent.text b.level ++ "/**").toList ++ ((inside b.indent b.level lines).toList ++
        (commentEnd ++ (behind b.indent b.level signature body).toList)) := by
  have htext : (Sheet.emitAll (methodBlock (some lines) signature body) b).text =
      b.text ++ Fragment.allText b.indent b.level (methodBlock (some lines) signature body) := by
    rw [Sheet.emitAll_eq]
    rfl
  rw [htext, methodBlock, Option.map_some, Option.toList_some, List.singleton_append, Fragment.allText_doc]
  simp [inside, behind, commentEnd]

/-- A method with its comment on a sheet: the first end of a comment behind the opening is that
    of the comment itself, with everything but the method in front of it, exactly when the
    summary holds none. If it does, the end of the comment is code with the rest of the summary. -/
theorem comment_ends {fs : List Fragment} (hdoc : m.doc = some summary) (htags : TagsSafe m)
    (hm : method m = .ok fs) (b : Sheet) :
    ∃ lines signature, docLines m = some lines ∧ Text.linesOf summary <+: lines ∧
      methodSignature m = .ok signature ∧
      let front := (inside b.indent b.level lines).toList
      let back := (behind b.indent b.level signature m.body).toList
      (Sheet.emitAll fs b).text.toList =
          (b.text ++ b.indent.text b.level ++ "/**").toList ++ (front ++ (commentEnd ++ back)) ∧
        (Text.afterFirst commentEnd (front ++ (commentEnd ++ back)) = some back ↔ ¬EndsComment summary) ∧
        (EndsComment summary → ∃ rest, rest <:+ front ∧
          Text.afterFirst commentEnd (front ++ (commentEnd ++ back)) = some (rest ++ (commentEnd ++ back))) := by
  obtain ⟨signature, hsignature, rfl⟩ := exists_of_map_ok hm
  obtain ⟨gap, hgap, hlines⟩ := exists_docLines hdoc
  have hends : commentEnd <:+: (inside b.indent b.level (Text.linesOf summary ++ (gap ++ docTags m))).toList ↔
      EndsComment summary :=
    (endsComment_inside b.indent b.level).trans (endsComment_docLines htags hgap)
  refine ⟨_, signature, hlines, List.prefix_append _ _, hsignature, ?_⟩
  intro front back
  refine ⟨?_, ?_, fun hsummary => ?_⟩
  · rw [hlines, text_methodBlock]
  · rw [Text.afterFirst_put_iff (by decide) commentEnd_unbordered, hends]
  · cases hfront : Text.afterFirst commentEnd front with
    | none => exact absurd (hends.2 hsummary) (Text.afterFirst_eq_none.1 hfront)
    | some rest =>
      exact ⟨rest, Text.afterFirst_isSuffix hfront, Text.afterFirst_append hfront _⟩

/-- A summary that looks like the end of a comment over its lines and where they are put. -/
theorem comment_ends_lookalike :
    let m : Method := {
      name := "run"
      arguments := [{ name := "every", type := some "int" }]
      returns := some "?int"
      doc := some "/ runs *\n/ and *\r\n\n* / stops" }
    ∃ fs, m.doc = some "/ runs *\n/ and *\r\n\n* / stops" ∧ TagsSafe m ∧ method m = .ok fs ∧
      ∃ front back : List Char,
        (Sheet.emitAll fs ⟨.tab, 1, ""⟩).text.toList = "\t/**".toList ++ (front ++ (commentEnd ++ back)) ∧
          Text.afterFirst commentEnd (front ++ (commentEnd ++ back)) = some back ∧
          back = "\n\tpublic function run(int $every): ?int \x7b\n\t\t//\n\t\x7d\n".toList := by
  intro m
  have htags : TagsSafe m := ⟨by decide, by decide, by decide⟩
  obtain ⟨fs, hfs⟩ : ∃ fs, method m = .ok fs := ⟨_, rfl⟩
  have hsafe : ¬EndsComment "/ runs *\n/ and *\r\n\n* / stops" := by decide +kernel
  have hhead : (methodSignature m).toOption = some "public function run(int $every): ?int" := by decide +kernel
  obtain ⟨lines, signature, -, -, hsignature, htext, hends, -⟩ := comment_ends rfl htags hfs ⟨.tab, 1, ""⟩
  obtain rfl : signature = "public function run(int $every): ?int" :=
    Option.some.inj ((toOption_eq_some.2 hsignature).symm.trans hhead)
  refine ⟨fs, rfl, htags, hfs, _, _, htext, hends.2 hsafe, ?_⟩
  decide +kernel

/-- A summary with a pattern of times in it: the comment ends there, in front of its own end. -/
theorem a_summary_ends_its_comment :
    let m : Method := { name := "f", doc := some "Runs at */5." }
    let after := "\n\t * Runs at */5.\n\t */\n\tpublic function f() \x7b\n\t\t//\n\t\x7d\n"
    TagsSafe m ∧
      (method m).toOption.map (fun fs => (Sheet.emitAll fs ⟨.tab, 1, ""⟩).text) = some ("\t/**" ++ after) ∧
      Text.afterFirst commentEnd after.toList =
        some "5.\n\t */\n\tpublic function f() \x7b\n\t\t//\n\t\x7d\n".toList := by
  intro m after
  refine ⟨⟨by decide, by decide, by decide⟩, ?_, ?_⟩
  · decide +kernel
  · decide +kernel

end PhpScribe.Declaration
