/-
  PhpScribe.Proofs.ClassUnit.Text — the text of a class, said from its description alone.

  `fileText` spells out the file: what stands in front of the class and its header, and
  between braces the blocks of traits, constants, fields and methods. It knows nothing of
  fragments and sheets, nor of the lines that these are made of, and it never fails. A
  class that can be written is written as that text, and one that cannot fails on the first
  default that has no literal (`write_eq`).

  Between the braces stand the blocks that are not empty, with one empty line between
  neighbours. They are firm: they start with a tab and a character that is not white space
  and end with such a character and a newline, so no blank line stands behind the first
  brace or in front of the last (`generate_text`).
-/

import PhpScribe.Proofs.ClassUnit.Faults
import PhpScribe.Proofs.Sheet.Rows

namespace PhpScribe.ClassUnit

/-! ## The parts of the text -/

def tabbed (s : String) : String := "\t" ++ s ++ "\n"

/-- A text behind a word and in front of what closes it; nothing for the empty text. -/
def clause (word s close : String) : String := if s = "" then "" else word ++ s ++ close

def headText (u : ClassUnit) : String :=
  "<?php\n\ndeclare(strict_types=1);\n\n" ++
    clause "namespace " (u.ns.getD "") ";\n\n" ++
    (if u.packages = [] then "" else Text.concat (u.packages.map fun p => "use " ++ p ++ ";\n") ++ "\n") ++
    "class " ++ u.name ++ clause " extends " (u.parent.getD "") "" ++
    clause " implements " (u.interface.getD "") ""

def traitsText (traits : List String) : String :=
  if traits = [] then "" else tabbed (Text.concat (traits.map fun t => "use " ++ t ++ ";"))

def defaultText : Option Value → String
  | none => ""
  | some v => " = " ++ String.ofList (v.term.chars .inline)

def visibilityText : Visibility → String
  | .public => "public"
  | .protected => "protected"
  | .private => "private"

/-- A constant that is static does not say so. -/
def constantText (c : Constant) : String :=
  visibilityText c.visibility ++ " const " ++ clause "" c.type " " ++ c.name ++ defaultText c.value ++ ";"

def fieldText (f : Field) : String :=
  visibilityText f.visibility ++ (if f.isStatic then " static " else " ") ++ clause "" f.type " " ++ "$" ++
    f.name ++ defaultText f.default ++ ";"

def argumentText (a : Argument) : String :=
  clause "" (a.type.getD "") " " ++ "$" ++ a.name ++ defaultText a.default

def functionText (name : String) (arguments : List Argument) (returns : Option String) : String :=
  "function " ++ name ++ "(" ++ Text.join ", " (arguments.map argumentText) ++ ")" ++
    clause ": " (returns.getD "") ""

def signatureText (m : Method) : String :=
  visibilityText m.visibility ++ (if m.isStatic then " static " else " ") ++
    functionText m.name m.arguments m.returns

def paramText (a : Argument) : String :=
  "@param " ++ (if a.type.getD "" = "" then "mixed" else a.type.getD "") ++ " $" ++ a.name

def tagTexts (m : Method) : List String :=
  m.arguments.map paramText ++ if m.returns.getD "" = "" then [] else ["@return " ++ m.returns.getD ""]

/-- The lines of the summary, the tags, and an empty line between the two if both are there. -/
def docText (m : Method) : String :=
  match m.doc with
  | none => ""
  | some summary =>
    tabbed "/**" ++
      Text.concat ((Text.linesOf summary).map fun s => tabbed (if s = "" then " *" else " * " ++ s)) ++
      (if Text.linesOf summary = [] ∨ tagTexts m = [] then "" else tabbed " *") ++
      Text.concat ((tagTexts m).map fun s => tabbed (" * " ++ s)) ++
      tabbed " */"

/-- The lines of a body two tabs deep, those of white space empty. -/
def bodyText (body : String) : String :=
  Text.concat ((Text.linesOf body).map fun l =>
    if Text.allBlank l.toList then "\n" else "\t\t" ++ l ++ "\n")

def methodText (m : Method) : String :=
  docText m ++ tabbed (signatureText m ++ " \x7b") ++ bodyText m.body ++ tabbed "\x7d"

def blockTexts (u : ClassUnit) : List String :=
  [traitsText u.traits, Text.concat (u.constants.map fun c => tabbed (constantText c)),
    Text.concat (u.fields.map fun f => tabbed (fieldText f)), Text.concat (u.methods.map methodText)]

def fileText (u : ClassUnit) : String :=
  u.headText ++ "\n\x7b\n" ++ Text.join "\n" (u.blockTexts.filter (· ≠ "")) ++ "\x7d\n"

/-! ## Lines -/

/-- What is absent is as good as empty. -/
theorem given_eq (s : Option String) :
    Declaration.given s = if s.getD "" = "" then none else some (s.getD "") := by
  cases s with
  | none => rfl
  | some s => by_cases hs : s = "" <;> simp [Declaration.given, hs]

theorem clause_eq (word : String) (s : Option String) (close : String) :
    clause word (s.getD "") close = match Declaration.given s with
      | some s => word ++ s ++ close
      | none => "" := by
  rw [given_eq, clause]
  by_cases hs : s.getD "" = ""
  · rw [if_pos hs, if_pos hs]
  · rw [if_neg hs, if_neg hs]

theorem keyword_eq (v : Visibility) : v.keyword = visibilityText v := by
  cases v <;> rfl

/-- The space behind a type instead of in front of it. -/
theorem spaced_append (type s : String) :
    Declaration.spaced type ++ (" " ++ s) = " " ++ (clause "" type " " ++ s) := by
  by_cases ht : type = ""
  · subst ht
    rw [clause, if_pos rfl]
    simp [Declaration.spaced]
  · simp [Declaration.spaced, clause, ht, String.append_assoc]

theorem static_append (isStatic : Bool) (s : String) :
    (if isStatic then " static" else "") ++ (" " ++ s) = (if isStatic then " static " else " ") ++ s := by
  rw [← String.append_assoc]
  cases isStatic <;> rfl

theorem text_of_assigned {d : Option Value} {s : String} (h : Declaration.assigned d = .ok s) :
    s = defaultText d := by
  cases d with
  | none =>
    cases h
    rfl
  | some v =>
    obtain ⟨t, ht, rfl⟩ := exists_of_map_ok h
    have hspell := Literal.spell_of_finite (Literal.finite_of_spell ht) .inline
    rw [Literal.render, hspell] at ht
    cases ht
    rfl

theorem text_of_constantLine {c : Constant} {s : String} (h : Declaration.constantLine c = .ok s) :
    s = constantText c := by
  obtain ⟨value, hvalue, rfl⟩ := exists_of_map_ok h
  have hconst : " const " = " const" ++ " " := by decide
  rw [text_of_assigned hvalue, constantText, keyword_eq, hconst]
  simp only [String.append_assoc, spaced_append]

theorem text_of_fieldLine {f : Field} {s : String} (h : Declaration.fieldLine f = .ok s) : s = fieldText f := by
  obtain ⟨value, hvalue, rfl⟩ := exists_of_map_ok h
  have hdollar : " $" = " " ++ "$" := by decide
  rw [text_of_assigned hvalue, fieldText, keyword_eq, hdollar]
  simp only [String.append_assoc, spaced_append, static_append]

theorem text_of_argument {a : Argument} {s : String} (h : Declaration.argument a = .ok s) :
    s = argumentText a := by
  obtain ⟨value, hvalue, rfl⟩ := exists_of_map_ok h
  rw [text_of_assigned hvalue, argumentText, clause_eq]
  cases Declaration.given a.type with
  | none => rfl
  | some t => simp [String.append_assoc]

theorem text_of_arguments {as : List Argument} {s : String} (h : Declaration.arguments as = .ok s) :
    s = Text.join ", " (as.map argumentText) := by
  obtain ⟨ss, hss, rfl⟩ := exists_of_map_ok h
  have htexts := map_eq_of_mapM text_of_argument hss
  rw [List.map_id'] at htexts
  rw [htexts]

theorem functionHead_eq (name : String) (as : List Argument) (returns : Option String) :
    Declaration.functionHead name (Text.join ", " (as.map argumentText)) returns = functionText name as returns := by
  rw [Declaration.functionHead, functionText, clause_eq]
  cases Declaration.given returns with
  | none => rfl
  | some t => simp [String.append_assoc]

theorem text_of_methodSignature {m : Method} {s : String} (h : Declaration.methodSignature m = .ok s) :
    s = signatureText m := by
  obtain ⟨args, hargs, rfl⟩ := exists_of_map_ok h
  rw [text_of_arguments hargs, functionHead_eq, signatureText, keyword_eq]
  simp only [String.append_assoc, static_append]

/-! ## Fragments and their text -/

theorem text_code_one : Indent.code.text 1 = "\t" := rfl

theorem text_code_two : Indent.code.text (1 + 1) = "\t\t" := rfl

theorem text_code_zero : Indent.code.text 0 = "" := rfl

theorem allText_lines (i : Indent) (level : Nat) (ss : List String) :
    Fragment.allText i level (ss.map .line) = Text.concat (ss.map fun s => i.text level ++ s ++ "\n") := by
  induction ss with
  | nil => rfl
  | cons s ss ih => rw [List.map_cons, Fragment.allText_line, ih, List.map_cons, Text.concat]

theorem allText_sequences (i : Indent) (level : Nat) (bs : List (List Fragment)) :
    Fragment.allText i level (bs.map .sequence) = Text.concat (bs.map (Fragment.allText i level)) := by
  induction bs with
  | nil => rfl
  | cons b bs ih => rw [List.map_cons, Fragment.allText_sequence, ih, List.map_cons, Text.concat]

theorem allText_separated (i : Indent) (level : Nat) (blocks : List (List Fragment)) :
    Fragment.allText i level (Declaration.separated blocks) =
      Text.join "\n" (blocks.map (Fragment.allText i level)) := by
  fun_induction Declaration.separated blocks with
  | case1 => rfl
  | case2 b => rfl
  | case3 b c rest ih =>
    rw [Fragment.allText_append, Fragment.allText_blank, ih]
    simp only [List.map_cons, Text.join, String.append_assoc]

theorem allText_preamble (ns : Option String) (packages : List String) :
    Fragment.allText .code 0 (Declaration.preamble (Declaration.given ns) packages) =
      "<?php\n\ndeclare(strict_types=1);\n\n" ++ clause "namespace " (ns.getD "") ";\n\n" ++
        (if packages = [] then "" else Text.concat (packages.map fun p => "use " ++ p ++ ";\n") ++ "\n") := by
  have hopen : Fragment.allText .code 0 [.line Declaration.openTag, .blank, .line Declaration.strictTypes, .blank] =
      "<?php\n\ndeclare(strict_types=1);\n\n" := by decide
  have hpackages : Fragment.allText .code 0
      (if packages.isEmpty then [] else packages.map (.line ∘ Declaration.importLine) ++ [.blank]) =
      (if packages = [] then "" else Text.concat (packages.map fun p => "use " ++ p ++ ";\n") ++ "\n") := by
    by_cases hp : packages = []
    · subst hp
      rfl
    · rw [if_neg (by simpa using hp), if_neg hp, Fragment.allText_append, ← List.map_map, allText_lines]
      simp [Declaration.importLine, text_code_zero, String.append_assoc, Function.comp_def]
  unfold Declaration.preamble
  rw [Fragment.allText_append, Fragment.allText_append, hopen, hpackages, clause_eq]
  cases Declaration.given ns with
  | none => rfl
  | some n => simp [Declaration.namespaceLine, text_code_zero, String.append_assoc]

theorem allText_traits (traits : List String) :
    Fragment.allText .code 1 (if traits.isEmpty then [] else [.line (Declaration.traitLine traits)]) =
      traitsText traits := by
  unfold traitsText
  by_cases ht : traits = []
  · rw [ht]
    rfl
  · rw [if_neg (by simpa using ht), if_neg ht, Fragment.allText_line, Fragment.allText_nil,
      String.append_empty]
    rfl

theorem docTags_eq (m : Method) : Declaration.docTags m = tagTexts m := by
  have hparam : Declaration.paramTag = paramText := by
    funext a
    rw [Declaration.paramTag, paramText, given_eq]
    by_cases ht : a.type.getD "" = ""
    · rw [if_pos ht, if_pos ht]
      rfl
    · rw [if_neg ht, if_neg ht]
      rfl
  rw [Declaration.docTags, tagTexts, hparam, given_eq]
  by_cases hr : m.returns.getD "" = ""
  · rw [if_pos hr, if_pos hr]
    rfl
  · rw [if_neg hr, if_neg hr]
    rfl

/-- A tag is never empty, so its line never stands for one. -/
theorem docLine_tag {m : Method} {s : String} (h : s ∈ tagTexts m) : Sheet.docLine s = " * " ++ s := by
  have hne : s ≠ "" := by
    rintro rfl
    rcases List.mem_append.1 h with h | h
    · obtain ⟨a, -, ha⟩ := List.mem_map.1 h
      simp [paramText] at ha
    · split at h
      · cases h
      · simp at h
  rw [Sheet.docLine, if_neg (by simpa using hne)]

theorem allText_docLines (m : Method) :
    Fragment.allText .code 1 ((Declaration.docLines m).map Fragment.doc).toList = docText m := by
  have htags : (tagTexts m).map (fun s => "\t" ++ Sheet.docLine s ++ "\n") =
      (tagTexts m).map fun s => tabbed (" * " ++ s) :=
    List.map_congr_left fun s hs => by rw [docLine_tag hs, tabbed]
  have hsummary (s : String) : "\t" ++ Sheet.docLine s ++ "\n" = tabbed (if s = "" then " *" else " * " ++ s) := by
    simp [Sheet.docLine, tabbed]
  rw [docText, Declaration.docLines, docTags_eq]
  cases m.doc with
  | none => rfl
  | some summary =>
    simp only [Option.map_some, Option.toList_some, Fragment.allText_doc, Fragment.allText_nil, text_code_one]
    by_cases hgap : Text.linesOf summary = [] ∨ tagTexts m = []
    · rw [if_pos (by simpa using hgap), if_pos hgap, List.map_append, Text.concat_append, htags]
      simp [hsummary, tabbed, String.append_assoc]
    · rw [if_neg (by simpa using hgap), if_neg hgap, List.map_append, Text.concat_append, List.map_cons, Text.concat,
        htags]
      simp [hsummary, tabbed, String.append_assoc]

theorem allText_block (doc : Option (List String)) (signature body : String) :
    Fragment.allText .code 1 (Declaration.methodBlock doc signature body) =
      Fragment.allText .code 1 (doc.map Fragment.doc).toList ++ tabbed (signature ++ " \x7b") ++ bodyText body ++
        tabbed "\x7d" := by
  rw [Declaration.methodBlock, Fragment.allText_append, Fragment.allText_block, Fragment.allText_ofText]
  simp only [text_code_one, text_code_two, Fragment.allText_nil]
  simp [tabbed, bodyText, String.append_assoc]

theorem text_of_method {m : Method} {fs : List Fragment} (h : Declaration.method m = .ok fs) :
    Fragment.allText .code 1 fs = methodText m := by
  obtain ⟨signature, hsignature, rfl⟩ := exists_of_map_ok h
  rw [allText_block, allText_docLines, text_of_methodSignature hsignature, methodText]

/-! ## Firm texts -/

/-- The text starts with `lead` and a character that is not white space. -/
def Opens (lead : List Char) (s : String) : Prop :=
  ∃ c r, s.toList = lead ++ c :: r ∧ Text.isBlank c = false

/-- The text ends with a character that is not white space and `trail`. -/
def Closes (trail : List Char) (s : String) : Prop :=
  ∃ r c, s.toList = r ++ c :: trail ∧ Text.isBlank c = false

/-- The text is whole lines one tab deep, and neither the first nor the last is blank. -/
def Firm (s : String) : Prop := Opens ['\t'] s ∧ Closes ['\n'] s

section Ends

variable {lead trail : List Char} {s t : String}

theorem Opens.append (h : Opens lead s) (t : String) : Opens lead (s ++ t) := by
  obtain ⟨c, r, hs, hc⟩ := h
  exact ⟨c, r ++ t.toList, by simp [hs], hc⟩

theorem Closes.append (h : Closes trail t) (s : String) : Closes trail (s ++ t) := by
  obtain ⟨r, c, ht, hc⟩ := h
  exact ⟨s.toList ++ r, c, by simp [ht], hc⟩

theorem Closes.ne_empty (h : Closes trail s) : s ≠ "" := by
  rintro rfl
  obtain ⟨r, c, hs, -⟩ := h
  exact absurd hs.symm (by simp)

theorem opens_concat {ss : List String} (hne : ss ≠ []) (h : ∀ s ∈ ss, Opens lead s) :
    Opens lead (Text.concat ss) := by
  cases ss with
  | nil => exact absurd rfl hne
  | cons s ss => exact (h s (by simp)).append _

theorem closes_concat {ss : List String} (hne : ss ≠ []) (h : ∀ s ∈ ss, Closes trail s) :
    Closes trail (Text.concat ss) := by
  induction ss with
  | nil => exact absurd rfl hne
  | cons s ss ih =>
    cases ss with
    | nil =>
      rw [Text.concat, Text.concat, String.append_empty]
      exact h s (by simp)
    | cons t ss => exact (ih (List.cons_ne_nil t ss) fun u hu => h u (by simp [hu])).append s

theorem opens_tabbed (h : Opens [] s) : Opens ['\t'] (tabbed s) := by
  obtain ⟨c, r, hs, hc⟩ := h
  exact ⟨c, r ++ ['\n'], by simp [tabbed, hs], hc⟩

theorem closes_tabbed (h : Closes [] s) : Closes ['\n'] (tabbed s) := by
  obtain ⟨r, c, hs, hc⟩ := h
  exact ⟨'\t' :: r, c, by simp [tabbed, hs], hc⟩

theorem firm_tabbed (ho : Opens [] s) (hc : Closes [] s) : Firm (tabbed s) :=
  ⟨opens_tabbed ho, closes_tabbed hc⟩

theorem firm_concat {ss : List String} (hne : ss ≠ []) (h : ∀ s ∈ ss, Firm s) : Firm (Text.concat ss) :=
  ⟨opens_concat hne fun s hs => (h s hs).1, closes_concat hne fun s hs => (h s hs).2⟩

theorem firm_join (sep : String) {ss : List String} (hne : ss ≠ []) (h : ∀ s ∈ ss, Firm s) :
    Firm (Text.join sep ss) := by
  fun_induction Text.join sep ss with
  | case1 => exact absurd rfl hne
  | case2 s => exact h s (by simp)
  | case3 s t rest ih =>
    have hs := h s (by simp)
    have hrest := ih (List.cons_ne_nil t rest) fun u hu => h u (by simp [hu])
    exact ⟨(hs.1.append sep).append _, hrest.2.append _⟩

end Ends

/-! ## Members are firm -/

theorem opens_visibility (v : Visibility) (s : String) : Opens [] (visibilityText v ++ s) := by
  have hv : Opens [] (visibilityText v) := by
    cases v with
    | «public» => exact ⟨'p', ['u', 'b', 'l', 'i', 'c'], rfl, rfl⟩
    | «protected» => exact ⟨'p', ['r', 'o', 't', 'e', 'c', 't', 'e', 'd'], rfl, rfl⟩
    | «private» => exact ⟨'p', ['r', 'i', 'v', 'a', 't', 'e'], rfl, rfl⟩
  exact hv.append s

theorem closes_semicolon (s : String) : Closes [] (s ++ ";") := by
  have hs : Closes [] ";" := ⟨[], ';', rfl, rfl⟩
  exact hs.append s

theorem firm_constantText (c : Constant) : Firm (tabbed (constantText c)) := by
  refine firm_tabbed ?_ (closes_semicolon _)
  simp only [constantText, String.append_assoc]
  exact opens_visibility _ _

theorem firm_fieldText (f : Field) : Firm (tabbed (fieldText f)) := by
  refine firm_tabbed ?_ (closes_semicolon _)
  simp only [fieldText, String.append_assoc]
  exact opens_visibility _ _

theorem firm_traitsText {traits : List String} (h : traits ≠ []) : Firm (traitsText traits) := by
  have hne : (traits.map fun t => "use " ++ t ++ ";") ≠ [] := by simpa using h
  rw [traitsText, if_neg h]
  refine firm_tabbed (opens_concat hne ?_) (closes_concat hne ?_)
  · intro s hs
    obtain ⟨t, -, rfl⟩ := List.mem_map.1 hs
    have huse : Opens [] "use " := ⟨'u', ['s', 'e', ' '], rfl, rfl⟩
    exact (huse.append t).append ";"
  · intro s hs
    obtain ⟨t, -, rfl⟩ := List.mem_map.1 hs
    exact closes_semicolon _

theorem firm_methodText (m : Method) : Firm (methodText m) := by
  have hopen : Opens ['\t'] (tabbed (signatureText m ++ " \x7b")) := by
    refine opens_tabbed (Opens.append ?_ " \x7b")
    rw [signatureText, String.append_assoc]
    exact opens_visibility _ _
  have hclose : Closes ['\n'] (tabbed "\x7d") := closes_tabbed ⟨[], '\x7d', rfl, rfl⟩
  refine ⟨?_, hclose.append _⟩
  rw [methodText, docText]
  cases m.doc with
  | none =>
    simp only [String.empty_append]
    exact (hopen.append _).append _
  | some summary =>
    have hdoc : Opens ['\t'] (tabbed "/**") := opens_tabbed ⟨'/', ['*', '*'], rfl, rfl⟩
    simp only [String.append_assoc]
    exact hdoc.append _

theorem firm_members {α : Type} {f : α → String} (hf : ∀ a, Firm (f a)) {as : List α} (h : as ≠ []) :
    Firm (Text.concat (as.map f)) := by
  refine firm_concat (by simpa using h) fun s hs => ?_
  obtain ⟨a, -, rfl⟩ := List.mem_map.1 hs
  exact hf a

/-- What is written of members is not empty unless there are none. -/
theorem concat_ne_empty {α β : Type} {f : α → String} (hf : ∀ a, Firm (f a)) {g : β → String} {as : List α}
    {bs : List β} (h : bs.map g = as.map f) (hne : bs ≠ []) : Text.concat (bs.map g) ≠ "" := by
  rw [h]
  refine (firm_members hf ?_).2.ne_empty
  rintro rfl
  exact hne (List.map_eq_nil_iff.1 h)

/-- Every block that is not empty is firm. -/
theorem firm_of_mem_blockTexts {u : ClassUnit} : ∀ s ∈ u.blockTexts, s ≠ "" → Firm s := by
  have hmembers {α : Type} {f : α → String} (hf : ∀ a, Firm (f a)) (as : List α)
      (hne : Text.concat (as.map f) ≠ "") : Firm (Text.concat (as.map f)) := by
    refine firm_members hf ?_
    rintro rfl
    exact hne rfl
  intro s hs hne
  simp only [blockTexts, List.mem_cons, List.not_mem_nil, or_false] at hs
  rcases hs with rfl | rfl | rfl | rfl
  · refine firm_traitsText fun ht => hne ?_
    rw [traitsText, if_pos ht]
  · exact hmembers firm_constantText u.constants hne
  · exact hmembers firm_fieldText u.fields hne
  · exact hmembers firm_methodText u.methods hne

/-! ## The text of a unit -/

/-- The blocks of fragments have the block texts, and one that has a fragment is not empty. -/
theorem text_of_blocks {u : ClassUnit} {bs : List (List Fragment)} (h : u.blocks = .ok bs) :
    bs.map (Fragment.allText .code 1) = u.blockTexts ∧ ∀ b ∈ bs, b ≠ [] → Fragment.allText .code 1 b ≠ "" := by
  obtain ⟨constants, hconstants, h⟩ := exists_of_bind_ok h
  obtain ⟨fields, hfields, h⟩ := exists_of_bind_ok h
  obtain ⟨methods, hmethods, h⟩ := exists_of_bind_ok h
  cases h
  have hc := map_eq_of_mapM (g := tabbed) (h := fun c => tabbed (constantText c))
    (fun h => congrArg tabbed (text_of_constantLine h)) hconstants
  have hf := map_eq_of_mapM (g := tabbed) (h := fun f => tabbed (fieldText f))
    (fun h => congrArg tabbed (text_of_fieldLine h)) hfields
  have hm := map_eq_of_mapM text_of_method hmethods
  have hlines (ss : List String) : Fragment.allText .code 1 (ss.map .line) = Text.concat (ss.map tabbed) :=
    allText_lines .code 1 ss
  refine ⟨?_, ?_⟩
  · simp only [List.map_cons, List.map_nil, allText_traits, hlines, allText_sequences, hc, hf, hm]
    rfl
  · intro b hb hne
    simp only [List.mem_cons, List.not_mem_nil, or_false] at hb
    rcases hb with rfl | rfl | rfl | rfl
    · rw [allText_traits]
      refine (firm_traitsText fun ht => hne ?_).2.ne_empty
      rw [ht]
      rfl
    · rw [hlines]
      exact concat_ne_empty firm_constantText hc (by simpa using hne)
    · rw [hlines]
      exact concat_ne_empty firm_fieldText hf (by simpa using hne)
    · rw [allText_sequences]
      exact concat_ne_empty firm_methodText hm (by simpa using hne)

theorem allText_classBody (header : String) (bs : List (List Fragment)) :
    Fragment.allText .code 0 (Declaration.classBody header bs) = header ++ "\n\x7b\n" ++
      Fragment.allText .code 1 (Declaration.separated (bs.filter (!·.isEmpty))) ++ "\x7d\n" := by
  have hbrace : "\n\x7b\n" = "\n" ++ ("\x7b" ++ "\n") := by decide
  have hclose : "\x7d\n" = "\x7d" ++ "\n" := by decide
  rw [Declaration.classBody, Fragment.allText_line, Fragment.allText_line, Fragment.allText_indent,
    Fragment.allText_line, Fragment.allText_nil, text_code_zero, hbrace, hclose]
  simp only [String.append_assoc, String.empty_append, String.append_empty]

theorem header_eq (u : ClassUnit) : u.header =
    "class " ++ u.name ++ clause " extends " (u.parent.getD "") "" ++ clause " implements " (u.interface.getD "") "" := by
  unfold header Declaration.classHeader
  rw [clause_eq, clause_eq]
  cases Declaration.given u.parent <;> cases Declaration.given u.interface <;>
    simp only [String.append_empty]

theorem text_of_fragments {u : ClassUnit} {bs : List (List Fragment)} (h : u.blocks = .ok bs) :
    ((Sheet.code.emitAll (Declaration.preamble (Declaration.given u.ns) u.packages)).emitAll
      (Declaration.classBody u.header bs)).text = u.fileText := by
  obtain ⟨htexts, hne⟩ := text_of_blocks h
  have hfilter : (bs.filter (!·.isEmpty)).map (Fragment.allText .code 1) = u.blockTexts.filter (· ≠ "") := by
    rw [← htexts, List.filter_map]
    refine congrArg _ (List.filter_congr fun b hb => ?_)
    by_cases hb' : b = []
    · subst hb'
      rfl
    · simp [hb', hne b hb hb']
  have hjoin := allText_separated .code 1 (bs.filter (!·.isEmpty))
  rw [hfilter] at hjoin
  rw [Sheet.code, ← Sheet.emitAll_append, Sheet.text_emitAll_new, Fragment.allText_append, allText_preamble,
    allText_classBody, hjoin, header_eq]
  unfold fileText headText
  simp only [String.append_assoc]

theorem text_of_write {u : ClassUnit} {t : String} (h : u.write = .ok t) : t = u.fileText := by
  obtain ⟨bs, hbs, ht⟩ := exists_of_bind_ok h
  exact (Except.ok.inj ht).symm.trans (text_of_fragments hbs)

/-- A class is written as its text, unless a default has no literal. -/
theorem write_eq (u : ClassUnit) : u.write = Literal.orFault u.fileText (u.defaults.findSome? Value.fault?) :=
  Literal.eq_orFault u.fault?_write fun _ => text_of_write

theorem generate_of_write {u : ClassUnit} {t : String} (h : u.write.toOption = some t) :
    u.generate = .ok (u.withText t) := by
  rw [generate, toOption_eq_some.1 h]
  rfl

theorem text_of_generate {u g : ClassUnit} (h : u.generate = .ok g) : g = u.withText u.fileText := by
  obtain ⟨t, ht, rfl⟩ := exists_of_map_ok h
  rw [text_of_write ht]

/-- The text of a generated unit: its head, and between braces the blocks that are not
    empty, in their order and with one empty line between neighbours. What stands between
    the braces neither starts nor ends with a blank line. -/
theorem generate_text {u g : ClassUnit} (h : u.generate = .ok g) :
    g.text = u.headText ++ "\n\x7b\n" ++ Text.join "\n" (u.blockTexts.filter (· ≠ "")) ++ "\x7d\n" ∧
      (u.blockTexts.filter (· ≠ "") = [] ∨ Firm (Text.join "\n" (u.blockTexts.filter (· ≠ "")))) := by
  rw [text_of_generate h]
  refine ⟨rfl, ?_⟩
  by_cases hnone : u.blockTexts.filter (· ≠ "") = []
  · exact Or.inl hnone
  · refine Or.inr (firm_join "\n" hnone fun s hs => ?_)
    obtain ⟨hmem, hne⟩ := List.mem_filter.1 hs
    exact firm_of_mem_blockTexts s hmem (by simpa using hne)

/-- A class with a trait, a static field and a method, which is documented, takes arguments
    with a type and without one, and has a line of white space in its body. -/
theorem generate_text_documented :
    let m : Method :=
      { name := "find"
        arguments := [{ name := "id", type := some "int" }, { name := "or", default := some .null }]
        returns := some "?self"
        body := "g();\n \nh();"
        doc := some "Finds one.\n\nOr none." }
    let f : Field :=
      { name := "all", visibility := .private, type := "array", isStatic := true, default := some (.list []) }
    let u := { ofParts "C" (some "App") ["X"] [m] ["T"] with parent := some "B", fields := [f] }
    ∃ g, u.generate = .ok g ∧ g.text =
      "<?php\n\ndeclare(strict_types=1);\n\nnamespace App;\n\nuse X;\n\nclass C extends B\n\x7b\n" ++
      "\tuse T;\n\n\tprivate static array $all = [];\n\n" ++
      "\t/**\n\t * Finds one.\n\t *\n\t * Or none.\n\t *\n\t * @param int $id\n\t * @param mixed $or\n" ++
      "\t * @return ?self\n\t */\n\tpublic function find(int $id, $or = null): ?self \x7b\n" ++
      "\t\tg();\n\n\t\th();\n\t\x7d\n\x7d\n" := by
  intro m f u
  have hwritten : u.write.toOption = some u.fileText := by decide +kernel
  have hgenerate := generate_of_write hwritten
  refine ⟨_, hgenerate, (generate_text hgenerate).1.trans ?_⟩
  decide +kernel

end PhpScribe.ClassUnit
