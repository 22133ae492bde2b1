/-
  PhpScribe.Proofs.FunctionAsMethod — one declaration, written by two units.

  A function stands in a file of its own, inside the test that it is not declared yet; a
  public method of the same name, arguments, type and body may be the only member of a
  class. The two files come about in different ways, and yet the declaration in them, from
  its `function` to the brace that closes its body, is one text (`write_eq`,
  `write_inClass`), and both fail on the same default (`function_as_method`). The name in
  front of the declaration's arguments is the one that the test asks for: its literal is
  read back as that name.
-/

import PhpScribe.FunctionUnit
import PhpScribe.Proofs.ClassUnit.Text
import PhpScribe.Proofs.Literal.RoundTrip

namespace PhpScribe

theorem Literal.read_quote (s : String) (rest : List Char) :
    read ((quote s).toList ++ rest) = some (.string s, rest) := by
  rw [toList_quote, read, Reader.run_quote, Reader.run]
  rfl

namespace FunctionUnit

/-- The public method of the same name, arguments, type and body, without documentation. -/
def method (u : FunctionUnit) : Method :=
  { name := u.name, arguments := u.arguments, returns := u.returns, body := u.body }

def inClass (u : FunctionUnit) (name : String) : ClassUnit := (ClassUnit.new name).withMethod u.method

/-- The declaration on a line one tab deep, from its `function` to its closing brace. -/
def declaration (u : FunctionUnit) : String :=
  ClassUnit.functionText u.name u.arguments u.returns ++ " \x7b\n" ++ ClassUnit.bodyText u.body ++ "\t\x7d\n"

def opening : String := "<?php\n\ndeclare(strict_types=1);\n\n"

def fileText (u : FunctionUnit) : String :=
  opening ++ "if (!function_exists(" ++ Literal.quote u.name ++ ")) \x7b\n\t" ++ u.declaration ++ "\x7d\n"

def fault? (u : FunctionUnit) : Option LiteralError := (Declaration.defaults u.arguments).findSome? Value.fault?

/-- Fragments that hold the declaration one level deep have its text behind a tab. -/
theorem allText_declaration (u : FunctionUnit) :
    Fragment.allText .code 1 (Declaration.methodBlock none
      (ClassUnit.functionText u.name u.arguments u.returns) u.body) = "\t" ++ u.declaration := by
  rw [ClassUnit.allText_block]
  simp [ClassUnit.tabbed, declaration, String.append_assoc]

theorem text_of_write {u : FunctionUnit} {t : String} (h : u.write = .ok t) : t = u.fileText := by
  obtain ⟨args, hargs, rfl⟩ := exists_of_map_ok h
  have hpreamble : Fragment.allText .code 0 (Declaration.preamble none []) = opening := by decide
  have hbrace : ")) \x7b\n\t" = ")) \x7b" ++ ("\n" ++ "\t") := by decide
  have hclose : "\x7d\n" = "\x7d" ++ "\n" := by decide
  rw [ClassUnit.text_of_arguments hargs]
  show (Sheet.emitAll [u.guarded _] (Sheet.code.emitAll (Declaration.preamble none []))).text = _
  rw [Sheet.code, ← Sheet.emitAll_append, Sheet.text_emitAll_new, Fragment.allText_append, hpreamble, guarded,
    ClassUnit.functionHead_eq, Fragment.allText_block, allText_declaration, Fragment.allText_nil,
    ClassUnit.text_code_zero]
  unfold fileText
  rw [hbrace, hclose]
  simp only [String.append_assoc, String.empty_append, String.append_empty]

theorem write_eq (u : FunctionUnit) : u.write = Literal.orFault u.fileText u.fault? := by
  have hfault : PhpScribe.fault? u.write = u.fault? := by
    rw [write, fault?_map, Declaration.fault?_arguments, fault?]
  exact Literal.eq_orFault hfault fun _ => text_of_write

/-! ## The method -/

/-- The method is its declaration behind `public`. -/
theorem methodText_method (u : FunctionUnit) : ClassUnit.methodText u.method = "\tpublic " ++ u.declaration := by
  show "" ++ ClassUnit.tabbed ("public" ++ " " ++ ClassUnit.functionText u.name u.arguments u.returns ++ " \x7b") ++
    ClassUnit.bodyText u.body ++ ClassUnit.tabbed "\x7d" = _
  apply String.toList_injective
  simp [ClassUnit.tabbed, declaration]

/-- The method is all that stands in the class. -/
theorem fileText_inClass (u : FunctionUnit) (name : String) : (u.inClass name).fileText =
    opening ++ "class " ++ name ++ "\n\x7b\n\tpublic " ++ u.declaration ++ "\x7d\n" := by
  have hhead : (u.inClass name).headText = opening ++ "class " ++ name := by
    have hpackages : (u.inClass name).packages = [] := rfl
    unfold ClassUnit.headText
    rw [if_pos hpackages]
    show opening ++ "" ++ "" ++ "class " ++ name ++ "" ++ "" = _
    simp only [String.append_empty]
  have hblocks : (u.inClass name).blockTexts = ["", "", "", "\tpublic " ++ u.declaration] := by
    show ["", "", "", ClassUnit.methodText u.method ++ ""] = _
    rw [methodText_method, String.append_empty]
  have hne : "\tpublic " ++ u.declaration ≠ "" := by
    intro h
    have := congrArg String.toList h
    simp at this
  have hfilter : ["", "", "", "\tpublic " ++ u.declaration].filter (· ≠ "") = ["\tpublic " ++ u.declaration] := by
    simp [hne]
  unfold ClassUnit.fileText
  rw [hhead, hblocks, hfilter, Text.join]
  apply String.toList_injective
  simp

theorem write_inClass (u : FunctionUnit) (name : String) : (u.inClass name).write =
    Literal.orFault (opening ++ "class " ++ name ++ "\n\x7b\n\tpublic " ++ u.declaration ++ "\x7d\n") u.fault? := by
  have hdefaults : (u.inClass name).defaults = Declaration.defaults u.arguments :=
    List.append_nil (Declaration.defaults u.arguments)
  rw [ClassUnit.write_eq, fileText_inClass, hdefaults, fault?]

theorem exists_declaration (u : FunctionUnit) :
    ∃ rest, u.declaration = "function " ++ u.name ++ "(" ++ rest := by
  simp only [declaration, ClassUnit.functionText, String.append_assoc]
  exact ⟨_, rfl⟩

/-- A function and a method of its name, arguments, type and body fail alike, or they are
    one declaration in two files: behind the test in the one, which asks for the name that
    is declared, and behind `public` in the other. -/
theorem function_as_method (u : FunctionUnit) (name : String) :
    (∃ e, u.generate = .error e ∧ (u.inClass name).generate = .error e) ∨
    ∃ f c x rest, u.generate = .ok f ∧ (u.inClass name).generate = .ok c ∧
      f.text = opening ++ "if (!function_exists(" ++ Literal.quote u.name ++ ")) \x7b\n\t" ++ x ++ "\x7d\n" ∧
      c.text = opening ++ "class " ++ name ++ "\n\x7b\n\tpublic " ++ x ++ "\x7d\n" ∧
      x = "function " ++ u.name ++ "(" ++ rest ∧
      ∀ behind, Literal.read ((Literal.quote u.name).toList ++ behind) = some (.string u.name, behind) := by
  cases hfault : u.fault? with
  | some e =>
    refine Or.inl ⟨e, ?_, ?_⟩
    · rw [generate, write_eq, hfault]
      rfl
    · rw [ClassUnit.generate, write_inClass, hfault]
      rfl
  | none =>
    have hf : u.generate = .ok { u with generated := some u.fileText } := by
      rw [generate, write_eq, hfault]
      rfl
    have hc : (u.inClass name).generate = .ok ((u.inClass name).withText (opening ++ "class " ++ name ++
        "\n\x7b\n\tpublic " ++ u.declaration ++ "\x7d\n")) := by
      rw [ClassUnit.generate, write_inClass, hfault]
      rfl
    obtain ⟨rest, hrest⟩ := u.exists_declaration
    exact Or.inr ⟨_, _, u.declaration, rest, hf, hc, rfl, rfl, hrest, Literal.read_quote u.name⟩

end FunctionUnit

end PhpScribe
