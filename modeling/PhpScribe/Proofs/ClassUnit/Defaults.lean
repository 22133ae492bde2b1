/-
  PhpScribe.Proofs.ClassUnit.Defaults — what the text of a class tells of a default.

  A default stands at a spot: at a constant, at a field, or at an argument of a method. Two
  classes that differ in the default of one spot have texts that are the same around it
  (`Around`): a line puts its own text in front of the default and behind it, and all that is
  done with lines from there on, the joining of arguments, the tabs, the blocks, the file,
  does the same to both (`around_fileText`). The documentation of a method names the types of
  its arguments and none of their defaults.

  So the two texts are one exactly when the spellings of the two defaults are, and these are
  one only for defaults that are the same (`defaultText_eq_iff`), whatever the strings around
  them imitate: `text_eq_iff_sameDefault`.
-/

import PhpScribe.Proofs.ClassUnit.Faults
import PhpScribe.Proofs.ClassUnit.Text
import PhpScribe.Proofs.Literal.RoundTrip

namespace PhpScribe

/-! ## Defaults and their spellings -/

/-- Both defaults are absent, or they are values that say the same. -/
def SameDefault : Option Value → Option Value → Prop
  | none, none => True
  | some v, some w => v.Alike w
  | _, _ => False

/-- No default is another one than a default that is null. -/
example : ¬ SameDefault none (some .null) := id

namespace Literal

theorem term_eq_of_chars {t u : Term} {l m : Layout} (h : t.chars l = u.chars m) : t = u := by
  have hend : Ends [] := fun c hc => nomatch hc
  have hread : some (t, []) = some (u, ([] : List Char)) := by
    rw [← read_chars t l hend, ← read_chars u m hend, h]
  exact (Prod.mk.inj (Option.some.inj hread)).1

end Literal

namespace ClassUnit

/-- What is written for a default tells it from every other. -/
theorem defaultText_eq_iff {d e : Option Value} : defaultText d = defaultText e ↔ SameDefault d e := by
  have hne (v : Value) : "" ≠ defaultText (some v) := fun h => by
    have := (String.append_eq_empty_iff.1 h.symm).1
    exact absurd this (by decide)
  cases d with
  | none =>
    cases e with
    | none => exact iff_of_true rfl trivial
    | some w => exact iff_of_false (hne w) id
  | some v =>
    cases e with
    | none => exact iff_of_false (hne v).symm id
    | some w =>
      show " = " ++ String.ofList (v.term.chars .inline) = " = " ++ String.ofList (w.term.chars .inline) ↔ v.Alike w
      rw [String.append_right_inj, String.ofList_inj, ← Value.term_eq_iff]
      exact ⟨Literal.term_eq_of_chars, fun h => by rw [h]⟩

end ClassUnit

/-! ## Texts around a default -/

section Around

variable {d e : Option Value} {a b : String} {as bs : List String}

/-- Two texts that are the same but for the defaults `d` and `e`, and do not start with them. -/
def Around (d e : Option Value) (a b : String) : Prop :=
  ∃ before after, before ≠ "" ∧ a = before ++ ClassUnit.defaultText d ++ after ∧
    b = before ++ ClassUnit.defaultText e ++ after

/-- Two lists of texts that are the same but for one, which is so but for the defaults. -/
def AroundOne (d e : Option Value) (as bs : List String) : Prop :=
  ∃ before a b after, Around d e a b ∧ as = before ++ a :: after ∧ bs = before ++ b :: after

namespace Around

theorem eq_iff (h : Around d e a b) : a = b ↔ SameDefault d e := by
  obtain ⟨before, after, -, rfl, rfl⟩ := h
  rw [String.append_left_inj, String.append_right_inj]
  exact ClassUnit.defaultText_eq_iff

theorem append_left (h : Around d e a b) (c : String) : Around d e (c ++ a) (c ++ b) := by
  obtain ⟨before, after, hne, rfl, rfl⟩ := h
  refine ⟨c ++ before, after, ?_, ?_, ?_⟩
  · exact fun h => hne (String.append_eq_empty_iff.1 h).2
  · simp only [String.append_assoc]
  · simp only [String.append_assoc]

theorem append_right (h : Around d e a b) (c : String) : Around d e (a ++ c) (b ++ c) := by
  obtain ⟨before, after, hne, rfl, rfl⟩ := h
  exact ⟨before, after ++ c, hne, String.append_assoc, String.append_assoc⟩

theorem ne_empty (h : Around d e a b) : a ≠ "" ∧ b ≠ "" := by
  obtain ⟨before, after, hne, rfl, rfl⟩ := h
  simp only [ne_eq, String.append_eq_empty_iff, hne, false_and, not_false_eq_true, and_self]

end Around

namespace AroundOne

theorem filter_ne_empty (h : AroundOne d e as bs) : AroundOne d e (as.filter (· ≠ "")) (bs.filter (· ≠ "")) := by
  obtain ⟨before, a, b, after, hab, rfl, rfl⟩ := h
  obtain ⟨ha, hb⟩ := hab.ne_empty
  refine ⟨before.filter (· ≠ ""), a, b, after.filter (· ≠ ""), hab, ?_, ?_⟩
  · simp [List.filter_append, ha]
  · simp [List.filter_append, hb]

theorem concat (h : AroundOne d e as bs) : Around d e (Text.concat as) (Text.concat bs) := by
  obtain ⟨before, a, b, after, hab, rfl, rfl⟩ := h
  rw [Text.concat_append, Text.concat_append]
  exact (hab.append_right _).append_left _

theorem join (sep : String) (h : AroundOne d e as bs) : Around d e (Text.join sep as) (Text.join sep bs) := by
  obtain ⟨before, a, b, after, hab, rfl, rfl⟩ := h
  have hlast : Around d e (Text.join sep (a :: after)) (Text.join sep (b :: after)) := by
    cases after with
    | nil => exact hab
    | cons s after => exact (hab.append_right sep).append_right _
  induction before with
  | nil => exact hlast
  | cons s before ih =>
    cases before with
    | nil => exact hlast.append_left _
    | cons t before => exact ih.append_left _

/-- The texts of a list in which one place holds the one default or the other. -/
theorem of_modify {α : Type} (f : α → String) (g h : α → α) {xs : List α} {i : Nat} {x : α}
    (hx : xs[i]? = some x) (hf : Around d e (f (g x)) (f (h x))) :
    AroundOne d e ((xs.modify i g).map f) ((xs.modify i h).map f) := by
  induction xs generalizing i with
  | nil => exact nomatch hx
  | cons y ys ih =>
    cases i with
    | zero =>
      cases hx
      rw [List.modify_zero_cons, List.modify_zero_cons]
      exact ⟨[], f (g x), f (h x), ys.map f, hf, rfl, rfl⟩
    | succ i =>
      obtain ⟨before, a, b, after, hab, ha, hb⟩ := ih hx
      rw [List.modify_succ_cons, List.modify_succ_cons, List.map_cons, List.map_cons, ha, hb]
      exact ⟨f y :: before, a, b, after, hab, rfl, rfl⟩

end AroundOne

end Around

/-! ## Lines -/

def Method.withDefault (i : Nat) (default : Option Value) (m : Method) : Method :=
  { m with arguments := m.arguments.modify i fun x => { x with default } }

namespace ClassUnit

variable (d e : Option Value)

theorem visibilityText_ne_empty (v : Visibility) : visibilityText v ≠ "" := by
  cases v <;> decide

theorem around_constantText (c : Constant) :
    Around d e (constantText { c with value := d }) (constantText { c with value := e }) := by
  refine ⟨_, ";", ?_, rfl, rfl⟩
  simp [visibilityText_ne_empty]

theorem around_fieldText (f : Field) :
    Around d e (fieldText { f with default := d }) (fieldText { f with default := e }) := by
  refine ⟨_, ";", ?_, rfl, rfl⟩
  simp [visibilityText_ne_empty]

theorem around_argumentText (x : Argument) :
    Around d e (argumentText { x with default := d }) (argumentText { x with default := e }) := by
  refine ⟨clause "" (x.type.getD "") " " ++ "$" ++ x.name, "", ?_, ?_, ?_⟩
  · simp
  · rw [String.append_empty]
    rfl
  · rw [String.append_empty]
    rfl

theorem around_signatureText {m : Method} {i : Nat} (hi : i < m.arguments.length) :
    Around d e (signatureText (m.withDefault i d)) (signatureText (m.withDefault i e)) := by
  have hone := AroundOne.of_modify argumentText (fun x => { x with default := d })
    (fun x => { x with default := e }) (List.getElem?_eq_getElem hi) (around_argumentText d e m.arguments[i])
  have hfunction : Around d e (functionText m.name (m.withDefault i d).arguments m.returns)
      (functionText m.name (m.withDefault i e).arguments m.returns) :=
    (((hone.join ", ").append_left _).append_right ")").append_right _
  exact hfunction.append_left _

/-- The documentation of a method says nothing of defaults. -/
theorem docText_withDefault (i : Nat) (m : Method) : docText (m.withDefault i d) = docText m := by
  have htags (as : List Argument) : (as.modify i fun x => { x with default := d }).map paramText =
      as.map paramText := by
    induction as generalizing i with
    | nil => simp
    | cons x xs ih =>
      cases i with
      | zero => rfl
      | succ i => rw [List.modify_succ_cons, List.map_cons, ih, List.map_cons]
  unfold docText tagTexts Method.withDefault
  simp only [htags]

theorem around_methodText {m : Method} {i : Nat} (hi : i < m.arguments.length) :
    Around d e (methodText (m.withDefault i d)) (methodText (m.withDefault i e)) := by
  have hline := ((around_signatureText d e hi).append_right " \x7b").append_left "\t" |>.append_right "\n"
  rw [methodText, methodText, docText_withDefault, docText_withDefault]
  exact ((hline.append_left _).append_right _).append_right _

end ClassUnit

/-! ## Classes -/

namespace ClassUnit

inductive Spot where
  | constant (i : Nat)
  | field (i : Nat)
  | argument (method i : Nat)

def Has (u : ClassUnit) : Spot → Prop
  | .constant i => i < u.constants.length
  | .field i => i < u.fields.length
  | .argument j i => ∃ m, u.methods[j]? = some m ∧ i < m.arguments.length

def withDefault (u : ClassUnit) (default : Option Value) : Spot → ClassUnit
  | .constant i => { u with constants := u.constants.modify i fun c => { c with value := default } }
  | .field i => { u with fields := u.fields.modify i fun f => { f with default } }
  | .argument j i => { u with methods := u.methods.modify j (Method.withDefault i default) }

variable {u : ClassUnit} {p : Spot} {d e : Option Value} {a b : String}

theorem around_tabbed (h : Around d e a b) : Around d e (tabbed a) (tabbed b) :=
  (h.append_left "\t").append_right "\n"

/-- The blocks of members are the same but for the one with the spot. -/
theorem around_blockTexts (hp : u.Has p) :
    AroundOne d e (u.withDefault d p).blockTexts (u.withDefault e p).blockTexts := by
  cases p with
  | constant i =>
    have hline := around_tabbed (around_constantText d e u.constants[i])
    have hone := AroundOne.of_modify (fun c => tabbed (constantText c)) (fun c => { c with value := d })
      (fun c => { c with value := e }) (List.getElem?_eq_getElem hp) hline
    exact ⟨[traitsText u.traits], _, _, _, hone.concat, rfl, rfl⟩
  | field i =>
    have hline := around_tabbed (around_fieldText d e u.fields[i])
    have hone := AroundOne.of_modify (fun f => tabbed (fieldText f)) (fun f => { f with default := d })
      (fun f => { f with default := e }) (List.getElem?_eq_getElem hp) hline
    exact ⟨[traitsText u.traits, Text.concat _], _, _, _, hone.concat, rfl, rfl⟩
  | argument j i =>
    obtain ⟨m, hm, hi⟩ := hp
    have hone := AroundOne.of_modify methodText (Method.withDefault i d) (Method.withDefault i e) hm
      (around_methodText d e hi)
    exact ⟨[traitsText u.traits, Text.concat _, Text.concat _], _, _, [], hone.concat, rfl, rfl⟩

theorem headText_withDefault (u : ClassUnit) (d : Option Value) (p : Spot) :
    (u.withDefault d p).headText = u.headText := by
  cases p <;> rfl

theorem around_fileText (hp : u.Has p) : Around d e (u.withDefault d p).fileText (u.withDefault e p).fileText := by
  have hblocks : AroundOne d e (u.withDefault d p).blockTexts (u.withDefault e p).blockTexts := around_blockTexts hp
  have hjoin := hblocks.filter_ne_empty.join "\n"
  unfold fileText
  rw [headText_withDefault, headText_withDefault]
  exact (hjoin.append_left _).append_right _

/-- Two classes that differ in the default of one spot and can be generated have one text
    exactly when the two defaults are the same. -/
theorem text_eq_iff_sameDefault {g h : ClassUnit} (hp : u.Has p)
    (hg : (u.withDefault d p).generate = .ok g) (hh : (u.withDefault e p).generate = .ok h) :
    g.text = h.text ↔ SameDefault d e := by
  rw [text_of_generate hg, text_of_generate hh]
  exact (around_fileText hp).eq_iff

/-- The second argument of a method: without a default, and with a text that imitates the end
    of the list. -/
theorem text_eq_iff_sameDefault_imitation :
    let method : Method := { name := "f", arguments := [{ name := "x" }, { name := "y" }] }
    let u := (new "C").withMethod method
    u.Has (.argument 0 1) ∧ ∃ g h, (u.withDefault none (.argument 0 1)).generate = .ok g ∧
      (u.withDefault (some (.string "') \x7b")) (.argument 0 1)).generate = .ok h ∧ g.text ≠ h.text := by
  intro method u
  have hp : u.Has (.argument 0 1) := ⟨method, rfl, by decide⟩
  have hg : (u.withDefault none (.argument 0 1)).write.toOption =
      some ("<?php\n\ndeclare(strict_types=1);\n\nclass C\n\x7b\n" ++
        "\tpublic function f($x, $y) \x7b\n\t\t//\n\t\x7d\n\x7d\n") := by decide +kernel
  have hh : (u.withDefault (some (.string "') \x7b")) (.argument 0 1)).write.toOption =
      some ("<?php\n\ndeclare(strict_types=1);\n\nclass C\n\x7b\n" ++
        "\tpublic function f($x, $y = '\\') \x7b') \x7b\n\t\t//\n\t\x7d\n\x7d\n") := by decide +kernel
  have hg := generate_of_write hg
  have hh := generate_of_write hh
  exact ⟨hp, _, _, hg, hh, fun heq => (text_eq_iff_sameDefault hp hg hh).1 heq⟩

end ClassUnit

end PhpScribe
