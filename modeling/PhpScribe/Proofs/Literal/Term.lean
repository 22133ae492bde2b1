/-
  PhpScribe.Proofs.Literal.Term — what a literal says, apart from its layout.

  A `Term` is a literal as it is written, without white space: an array is a list of
  entries, each with its key if it has one, and a double is its number. `Value.term` is
  what a value says. It forgets two things only, which `Value.Alike` names: a double is
  kept as the text of its digits, and an empty list and an empty map are one empty array
  (`term_eq_iff`).

  `Term.chars` writes a term in a layout. Every array that is not empty has one shape,
  whatever the layout: a bracket, white space, the entries with a comma and white space
  between neighbours, perhaps a last comma, white space and a bracket.
  - `spell_eq`: spelling a value fails on the first double in reading order that is NaN
    or infinite, and else writes the value's term. Whether and why it fails is said
    without the layout.
-/

import PhpScribe.Proofs.Literal.Number

namespace PhpScribe

/-- A literal as it is written, white space apart. -/
inductive Term where
  | null
  | bool (b : Bool)
  | int (n : Int64)
  | float (text : Literal.FloatText)
  | string (s : String)
  /-- The entries in their order, each with its key if it has one. -/
  | array (entries : List (Option Key × Term))

namespace Value

mutual
def term : Value → Term
  | .null => .null
  | .bool b => .bool b
  | .int n => .int n
  | .float x => .float (Literal.floatText x)
  | .string s => .string s
  | .list items => .array (itemTerms items)
  | .map entries => .array (entryTerms entries)

def itemTerms : List Value → List (Option Key × Term)
  | [] => []
  | v :: vs => (none, term v) :: itemTerms vs

def entryTerms : List (Key × Value) → List (Option Key × Term)
  | [] => []
  | (k, v) :: es => (some k, term v) :: entryTerms es
end

mutual
def floats : Value → List Float
  | .float x => [x]
  | .list items => itemFloats items
  | .map entries => entryFloats entries
  | _ => []

def itemFloats : List Value → List Float
  | [] => []
  | v :: vs => floats v ++ itemFloats vs

def entryFloats : List (Key × Value) → List Float
  | [] => []
  | (_, v) :: es => floats v ++ entryFloats es
end

def Finite (v : Value) : Prop := ∀ x ∈ v.floats, x.isNaN = false ∧ x.isInf = false

mutual
/-- Two values say the same: they are equal, but for doubles with the same digits and for
    an empty list beside an empty map. -/
def Alike : Value → Value → Prop
  | .null, .null => True
  | .bool a, .bool b => a = b
  | .int m, .int n => m = n
  | .float x, .float y => Literal.floatChars x = Literal.floatChars y
  | .string s, .string t => s = t
  | .list as, .list bs => AlikeItems as bs
  | .map es, .map fs => AlikeEntries es fs
  | .list as, .map es => as = [] ∧ es = []
  | .map es, .list as => es = [] ∧ as = []
  | _, _ => False

def AlikeItems : List Value → List Value → Prop
  | [], [] => True
  | a :: as, b :: bs => Alike a b ∧ AlikeItems as bs
  | _, _ => False

def AlikeEntries : List (Key × Value) → List (Key × Value) → Prop
  | [], [] => True
  | (j, a) :: es, (k, b) :: fs => j = k ∧ Alike a b ∧ AlikeEntries es fs
  | _, _ => False
end

/-! ## What a term forgets -/

theorem entryTerms_eq_itemTerms {es : List (Key × Value)} {vs : List Value} :
    entryTerms es = itemTerms vs ↔ es = [] ∧ vs = [] := by
  cases es <;> cases vs <;> simp [entryTerms, itemTerms]

mutual
theorem term_eq_iff : (v w : Value) → (v.term = w.term ↔ Alike v w)
  | .float x, w => by
    cases w <;> simp [term, Alike, Literal.floatText]
  | .list as, w => by
    cases w with
    | list bs => simpa [term, Alike] using itemTerms_eq_iff as bs
    | map fs =>
      simp only [term, Alike, Term.array.injEq]
      rw [eq_comm, entryTerms_eq_itemTerms, and_comm]
    | _ => simp [term, Alike]
  | .map es, w => by
    cases w with
    | list bs =>
      simp only [term, Alike, Term.array.injEq]
      exact entryTerms_eq_itemTerms
    | map fs => simpa [term, Alike] using entryTerms_eq_iff es fs
    | _ => simp [term, Alike]
  | .null, w | .bool _, w | .int _, w | .string _, w => by
    cases w <;> simp [term, Alike]

theorem itemTerms_eq_iff : (as bs : List Value) → (itemTerms as = itemTerms bs ↔ AlikeItems as bs)
  | [], bs => by cases bs <;> simp [itemTerms, AlikeItems]
  | a :: as, bs => by
    cases bs with
    | nil => simp [itemTerms, AlikeItems]
    | cons b bs => simp [itemTerms, AlikeItems, term_eq_iff a b, itemTerms_eq_iff as bs]

theorem entryTerms_eq_iff :
    (es fs : List (Key × Value)) → (entryTerms es = entryTerms fs ↔ AlikeEntries es fs)
  | [], fs => by cases fs <;> simp [entryTerms, AlikeEntries]
  | (j, a) :: es, fs => by
    cases fs with
    | nil => simp [entryTerms, AlikeEntries]
    | cons f fs =>
      obtain ⟨k, b⟩ := f
      simp [entryTerms, AlikeEntries, term_eq_iff a b, entryTerms_eq_iff es fs, and_assoc]
end

end Value

/-! ## Writing a term -/

namespace Layout

def lead : Layout → List Char
  | .inline => []
  | .multiline indent depth => '\n' :: indent.chars (depth + 1)

def gap : Layout → List Char
  | .inline => [' ']
  | .multiline indent depth => '\n' :: indent.chars (depth + 1)

def trail : Layout → List Char
  | .inline => []
  | .multiline indent depth => ',' :: '\n' :: indent.chars depth

end Layout

namespace Term

def keyChars : Option Key → List Char
  | none => []
  | some k => (Literal.key k).toList ++ [' ', '=', '>', ' ']

mutual
def chars (l : Layout) : Term → List Char
  | .null => ['n', 'u', 'l', 'l']
  | .bool true => ['t', 'r', 'u', 'e']
  | .bool false => ['f', 'a', 'l', 's', 'e']
  | .int n => (Literal.int n).toList
  | .float t => t.chars
  | .string s => Literal.quoteChars s.toList
  | .array [] => ['[', ']']
  | .array ((k, t) :: es) =>
    '[' :: (l.lead ++ keyChars k ++ chars l.nested t ++ moreChars l es ++ l.trail ++ [']'])

def moreChars (l : Layout) : List (Option Key × Term) → List Char
  | [] => []
  | (k, t) :: es => ',' :: (l.gap ++ keyChars k ++ chars l.nested t ++ moreChars l es)
end

end Term

/-! ## Spelling a value writes its term -/

namespace Literal

/-- Why a double has no literal, if it has none. -/
def floatFault (x : Float) : Option LiteralError :=
  if x.isNaN then some .notANumber else if x.isInf then some .infinite else none

def orFault {α : Type} (a : α) : Option LiteralError → Except LiteralError α
  | some e => .error e
  | none => .ok a

def entryText (l : Layout) (e : Key × Value) : String :=
  key e.1 ++ " => " ++ String.ofList (e.2.term.chars l)

theorem float_eq (x : Float) : float x = orFault (String.ofList (floatChars x)) (floatFault x) := by
  unfold float floatFault floatChars
  split
  · rfl
  · split <;> rfl

theorem toList_join_cons (sep s : String) (ss : List String) :
    (Text.join sep (s :: ss)).toList = s.toList ++ ss.flatMap fun t => sep.toList ++ t.toList := by
  induction ss generalizing s with
  | nil => simp [Text.join]
  | cons t ss ih => simp [Text.join, ih t]

/-- Commas behind all entries are commas between them and one more at the end. -/
theorem toList_concat_cons (i s : String) (ss : List String) :
    (Text.concat ((s :: ss).map (i ++ · ++ ",\n"))).toList =
      i.toList ++ s.toList ++ ss.flatMap (fun t => ',' :: '\n' :: (i.toList ++ t.toList)) ++ [',', '\n'] := by
  induction ss generalizing s with
  | nil => simp [Text.concat]
  | cons t ss ih =>
    have ih := ih t
    simp only [List.map_cons, Text.concat, String.toList_append] at ih ⊢
    rw [ih]
    simp

theorem bracket_cons (l : Layout) (s : String) (ss : List String) :
    l.bracket (s :: ss) = String.ofList ('[' :: (l.lead ++ s.toList ++
      ss.flatMap (fun t => ',' :: (l.gap ++ t.toList)) ++ l.trail ++ [']'])) := by
  apply String.toList_injective
  cases l with
  | inline => simp [Layout.bracket, Layout.lead, Layout.gap, Layout.trail, toList_join_cons]
  | multiline i d =>
    have hc := toList_concat_cons (i.text (d + 1)) s ss
    simp only [Layout.bracket, List.isEmpty_cons, Bool.false_eq_true, if_false, String.toList_append, hc]
    simp [Layout.lead, Layout.gap, Layout.trail, Indent.text]

theorem moreChars_itemTerms (l : Layout) (vs : List Value) :
    Term.moreChars l (Value.itemTerms vs) =
      (vs.map fun v => String.ofList (v.term.chars l.nested)).flatMap fun t => ',' :: (l.gap ++ t.toList) := by
  induction vs with
  | nil => rfl
  | cons v vs ih => simp [Value.itemTerms, Term.moreChars, Term.keyChars, ih]

theorem moreChars_entryTerms (l : Layout) (es : List (Key × Value)) :
    Term.moreChars l (Value.entryTerms es) =
      (es.map (entryText l.nested)).flatMap fun t => ',' :: (l.gap ++ t.toList) := by
  induction es with
  | nil => rfl
  | cons e es ih =>
    obtain ⟨k, v⟩ := e
    simp [Value.entryTerms, Term.moreChars, Term.keyChars, entryText, ih]

theorem bracket_items (l : Layout) (vs : List Value) :
    l.bracket (vs.map fun v => String.ofList (v.term.chars l.nested)) =
      String.ofList ((Term.array (Value.itemTerms vs)).chars l) := by
  cases vs with
  | nil => rfl
  | cons v vs =>
    rw [List.map_cons, bracket_cons, ← moreChars_itemTerms]
    simp [Value.itemTerms, Term.chars, Term.keyChars]

theorem bracket_entries (l : Layout) (es : List (Key × Value)) :
    l.bracket (es.map (entryText l.nested)) =
      String.ofList ((Term.array (Value.entryTerms es)).chars l) := by
  cases es with
  | nil => rfl
  | cons e es =>
    obtain ⟨k, v⟩ := e
    rw [List.map_cons, bracket_cons, ← moreChars_entryTerms]
    simp [Value.entryTerms, Term.chars, Term.keyChars, entryText]

/-- The first fault of two results in a row is the fault of both. -/
theorem orFault_cons {α : Type} (a : α) (as : List α) (e f : Option LiteralError) :
    (do let x ← orFault a e; let xs ← orFault as f; return x :: xs) = orFault (a :: as) (e.or f) := by
  cases e <;> cases f <;> rfl

mutual
theorem spell_eq (l : Layout) : (v : Value) →
    spell l v = orFault (String.ofList (v.term.chars l)) (v.floats.findSome? floatFault)
  | .null | .bool true | .bool false | .int _ | .string _ => by
    simp [spell, Value.term, Value.floats, Term.chars, orFault, quote]
  | .float x => by
    simp only [spell, float_eq, Value.term, Value.floats, Term.chars, floatText,
      List.findSome?_cons, List.findSome?_nil]
    cases floatFault x <;> rfl
  | .list items => by
    simp only [spell, spellItems_eq l.nested items, Value.term, Value.floats, ← bracket_items]
    cases (Value.itemFloats items).findSome? floatFault <;> rfl
  | .map entries => by
    simp only [spell, spellEntries_eq l.nested entries, Value.term, Value.floats, ← bracket_entries]
    cases (Value.entryFloats entries).findSome? floatFault <;> rfl

theorem spellItems_eq (l : Layout) : (vs : List Value) →
    spellItems l vs = orFault (vs.map fun v => String.ofList (v.term.chars l))
      ((Value.itemFloats vs).findSome? floatFault)
  | [] => rfl
  | v :: vs => by
    simp only [spellItems, spell_eq l v, spellItems_eq l vs, Value.itemFloats,
      List.findSome?_append, List.map_cons]
    exact orFault_cons _ _ _ _

theorem spellEntries_eq (l : Layout) : (es : List (Key × Value)) →
    spellEntries l es = orFault (es.map (entryText l)) ((Value.entryFloats es).findSome? floatFault)
  | [] => rfl
  | (k, v) :: es => by
    simp only [spellEntries, spell_eq l v, spellEntries_eq l es, Value.entryFloats,
      List.findSome?_append, List.map_cons]
    rw [← orFault_cons]
    cases v.floats.findSome? floatFault <;> rfl
end

theorem floatFault_eq_none {x : Float} : floatFault x = none ↔ x.isNaN = false ∧ x.isInf = false := by
  unfold floatFault
  split
  · next hn => exact ⟨nofun, fun h => nomatch hn.symm.trans h.1⟩
  · next hn =>
    split
    · next hi => exact ⟨nofun, fun h => nomatch hi.symm.trans h.2⟩
    · next hi => exact ⟨fun _ => ⟨Bool.eq_false_iff.2 hn, Bool.eq_false_iff.2 hi⟩, fun _ => rfl⟩

/-- A value is finite when none of its doubles is at fault. -/
theorem finite_iff {v : Value} : v.Finite ↔ v.floats.findSome? floatFault = none := by
  rw [List.findSome?_eq_none_iff]
  exact forall₂_congr fun x _ => floatFault_eq_none.symm

/-- A value without NaN and infinity is spelled, in every layout. -/
theorem spell_of_finite {v : Value} (h : v.Finite) (l : Layout) :
    spell l v = .ok (String.ofList (v.term.chars l)) := by
  rw [spell_eq, finite_iff.1 h]
  rfl

/-- Only such values are spelled. -/
theorem finite_of_spell {v : Value} {l : Layout} {s : String} (h : spell l v = .ok s) : v.Finite := by
  rw [spell_eq] at h
  rw [finite_iff]
  cases hf : v.floats.findSome? floatFault with
  | none => rfl
  | some e =>
    rw [hf] at h
    exact nomatch h

end Literal

end PhpScribe
