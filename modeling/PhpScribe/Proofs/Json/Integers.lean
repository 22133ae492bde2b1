/-
  PhpScribe.Proofs.Json.Integers — the integers of a JSON text, in its value.

  A path leads through a tree and through its value alike: by index into an array, by name
  to the last member of that name. What no path leads to is overwritten.
  - `value_at`: where a path leads to in a tree that has a value, there the value is.
  - `exists_wide`: a tree without a value has an integer in it that fits 64 bits only
    without a sign, and the error names it.
  - `integers_kept`: for an accepted text and the tree it spells, conversion fails exactly
    when there is such an integer, and else every integer in the signed range has become
    that very integer and every other number a double (`Converted`).

  An integer below the signed range, or too large for 64 bits, is neither refused nor kept:
  it becomes a double without a word (`an_integer_below_the_range_becomes_a_double`).
-/

import Mathlib.Data.List.Nodup
import PhpScribe.Proofs.Json.Grammar

namespace PhpScribe

/-! ## Paths -/

inductive Place where
  | item (i : Nat)
  | member (name : String)

namespace Json.Written

/-- The item at an index, or the last member of a name. -/
def step? : Written → Place → Option Written
  | .array items, .item i => items[i]?
  | .object members, .member name => Entries.get? name members.reverse
  | _, _ => none

def at? : Written → List Place → Option Written
  | w, [] => some w
  | w, p :: path => (w.step? p).bind (at? · path)

end Json.Written

namespace Value

def step? : Value → Place → Option Value
  | .list items, .item i => items[i]?
  | .map entries, .member name => Entries.get? (.str name) entries
  | _, _ => none

def at? : Value → List Place → Option Value
  | v, [] => some v
  | v, p :: path => (v.step? p).bind (at? · path)

/-! ## Items and members -/

theorem ofJsonItems_eq (js : List Json) : ofJsonItems js = js.mapM ofJson := by
  induction js with
  | nil => rfl
  | cons j js ih => rw [ofJsonItems, ih, List.mapM_cons]

def ofMember (m : String × Json) : Except LiteralError (Key × Value) := (ofJson m.2).map (.str m.1, ·)

theorem ofJsonMembers_eq (ms : List (String × Json)) : ofJsonMembers ms = ms.mapM ofMember := by
  induction ms with
  | nil => rfl
  | cons m ms ih =>
    rw [ofJsonMembers, ih, List.mapM_cons, ofMember]
    cases ofJson m.2 <;> rfl

theorem of_ofMember {m : String × Json} {e : Key × Value} (h : ofMember m = .ok e) :
    e.1 = .str m.1 ∧ ofJson m.2 = .ok e.2 := by
  obtain ⟨v, hv, rfl⟩ := exists_of_map_ok h
  exact ⟨rfl, hv⟩

theorem get?_of_members {ms : List (String × Json)} {es : List (Key × Value)} {name : String} {j : Json}
    (h : ms.mapM ofMember = .ok es) (hj : Entries.get? name ms = some j) :
    ∃ v, Entries.get? (.str name) es = some v ∧ ofJson j = .ok v := by
  induction ms generalizing es with
  | nil => exact nomatch hj
  | cons m ms ih =>
    obtain ⟨e, es', he, hes, rfl⟩ := exists_of_mapM_cons h
    obtain ⟨hk, hv⟩ := of_ofMember he
    rw [Entries.get?] at hj ⊢
    rw [hk]
    by_cases hn : m.1 = name
    · rw [if_pos hn] at hj
      cases hj
      exact ⟨e.2, by simp [hn], hv⟩
    · rw [if_neg hn] at hj
      rw [if_neg (by simpa using hn)]
      exact ih hes hj

/-- The members of an object have different names, so their entries have different keys. -/
theorem ofEntries_of_members {ms : List (String × Json)} {es : List (Key × Value)}
    (hn : (Entries.keys ms).Nodup) (h : ms.mapM ofMember = .ok es) : ofEntries es = .map es := by
  have hk : Entries.keys es = (Entries.keys ms).map .str := by
    rw [Entries.keys, Entries.keys, List.map_map]
    exact map_eq_of_mapM (fun hm => (of_ofMember hm).1) h
  rw [ofEntries, Entries.ofList_of_nodup]
  rw [hk]
  exact List.Nodup.map (fun _ _ he => Key.str.inj he) hn

end Value

namespace Json

open Written (itemDocuments memberDocuments)

theorem get?_memberDocuments (name : String) (ms : List (String × Written)) :
    Entries.get? name (Entries.ofList (memberDocuments ms)) =
      (Entries.get? name ms.reverse).map Written.document := by
  rw [Entries.get?_ofList, Written.memberDocuments_eq, ← List.map_reverse]
  exact Entries.get?_map _ _ _

/-! ## Values along a path -/

theorem value_step {w u : Written} {v : Value} {p : Place} (h : Value.ofJson w.document = .ok v)
    (hp : w.step? p = some u) : ∃ x, v.step? p = some x ∧ Value.ofJson u.document = .ok x := by
  cases w with
  | array items =>
    cases p with
    | member => exact nomatch hp
    | item i =>
      obtain ⟨vs, hvs, rfl⟩ := exists_of_map_ok h
      rw [Value.ofJsonItems_eq, Written.itemDocuments_eq] at hvs
      exact getElem?_of_mapM hvs (List.getElem?_map.trans (congrArg _ hp))
  | object members =>
    cases p with
    | item => exact nomatch hp
    | member name =>
      obtain ⟨es, hes, rfl⟩ := exists_of_map_ok h
      rw [Value.ofJsonMembers_eq] at hes
      rw [Value.ofEntries_of_members (Entries.nodup_keys_ofList _) hes]
      exact Value.get?_of_members hes ((get?_memberDocuments name members).trans (congrArg _ hp))
  | _ => exact nomatch hp

/-- Where a path leads to in a tree that has a value, there the value is. -/
theorem value_at {path : List Place} {w u : Written} {v : Value} (h : Value.ofJson w.document = .ok v)
    (hp : w.at? path = some u) : ∃ x, v.at? path = some x ∧ Value.ofJson u.document = .ok x := by
  induction path generalizing w v with
  | nil =>
    cases hp
    exact ⟨v, rfl, h⟩
  | cons p path ih =>
    obtain ⟨w', hw, hp⟩ := Option.bind_eq_some_iff.1 hp
    obtain ⟨v', hv, h⟩ := value_step h hw
    obtain ⟨x, hx, hu⟩ := ih h hp
    exact ⟨x, by rw [Value.at?, hv]; exact hx, hu⟩

/-- Something without a value, in an array without a value. -/
theorem exists_of_items {items : List Written} {e : LiteralError}
    (h : Value.ofJson (Written.array items).document = .error e) :
    ∃ (i : Nat) (u : Written), items[i]? = some u ∧ Value.ofJson u.document = .error e := by
  rw [Written.document, Value.ofJson, ← fault?_eq_some, fault?_map, Value.ofJsonItems_eq, fault?_mapM,
    Written.itemDocuments_eq, List.findSome?_map] at h
  obtain ⟨u, hu, he⟩ := List.exists_of_findSome?_eq_some h
  obtain ⟨i, hi⟩ := List.mem_iff_getElem?.1 hu
  exact ⟨i, u, hi, fault?_eq_some.1 he⟩

theorem exists_of_members {members : List (String × Written)} {e : LiteralError}
    (h : Value.ofJson (Written.object members).document = .error e) :
    ∃ name u, Entries.get? name members.reverse = some u ∧ Value.ofJson u.document = .error e := by
  rw [Written.document, Value.ofJson, ← fault?_eq_some, fault?_map, Value.ofJsonMembers_eq, fault?_mapM] at h
  obtain ⟨⟨name, j⟩, hm, he⟩ := List.exists_of_findSome?_eq_some h
  rw [Value.ofMember, fault?_map] at he
  have hj := Entries.get?_of_mem (Entries.nodup_keys_ofList _) hm
  rw [get?_memberDocuments] at hj
  obtain ⟨u, hu, rfl⟩ := Option.map_eq_some_iff.1 hj
  exact ⟨name, u, hu, fault?_eq_some.1 he⟩

/-- A tree without a value has an integer beyond the signed range in it. The path to it goes
    through what the document holds, so no later member replaces it. -/
theorem exists_wide : (w : Written) → {e : LiteralError} → Value.ofJson w.document = .error e →
    ∃ path n, w.at? path = some (.number n) ∧ n.numeral.Wide ∧
      e = .wideInteger (UInt64.ofNat n.numeral.integer.toNat)
  | .null, _, h | .bool _, _, h | .string _, _, h => nomatch h
  | .number n, e, h => by
    cases Numeral.becomes_of_number? n.number?_eq with
    | int m _ hm _ => exact nomatch hm.symm.trans h
    | error hw he => exact ⟨[], n, rfl, hw, Except.error.inj (h.symm.trans he)⟩
    | double x _ _ hx => exact nomatch hx.symm.trans h
  | .array items, e, h => by
    obtain ⟨i, u, hu, he⟩ := exists_of_items h
    have hlt := List.sizeOf_lt_of_mem (List.mem_of_getElem? hu)
    obtain ⟨path, n, hn, hw⟩ := exists_wide u he
    exact ⟨.item i :: path, n, by rw [Written.at?, Written.step?, hu]; exact hn, hw⟩
  | .object members, e, h => by
    obtain ⟨name, u, hu, he⟩ := exists_of_members h
    have hmem := List.sizeOf_lt_of_mem (List.mem_reverse.1 (Entries.mem_of_get? hu))
    have hlt : sizeOf u < sizeOf members := by
      rw [Prod.mk.sizeOf_spec] at hmem
      omega
    obtain ⟨path, n, hn, hw⟩ := exists_wide u he
    exact ⟨.member name :: path, n, by rw [Written.at?, Written.step?, hu]; exact hn, hw⟩
termination_by w => sizeOf w

/-! ## Integers -/

/-- What has become of the numbers of a tree that are not overwritten. -/
structure Converted (w : Written) (result : Except LiteralError Value) : Prop where
  /-- An error names an integer beyond the signed range that fits 64 bits. -/
  names_wide : ∀ e, result = .error e → ∃ path n, w.at? path = some (.number n) ∧ n.numeral.Wide ∧
    e = .wideInteger (UInt64.ofNat n.numeral.integer.toNat)
  refuses_wide : ∀ path n, w.at? path = some (.number n) → n.numeral.Wide → ∃ e, result = .error e
  /-- An integer in the signed range, but for minus zero, is still that integer. -/
  keeps_integer : ∀ v, result = .ok v → ∀ path n, w.at? path = some (.number n) → n.numeral.Fits →
    ∃ m, v.at? path = some (.int m) ∧ m.toInt = n.numeral.integer
  rounds_other : ∀ v, result = .ok v → ∀ path n, w.at? path = some (.number n) → ¬ n.numeral.Fits →
    ∃ x, v.at? path = some (.float x)

theorem converted_document (w : Written) : Converted w (Value.ofJson w.document) where
  names_wide _ h := exists_wide w h
  refuses_wide path n hn hwide := by
    cases hv : Value.ofJson w.document with
    | error e => exact ⟨e, rfl⟩
    | ok v =>
      obtain ⟨x, -, hx⟩ := value_at hv hn
      cases Numeral.becomes_of_number? n.number?_eq with
      | int m hfits _ _ => exact absurd hwide.2.1 (Int.not_lt.2 hfits.2.2.1)
      | error _ he => exact nomatch he.symm.trans hx
      | double y _ hnot _ => exact absurd hwide hnot
  keeps_integer v hv path n hn hfits := by
    obtain ⟨x, hat, hx⟩ := value_at hv hn
    cases Numeral.becomes_of_number? n.number?_eq with
    | int m _ hm hint =>
      cases hx.symm.trans hm
      exact ⟨m, hat, hint⟩
    | error _ he => exact nomatch he.symm.trans hx
    | double y hnot _ _ => exact absurd hfits hnot
  rounds_other v hv path n hn hnot := by
    obtain ⟨x, hat, hx⟩ := value_at hv hn
    cases Numeral.becomes_of_number? n.number?_eq with
    | int m hfits _ _ => exact absurd hfits hnot
    | error _ he => exact nomatch he.symm.trans hx
    | double y _ _ hy =>
      cases hx.symm.trans hy
      exact ⟨y, hat⟩

/-- An accepted text spells a tree, and for each tree that it spells the conversion fails
    exactly on the integers beyond the signed range that fit 64 bits, keeps every integer in
    the signed range, and makes every other number a double. -/
theorem integers_kept {text : String} {j : Json} (hj : parse? text = some j) :
    (∃ w : Written, w.SpelledBy text) ∧
      ∀ w : Written, w.SpelledBy text → Converted w (Value.ofJson j) := by
  refine ⟨exists_spelled hj, fun w hw => ?_⟩
  cases document_of_spelled hw hj
  exact converted_document w

/-- Both ends of the signed range, an integer too large for 64 bits, minus zero, and one beyond
    the signed range that a later member replaces. -/
theorem integers_kept_bounds :
    let text := "\x7b\"a\":[9223372036854775807,-9223372036854775808,18446744073709551616,-0]," ++
      "\"b\":9223372036854775808,\"b\":1\x7d"
    ∃ (j : Json) (w : Written) (v : Value), parse? text = some j ∧ w.SpelledBy text ∧
      Value.ofJson j = .ok v ∧ Converted w (.ok v) := by
  intro text
  have hsome : ((parse? text).bind fun j => (Value.ofJson j).toOption).isSome = true := by decide +kernel
  obtain ⟨v, hv⟩ := Option.isSome_iff_exists.1 hsome
  obtain ⟨j, hj, hv⟩ := Option.bind_eq_some_iff.1 hv
  have hv := toOption_eq_some.1 hv
  obtain ⟨⟨w, hw⟩, hall⟩ := integers_kept hj
  have hconverted := hall w hw
  rw [hv] at hconverted
  exact ⟨j, w, v, hj, hw, hv, hconverted⟩

/-- The numeral of the first integer below the signed range. -/
def belowRange : Numeral :=
  ⟨true, [9, 2, 2, 3, 3, 7, 2, 0, 3, 6, 8, 5, 4, 7, 7, 5, 8, 0, 9], none, none⟩

/-- An integer below the signed range is converted to a double, and nobody is told. -/
theorem an_integer_below_the_range_becomes_a_double :
    ∃ (n : WrittenNumber) (j : Json) (x : Float),
      (Written.number n).SpelledBy "-9223372036854775809" ∧ n.numeral.Integral ∧
      n.numeral.integer = -9223372036854775809 ∧ parse? "-9223372036854775809" = some j ∧
      Value.ofJson j = .ok (.float x) := by
  have hnumber : belowRange.number? = some (.double (-(UInt64.ofNat belowRange.size).toFloat)) := by
    rw [Numeral.number?_of_size_lt ⟨rfl, rfl⟩ (by decide)]
    rfl
  have hspelled : belowRange.Spelled "-9223372036854775809".toList := by
    refine ⟨_, ⟨_, _, _, .digits (by decide) ⟨by simp, by decide⟩, .none, .none, rfl⟩, ?_⟩
    decide
  have hw : (Written.number ⟨belowRange, _, hnumber⟩).SpelledBy "-9223372036854775809" := by
    have hstops : belowRange.Stops [] := ⟨Text.ends_nil _, fun _ => ⟨Text.ends_nil _, fun _ => Text.ends_nil _⟩⟩
    have hbegins : Lexeme.Begins (_ ++ []) (.number ⟨belowRange, _, hnumber⟩) [] := .number hspelled hstops
    rw [List.append_nil] at hbegins
    exact .lexeme hbegins .nil
  have hsome : (parse? "-9223372036854775809").isSome = true := by decide +kernel
  obtain ⟨j, hj⟩ := Option.isSome_iff_exists.1 hsome
  cases document_of_spelled hw hj
  have hint : belowRange.integer = -9223372036854775809 := by decide
  exact ⟨_, _, _, hw, ⟨rfl, rfl⟩, hint, hj, rfl⟩

end Json

end PhpScribe
