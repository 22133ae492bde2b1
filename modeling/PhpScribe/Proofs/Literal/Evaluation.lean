/-
  PhpScribe.Proofs.Literal.Evaluation — the arrays that PHP makes of a literal.

  PHP reads an array literal entry by entry. An entry without a key takes the next index,
  and a later entry under a key that is there already takes the place of the earlier one.
  The keys of an array are integers and texts, but a text that is the decimal form of a
  64-bit integer is that integer: `['1' => 'a', 1 => 'b']` has one entry. So two keys that
  are apart in a `Value` can be one key for PHP, and that is so exactly when they clash
  (`index_eq_iff`).

  `keeps_iff_keysApart`: the literal of a finite value, in any layout, evaluates to the
  value's datum; in there a list keeps all of its items, and a map keeps all of its entries,
  each under its own key, exactly when no two of its keys clash. This holds at every depth,
  so a literal says all that its value does when no map in it has clashing keys.
  `a_decimal_text_replaces_an_integer_key`: with such keys an entry gets lost, for they are
  spelled without a complaint.
-/

import Mathlib.Data.List.Nodup
import PhpScribe.Proofs.Entries
import PhpScribe.Proofs.Literal.RoundTrip

namespace PhpScribe

namespace Php

inductive Index where
  | int (n : Int)
  /-- A text that is no integer's. -/
  | text (s : String)
  deriving DecidableEq

/-- What a literal evaluates to; a double is kept as the text of its number. -/
inductive Datum where
  | null
  | bool (b : Bool)
  | int (n : Int64)
  | float (text : Literal.FloatText)
  | string (s : String)
  | array (entries : List (Index × Datum))

def signed (s : List Char) : Int :=
  let n : Int := Nat.ofDigitChars 10 (Literal.unsigned s) 0
  if s.head? = some '-' then -n else n

/-- The 64-bit integer whose decimal form is the text: no zeros in front, no plus, no `-0`. -/
def decimal? (s : String) : Option Int64 :=
  let n := Int64.ofInt (signed s.toList)
  if Decimal.intDigits n.toInt = s.toList then some n else none

def index : Key → Index
  | .int n => .int n.toInt
  | .str s => (decimal? s).elim (.text s) fun n => .int n.toInt

def Index.next (next : Int) : Index → Int
  | .int n => max next (n + 1)
  | .text _ => next

mutual
def eval : Term → Datum
  | .null => .null
  | .bool b => .bool b
  | .int n => .int n
  | .float t => .float t
  | .string s => .string s
  | .array entries => .array (Entries.ofList (place 0 entries))

/-- The entries of an array literal under their keys, the next free index given. -/
def place (next : Int) : List (Option Key × Term) → List (Index × Datum)
  | [] => []
  | (none, t) :: es => (.int next, eval t) :: place (next + 1) es
  | (some k, t) :: es => (index k, eval t) :: place ((index k).next next) es
end

def eval? (s : List Char) : Option Datum :=
  match Literal.read s with
  | some (t, []) => some (eval t)
  | _ => none

end Php

namespace Key

/-- Two keys that are one key for PHP: the same, or an integer and its decimal form. -/
def Clash : Key → Key → Prop
  | .int m, .int n => m = n
  | .str s, .str t => s = t
  | .int n, .str s | .str s, .int n => s.toList = Decimal.intDigits n.toInt

instance : DecidableRel Clash
  | .int m, .int n => inferInstanceAs (Decidable (m = n))
  | .str s, .str t => inferInstanceAs (Decidable (s = t))
  | .int n, .str s | .str s, .int n => inferInstanceAs (Decidable (s.toList = Decimal.intDigits n.toInt))

end Key

namespace Value

def php (v : Value) : Php.Datum := Php.eval v.term

inductive Within (u : Value) : Value → Prop
  | self : Within u u
  | item {items : List Value} {v : Value} : v ∈ items → Within u v → Within u (.list items)
  | entry {entries : List (Key × Value)} {k : Key} {v : Value} :
    (k, v) ∈ entries → Within u v → Within u (.map entries)

/-- PHP's array has as many entries as the list or the map, and each of these has its own
    value under its own key. -/
def Keeps : Value → Prop
  | .list items => ∃ es, (Value.list items).php = .array es ∧ es.length = items.length ∧
      ∀ i (h : i < items.length), Entries.get? (.int i) es = some items[i].php
  | .map entries => ∃ es, (Value.map entries).php = .array es ∧ es.length = entries.length ∧
      ∀ k v, (k, v) ∈ entries → Entries.get? (Php.index k) es = some v.php
  | _ => True

/-- No two entries of the map have clashing keys. -/
def KeysApart : Value → Prop
  | .map entries => entries.Pairwise fun e f => ¬ e.1.Clash f.1
  | _ => True

end Value

/-! ## Keys -/

namespace Php

theorem signed_intDigits (n : Int) : signed (Decimal.intDigits n) = n := by
  unfold signed
  rw [Literal.unsigned_intDigits, Nat.ofDigitChars_ten_toDigits]
  simp only [Literal.head?_intDigits]
  split <;> omega

theorem decimal?_eq_some {s : String} {n : Int64} :
    decimal? s = some n ↔ s.toList = Decimal.intDigits n.toInt := by
  constructor
  · intro h
    simp only [decimal?, Option.ite_none_right_eq_some, Option.some.injEq] at h
    obtain ⟨hs, rfl⟩ := h
    exact hs.symm
  · intro h
    simp only [decimal?, h, signed_intDigits, Int64.ofInt_toInt, if_true]

theorem index_str_eq_int {s : String} {n : Int64} :
    index (.str s) = .int n.toInt ↔ s.toList = Decimal.intDigits n.toInt := by
  rw [← decimal?_eq_some, index]
  cases decimal? s with
  | none => simp
  | some m => simp [Int64.toInt_inj]

theorem index_str_eq_text {s t : String} : index (.str s) = .text t ↔ decimal? s = none ∧ s = t := by
  rw [index]
  cases decimal? s <;> simp

theorem index_str_inj {s t : String} : index (.str s) = index (.str t) ↔ s = t := by
  refine ⟨fun h => ?_, fun h => h ▸ rfl⟩
  cases ht : decimal? t with
  | none => exact (index_str_eq_text.1 (h.trans (index_str_eq_text.2 ⟨ht, rfl⟩))).2
  | some n =>
    have hn := decimal?_eq_some.1 ht
    have hs := index_str_eq_int.1 (h.trans (index_str_eq_int.2 hn))
    exact String.toList_injective (hs.trans hn.symm)

/-- Keys are one key for PHP exactly when they clash. -/
theorem index_eq_iff {j k : Key} : index j = index k ↔ j.Clash k := by
  cases j with
  | int m =>
    cases k with
    | int n => simp [index, Key.Clash, Int64.toInt_inj]
    | str s => exact eq_comm.trans index_str_eq_int
  | str s =>
    cases k with
    | int n => exact index_str_eq_int
    | str t => exact index_str_inj

/-! ## Places -/

theorem place_itemTerms (vs : List Value) (n : Nat) :
    place n (Value.itemTerms vs) = (vs.zipIdx n).map fun p => (.int p.2, p.1.php) := by
  induction vs generalizing n with
  | nil => rfl
  | cons v vs ih =>
    have ih := ih (n + 1)
    rw [Int.natCast_add, Int.natCast_one] at ih
    rw [Value.itemTerms, place, ih, List.zipIdx_cons, List.map_cons]
    rfl

theorem place_entryTerms (es : List (Key × Value)) (next : Int) :
    place next (Value.entryTerms es) = es.map fun e => (index e.1, e.2.php) := by
  induction es generalizing next with
  | nil => rfl
  | cons e es ih =>
    rw [Value.entryTerms, place, ih]
    rfl

end Php

/-! ## Arrays -/

namespace Value

open Php (Index index)

def placedItems (items : List Value) : List (Index × Php.Datum) :=
  items.zipIdx.map fun p => (.int p.2, p.1.php)

def placedEntries (entries : List (Key × Value)) : List (Index × Php.Datum) :=
  entries.map fun e => (index e.1, e.2.php)

theorem nodup_placedItems (items : List Value) : (Entries.keys (placedItems items)).Nodup := by
  have hk : Entries.keys (placedItems items) = (List.range' 0 items.length).map fun i : Nat => Index.int i := by
    rw [← List.zipIdx_map_snd 0 items, Entries.keys, placedItems, List.map_map, List.map_map]
    rfl
  rw [hk]
  exact List.Nodup.map (fun i j h => Int.natCast_inj.1 (Index.int.inj h)) List.nodup_range'

theorem nodup_placedEntries {entries : List (Key × Value)} :
    (Entries.keys (placedEntries entries)).Nodup ↔ (Value.map entries).KeysApart := by
  simp only [Entries.keys, placedEntries, List.map_map, List.Nodup, List.pairwise_map, KeysApart,
    Function.comp, ne_eq, Php.index_eq_iff]

theorem php_list (items : List Value) : (Value.list items).php = .array (placedItems items) := by
  have hp : Php.place 0 (itemTerms items) = placedItems items := Php.place_itemTerms items 0
  rw [php, term, Php.eval, hp]
  exact congrArg _ (Entries.ofList_of_nodup (nodup_placedItems items))

theorem php_map (entries : List (Key × Value)) :
    (Value.map entries).php = .array (Entries.ofList (placedEntries entries)) := by
  rw [php, term, Php.eval, Php.place_entryTerms]
  rfl

theorem keeps_list (items : List Value) : (Value.list items).Keeps := by
  refine ⟨_, php_list items, by simp [placedItems], fun i h => ?_⟩
  refine Entries.get?_of_mem (nodup_placedItems items) (List.mem_map.2 ⟨(items[i], i), ?_, rfl⟩)
  exact List.mem_zipIdx_iff_getElem?.2 (List.getElem?_eq_getElem h)

theorem keeps_map (entries : List (Key × Value)) :
    (Value.map entries).Keeps ↔ (Value.map entries).KeysApart := by
  rw [← nodup_placedEntries]
  constructor
  -- the number of entries decides: of two entries under one key only one is left
  · rintro ⟨es, he, hlen, -⟩
    cases (php_map entries).symm.trans he
    exact Entries.length_ofList.1 (by simpa [placedEntries] using hlen)
  · intro hn
    have hkept := Entries.ofList_of_nodup hn
    refine ⟨_, php_map entries, ?_, fun k v hm => ?_⟩
    · rw [hkept, placedEntries, List.length_map]
    rw [hkept]
    exact Entries.get?_of_mem hn (List.mem_map.2 ⟨_, hm, rfl⟩)

theorem keeps_iff (v : Value) : v.Keeps ↔ v.KeysApart := by
  cases v with
  | list items => exact iff_of_true (keeps_list items) trivial
  | map entries => exact keeps_map entries
  | _ => exact Iff.rfl

/-! ## Depth -/

theorem itemFloats_eq (vs : List Value) : itemFloats vs = vs.flatMap floats := by
  induction vs with
  | nil => rfl
  | cons v vs ih => rw [itemFloats, ih, List.flatMap_cons]

theorem entryFloats_eq (es : List (Key × Value)) : entryFloats es = es.flatMap fun e => e.2.floats := by
  induction es with
  | nil => rfl
  | cons e es ih => rw [entryFloats, ih, List.flatMap_cons]

/-- What stands in a finite value is finite. -/
theorem Finite.within {u v : Value} (hv : v.Finite) (hu : u.Within v) : u.Finite := by
  induction hu with
  | self => exact hv
  | item hm _ ih =>
    refine ih fun x hx => hv x ?_
    rw [floats, itemFloats_eq]
    exact List.mem_flatMap_of_mem hm hx
  | entry hm _ ih =>
    refine ih fun x hx => hv x ?_
    rw [floats, entryFloats_eq]
    exact List.mem_flatMap_of_mem hm hx

end Value

/-! ## Literals -/

namespace Literal

theorem eval?_spell {v : Value} {l : Layout} {s : String} (h : spell l v = .ok s) :
    Php.eval? s.toList = some v.php := by
  have hs := (spell_of_finite (finite_of_spell h) l).symm.trans h
  cases hs
  have hr : read (v.term.chars l ++ []) = some (v.term, []) := read_chars v.term l fun _ hc => nomatch hc
  rw [List.append_nil] at hr
  rw [Php.eval?, String.toList_ofList, hr]
  rfl

/-- What stands in a finite value is spelled in every layout, its literal evaluates to its
    datum, and that keeps all entries exactly when no two keys clash. -/
theorem keeps_iff_keysApart {u v : Value} (hv : v.Finite) (hu : u.Within v) (l : Layout) :
    ∃ s, spell l u = .ok s ∧ Php.eval? s.toList = some u.php ∧ (u.Keeps ↔ u.KeysApart) := by
  have hs := spell_of_finite (hv.within hu) l
  exact ⟨_, hs, eval?_spell hs, Value.keeps_iff u⟩

/-- Texts that look like integers and are none, next to integers. -/
theorem keeps_iff_keysApart_lookalikes :
    let u : Value := .map [(.str "01", .null), (.int 1, .list [.null, .null]), (.str "-0", .null), (.int 0, .null)]
    let v : Value := .list [u]
    v.Finite ∧ u.Within v ∧ u.KeysApart ∧
      ∃ s, spell .inline u = .ok s ∧ Php.eval? s.toList = some u.php ∧ u.Keeps := by
  intro u v
  have hv : v.Finite := fun x hx => nomatch hx
  have hu : u.Within v := .item List.mem_cons_self .self
  have ha : u.KeysApart := by
    unfold u Value.KeysApart
    decide
  obtain ⟨s, hs, he, hk⟩ := keeps_iff_keysApart hv hu .inline
  exact ⟨hv, hu, ha, s, hs, he, hk.2 ha⟩

/-- The text `'1'` and the integer 1 are two keys of a map, and one key for PHP: the literal
    is written, and its array has lost an entry. -/
theorem a_decimal_text_replaces_an_integer_key :
    let v : Value := .ofEntries [(.str "1", .string "a"), (.int 1, .string "b")]
    v.Finite ∧ spell .inline v = .ok "['1' => 'a', 1 => 'b']" ∧
      Php.eval? "['1' => 'a', 1 => 'b']".toList = some (.array [(.int 1, .string "b")]) ∧
      ¬ v.Keeps := by
  intro v
  have hs : spell .inline v = .ok "['1' => 'a', 1 => 'b']" := rfl
  have hp : v.php = .array [(.int 1, .string "b")] := rfl
  have ha : ¬ v.KeysApart := by
    unfold v Value.ofEntries Value.KeysApart
    decide
  exact ⟨finite_of_spell hs, hs, (eval?_spell hs).trans (congrArg some hp), mt (Value.keeps_iff v).1 ha⟩

end Literal

end PhpScribe
