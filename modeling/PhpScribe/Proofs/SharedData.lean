/-
  PhpScribe.Proofs.SharedData — what JSON and TOML both hold, as values.

  A value comes from a JSON document or from a datum of a manifest, by two conversions that
  have no code in common. What both formats can hold are booleans, 64-bit integers, finite
  doubles, strings, arrays, and tables whose keys are apart (`Shared`). In either format it
  has its own form, and it stands for one value of its own shape; all three are one
  traversal with another algebra (`Form`). The value always has a literal (`finite_value`).

  A conversion that takes the nodes of a form to the nodes of a value, one by one, takes the
  form of a whole tree to its value (`Faithful.convert`). Both conversions do so, so the
  same data gives the same value from either format, entries and items in their order.

  Of the trees that only one format holds, each conversion refuses one kind of leaf, at any
  depth: a date in TOML, and in JSON an unsigned number beyond the signed range, of which
  the first in reading order is named (`fault?_ofJson`). `formats_give_same_values` says all
  of it.
-/

import PhpScribe.Proofs.Json.Integers
import PhpScribe.Proofs.Manifest.Lowering

namespace PhpScribe

/-! ## Trees that both formats hold -/

inductive Shared where
  | bool (b : Bool)
  | integer (n : Int64)
  | double (x : Float) (finite : x.isNaN = false ∧ x.isInf = false)
  | string (s : String)
  | array (items : List Shared)
  /-- The members in their order. -/
  | table (members : List (String × Shared))

/-- What a node becomes in a format, given what stands in it. -/
structure Form (α : Type) where
  bool : Bool → α
  integer : Int64 → α
  double : Float → α
  string : String → α
  array : List α → α
  table : List (String × α) → α

/-- A nonnegative integer is held without its sign. -/
def Json.Number.ofInt64 (n : Int64) : Number := if n < 0 then .signed n else .unsigned n.toUInt64

namespace Form

def json : Form Json where
  bool := .bool
  integer n := .number (.ofInt64 n)
  double x := .number (.double x)
  string := .string
  array := .array
  table := .object

def toml : Form Toml.Datum where
  bool := .bool
  integer := .integer
  double := .float
  string := .string
  array := .array
  table := .table

/-- A table is a map under the same keys. -/
def value : Form Value where
  bool := .bool
  integer := .int
  double := .float
  string := .string
  array := .list
  table ms := .map (ms.map fun m => (.str m.1, m.2))

end Form

namespace Shared

section As

variable {α : Type} (f : Form α)

mutual
def as : Shared → α
  | .bool b => f.bool b
  | .integer n => f.integer n
  | .double x _ => f.double x
  | .string s => f.string s
  | .array items => f.array (itemsAs items)
  | .table members => f.table (membersAs members)

def itemsAs : List Shared → List α
  | [] => []
  | t :: ts => as t :: itemsAs ts

def membersAs : List (String × Shared) → List (String × α)
  | [] => []
  | (k, t) :: ms => (k, as t) :: membersAs ms
end

theorem keys_membersAs (ms : List (String × Shared)) : Entries.keys (membersAs f ms) = Entries.keys ms := by
  induction ms with
  | nil => rfl
  | cons m ms ih => exact congrArg (m.1 :: ·) ih

end As

def json : Shared → Json := as .json

def toml : Shared → Toml.Datum := as .toml

def value : Shared → Value := as .value

mutual
/-- What both formats hold has a literal. -/
theorem finite_value : (t : Shared) → t.value.Finite
  | .bool _ | .integer _ | .string _ => nofun
  | .double x hx => by
    intro y hy
    cases List.mem_singleton.1 hy
    exact hx
  | .array items => finite_items items
  | .table members => finite_members members

theorem finite_items : (ts : List Shared) →
    ∀ x ∈ Value.itemFloats (itemsAs .value ts), x.isNaN = false ∧ x.isInf = false
  | [] => nofun
  | t :: ts => by
    intro x hx
    rcases List.mem_append.1 hx with hx | hx
    · exact finite_value t x hx
    · exact finite_items ts x hx

theorem finite_members : (ms : List (String × Shared)) →
    ∀ x ∈ Value.entryFloats ((membersAs .value ms).map fun m => (.str m.1, m.2)),
      x.isNaN = false ∧ x.isInf = false
  | [] => nofun
  | (k, t) :: ms => by
    intro x hx
    rcases List.mem_append.1 hx with hx | hx
    · exact finite_value t x hx
    · exact finite_members ms x hx
end

inductive Apart : Shared → Prop
  | bool (b : Bool) : Apart (.bool b)
  | integer (n : Int64) : Apart (.integer n)
  | double (x : Float) (hx : x.isNaN = false ∧ x.isInf = false) : Apart (.double x hx)
  | string (s : String) : Apart (.string s)
  | array {items : List Shared} (h : ∀ t ∈ items, Apart t) : Apart (.array items)
  | table {ms : List (String × Shared)} (hkeys : (Entries.keys ms).Nodup) (h : ∀ m ∈ ms, Apart m.2) :
      Apart (.table ms)

end Shared

/-! ## Conversions node by node -/

section Faithful

variable {α : Type} {f : Form α} {conv : α → Except LiteralError Value}

def entryOf (conv : α → Except LiteralError Value) (m : String × α) : Except LiteralError (Key × Value) :=
  (conv m.2).map (.str m.1, ·)

/-- Each node of a form is converted to the node of the value that it stands for. -/
structure Faithful (f : Form α) (conv : α → Except LiteralError Value) : Prop where
  bool : ∀ b, conv (f.bool b) = .ok (.bool b)
  integer : ∀ n, conv (f.integer n) = .ok (.int n)
  double : ∀ x, conv (f.double x) = .ok (.float x)
  string : ∀ s, conv (f.string s) = .ok (.string s)
  array : ∀ as, conv (f.array as) = (as.mapM conv).map .list
  table : ∀ ms, conv (f.table ms) = (ms.mapM (entryOf conv)).map Value.ofEntries

open Shared (itemsAs membersAs)

/-- Different names are different keys, so no entry takes the place of another. -/
theorem ofEntries_membersAs {ms : List (String × Shared)} (h : (Entries.keys ms).Nodup) :
    Value.ofEntries ((membersAs .value ms).map fun m => (.str m.1, m.2)) = Form.value.table (membersAs .value ms) := by
  have hkeys : Entries.keys ((membersAs .value ms).map fun m => (Key.str m.1, m.2)) = (Entries.keys ms).map .str := by
    rw [← Shared.keys_membersAs .value ms, Entries.keys, Entries.keys, List.map_map, List.map_map]
    rfl
  have hnodup := h.map (f := Key.str) fun _ _ => Key.str.inj
  rw [Value.ofEntries, Entries.ofList_of_nodup (by rwa [hkeys])]
  rfl

mutual
/-- A tree in its form is converted to its value. -/
theorem Faithful.convert (h : Faithful f conv) : (t : Shared) → t.Apart → conv (t.as f) = .ok t.value
  | .bool b, _ => h.bool b
  | .integer n, _ => h.integer n
  | .double x _, _ => h.double x
  | .string s, _ => h.string s
  | .array items, ht => by
    cases ht with
    | array hitems =>
      rw [Shared.as, h.array, h.convertItems items hitems]
      rfl
  | .table ms, ht => by
    cases ht with
    | table hkeys hmembers =>
      rw [Shared.as, h.table, h.convertMembers ms hmembers]
      exact congrArg Except.ok (ofEntries_membersAs hkeys)

theorem Faithful.convertItems (h : Faithful f conv) : (ts : List Shared) → (∀ t ∈ ts, t.Apart) →
    (itemsAs f ts).mapM conv = .ok (itemsAs .value ts)
  | [], _ => rfl
  | t :: ts, hts => by
    obtain ⟨ht, hts⟩ := List.forall_mem_cons.1 hts
    rw [itemsAs, List.mapM_cons, h.convert t ht, h.convertItems ts hts]
    rfl

theorem Faithful.convertMembers (h : Faithful f conv) : (ms : List (String × Shared)) → (∀ m ∈ ms, m.2.Apart) →
    (membersAs f ms).mapM (entryOf conv) = .ok ((membersAs .value ms).map fun m => (.str m.1, m.2))
  | [], _ => rfl
  | (k, t) :: ms, hms => by
    obtain ⟨ht, hms⟩ := List.forall_mem_cons.1 hms
    rw [membersAs, List.mapM_cons, entryOf, h.convert t ht, h.convertMembers ms hms]
    rfl
end

end Faithful

namespace Value

open Toml (Datum)
open Json (Number)

theorem ofNumber_ofInt64 (n : Int64) : ofNumber (.ofInt64 n) = .ok (.int n) := by
  unfold Number.ofInt64
  by_cases hn : n < 0
  · rw [if_pos hn]
    rfl
  · have hnat : n.toUInt64.toNat = n.toInt.toNat := Int64.toNat_toUInt64_of_le (Int64.not_lt.1 hn)
    have hpos : 0 ≤ n.toInt := Int64.le_iff_toInt_le.1 (Int64.not_lt.1 hn)
    have hlt : n.toInt < 2 ^ 63 := n.toInt_lt
    have hfits : n.toInt.toNat < Nat.pow 2 63 := by
      show n.toInt.toNat < 2 ^ 63
      omega
    have hsame : Int64.ofNat n.toInt.toNat = n := by
      rw [← Int64.toInt_inj, Int64.toInt_ofNat_of_lt hfits]
      omega
    rw [if_neg hn, ofNumber, hnat, if_pos hfits, hsame]

theorem faithful_ofJson : Faithful .json ofJson where
  bool _ := rfl
  integer := ofNumber_ofInt64
  double _ := rfl
  string _ := rfl
  array js := congrArg (Except.map Value.list) (ofJsonItems_eq js)
  table ms := congrArg (Except.map ofEntries) (ofJsonMembers_eq ms)

theorem ofTomlItems_eq (ds : List Datum) : ofTomlItems ds = ds.mapM ofToml := by
  induction ds with
  | nil => rfl
  | cons d ds ih => rw [ofTomlItems, ih, List.mapM_cons]

theorem ofTomlMembers_eq (ms : List (String × Datum)) : ofTomlMembers ms = ms.mapM (entryOf ofToml) := by
  induction ms with
  | nil => rfl
  | cons m ms ih =>
    rw [ofTomlMembers, ih, List.mapM_cons, entryOf]
    cases ofToml m.2 <;> rfl

theorem faithful_ofToml : Faithful .toml ofToml where
  bool _ := rfl
  integer _ := rfl
  double _ := rfl
  string _ := rfl
  array ds := congrArg (Except.map Value.list) (ofTomlItems_eq ds)
  table ms := congrArg (Except.map ofEntries) (ofTomlMembers_eq ms)

end Value

/-! ## What has no value -/

namespace Json

mutual
def numbers : Json → List Number
  | .number n => [n]
  | .array items => itemNumbers items
  | .object members => memberNumbers members
  | _ => []

def itemNumbers : List Json → List Number
  | [] => []
  | j :: js => numbers j ++ itemNumbers js

def memberNumbers : List (String × Json) → List Number
  | [] => []
  | (_, j) :: ms => numbers j ++ memberNumbers ms
end

namespace Number

/-- The number is held without a sign and is beyond the signed range. -/
def Wide : Number → Prop
  | .unsigned n => Int64.maxValue.toInt < n.toNat
  | _ => False

def fault? : Number → Option LiteralError
  | .unsigned n => if n.toNat < Nat.pow 2 63 then none else some (.wideInteger n)
  | _ => none

theorem fault?_eq_some {n : Number} {e : LiteralError} :
    n.fault? = some e ↔ n.Wide ∧ ∃ u, n = .unsigned u ∧ e = .wideInteger u := by
  have hmax : Int64.maxValue.toInt = (Nat.pow 2 63 : Nat) - 1 := Numeral.toInt_maxValue
  cases n with
  | unsigned u =>
    rw [fault?, Wide, hmax]
    split
    · next h => exact ⟨nofun, fun hw => absurd hw.1 (by omega)⟩
    · next h =>
      constructor
      · rintro ⟨⟩
        exact ⟨by omega, u, rfl, rfl⟩
      · rintro ⟨-, w, hw, rfl⟩
        cases hw
        rfl
  | signed m => exact ⟨nofun, fun hw => hw.1.elim⟩
  | double x => exact ⟨nofun, fun hw => hw.1.elim⟩

theorem fault?_eq_none {n : Number} : n.fault? = none ↔ ¬n.Wide := by
  constructor
  · intro h hw
    cases n with
    | unsigned u =>
      have hu := fault?_eq_some.2 ⟨hw, u, rfl, rfl⟩
      rw [h] at hu
      cases hu
    | signed m => exact hw
    | double x => exact hw
  · intro h
    cases hn : n.fault? with
    | none => rfl
    | some e => exact absurd (fault?_eq_some.1 hn).1 h

end Number

end Json

namespace Value

open Json (Number numbers itemNumbers memberNumbers)

theorem fault?_ofNumber (n : Number) : PhpScribe.fault? (ofNumber n) = n.fault? := by
  cases n with
  | unsigned u =>
    rw [ofNumber, Number.fault?]
    split <;> rfl
  | signed m => rfl
  | double x => rfl

mutual
/-- The fault of a document is that of the first number in it that has one. -/
theorem fault?_ofJson : (j : Json) → PhpScribe.fault? (ofJson j) = j.numbers.findSome? Number.fault?
  | .null | .bool _ | .string _ => rfl
  | .number n => by
    rw [ofJson, fault?_ofNumber, numbers, List.findSome?_singleton]
  | .array items => by
    rw [ofJson, fault?_map, fault?_ofJsonItems items, numbers]
  | .object members => by
    rw [ofJson, fault?_map, fault?_ofJsonMembers members, numbers]

theorem fault?_ofJsonItems : (js : List Json) →
    PhpScribe.fault? (ofJsonItems js) = (itemNumbers js).findSome? Number.fault?
  | [] => rfl
  | j :: js => by
    rw [ofJsonItems, fault?_both, fault?_ofJson j, fault?_ofJsonItems js, itemNumbers, List.findSome?_append]

theorem fault?_ofJsonMembers : (ms : List (String × Json)) →
    PhpScribe.fault? (ofJsonMembers ms) = (memberNumbers ms).findSome? Number.fault?
  | [] => rfl
  | (k, j) :: ms => by
    rw [ofJsonMembers, fault?_both, fault?_ofJson j, fault?_ofJsonMembers ms, memberNumbers, List.findSome?_append]
end

/-- Conversion from TOML fails exactly on a date, and says so. -/
theorem ofToml_fails (d : Toml.Datum) : ((∃ e, ofToml d = .error e) ↔ d.hasDate = true) ∧
    ∀ e, ofToml d = .error e → e.kind = "datetime" := by
  have hfault := fault?_ofToml d
  rw [dateFault] at hfault
  refine ⟨?_, fun e he => ?_⟩
  · rw [exists_error_iff, hfault]
    cases d.hasDate <;> simp
  · rw [fault?_eq_some.2 he] at hfault
    obtain ⟨-, rfl⟩ := Option.ite_some_none_eq_some.1 hfault.symm
    rfl

/-- Conversion from JSON fails exactly on a wide number, and names the first. -/
theorem ofJson_fails (j : Json) : ((∃ e, ofJson j = .error e) ↔ ∃ n ∈ j.numbers, n.Wide) ∧
    ∀ e, ofJson j = .error e → ∃ before n after, j.numbers = before ++ .unsigned n :: after ∧
      (∀ m ∈ before, ¬m.Wide) ∧ (Number.unsigned n).Wide ∧
      e.kind = "integer " ++ n.toNat.repr ++ " (exceeds i64)" := by
  have hfault := fault?_ofJson j
  refine ⟨?_, fun e he => ?_⟩
  · rw [exists_error_iff, hfault, Ne, List.findSome?_eq_none_iff]
    simp only [not_forall, exists_prop, Number.fault?_eq_none, not_not]
  · rw [fault?_eq_some.2 he] at hfault
    obtain ⟨before, n, after, hnumbers, hn, hbefore⟩ := List.findSome?_eq_some_iff.1 hfault.symm
    obtain ⟨hwide, u, rfl, rfl⟩ := Number.fault?_eq_some.1 hn
    exact ⟨before, u, after, hnumbers, fun m hm => Number.fault?_eq_none.1 (hbefore m hm), hwide, rfl⟩

end Value

/-! ## Both formats -/

open Json (Number) in
/-- Data that both formats hold is converted from either to one value, that of its own
    shape. Conversion from TOML fails exactly on a date, from JSON exactly on an unsigned
    number beyond the signed range, at any depth; the error is that of the first such
    number in the document. -/
theorem formats_give_same_values :
    (∀ t : Shared, t.Apart → Value.ofJson t.json = .ok t.value ∧ Value.ofToml t.toml = .ok t.value) ∧
    (∀ d : Toml.Datum, ((∃ e, Value.ofToml d = .error e) ↔ d.hasDate = true) ∧
      ∀ e, Value.ofToml d = .error e → e.kind = "datetime") ∧
    ∀ j : Json, ((∃ e, Value.ofJson j = .error e) ↔ ∃ n ∈ j.numbers, n.Wide) ∧
      ∀ e, Value.ofJson j = .error e → ∃ before n after, j.numbers = before ++ .unsigned n :: after ∧
        (∀ m ∈ before, ¬m.Wide) ∧ (Number.unsigned n).Wide ∧
        e.kind = "integer " ++ n.toNat.repr ++ " (exceeds i64)" := by
  refine ⟨fun t ht => ⟨?_, ?_⟩, Value.ofToml_fails, Value.ofJson_fails⟩
  · exact Value.faithful_ofJson.convert t ht
  · exact Value.faithful_ofToml.convert t ht

def connection : Shared :=
  .table [("ratio", .double 0.5 (by decide)),
    ("hosts", .array [.table [("up", .bool true), ("port", .integer (-1))], .string "a"])]

theorem apart_connection : connection.Apart := by
  have hhost : Shared.Apart (.table [("up", .bool true), ("port", .integer (-1))]) :=
    .table (by decide) (List.forall_mem_cons.2 ⟨.bool _, List.forall_mem_singleton.2 (.integer _)⟩)
  have hhosts : Shared.Apart (.array [.table [("up", .bool true), ("port", .integer (-1))], .string "a"]) :=
    .array (List.forall_mem_cons.2 ⟨hhost, List.forall_mem_singleton.2 (.string _)⟩)
  exact .table (by decide) (List.forall_mem_cons.2 ⟨.double _ _, List.forall_mem_singleton.2 hhosts⟩)

def wideNumbers : Json :=
  .array [.object [("a", .number (.unsigned 18446744073709551615))], .number (.unsigned 9223372036854775808)]

/-- A connection from either format, a date in an array, and a number in an object that is
    too wide. -/
theorem formats_give_same_values_nested :
    (connection.Apart ∧ connection.value = .map [(.str "ratio", .float 0.5), (.str "hosts",
        .list [.map [(.str "up", .bool true), (.str "port", .int (-1))], .string "a"])] ∧
      Value.ofJson connection.json = .ok connection.value ∧
      Value.ofToml connection.toml = .ok connection.value) ∧
    (∃ e, Value.ofToml (.array [.table [], .datetime]) = .error e ∧ e.kind = "datetime") ∧
    ∃ e, Value.ofJson wideNumbers = .error e ∧ ∃ before n after,
      wideNumbers.numbers = before ++ .unsigned n :: after ∧
      e.kind = "integer " ++ n.toNat.repr ++ " (exceeds i64)" := by
  obtain ⟨hplain, htoml, hjson⟩ := formats_give_same_values
  obtain ⟨before, n, after, hnumbers, -, -, hkind⟩ := (hjson wideNumbers).2 _ rfl
  refine ⟨⟨apart_connection, rfl, hplain connection apart_connection⟩, ⟨_, rfl, ?_⟩, _, rfl, ?_⟩
  · exact (htoml (.array [.table [], .datetime])).2 _ rfl
  · exact ⟨before, n, after, hnumbers, hkind⟩

end PhpScribe
