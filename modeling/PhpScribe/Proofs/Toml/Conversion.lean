/-
  PhpScribe.Proofs.Toml.Conversion — the value that a datum is converted to.

  A datum means the value of its own shape: an array the list of what its items mean, and
  a table the map of what stands under its keys, both in the order of the document
  (`Datum.Means`). That is what the conversion gives (`means_of_ofToml`). A map keeps each
  key once, so this needs a table without a key twice; the tables of a document are such
  (`apart_of_ofNode`).
-/

import Mathlib.Data.List.Forall2
import PhpScribe.Proofs.Outcome
import PhpScribe.Proofs.Toml.Keys
import PhpScribe.Toml.Datum

namespace PhpScribe.Toml.Datum

/-! ## Keys -/

inductive Apart : Datum → Prop
  | string (s : String) : Apart (.string s)
  | integer (n : Int64) : Apart (.integer n)
  | float (x : Float) : Apart (.float x)
  | bool (b : Bool) : Apart (.bool b)
  | datetime : Apart .datetime
  | array {items : List Datum} (h : ∀ d ∈ items, Apart d) : Apart (.array items)
  | table {ms : List (String × Datum)} (hkeys : (Entries.keys ms).Nodup) (h : ∀ m ∈ ms, Apart m.2) :
      Apart (.table ms)

/-- A table holds a date, or what its members hold. -/
theorem cases_ofTable {ms : List (String × Node)} {d : Datum} (h : ofTable? ms = some d) :
    d = .datetime ∨ ∃ ds, ofMembers? ms = some ds ∧ d = .table ds := by
  cases ms with
  | nil =>
    cases h
    exact Or.inr ⟨[], rfl, rfl⟩
  | cons m ms =>
    obtain ⟨k, n⟩ := m
    rw [ofTable?] at h
    split at h
    · obtain ⟨-, h⟩ := Option.ite_none_right_eq_some.1 h
      cases h
      exact Or.inl rfl
    · obtain ⟨d, hd, h⟩ := Option.bind_eq_some_iff.1 h
      obtain ⟨ds, hds, h⟩ := Option.bind_eq_some_iff.1 h
      cases h
      refine Or.inr ⟨(k, d) :: ds, ?_, rfl⟩
      rw [ofMembers?, hd, hds]
      rfl

mutual
/-- What a node with its keys apart holds has them apart. -/
theorem apart_of_ofNode : (n : Node) → n.Apart → ∀ {d}, ofNode? n = some d → d.Apart
  | .scalar s _, _, d, h => by
    rw [ofNode?] at h
    cases s with
    | valueless => exact nomatch h
    | _ =>
      cases h
      constructor
  | .array _ items _, hn, d, h => by
    rw [ofNode?] at h
    obtain ⟨ds, hds, rfl⟩ := Option.map_eq_some_iff.1 h
    exact .array (apart_of_ofItems items hn.items hds)
  | .table _ ms _, hn, d, h => by
    rw [ofNode?] at h
    rcases cases_ofTable h with rfl | ⟨ds, hds, rfl⟩
    · exact .datetime
    · obtain ⟨hkeys, hnodes⟩ := apart_of_ofMembers ms hn.members.nodes hds
      exact .table (hkeys ▸ hn.members.keys) hnodes

theorem apart_of_ofItems : (ns : List Node) → (∀ n ∈ ns, n.Apart) → ∀ {ds}, ofItems? ns = some ds →
    ∀ d ∈ ds, d.Apart
  | [], _, ds, h => by
    cases h
    exact nofun
  | n :: ns, hns, ds, h => by
    obtain ⟨hn, hns⟩ := List.forall_mem_cons.1 hns
    obtain ⟨d, hd, h⟩ := Option.bind_eq_some_iff.1 h
    obtain ⟨ds, hds, h⟩ := Option.bind_eq_some_iff.1 h
    cases h
    exact List.forall_mem_cons.2 ⟨apart_of_ofNode n hn hd, apart_of_ofItems ns hns hds⟩

theorem apart_of_ofMembers : (ms : List (String × Node)) → (∀ m ∈ ms, m.2.Apart) →
    ∀ {ds}, ofMembers? ms = some ds → Entries.keys ds = Entries.keys ms ∧ ∀ m ∈ ds, m.2.Apart
  | [], _, ds, h => by
    cases h
    exact ⟨rfl, nofun⟩
  | (k, n) :: ms, hms, ds, h => by
    obtain ⟨hn, hms⟩ := List.forall_mem_cons.1 hms
    obtain ⟨d, hd, h⟩ := Option.bind_eq_some_iff.1 h
    obtain ⟨ds, hds, h⟩ := Option.bind_eq_some_iff.1 h
    cases h
    obtain ⟨hkeys, hnodes⟩ := apart_of_ofMembers ms hms hds
    exact ⟨congrArg (k :: ·) hkeys, List.forall_mem_cons.2 ⟨apart_of_ofNode n hn hd, hnodes⟩⟩
end

/-! ## Meaning -/

/-- The value that a datum means: itself, items and members in their order. A date means
    nothing. -/
inductive Means : Datum → Value → Prop
  | string (s : String) : Means (.string s) (.string s)
  | integer (n : Int64) : Means (.integer n) (.int n)
  | float (x : Float) : Means (.float x) (.float x)
  | bool (b : Bool) : Means (.bool b) (.bool b)
  | array {items : List Datum} {vs : List Value} (h : List.Forall₂ Means items vs) :
      Means (.array items) (.list vs)
  | table {ms : List (String × Datum)} {es : List (Key × Value)}
      (hkeys : Entries.keys es = (Entries.keys ms).map .str)
      (h : List.Forall₂ Means (ms.map (·.2)) (es.map (·.2))) : Means (.table ms) (.map es)

mutual
/-- A datum is converted to the value it means. -/
theorem means_of_ofToml : (d : Datum) → d.Apart → ∀ {v}, Value.ofToml d = .ok v → d.Means v
  | .string s, _, v, h => by
    cases h
    exact .string s
  | .integer n, _, v, h => by
    cases h
    exact .integer n
  | .float x, _, v, h => by
    cases h
    exact .float x
  | .bool b, _, v, h => by
    cases h
    exact .bool b
  | .datetime, _, v, h => nomatch h
  | .array items, hd, v, h => by
    obtain ⟨vs, hvs, rfl⟩ := exists_of_map_ok h
    cases hd with
    | array hitems => exact .array (means_of_ofTomlItems items hitems hvs)
  | .table ms, hd, v, h => by
    obtain ⟨es, hes, rfl⟩ := exists_of_map_ok h
    cases hd with
    | table hkeys hnodes =>
      obtain ⟨hsame, hmeans⟩ := means_of_ofTomlMembers ms hnodes hes
      have hnodup : (Entries.keys es).Nodup := by
        rw [hsame]
        exact hkeys.map fun _ _ => Key.str.inj
      rw [Value.ofEntries, Entries.ofList_of_nodup hnodup]
      exact .table hsame hmeans

theorem means_of_ofTomlItems : (ds : List Datum) → (∀ d ∈ ds, d.Apart) →
    ∀ {vs}, Value.ofTomlItems ds = .ok vs → List.Forall₂ Means ds vs
  | [], _, vs, h => by
    cases h
    exact .nil
  | d :: ds, hds, vs, h => by
    obtain ⟨hd, hds⟩ := List.forall_mem_cons.1 hds
    obtain ⟨v, hv, h⟩ := exists_of_bind_ok h
    obtain ⟨vs, hvs, h⟩ := exists_of_bind_ok h
    cases h
    exact .cons (means_of_ofToml d hd hv) (means_of_ofTomlItems ds hds hvs)

theorem means_of_ofTomlMembers : (ms : List (String × Datum)) → (∀ m ∈ ms, m.2.Apart) →
    ∀ {es}, Value.ofTomlMembers ms = .ok es → Entries.keys es = (Entries.keys ms).map .str ∧
      List.Forall₂ Means (ms.map (·.2)) (es.map (·.2))
  | [], _, es, h => by
    cases h
    exact ⟨rfl, .nil⟩
  | (k, d) :: ms, hms, es, h => by
    obtain ⟨hd, hms⟩ := List.forall_mem_cons.1 hms
    obtain ⟨v, hv, h⟩ := exists_of_bind_ok h
    obtain ⟨es, hes, h⟩ := exists_of_bind_ok h
    cases h
    obtain ⟨hsame, hmeans⟩ := means_of_ofTomlMembers ms hms hes
    exact ⟨congrArg (Key.str k :: ·) hsame, .cons (means_of_ofToml d hd hv) hmeans⟩
end

end PhpScribe.Toml.Datum
