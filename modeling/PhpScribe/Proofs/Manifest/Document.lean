/-
  PhpScribe.Proofs.Manifest.Document — the outline of a manifest beside its document.

  The constants, the fields, the methods and the arguments of each method are those of the
  document, one for one and in its order (`drawn_of_outline`). The default of a member is
  what stands under the name for it and is there exactly when something stands there, and
  its `null_default` is the same of its own name (`Draft.Drawn`); each has the place of
  what stands there. A default that is drawn from a document has its keys apart
  (`apart_givens`).
-/

import Mathlib.Data.List.Forall2
import PhpScribe.Manifest.Draft
import PhpScribe.Proofs.Manifest.Lowering
import PhpScribe.Proofs.Toml.Conversion

namespace PhpScribe.Manifest

open Toml (Datum Node Members Span)

/-! ## Records -/

/-- What stands in a record under a name; an array has its members at the places of
    their names. -/
def member? (names : List String) (k : String) : Node → Option Node
  | .table _ members _ => Entries.get? k members
  | .array _ items _ => items[names.idxOf k]?
  | .scalar _ _ => none

def items : Option Node → List Node
  | some (.array _ items _) => items
  | _ => []

theorem record_eq {names : List String} {least : Nat} {n : Node} {r : Record}
    (h : record? names least n = some r) : r = fun k => member? names k n := by
  cases n with
  | scalar => exact nomatch h
  | array =>
    obtain ⟨-, h⟩ := Option.ite_none_right_eq_some.1 h
    exact (Option.some.inj h).symm
  | table =>
    obtain ⟨-, h⟩ := Option.ite_none_right_eq_some.1 h
    exact (Option.some.inj h).symm

section

variable {α : Type} {r : Record} {k : String} {shape : Node → Option α}

/-- A member that may be missing is there when it is read, and as its shape says. -/
theorem rel_of_optional {R : Node → α → Prop} (hR : ∀ {n a}, shape n = some a → R n a) {o : Option α}
    (h : r.optional k shape = some o) : Option.Rel R (r k) o := by
  rw [Record.optional] at h
  split at h
  · next hnone =>
    cases h
    rw [hnone]
    exact .none
  · next n hsome =>
    obtain ⟨a, ha, rfl⟩ := Option.map_eq_some_iff.1 h
    rw [hsome]
    exact .some (hR ha)

theorem forall₂_of_mapM_some {ns : List Node} {as : List α} (h : ns.mapM shape = some as) :
    List.Forall₂ (fun n a => shape n = some a) ns as := by
  induction ns generalizing as with
  | nil =>
    cases h
    exact .nil
  | cons n ns ih =>
    rw [List.mapM_cons] at h
    obtain ⟨a, ha, h⟩ := Option.bind_eq_some_iff.1 h
    obtain ⟨as, has, h⟩ := Option.bind_eq_some_iff.1 h
    cases h
    exact .cons ha (ih has)

/-- A list that may be missing is read item by item. -/
theorem forall₂_of_default {as : List α} (h : r.default k (list? shape) [] = some as) :
    List.Forall₂ (fun n a => shape n = some a) (items (r k)) as := by
  obtain ⟨o, ho, rfl⟩ := Option.map_eq_some_iff.1 h
  have hrel := rel_of_optional id ho
  generalize r k = stands at hrel
  cases hrel with
  | none => exact .nil
  | @some n as hlist =>
    cases n with
    | array _ ns _ => exact forall₂_of_mapM_some hlist
    | _ => exact nomatch hlist

end

/-! ## Members -/

/-- A draft as it stands in the document: its default is what the node under the name `k`
    holds, its switch is a Boolean under its own name, and each has the place of its node. -/
structure Draft.Drawn {α : Type} (shape : Node → Option (Draft α)) (names : List String) (k : String)
    (n : Node) (d : Draft α) : Prop where
  shaped : shape n = some d
  default : Option.Rel (fun v p => Datum.ofNode? v = some p.1 ∧ p.2 = v.span) (member? names k n) d.default
  null : Option.Rel (fun v p => v = .scalar (.bool p.1) p.2) (member? names "null_default" n) d.null

theorem holds_of_datum? {n : Node} {p : Datum × Span} (h : datum? n = some p) :
    Datum.ofNode? n = some p.1 ∧ p.2 = n.span := by
  obtain ⟨d, hd, rfl⟩ := Option.map_eq_some_iff.1 h
  exact ⟨hd, rfl⟩

/-- Only a Boolean is read as a switch. -/
theorem eq_of_null? {n : Node} {p : Bool × Span} (h : null? n = some p) : n = .scalar (.bool p.1) p.2 := by
  obtain ⟨b, hb, rfl⟩ := Option.map_eq_some_iff.1 h
  unfold bool? at hb
  split at hb
  · cases hb
    rfl
  · exact nomatch hb

def constantNames : List String := ["name", "visibility", "type", "static", "value", "null_default"]

def fieldNames : List String := ["name", "visibility", "type", "static", "default", "null_default"]

def argumentNames : List String := ["name", "type", "default", "null_default"]

def methodNames : List String := ["name", "visibility", "static", "returns", "body", "doc", "args"]

theorem drawn_of_record {α : Type} {shape : Node → Option (Draft α)} {names : List String} {least : Nat}
    {k : String} {n : Node} {r : Record} {d : Draft α} (hr : record? names least n = some r)
    (hshaped : shape n = some d) (hdefault : r.optional k datum? = some d.default)
    (hnull : r.optional "null_default" null? = some d.null) : d.Drawn shape names k n := by
  cases record_eq hr
  exact ⟨hshaped, rel_of_optional holds_of_datum? hdefault, rel_of_optional eq_of_null? hnull⟩

theorem drawn_of_constant {n : Node} {d : Draft Constant} (h : constant? n = some d) :
    d.Drawn constant? constantNames "value" n := by
  have hshaped := h
  obtain ⟨r, hr, h⟩ := Option.bind_eq_some_iff.1 h
  simp only [Option.bind_eq_bind, Option.bind_eq_some_iff] at h
  obtain ⟨_, _, _, _, _, _, _, _, _, hdefault, _, hnull, h⟩ := h
  cases h
  exact drawn_of_record hr hshaped hdefault hnull

theorem drawn_of_field {n : Node} {d : Draft Field} (h : field? n = some d) :
    d.Drawn field? fieldNames "default" n := by
  have hshaped := h
  obtain ⟨r, hr, h⟩ := Option.bind_eq_some_iff.1 h
  simp only [Option.bind_eq_bind, Option.bind_eq_some_iff] at h
  obtain ⟨_, _, _, _, _, _, _, _, _, hdefault, _, hnull, h⟩ := h
  cases h
  exact drawn_of_record hr hshaped hdefault hnull

theorem drawn_of_argument {n : Node} {d : Draft Argument} (h : argument? n = some d) :
    d.Drawn argument? argumentNames "default" n := by
  have hshaped := h
  obtain ⟨r, hr, h⟩ := Option.bind_eq_some_iff.1 h
  simp only [Option.bind_eq_bind, Option.bind_eq_some_iff] at h
  obtain ⟨_, _, _, _, _, hdefault, _, hnull, h⟩ := h
  cases h
  exact drawn_of_record hr hshaped hdefault hnull

structure MethodDraft.Drawn (n : Node) (d : MethodDraft) : Prop where
  shaped : method? n = some d
  arguments : List.Forall₂ (Draft.Drawn argument? argumentNames "default")
    (items (member? methodNames "args" n)) d.arguments

theorem drawn_of_method {n : Node} {d : MethodDraft} (h : method? n = some d) : d.Drawn n := by
  have hshaped := h
  obtain ⟨r, hr, h⟩ := Option.bind_eq_some_iff.1 h
  simp only [Option.bind_eq_bind, Option.bind_eq_some_iff] at h
  obtain ⟨_, _, _, _, _, _, _, _, _, _, _, _, _, harguments, h⟩ := h
  cases h
  cases record_eq hr
  exact ⟨hshaped, (forall₂_of_default harguments).imp fun _ _ => drawn_of_argument⟩

/-! ## Outlines -/

structure Outline.Drawn (document : Members) (o : Outline) : Prop where
  classEntry : (Entries.get? "class" document).bind class? = some o.classEntry
  constants : List.Forall₂ (Draft.Drawn constant? constantNames "value")
    (items (Entries.get? "constants" document)) o.constants
  fields : List.Forall₂ (Draft.Drawn field? fieldNames "default")
    (items (Entries.get? "fields" document)) o.fields
  methods : List.Forall₂ MethodDraft.Drawn (items (Entries.get? "methods" document)) o.methods

/-- An outline has the members of its document, one for one and in the same order. -/
theorem drawn_of_outline {document : Members} {o : Outline} (h : outline? document = some o) :
    o.Drawn document := by
  obtain ⟨r, hr, h⟩ := Option.bind_eq_some_iff.1 h
  simp only [Option.bind_eq_bind, Option.bind_eq_some_iff] at h
  obtain ⟨_, hclass, _, hconstants, _, hfields, _, hmethods, h⟩ := h
  cases h
  cases record_eq hr
  exact {
    classEntry := hclass
    constants := (forall₂_of_default hconstants).imp fun _ _ => drawn_of_constant
    fields := (forall₂_of_default hfields).imp fun _ _ => drawn_of_field
    methods := (forall₂_of_default hmethods).imp fun _ _ => drawn_of_method }

/-! ## Keys -/

def Given.Apart (g : Given) : Prop := ∀ p ∈ g.default, p.1.Apart

theorem apart_member {names : List String} {k : String} {n m : Node} (hn : n.Apart)
    (h : member? names k n = some m) : m.Apart := by
  cases n with
  | scalar => exact nomatch h
  | array => exact hn.items m (List.mem_of_getElem? h)
  | table => exact hn.members.get h

theorem apart_items {o : Option Node} (ho : ∀ n ∈ o, n.Apart) : ∀ n ∈ items o, n.Apart := by
  rcases o with _ | (_ | _ | _)
  · exact nofun
  · exact nofun
  · exact (ho _ rfl).items
  · exact nofun

theorem Draft.Drawn.apart {α : Type} {shape : Node → Option (Draft α)} {names : List String} {k : String}
    {n : Node} {d : Draft α} (h : d.Drawn shape names k n) (hn : n.Apart) : d.given.Apart := by
  intro p hp
  have hdefault : d.default = some p := hp
  have hrel := h.default
  rw [hdefault] at hrel
  generalize hm : member? names k n = m at hrel
  cases hrel with
  | some hdatum => exact Datum.apart_of_ofNode _ (apart_member hn hm) hdatum.1

theorem forall_of_forall₂ {α β : Type} {R : α → β → Prop} {p : α → Prop} {q : β → Prop}
    (hq : ∀ {a b}, R a b → p a → q b) {as : List α} {bs : List β} (h : List.Forall₂ R as bs)
    (hp : ∀ a ∈ as, p a) : ∀ b ∈ bs, q b := by
  induction h with
  | nil => exact nofun
  | cons hab _ ih =>
    obtain ⟨ha, has⟩ := List.forall_mem_cons.1 hp
    exact List.forall_mem_cons.2 ⟨hq hab ha, ih has⟩

/-- The defaults of a document have their keys apart. -/
theorem apart_givens {document : Members} {o : Outline} (hdocument : document.Apart)
    (h : o.Drawn document) : ∀ g ∈ o.givens, g.Apart := by
  have hitems (k : String) : ∀ n ∈ items (Entries.get? k document), n.Apart :=
    apart_items fun _ hn => hdocument.get hn
  have hconstants := forall_of_forall₂ (fun hd => Draft.Drawn.apart hd) h.constants (hitems "constants")
  have hfields := forall_of_forall₂ (fun hd => Draft.Drawn.apart hd) h.fields (hitems "fields")
  have hmethods : ∀ m ∈ o.methods, ∀ a ∈ m.arguments, a.given.Apart :=
    forall_of_forall₂ (fun hm hn => forall_of_forall₂ (fun hd => Draft.Drawn.apart hd) hm.arguments
      (apart_items fun _ => apart_member hn)) h.methods (hitems "methods")
  intro g hg
  simp only [Outline.givens, List.mem_append, List.mem_map, List.mem_flatMap] at hg
  rcases hg with (⟨d, hd, rfl⟩ | ⟨d, hd, rfl⟩) | ⟨m, hm, d, hd, rfl⟩
  · exact hconstants d hd
  · exact hfields d hd
  · exact hmethods m hm d hd

end PhpScribe.Manifest
