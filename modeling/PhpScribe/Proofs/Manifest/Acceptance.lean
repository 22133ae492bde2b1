/-
  PhpScribe.Proofs.Manifest.Acceptance — which documents are accepted, as what, and how the
  others are refused.

  A text in the shape of a manifest is accepted exactly when each of its defaults is given
  once at most and holds no date (`Given.Sound`). Then its members are those of the
  document, in the same order, each with what its default means (`Outline.Becomes`).
  Otherwise the first default that is at fault is reported, the constants in front of the
  fields and these in front of the arguments, wherever they stand in the document: at the
  place of the switch when it is given twice, even with a date in its value, and at the
  place of the value otherwise (`Given.Offends`). `parse_decides` says all of this of the
  text itself, with the document that it spells.
-/

import PhpScribe.Proofs.Manifest.Document

namespace PhpScribe.Manifest

open Toml (Datum Span)

/-! ## Defaults -/

namespace Given

def IsNull (null : Option (Bool × Span)) : Prop := ∃ span, null = some (true, span)

/-- Given once at most, and without a date. -/
structure Sound (g : Given) : Prop where
  once : g.default = none ∨ ¬ IsNull g.null
  dateless : ∀ p ∈ g.default, p.1.hasDate = false

/-- How a default is at fault. One that is given twice is so whatever its value holds. -/
inductive Offends (file : String) : Given → Fault → Prop
  | twice (p : Datum × Span) (span : Span) : Offends file ⟨some p, some (true, span)⟩
      (.invalid "a default value and null_default cannot both be set" file span)
  | dated {d : Datum} {null : Option (Bool × Span)} (span : Span) (hnull : ¬ IsNull null)
      (hdate : d.hasDate = true) : Offends file ⟨some (d, span), null⟩
      (.invalid "cannot render datetime as a PHP literal" file span)

inductive Means : Given → Option Value → Prop
  | absent {null : Option (Bool × Span)} (hnull : ¬ IsNull null) : Means ⟨none, null⟩ none
  | null (span : Span) : Means ⟨none, some (true, span)⟩ (some .null)
  | value {d : Datum} {v : Value} {null : Option (Bool × Span)} (span : Span) (hnull : ¬ IsNull null)
      (hd : d.Means v) : Means ⟨some (d, span), null⟩ (some v)

variable {file : String} {g : Given} {f : Fault} {d : Datum} {span : Span} {null : Option (Bool × Span)}

theorem cases_not_isNull (h : ¬ IsNull null) : null = none ∨ ∃ span, null = some (false, span) := by
  rcases null with _ | ⟨_ | _, span⟩
  · exact Or.inl rfl
  · exact Or.inr ⟨span, rfl⟩
  · exact absurd ⟨span, rfl⟩ h

/-- A value that is given once is at fault when it holds a date. -/
theorem fault?_of_not_isNull (hnull : ¬ IsNull null) : fault? file ⟨some (d, span), null⟩ =
    if d.hasDate then some (.invalid LiteralError.datetime.message file span) else none := by
  rcases cases_not_isNull hnull with rfl | ⟨_, rfl⟩ <;> rfl

theorem sound_of_fault (h : g.fault? file = none) : g.Sound := by
  obtain ⟨_ | ⟨d, span⟩, null⟩ := g
  · exact ⟨Or.inl rfl, nofun⟩
  · by_cases hnull : IsNull null
    · obtain ⟨switch, rfl⟩ := hnull
      exact nomatch h
    · rw [fault?_of_not_isNull hnull] at h
      refine ⟨Or.inr hnull, fun p hp => ?_⟩
      cases hp
      cases hdate : d.hasDate with
      | false => rfl
      | true =>
        rw [hdate] at h
        exact nomatch h

theorem offends_of_fault (h : g.fault? file = some f) : g.Offends file f := by
  obtain ⟨_ | ⟨d, span⟩, null⟩ := g
  · exact nomatch h
  · by_cases hnull : IsNull null
    · obtain ⟨switch, rfl⟩ := hnull
      cases h
      exact .twice _ _
    · rw [fault?_of_not_isNull hnull] at h
      obtain ⟨hdate, h⟩ := Option.ite_none_right_eq_some.1 h
      cases h
      exact .dated span hnull hdate

theorem not_sound_of_offends (h : g.Offends file f) : ¬ g.Sound := by
  intro hsound
  cases h with
  | twice p span => exact hsound.once.elim nofun (absurd ⟨span, rfl⟩)
  | dated span _ hdate =>
    have hfree := hsound.dateless _ rfl
    rw [hdate] at hfree
    exact nomatch hfree

/-- A default has no fault exactly when it is sound. -/
theorem fault?_iff_sound : g.fault? file = none ↔ g.Sound := by
  refine ⟨sound_of_fault, fun h => ?_⟩
  cases hfault : g.fault? file with
  | none => rfl
  | some f => exact absurd h (not_sound_of_offends (offends_of_fault hfault))

/-- A default that is sound is what it stands for. -/
theorem means_of_sound (hg : g.Apart) (h : g.Sound) : g.Means g.value? := by
  obtain ⟨_ | ⟨d, span⟩, null⟩ := g
  · by_cases hnull : IsNull null
    · obtain ⟨switch, rfl⟩ := hnull
      exact .null switch
    · rcases cases_not_isNull hnull with rfl | ⟨_, rfl⟩
      · exact .absent hnull
      · exact .absent hnull
  · have hdateless : PhpScribe.fault? (Value.ofToml d) = none := by
      rw [Value.fault?_ofToml, h.dateless _ rfl]
      rfl
    obtain ⟨v, hv⟩ := fault?_eq_none.1 hdateless
    have hvalue : value? ⟨some (d, span), null⟩ = some v := congrArg Except.toOption hv
    rw [hvalue]
    exact .value span (h.once.resolve_left nofun) (Datum.means_of_ofToml d (hg _ rfl) hv)

end Given

/-! ## Manifests -/

def Draft.Becomes {α β : Type} (complete : α → Option Value → β) (d : Draft α) (b : β) : Prop :=
  ∃ v, d.given.Means v ∧ b = complete d.base v

structure MethodDraft.Becomes (d : MethodDraft) (m : MethodEntry) : Prop where
  rest : m = { d.base with arguments := m.arguments }
  arguments : List.Forall₂ (Draft.Becomes fun a v => { a with default := v }) d.arguments m.arguments

/-- The manifest has what the outline has, in the same order, each default as what it means. -/
structure Outline.Becomes (o : Outline) (m : Manifest) : Prop where
  classEntry : m.classEntry = o.classEntry
  constants : List.Forall₂ (Draft.Becomes fun c v => { c with value := v }) o.constants m.constants
  fields : List.Forall₂ (Draft.Becomes fun f v => { f with default := v }) o.fields m.fields
  methods : List.Forall₂ MethodDraft.Becomes o.methods m.methods

def Outline.FirstOffends (file : String) (o : Outline) (f : Fault) : Prop :=
  ∃ before g after, o.givens = before ++ g :: after ∧ (∀ b ∈ before, b.Sound) ∧ g.Offends file f

variable {file : String}

theorem becomes_of_drafts {α β : Type} {f : Draft α → Except Fault β} {complete : α → Option Value → β}
    (hf : ∀ d, f d = (default? file d.default d.null).map (complete d.base)) {ds : List (Draft α)}
    {bs : List β} (hds : ∀ d ∈ ds, d.given.Apart) (h : ds.mapM f = .ok bs) :
    List.Forall₂ (Draft.Becomes complete) ds bs := by
  refine forall₂_of_mapM (fun d hd b hb => ?_) h
  rw [hf] at hb
  obtain ⟨v, hv, rfl⟩ := exists_of_map_ok hb
  obtain ⟨hfault, rfl⟩ := value_of_default (g := d.given) hv
  exact ⟨_, Given.means_of_sound (hds d hd) (Given.sound_of_fault hfault), rfl⟩

theorem becomes_of_method {d : MethodDraft} {m : MethodEntry} (hd : ∀ a ∈ d.arguments, a.given.Apart)
    (h : methodOf file d = .ok m) : d.Becomes m := by
  obtain ⟨as, has, rfl⟩ := exists_of_map_ok h
  exact ⟨rfl, becomes_of_drafts (fun _ => rfl) hd has⟩

/-- What an accepted outline becomes. -/
theorem becomes_of_outline {o : Outline} {m : Manifest} (ho : ∀ g ∈ o.givens, g.Apart)
    (h : ofOutline file o = .ok m) : o.Becomes m := by
  obtain ⟨constants, hconstants, h⟩ := exists_of_bind_ok h
  obtain ⟨fields, hfields, h⟩ := exists_of_bind_ok h
  obtain ⟨methods, hmethods, h⟩ := exists_of_bind_ok h
  cases h
  simp only [Outline.givens, List.forall_mem_append, List.forall_mem_map, List.forall_mem_flatMap] at ho
  obtain ⟨⟨hc, hf⟩, hm⟩ := ho
  exact {
    classEntry := rfl
    constants := becomes_of_drafts (fun _ => rfl) hc hconstants
    fields := becomes_of_drafts (fun _ => rfl) hf hfields
    methods := forall₂_of_mapM (fun d hd _ => becomes_of_method (hm d hd)) hmethods }

/-- An outline is accepted when all its defaults are sound. -/
theorem accepts_iff (o : Outline) : (∃ m, ofOutline file o = .ok m) ↔ ∀ g ∈ o.givens, g.Sound := by
  rw [← fault?_eq_none, fault?_ofOutline, List.findSome?_eq_none_iff]
  exact forall₂_congr fun _ _ => Given.fault?_iff_sound

/-- An outline is refused for the first default that is not sound. -/
theorem firstOffends_of_error {o : Outline} {f : Fault} (h : ofOutline file o = .error f) :
    o.FirstOffends file f := by
  have hfirst := fault?_eq_some.2 h
  rw [fault?_ofOutline] at hfirst
  obtain ⟨before, g, after, heq, hg, hbefore⟩ := List.findSome?_eq_some_iff.1 hfirst
  exact ⟨before, g, after, heq, fun b hb => Given.fault?_iff_sound.1 (hbefore b hb), Given.offends_of_fault hg⟩

/-- A text in the shape of a manifest is accepted exactly when its defaults are sound. Then
    it becomes what its document says; otherwise the first default at fault is reported. -/
theorem parse_decides (text file : String) {o : Outline}
    (ho : (Toml.parse? text).bind outline? = some o) :
    (∃ document, Toml.parse? text = some document ∧ o.Drawn document) ∧
    ((∃ m, parse text file = .ok m) ↔ ∀ g ∈ o.givens, g.Sound) ∧
    (∀ m, parse text file = .ok m → o.Becomes m) ∧
    ∀ f, parse text file = .error f → o.FirstOffends file f := by
  obtain ⟨document, hdocument, houtline⟩ := Option.bind_eq_some_iff.1 ho
  have hdrawn := drawn_of_outline houtline
  have hparse : parse text file = ofOutline file o := by
    rw [parse, ho]
  rw [hparse]
  exact ⟨⟨document, hdocument, hdrawn⟩, accepts_iff o,
    fun _ => becomes_of_outline (apart_givens (Toml.apart_of_parse hdocument) hdrawn),
    fun _ => firstOffends_of_error⟩

/-- An argument with a date, and behind it in the text a field that is given twice and has a
    date as well: the field is reported, at its switch. -/
theorem parse_decides_out_of_order :
    let text := "[class]\nname = \"A\"\n[[methods]]\nname = \"f\"\n" ++
      "args = [\x7b name = \"x\", default = 1979-05-27 \x7d]\n" ++
      "[[fields]]\nname = \"y\"\nnull_default = true\ndefault = [1, [1979-05-27]]\n"
    let f := Fault.invalid "a default value and null_default cannot both be set" defaultName ⟨125, 4⟩
    ∃ o, (Toml.parse? text).bind outline? = some o ∧ parse text defaultName = .error f ∧
      o.FirstOffends defaultName f := by
  intro text f
  have hfault : PhpScribe.fault? (parse text defaultName) = some f := by decide +kernel
  have hparse := fault?_eq_some.1 hfault
  have hshape : (Toml.parse? text).bind outline? ≠ none := by
    intro hnone
    rw [parse, hnone] at hparse
    exact Fault.noConfusion (Except.error.inj hparse)
  obtain ⟨o, ho⟩ := Option.ne_none_iff_exists'.1 hshape
  obtain ⟨-, -, -, hfirst⟩ := parse_decides text defaultName ho
  exact ⟨o, ho, hparse, hfirst f hparse⟩

end PhpScribe.Manifest
