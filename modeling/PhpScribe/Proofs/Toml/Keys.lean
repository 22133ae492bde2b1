/-
  PhpScribe.Proofs.Toml.Keys — the keys of a document's tables.

  No table of a document has a key twice, at any depth (`apart_of_parse`): a line and a
  header add a key only where it is not, and change what stands under a key in its place
  (`keeps_changeAt`, `keeps_assign`); a table that a header takes over from the way to
  another loses its old entry first. This carries through the reader, whose every token
  moves it in one of a few ways (`Reader.Move`): between tokens the tables of the document
  and the members gathered in open braces have their keys apart.
-/

import Mathlib.Data.List.Nodup
import PhpScribe.Proofs.Entries
import PhpScribe.Toml.Reader

namespace PhpScribe.Toml

inductive Node.Apart : Node → Prop
  | scalar (s : Scalar) (span : Span) : Apart (.scalar s span)
  | array {items : List Node} (ofHeaders : Bool) (span : Span) (h : ∀ n ∈ items, Apart n) :
      Apart (.array ofHeaders items span)
  | table {ms : Members} (origin : Origin) (span : Span) (hkeys : (Entries.keys ms).Nodup)
      (h : ∀ m ∈ ms, Apart m.2) : Apart (.table origin ms span)

/-- No key comes twice among the members, nor in a table below them. -/
structure Members.Apart (ms : Members) : Prop where
  keys : (Entries.keys ms).Nodup
  nodes : ∀ m ∈ ms, m.2.Apart

theorem Members.Apart.table {ms : Members} (h : ms.Apart) (origin : Origin) (span : Span) :
    (Node.table origin ms span).Apart := .table origin span h.keys h.nodes

theorem Node.Apart.items {ofHeaders : Bool} {items : List Node} {span : Span}
    (h : (Node.array ofHeaders items span).Apart) : ∀ n ∈ items, n.Apart := by
  cases h with
  | array _ _ h => exact h

theorem Node.Apart.members {origin : Origin} {ms : Members} {span : Span}
    (h : (Node.table origin ms span).Apart) : ms.Apart := by
  cases h with
  | table _ _ hkeys h => exact ⟨hkeys, h⟩

/-! ## Members -/

namespace Members

variable {ms ms' : Members} {k : String} {n : Node}

theorem apart_nil : Apart [] := ⟨List.nodup_nil, nofun⟩

theorem Apart.snoc (h : ms.Apart) (hk : k ∉ Entries.keys ms) (hn : n.Apart) :
    Apart (ms ++ [(k, n)]) where
  keys := by
    rw [Entries.keys, List.map_append]
    refine List.nodup_append.2 ⟨h.keys, List.nodup_singleton _, fun a ha b hb => ?_⟩
    rintro rfl
    cases List.mem_singleton.1 hb
    exact hk ha
  nodes m hm := by
    rcases List.mem_append.1 hm with hm | hm
    · exact h.nodes m hm
    · cases List.mem_singleton.1 hm
      exact hn

theorem Apart.put (h : ms.Apart) (k : String) (hn : n.Apart) : Apart (Entries.put k n ms) where
  keys := Entries.nodup_keys_put k n h.keys
  nodes m hm := by
    rcases Entries.mem_of_mem_put hm with rfl | hm
    · exact hn
    · exact h.nodes m hm

theorem Apart.get (h : ms.Apart) (hn : Entries.get? k ms = some n) : n.Apart :=
  h.nodes _ (Entries.mem_of_get? hn)

theorem Apart.without (h : ms.Apart) (k : String) : Apart (ms.filter (·.1 != k)) where
  keys := h.keys.sublist (List.filter_sublist.map _)
  nodes m hm := h.nodes m (List.mem_of_mem_filter hm)

def Keeps (f : Members → Option Members) : Prop :=
  ∀ {ms ms'}, Apart ms → f ms = some ms' → Apart ms'

theorem keeps_add (hn : n.Apart) (k : String) : Keeps (add k n) := by
  intro ms ms' h hadd
  rw [add] at hadd
  split at hadd
  · next hnone =>
    cases hadd
    exact h.snoc (Entries.get?_eq_none.1 hnone) hn
  · exact nomatch hadd

variable {f : Members → Option Members}

theorem apart_changeLast (hf : Keeps f) {items items' : List Node} (h : ∀ n ∈ items, n.Apart)
    (hchange : changeLast f items = some items') : ∀ n ∈ items', n.Apart := by
  fun_induction changeLast f items generalizing items' with
  | case1 => exact nomatch hchange
  | case2 origin members span =>
    obtain ⟨ms, hms, rfl⟩ := Option.map_eq_some_iff.1 hchange
    have hlast := (h _ (List.mem_singleton_self _)).members
    intro n hn
    cases List.mem_singleton.1 hn
    exact (hf hlast hms).table origin span
  | case3 => exact nomatch hchange
  | case4 m n ns ih =>
    obtain ⟨ns', hns, rfl⟩ := Option.map_eq_some_iff.1 hchange
    have hrest := ih (fun n hn => h n (List.mem_cons_of_mem _ hn)) hns
    intro n hn
    rcases List.mem_cons.1 hn with rfl | hn
    · exact h _ List.mem_cons_self
    · exact hrest n hn

theorem keeps_changeAt (hf : Keeps f) (way : Way) : Keeps (changeAt f way) := by
  induction way with
  | nil => exact hf
  | cons k ks ih =>
    intro ms ms' h hchange
    rw [changeAt] at hchange
    split at hchange
    · next hnone =>
      obtain ⟨inner, hinner, rfl⟩ := Option.map_eq_some_iff.1 hchange
      exact h.snoc (Entries.get?_eq_none.1 hnone) ((ih apart_nil hinner).table _ _)
    · exact nomatch hchange
    · next origin inner span _ hsome =>
      obtain ⟨inner, hinner, rfl⟩ := Option.map_eq_some_iff.1 hchange
      exact h.put _ ((ih (h.get hsome).members hinner).table _ _)
    · next items span hsome =>
      obtain ⟨items, hitems, rfl⟩ := Option.map_eq_some_iff.1 hchange
      exact h.put _ (.array _ _ (apart_changeLast ih (h.get hsome).items hitems))
    · exact nomatch hchange
    · exact nomatch hchange

theorem keeps_openTable (k : KeyPart) (span : Span) : Keeps (openTable k span) := by
  intro ms ms' h hopen
  rw [openTable] at hopen
  split at hopen
  · next hnone =>
    cases hopen
    exact h.snoc (Entries.get?_eq_none.1 hnone) (apart_nil.table _ _)
  · next inner _ hsome =>
    cases hopen
    have hgone : k.name ∉ Entries.keys (ms.filter (·.1 != k.name)) := by
      simp [Entries.keys]
    exact (h.without k.name).snoc hgone ((h.get hsome).members.table _ _)
  · cases hopen

theorem keeps_openItem (k : KeyPart) (span : Span) : Keeps (openItem k span) := by
  intro ms ms' h hopen
  have hitem : (Node.table .header [] span).Apart := apart_nil.table _ _
  rw [openItem] at hopen
  split at hopen
  · next hnone =>
    cases hopen
    refine h.snoc (Entries.get?_eq_none.1 hnone) (.array _ _ fun n hn => ?_)
    cases List.mem_singleton.1 hn
    exact hitem
  · next items first hsome =>
    cases hopen
    refine h.put _ (.array _ _ fun n hn => ?_)
    rcases List.mem_append.1 hn with hn | hn
    · exact (h.get hsome).items n hn
    · cases List.mem_singleton.1 hn
      exact hitem
  · exact nomatch hopen

theorem keeps_assign (hn : n.Apart) (last : String) (way : Way) : Keeps (assign n last way) := by
  induction way with
  | nil => exact keeps_add hn last
  | cons k ks ih =>
    intro ms ms' h hassign
    rw [assign] at hassign
    split at hassign
    · next hnone =>
      obtain ⟨inner, hinner, rfl⟩ := Option.map_eq_some_iff.1 hassign
      exact h.snoc (Entries.get?_eq_none.1 hnone) ((ih apart_nil hinner).table _ _)
    · next inner span hsome =>
      obtain ⟨inner, hinner, rfl⟩ := Option.map_eq_some_iff.1 hassign
      exact h.put _ ((ih (h.get hsome).members hinner).table _ _)
    · next inner span hsome =>
      split at hassign
      · exact nomatch hassign
      · obtain ⟨inner, hinner, rfl⟩ := Option.map_eq_some_iff.1 hassign
        exact h.put _ ((ih (h.get hsome).members hinner).table _ _)
    · next items span hsome =>
      split at hassign
      · exact nomatch hassign
      · obtain ⟨items, hitems, rfl⟩ := Option.map_eq_some_iff.1 hassign
        exact h.put _ (.array _ _ (apart_changeLast ih (h.get hsome).items hitems))
    all_goals exact nomatch hassign

end Members

/-! ## Documents -/

namespace Document

variable {d d' : Document} {ks : List KeyPart} {span : Span} {n : Node}

theorem apart_table (h : d.root.Apart) (ht : d.table ks span = some d') : d'.root.Apart := by
  obtain ⟨⟨way, last⟩, -, ht⟩ := Option.bind_eq_some_iff.1 ht
  obtain ⟨root, hroot, ht⟩ := Option.bind_eq_some_iff.1 ht
  cases ht
  exact Members.keeps_changeAt (Members.keeps_openTable last span) way h hroot

theorem apart_item (h : d.root.Apart) (ht : d.item ks span = some d') : d'.root.Apart := by
  obtain ⟨⟨way, last⟩, -, ht⟩ := Option.bind_eq_some_iff.1 ht
  obtain ⟨root, hroot, ht⟩ := Option.bind_eq_some_iff.1 ht
  cases ht
  exact Members.keeps_changeAt (Members.keeps_openItem last span) way h hroot

theorem apart_line (h : d.root.Apart) (hn : n.Apart) (ht : d.line ks n = some d') : d'.root.Apart := by
  obtain ⟨⟨way, last⟩, -, ht⟩ := Option.bind_eq_some_iff.1 ht
  obtain ⟨root, hroot, ht⟩ := Option.bind_eq_some_iff.1 ht
  cases ht
  exact Members.keeps_changeAt (Members.keeps_assign hn last.name way) d.current h hroot

end Document

/-! ## The reader -/

def Frame.Apart : Frame → Prop
  | .array _ done => ∀ n ∈ done, n.Apart
  | .table _ done _ => Members.Apart done

namespace Reader

structure Apart (r : Reader) : Prop where
  frames : ∀ f ∈ r.frames, f.Apart
  root : r.document.root.Apart

/-- What one token does to a reader in a phase that gathers no scalar. -/
inductive Move (r : Reader) (l : Lexeme) : Reader → Prop
  | goto (p : Phase) : Move r l (r.goto p)
  | item {key : List KeyPart} {span : Span} {d : Document} (h : r.document.item key span = some d) :
      Move r l { r with phase := .lineEnd, document := d }
  | assignment {place : Place} {key : List KeyPart} {r' : Reader}
      (h : r.beginAssignment place key = some r') : Move r l r'
  | header {place : Place} {key : List KeyPart} {r' : Reader}
      (h : r.closeHeader place key l.stop = some r') : Move r l r'
  | value {r' : Reader} (h : r.beginValue l = some r') : Move r l r'
  | closeArray {r' : Reader} (h : r.closeArray l.stop = some r') : Move r l r'
  | closeTable {r' : Reader} (h : r.closeTable l.stop = some r') : Move r l r'

variable {r r' : Reader} {l : Lexeme}

theorem move_of_stepPlain (h : r.stepPlain l = some r') : Move r l r' := by
  have hgoto {p : Phase} (h : some (r.goto p) = some r') : Move r l r' := Option.some.inj h ▸ .goto p
  have hstay (h : some r = some r') : Move r l r' := hgoto h
  have hopen (h : (if r.isOpen then some r else none) = some r') : Move r l r' :=
    hstay (Option.ite_none_right_eq_some.1 h).2
  have hkey {f : KeyPart → Phase} (h : (keyPart? l).map (fun k => r.goto (f k)) = some r') : Move r l r' := by
    obtain ⟨k, -, rfl⟩ := Option.map_eq_some_iff.1 h
    exact .goto (f k)
  have hitem {key : List KeyPart} {span : Span}
      (h : (r.document.item key span).map (fun d => { r with phase := .lineEnd, document := d }) = some r') :
      Move r l r' := by
    obtain ⟨d, hd, rfl⟩ := Option.map_eq_some_iff.1 h
    exact .item hd
  unfold stepPlain at h
  -- one case for each phase and token of the table; a case that refuses the token is the last
  split at h
  all_goals first
    | exact hstay h
    | exact hgoto h
    | exact hkey h
    | exact hopen h
    | exact hitem h
    | exact .assignment h
    | exact .header h
    | exact .value h
    | exact .closeArray h
    | exact .closeTable h
    | exact nomatch h

theorem Apart.goto (hr : r.Apart) (p : Phase) : (r.goto p).Apart := ⟨hr.frames, hr.root⟩

theorem Apart.top {f : Frame} {frames : List Frame} (hr : r.Apart) (h : r.frames = f :: frames) :
    f.Apart ∧ ∀ g ∈ frames, g.Apart := by
  have hframes := hr.frames
  rw [h] at hframes
  exact List.forall_mem_cons.1 hframes

/-- A value that is whole has its keys apart, and so has what it is put into. -/
theorem apart_complete {n : Node} (hr : r.Apart) (hn : n.Apart) (h : r.complete n = some r') : r'.Apart := by
  unfold complete at h
  split at h
  · obtain ⟨d, hd, rfl⟩ := Option.map_eq_some_iff.1 h
    exact ⟨nofun, Document.apart_line hr.root hn hd⟩
  · next start done frames heq =>
    cases h
    obtain ⟨hdone, hrest⟩ := hr.top heq
    exact ⟨List.forall_mem_cons.2 ⟨List.forall_mem_cons.2 ⟨hn, hdone⟩, hrest⟩, hr.root⟩
  · next start done key frames heq =>
    obtain ⟨⟨way, last⟩, -, h⟩ := Option.bind_eq_some_iff.1 h
    obtain ⟨done', hdone', h⟩ := Option.bind_eq_some_iff.1 h
    cases h
    obtain ⟨hdone, hrest⟩ := hr.top heq
    exact ⟨List.forall_mem_cons.2 ⟨Members.keeps_assign hn last.name way hdone hdone', hrest⟩, hr.root⟩

theorem apart_beginAssignment {place : Place} {key : List KeyPart} (hr : r.Apart)
    (h : r.beginAssignment place key = some r') : r'.Apart := by
  unfold beginAssignment at h
  split at h
  · cases h
    exact ⟨hr.frames, hr.root⟩
  · next heq =>
    cases h
    obtain ⟨hdone, hrest⟩ := hr.top heq
    exact ⟨List.forall_mem_cons.2 ⟨hdone, hrest⟩, hr.root⟩
  · exact nomatch h

theorem apart_closeHeader {place : Place} {key : List KeyPart} {stop : Nat} (hr : r.Apart)
    (h : r.closeHeader place key stop = some r') : r'.Apart := by
  unfold closeHeader at h
  split at h
  · obtain ⟨d, hd, rfl⟩ := Option.map_eq_some_iff.1 h
    exact ⟨hr.frames, Document.apart_table hr.root hd⟩
  · cases h
    exact hr.goto _
  · exact nomatch h

theorem apart_beginValue (hr : r.Apart) (h : r.beginValue l = some r') : r'.Apart := by
  unfold beginValue at h
  split at h
  · exact apart_complete hr (.scalar _ _) h
  · cases h
    exact hr.goto _
  · obtain ⟨-, h⟩ := Option.ite_none_right_eq_some.1 h
    cases h
    exact ⟨List.forall_mem_cons.2 ⟨nofun, hr.frames⟩, hr.root⟩
  · obtain ⟨-, h⟩ := Option.ite_none_right_eq_some.1 h
    cases h
    exact ⟨List.forall_mem_cons.2 ⟨Members.apart_nil, hr.frames⟩, hr.root⟩
  · exact nomatch h

theorem apart_closeArray {stop : Nat} (hr : r.Apart) (h : r.closeArray stop = some r') : r'.Apart := by
  unfold closeArray at h
  split at h
  · next start done frames heq =>
    obtain ⟨hdone, hrest⟩ := hr.top heq
    have hbelow : Apart { r with frames } := ⟨hrest, hr.root⟩
    exact apart_complete hbelow (.array _ _ fun n hn => hdone n (List.mem_reverse.1 hn)) h
  · exact nomatch h

theorem apart_closeTable {stop : Nat} (hr : r.Apart) (h : r.closeTable stop = some r') : r'.Apart := by
  unfold closeTable at h
  split at h
  · next start done key frames heq =>
    obtain ⟨hdone, hrest⟩ := hr.top heq
    have hbelow : Apart { r with frames } := ⟨hrest, hr.root⟩
    exact apart_complete hbelow (Members.Apart.table hdone _ _) h
  · exact nomatch h

theorem apart_stepPlain (hr : r.Apart) (h : r.stepPlain l = some r') : r'.Apart := by
  cases move_of_stepPlain h with
  | goto p => exact hr.goto p
  | item hmove => exact ⟨hr.frames, Document.apart_item hr.root hmove⟩
  | assignment hmove => exact apart_beginAssignment hr hmove
  | header hmove => exact apart_closeHeader hr hmove
  | value hmove => exact apart_beginValue hr hmove
  | closeArray hmove => exact apart_closeArray hr hmove
  | closeTable hmove => exact apart_closeTable hr hmove

theorem apart_completeScalar {p : Pending} (hr : r.Apart) (h : r.completeScalar p = some r') : r'.Apart := by
  obtain ⟨s, -, h⟩ := Option.bind_eq_some_iff.1 h
  exact apart_complete hr (.scalar _ _) h

theorem apart_step (hr : r.Apart) (h : r.step l = some r') : r'.Apart := by
  have hends {p : Pending} (h : (r.completeScalar p).bind (·.stepPlain l) = some r') : r'.Apart := by
    obtain ⟨q, hq, h⟩ := Option.bind_eq_some_iff.1 h
    exact apart_stepPlain (apart_completeScalar hr hq) h
  have hgoto {p : Phase} (h : some (r.goto p) = some r') : r'.Apart := Option.some.inj h ▸ hr.goto p
  unfold step at h
  split at h
  · exact hgoto h
  · exact hgoto h
  · split at h
    · exact hgoto h
    · exact hends h
  · exact hends h
  · exact hgoto h
  · exact hends h
  · exact apart_stepPlain hr h

theorem apart_run {ls : List Lexeme} (hr : r.Apart) (h : r.run ls = some r') : r'.Apart := by
  induction ls generalizing r with
  | nil =>
    cases h
    exact hr
  | cons l ls ih =>
    obtain ⟨q, hq, h⟩ := Option.bind_eq_some_iff.1 h
    exact ih (apart_step hr hq) h

theorem apart_result {ms : Members} (hr : r.Apart) (h : r.result? = some ms) : ms.Apart := by
  unfold result? at h
  split at h
  · cases h
    exact hr.root
  · cases h
    exact hr.root
  · exact nomatch h

theorem apart_finish {ms : Members} (hr : r.Apart) (h : r.finish = some ms) : ms.Apart := by
  have hends {p : Pending} (h : (r.completeScalar p).bind result? = some ms) : ms.Apart := by
    obtain ⟨q, hq, h⟩ := Option.bind_eq_some_iff.1 h
    exact apart_result (apart_completeScalar hr hq) h
  unfold finish at h
  split at h
  · exact hends h
  · exact hends h
  · exact apart_result hr h

end Reader

/-- No table of a document has a key twice. -/
theorem apart_of_parse {s : String} {ms : Members} (h : parse? s = some ms) : ms.Apart := by
  obtain ⟨ls, -, h⟩ := Option.bind_eq_some_iff.1 h
  obtain ⟨r, hrun, h⟩ := Option.bind_eq_some_iff.1 h
  have hstart : Reader.start.Apart := ⟨nofun, Members.apart_nil⟩
  exact Reader.apart_finish (Reader.apart_run hstart hrun) h

end PhpScribe.Toml
