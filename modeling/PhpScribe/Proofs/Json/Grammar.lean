/-
  PhpScribe.Proofs.Json.Grammar — what a JSON text says, with its numbers as written.

  A `Written` is the syntax tree of a text: its numbers are still numerals, and the
  members of an object are all there, also those whose name comes again later. A text
  spells a tree when its lexemes are the tree's (`SpelledBy`). The tree's document
  (`Written.document`) keeps the numbers and, of each name, the last member.
  - `document_of_spelled`: an accepted text has the document of every tree that it spells.
    One induction over trees; on the way the reader has put what came before on its frames.
  - `exists_spelled`: every accepted text spells a tree. `Consumed` says what the frames
    and the phase of a reader stand for; each token keeps it (`consumed_step`), so a run
    does (`consumed_run`).
-/

import PhpScribe.Json.Reader
import PhpScribe.Proofs.Entries
import PhpScribe.Proofs.Json.Lexing

namespace PhpScribe.Json

/-- A JSON text as it is written, white space apart. -/
inductive Written where
  | null
  | bool (b : Bool)
  | number (n : WrittenNumber)
  | string (s : String)
  | array (items : List Written)
  | object (members : List (String × Written))

def more (parts : List (List Lexeme)) : List Lexeme := parts.flatMap (.comma :: ·)

def commas : List (List Lexeme) → List Lexeme
  | [] => []
  | ls :: parts => ls ++ more parts

def ended (parts : List (List Lexeme)) : List Lexeme := parts.flatMap (· ++ [.comma])

theorem ended_concat (parts : List (List Lexeme)) (ls : List Lexeme) :
    ended (parts ++ [ls]) = ended parts ++ (ls ++ [.comma]) := by
  simp [ended]

theorem cons_ended (parts : List (List Lexeme)) (ls : List Lexeme) :
    .comma :: (ended parts ++ ls) = more (parts ++ [ls]) := by
  induction parts with
  | nil => simp [ended, more]
  | cons p parts ih =>
    simp only [ended, more, List.flatMap_cons, List.cons_append, List.append_assoc] at ih ⊢
    rw [← ih]
    rfl

theorem commas_concat (parts : List (List Lexeme)) (ls : List Lexeme) :
    commas (parts ++ [ls]) = ended parts ++ ls := by
  cases parts with
  | nil => simp [commas, ended, more]
  | cons p parts =>
    rw [List.cons_append, commas, ← cons_ended]
    simp [ended]

namespace Written

mutual
def lexemes : Written → List Lexeme
  | .null => [.null]
  | .bool b => [.bool b]
  | .number n => [.number n]
  | .string s => [.string s]
  | .array items => .openArray :: (commas (itemLexemes items) ++ [.closeArray])
  | .object members => .openObject :: (commas (memberLexemes members) ++ [.closeObject])

def itemLexemes : List Written → List (List Lexeme)
  | [] => []
  | w :: ws => lexemes w :: itemLexemes ws

def memberLexemes : List (String × Written) → List (List Lexeme)
  | [] => []
  | (k, w) :: ms => (.string k :: .colon :: lexemes w) :: memberLexemes ms
end

mutual
/-- The document of a tree: of each name the last member counts, where the first one stood. -/
def document : Written → Json
  | .null => .null
  | .bool b => .bool b
  | .number n => .number n.number
  | .string s => .string s
  | .array items => .array (itemDocuments items)
  | .object members => .object (Entries.ofList (memberDocuments members))

def itemDocuments : List Written → List Json
  | [] => []
  | w :: ws => document w :: itemDocuments ws

def memberDocuments : List (String × Written) → List (String × Json)
  | [] => []
  | (k, w) :: ms => (k, document w) :: memberDocuments ms
end

def SpelledBy (w : Written) (text : String) : Prop := Lexes text.toList w.lexemes

theorem itemLexemes_eq (ws : List Written) : itemLexemes ws = ws.map lexemes := by
  induction ws with
  | nil => rfl
  | cons w ws ih => rw [itemLexemes, ih, List.map_cons]

theorem memberLexemes_eq (ms : List (String × Written)) :
    memberLexemes ms = ms.map fun m => .string m.1 :: .colon :: m.2.lexemes := by
  induction ms with
  | nil => rfl
  | cons m ms ih => rw [memberLexemes, ih, List.map_cons]

theorem itemDocuments_eq (ws : List Written) : itemDocuments ws = ws.map document := by
  induction ws with
  | nil => rfl
  | cons w ws ih => rw [itemDocuments, ih, List.map_cons]

theorem memberDocuments_eq (ms : List (String × Written)) :
    memberDocuments ms = ms.map fun m => (m.1, m.2.document) := by
  induction ms with
  | nil => rfl
  | cons m ms ih => rw [memberDocuments, ih, List.map_cons]

theorem itemLexemes_concat (ws : List Written) (w : Written) :
    itemLexemes (ws ++ [w]) = itemLexemes ws ++ [w.lexemes] := by
  simp [itemLexemes_eq]

theorem memberLexemes_concat (ms : List (String × Written)) (k : String) (w : Written) :
    memberLexemes (ms ++ [(k, w)]) = memberLexemes ms ++ [.string k :: .colon :: w.lexemes] := by
  simp [memberLexemes_eq]

theorem lexemes_array_concat (ws : List Written) (w : Written) :
    (array (ws ++ [w])).lexemes = .openArray :: (ended (itemLexemes ws) ++ w.lexemes ++ [.closeArray]) := by
  rw [lexemes, itemLexemes_concat, commas_concat]

theorem lexemes_object_concat (ms : List (String × Written)) (k : String) (w : Written) :
    (object (ms ++ [(k, w)])).lexemes =
      .openObject :: (ended (memberLexemes ms) ++ .string k :: .colon :: w.lexemes ++ [.closeObject]) := by
  rw [lexemes, memberLexemes_concat, commas_concat]

theorem itemDocuments_concat (ws : List Written) (w : Written) :
    itemDocuments (ws ++ [w]) = itemDocuments ws ++ [w.document] := by
  simp [itemDocuments_eq]

theorem memberDocuments_concat (ms : List (String × Written)) (k : String) (w : Written) :
    Entries.ofList (memberDocuments (ms ++ [(k, w)])) =
      Entries.put k w.document (Entries.ofList (memberDocuments ms)) := by
  rw [memberDocuments_eq, List.map_append, List.map_singleton, Entries.ofList_concat, memberDocuments_eq]

end Written

/-! ## A tree's lexemes are read as its document -/

namespace Reader

variable {fs : List Frame} {r r' : Reader} {ls : List Lexeme}

def readAll (r : Reader) (ls : List Lexeme) : Option Reader := r.run (ls.map Lexeme.token)

theorem readAll_cons {l : Lexeme} (h : r.step l.token = some r') : r.readAll (l :: ls) = r'.readAll ls := by
  rw [readAll, List.map_cons, run, h]
  rfl

/-- Where an array or an object may be opened, it is opened. -/
theorem readAll_open {l : Lexeme}
    (hl : step ⟨fs, .value⟩ l.token = if fs.length < maxDepth then some r' else none)
    (h : readAll ⟨fs, .value⟩ (l :: ls) = some r) : r'.readAll ls = some r := by
  split at hl
  · rwa [readAll_cons hl] at h
  · rw [readAll, List.map_cons, run, hl] at h
    exact nomatch h

/-- In front of an array's first item and of any other the same may come, but its end. -/
theorem readAll_firstItem (w : Written) (ls : List Lexeme) :
    readAll ⟨.array [] :: fs, .firstItem⟩ (w.lexemes ++ ls) =
      readAll ⟨.array [] :: fs, .value⟩ (w.lexemes ++ ls) := by
  cases w <;> rfl

mutual
/-- In front of a tree's lexemes a reader that gets on holds its document behind them. -/
theorem read_lexemes : (w : Written) → (fs : List Frame) → (ls : List Lexeme) → {r : Reader} →
    readAll ⟨fs, .value⟩ (w.lexemes ++ ls) = some r → readAll ⟨fs, .filled w.document⟩ ls = some r
  | .null, _, _, _, h | .bool _, _, _, _, h | .number _, _, _, _, h | .string _, _, _, _, h => h
  | .array [], fs, ls, r, h => by
    have h : readAll ⟨.array [] :: fs, .firstItem⟩ (.closeArray :: ls) = some r := readAll_open rfl h
    exact h
  | .array (w :: ws), fs, ls, r, h => by
    rw [Written.lexemes, Written.itemLexemes, commas, List.cons_append, List.append_assoc, List.append_assoc] at h
    have h := readAll_open rfl h
    rw [readAll_firstItem] at h
    exact read_items ws w.document [] fs ls (read_lexemes w _ _ h)
  | .object [], fs, ls, r, h => by
    have h : readAll ⟨fs, .name [] true⟩ (.closeObject :: ls) = some r := readAll_open rfl h
    exact h
  | .object ((k, w) :: ms), fs, ls, r, h => by
    rw [Written.lexemes, Written.memberLexemes, commas, List.cons_append, List.append_assoc, List.append_assoc] at h
    have h := readAll_open rfl h
    rw [List.cons_append, List.cons_append, readAll_cons rfl, readAll_cons rfl] at h
    exact read_members ms w.document [] k fs ls (read_lexemes w _ _ h)

/-- The items in front of `j` lie on the top frame. -/
theorem read_items : (ws : List Written) → (j : Json) → (done : List Json) → (fs : List Frame) →
    (ls : List Lexeme) → {r : Reader} →
    readAll ⟨.array done :: fs, .filled j⟩ (more (Written.itemLexemes ws) ++ ([.closeArray] ++ ls)) = some r →
    readAll ⟨fs, .filled (.array ((j :: done).reverse ++ Written.itemDocuments ws))⟩ ls = some r
  | [], _, _, _, _, _, h => by
    rw [Written.itemDocuments, List.append_nil]
    exact h
  | w :: ws, j, done, fs, ls, r, h => by
    rw [Written.itemLexemes, more, List.flatMap_cons, List.cons_append, List.cons_append,
      List.append_assoc, readAll_cons rfl] at h
    have h := read_items ws w.document (j :: done) fs ls (read_lexemes w _ _ h)
    rwa [List.reverse_cons, List.append_assoc] at h

/-- The members in front of the one called `k` lie on the top frame. -/
theorem read_members : (ms : List (String × Written)) → (j : Json) → (done : List (String × Json)) →
    (k : String) → (fs : List Frame) → (ls : List Lexeme) → {r : Reader} →
    readAll ⟨.object (Entries.ofList done) k :: fs, .filled j⟩
      (more (Written.memberLexemes ms) ++ ([.closeObject] ++ ls)) = some r →
    readAll ⟨fs, .filled (.object (Entries.ofList (done ++ (k, j) :: Written.memberDocuments ms)))⟩ ls = some r
  | [], j, done, k, _, _, _, h => by
    rw [Written.memberDocuments, Entries.ofList_concat]
    exact h
  | (k', w) :: ms, j, done, k, fs, ls, r, h => by
    rw [Written.memberLexemes, more, List.flatMap_cons, List.cons_append, List.cons_append,
      List.append_assoc, readAll_cons rfl] at h
    rw [List.cons_append, List.cons_append, readAll_cons rfl, readAll_cons rfl, ← Entries.ofList_concat] at h
    have h := read_members ms w.document (done ++ [(k, j)]) k' fs ls (read_lexemes w _ _ h)
    rwa [List.append_assoc] at h
end

end Reader

/-- An accepted text has the document of every tree that it spells. -/
theorem document_of_spelled {w : Written} {text : String} {j : Json} (hw : w.SpelledBy text)
    (hj : parse? text = some j) : w.document = j := by
  have ht := tokens?_eq_some.2 ⟨_, hw, rfl⟩
  rw [parse?, ht, Option.bind_some, Option.bind_eq_some_iff] at hj
  obtain ⟨r, hr, hj⟩ := hj
  have hread := Reader.read_lexemes w [] [] (r := r) (by rw [List.append_nil]; exact hr)
  cases hread
  exact Option.some.inj hj

/-! ## What has been read is a tree -/

open Written (itemLexemes memberLexemes itemDocuments memberDocuments)

/-- What the lexemes in front of a value have opened. -/
inductive Opened : List Frame → List Lexeme → Prop
  | nil : Opened [] []
  | array {fs : List Frame} {ls : List Lexeme} {done : List Json} (items : List Written) :
    done = (itemDocuments items).reverse → Opened fs ls →
      Opened (.array done :: fs) (ls ++ .openArray :: ended (itemLexemes items))
  | object {fs : List Frame} {ls : List Lexeme} {done : List (String × Json)}
    (members : List (String × Written)) (name : String) :
    done = Entries.ofList (memberDocuments members) → Opened fs ls →
      Opened (.object done name :: fs)
        (ls ++ .openObject :: (ended (memberLexemes members) ++ [.string name, .colon]))

/-- The lexemes that a reader stands behind. -/
inductive Consumed : Reader → List Lexeme → Prop
  | value {fs : List Frame} {ls : List Lexeme} : Opened fs ls → Consumed ⟨fs, .value⟩ ls
  | firstItem {fs : List Frame} {ls : List Lexeme} :
    Opened fs ls → Consumed ⟨.array [] :: fs, .firstItem⟩ (ls ++ [.openArray])
  | name {fs : List Frame} {ls : List Lexeme} {done : List (String × Json)} {first : Bool}
    (members : List (String × Written)) :
    done = Entries.ofList (memberDocuments members) → (first = true → members = []) → Opened fs ls →
      Consumed ⟨fs, .name done first⟩ (ls ++ .openObject :: ended (memberLexemes members))
  | colon {fs : List Frame} {ls : List Lexeme} {done : List (String × Json)} {name : String}
    (members : List (String × Written)) :
    done = Entries.ofList (memberDocuments members) → Opened fs ls →
      Consumed ⟨fs, .colon done name⟩ (ls ++ .openObject :: (ended (memberLexemes members) ++ [.string name]))
  | filled {fs : List Frame} {ls : List Lexeme} {j : Json} (w : Written) :
    j = w.document → Opened fs ls → Consumed ⟨fs, .filled j⟩ (ls ++ w.lexemes)

section Step

variable {fs : List Frame} {r r' : Reader} {ls : List Lexeme} {l : Lexeme}

theorem Opened.consumed_start (ho : Opened fs ls) (h : Reader.start fs l.token = some r') :
    Consumed r' (ls ++ [l]) := by
  cases l with
  | null =>
    cases h
    exact .filled .null rfl ho
  | bool b =>
    cases h
    exact .filled (.bool b) rfl ho
  | number n =>
    cases h
    exact .filled (.number n) rfl ho
  | string s =>
    cases h
    exact .filled (.string s) rfl ho
  | openArray =>
    simp only [Lexeme.token, Reader.start, Option.ite_none_right_eq_some] at h
    cases h.2
    exact .firstItem ho
  | openObject =>
    simp only [Lexeme.token, Reader.start, Option.ite_none_right_eq_some] at h
    cases h.2
    exact .name [] rfl (fun _ => rfl) ho
  | _ => exact nomatch h

/-- Behind an item or a member, its array or object goes on or ends. -/
theorem Opened.consumed_filled {j : Json} {w : Written} (ho : Opened fs ls) (hj : j = w.document)
    (h : Reader.step ⟨fs, .filled j⟩ l.token = some r') : Consumed r' (ls ++ w.lexemes ++ [l]) := by
  -- the value joins the items or members of what is open; behind the outermost nothing comes
  cases ho with
  | nil => cases l <;> exact nomatch h
  | @array fs ls done items hd ho =>
    have hdone : j :: done = (itemDocuments (items ++ [w])).reverse := by
      rw [Written.itemDocuments_concat, List.reverse_append, List.reverse_singleton, hj, hd]
      rfl
    cases l with
    | comma =>
      cases h
      have hopen := Opened.array (items ++ [w]) hdone ho
      rw [Written.itemLexemes_concat, ended_concat] at hopen
      simpa using Consumed.value hopen
    | closeArray =>
      cases h
      have hdoc : Json.array (j :: done).reverse = (Written.array (items ++ [w])).document := by
        rw [hdone, List.reverse_reverse, Written.document]
      simpa [Written.lexemes_array_concat] using Consumed.filled (.array (items ++ [w])) hdoc ho
    | _ => exact nomatch h
  | @object fs ls done members name hd ho =>
    have hdone : Entries.put name j done = Entries.ofList (memberDocuments (members ++ [(name, w)])) := by
      rw [Written.memberDocuments_concat, hj, hd]
    cases l with
    | comma =>
      cases h
      have hname : Consumed ⟨fs, .name (Entries.put name j done) false⟩ _ :=
        .name (members ++ [(name, w)]) hdone nofun ho
      rw [Written.memberLexemes_concat, ended_concat] at hname
      simpa using hname
    | closeObject =>
      cases h
      have hfull := Consumed.filled (.object (members ++ [(name, w)])) (congrArg Json.object hdone) ho
      simpa [Written.lexemes_object_concat] using hfull
    | _ => exact nomatch h

/-- One lexeme more. -/
theorem consumed_step (hc : Consumed r ls) (h : r.step l.token = some r') : Consumed r' (ls ++ [l]) := by
  cases hc with
  | value ho => exact ho.consumed_start h
  | @firstItem fs ls ho =>
    cases l with
    | closeArray =>
      cases h
      simpa [Written.lexemes, Written.itemLexemes, commas] using
        Consumed.filled (j := .array []) (.array []) rfl ho
    | _ => exact (Opened.array [] rfl ho).consumed_start h
  | @name fs ls done first members hd hf ho =>
    cases l with
    | string s =>
      cases h
      have hcolon : Consumed ⟨fs, .colon done s⟩ _ := .colon members hd ho
      simpa using hcolon
    | closeObject =>
      cases first with
      | false => exact nomatch h
      | true =>
        cases h
        cases hf rfl
        simpa [Written.lexemes, Written.memberLexemes, commas, ended] using
          Consumed.filled (.object []) (congrArg Json.object hd) ho
    | _ => exact nomatch h
  | @colon fs ls done name members hd ho =>
    cases l with
    | colon =>
      cases h
      simpa using Consumed.value (Opened.object members name hd ho)
    | _ => exact nomatch h
  | filled w hj ho => exact ho.consumed_filled hj h

theorem consumed_run {ms : List Lexeme} (hc : Consumed r ls) (h : r.readAll ms = some r') :
    Consumed r' (ls ++ ms) := by
  induction ms generalizing r ls with
  | nil =>
    cases h
    rwa [List.append_nil]
  | cons l ms ih =>
    rw [Reader.readAll, List.map_cons, Reader.run, Option.bind_eq_some_iff] at h
    obtain ⟨r₁, hs, h⟩ := h
    rw [List.append_cons]
    exact ih (consumed_step hc hs) h

end Step

/-- Every accepted text spells a tree. -/
theorem exists_spelled {text : String} {j : Json} (h : parse? text = some j) :
    ∃ w : Written, w.SpelledBy text := by
  simp only [parse?, Option.bind_eq_some_iff] at h
  obtain ⟨ts, ht, r, hr, hj⟩ := h
  obtain ⟨ls, hl, rfl⟩ := tokens?_eq_some.1 ht
  have hc := consumed_run (.value .nil) hr
  rw [List.nil_append] at hc
  cases hc with
  | filled w hw ho =>
    cases ho with
    | nil => exact ⟨w, hl⟩
    | _ => exact nomatch hj
  | _ => simp [Reader.result?] at hj

end PhpScribe.Json
