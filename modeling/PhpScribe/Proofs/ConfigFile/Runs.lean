/-
  PhpScribe.Proofs.ConfigFile.Runs — a config file made from nothing, section by section.

  A session starts from the empty file and serves requests for sections one after the
  other; what is refused changes nothing. The text of the file is at every moment that of
  the sections accepted so far, in their order (`Session.Inv`), and everything else is
  read off that text:
  - the names, though they are found by a scan (`sections_listing`);
  - the answer to the next request (`addSection_listing`): a name that is taken is a
    duplicate, a value without a literal is refused, and all else is accepted.
  The steps of a session keep the text so (`inv_serve`), for all requests there are
  (`run_spec`).
-/

import PhpScribe.Proofs.ConfigFile.Splice

namespace PhpScribe.ConfigFile

/-! ## The text of some sections -/

def lines (rs : List (String × Value)) : List Char :=
  rs.flatMap fun r => entryChars r.1 r.2.term ++ ['\n']

def opening : List Char := "<?php\n\ndeclare(strict_types=1);\n\n".toList

def listing (rs : List (String × Value)) : ConfigFile :=
  ⟨String.ofList (opening ++ (returnOpen ++ ('\n' :: lines rs ++ [']', ';', '\n'])))⟩

theorem skeleton_eq : skeleton = listing [] := by decide

theorem lines_snoc (rs : List (String × Value)) (r : String × Value) :
    lines (rs ++ [r]) = lines rs ++ (entryChars r.1 r.2.term ++ ['\n']) := by
  simp [lines]

theorem source_listing (rs : List (String × Value)) : (listing rs).source =
    "<?php\n\ndeclare(strict_types=1);\n\nreturn [\n" ++ String.ofList (lines rs) ++ "];\n" := by
  have hfront : "<?php\n\ndeclare(strict_types=1);\n\nreturn [\n".toList =
      opening ++ (returnOpen ++ ['\n']) := by decide
  apply String.toList_injective
  rw [listing, String.toList_append, String.toList_append, hfront]
  simp

theorem sealed_newline : Sealed ['\n'] := sealed_plain (forall_of_all (by decide))

theorem sealed_lines (rs : List (String × Value)) : Sealed (lines rs) := by
  induction rs with
  | nil => exact sealed_nil
  | cons r rs ih => exact ((sealed_entryChars r.1 r.2.term).append sealed_newline).append ih

theorem tokens_newline : tokens ['\n'] = [.symbol '\n'] := tokens_symbols (forall_of_all (by decide))

theorem tokens_lines_cons (r : String × Value) (rs : List (String × Value)) :
    tokens (lines (r :: rs)) = tokens (entryChars r.1 r.2.term) ++ (.symbol '\n' :: tokens (lines rs)) := by
  show tokens ((entryChars r.1 r.2.term ++ ['\n']) ++ lines rs) = _
  rw [List.append_assoc, (sealed_entryChars r.1 r.2.term).tokens_append, List.singleton_append,
    tokens_plain (by decide)]

theorem nesting_lines (rs : List (String × Value)) : nesting 1 (tokens (lines rs)) = some 1 := by
  induction rs with
  | nil =>
    show nesting 1 (tokens []) = _
    rw [tokens_nil]
    rfl
  | cons r rs ih =>
    rw [tokens_lines_cons, nesting_append, nesting_entry]
    exact ih

theorem keysFrom_lines (rs : List (String × Value)) :
    keysFrom 1 (tokens (lines rs)) = rs.map Prod.fst := by
  induction rs with
  | nil =>
    show keysFrom 1 (tokens []) = _
    rw [tokens_nil]
    rfl
  | cons r rs ih =>
    rw [tokens_lines_cons, keysFrom_entry, List.map_cons, ← ih]
    rfl

/-! ## A file with some sections -/

theorem skeleton_returns :
    Returns skeleton (opening.map .symbol) [.symbol '\n'] [.symbol ';', .symbol '\n'] := by
  refine ⟨?_, by rfl, by rfl, by rfl⟩
  rw [tokens_symbols (forall_of_all (by decide))]
  rfl

theorem returns_listing (rs : List (String × Value)) :
    (listing rs).Returns (opening.map .symbol) (tokens ('\n' :: lines rs)) [.symbol ';', .symbol '\n'] := by
  have hopen : Sealed opening := sealed_plain (forall_of_all (by decide))
  have hreturn : Sealed returnOpen := sealed_plain (forall_of_all (by decide))
  have hinside : Sealed ('\n' :: lines rs) := sealed_newline.append (sealed_lines rs)
  refine skeleton_returns.of_tokens ?_ ?_
  · rw [listing, String.toList_ofList, hopen.tokens_append, hreturn.tokens_append, hinside.tokens_append,
      tokens_symbols (s := opening) (forall_of_all (by decide)), tokens_symbols (s := returnOpen) (forall_of_all (by decide)),
      tokens_symbols (s := [']', ';', '\n']) (forall_of_all (by decide))]
    rfl
  · rw [tokens_plain (by decide)]
    exact nesting_lines rs

theorem sections_listing (rs : List (String × Value)) : (listing rs).sections = rs.map Prod.fst := by
  rw [(returns_listing rs).sections, tokens_plain (by decide)]
  exact keysFrom_lines rs

/-- Behind the bracket that opens the array, or the comma of the last section, a newline
    is all that stands in front of the bracket that closes it. -/
theorem exists_last_listing (rs : List (String × Value)) : ∃ ts t,
    opening.map Token.symbol ++ (returnOpen.map .symbol ++ tokens ('\n' :: lines rs)) =
      ts ++ t :: [.symbol '\n'] ∧ (t = .symbol '[' ∨ t = .symbol ',') := by
  induction rs using List.reverseRecOn with
  | nil =>
    refine ⟨opening.map .symbol ++ returnOpen.dropLast.map .symbol, .symbol '[', ?_, Or.inl rfl⟩
    show _ ++ (_ ++ tokens ['\n']) = _
    rw [tokens_newline, List.append_assoc]
    rfl
  | append_singleton rs r =>
    have hfront : Sealed ('\n' :: lines rs) := sealed_newline.append (sealed_lines rs)
    have hlines : '\n' :: lines (rs ++ [r]) = ('\n' :: lines rs) ++ (entryChars r.1 r.2.term ++ ['\n']) := by
      rw [lines_snoc, List.cons_append]
    rw [hlines, hfront.tokens_append, (sealed_entryChars r.1 r.2.term).tokens_append, tokens_newline,
      tokens_entryChars]
    refine ⟨opening.map .symbol ++ (returnOpen.map .symbol ++ (tokens ('\n' :: lines rs) ++
      (tokens (Indent.config.chars 1) ++ .quoted '\'' (Literal.escape r.1.toList) true ::
        (tokens [' ', '=', '>', ' '] ++ tokens (r.2.term.chars (.config 1)))))), .symbol ',', ?_, Or.inr rfl⟩
    simp

/-- A new section is put behind those that are there. -/
theorem addSection_listing_fresh (rs : List (String × Value)) {name : String}
    (hn : name ∉ rs.map Prod.fst) {v : Value} (hv : v.Finite) :
    (listing rs).addSection name v = .ok (listing (rs ++ [(name, v)])) := by
  have hret := returns_listing rs
  obtain ⟨ts, t, hlast, ht⟩ := exists_last_listing rs
  have hcode : t.isCode = true := by rcases ht with rfl | rfl <;> rfl
  have hspace : ∀ u ∈ [Token.symbol '\n'], u.isCode = false := by decide
  rw [← sections_listing] at hn
  obtain ⟨g, hg, hsrc⟩ := addSection_eq hret.last (hret.tokens_before.trans hlast) hcode hspace hn hv
  have hsep : separator (text (ts ++ [t])) = [] := by
    rw [text_append]
    rcases ht with rfl | rfl <;> simp [separator, Token.chars]
  have htrim : Text.trimEnd (text [.symbol '\n']) = [] := rfl
  have hfront := congrArg text hlast
  simp only [text_append, text_symbols, text_tokens] at hfront
  obtain ⟨source⟩ := g
  rw [hg]
  refine congrArg (fun s => Except.ok (ConfigFile.mk s)) (String.toList_injective ?_)
  calc source.toList
      = (text ts ++ text [t, .symbol '\n']) ++ (entryChars name v.term ++ ['\n', ']', ';', '\n']) := by
        rw [hsrc, hsep, htrim]
        simp [Token.chars]
    _ = (opening ++ (returnOpen ++ '\n' :: lines rs)) ++
          (entryChars name v.term ++ ['\n', ']', ';', '\n']) := by rw [hfront]
    _ = (listing (rs ++ [(name, v)])).source.toList := by
        rw [listing, String.toList_ofList, lines_snoc]
        simp

/-- The answer to a request. -/
theorem addSection_listing (rs : List (String × Value)) (name : String) (v : Value) :
    (listing rs).addSection name v =
      if name ∈ rs.map Prod.fst then .error (.duplicate name)
      else match v.floats.findSome? Literal.floatFault with
        | some e => .error (.literal e)
        | none => .ok (listing (rs ++ [(name, v)])) := by
  by_cases hn : name ∈ rs.map Prod.fst
  · have hhas : (listing rs).hasSection name = true := by
      rw [hasSection, sections_listing]
      simpa using hn
    rw [if_pos hn, addSection, if_pos hhas]
  · rw [if_neg hn]
    cases hf : v.floats.findSome? Literal.floatFault with
    | none => exact addSection_listing_fresh rs hn (Literal.finite_iff.2 hf)
    | some e =>
      have hhas : ¬(listing rs).hasSection name = true := by
        rw [hasSection, sections_listing]
        simpa using hn
      have hentry : entry name v = .error e := by
        rw [entry, Literal.spell_eq, hf]
        rfl
      rw [addSection, if_neg hhas, (returns_listing rs).last]
      simp only [hentry]

/-! ## Sessions -/

structure Session where
  file : ConfigFile
  accepted : List (String × Value)

namespace Session

def start : Session := ⟨skeleton, []⟩

/-- A request that is refused leaves the session as it is. -/
def serve (s : Session) (r : String × Value) : Session :=
  match s.file.addSection r.1 r.2 with
  | .ok g => ⟨g, s.accepted ++ [r]⟩
  | .error _ => s

def run (rs : List (String × Value)) : Session := rs.foldl serve start

/-- The file is the listing of what was accepted, and that can all be spelled. -/
structure Inv (s : Session) : Prop where
  file_eq : s.file = listing s.accepted
  finite : ∀ r ∈ s.accepted, r.2.Finite

theorem inv_start : start.Inv := ⟨skeleton_eq, nofun⟩

theorem inv_serve {s : Session} (h : s.Inv) (r : String × Value) : (s.serve r).Inv := by
  have ha := addSection_listing s.accepted r.1 r.2
  rw [← h.file_eq] at ha
  unfold serve
  by_cases hn : r.1 ∈ s.accepted.map Prod.fst
  · rw [ha, if_pos hn]
    exact h
  · rw [ha, if_neg hn]
    cases hf : r.2.floats.findSome? Literal.floatFault with
    | some e => exact h
    | none =>
      refine ⟨rfl, fun q hq => ?_⟩
      rcases List.mem_append.1 hq with hq | hq
      · exact h.finite q hq
      · rw [List.mem_singleton.1 hq]
        exact Literal.finite_iff.2 hf

theorem inv_run (rs : List (String × Value)) : (run rs).Inv := by
  induction rs using List.reverseRecOn with
  | nil => exact inv_start
  | append_singleton rs r ih =>
    rw [run, List.foldl_append]
    exact inv_serve ih r

def line (r : String × Value) : Except LiteralError String :=
  (Literal.spell (.config 1) r.2).map fun s => "    " ++ Literal.quote r.1 ++ " => " ++ s ++ ",\n"

theorem mapM_line {rs : List (String × Value)} (h : ∀ r ∈ rs, r.2.Finite) :
    ∃ ls, rs.mapM line = .ok ls ∧ (Text.concat ls).toList = lines rs := by
  induction rs with
  | nil => exact ⟨[], rfl, rfl⟩
  | cons r rs ih =>
    obtain ⟨ls, hls, htext⟩ := ih fun q hq => h q (by simp [hq])
    have hspell := Literal.spell_of_finite (h r (by simp)) (.config 1)
    have hindent : "    ".toList = Indent.config.chars 1 := rfl
    have hline : line r = .ok ("    " ++ Literal.quote r.1 ++ " => " ++
        String.ofList (r.2.term.chars (.config 1)) ++ ",\n") := by
      rw [line, hspell]
      rfl
    refine ⟨("    " ++ Literal.quote r.1 ++ " => " ++ String.ofList (r.2.term.chars (.config 1)) ++
      ",\n") :: ls, ?_, ?_⟩
    · rw [List.mapM_cons, hls, hline]
      rfl
    · simp [Text.concat, htext, lines, entryChars, hindent]

/-- After any requests the file holds the accepted ones, in their order and as literals,
    and nothing else. The next request is accepted just when its name is new and its value
    has no NaN and no infinity; a name that is taken is a duplicate, and the end of the
    array is always found. -/
theorem run_spec (rs : List (String × Value)) :
    (run rs).file.sections = (run rs).accepted.map Prod.fst ∧
    (∃ ls, (run rs).accepted.mapM line = .ok ls ∧ (run rs).file.source =
      "<?php\n\ndeclare(strict_types=1);\n\nreturn [\n" ++ Text.concat ls ++ "];\n") ∧
    ∀ name v,
      ((∃ g, (run rs).file.addSection name v = .ok g) ↔
        name ∉ (run rs).accepted.map Prod.fst ∧ v.Finite) ∧
      (name ∈ (run rs).accepted.map Prod.fst →
        (run rs).file.addSection name v = .error (.duplicate name)) ∧
      (run rs).file.addSection name v ≠ .error .noArrayEnd := by
  obtain ⟨hfile, hfinite⟩ := inv_run rs
  refine ⟨?_, ?_, fun name v => ?_⟩
  · rw [hfile, sections_listing]
  · obtain ⟨ls, hls, htext⟩ := mapM_line hfinite
    refine ⟨ls, hls, ?_⟩
    rw [hfile, source_listing, ← htext, String.ofList_toList]
  · have ha := addSection_listing (run rs).accepted name v
    rw [← hfile] at ha
    rw [ha]
    by_cases hn : name ∈ (run rs).accepted.map Prod.fst
    · rw [if_pos hn]
      exact ⟨⟨nofun, fun h => absurd hn h.1⟩, fun _ => rfl, nofun⟩
    · rw [if_neg hn, Literal.finite_iff]
      cases hf : v.floats.findSome? Literal.floatFault with
      | none => exact ⟨⟨fun _ => ⟨hn, rfl⟩, fun _ => ⟨_, rfl⟩⟩, fun h => absurd h hn, nofun⟩
      | some e => exact ⟨⟨nofun, fun h => nomatch h.2⟩, fun h => absurd h hn, nofun⟩

end Session

end PhpScribe.ConfigFile
