/-
  PhpScribe.Proofs.ConfigFile.Safety — no text is too malformed for the scans.

  A config file comes from anywhere: a quote or a comment may be open at its end, a
  backslash may be its last character, brackets may close what was never opened, and
  characters are of one to four bytes. What could go wrong is a loop that does not get
  on, a depth below zero, or a cut inside a character or behind the end. None of this
  happens, for any text (`scans_safe`):
  - each turn of a loop comes to something and leaves a shorter end of the text, at a
    depth that is never zero, so there is a last one;
  - the cuts behind the first `return [`, in front of the last `];` and at the end of the
    code are made where there is something to cut, and give the parts that sections are
    read from and added to;
  - the code of a text ends with white space only inside a literal that is left open
    (`open_of_blank_code`).
-/

import PhpScribe.Proofs.ConfigFile.Loops

namespace PhpScribe.ConfigFile

/-! ## The last character of the code -/

variable {t : Token} {c : Char} {r s : List Char}

/-- A text ends as its last token does. -/
theorem getLast?_text_snoc (ts : List Token) (h : t.chars ≠ []) :
    (text (ts ++ [t])).getLast? = t.chars.getLast? := by
  rw [text_append, text_cons, text_nil, List.append_nil, List.getLast?_append, List.getLast?_eq_some_getLast h]
  rfl

/-- A token of code ends with white space only if it is an open literal, and then nothing
    follows it. -/
theorem Leads.open_of_blank (h : Leads t r) (hcode : t.isCode = true) (hlast : c ∈ t.chars.getLast?)
    (hc : Text.isBlank c = true) : r = [] ∧ ∃ q body, t = .quoted q body false ∧ c ∈ body.getLast? := by
  cases t with
  | comment x => cases hcode
  | symbol d =>
    have hd : d = c := Option.some.inj hlast
    rw [Token.isCode, hd, hc] at hcode
    cases hcode
  | quoted q body closed =>
    obtain ⟨hq, u, hu⟩ := leads_quoted.1 h
    have hquote : Text.isBlank q = false := by
      rcases hq with rfl | rfl <;> rfl
    have hne : q ≠ c := by
      rintro rfl
      rw [hc] at hquote
      cases hquote
    cases closed with
    | true =>
      have hend : (q :: body ++ [q]).getLast? = some q := List.getLast?_concat
      have hsame : q = c := Option.some.inj (hend.symm.trans hlast)
      exact absurd hsame hne
    | false =>
      have hopen := literalBody_open (q := q) (s := u) (by rw [hu])
      rw [hu] at hopen
      refine ⟨hopen, q, body, rfl, ?_⟩
      have hbody : (q :: body ++ []).getLast? = some c := hlast
      rw [List.append_nil, List.getLast?_cons] at hbody
      cases hl : body.getLast? with
      | none =>
        rw [hl] at hbody
        exact absurd (Option.some.inj hbody) hne
      | some d =>
        rw [hl] at hbody
        exact hbody

/-- Code that ends with white space ends inside a literal that is left open, and so does
    the text. -/
theorem open_of_blank_code (h : c ∈ (splitCode s).1.getLast?) (hc : Text.isBlank c = true) :
    ∃ ts q body, tokens s = ts ++ [.quoted q body false] ∧ c ∈ body.getLast? := by
  obtain ⟨ts, us, htok, hts, hus⟩ := exists_endsInCode (tokens s)
  have hlexed := lexed_tokens s
  rw [htok, lexed_append, List.append_nil] at hlexed
  rw [splitCode_eq htok hts hus] at h
  rcases List.eq_nil_or_concat ts with rfl | ⟨vs, t, rfl⟩
  · cases h
  rw [List.concat_eq_append] at h hts hlexed htok
  have hlead := (lexed_append.1 hlexed.1).2.1
  rw [getLast?_text_snoc vs hlead.chars_ne_nil] at h
  obtain ⟨hrest, q, body, rfl, hbody⟩ := hlead.open_of_blank (endsInCode_snoc.1 hts) h hc
  have hus : us = [] := by
    rw [← tokens_text hlexed.2]
    exact (congrArg tokens hrest).trans tokens_nil
  exact ⟨vs, q, body, by rw [htok, hus, List.append_nil], hbody⟩

/-! ## All cuts and all turns -/

/-- The scan for the end of the code comes to an end, and its mark is a place to cut the
    text, where its code ends. -/
def Marks (s : List Char) : Prop :=
  ∃ last, Ends (CodeScan.turn s) ⟨s, 0⟩ last ∧ last.stop ≤ width s ∧ cutAt last.stop s = .ok (splitCode s)

theorem marks (s : List Char) : Marks s := by
  have happend := splitCode_append s
  refine ⟨_, CodeScan.ends_splitCode s, ?_, ?_⟩
  · show width (splitCode s).1 ≤ width s
    have hwidth := width_append (splitCode s).1 (splitCode s).2
    rw [happend] at hwidth
    omega
  · have hcut := cutAt_width (splitCode s).1 (splitCode s).2
    rwa [happend] at hcut

structure SafelyScanned (s : List Char) : Prop where
  /-- From any depth on, and never below depth one, the scan for keys comes to an end. -/
  keys : ∀ d ks, 0 < d → Safe KeyScan.turn KeyScan.rest (fun st => 0 < st.depth) ⟨s, d, ks⟩
  /-- The scan starts behind the first `return [`, and ends with the sections. -/
  sections : match findFirst returnOpen s with
    | none => sections ⟨String.ofList s⟩ = []
    | some n => ∃ front rest, cutAt (n + width returnOpen) s = .ok (front, rest) ∧
        ∃ last, Ends KeyScan.turn ⟨rest, 1, []⟩ last ∧ sections ⟨String.ofList s⟩ = last.keys
  /-- From any end of the text on the scan for the end of its code comes to an end. -/
  code : ∀ r n, r <:+ s → Safe (CodeScan.turn s) CodeScan.rest (fun st => st.rest <:+ s) ⟨r, n⟩
  mark : Marks s
  /-- White space is in front of the mark only inside a literal that is left open. -/
  blank : ∀ c ∈ (splitCode s).1.getLast?, Text.isBlank c = true →
    ∃ ts q body, tokens s = ts ++ [.quoted q body false] ∧ c ∈ body.getLast?
  /-- The last `];` is a place to cut the text, and the text in front of it is cut where its
      code ends. -/
  close : match findLast returnClose s with
    | none => Text.splitLast returnClose s = none
    | some n => ∃ before after, cutAt n s = .ok (before, after) ∧
        Text.splitLast returnClose s = some (before, after) ∧ Marks before

/-- Every text is scanned safely. -/
theorem scans_safe (s : List Char) : SafelyScanned s where
  keys d ks hd := KeyScan.safe hd
  sections := by
    rw [ConfigFile.sections, String.toList_ofList]
    cases hfind : Text.afterFirst returnOpen s with
    | none => rw [findFirst_of_absent hfind]
    | some rest =>
      obtain ⟨p, rfl, hn⟩ := findFirst_of_afterFirst hfind
      have hcut := cutAt_width (p ++ returnOpen) rest
      rw [width_append, List.append_assoc] at hcut
      have hsafe : Safe KeyScan.turn KeyScan.rest (fun st => 0 < st.depth) ⟨rest, 1, []⟩ := KeyScan.safe Nat.one_pos
      obtain ⟨last, hlast⟩ := hsafe.ends
      have hkeys := KeyScan.keys_of_ends Nat.one_pos hlast
      rw [hn]
      exact ⟨_, _, hcut, last, hlast, hkeys.symm⟩
  code r n hr := CodeScan.safe hr
  mark := marks s
  blank c hc := open_of_blank_code hc
  close := by
    rw [findLast_eq]
    cases hlast : Text.splitLast returnClose s with
    | none => rfl
    | some p =>
      obtain ⟨before, after⟩ := p
      have hcut := cutAt_width before after
      rw [Text.splitLast_append hlast] at hcut
      exact ⟨before, after, hcut, rfl, marks before⟩

end PhpScribe.ConfigFile
