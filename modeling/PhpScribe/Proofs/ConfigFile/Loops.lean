/-
  PhpScribe.Proofs.ConfigFile.Loops — the scans of a config file, turn by turn.

  Two loops read such a file by offsets. One collects the keys of an array and counts the
  brackets that are open (`KeyScan`), the other marks where the code of a text ends
  (`CodeScan`). A turn of either skips the comment in front of the rest, splits off the
  literal in front of it, or goes on by one character; it may break off at a `Breach`.

  One turn is one token: `KeyScan.turn_eq`, `CodeScan.turn_eq`. From this it follows that
  - every turn comes to something and leaves a shorter end of the text, so a loop ends
    from wherever it starts (`KeyScan.safe`, `CodeScan.safe`);
  - the keys collected and those to come are together always the same (`KeyScan.total`),
    so at its end the loop has the keys of the tokens (`KeyScan.keys_of_ends`);
  - tokens that stand in front of a text are passed one by one (`KeyScan.reaches_lexed`,
    `CodeScan.reaches_lexed`), and the mark is behind the last of them that is code.
-/

import Mathlib.Logic.Relation
import PhpScribe.Proofs.ConfigFile.Grammar
import PhpScribe.Proofs.ConfigFile.Offsets

namespace PhpScribe.ConfigFile

/-! ## Loops -/

section Loop

variable {σ : Type} (turn : σ → Except Breach (Option σ))

def Reaches : σ → σ → Prop := Relation.ReflTransGen fun s t => turn s = .ok (some t)

/-- The loop comes to a state, and its turn there is the last. -/
def Ends (s t : σ) : Prop := Reaches turn s t ∧ turn t = .ok none

def Shorter (r s : List Char) : Prop := r <:+ s ∧ r.length < s.length

/-- No turn of the loop breaks off: each is the last or leaves a shorter end of the text,
    the invariant holds all the way, and a last turn comes. -/
structure Safe (rest : σ → List Char) (inv : σ → Prop) (start : σ) : Prop where
  keeps : ∀ {s}, Reaches turn start s → inv s
  turns : ∀ {s}, Reaches turn start s →
    turn s = .ok none ∨ ∃ t, turn s = .ok (some t) ∧ Shorter (rest t) (rest s)
  ends : ∃ t, Ends turn start t

variable {turn} {rest : σ → List Char} {inv : σ → Prop} {s t : σ}

theorem Reaches.invariant (hturn : ∀ {s t}, inv s → turn s = .ok (some t) → inv t) (h : Reaches turn s t)
    (hs : inv s) : inv t := by
  induction h with
  | refl => exact hs
  | tail _ ht ih => exact hturn ih ht

/-- What every turn does where the invariant holds, the loop does from there on. -/
theorem safe_of_turns (hturn : ∀ s, inv s →
      turn s = .ok none ∨ ∃ t, turn s = .ok (some t) ∧ inv t ∧ Shorter (rest t) (rest s))
    (hs : inv s) : Safe turn rest inv s := by
  have hkeep : ∀ {s t}, inv s → turn s = .ok (some t) → inv t := by
    intro s t hs ht
    rcases hturn s hs with hlast | ⟨u, hu, hinv, -⟩
    · rw [hlast] at ht
      cases ht
    · rw [hu] at ht
      cases ht
      exact hinv
  refine ⟨fun h => h.invariant hkeep hs, fun h => ?_, ?_⟩
  · rcases hturn _ (h.invariant hkeep hs) with hlast | ⟨u, hu, -, hshort⟩
    · exact Or.inl hlast
    · exact Or.inr ⟨u, hu, hshort⟩
  · -- the rest gets shorter, so its length bounds the turns to come
    induction hn : (rest s).length using Nat.strong_induction_on generalizing s with
    | _ n ih =>
      rcases hturn s hs with hlast | ⟨u, hu, hinv, -, hlt⟩
      · exact ⟨s, .refl, hlast⟩
      · obtain ⟨t, hreach, hlast⟩ := ih _ (hn ▸ hlt) hinv rfl
        exact ⟨t, .head hu hreach, hlast⟩

end Loop

/-- What follows the first token is a shorter end of the text. -/
theorem shorter_next {c : Char} {s r : List Char} {t : Token} (h : next c s = (t, r)) : Shorter r (c :: s) := by
  have happend := next_append c s
  have hlt := length_next_lt c s
  rw [h] at happend hlt
  exact ⟨⟨t.chars, happend⟩, hlt⟩

/-! ## Keys -/

structure KeyScan where
  rest : List Char
  depth : Nat
  keys : List String

namespace KeyScan

def literalTurn (st : KeyScan) (q : Char) : Except Breach (Option KeyScan) := do
  let (text, tail) ← splitQuoted q st.rest
  let keys := if st.depth = 1 ∧ ['=', '>'] <+: Text.trimStart tail then
      st.keys ++ [String.ofList text]
    else st.keys
  return some ⟨tail, st.depth, keys⟩

/-- The bracket that closes the array ends the scan. -/
def symbolTurn (st : KeyScan) (c : Char) : Except Breach (Option KeyScan) := do
  let depth ←
    if c = '[' ∨ c = '(' then .ok (st.depth + 1)
    else if c = ']' ∨ c = ')' then minus st.depth 1
    else .ok st.depth
  if (c = ']' ∨ c = ')') ∧ depth = 0 then return none
  let tail ← behind c.utf8Size st.rest
  return some ⟨tail, depth, st.keys⟩

def turn (st : KeyScan) : Except Breach (Option KeyScan) :=
  match st.rest with
  | [] => .ok none
  | c :: _ => do
    match ← skipComment st.rest with
    | some tail => return some { st with rest := tail }
    | none => if c = '\'' ∨ c = '"' then st.literalTurn c else st.symbolTurn c

/-- The scan behind a token, with `r` as the rest; none behind the end of the array. -/
def pass (st : KeyScan) (r : List Char) : Token → Option KeyScan
  | .comment _ => some { st with rest := r }
  | .quoted q body _ =>
    if st.depth = 1 ∧ arrowFollows (tokens r) then
      some ⟨r, st.depth, st.keys ++ [String.ofList (unescape q body)]⟩
    else some { st with rest := r }
  | .symbol c =>
    if c = '[' ∨ c = '(' then some ⟨r, st.depth + 1, st.keys⟩
    else if c = ']' ∨ c = ')' then if st.depth ≤ 1 then none else some ⟨r, st.depth - 1, st.keys⟩
    else some { st with rest := r }

variable {c : Char} {s r : List Char} {t : Token} {d : Nat} {ks : List String}

theorem symbolTurn_eq (hd : 0 < d) (s : List Char) :
    symbolTurn ⟨c :: s, d, ks⟩ c = .ok (pass ⟨c :: s, d, ks⟩ s (.symbol c)) := by
  unfold symbolTurn pass
  simp only [behind_head]
  by_cases hopen : c = '[' ∨ c = '('
  · have hclose : ¬(c = ']' ∨ c = ')') := by
      rcases hopen with rfl | rfl <;> decide
    simp only [if_pos hopen, hclose, false_and, if_false]
    rfl
  by_cases hclose : c = ']' ∨ c = ')'
  · have hminus : minus d 1 = .ok (d - 1) := if_pos hd
    simp only [if_neg hopen, hclose, true_and, if_true, hminus]
    by_cases hlast : d ≤ 1
    · rw [if_pos hlast]
      show (if d - 1 = 0 then _ else _) = _
      rw [if_pos (by omega)]
      rfl
    · rw [if_neg hlast]
      show (if d - 1 = 0 then _ else _) = _
      rw [if_neg (by omega)]
      rfl
  · simp only [if_neg hopen, hclose, false_and, if_false]
    rfl

theorem literalTurn_eq (hq : c = '\'' ∨ c = '"') (s : List Char) :
    literalTurn ⟨c :: s, d, ks⟩ c = .ok (pass ⟨c :: s, d, ks⟩ (literalBody c s).2.2
      (.quoted c (literalBody c s).1 (literalBody c s).2.1)) := by
  unfold literalTurn pass
  simp only [splitQuoted_next hq, arrowFollows_tokens]
  show Except.ok (some (KeyScan.mk _ _ (if _ then _ else _))) = _
  split <;> rfl

/-- One turn passes one token. -/
theorem turn_eq (h : next c s = (t, r)) (hd : 0 < d) (ks : List String) :
    turn ⟨c :: s, d, ks⟩ = .ok (pass ⟨c :: s, d, ks⟩ r t) := by
  have hskip := skipComment_next c s
  rw [h] at hskip
  unfold turn
  rcases next_cases h with ⟨u, rfl, rfl⟩ | ⟨u, rfl, rfl⟩ | ⟨u, rfl, rfl⟩ | ⟨hq, rfl, rfl⟩ | ⟨-, hq, -, rfl, rfl⟩
  · simp only [hskip]
    rfl
  · simp only [hskip]
    rfl
  · simp only [hskip]
    rfl
  · simp only [hskip]
    show (if _ then _ else _) = _
    rw [if_pos hq, literalTurn_eq hq]
  · simp only [hskip]
    show (if _ then _ else _) = _
    rw [if_neg hq, symbolTurn_eq hd]

/-- A token that is passed is left behind, and some bracket stays open. -/
theorem pass_eq_some {st st' : KeyScan} (hd : 0 < st.depth) (h : st.pass r t = some st') :
    st'.rest = r ∧ 0 < st'.depth := by
  unfold pass at h
  split at h
  · cases h
    exact ⟨rfl, hd⟩
  · split at h <;> cases h <;> exact ⟨rfl, hd⟩
  · split at h
    · cases h
      exact ⟨rfl, Nat.succ_pos _⟩
    split at h
    · split at h
      · cases h
      · next hlast =>
        cases h
        refine ⟨rfl, ?_⟩
        show 0 < st.depth - 1
        omega
    · cases h
      exact ⟨rfl, hd⟩

theorem turn_cases {st : KeyScan} (hd : 0 < st.depth) :
    turn st = .ok none ∨ ∃ st', turn st = .ok (some st') ∧ 0 < st'.depth ∧ Shorter st'.rest st.rest := by
  obtain ⟨rest, d, ks⟩ := st
  cases rest with
  | nil => exact Or.inl rfl
  | cons c s =>
    cases h : next c s with
    | mk t r =>
      have hturn := turn_eq h hd ks
      cases hp : pass ⟨c :: s, d, ks⟩ r t with
      | none => exact Or.inl (by rw [hturn, hp])
      | some st' =>
        obtain ⟨hrest, hdepth⟩ := pass_eq_some hd hp
        exact Or.inr ⟨st', by rw [hturn, hp], hdepth, hrest ▸ shorter_next h⟩

/-- From any text and any depth but zero on the scan for keys comes to an end. -/
theorem safe {st : KeyScan} (hd : 0 < st.depth) : Safe turn rest (fun st => 0 < st.depth) st :=
  safe_of_turns (fun _ => turn_cases) hd

def total (st : KeyScan) : List String := st.keys ++ keysFrom st.depth (tokens st.rest)

/-- A token adds to the keys collected what it takes from those to come. -/
theorem total_pass (st : KeyScan) (r : List Char) (t : Token) :
    ((st.pass r t).map total).getD st.keys = st.keys ++ keysFrom st.depth (t :: tokens r) := by
  cases t with
  | comment x => rfl
  | quoted q body closed =>
    rw [pass, keysFrom]
    by_cases hk : st.depth = 1 ∧ arrowFollows (tokens r) = true
    · rw [if_pos hk, if_pos hk]
      exact List.append_assoc _ _ _
    · rw [if_neg hk, if_neg hk]
      rfl
  | symbol c =>
    rw [pass, keysFrom]
    by_cases hopen : c = '[' ∨ c = '('
    · rw [if_pos hopen, if_pos hopen]
      rfl
    rw [if_neg hopen, if_neg hopen]
    by_cases hclose : c = ']' ∨ c = ')'
    · rw [if_pos hclose, if_pos hclose]
      by_cases hlast : st.depth ≤ 1
      · rw [if_pos hlast, if_pos hlast]
        exact (List.append_nil _).symm
      · rw [if_neg hlast, if_neg hlast]
        rfl
    · rw [if_neg hclose, if_neg hclose]
      rfl

/-- So does a turn; the last one leaves none to come. -/
theorem total_turn {st : KeyScan} {o : Option KeyScan} (hd : 0 < st.depth) (h : turn st = .ok o) :
    (o.map total).getD st.keys = st.total := by
  obtain ⟨rest, d, ks⟩ := st
  cases rest with
  | nil =>
    cases h
    show ks = ks ++ keysFrom d (tokens [])
    rw [tokens_nil, keysFrom, List.append_nil]
  | cons c s =>
    cases hn : next c s with
    | mk t r =>
      rw [turn_eq hn hd ks] at h
      have htotal := total_pass ⟨c :: s, d, ks⟩ r t
      rw [Except.ok.inj h] at htotal
      show _ = ks ++ keysFrom d (tokens (c :: s))
      rw [tokens, hn]
      exact htotal

/-- The scan never loses a key and finds none twice. -/
theorem total_of_reaches {st st' : KeyScan} (h : Reaches turn st st') (hd : 0 < st.depth) :
    st'.total = st.total := by
  induction h with
  | refl => rfl
  | tail hreach hturn ih =>
    have hpos := (safe hd).keeps hreach
    exact (total_turn hpos hturn).trans ih

/-- At its end the scan has the keys of the tokens that it started in front of. -/
theorem keys_of_ends {st st' : KeyScan} (hd : 0 < st.depth) (h : Ends turn st st') :
    st'.keys = st.keys ++ keysFrom st.depth (tokens st.rest) := by
  have hpos := (safe hd).keeps h.1
  exact (total_turn hpos h.2).trans (total_of_reaches h.1 hd)

theorem nesting_pass (st : KeyScan) (r : List Char) (t : Token) (ts : List Token) :
    nesting st.depth (t :: ts) = (st.pass r t).bind fun st' => nesting st'.depth ts := by
  cases t with
  | comment x => rfl
  | quoted q body closed =>
    rw [pass]
    split <;> rfl
  | symbol c =>
    rw [pass, nesting]
    by_cases hopen : c = '[' ∨ c = '('
    · rw [if_pos hopen, if_pos hopen]
      rfl
    rw [if_neg hopen, if_neg hopen]
    by_cases hclose : c = ']' ∨ c = ')'
    · rw [if_pos hclose, if_pos hclose]
      split <;> rfl
    · rw [if_neg hclose, if_neg hclose]
      rfl

/-- Tokens that leave the array open are passed, up to the text that follows them. -/
theorem reaches_lexed {ts : List Token} {e : Nat} (h : Lexed ts r) (hd : 0 < d) (hn : nesting d ts = some e)
    (ks : List String) : ∃ ks', Reaches turn ⟨text ts ++ r, d, ks⟩ ⟨r, e, ks'⟩ := by
  induction ts generalizing d ks with
  | nil =>
    cases hn
    exact ⟨ks, .refl⟩
  | cons t ts ih =>
    obtain ⟨⟨c, s, hnext⟩, hlexed⟩ := h
    have hfront := next_append c s
    rw [hnext] at hfront
    rw [text_cons, List.append_assoc, hfront]
    rw [nesting_pass ⟨c :: s, d, ks⟩ (text ts ++ r) t ts, Option.bind_eq_some_iff] at hn
    obtain ⟨⟨rest, d', ks'⟩, hpass, hn⟩ := hn
    obtain ⟨hrest, hd'⟩ := pass_eq_some hd hpass
    cases hrest
    have hturn := turn_eq hnext hd ks
    rw [hpass] at hturn
    obtain ⟨ks'', hreach⟩ := ih hlexed hd' hn ks'
    exact ⟨ks'', .head hturn hreach⟩

end KeyScan

/-! ## The end of the code -/

structure CodeScan where
  rest : List Char
  stop : Nat

namespace CodeScan

def turn (whole : List Char) (st : CodeScan) : Except Breach (Option CodeScan) :=
  match st.rest with
  | [] => .ok none
  | c :: _ => do
    match ← skipComment st.rest with
    | some tail => return some { st with rest := tail }
    | none =>
      let tail ← if c = '\'' ∨ c = '"' then (splitQuoted c st.rest).map (·.2) else behind c.utf8Size st.rest
      if Text.isBlank c then return some { st with rest := tail }
      return some ⟨tail, ← minus (width whole) (width tail)⟩

variable {whole s r : List Char} {c : Char} {t : Token} {n : Nat}

/-- One turn passes one token, and puts the mark behind it if it is code. -/
theorem turn_eq (h : next c s = (t, r)) (hs : c :: s <:+ whole) :
    turn whole ⟨c :: s, n⟩ = .ok (some ⟨r, if t.isCode then width whole - width r else n⟩) := by
  have hskip := skipComment_next c s
  rw [h] at hskip
  have hminus : minus (width whole) (width r) = .ok (width whole - width r) := by
    obtain ⟨p, hp⟩ := (shorter_next h).1.trans hs
    refine if_pos ?_
    rw [← hp, width_append]
    exact Nat.le_add_left _ _
  unfold turn
  rcases next_cases h with ⟨u, rfl, rfl⟩ | ⟨u, rfl, rfl⟩ | ⟨u, rfl, rfl⟩ | ⟨hq, rfl, rfl⟩ | ⟨-, hq, -, rfl, rfl⟩
  · simp only [hskip]
    rfl
  · simp only [hskip]
    rfl
  · simp only [hskip]
    rfl
  · have hb : ¬Text.isBlank c = true := by
      rcases hq with rfl | rfl <;> decide
    simp only [hskip, splitQuoted_next hq, if_pos hq]
    show (if _ then _ else _) = _
    rw [if_neg hb, hminus]
    rfl
  · simp only [hskip, if_neg hq, behind_head]
    show (if _ then _ else _) = Except.ok (some (CodeScan.mk _ (if (!Text.isBlank c) = true then _ else _)))
    cases hb : Text.isBlank c with
    | true => rfl
    | false =>
      rw [hminus]
      rfl

theorem turn_cases {st : CodeScan} (hs : st.rest <:+ whole) : turn whole st = .ok none ∨
    ∃ st', turn whole st = .ok (some st') ∧ st'.rest <:+ whole ∧ Shorter st'.rest st.rest := by
  obtain ⟨rest, n⟩ := st
  cases rest with
  | nil => exact Or.inl rfl
  | cons c s =>
    cases h : next c s with
    | mk t r =>
      have hshort := shorter_next h
      have hturn := turn_eq (n := n) h hs
      exact Or.inr ⟨_, hturn, hshort.1.trans hs, hshort⟩

/-- From any end of the text on the scan for the end of its code comes to an end. -/
theorem safe {st : CodeScan} (hs : st.rest <:+ whole) : Safe (turn whole) rest (·.rest <:+ whole) st :=
  safe_of_turns (fun _ => turn_cases) hs

/-- The mark behind tokens that start behind a front of the text: behind the last of them
    that is code, or where it was. -/
def markBehind (n : Nat) (front : List Char) : List Token → Nat
  | [] => n
  | t :: ts => markBehind (if t.isCode then width (front ++ t.chars) else n) (front ++ t.chars) ts

theorem markBehind_append (n : Nat) (front : List Char) (ts us : List Token) :
    markBehind n front (ts ++ us) = markBehind (markBehind n front ts) (front ++ text ts) us := by
  induction ts generalizing n front with
  | nil => rw [List.nil_append, text_nil, List.append_nil, markBehind]
  | cons t ts ih => rw [List.cons_append, markBehind, ih, text_cons, List.append_assoc, markBehind]

/-- White space and comments leave the mark where it is. -/
theorem markBehind_space {ts : List Token} (h : ∀ t ∈ ts, t.isCode = false) (n : Nat) (front : List Char) :
    markBehind n front ts = n := by
  induction ts generalizing front with
  | nil => rfl
  | cons t ts ih =>
    obtain ⟨ht, hts⟩ := List.forall_mem_cons.1 h
    rw [markBehind, ht, if_neg Bool.false_ne_true, ih hts]

/-- Behind code the mark is at its end. -/
theorem markBehind_code {t : Token} (h : t.isCode = true) (n : Nat) (front : List Char) (ts : List Token) :
    markBehind n front (ts ++ [t]) = width (front ++ text (ts ++ [t])) := by
  rw [markBehind_append, markBehind, if_pos h, markBehind, text_append, List.append_assoc, text_cons, text_nil,
    List.append_nil]

/-- Tokens in front of a text are passed, up to that text. -/
theorem reaches_lexed {ts : List Token} (h : Lexed ts r) (front : List Char) (n : Nat) :
    Reaches (turn (front ++ (text ts ++ r))) ⟨text ts ++ r, n⟩ ⟨r, markBehind n front ts⟩ := by
  induction ts generalizing front n with
  | nil => exact .refl
  | cons t ts ih =>
    obtain ⟨⟨c, s, hnext⟩, hlexed⟩ := h
    have hfront := next_append c s
    rw [hnext] at hfront
    have hmark : width (front ++ (t.chars ++ (text ts ++ r))) - width (text ts ++ r) = width (front ++ t.chars) := by
      rw [← List.append_assoc, width_append]
      exact Nat.add_sub_cancel _ _
    have hturn := turn_eq (n := n) hnext (List.suffix_append front (c :: s))
    have hreach := ih hlexed (front ++ t.chars) (if t.isCode then width (front ++ t.chars) else n)
    rw [← hfront, hmark] at hturn
    rw [List.append_assoc] at hreach
    rw [text_cons, List.append_assoc, markBehind]
    exact .head hturn hreach

/-- Tokens of which the last is code are passed with the mark put behind them. -/
theorem reaches_code {ts : List Token} (h : Lexed ts r) (hne : ts ≠ []) (hcode : EndsInCode ts)
    (front : List Char) (n : Nat) :
    Reaches (turn (front ++ (text ts ++ r))) ⟨text ts ++ r, n⟩ ⟨r, width (front ++ text ts)⟩ := by
  have hreach := reaches_lexed h front n
  obtain ⟨us, t, rfl⟩ := (List.eq_nil_or_concat ts).resolve_left hne
  rw [List.concat_eq_append] at hcode hreach ⊢
  rwa [markBehind_code (endsInCode_snoc.1 hcode)] at hreach

/-- The scan of a text ends with its mark where the code of the text is cut off. -/
theorem ends_splitCode (s : List Char) : Ends (turn s) ⟨s, 0⟩ ⟨[], width (splitCode s).1⟩ := by
  refine ⟨?_, rfl⟩
  have hreach := reaches_lexed (lexed_tokens s) [] 0
  rw [List.nil_append, List.append_nil, text_tokens] at hreach
  obtain ⟨ts, us, htok, hts, hus⟩ := exists_endsInCode (tokens s)
  rw [splitCode_eq htok hts hus]
  rw [htok, markBehind_append, markBehind_space hus] at hreach
  rcases List.eq_nil_or_concat ts with rfl | ⟨vs, t, rfl⟩
  · exact hreach
  · rw [List.concat_eq_append] at hts hreach ⊢
    rwa [markBehind_code (endsInCode_snoc.1 hts)] at hreach

end CodeScan

end PhpScribe.ConfigFile
