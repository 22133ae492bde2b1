/-
  PhpScribe.FileTree — a tree of files and directories, as a value.

  A directory holds files and directories under their names; the root is always there and
  is the directory in which relative paths start. A path is walked step by step: every
  step but the last has to lead to a directory, two dots lead back and stay at the root,
  a name of more than 255 bytes leads nowhere, nor does a path that is too long or has a
  NUL in it.

  The tree is seen through `get?`, what stands at a place. Putting something at a place
  that is free or a file, in a directory that is there, leaves every other place alone
  (`get?_put_of_ne`).
-/

import PhpScribe.Disk
import PhpScribe.Entries

namespace PhpScribe

inductive Entry where
  | directory
  | file (content : ByteArray)

instance : DecidableEq Entry
  | .directory, .directory => isTrue rfl
  | .directory, .file _ => isFalse Entry.noConfusion
  | .file _, .directory => isFalse Entry.noConfusion
  | .file a, .file b =>
    match ByteArray.instDecidableEq a b with
    | isTrue h => isTrue (congrArg Entry.file h)
    | isFalse h => isFalse fun he => h (Entry.file.inj he)

/-- The names that lead from the root to a place. -/
abbrev Location := List String

inductive Branch where
  | file (content : ByteArray)
  | directory (members : List (String × Branch))

namespace Branch

def ofEntry : Entry → Branch
  | .directory => .directory []
  | .file content => .file content

def entry : Branch → Entry
  | .file content => .file content
  | .directory _ => .directory

/-- What is in a directory; nothing is in a file. -/
def members : Branch → List (String × Branch)
  | .file _ => []
  | .directory ms => ms

def at? (b : Branch) : Location → Option Branch
  | [] => some b
  | name :: l => (Entries.get? name b.members).bind (·.at? l)

def put (b new : Branch) : Location → Branch
  | [] => new
  | name :: l =>
    let inner := (Entries.get? name b.members).getD (.directory [])
    .directory (Entries.put name (inner.put new l) b.members)

mutual
def places (place : Location) : Branch → List (Location × Entry)
  | .file content => [(place, .file content)]
  | .directory ms => (place, .directory) :: placesOf place ms

def placesOf (place : Location) : List (String × Branch) → List (Location × Entry)
  | [] => []
  | (name, b) :: ms => places (place ++ [name]) b ++ placesOf place ms
end

theorem entry_ofEntry (e : Entry) : (ofEntry e).entry = e := by cases e <;> rfl

theorem members_ofEntry (e : Entry) : (ofEntry e).members = [] := by cases e <;> rfl

theorem at?_of_members {b : Branch} (h : b.members = []) {l : Location} (hl : l ≠ []) :
    b.at? l = none := by
  cases l with
  | nil => exact absurd rfl hl
  | cons name l => simp [at?, h, Entries.get?]

theorem at?_put_self (b new : Branch) (l : Location) : (b.put new l).at? l = some new := by
  induction l generalizing b with
  | nil => rfl
  | cons name l ih => simp [put, at?, members, Entries.get?_put_self, ih]

theorem entry_at?_put_of_ne {b new : Branch} {k l : Location} (h : k ≠ l)
    (hn : new.members = []) (hl : (b.at? l).map entry ≠ some .directory)
    (hp : (b.at? l.dropLast).map entry = some .directory) :
    ((b.put new l).at? k).map entry = (b.at? k).map entry := by
  induction l generalizing b k with
  | nil => exact absurd hp hl
  | cons name l ih =>
    obtain ⟨ms, rfl⟩ : ∃ ms, b = .directory ms := by
      cases b with
      | directory ms => exact ⟨ms, rfl⟩
      | file c => cases l <;> simp [at?, entry, members, Entries.get?] at hp
    cases k with
    | nil => rfl
    | cons j k =>
      by_cases hj : j = name
      · subst hj
        have hk : k ≠ l := fun e => h (by rw [e])
        simp only [put, at?, members, Entries.get?_put_self, Option.bind_some] at hl hp ⊢
        cases hg : Entries.get? j ms with
        | none =>
          cases l with
          | nil => simp [put, at?_of_members hn hk]
          | cons i l => simp [at?, members, hg] at hp
        | some c =>
          cases l with
          | nil =>
            have hc : c.members = [] := by
              cases c with
              | file _ => rfl
              | directory _ => simp [hg, at?, entry] at hl
            simp [put, at?_of_members hn hk, at?_of_members hc hk]
          | cons i l =>
            simp only [hg, Option.bind_some, Option.getD_some] at hl hp ⊢
            refine ih hk hl ?_
            simpa [at?, members, hg] using hp
      · simp [put, at?, members, Entries.get?_put_of_ne hj]

end Branch

structure FileTree where
  members : List (String × Branch)

namespace FileTree

def empty : FileTree := ⟨[]⟩

def root (t : FileTree) : Branch := .directory t.members

def get? (t : FileTree) (l : Location) : Option Entry := (t.root.at? l).map (·.entry)

def put (t : FileTree) (l : Location) (e : Entry) : FileTree :=
  ⟨(t.root.put (.ofEntry e) l).members⟩

def places (t : FileTree) : List (Location × Entry) := Branch.placesOf [] t.members

theorem get?_root (t : FileTree) : t.get? [] = some .directory := rfl

theorem root_put {l : Location} (h : l ≠ []) (e : Entry) (t : FileTree) :
    (t.put l e).root = t.root.put (.ofEntry e) l := by
  cases l with
  | nil => exact absurd rfl h
  | cons name l => rfl

theorem get?_put_self {l : Location} (h : l ≠ []) (e : Entry) (t : FileTree) :
    (t.put l e).get? l = some e := by
  simp [get?, root_put h, Branch.at?_put_self, Branch.entry_ofEntry]

theorem get?_put_of_ne {k l : Location} (h : k ≠ l) (e : Entry) {t : FileTree}
    (hl : t.get? l ≠ some .directory) (hp : t.get? l.dropLast = some .directory) :
    (t.put l e).get? k = t.get? k := by
  have h0 : l ≠ [] := fun h => hl (h ▸ t.get?_root)
  simp only [get?, root_put h0]
  exact Branch.entry_at?_put_of_ne h (Branch.members_ofEntry e) hl hp

inductive Found where
  | directory (l : Location)
  | file (l : Location) (content : ByteArray)
  /-- Nothing is there, but the directory it would be in is. -/
  | free (l : Location)
  /-- A directory on the way is not there. -/
  | missing
  /-- A file on the way, or a name or a path that cannot be. -/
  | blocked

/-- A name may have this many bytes. -/
def maxName : Nat := 255

def maxText : Nat := 4095

def isName (s : String) : Bool := s.utf8ByteSize ≤ maxName

/-- The directories on the way to one, the nearest first: what is in each, and the name
    under which the way goes on. -/
abbrev Trail := List (String × List (String × Branch))

def Trail.place (trail : Trail) : Location := (trail.map (·.1)).reverse

/-- Walk from a directory, given by what is in it and the trail to it. -/
def walk (trail : Trail) (here : List (String × Branch)) : List Path.Step → Found
  | [] => .directory trail.place
  | step :: rest =>
    if step.name = ".." then
      match trail with
      | [] => walk [] here rest
      | (_, above) :: back => walk back above rest
    else if !isName step.name then .blocked
    else
      let on : Trail := (step.name, here) :: trail
      match Entries.get? step.name here with
      | some (.directory inner) => walk on inner rest
      | some (.file content) => if rest.isEmpty then .file on.place content else .blocked
      | none => if rest.isEmpty then .free on.place else .missing

/-- A text that no call to the system takes. -/
def isRefused (s : String) : Bool := s.utf8ByteSize > maxText || s.toList.contains '\x00'

def find (t : FileTree) (p : Path) : Found :=
  if isRefused p.text then .blocked
  else if p.text.isEmpty then .missing
  else
    match walk [] t.members p.steps with
    | .file l content => if p.asDirectory then .blocked else .file l content
    | found => found

def look (p : Path) (t : FileTree) : Option Kind :=
  match t.find p with
  | .directory _ => some .directory
  | .file _ _ => some .file
  | _ => none

def load (p : Path) (t : FileTree) : Option ByteArray :=
  match t.find p with
  | .file _ content => some content
  | _ => none

def makeDirectory (p : Path) (t : FileTree) : Made × FileTree :=
  match t.find p with
  | .free l => (.made, t.put l .directory)
  | .missing => (.noParent, t)
  | _ => (.refused, t)

def store (p : Path) (content : ByteArray) (t : FileTree) : Bool × FileTree :=
  match t.find p with
  | .free l => if p.asDirectory then (false, t) else (true, t.put l (.file content))
  | .file l _ => (true, t.put l (.file content))
  | _ => (false, t)

instance : Disk (StateM FileTree) where
  look p := fun t => (t.look p, t)
  load p := fun t => (t.load p, t)
  makeDirectory p := fun t => t.makeDirectory p
  store p content := fun t => t.store p content

end FileTree

end PhpScribe
