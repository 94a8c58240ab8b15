/-
# File trees

A tree of directories and files, the walk along a path in it, and the system
calls on it. Components and contents are arbitrary types. There are no links,
so a place in the tree has one location.

A call sets and removes entries of the tree and returns or raises
(`Outcome`); what it had set before it raised stays set. A file system may
refuse any call (`deny`), and it decides what a refused `write` leaves in the
file (`torn`) and a refused `rmtree` of the subtree (`survivors`).

A file opened for writing is empty (`fileAt_openWrite`), and what has been
written to it is there to be read (`fileAt_write`).

Key definitions: `Tree`, `walk`, `FileSystem`, `Outcome`, `openWrite`, `write`,
`mkdirs`, `rename`, `rmtree`.
Key theorems: `walk_insert`, `fileAt_openWrite`, `fileAt_write`.
-/
import Mathlib.Data.List.AList

namespace LspClient
namespace FileTree

inductive Node (β : Type) where
  | file (content : β)
  | dir
  deriving DecidableEq, Repr

/-- The place of a node: the names that lead to it from the root. -/
abbrev Location (κ : Type) := List κ

abbrev Tree (κ β : Type) := AList fun _ : Location κ => Node β

/-- A component of a path: a name, or the way to the parent. -/
inductive Step (κ : Type) where
  | down (name : κ)
  | up
  deriving DecidableEq, Repr

/-- A path, from the root. -/
abbrev Route (κ : Type) := List (Step κ)

inductive OsError where
  | noSuchFile
  | notADirectory
  | isADirectory
  | fileExists
  | notEmpty
  | invalid
  /-- The file system refuses the call. -/
  | refused
  deriving DecidableEq, Repr

/-- The calls a file system may refuse. -/
inductive Call (κ β : Type) where
  | stat (p : Route κ)
  | read (l : Location κ)
  | openWrite (l : Location κ)
  | write (l : Location κ) (content : β)
  | unlink (l : Location κ)
  | rmdir (l : Location κ)
  | mkdir (l : Location κ)
  | rename (l m : Location κ)
  | rmtree (l : Location κ)
  deriving DecidableEq, Repr

/-- A file system: its tree, the calls it refuses at a tree, what a refused
write leaves in the file, and which nodes a refused `rmtree` leaves. -/
structure FileSystem (κ β : Type) where
  tree : Tree κ β
  deny : Tree κ β → Call κ β → Bool
  torn : Tree κ β → Location κ → β → β
  survivors : Tree κ β → Location κ → Location κ → Bool

/-- An entry of the tree that is set, or removed. -/
abbrev Change (κ β : Type) := Location κ × Option (Node β)

/-- What a call has set, and how it ends. -/
structure Outcome (κ β α : Type) where
  changes : List (Change κ β)
  result : Except OsError α

variable {κ β α : Type} [DecidableEq κ]

def Step.go (here : Location κ) : Step κ → Location κ
  | .down name => here ++ [name]
  | .up => here.dropLast

/-- Where a path leads. What it passes through must be directories. -/
def walk (t : Tree κ β) : Location κ → Route κ → Except OsError (Location κ)
  | here, [] => .ok here
  | here, s :: ss =>
    match t.lookup here with
    | some .dir => walk t (s.go here) ss
    | some (.file _) => .error .notADirectory
    | none => .error .noSuchFile

def Tree.set (t : Tree κ β) (c : Change κ β) : Tree κ β :=
  match c.2 with
  | some n => t.insert c.1 n
  | none => t.erase c.1

/-- The tree with all the changes made. -/
def FileSystem.apply (fs : FileSystem κ β) (cs : List (Change κ β)) : FileSystem κ β :=
  { fs with tree := cs.foldl Tree.set fs.tree }

namespace Outcome

def fail (e : OsError) : Outcome κ β α := ⟨[], .error e⟩

def done (cs : List (Change κ β)) (a : α) : Outcome κ β α := ⟨cs, .ok a⟩

end Outcome

open Outcome

/-! ### The calls -/

section Calls

variable (p q : Route κ) (fs : FileSystem κ β)

/-- A call on the entry the path leads to. -/
def onEntry (call : Location κ → Option (Node β) → Outcome κ β α) : Outcome κ β α :=
  match walk fs.tree [] p with
  | .ok l => call l (fs.tree.lookup l)
  | .error e => fail e

/-- A call that sets something, unless it is refused. -/
def allowing (c : Call κ β) (o : Outcome κ β α) : Outcome κ β α :=
  if fs.deny fs.tree c then fail .refused else o

/-- The node the path leads to. -/
def nodeAt : Option (Node β) :=
  match walk fs.tree [] p with
  | .ok l => fs.tree.lookup l
  | .error _ => none

/-- The content of the file at the path. -/
def fileAt : Option β :=
  match nodeAt p fs with
  | some (.file b) => some b
  | _ => none

def pathExists : Outcome κ β Bool := allowing fs (.stat p) (done [] (nodeAt p fs).isSome)

def isDir : Outcome κ β Bool :=
  allowing fs (.stat p) (done [] (match nodeAt p fs with | some .dir => true | _ => false))

def read : Outcome κ β β :=
  onEntry p fs fun l node =>
    match node with
    | some (.file b) => allowing fs (.read l) (done [] b)
    | some .dir => fail .isADirectory
    | none => fail .noSuchFile

/-- Opening for writing: the file is there and `empty` afterwards. -/
def openWrite (empty : β) : Outcome κ β (Location κ) :=
  onEntry p fs fun l node =>
    match node with
    | some .dir => fail .isADirectory
    | _ => allowing fs (.openWrite l) (done [(l, some (.file empty))] l)

/-- Writing to an open file. -/
def write (l : Location κ) (content : β) : Outcome κ β Unit :=
  if fs.deny fs.tree (.write l content) then
    ⟨[(l, some (.file (fs.torn fs.tree l content)))], .error .refused⟩
  else done [(l, some (.file content))] ()

def unlink : Outcome κ β Unit :=
  onEntry p fs fun l node =>
    match node with
    | some (.file _) => allowing fs (.unlink l) (done [(l, none)] ())
    | some .dir => fail .isADirectory
    | none => fail .noSuchFile

/-- The entries at the location and below it. -/
def subtree (t : Tree κ β) (l : Location κ) : List (Σ _ : Location κ, Node β) :=
  t.entries.filter fun e => l.isPrefixOf e.1

/-- Is there anything below the location? -/
def hasChildren (t : Tree κ β) (l : Location κ) : Bool := (subtree t l).any fun e => e.1 ≠ l

def rmdir : Outcome κ β Unit :=
  onEntry p fs fun l node =>
    match node with
    | some .dir =>
      if hasChildren fs.tree l then fail .notEmpty
      else allowing fs (.rmdir l) (done [(l, none)] ())
    | some (.file _) => fail .notADirectory
    | none => fail .noSuchFile

def mkdir : Outcome κ β Unit :=
  onEntry p fs fun l node =>
    match node with
    | some _ => fail .fileExists
    | none => allowing fs (.mkdir l) (done [(l, some .dir)] ())

/-- `mkdir` that takes an existing directory for success. -/
def mkdirExistOk : Outcome κ β Unit :=
  match (mkdir p fs).result with
  | .ok () => mkdir p fs
  | .error .noSuchFile => fail .noSuchFile
  | .error e =>
    match (isDir p fs).result with
    | .ok true => done [] ()
    | .ok false => fail e
    | .error e => fail e

/-- A directory with its parents; the number bounds how many are missing. -/
def mkdirs : ℕ → Route κ → FileSystem κ β → Outcome κ β Unit
  | 0, p, fs => mkdirExistOk p fs
  | n + 1, p, fs =>
    match (mkdirExistOk p fs).result with
    | .error .noSuchFile =>
      let parents := mkdirs n p.dropLast fs
      match parents.result with
      | .ok () =>
        let last := mkdirExistOk p (fs.apply parents.changes)
        ⟨parents.changes ++ last.changes, last.result⟩
      | .error _ => parents
    | _ => mkdirExistOk p fs

/-- The subtree at `l` taken away and put at `m`. -/
def moves (t : Tree κ β) (l m : Location κ) : List (Change κ β) :=
  (subtree t l).map (fun e => (e.1, none)) ++
    (subtree t l).map fun e => (m ++ e.1.drop l.length, some e.2)

def rename : Outcome κ β Unit :=
  onEntry p fs fun l source =>
    onEntry q fs fun m target =>
      match source with
      | none => fail .noSuchFile
      | some source =>
        if l = m then done [] ()
        else if l.isPrefixOf m then fail .invalid
        else if m.isPrefixOf l then fail .notEmpty
        else match source, target with
          | .file _, some .dir => fail .isADirectory
          | .dir, some (.file _) => fail .notADirectory
          | _, _ =>
            if hasChildren fs.tree m then fail .notEmpty
            else allowing fs (.rename l m) (done (moves fs.tree l m) ())

def rmtree : Outcome κ β Unit :=
  onEntry p fs fun l node =>
    match node with
    | some .dir =>
      let all := (subtree fs.tree l).map (·.1)
      if fs.deny fs.tree (.rmtree l) then
        ⟨(all.filter fun m => !fs.survivors fs.tree l m).map fun m => (m, none), .error .refused⟩
      else done (all.map fun m => (m, none)) ()
    | some (.file _) => fail .notADirectory
    | none => fail .noSuchFile

end Calls

/-! ### What only looks -/

section Looking

variable (p : Route κ) (fs : FileSystem κ β)

omit [DecidableEq κ] in
theorem allowing_changes {c : Call κ β} {o : Outcome κ β α} (h : o.changes = []) :
    (allowing fs c o).changes = [] := by
  unfold allowing
  split_ifs
  · rfl
  · exact h

theorem pathExists_changes : (pathExists p fs).changes = [] := allowing_changes fs rfl

theorem isDir_changes : (isDir p fs).changes = [] := allowing_changes fs rfl

theorem read_changes : (read p fs).changes = [] := by
  unfold read onEntry
  split
  · simp only
    split
    · exact allowing_changes fs rfl
    · rfl
    · rfl
  · rfl

end Looking

/-! ### What has been written -/

theorem lookup_set (t : Tree κ β) (c : Change κ β) (l : Location κ) :
    (Tree.set t c).lookup l = if l = c.1 then c.2 else t.lookup l := by
  obtain ⟨m, n⟩ := c
  unfold Tree.set
  cases n with
  | none =>
    by_cases h : l = m
    · rw [h, if_pos rfl]
      exact AList.lookup_erase m t
    · rw [if_neg h]
      exact AList.lookup_erase_ne h
  | some n =>
    by_cases h : l = m
    · rw [h, if_pos rfl]
      exact AList.lookup_insert t
    · rw [if_neg h]
      exact AList.lookup_insert_ne h

/-- Writing a file does not turn a path elsewhere. -/
theorem walk_insert {t : Tree κ β} {l : Location κ} {b : β} (h : t.lookup l ≠ some .dir) :
    ∀ (p : Route κ) (here m : Location κ), walk t here p = .ok m →
      walk (Tree.set t (l, some (.file b))) here p = .ok m
  | [], _, _, hw => hw
  | s :: ss, here, m, hw => by
    rw [walk] at hw ⊢
    by_cases hl : here = l
    · subst hl
      split at hw
      · rename_i hd
        exact absurd hd h
      · cases hw
      · cases hw
    · rw [lookup_set, if_neg hl]
      split at hw
      · exact walk_insert h ss _ m hw
      · cases hw
      · cases hw

omit [DecidableEq κ] in
theorem allowing_ok {fs : FileSystem κ β} {c : Call κ β} {o : Outcome κ β α} {a : α}
    (h : (allowing fs c o).result = .ok a) : allowing fs c o = o := by
  unfold allowing at h ⊢
  split_ifs at h ⊢
  · cases h
  · rfl

/-- A call that succeeds has reached its entry. -/
theorem onEntry_ok {fs : FileSystem κ β} {p : Route κ} {call : Location κ → Option (Node β) → Outcome κ β α}
    {a : α} (h : (onEntry p fs call).result = .ok a) :
    ∃ l, walk fs.tree [] p = .ok l ∧ onEntry p fs call = call l (fs.tree.lookup l) := by
  unfold onEntry at h ⊢
  cases hw : walk fs.tree [] p with
  | error e =>
    rw [hw] at h
    cases h
  | ok l => exact ⟨l, rfl, rfl⟩

/-- What has been read is the content of the file. -/
theorem read_ok {fs : FileSystem κ β} {p : Route κ} {b : β} (h : (read p fs).result = .ok b) :
    fileAt p fs = some b := by
  obtain ⟨l, hw, hcall⟩ := onEntry_ok h
  rw [read, hcall] at h
  unfold fileAt nodeAt
  rw [hw]
  show (match fs.tree.lookup l with | some (.file b) => some b | _ => none) = some b
  cases hn : fs.tree.lookup l with
  | none =>
    rw [hn] at h
    cases h
  | some node =>
    cases node with
    | dir =>
      rw [hn] at h
      cases h
    | file content =>
      simp only [hn] at h
      rw [allowing_ok h] at h
      exact congrArg some (Except.ok.inj h)

/-- A file opened for writing: the path leads to it, and it is no directory. -/
theorem openWrite_ok {fs : FileSystem κ β} {p : Route κ} {empty : β} {l : Location κ}
    (h : (openWrite p fs empty).result = .ok l) : walk fs.tree [] p = .ok l ∧
      fs.tree.lookup l ≠ some .dir ∧ openWrite p fs empty = done [(l, some (.file empty))] l := by
  obtain ⟨m, hw, hcall⟩ := onEntry_ok h
  rw [openWrite, hcall] at h ⊢
  by_cases hd : fs.tree.lookup m = some .dir
  · rw [hd] at h
    cases h
  · have hopen : ∀ node : Option (Node β), node ≠ some .dir → (match node with
        | some .dir => fail .isADirectory
        | _ => allowing fs (.openWrite m) (done [(m, some (.file empty))] m)) =
        allowing fs (.openWrite m) (done [(m, some (.file empty))] m) := by
      intro node hnode
      split
      · exact absurd rfl hnode
      · rfl
    rw [hopen _ hd] at h ⊢
    have hdone := allowing_ok h
    rw [hdone] at h
    cases h
    exact ⟨hw, hd, hdone⟩

/-- Where the entries are the same, every path leads to the same place. -/
theorem walk_congr {t t' : Tree κ β} (h : ∀ l, t.lookup l = t'.lookup l) :
    ∀ (here : Location κ) (p : Route κ), walk t here p = walk t' here p
  | _, [] => rfl
  | here, s :: ss => by
    rw [walk, walk, h here]
    split
    · exact walk_congr h _ ss
    · rfl
    · rfl

theorem fileAt_congr {fs fs' : FileSystem κ β} (h : ∀ l, fs.tree.lookup l = fs'.tree.lookup l)
    (p : Route κ) : fileAt p fs = fileAt p fs' := by
  unfold fileAt nodeAt
  rw [walk_congr h]
  cases walk fs'.tree [] p with
  | ok l => simp only [h l]
  | error e => rfl

/-- **A file opened for writing is empty**, and this has changed nothing that
can be read just if it was empty before. -/
theorem fileAt_openWrite {fs : FileSystem κ β} {p : Route κ} {empty : β} {l : Location κ}
    (h : (openWrite p fs empty).result = .ok l) :
    fileAt p (fs.apply (openWrite p fs empty).changes) = some empty ∧
      ((∀ q, fileAt q (fs.apply (openWrite p fs empty).changes) = fileAt q fs) ↔
        fileAt p fs = some empty) := by
  obtain ⟨hwalk, hdir, hopen⟩ := openWrite_ok h
  have hafter : fileAt p (fs.apply (openWrite p fs empty).changes) = some empty := by
    have hwalk' := walk_insert (b := empty) hdir p [] l hwalk
    rw [hopen]
    simp only [fileAt, nodeAt, FileSystem.apply, done, List.foldl_cons, List.foldl_nil, hwalk',
      lookup_set, ↓reduceIte]
  refine ⟨hafter, fun hall => (hall p).symm.trans hafter, fun hbefore q => ?_⟩
  -- the entry that is set is the one that was there
  have hnode : fs.tree.lookup l = some (.file empty) := by
    simp only [fileAt, nodeAt, hwalk] at hbefore
    split at hbefore
    · rename_i b hb
      cases hbefore
      exact hb
    · cases hbefore
  rw [hopen]
  refine fileAt_congr (fun m => ?_) q
  simp only [FileSystem.apply, done, List.foldl_cons, List.foldl_nil, lookup_set]
  split_ifs with hm
  · rw [hm, hnode]
  · rfl

omit [DecidableEq κ] in
theorem write_ok {fs : FileSystem κ β} {l : Location κ} {b : β}
    (h : (write fs l b).result = .ok ()) : write fs l b = done [(l, some (.file b))] () := by
  unfold write at h ⊢
  split_ifs at h ⊢
  rfl

/-- **What has been written is there to be read.** -/
theorem fileAt_write {fs : FileSystem κ β} {p : Route κ} {empty b : β} {l : Location κ}
    (ho : (openWrite p fs empty).result = .ok l)
    (hw : (write (fs.apply (openWrite p fs empty).changes) l b).result = .ok ()) :
    fileAt p ((fs.apply (openWrite p fs empty).changes).apply
      (write (fs.apply (openWrite p fs empty).changes) l b).changes) = some b := by
  obtain ⟨hwalk, hdir, hopen⟩ := openWrite_ok ho
  rw [write_ok hw, hopen]
  have h1 := walk_insert (b := empty) hdir p [] l hwalk
  have h2 := walk_insert (t := Tree.set fs.tree (l, some (.file empty))) (l := l) (b := b)
    (by rw [lookup_set, if_pos rfl]; simp) p [] l h1
  simp only [fileAt, nodeAt, FileSystem.apply, done, List.foldl_cons, List.foldl_nil, h2, lookup_set,
    ↓reduceIte]

end FileTree
end LspClient
