/-
# Where a path leads

There are no links in a file tree, so where a path leads is a matter of its
components alone (`leads`), and it can be walked just if everything it passes is
a directory (`walk_ok_iff`). A walk from the root that gets below a place has
been at that place (`mem_visits_below`).

So whether a path still leads to a file after a change of the tree is decided by
the places it visits: after something is removed (`Removed.hasFile_iff`), and
after something is moved, onto another file perhaps (`Moved.hasFile_iff`). What
is only added to or rewritten, keeps every file (`Keeps.hasFile`).

Key definitions: `leads`, `passes`, `visits`, `HasFile`, `Extends`, `Keeps`,
`Removed`, `Moved`.
Key theorems: `walk_ok_iff`, `mem_visits_below`, `Removed.hasFile_iff`,
`Moved.hasFile_iff`.
-/
import LspClient.Lib.FileTree

namespace LspClient
namespace FileTree

variable {κ β : Type} [DecidableEq κ]

/-- Where a path leads. -/
def leads : Location κ → Route κ → Location κ
  | here, [] => here
  | here, s :: ss => leads (s.go here) ss

/-- The places a path comes through before its end. -/
def passes : Location κ → Route κ → List (Location κ)
  | _, [] => []
  | here, s :: ss => here :: passes (s.go here) ss

/-- The places of a path, with its end. -/
def visits (here : Location κ) (p : Route κ) : List (Location κ) := passes here p ++ [leads here p]

/-- The path can be walked. -/
def Walkable (p : Route κ) (t : Tree κ β) : Prop := ∀ l ∈ passes [] p, t.lookup l = some .dir

/-- The path leads to a file. -/
def HasFile (p : Route κ) (t : Tree κ β) : Prop :=
  Walkable p t ∧ ∃ b, t.lookup (leads [] p) = some (.file b)

theorem walk_ok_iff {t : Tree κ β} : ∀ {here m : Location κ} {p : Route κ},
    walk t here p = .ok m ↔ leads here p = m ∧ ∀ l ∈ passes here p, t.lookup l = some .dir
  | here, m, [] => by simp [walk, leads, passes]
  | here, m, s :: ss => by
    rw [walk, leads, passes, List.forall_mem_cons]
    split
    · rename_i hdir
      rw [walk_ok_iff]
      simp [hdir]
    · rename_i hfile
      simp [hfile]
    · rename_i hnone
      simp [hnone]

theorem nodeAt_eq_some_iff {p : Route κ} {fs : FileSystem κ β} {n : Node β} :
    nodeAt p fs = some n ↔ Walkable p fs.tree ∧ fs.tree.lookup (leads [] p) = some n := by
  unfold nodeAt Walkable
  cases hw : walk fs.tree [] p with
  | ok l =>
    obtain ⟨rfl, hpass⟩ := walk_ok_iff.mp hw
    simp only
    exact ⟨fun h => ⟨hpass, h⟩, fun h => h.2⟩
  | error e =>
    simp only [reduceCtorEq, false_iff, not_and]
    intro hpass
    cases hw.symm.trans (walk_ok_iff.mpr ⟨rfl, hpass⟩)

theorem fileAt_eq_some_iff {p : Route κ} {fs : FileSystem κ β} {b : β} :
    fileAt p fs = some b ↔ Walkable p fs.tree ∧ fs.tree.lookup (leads [] p) = some (.file b) := by
  rw [← nodeAt_eq_some_iff, fileAt]
  split
  · rename_i b' hb'
    rw [hb']
    simp
  · rename_i hnot
    refine iff_of_false (fun h => ?_) (hnot b)
    cases h

theorem hasFile_iff {p : Route κ} {fs : FileSystem κ β} :
    HasFile p fs.tree ↔ ∃ b, fileAt p fs = some b := by
  simp only [fileAt_eq_some_iff, exists_and_left]
  rfl

omit [DecidableEq κ] in
theorem result_of_allowing {α : Type} {fs : FileSystem κ β} {c : Call κ β} {o : Outcome κ β α} {a : α}
    (h : (allowing fs c o).result = .ok a) : o.result = .ok a := by
  rwa [allowing_ok h] at h

theorem pathExists_ok {p : Route κ} {fs : FileSystem κ β} {b : Bool}
    (h : (pathExists p fs).result = .ok b) : (nodeAt p fs).isSome = b :=
  Except.ok.inj (result_of_allowing h)

/-! ### The places of a path -/

omit [DecidableEq κ] in
theorem head_mem_visits (here : Location κ) (p : Route κ) : here ∈ visits here p := by
  cases p with
  | nil => exact List.mem_cons_self
  | cons s ss => exact List.mem_cons_self

omit [DecidableEq κ] in
theorem leads_mem_visits (here : Location κ) (p : Route κ) : leads here p ∈ visits here p :=
  List.mem_append_right _ List.mem_cons_self

omit [DecidableEq κ] in
theorem mem_visits {here l : Location κ} {p : Route κ} :
    l ∈ visits here p ↔ l ∈ passes here p ∨ l = leads here p := by
  rw [visits, List.mem_append, List.mem_singleton]

omit [DecidableEq κ] in
/-- A path gets below a place that it does not start below only through it. -/
theorem prefix_here_or_mem {m : Location κ} : ∀ {p : Route κ} {here l : Location κ},
    l ∈ visits here p → m <+: l → m <+: here ∨ m ∈ visits here p
  | [], here, l, hl, hm => by
    rw [visits, passes, leads, List.nil_append, List.mem_singleton] at hl
    exact Or.inl (hl ▸ hm)
  | s :: ss, here, l, hl, hm => by
    have hvisits : visits here (s :: ss) = here :: visits (s.go here) ss := rfl
    rw [hvisits] at hl ⊢
    obtain rfl | hl := List.mem_cons.mp hl
    · exact Or.inl hm
    · obtain hgo | hmem := prefix_here_or_mem hl hm
      · cases s with
        | down name =>
          obtain rfl | hhere := List.prefix_concat_iff.mp hgo
          · exact Or.inr (List.mem_cons_of_mem _ (head_mem_visits _ ss))
          · exact Or.inl hhere
        | up => exact Or.inl (hgo.trans (List.dropLast_prefix here))
      · exact Or.inr (List.mem_cons_of_mem _ hmem)

omit [DecidableEq κ] in
/-- **A path from the root has been at every place above those it visits.** -/
theorem mem_visits_below {p : Route κ} {l m : Location κ} (hl : l ∈ visits [] p) (hm : m <+: l) :
    m ∈ visits [] p := by
  obtain hnil | hmem := prefix_here_or_mem hl hm
  · rw [List.prefix_nil.mp hnil]
    exact head_mem_visits [] p
  · exact hmem

/-! ### What the calls do to the entries -/

theorem lookup_foldl_remove (t : Tree κ β) (ls : List (Location κ)) (l : Location κ) :
    ((ls.map fun m => (m, none)).foldl Tree.set t).lookup l = if l ∈ ls then none else t.lookup l := by
  induction ls generalizing t with
  | nil => simp
  | cons m ms ih =>
    rw [List.map_cons, List.foldl_cons, ih, lookup_set]
    by_cases hms : l ∈ ms
    · simp [hms]
    · by_cases hm : l = m
      · simp [hm]
      · simp [hm, hms]

/-- What is put is there, if it is put nowhere else. -/
theorem lookup_foldl_put {α : Type} (t : Tree κ β) (es : List α) (put : α → Location κ × Node β)
    (l : Location κ) :
    (∃ e ∈ es, (put e).1 = l ∧
        ((es.map fun e => ((put e).1, some (put e).2)).foldl Tree.set t).lookup l = some (put e).2) ∨
      (∀ e ∈ es, (put e).1 ≠ l) ∧
        ((es.map fun e => ((put e).1, some (put e).2)).foldl Tree.set t).lookup l = t.lookup l := by
  induction es generalizing t with
  | nil => exact Or.inr ⟨nofun, rfl⟩
  | cons e es ih =>
    rw [List.map_cons, List.foldl_cons]
    obtain ⟨e', he', hl, hlook⟩ | ⟨hnone, hlook⟩ := ih (Tree.set t ((put e).1, some (put e).2))
    · exact Or.inl ⟨e', List.mem_cons_of_mem _ he', hl, hlook⟩
    · rw [hlook, lookup_set]
      by_cases hl : l = (put e).1
      · exact Or.inl ⟨e, List.mem_cons_self, hl.symm, by rw [if_pos hl]⟩
      · rw [if_neg hl]
        exact Or.inr ⟨List.forall_mem_cons.mpr ⟨Ne.symm hl, hnone⟩, rfl⟩

theorem mem_subtree {t : Tree κ β} {l : Location κ} {e : Σ _ : Location κ, Node β} :
    e ∈ subtree t l ↔ t.lookup e.1 = some e.2 ∧ l <+: e.1 := by
  rw [subtree, List.mem_filter, List.isPrefixOf_iff_prefix]
  exact and_congr_left' AList.mem_lookup_iff.symm

/-! ### Calls that set nothing -/

section Nothing

open Outcome

variable {p q : Route κ} {fs : FileSystem κ β} {call : Location κ → Option (Node β) → Outcome κ β α}
  {cs : List (Change κ β)} {a : α}

omit [DecidableEq κ] in
theorem allowing_eq_done {c : Call κ β} {o : Outcome κ β α} (h : allowing fs c o = done cs a) :
    o = done cs a := by
  rwa [allowing_ok (congrArg Outcome.result h)] at h

theorem onEntry_eq_done (h : onEntry p fs call = done cs a) :
    ∃ l, walk fs.tree [] p = .ok l ∧ call l (fs.tree.lookup l) = done cs a := by
  obtain ⟨l, hw, hcall⟩ := onEntry_ok (congrArg Outcome.result h)
  exact ⟨l, hw, hcall.symm.trans h⟩

/-- A file that is opened for writing is set. -/
theorem openWrite_ne_nothing {empty : β} {l : Location κ} : openWrite p fs empty ≠ done [] l := by
  intro h
  have hset := (openWrite_ok (congrArg Outcome.result h)).2.2
  cases hset.symm.trans h

theorem unlink_ne_nothing : unlink p fs ≠ done [] () := by
  intro h
  obtain ⟨l, -, h⟩ := onEntry_eq_done h
  split at h
  · cases allowing_eq_done h
  · cases h
  · cases h

theorem rmdir_ne_nothing : rmdir p fs ≠ done [] () := by
  intro h
  obtain ⟨l, -, h⟩ := onEntry_eq_done h
  split at h
  · split_ifs at h
    · cases h
    · cases allowing_eq_done h
  · cases h
  · cases h

theorem mkdir_ne_nothing : mkdir p fs ≠ done [] () := by
  intro h
  obtain ⟨l, -, h⟩ := onEntry_eq_done h
  split at h
  · cases h
  · cases allowing_eq_done h

theorem rmtree_ne_nothing : rmtree p fs ≠ done [] () := by
  intro h
  obtain ⟨l, -, h⟩ := onEntry_eq_done h
  split at h
  · rename_i hdir
    split_ifs at h
    · cases congrArg Outcome.result h
    · have hmem : ⟨l, .dir⟩ ∈ subtree fs.tree l := mem_subtree.mpr ⟨hdir, List.prefix_rfl⟩
      have hnil := List.map_eq_nil_iff.mp (List.map_eq_nil_iff.mp (congrArg Outcome.changes h))
      rw [hnil] at hmem
      cases hmem
  · cases h
  · cases h

/-- A rename that sets nothing was one to the same place. -/
theorem rename_nothing (h : rename p q fs = done [] ()) : nodeAt q fs = nodeAt p fs := by
  obtain ⟨l, hl, h⟩ := onEntry_eq_done h
  obtain ⟨m, hm, h⟩ := onEntry_eq_done h
  unfold nodeAt
  rw [hl, hm]
  split at h
  · cases h
  · rename_i source hsource
    by_cases hlm : l = m
    · rw [hlm]
    rw [if_neg hlm] at h
    split_ifs at h
    · cases h
    · cases h
    · split at h
      · cases h
      · cases h
      · cases h
    · split at h
      · cases h
      · cases h
      · -- the source itself would have been moved
        have hmoves := congrArg Outcome.changes (allowing_eq_done h)
        have hnil := List.map_eq_nil_iff.mp (List.append_eq_nil_iff.mp hmoves).1
        have hmem : ⟨l, _⟩ ∈ subtree fs.tree l := mem_subtree.mpr ⟨hsource, List.prefix_rfl⟩
        rw [hnil] at hmem
        cases hmem

/-- A directory that need not be made is there. -/
theorem mkdirExistOk_nothing (h : mkdirExistOk p fs = done [] ()) :
    (pathExists p fs).result = .ok true := by
  unfold mkdirExistOk at h
  split at h
  · exact absurd h mkdir_ne_nothing
  · cases h
  · split at h
    · rename_i hdir
      have hstat := allowing_ok hdir
      have hthere := Except.ok.inj ((congrArg Outcome.result hstat).symm.trans hdir)
      have hnode : (nodeAt p fs).isSome = true := by
        cases hp : nodeAt p fs with
        | none =>
          rw [hp] at hthere
          cases hthere
        | some node => rfl
      have hallowed : fs.deny fs.tree (.stat p) ≠ true := by
        intro hdeny
        rw [isDir, allowing, if_pos hdeny] at hdir
        cases hdir
      rw [pathExists, allowing, if_neg hallowed, hnode]
      rfl
    · cases h
    · cases h

theorem mkdirs_nothing : ∀ {n : ℕ}, mkdirs n p fs = done [] () → (pathExists p fs).result = .ok true
  | 0, h => mkdirExistOk_nothing h
  | n + 1, h => by
    rw [mkdirs] at h
    split at h
    · rename_i hmissing
      simp only at h
      split at h
      · -- nothing was set, so the directory is still missing
        obtain ⟨hchanges, hresult⟩ := Outcome.mk.inj h
        obtain ⟨hparents, -⟩ := List.append_eq_nil_iff.mp hchanges
        rw [hparents] at hresult
        cases hmissing.symm.trans hresult
      · rename_i hfails
        rw [h] at hfails
        cases hfails
    · exact mkdirExistOk_nothing h

end Nothing

/-! ### Calls that do nothing if they raise -/

section AllOrNothing

variable {α : Type} {o : Outcome κ β α} {fs : FileSystem κ β}

/-- A call that sets nothing if it raises. -/
def AllOrNothing (o : Outcome κ β α) : Prop := ∀ e, o.result = .error e → o.changes = []

omit [DecidableEq κ] in
theorem allOrNothing_fail (e : OsError) : AllOrNothing (Outcome.fail e : Outcome κ β α) := fun _ _ => rfl

omit [DecidableEq κ] in
theorem allOrNothing_done (cs : List (Change κ β)) (a : α) : AllOrNothing (Outcome.done cs a) := nofun

omit [DecidableEq κ] in
theorem AllOrNothing.allowing (h : AllOrNothing o) (c : Call κ β) : AllOrNothing (allowing fs c o) := by
  unfold FileTree.allowing
  split_ifs
  · exact allOrNothing_fail _
  · exact h

theorem allOrNothing_onEntry {p : Route κ} {call : Location κ → Option (Node β) → Outcome κ β α}
    (h : ∀ l node, AllOrNothing (call l node)) : AllOrNothing (onEntry p fs call) := by
  unfold onEntry
  split
  · exact h _ _
  · exact allOrNothing_fail _

theorem allOrNothing_openWrite (p : Route κ) (fs : FileSystem κ β) (empty : β) :
    AllOrNothing (openWrite p fs empty) := by
  refine allOrNothing_onEntry fun l node => ?_
  split
  · exact allOrNothing_fail _
  · exact (allOrNothing_done _ _).allowing _

theorem allOrNothing_unlink (p : Route κ) (fs : FileSystem κ β) : AllOrNothing (unlink p fs) := by
  refine allOrNothing_onEntry fun l node => ?_
  split
  · exact (allOrNothing_done _ _).allowing _
  · exact allOrNothing_fail _
  · exact allOrNothing_fail _

theorem allOrNothing_rename (p q : Route κ) (fs : FileSystem κ β) : AllOrNothing (rename p q fs) := by
  refine allOrNothing_onEntry fun l source => allOrNothing_onEntry fun m target => ?_
  split
  · exact allOrNothing_fail _
  · split_ifs
    · exact allOrNothing_done _ _
    · exact allOrNothing_fail _
    · exact allOrNothing_fail _
    · split
      · exact allOrNothing_fail _
      · exact allOrNothing_fail _
      · exact allOrNothing_fail _
    · split
      · exact allOrNothing_fail _
      · exact allOrNothing_fail _
      · exact (allOrNothing_done _ _).allowing _

end AllOrNothing

/-! ### Adding and rewriting -/

/-- Nothing but directories has been added. -/
def AddsDirs (t t' : Tree κ β) : Prop :=
  ∀ k, t'.lookup k = t.lookup k ∨ t.lookup k = none ∧ t'.lookup k = some .dir

/-- Directories and files are still there, and files may have other contents. -/
structure Keeps (t t' : Tree κ β) : Prop where
  dir : ∀ k, t.lookup k = some .dir → t'.lookup k = some .dir
  file : ∀ k b, t.lookup k = some (.file b) → ∃ b', t'.lookup k = some (.file b')

section Adding

variable {t t' t'' : Tree κ β} {fs : FileSystem κ β} {p : Route κ}

theorem AddsDirs.refl (t : Tree κ β) : AddsDirs t t := fun _ => Or.inl rfl

theorem AddsDirs.trans (h : AddsDirs t t') (h' : AddsDirs t' t'') : AddsDirs t t'' := by
  intro k
  obtain hk | ⟨hnone, hdir⟩ := h k <;> obtain hk' | ⟨hnone', hdir'⟩ := h' k
  · exact Or.inl (hk'.trans hk)
  · exact Or.inr ⟨hk.symm.trans hnone', hdir'⟩
  · exact Or.inr ⟨hnone, hk'.trans hdir⟩
  · exact Or.inr ⟨hnone, hdir'⟩

theorem AddsDirs.of_some (h : AddsDirs t t') {k : Location κ} {n : Node β} (hk : t.lookup k = some n) :
    t'.lookup k = some n := by
  obtain hsame | ⟨hnone, -⟩ := h k
  · rw [hsame, hk]
  · cases hk.symm.trans hnone

theorem AddsDirs.fileAt (h : AddsDirs fs.tree t') {b : β} (hb : fileAt p fs = some b) :
    Walkable p t' ∧ t'.lookup (leads [] p) = some (.file b) := by
  obtain ⟨hwalk, hend⟩ := fileAt_eq_some_iff.mp hb
  exact ⟨fun l hl => h.of_some (hwalk l hl), h.of_some hend⟩

theorem Keeps.refl (t : Tree κ β) : Keeps t t := ⟨fun _ => id, fun _ b h => ⟨b, h⟩⟩

theorem Keeps.trans (h : Keeps t t') (h' : Keeps t' t'') : Keeps t t'' :=
  ⟨fun k hk => h'.dir k (h.dir k hk), fun k b hk =>
    have ⟨b', hb'⟩ := h.file k b hk
    h'.file k b' hb'⟩

theorem AddsDirs.keeps (h : AddsDirs t t') : Keeps t t' :=
  ⟨fun _ hk => h.of_some hk, fun _ b hk => ⟨b, h.of_some hk⟩⟩

theorem Keeps.hasFile (h : Keeps t t') (hp : HasFile p t) : HasFile p t' :=
  have ⟨hwalk, b, hend⟩ := hp
  ⟨fun l hl => h.dir l (hwalk l hl), h.file _ b hend⟩

/-- Writing where there is no directory. -/
theorem keeps_set_file {l : Location κ} {b : β} (h : t.lookup l ≠ some .dir) :
    Keeps t (Tree.set t (l, some (.file b))) := by
  refine ⟨fun k hk => ?_, fun k b' hk => ?_⟩
  · have hne : k ≠ l := fun he => h (he ▸ hk)
    rw [lookup_set, if_neg hne, hk]
  · rw [lookup_set]
    split_ifs
    · exact ⟨b, rfl⟩
    · exact ⟨b', hk⟩

omit [DecidableEq κ] in
/-- A refused write leaves something in the file, too. -/
theorem write_changes (fs : FileSystem κ β) (l : Location κ) (content : β) :
    ∃ b, (write fs l content).changes = [(l, some (.file b))] := by
  unfold write
  split_ifs
  · exact ⟨_, rfl⟩
  · exact ⟨_, rfl⟩

theorem keeps_write {l : Location κ} (h : fs.tree.lookup l ≠ some .dir) (content : β) :
    Keeps fs.tree (fs.apply (write fs l content).changes).tree := by
  obtain ⟨b, hb⟩ := write_changes fs l content
  rw [hb]
  exact keeps_set_file h

/-- Opening a file for writing: if it can be opened, there is a file afterwards. -/
theorem keeps_openWrite (p : Route κ) (fs : FileSystem κ β) (empty : β) :
    Keeps fs.tree (fs.apply (openWrite p fs empty).changes).tree ∧
      ∀ l, (openWrite p fs empty).result = .ok l →
        (fs.apply (openWrite p fs empty).changes).tree.lookup l ≠ some .dir := by
  cases hr : (openWrite p fs empty).result with
  | error e =>
    rw [allOrNothing_openWrite p fs empty e hr]
    exact ⟨Keeps.refl _, nofun⟩
  | ok l =>
    obtain ⟨-, hdir, hdone⟩ := openWrite_ok hr
    rw [hdone]
    refine ⟨keeps_set_file hdir, fun l' hl' => ?_⟩
    cases hl'
    have hlook : (fs.apply [(l, some (.file empty))]).tree.lookup l = some (.file empty) := by
      simp [FileSystem.apply, lookup_set]
    simp [Outcome.done, hlook]

theorem addsDirs_set {l : Location κ} (h : t.lookup l = none) : AddsDirs t (Tree.set t (l, some .dir)) := by
  intro k
  rw [lookup_set]
  split_ifs with hk
  · exact Or.inr ⟨hk ▸ h, rfl⟩
  · exact Or.inl rfl

theorem apply_append (fs : FileSystem κ β) (cs ds : List (Change κ β)) :
    fs.apply (cs ++ ds) = (fs.apply cs).apply ds := by
  simp only [FileSystem.apply, List.foldl_append]

theorem addsDirs_mkdir (p : Route κ) (fs : FileSystem κ β) :
    AddsDirs fs.tree (fs.apply (mkdir p fs).changes).tree := by
  unfold mkdir onEntry
  split
  · rename_i l _
    cases hl : fs.tree.lookup l with
    | some n => exact AddsDirs.refl _
    | none =>
      simp only
      unfold allowing
      split_ifs
      · exact AddsDirs.refl _
      · exact addsDirs_set hl
  · exact AddsDirs.refl _

theorem addsDirs_mkdirExistOk (p : Route κ) (fs : FileSystem κ β) :
    AddsDirs fs.tree (fs.apply (mkdirExistOk p fs).changes).tree := by
  unfold mkdirExistOk
  split
  · exact addsDirs_mkdir p fs
  · exact AddsDirs.refl _
  · split <;> exact AddsDirs.refl _

theorem addsDirs_mkdirs : ∀ (n : ℕ) (p : Route κ) (fs : FileSystem κ β),
    AddsDirs fs.tree (fs.apply (mkdirs n p fs).changes).tree
  | 0, p, fs => addsDirs_mkdirExistOk p fs
  | n + 1, p, fs => by
    rw [mkdirs]
    split
    · simp only
      split
      · rw [apply_append]
        exact (addsDirs_mkdirs n p.dropLast fs).trans (addsDirs_mkdirExistOk p _)
      · exact addsDirs_mkdirs n p.dropLast fs
    · exact addsDirs_mkdirExistOk p fs

end Adding

/-! ### Removing -/

/-- The entry at `m` is gone, and nothing has changed elsewhere but below it. -/
structure Removed (m : Location κ) (t t' : Tree κ β) : Prop where
  gone : t'.lookup m = none
  rest : ∀ k, ¬ m <+: k → t'.lookup k = t.lookup k

section Removing

variable {t t' : Tree κ β} {fs : FileSystem κ β} {p : Route κ} {m : Location κ}

theorem not_hasFile_of_gone (hgone : t'.lookup m = none) (hm : m ∈ visits [] p) : ¬ HasFile p t' := by
  rintro ⟨hwalk, b, hend⟩
  obtain hpass | rfl := mem_visits.mp hm
  · cases hgone.symm.trans (hwalk m hpass)
  · cases hgone.symm.trans hend

/-- **After a removal a path leads to its file just if it has not visited the place.** -/
theorem Removed.hasFile_iff (h : Removed m t t') (hp : HasFile p t) : HasFile p t' ↔ m ∉ visits [] p := by
  refine ⟨fun hp' hm => not_hasFile_of_gone h.gone hm hp', fun hm => ?_⟩
  have hsame : ∀ k ∈ visits [] p, t'.lookup k = t.lookup k :=
    fun k hk => h.rest k fun hmk => hm (mem_visits_below hk hmk)
  obtain ⟨hwalk, b, hend⟩ := hp
  refine ⟨fun l hl => ?_, b, ?_⟩
  · rw [hsame l (List.mem_append_left _ hl), hwalk l hl]
  · rw [hsame _ (leads_mem_visits [] p), hend]

theorem removed_erase (t : Tree κ β) (m : Location κ) : Removed m t (Tree.set t (m, none)) := by
  refine ⟨by rw [lookup_set, if_pos rfl], fun k hk => ?_⟩
  rw [lookup_set, if_neg]
  rintro rfl
  exact hk List.prefix_rfl

/-- A file is removed, and there may be a directory in its place afterwards: a path leads to
its file just if it did not lead to that one. -/
theorem hasFile_unlinked_iff {t₁ : Tree κ β} {b : β} (hm : t.lookup m = some (.file b))
    (h : Removed m t t₁) (hadds : AddsDirs t₁ t') (hp : HasFile p t) :
    HasFile p t' ↔ leads [] p ≠ m := by
  constructor
  · rintro ⟨-, b', hend⟩ rfl
    obtain hsame | ⟨-, hdir⟩ := hadds (leads [] p)
    · cases hend.symm.trans (hsame.trans h.gone)
    · cases hend.symm.trans hdir
  · intro hne
    refine hadds.keeps.hasFile ((h.hasFile_iff hp).mpr fun hvisit => ?_)
    obtain hpass | rfl := mem_visits.mp hvisit
    · cases hm.symm.trans (hp.1 m hpass)
    · exact hne rfl

/-- A call that succeeds has reached the entry its path leads to. -/
theorem onEntry_ok_leads {α : Type} {call : Location κ → Option (Node β) → Outcome κ β α} {a : α}
    (h : (onEntry p fs call).result = .ok a) : Walkable p fs.tree ∧
      onEntry p fs call = call (leads [] p) (fs.tree.lookup (leads [] p)) := by
  obtain ⟨l, hw, hcall⟩ := onEntry_ok h
  obtain ⟨rfl, hwalk⟩ := walk_ok_iff.mp hw
  exact ⟨hwalk, hcall⟩

/-- A file that could be unlinked: the path leads to it. -/
theorem unlink_ok (h : (unlink p fs).result = .ok ()) : (∃ b, fileAt p fs = some b) ∧
    unlink p fs = Outcome.done [(leads [] p, none)] () := by
  obtain ⟨hwalk, hcall⟩ := onEntry_ok_leads h
  rw [unlink, hcall] at h ⊢
  cases hl : fs.tree.lookup (leads [] p) with
  | none =>
    rw [hl] at h
    cases h
  | some n =>
    cases n with
    | dir =>
      rw [hl] at h
      cases h
    | file b =>
      simp only [hl] at h ⊢
      exact ⟨⟨b, fileAt_eq_some_iff.mpr ⟨hwalk, hl⟩⟩, allowing_ok h⟩

/-- A file is unlinked unless that is refused. -/
theorem unlink_ok_iff {b : β} (h : fileAt p fs = some b) :
    (unlink p fs).result = .ok () ↔ fs.deny fs.tree (.unlink (leads [] p)) = false := by
  obtain ⟨hwalk, hend⟩ := fileAt_eq_some_iff.mp h
  unfold unlink onEntry
  simp only [walk_ok_iff.mpr ⟨rfl, hwalk⟩, hend, allowing]
  cases fs.deny fs.tree (.unlink (leads [] p))
  · exact iff_of_true rfl rfl
  · exact iff_of_false nofun nofun

theorem rmdir_ok (h : (rmdir p fs).result = .ok ()) : rmdir p fs = Outcome.done [(leads [] p, none)] () := by
  obtain ⟨-, hcall⟩ := onEntry_ok_leads h
  rw [rmdir, hcall] at h ⊢
  cases hl : fs.tree.lookup (leads [] p) with
  | none =>
    rw [hl] at h
    cases h
  | some n =>
    cases n with
    | file b =>
      rw [hl] at h
      cases h
    | dir =>
      simp only [hl] at h ⊢
      split_ifs at h ⊢
      · cases h
      · exact allowing_ok h

theorem rmtree_ok (h : (rmtree p fs).result = .ok ()) : rmtree p fs =
    Outcome.done (((subtree fs.tree (leads [] p)).map (·.1)).map fun m => (m, none)) () := by
  obtain ⟨-, hcall⟩ := onEntry_ok_leads h
  rw [rmtree, hcall] at h ⊢
  cases hl : fs.tree.lookup (leads [] p) with
  | none =>
    rw [hl] at h
    cases h
  | some n =>
    cases n with
    | file b =>
      rw [hl] at h
      cases h
    | dir =>
      simp only [hl] at h ⊢
      split_ifs at h ⊢
      rfl

theorem removed_subtree (t : Tree κ β) (m : Location κ) :
    Removed m t ((((subtree t m).map (·.1)).map fun k => (k, none)).foldl Tree.set t) := by
  have hlook := lookup_foldl_remove t ((subtree t m).map (·.1))
  refine ⟨?_, fun k hk => ?_⟩
  · rw [hlook]
    split_ifs with hm
    · rfl
    · cases hn : t.lookup m with
      | none => rfl
      | some n => exact absurd (List.mem_map.mpr ⟨⟨m, n⟩, mem_subtree.mpr ⟨hn, List.prefix_rfl⟩, rfl⟩) hm
  · rw [hlook, if_neg]
    intro hm
    obtain ⟨e, he, rfl⟩ := List.mem_map.mp hm
    exact hk (mem_subtree.mp he).2

end Removing

/-! ### Moving -/

/-- What was at `l` is at `m` now. What was at `m` is gone, and nothing was below it; the
rest is still there. -/
structure Moved (l m : Location κ) (t t' : Tree κ β) : Prop where
  apart : ¬ m <+: l
  gone : t'.lookup l = none
  put : t'.lookup m = t.lookup l
  rest : ∀ k n, ¬ l <+: k → ¬ m <+: k → t.lookup k = some n → t'.lookup k = some n
  bare : ∀ k, m <+: k → k ≠ m → t.lookup k = none
  dirs : t.lookup m = some .dir → t.lookup l = some .dir
  source : t.lookup l ≠ none

section Moving

variable {t t' : Tree κ β} {fs : FileSystem κ β} {p q : Route κ} {l m : Location κ}

/-- **After a move a path leads to its file just if it has not visited the place
that was left**, and what has come to its end, if anything, is a file. -/
theorem Moved.hasFile_iff (h : Moved l m t t') (hp : HasFile p t) :
    HasFile p t' ↔ l ∉ visits [] p ∧ (leads [] p = m → t.lookup l ≠ some .dir) := by
  constructor
  · refine fun hp' => ⟨fun hl => not_hasFile_of_gone h.gone hl hp', fun hm hdir => ?_⟩
    obtain ⟨-, b, hend⟩ := hp'
    rw [hm, h.put, hdir] at hend
    cases hend
  · rintro ⟨hl, hend'⟩
    obtain ⟨hwalk, b, hend⟩ := hp
    -- a visited place that is not `m` is neither below `l` nor below `m`
    have hrest : ∀ k ∈ visits [] p, ∀ n, t.lookup k = some n → k ≠ m → t'.lookup k = some n := by
      intro k hk n hn hne
      refine h.rest k n (fun hlk => hl (mem_visits_below hk hlk)) (fun hmk => ?_) hn
      cases hn.symm.trans (h.bare k hmk hne)
    refine ⟨fun k hk => ?_, ?_⟩
    · by_cases hkm : k = m
      · subst hkm
        rw [h.put, h.dirs (hwalk k hk)]
      · exact hrest k (List.mem_append_left _ hk) _ (hwalk k hk) hkm
    · by_cases hkm : leads [] p = m
      · -- it has a file in the place of another one
        rw [hkm, h.put]
        cases hsource : t.lookup l with
        | none => exact absurd hsource h.source
        | some n =>
          cases n with
          | dir => exact absurd hsource (hend' hkm)
          | file b' => exact ⟨b', rfl⟩
      · exact ⟨b, hrest _ (leads_mem_visits [] p) _ hend hkm⟩

/-- A file that was moved is where the path of its target leads. -/
theorem Moved.target_file (h : Moved l m t t') (hq : Walkable q t) (hm : leads [] q = m) (hne : l ≠ m)
    {b : β} (hfile : t.lookup l = some (.file b)) :
    Walkable q t' ∧ t'.lookup (leads [] q) = some (.file b) := by
  refine ⟨fun k hk => ?_, by rw [hm, h.put, hfile]⟩
  have hlq : l ∉ visits [] q := fun hl => by
    obtain hpass | rfl := mem_visits.mp hl
    · cases hfile.symm.trans (hq l hpass)
    · exact hne hm
  refine h.rest k .dir (fun hlk => hlq (mem_visits_below (List.mem_append_left _ hk) hlk))
    (fun hmk => ?_) (hq k hk)
  by_cases hkm : k = m
  · cases hfile.symm.trans (h.dirs (hkm ▸ hq k hk))
  · cases (hq k hk).symm.trans (h.bare k hmk hkm)

/-- A move after directories have been added, and what was at its target removed. -/
theorem Moved.of_before {t₀ : Tree κ β} (h : Moved l m t t') (hl : t₀.lookup l = t.lookup l)
    (hkept : ∀ k n, k ≠ m → t₀.lookup k = some n → t.lookup k = some n)
    (hdir : t₀.lookup m = some .dir → t.lookup m = some .dir) : Moved l m t₀ t' where
  apart := h.apart
  gone := h.gone
  put := h.put.trans hl.symm
  rest k n hlk hmk hn := h.rest k n hlk hmk (hkept k n (fun he => hmk (he ▸ List.prefix_rfl)) hn)
  bare k hmk hne := by
    cases hn : t₀.lookup k with
    | none => rfl
    | some n => cases (hkept k n hne hn).symm.trans (h.bare k hmk hne)
  dirs hm := hl.trans (h.dirs (hdir hm))
  source := hl ▸ h.source

theorem bare_of_hasChildren (h : hasChildren fs.tree m = false) :
    ∀ k, m <+: k → k ≠ m → fs.tree.lookup k = none := by
  intro k hmk hne
  cases hn : fs.tree.lookup k with
  | none => rfl
  | some n =>
    rw [hasChildren, List.any_eq_false] at h
    exact absurd (decide_eq_true hne) (h ⟨k, n⟩ (mem_subtree.mpr ⟨hn, hmk⟩))

omit [DecidableEq κ] in
theorem drop_append_of_le {l m k : Location κ} (h : l <+: k) : (m ++ k.drop l.length) = m ↔ k = l := by
  obtain ⟨r, rfl⟩ := h
  simp

theorem moved_moves (hml : ¬ m <+: l) (hsource : fs.tree.lookup l ≠ none)
    (hbare : hasChildren fs.tree m = false) (hdirs : fs.tree.lookup m = some .dir → fs.tree.lookup l = some .dir) :
    Moved l m fs.tree (fs.apply (moves fs.tree l m)).tree := by
  have hremoved : ∀ k, (((subtree fs.tree l).map fun e => (e.1, none)).foldl Tree.set fs.tree).lookup k =
      if l <+: k then none else fs.tree.lookup k := by
    intro k
    have hlook := lookup_foldl_remove fs.tree ((subtree fs.tree l).map (·.1)) k
    rw [List.map_map] at hlook
    refine hlook.trans ?_
    by_cases hk : l <+: k
    · rw [if_pos hk]
      split_ifs with hm
      · rfl
      · cases hn : fs.tree.lookup k with
        | none => rfl
        | some n => exact absurd (List.mem_map.mpr ⟨⟨k, n⟩, mem_subtree.mpr ⟨hn, hk⟩, rfl⟩) hm
    · rw [if_neg hk, if_neg]
      rintro hm
      obtain ⟨e, he, rfl⟩ := List.mem_map.mp hm
      exact hk (mem_subtree.mp he).2
  have hput := lookup_foldl_put (((subtree fs.tree l).map fun e => (e.1, none)).foldl Tree.set fs.tree)
    (subtree fs.tree l) fun e => (m ++ e.1.drop l.length, e.2)
  have htree : (fs.apply (moves fs.tree l m)).tree = ((subtree fs.tree l).map fun e =>
      (m ++ e.1.drop l.length, some e.2)).foldl Tree.set
        (((subtree fs.tree l).map fun e => (e.1, none)).foldl Tree.set fs.tree) := by
    rw [FileSystem.apply, moves, List.foldl_append]
  -- outside of `m` nothing is put
  have hout : ∀ k, ¬ m <+: k → (fs.apply (moves fs.tree l m)).tree.lookup k =
      if l <+: k then none else fs.tree.lookup k := by
    intro k hk
    rw [htree]
    obtain ⟨e, -, rfl, -⟩ | ⟨-, hlook⟩ := hput k
    · exact absurd (List.prefix_append _ _) hk
    · exact hlook.trans (hremoved k)
  refine ⟨hml, by rw [hout l hml, if_pos List.prefix_rfl], ?_, fun k n hlk hmk hn => ?_,
    bare_of_hasChildren hbare, hdirs, hsource⟩
  · obtain ⟨n, hn⟩ := Option.ne_none_iff_exists'.mp hsource
    rw [htree, hn]
    obtain ⟨e, he, hk, hlook⟩ | ⟨hnone, -⟩ := hput m
    · obtain ⟨hentry, hprefix⟩ := mem_subtree.mp he
      rw [(drop_append_of_le hprefix).mp hk, hn] at hentry
      exact hlook.trans hentry.symm
    · exact absurd ((drop_append_of_le List.prefix_rfl).mpr rfl)
        (hnone ⟨l, n⟩ (mem_subtree.mpr ⟨hn, List.prefix_rfl⟩))
  · rw [hout k hmk, if_neg hlk, hn]

/-- A rename that has been carried out: nothing was to be done, or the source was moved. -/
theorem rename_ok (h : (rename p q fs).result = .ok ()) :
    Walkable p fs.tree ∧ Walkable q fs.tree ∧ fs.tree.lookup (leads [] p) ≠ none ∧
      if leads [] p = leads [] q then rename p q fs = Outcome.done [] ()
      else Moved (leads [] p) (leads [] q) fs.tree (fs.apply (rename p q fs).changes).tree ∧
        (fs.tree.lookup (leads [] p) = some .dir → ∀ b, fs.tree.lookup (leads [] q) ≠ some (.file b)) := by
  obtain ⟨hwalk, hsource⟩ := onEntry_ok_leads h
  rw [rename, hsource] at h ⊢
  obtain ⟨hwalk', htarget⟩ := onEntry_ok_leads h
  refine ⟨hwalk, hwalk', ?_⟩
  rw [htarget] at h ⊢
  cases hl : fs.tree.lookup (leads [] p) with
  | none =>
    rw [hl] at h
    cases h
  | some source =>
    simp only [hl] at h ⊢
    refine ⟨by simp, ?_⟩
    by_cases hlm : leads [] p = leads [] q
    · simp only [hlm, if_true]
    · simp only [if_neg hlm] at h ⊢
      split_ifs at h ⊢ with hprefix hprefix' hbare
      · cases h
      · cases h
      · -- the target has children
        split at h <;> cases h
      · have hmoved (hdirs : fs.tree.lookup (leads [] q) = some .dir → source = .dir)
            (hok : (allowing fs (.rename (leads [] p) (leads [] q))
              (Outcome.done (moves fs.tree (leads [] p) (leads [] q)) ())).result = .ok ()) :
            Moved (leads [] p) (leads [] q) fs.tree (fs.apply
              (allowing fs (.rename (leads [] p) (leads [] q))
                (Outcome.done (moves fs.tree (leads [] p) (leads [] q)) ())).changes).tree := by
          rw [allowing_ok hok]
          exact moved_moves (by simpa using hprefix') (by simp [hl]) (by simpa using hbare)
            fun hd => by rw [hl, hdirs hd]
        cases source with
        | file b =>
          cases ht : fs.tree.lookup (leads [] q) with
          | none =>
            simp only [ht] at h ⊢
            exact ⟨hmoved (by simp [ht]) h, by simp⟩
          | some target =>
            cases target with
            | file b' =>
              simp only [ht] at h ⊢
              exact ⟨hmoved (by simp [ht]) h, by simp⟩
            | dir =>
              simp only [ht] at h
              cases h
        | dir =>
          cases ht : fs.tree.lookup (leads [] q) with
          | none =>
            simp only [ht] at h ⊢
            exact ⟨hmoved (fun _ => rfl) h, by simp⟩
          | some target =>
            cases target with
            | file b' =>
              simp only [ht] at h
              cases h
            | dir =>
              simp only [ht] at h ⊢
              exact ⟨hmoved (fun _ => rfl) h, by simp⟩

end Moving

end FileTree
end LspClient
