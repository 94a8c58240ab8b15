/-
# Tracked documents on disk

`CreateFile`, `RenameFile` and `DeleteFile` act on whole subtrees, and update
the tracked documents under one URI only. So whether every tracked URI still
denotes a file afterwards depends on where the paths of the others come
through: none of them may come through the place that is renamed or deleted
(`onDisk_step`, `onDisk_runs`).

A rename unlinks its target before it moves the source; where the two URIs
denote one place, that was the source (`rename_keeps_content`).

Key definitions: `OnDisk`, `Visits`, `LeadsTo`, `Spares`, `Unlinked`.
Key theorems: `renameFile_ok`, `onDisk_step`, `onDisk_runs`, `rename_keeps_content`.
-/
import LspClient.Rename
import LspClient.Lib.FilePlaces

namespace LspClient
namespace TrackedFiles

open ByteStream Actions Client Resources Release Rename
open FileTree (leads passes visits Walkable HasFile AddsDirs Keeps Removed Moved fileAt nodeAt)

abbrev Tree := FileTree.Tree Name Bytes

/-- Every tracked URI denotes a file. -/
def OnDisk (c : Client) (w : World) : Prop := ∀ u, (w.doc.states u).isSome = true →
  ∃ p b, c.fromLocalUri u = .ok p ∧ fileAt (c.route p) w.fs = some b

/-- The path of the URI leads to the place. -/
def LeadsTo (c : Client) (u : Uri) (l : FileTree.Location Name) : Prop :=
  ∃ p, c.fromLocalUri u = .ok p ∧ leads [] (c.route p) = l

/-- The path of the URI comes through the place, or leads to it. -/
def Visits (c : Client) (u : Uri) (l : FileTree.Location Name) : Prop :=
  ∃ p, c.fromLocalUri u = .ok p ∧ l ∈ visits [] (c.route p)

/-- The change leaves the files of the tracked documents alone, but for the document
it names. A rename may replace a tracked file by another file, and if its URIs
denote one place, it may not have unlinked a file there. -/
def Spares (c : Client) (w : World) : DocumentChange → Prop
  | .textDocumentEdit _ => True
  | .createFile _ => True
  | .renameFile change => RenameSkipped c change w ∨
      ∀ l m, LeadsTo c change.oldUri l → LeadsTo c change.newUri m →
        if l = m then asked (present c change.newUri) w = .ok true →
          ∀ u, (w.doc.states u).isSome = true → ¬ LeadsTo c u m
        else ∀ u, (w.doc.states u).isSome = true → u ≠ change.oldUri →
          ¬ Visits c u l ∧ (LeadsTo c u m → w.fs.tree.lookup l ≠ some .dir)
  | .deleteFile change => DeleteSkipped c change w ∨
      ∀ m, LeadsTo c change.uri m → ∀ u, (w.doc.states u).isSome = true → u ≠ change.uri → ¬ Visits c u m

/-- The rename unlinks its own source: it finds both of its URIs, which denote one place,
may overwrite the target, and is not refused. -/
def Unlinked (c : Client) (change : RenameFile) (w : World) : Prop :=
  asked (present c change.oldUri) w = .ok true ∧ asked (present c change.newUri) w = .ok true ∧
    flag change.options (·.overwrite) = true ∧
    ∃ l, LeadsTo c change.oldUri l ∧ LeadsTo c change.newUri l ∧ w.fs.deny w.fs.tree (.unlink l) = false

/-- The URI denotes a file with this content. -/
def Holds (c : Client) (u : Uri) (b : Bytes) (w : World) : Prop :=
  ∃ p, c.fromLocalUri u = .ok p ∧ fileAt (c.route p) w.fs = some b

variable {c : Client} {α β : Type} {w w' : World}

/-! ### What the operations do to the tree -/

section Trees

/-- However it ends, the operation relates the trees before and after it. -/
abbrev OnTree (R : Tree → Tree → Prop) (x : Op α) : Prop :=
  Within (fun w w' => R w.fs.tree w'.fs.tree) x

theorem onTree_reads {R : Tree → Tree → Prop} (hrefl : ∀ t, R t t) {x : Op α} (hx : Reads x) : OnTree R x :=
  hx.mono fun _ _ h => h ▸ hrefl _

theorem keeps_reads {x : Op α} (hx : Reads x) : OnTree Keeps x := onTree_reads Keeps.refl hx

theorem keeps_bind {x : Op α} {f : α → Op β} (hx : OnTree Keeps x) (hf : ∀ a, OnTree Keeps (f a)) :
    OnTree Keeps (x >>= f) :=
  Within.bind (fun _ _ _ => Keeps.trans) hx hf

theorem os_fs (call : FileSystem → FileTree.Outcome Name Bytes α) (w : World) :
    (final (os call) w).fs = w.fs.apply (call w.fs).changes := by
  unfold final os
  simp only
  split <;> rename_i heq <;> split at heq <;> cases heq <;> rfl

theorem onTree_os {R : Tree → Tree → Prop} {call : FileSystem → FileTree.Outcome Name Bytes α}
    (h : ∀ fs : FileSystem, R fs.tree (fs.apply (call fs).changes).tree) : OnTree R (os call) := by
  intro w
  rw [os_fs]
  exact h w.fs

theorem addsDirs_createParents (p : Path) : OnTree AddsDirs (c.createParents p) := by
  refine Within.bind (fun _ _ _ => AddsDirs.trans)
    (onTree_reads AddsDirs.refl (reads_os (FileTree.pathExists_changes _))) fun there => ?_
  split_ifs
  · exact within_pure fun _ => AddsDirs.refl _
  · exact onTree_os fun fs => FileTree.addsDirs_mkdirs _ _ fs

/-- A file is opened, and written to, where there is no directory. -/
theorem keeps_writeText (p : Path) (content : Text) (encoding : Encoding) :
    OnTree Keeps (c.writeText p content encoding) := by
  intro w
  have hopened := onTree_os (R := Keeps)
    (fun fs => (FileTree.keeps_openWrite (c.route p) fs ([] : Bytes)).1) w
  cases hopen : os (fun fs => FileTree.openWrite (c.route p) fs []) w with
  | error e w₁ =>
    rw [final, hopen] at hopened
    rw [writeText, final_bind_error hopen]
    exact hopened
  | ok l w₁ =>
    rw [final, hopen] at hopened
    refine hopened.trans ?_
    rw [writeText, final_bind_ok hopen]
    cases c.codecs.encode encoding content with
    | none => exact Keeps.refl _
    | some bytes =>
      -- the file that is written to has been opened
      obtain ⟨hok, rfl⟩ := os_ok hopen
      have hfile := (FileTree.keeps_openWrite (c.route p) w.fs ([] : Bytes)).2 l hok
      show Keeps _ (final (os fun fs => FileTree.write fs l bytes) _).fs.tree
      rw [os_fs]
      exact FileTree.keeps_write hfile bytes

theorem keeps_writeFile (u : Uri) (content : Text) : OnTree Keeps (c.writeFile u content) := by
  refine keeps_bind (keeps_reads (c.reads_writeBegin u)) fun r => ?_
  refine keeps_bind (keeps_writeText _ _ _) fun _ => ?_
  have hfiles : KeepsFiles (c.writeFinish u content) := by
    refine keepsFiles_bind (keepsFiles_doc _) fun version => ?_
    cases version with
    | none => exact keepsFiles_reads reads_pure
    | some n => exact keepsFiles_bind (keepsFiles_reads (reads_convert _)) fun _ =>
        within_tell (fun _ => ⟨rfl, rfl⟩) keepsFiles_trans keepsFiles_notify _ _
  exact hfiles.mono fun _ _ h => h.1 ▸ Keeps.refl _

theorem keeps_textDocumentEdit (edit : TextDocumentEdit) : OnTree Keeps (c.applyTextDocumentEdit edit) :=
  keeps_bind (keeps_reads (reads_checkVersion _ _)) fun _ =>
    keeps_bind (keeps_reads (reads_editedContent _ _)) fun _ => keeps_writeFile _ _

theorem keeps_createFile (change : CreateFile) : OnTree Keeps (c.applyCreateFile change) := by
  have hcreate : ∀ path, OnTree Keeps (c.createParents path >>= fun _ => c.writeFile change.uri []) :=
    fun path => keeps_bind ((addsDirs_createParents path).mono fun _ _ h => h.keeps) fun _ =>
      keeps_writeFile _ _
  refine keeps_bind (keeps_reads (reads_convert _)) fun path => ?_
  refine keeps_bind (keeps_reads (reads_os (FileTree.pathExists_changes _))) fun there => ?_
  split_ifs
  · exact hcreate path
  · exact within_pure fun _ => Keeps.refl _
  · exact within_throw fun _ => Keeps.refl _
  · exact hcreate path

/-- A removal that has been carried out. -/
theorem removePath_ok {change : DeleteFile} {p : Path} (h : c.removePath change p w = .ok () w') :
    Removed (leads [] (c.route p)) w.fs.tree w'.fs.tree := by
  obtain ⟨directory, -, h⟩ := Within.bind_ok (reads_os (FileTree.isDir_changes _)) h
  split_ifs at h
  · obtain ⟨hok, rfl⟩ := os_ok h
    rw [FileTree.rmtree_ok hok]
    exact FileTree.removed_subtree _ _
  · cases hrmdir : os (FileTree.rmdir (c.route p)) w with
    | error e w₁ =>
      rw [catch_eq_error hrmdir] at h
      cases h
    | ok _ w₁ =>
      rw [catch_eq_ok hrmdir] at h
      cases h
      obtain ⟨hok, rfl⟩ := os_ok hrmdir
      rw [FileTree.rmdir_ok hok]
      exact FileTree.removed_erase _ _
  · obtain ⟨hok, rfl⟩ := os_ok h
    rw [(FileTree.unlink_ok hok).2]
    exact FileTree.removed_erase _ _

theorem deleteFile_ok {change : DeleteFile} (h : c.applyDeleteFile change w = .ok () w') :
    ∃ p, c.fromLocalUri change.uri = .ok p ∧
      (if DeleteSkipped c change w then w'.fs = w.fs
        else Removed (leads [] (c.route p)) w.fs.tree w'.fs.tree) := by
  obtain ⟨p, hp, h⟩ := convert_bind_ok h
  obtain ⟨there, hthere, h⟩ := Within.bind_ok (reads_os (FileTree.pathExists_changes _)) h
  have hasked := asked_present hp hthere
  refine ⟨p, hp, ?_⟩
  cases there with
  | true =>
    obtain ⟨_, w₁, hremove, hdoc⟩ := bind_ok_elim h
    cases hdoc
    have hskip : ¬ DeleteSkipped c change w := fun hs => by cases hasked.symm.trans hs
    rw [if_neg hskip]
    have hremoved := removePath_ok hremove
    exact hremoved
  | false =>
    rw [if_pos (show DeleteSkipped c change w from hasked)]
    simp only [Bool.false_eq_true, if_false] at h
    split_ifs at h
    · cases h
      rfl
    · cases h

/-- A rename that is carried out moves its source, in a tree to which directories have been added. -/
theorem renameOnto_ok {change : RenameFile} {oldPath newPath : Path}
    (h : c.renameOnto change oldPath newPath w = .ok () w') :
    ∃ fs₁ : FileSystem, AddsDirs w.fs.tree fs₁.tree ∧
      (FileTree.rename (c.route oldPath) (c.route newPath) fs₁).result = .ok () ∧
      w'.fs = fs₁.apply (FileTree.rename (c.route oldPath) (c.route newPath) fs₁).changes := by
  obtain ⟨_, w₁, hparents, h⟩ := bind_ok_elim h
  obtain ⟨_, w₂, hrename, h⟩ := bind_ok_elim h
  obtain ⟨hok, rfl⟩ := os_ok hrename
  cases h
  exact ⟨w₁.fs, (addsDirs_createParents newPath).of_ok hparents, hok, rfl⟩

/-- The tree before the rename: the target has been unlinked, or was not there. -/
theorem renameFile_ok {change : RenameFile} (h : c.applyRenameFile change w = .ok () w')
    (hskip : ¬ RenameSkipped c change w) :
    ∃ oldPath newPath w₁, c.fromLocalUri change.oldUri = .ok oldPath ∧
      c.fromLocalUri change.newUri = .ok newPath ∧ (nodeAt (c.route oldPath) w.fs).isSome = true ∧
      c.renameOnto change oldPath newPath w₁ = .ok () w' ∧
      (asked (present c change.newUri) w = .ok true ∧ (∃ b, fileAt (c.route newPath) w.fs = some b) ∧
          w₁.fs.tree = FileTree.Tree.set w.fs.tree (leads [] (c.route newPath), none) ∨
        asked (present c change.newUri) w = .ok false ∧ w₁ = w) := by
  obtain ⟨oldPath, hold, h⟩ := convert_bind_ok h
  obtain ⟨newPath, hnew, h⟩ := convert_bind_ok h
  obtain ⟨there, hthere, h⟩ := Within.bind_ok (reads_os (FileTree.pathExists_changes _)) h
  cases there with
  | false => cases h
  | true =>
    obtain ⟨taken, htaken, h⟩ := Within.bind_ok (reads_os (FileTree.pathExists_changes _)) h
    have hasked := asked_present hnew htaken
    have hsource := FileTree.pathExists_ok (os_ok hthere).1
    cases taken with
    | false => exact ⟨oldPath, newPath, w, hold, hnew, hsource, h, Or.inr ⟨hasked, rfl⟩⟩
    | true =>
      cases hover : flag change.options (·.overwrite) with
      | false => exact absurd ⟨hasked, hover⟩ hskip
      | true =>
        simp only [hover, if_true] at h
        obtain ⟨_, w₁, hunlink, h⟩ := bind_ok_elim h
        obtain ⟨hok, rfl⟩ := os_ok hunlink
        obtain ⟨hfile, hdone⟩ := FileTree.unlink_ok hok
        exact ⟨oldPath, newPath, _, hold, hnew, hsource, h, Or.inl ⟨hasked, hfile, by rw [hdone]; rfl⟩⟩

/-- **What a rename does to the tree**, if its URIs denote two places. -/
theorem renameFile_moved {change : RenameFile} {l m : FileTree.Location Name}
    {oldPath newPath : Path} (h : c.applyRenameFile change w = .ok () w')
    (hskip : ¬ RenameSkipped c change w) (hold : c.fromLocalUri change.oldUri = .ok oldPath)
    (hnew : c.fromLocalUri change.newUri = .ok newPath) (hl : leads [] (c.route oldPath) = l)
    (hm : leads [] (c.route newPath) = m) (hne : l ≠ m) :
    Moved l m w.fs.tree w'.fs.tree ∧ ∀ b, w.fs.tree.lookup l = some (.file b) →
      fileAt (c.route newPath) w'.fs = some b := by
  obtain ⟨oldPath', newPath', w₁, hold', hnew', hsource, honto, hbefore⟩ := renameFile_ok h hskip
  cases hold.symm.trans hold'
  cases hnew.symm.trans hnew'
  subst hl hm
  obtain ⟨fs₁, hadds, hok, hfs⟩ := renameOnto_ok honto
  obtain ⟨-, hwalk, -, hmoved⟩ := FileTree.rename_ok hok
  rw [if_neg hne] at hmoved
  obtain ⟨hmoved, -⟩ := hmoved
  -- the tree of the rename has all that there was, but for a file at the target
  have hkept : ∀ k n, k ≠ leads [] (c.route newPath) → w.fs.tree.lookup k = some n →
      fs₁.tree.lookup k = some n := by
    intro k n hk hn
    refine hadds.of_some ?_
    obtain ⟨-, -, htree⟩ | ⟨-, rfl⟩ := hbefore
    · rw [htree, FileTree.lookup_set, if_neg hk, hn]
    · exact hn
  have hdir : w.fs.tree.lookup (leads [] (c.route newPath)) = some .dir →
      fs₁.tree.lookup (leads [] (c.route newPath)) = some .dir := by
    intro hd
    obtain ⟨-, ⟨b, hb⟩, -⟩ | ⟨-, rfl⟩ := hbefore
    · cases hd.symm.trans (FileTree.fileAt_eq_some_iff.mp hb).2
    · exact hadds.of_some hd
  obtain ⟨n, hn⟩ := Option.isSome_iff_exists.mp hsource
  have hl := (FileTree.nodeAt_eq_some_iff.mp hn).2
  rw [hfs]
  refine ⟨hmoved.of_before (hl.trans (hkept _ n hne hl).symm) hkept hdir, fun b hb => ?_⟩
  exact FileTree.fileAt_eq_some_iff.mpr (hmoved.target_file hwalk rfl hne (hkept _ _ hne hb))

/-- If its URIs denote one place, a rename that is carried out has unlinked the file
there, or has added directories at most. -/
theorem renameFile_same {change : RenameFile} {m : FileTree.Location Name} {oldPath newPath : Path}
    (h : c.applyRenameFile change w = .ok () w') (hskip : ¬ RenameSkipped c change w)
    (hold : c.fromLocalUri change.oldUri = .ok oldPath)
    (hnew : c.fromLocalUri change.newUri = .ok newPath) (hl : leads [] (c.route oldPath) = m)
    (hm : leads [] (c.route newPath) = m) :
    if asked (present c change.newUri) w = .ok true then
      (∃ b, fileAt (c.route newPath) w.fs = some b) ∧
        ∃ t, Removed m w.fs.tree t ∧ AddsDirs t w'.fs.tree
    else AddsDirs w.fs.tree w'.fs.tree ∧ Walkable (c.route newPath) w'.fs.tree := by
  obtain ⟨oldPath', newPath', w₁, hold', hnew', hsource, honto, hbefore⟩ := renameFile_ok h hskip
  cases hold.symm.trans hold'
  cases hnew.symm.trans hnew'
  subst hm
  obtain ⟨fs₁, hadds, hok, hfs⟩ := renameOnto_ok honto
  obtain ⟨-, hwalk, -, hnothing⟩ := FileTree.rename_ok hok
  rw [if_pos hl] at hnothing
  have htree : w'.fs.tree = fs₁.tree := by rw [hfs, hnothing]; rfl
  rw [htree]
  obtain ⟨hasked, ⟨b, hb⟩, herased⟩ | ⟨hasked, rfl⟩ := hbefore
  · rw [if_pos hasked]
    exact ⟨⟨b, hb⟩, _, FileTree.removed_erase _ _, herased ▸ hadds⟩
  · rw [if_neg (by rw [hasked]; simp)]
    exact ⟨hadds, hwalk⟩

end Trees

/-! ### The file of a URI -/

section Denotes

variable {u : Uri} {t t' : Tree} {l m : FileTree.Location Name} {p : Path}

/-- The URI denotes a file. -/
def Denotes (c : Client) (u : Uri) (t : Tree) : Prop :=
  ∃ p, c.fromLocalUri u = .ok p ∧ HasFile (c.route p) t

theorem onDisk_iff : OnDisk c w ↔ ∀ u, (w.doc.states u).isSome = true → Denotes c u w.fs.tree := by
  simp only [OnDisk, Denotes, FileTree.hasFile_iff, exists_and_left]

theorem leadsTo_iff (hp : c.fromLocalUri u = .ok p) : LeadsTo c u l ↔ leads [] (c.route p) = l :=
  ⟨fun ⟨_, hq, hl⟩ => Except.ok.inj (hp.symm.trans hq) ▸ hl, fun hl => ⟨p, hp, hl⟩⟩

theorem visits_iff (hp : c.fromLocalUri u = .ok p) : Visits c u l ↔ l ∈ visits [] (c.route p) :=
  ⟨fun ⟨_, hq, hl⟩ => Except.ok.inj (hp.symm.trans hq) ▸ hl, fun hl => ⟨p, hp, hl⟩⟩

theorem denotes_iff (hp : c.fromLocalUri u = .ok p) : Denotes c u t ↔ HasFile (c.route p) t :=
  ⟨fun ⟨_, hq, hl⟩ => Except.ok.inj (hp.symm.trans hq) ▸ hl, fun hl => ⟨p, hp, hl⟩⟩

theorem Denotes.keeps (hu : Denotes c u t) (h : Keeps t t') : Denotes c u t' :=
  have ⟨p, hp, hfile⟩ := hu
  ⟨p, hp, h.hasFile hfile⟩

theorem Denotes.removed_iff (hu : Denotes c u t) (h : Removed m t t') : Denotes c u t' ↔ ¬ Visits c u m := by
  obtain ⟨p, hp, hfile⟩ := hu
  rw [denotes_iff hp, visits_iff hp]
  exact h.hasFile_iff hfile

theorem Denotes.moved_iff (hu : Denotes c u t) (h : Moved l m t t') :
    Denotes c u t' ↔ ¬ Visits c u l ∧ (LeadsTo c u m → t.lookup l ≠ some .dir) := by
  obtain ⟨p, hp, hfile⟩ := hu
  rw [denotes_iff hp, visits_iff hp, leadsTo_iff hp]
  exact h.hasFile_iff hfile

theorem Denotes.unlinked_iff {t₁ : Tree} {b : Bytes} (hu : Denotes c u t)
    (hm : t.lookup m = some (.file b)) (h : Removed m t t₁) (hadds : AddsDirs t₁ t') :
    Denotes c u t' ↔ ¬ LeadsTo c u m := by
  obtain ⟨p, hp, hfile⟩ := hu
  rw [denotes_iff hp, leadsTo_iff hp]
  exact FileTree.hasFile_unlinked_iff hm h hadds hfile

end Denotes

/-! ### One change -/

section Step

/-- A document that is moved is tracked under its new URI instead. -/
theorem moveTracked_isSome (m : DocumentStateManager) (oldUri newUri u : Uri) :
    ((moveTracked oldUri newUri m).2.states u).isSome = true ↔
      (m.states oldUri).isSome = true ∧ u = newUri ∨ (m.states u).isSome = true ∧ u ≠ oldUri := by
  cases hold : m.states oldUri with
  | none =>
    rw [moveTracked_untracked hold]
    by_cases hu : u = oldUri
    · simp [hu, hold]
    · simp [hu]
  | some d =>
    rw [moveTracked_tracked hold]
    by_cases hn : u = newUri
    · subst hn
      split_ifs with htaken
      · simp [htaken.1, htaken.2]
      · simp
    · by_cases hu : u = oldUri
      · subst hu
        split_ifs <;> simp [hn]
      · split_ifs <;> simp [hu, hn]

theorem keeps_step (hw : OnDisk c w) (htracked : SameTracked w.doc w'.doc)
    (hkeeps : Keeps w.fs.tree w'.fs.tree) : OnDisk c w' := by
  rw [onDisk_iff] at hw ⊢
  exact fun u hu => (hw u (htracked.states u ▸ hu)).keeps hkeeps

/-- A deletion. -/
theorem deleteFile_step {change : DeleteFile} (hw : OnDisk c w)
    (h : c.applyDeleteFile change w = .ok () w') : OnDisk c w' ↔ Spares c w (.deleteFile change) := by
  obtain ⟨hdoc, -⟩ := touches_ok (applyDeleteFile_touches change w) h
  obtain ⟨p, hp, htree⟩ := deleteFile_ok h
  rw [onDisk_iff] at hw
  by_cases hskip : DeleteSkipped c change w
  · rw [if_pos hskip] at hdoc htree
    rw [onDisk_iff, hdoc, htree]
    exact ⟨fun _ => Or.inl hskip, fun _ => hw⟩
  · rw [if_neg hskip] at hdoc htree
    have htracked : ∀ u, (w'.doc.states u).isSome = true ↔
        (w.doc.states u).isSome = true ∧ u ≠ change.uri := fun u => by
      rw [hdoc, DocumentStateManager.unregister_states]
      by_cases hu : u = change.uri
      · simp [hu]
      · simp [hu]
    rw [onDisk_iff]
    simp only [htracked, Spares, hskip, false_or, leadsTo_iff hp, forall_eq', and_imp]
    refine forall_congr' fun u => forall_congr' fun hu => forall_congr' fun _ => ?_
    exact (hw u hu).removed_iff htree

/-- A rename that is skipped does nothing to the files. -/
theorem renameFile_skipped {change : RenameFile} (h : c.applyRenameFile change w = .ok () w')
    (hskip : RenameSkipped c change w) : w'.fs = w.fs := by
  obtain ⟨oldPath, hold, h⟩ := convert_bind_ok h
  obtain ⟨newPath, hnew, h⟩ := convert_bind_ok h
  obtain ⟨there, -, h⟩ := Within.bind_ok (reads_os (FileTree.pathExists_changes _)) h
  cases there with
  | false => cases h
  | true =>
    obtain ⟨taken, htaken, h⟩ := Within.bind_ok (reads_os (FileTree.pathExists_changes _)) h
    cases hskip.1.symm.trans (asked_present hnew htaken)
    simp only [hskip.2, if_true, Bool.false_eq_true, if_false] at h
    split_ifs at h
    · cases h
      rfl
    · cases h

/-- A rename whose URIs denote two places. -/
theorem renameFile_step_apart {change : RenameFile} {l m : FileTree.Location Name}
    {oldPath newPath : Path} (hw : OnDisk c w) (h : c.applyRenameFile change w = .ok () w')
    (hskip : ¬ RenameSkipped c change w) (hold : c.fromLocalUri change.oldUri = .ok oldPath)
    (hnew : c.fromLocalUri change.newUri = .ok newPath) (hl : leads [] (c.route oldPath) = l)
    (hm : leads [] (c.route newPath) = m) (hne : l ≠ m) :
    OnDisk c w' ↔ ∀ u, (w.doc.states u).isSome = true → u ≠ change.oldUri →
      ¬ Visits c u l ∧ (LeadsTo c u m → w.fs.tree.lookup l ≠ some .dir) := by
  obtain ⟨hdoc, -⟩ := touches_ok (applyRenameFile_touches change w) h
  rw [if_neg hskip] at hdoc
  obtain ⟨hmoved, htarget⟩ := renameFile_moved h hskip hold hnew hl hm hne
  rw [onDisk_iff] at hw
  have hiff : ∀ u, (w.doc.states u).isSome = true → (Denotes c u w'.fs.tree ↔
      ¬ Visits c u l ∧ (LeadsTo c u m → w.fs.tree.lookup l ≠ some .dir)) :=
    fun u hu => (hw u hu).moved_iff hmoved
  rw [onDisk_iff, hdoc]
  simp only [moveTracked_isSome]
  constructor
  · exact fun hall u hu hne => (hiff u hu).mp (hall u (Or.inr ⟨hu, hne⟩))
  · rintro hspared u (⟨htracked, rfl⟩ | ⟨hu, hne⟩)
    · -- the document that was renamed has its file with it
      obtain ⟨-, b, hb⟩ := (denotes_iff hold).mp (hw _ htracked)
      exact ⟨newPath, hnew, FileTree.hasFile_iff.mpr ⟨b, htarget b (hl ▸ hb)⟩⟩
    · exact (hiff u hu).mpr (hspared u hu hne)

/-- A rename whose URIs denote one place. -/
theorem renameFile_step_same {change : RenameFile} {m : FileTree.Location Name}
    {oldPath newPath : Path} (hw : OnDisk c w) (h : c.applyRenameFile change w = .ok () w')
    (hskip : ¬ RenameSkipped c change w) (hold : c.fromLocalUri change.oldUri = .ok oldPath)
    (hnew : c.fromLocalUri change.newUri = .ok newPath) (hl : leads [] (c.route oldPath) = m)
    (hm : leads [] (c.route newPath) = m) :
    OnDisk c w' ↔ (asked (present c change.newUri) w = .ok true →
      ∀ u, (w.doc.states u).isSome = true → ¬ LeadsTo c u m) := by
  obtain ⟨hdoc, -⟩ := touches_ok (applyRenameFile_touches change w) h
  rw [if_neg hskip] at hdoc
  have hsame := renameFile_same h hskip hold hnew hl hm
  rw [onDisk_iff] at hw
  rw [onDisk_iff, hdoc]
  simp only [moveTracked_isSome]
  split_ifs at hsame with hasked
  · obtain ⟨⟨b, hb⟩, t, hremoved, hadds⟩ := hsame
    have hfile := hm ▸ (FileTree.fileAt_eq_some_iff.mp hb).2
    have hnewDenotes : Denotes c change.newUri w.fs.tree :=
      ⟨newPath, hnew, FileTree.hasFile_iff.mpr ⟨b, hb⟩⟩
    refine ⟨fun hall _ u hu => ?_, fun hspared u hu => ?_⟩
    · by_cases hne : u = change.oldUri
      · subst hne
        exact absurd ((leadsTo_iff hnew).mpr hm)
          ((hnewDenotes.unlinked_iff hfile hremoved hadds).mp (hall _ (Or.inl ⟨hu, rfl⟩)))
      · exact ((hw u hu).unlinked_iff hfile hremoved hadds).mp (hall u (Or.inr ⟨hu, hne⟩))
    · obtain ⟨htracked, rfl⟩ | ⟨hu, -⟩ := hu
      · exact absurd ((leadsTo_iff hold).mpr hl) (hspared hasked _ htracked)
      · exact ((hw u hu).unlinked_iff hfile hremoved hadds).mpr (hspared hasked u hu)
  · obtain ⟨hadds, hwalk⟩ := hsame
    refine ⟨fun _ hasked' => absurd hasked' hasked, fun _ u hu => ?_⟩
    obtain ⟨htracked, rfl⟩ | ⟨hu, -⟩ := hu
    · obtain ⟨-, b, hb⟩ := (denotes_iff hold).mp (hw _ htracked)
      refine ⟨newPath, hnew, hwalk, b, ?_⟩
      rw [hm, ← hl]
      exact hadds.of_some hb
    · exact (hw u hu).keeps hadds.keeps

theorem renameFile_step {change : RenameFile} (hw : OnDisk c w)
    (h : c.applyRenameFile change w = .ok () w') : OnDisk c w' ↔ Spares c w (.renameFile change) := by
  by_cases hskip : RenameSkipped c change w
  · obtain ⟨hdoc, -⟩ := touches_ok (applyRenameFile_touches change w) h
    rw [if_pos hskip] at hdoc
    refine ⟨fun _ => Or.inl hskip, fun _ => ?_⟩
    unfold OnDisk at hw ⊢
    rwa [hdoc, renameFile_skipped h hskip]
  · obtain ⟨oldPath, newPath, -, hold, hnew, -⟩ := renameFile_ok h hskip
    simp only [Spares, hskip, false_or, leadsTo_iff hold, leadsTo_iff hnew]
    by_cases hlm : leads [] (c.route oldPath) = leads [] (c.route newPath)
    · rw [renameFile_step_same hw h hskip hold hnew hlm rfl]
      constructor
      · rintro hspared _ _ rfl rfl
        rwa [if_pos hlm]
      · intro hspared
        have hsame := hspared _ _ rfl rfl
        rwa [if_pos hlm] at hsame
    · rw [renameFile_step_apart hw h hskip hold hnew rfl rfl hlm]
      constructor
      · rintro hspared _ _ rfl rfl
        rwa [if_neg hlm]
      · intro hspared
        have hsame := hspared _ _ rfl rfl
        rwa [if_neg hlm] at hsame

/-- **A change keeps every tracked document on disk just if it spares them.** -/
theorem onDisk_step {change : DocumentChange} (hw : OnDisk c w)
    (h : c.applyChange change w = .ok () w') : OnDisk c w' ↔ Spares c w change := by
  cases change with
  | textDocumentEdit edit =>
    exact iff_of_true (keeps_step hw ((keepsTracked_textDocumentEdit edit).of_ok h)
      ((keeps_textDocumentEdit edit).of_ok h)) trivial
  | createFile change =>
    exact iff_of_true (keeps_step hw ((keepsTracked_createFile change).of_ok h)
      ((keeps_createFile change).of_ok h)) trivial
  | renameFile change => exact renameFile_step hw h
  | deleteFile change => exact deleteFile_step hw h

end Step

/-! ### Runs -/

section Runs

open Run

/-- A change that is applied. -/
def applied (c : Client) (w : World) (change : DocumentChange) : Option World :=
  returned (c.applyChange change w) fun _ w => w

theorem applied_some {change : DocumentChange} :
    applied c w change = some w' ↔ c.applyChange change w = .ok () w' := by
  unfold applied returned
  cases c.applyChange change w <;> simp

/-- The changes of an edit that is applied are a run. -/
theorem exec_applied_iff : ∀ {changes : List DocumentChange} {w : World},
    exec (applied c) w changes = some w' ↔ c.applyDocumentChanges changes w = .ok () w'
  | [], w => ⟨fun h => by cases h; rfl, fun h => by cases h; rfl⟩
  | change :: rest, w => by
    constructor
    · intro h
      obtain ⟨w₁, hstep, hrest⟩ := exec_cons_elim h
      rw [applyDocumentChanges, bind_eq_ok (applied_some.mp hstep)]
      exact exec_applied_iff.mp hrest
    · intro h
      obtain ⟨_, w₁, hstep, hrest⟩ := bind_ok_elim h
      exact (exec_cons (applied_some.mpr hstep)).mpr (exec_applied_iff.mpr hrest)

/-- **Every tracked document is on disk throughout, just if every change spares them.** -/
theorem onDisk_runs {changes : List DocumentChange} (hw : OnDisk c w)
    (h : c.applyDocumentChanges changes w = .ok () w') :
    Always (applied c) (OnDisk c) w changes ↔ Along (applied c) (Spares c) w changes :=
  always_iff_along (fun _ => id)
    (fun _ _ _ hs hspares hstep => (onDisk_step hs (applied_some.mp hstep)).mpr hspares)
    (fun _ _ _ hs hspares hstep => mt (onDisk_step hs (applied_some.mp hstep)).mp hspares)
    changes hw (exec_applied_iff.mpr h)

/-- `/ws/a` is tracked, and nothing else. -/
theorem opened_onDisk : OnDisk Small.client (Small.opened "x".toList) := by
  intro u hu
  by_cases hua : u = Small.uriA
  · subst hua
    exact ⟨Path.ofText "/ws/a".toList, "x".toList.map fun x => x.toNat.toUInt8, by decide, by decide⟩
  · simp [Small.opened, hua] at hu

/-- The tracked document is renamed. -/
theorem onDisk_runs_rename : Always (applied Small.client) (OnDisk Small.client)
    (Small.opened "x".toList) [.renameFile ⟨Small.uriA, uriB, none⟩] := by
  have hrun : returned (Small.client.applyDocumentChanges [.renameFile ⟨Small.uriA, uriB, none⟩]
      (Small.opened "x".toList)) (fun _ _ => ()) = some () := by decide +kernel
  obtain ⟨_, w', h, -⟩ := returned_some hrun
  refine (onDisk_runs opened_onDisk h).mpr ⟨Or.inr ?_, fun _ _ => trivial⟩
  have hold : Small.client.fromLocalUri Small.uriA = .ok (Path.ofText "/ws/a".toList) := by decide
  have hnew : Small.client.fromLocalUri uriB = .ok (Path.ofText "/ws/b".toList) := by decide
  intro l m hl hm
  rw [if_neg]
  · intro u hu hne
    simp [Small.opened, hne] at hu
  · rw [← (leadsTo_iff hold).mp hl, ← (leadsTo_iff hnew).mp hm]
    decide

/-- Is the document of the URI tracked, and what is in its file? -/
def onDiskAt (u : Uri) (p : Path) (w : World) : Bool × Option Bytes :=
  ((w.doc.states u).isSome, fileAt (Small.client.route p) w.fs)

/-- **A directory is deleted, or renamed, with a tracked document in it.** The document stays
tracked, and its file is gone. -/
theorem onDisk_directory : OnDisk Small.client (Small.opened "x".toList) ∧
    (∃ w', Small.client.applyDocumentChanges [.deleteFile ⟨"file:///ws".toList, some ⟨some true, none⟩⟩]
      (Small.opened "x".toList) = .ok () w' ∧ ¬ OnDisk Small.client w') ∧
    ∃ w', Small.client.applyDocumentChanges [.renameFile ⟨"file:///ws".toList, "file:///new".toList, none⟩]
      (Small.opened "x".toList) = .ok () w' ∧ ¬ OnDisk Small.client w' := by
  have hgone : ∀ {w' : World}, onDiskAt Small.uriA (Path.ofText "/ws/a".toList) w' = (true, none) →
      ¬ OnDisk Small.client w' := by
    intro w' h hw'
    obtain ⟨htracked, hfile⟩ := Prod.mk.inj h
    obtain ⟨p, b, hp, hb⟩ := hw' Small.uriA htracked
    have hold : Small.client.fromLocalUri Small.uriA = .ok (Path.ofText "/ws/a".toList) := by decide
    cases hold.symm.trans hp
    cases hfile.symm.trans hb
  have hlost : ∀ change : DocumentChange,
      returned (Small.client.applyDocumentChanges [change] (Small.opened "x".toList))
        (fun _ w => onDiskAt Small.uriA (Path.ofText "/ws/a".toList) w) = some (true, none) →
      ∃ w', Small.client.applyDocumentChanges [change] (Small.opened "x".toList) = .ok () w' ∧
        ¬ OnDisk Small.client w' := by
    intro change hrun
    obtain ⟨_, w', h, hw'⟩ := returned_some hrun
    exact ⟨w', h, hgone hw'.symm⟩
  exact ⟨opened_onDisk, hlost _ (by decide +kernel), hlost _ (by decide +kernel)⟩

end Runs

/-! ### The content of a renamed file -/

section Content

variable {change : RenameFile} {oldPath newPath : Path} {b : Bytes}

/-- However it ends: directories have been added, and the source has been moved or not. -/
theorem renameOnto_final (change : RenameFile) (oldPath newPath : Path) (w : World) :
    ∃ fs₁ : FileSystem, AddsDirs w.fs.tree fs₁.tree ∧
      ((final (c.renameOnto change oldPath newPath) w).fs.tree = fs₁.tree ∨
        (FileTree.rename (c.route oldPath) (c.route newPath) fs₁).result = .ok () ∧
          (final (c.renameOnto change oldPath newPath) w).fs =
            fs₁.apply (FileTree.rename (c.route oldPath) (c.route newPath) fs₁).changes) := by
  have hadds := addsDirs_createParents (c := c) newPath w
  cases hparents : c.createParents newPath w with
  | error e w₁ =>
    rw [final, hparents] at hadds
    refine ⟨w₁.fs, hadds, Or.inl ?_⟩
    rw [renameOnto, final_bind_error hparents]
  | ok _ w₁ =>
    rw [final, hparents] at hadds
    refine ⟨w₁.fs, hadds, ?_⟩
    rw [renameOnto, final_bind_ok hparents]
    cases hrename : os (FileTree.rename (c.route oldPath) (c.route newPath)) w₁ with
    | error e w₂ =>
      left
      obtain ⟨e', -, he', hw₂⟩ := os_error hrename
      rw [final_bind_error hrename, hw₂, FileTree.allOrNothing_rename _ _ _ e' he']
      rfl
    | ok _ w₂ =>
      obtain ⟨hok, rfl⟩ := os_ok hrename
      rw [final_bind_ok hrename]
      exact Or.inr ⟨hok, rfl⟩

/-- The move does not lose a file. -/
theorem renameOnto_holds (hb : fileAt (c.route oldPath) w.fs = some b) :
    fileAt (c.route oldPath) (final (c.renameOnto change oldPath newPath) w).fs = some b ∨
      fileAt (c.route newPath) (final (c.renameOnto change oldPath newPath) w).fs = some b := by
  obtain ⟨fs₁, hadds, hfinal⟩ := renameOnto_final (c := c) change oldPath newPath w
  have hb₁ := hadds.fileAt hb
  obtain hsame | ⟨hok, hfs⟩ := hfinal
  · exact Or.inl (FileTree.fileAt_eq_some_iff.mpr (hsame ▸ hb₁))
  · obtain ⟨-, hwalk, -, hmoved⟩ := FileTree.rename_ok hok
    rw [hfs]
    split_ifs at hmoved with hlm
    · left
      rw [hmoved]
      exact FileTree.fileAt_eq_some_iff.mpr hb₁
    · exact Or.inr (FileTree.fileAt_eq_some_iff.mpr (hmoved.1.target_file hwalk rfl hlm hb₁.2))

/-- What is gone is not moved. -/
theorem renameOnto_gone (hlm : leads [] (c.route oldPath) = leads [] (c.route newPath))
    (hgone : w.fs.tree.lookup (leads [] (c.route newPath)) = none) :
    (final (c.renameOnto change oldPath newPath) w).fs.tree.lookup (leads [] (c.route newPath)) ≠
      some (.file b) := by
  obtain ⟨fs₁, hadds, hfinal⟩ := renameOnto_final (c := c) change oldPath newPath w
  have htree : (final (c.renameOnto change oldPath newPath) w).fs.tree = fs₁.tree := by
    obtain hsame | ⟨hok, hfs⟩ := hfinal
    · exact hsame
    · obtain ⟨-, -, -, hmoved⟩ := FileTree.rename_ok hok
      rw [if_pos hlm] at hmoved
      rw [hfs, hmoved]
      rfl
  rw [htree]
  obtain hsame | ⟨-, hdir⟩ := hadds (leads [] (c.route newPath))
  · rw [hsame, hgone]
    simp
  · rw [hdir]
    simp

/-- The target is unlinked and the source moved: the file is lost just if it was the target. -/
theorem unlinkOnto_holds_iff (hb : fileAt (c.route oldPath) w.fs = some b) {w' : World}
    (hw' : final (os (FileTree.unlink (c.route newPath)) >>= fun _ =>
      c.renameOnto change oldPath newPath) w = w') :
    fileAt (c.route oldPath) w'.fs = some b ∨ fileAt (c.route newPath) w'.fs = some b ↔
      ¬ ((FileTree.unlink (c.route newPath) w.fs).result = .ok () ∧
        leads [] (c.route oldPath) = leads [] (c.route newPath)) := by
  subst hw'
  cases hunlink : os (FileTree.unlink (c.route newPath)) w with
  | error e w₁ =>
    obtain ⟨e', -, he', rfl⟩ := os_error hunlink
    rw [final_bind_error hunlink, FileTree.allOrNothing_unlink _ _ e' he', he']
    exact iff_of_true (Or.inl hb) (by simp)
  | ok _ w₁ =>
    obtain ⟨hok, hw₁⟩ := os_ok hunlink
    obtain ⟨⟨b', hb'⟩, hdone⟩ := FileTree.unlink_ok hok
    obtain ⟨hwalk, hend⟩ := FileTree.fileAt_eq_some_iff.mp hb
    rw [final_bind_ok hunlink]
    have hlook : ∀ k, w₁.fs.tree.lookup k =
        if k = leads [] (c.route newPath) then none else w.fs.tree.lookup k := by
      rw [hw₁, hdone]
      exact FileTree.lookup_set w.fs.tree (leads [] (c.route newPath), none)
    by_cases hlm : leads [] (c.route oldPath) = leads [] (c.route newPath)
    · refine iff_of_false ?_ (not_not.mpr ⟨hok, hlm⟩)
      have hgone : (final (c.renameOnto change oldPath newPath) w₁).fs.tree.lookup
          (leads [] (c.route newPath)) ≠ some (.file b) :=
        renameOnto_gone hlm (by rw [hlook, if_pos rfl])
      rintro (h | h)
      · exact hgone (hlm ▸ (FileTree.fileAt_eq_some_iff.mp h).2)
      · exact hgone (FileTree.fileAt_eq_some_iff.mp h).2
    · refine iff_of_true (renameOnto_holds (FileTree.fileAt_eq_some_iff.mpr ⟨fun k hk => ?_, ?_⟩))
        fun h => hlm h.2
      · -- the target is a file, so the path of the source does not come through it
        rw [hlook, if_neg]
        · exact hwalk k hk
        · rintro rfl
          cases (hwalk _ hk).symm.trans (FileTree.fileAt_eq_some_iff.mp hb').2
      · rw [hlook, if_neg hlm, hend]

/-- What raises answers nothing. -/
theorem asked_error_ne {x : Op Bool} {e : Exc} {w' : World} (h : x w = .error e w') :
    asked x w ≠ .ok true := by
  rw [asked, h]
  simp

theorem asked_false_ne {x : Op Bool} {w' : World} (h : x w = .ok false w') : asked x w ≠ .ok true := by
  rw [asked, h]
  simp

theorem asked_pathExists {p : Path} {there : Bool} (h : asked (c.pathExists p) w = .ok there) :
    (nodeAt (c.route p) w.fs).isSome = there := by
  unfold asked at h
  cases hp : c.pathExists p w with
  | error e w₁ =>
    rw [hp] at h
    cases h
  | ok b w₁ =>
    rw [hp] at h
    cases h
    exact FileTree.pathExists_ok (os_ok hp).1

/-- The target that is unlinked is the source. -/
theorem unlinked_iff (hold : c.fromLocalUri change.oldUri = .ok oldPath)
    (hnew : c.fromLocalUri change.newUri = .ok newPath) (hb : fileAt (c.route oldPath) w.fs = some b) :
    Unlinked c change w ↔ asked (c.pathExists oldPath) w = .ok true ∧
      asked (c.pathExists newPath) w = .ok true ∧ flag change.options (·.overwrite) = true ∧
      (FileTree.unlink (c.route newPath) w.fs).result = .ok () ∧
        leads [] (c.route oldPath) = leads [] (c.route newPath) := by
  simp only [Unlinked, present_eq hold, present_eq hnew, leadsTo_iff hold, leadsTo_iff hnew]
  refine and_congr_right fun _ => and_congr_right fun htaken => and_congr_right fun _ => ?_
  -- at one place, the target is the file that the source is
  have hfile : leads [] (c.route oldPath) = leads [] (c.route newPath) →
      fileAt (c.route newPath) w.fs = some b := by
    intro hlm
    obtain ⟨n, hn⟩ := Option.isSome_iff_exists.mp (asked_pathExists htaken)
    exact FileTree.fileAt_eq_some_iff.mpr ⟨(FileTree.nodeAt_eq_some_iff.mp hn).1,
      hlm ▸ (FileTree.fileAt_eq_some_iff.mp hb).2⟩
  constructor
  · rintro ⟨_, hl, rfl, hdeny⟩
    exact ⟨(FileTree.unlink_ok_iff (hfile hl)).mpr hdeny, hl⟩
  · rintro ⟨hok, hl⟩
    exact ⟨_, hl, rfl, (FileTree.unlink_ok_iff (hfile hl)).mp hok⟩

/-- **A rename loses its source just if it unlinks it.** -/
theorem rename_keeps_content (hb : Holds c change.oldUri b w) :
    Holds c change.oldUri b (final (c.applyRenameFile change) w) ∨
        Holds c change.newUri b (final (c.applyRenameFile change) w) ↔
      ¬ Unlinked c change w := by
  obtain ⟨oldPath, hold, hb⟩ := hb
  obtain ⟨w', hw'⟩ : ∃ w', final (c.applyRenameFile change) w = w' := ⟨_, rfl⟩
  rw [hw']
  -- where the rename stops before it has done anything
  have hstops : w' = w → ¬ Unlinked c change w →
      (Holds c change.oldUri b w' ∨ Holds c change.newUri b w' ↔ ¬ Unlinked c change w) :=
    fun hsame hnot => iff_of_true (Or.inl ⟨oldPath, hold, hsame ▸ hb⟩) hnot
  unfold applyRenameFile at hw'
  rw [hold, final_bind_ok (show convert (.ok oldPath) w = .ok oldPath w from rfl)] at hw'
  cases hnew : c.fromLocalUri change.newUri with
  | error e =>
    rw [hnew] at hw'
    refine hstops hw'.symm ?_
    rintro ⟨-, hfound, -⟩
    rw [present, hnew] at hfound
    cases hfound
  | ok newPath =>
    rw [hnew, final_bind_ok (show convert (.ok newPath) w = .ok newPath w from rfl)] at hw'
    have hholds : Holds c change.oldUri b w' ∨ Holds c change.newUri b w' ↔
        fileAt (c.route oldPath) w'.fs = some b ∨ fileAt (c.route newPath) w'.fs = some b := by
      simp only [Holds, hold, hnew, Except.ok.injEq, exists_eq_left']
    have hunlinked := unlinked_iff hold hnew hb
    have hreads : ∀ p, Reads (c.pathExists p) := fun p => reads_os (FileTree.pathExists_changes _)
    have honto : ¬ Unlinked c change w → final (c.renameOnto change oldPath newPath) w = w' →
        (Holds c change.oldUri b w' ∨ Holds c change.newUri b w' ↔ ¬ Unlinked c change w) :=
      fun hnot hfinal => iff_of_true (hholds.mpr (hfinal ▸ renameOnto_holds hb)) hnot
    cases hthere : c.pathExists oldPath w with
    | error e w₁ =>
      rw [final_bind_error hthere] at hw'
      exact hstops (hw' ▸ ((hreads oldPath).of_error hthere).symm)
        fun h => asked_error_ne hthere (hunlinked.mp h).1
    | ok there w₁ =>
      obtain rfl := (hreads oldPath).of_ok hthere
      rw [final_bind_ok hthere] at hw'
      cases there with
      | false =>
        exact hstops hw'.symm fun h => asked_false_ne hthere (hunlinked.mp h).1
      | true =>
        simp only [if_true] at hw'
        cases htaken : c.pathExists newPath w with
        | error e w₁ =>
          rw [final_bind_error htaken] at hw'
          exact hstops (hw' ▸ ((hreads newPath).of_error htaken).symm)
            fun h => asked_error_ne htaken (hunlinked.mp h).2.1
        | ok taken w₁ =>
          obtain rfl := (hreads newPath).of_ok htaken
          rw [final_bind_ok htaken] at hw'
          cases taken with
          | false =>
            exact honto (fun h => asked_false_ne htaken (hunlinked.mp h).2.1) hw'
          | true =>
            simp only [if_true] at hw'
            cases hover : flag change.options (·.overwrite) with
            | false =>
              simp only [hover, Bool.false_eq_true, if_false] at hw'
              refine hstops ?_ fun h => ?_
              · rw [← hw']
                split_ifs <;> rfl
              · cases hover.symm.trans (hunlinked.mp h).2.2.1
            | true =>
              simp only [hover, if_true] at hw'
              rw [hholds, unlinkOnto_holds_iff hb hw', hunlinked, asked, hthere, asked, htaken]
              simp [hover]

end Content

/-- The content of `/ws/a`. -/
def contentA : Bytes := "x".toList.map fun x => x.toNat.toUInt8

theorem holds_uriA : Holds Small.client Small.uriA contentA (Small.opened "x".toList) :=
  ⟨Path.ofText "/ws/a".toList, by decide, by decide⟩

/-- A rename to another place. -/
theorem rename_keeps_content_apart :
    Holds Small.client Small.uriA contentA
        (final (Small.client.applyRenameFile ⟨Small.uriA, uriB, some ⟨some true, none⟩⟩)
          (Small.opened "x".toList)) ∨
      Holds Small.client uriB contentA
        (final (Small.client.applyRenameFile ⟨Small.uriA, uriB, some ⟨some true, none⟩⟩)
          (Small.opened "x".toList)) := by
  refine (show _ ↔ ¬ Unlinked Small.client ⟨Small.uriA, uriB, some ⟨some true, none⟩⟩
    (Small.opened "x".toList) from rename_keeps_content holds_uriA).mpr ?_
  rintro ⟨-, hfound, -⟩
  have hmissing : asked (present Small.client uriB) (Small.opened "x".toList) = .ok false := by
    decide +kernel
  cases hmissing.symm.trans hfound

/-- `file:///ws/%61`, another URI of `/ws/a`. -/
def uriA' : Uri := "file:///ws/%61".toList

/-- **A file is renamed to another URI of its own, and may overwrite what is there.** The
rename unlinks it and raises. -/
theorem rename_unlinks : Holds Small.client Small.uriA contentA (Small.opened "x".toList) ∧
    (∃ e w', Small.client.applyRenameFile ⟨Small.uriA, uriA', some ⟨some true, none⟩⟩
        (Small.opened "x".toList) = .error e w') ∧
    ¬ (Holds Small.client Small.uriA contentA
          (final (Small.client.applyRenameFile ⟨Small.uriA, uriA', some ⟨some true, none⟩⟩)
            (Small.opened "x".toList)) ∨
        Holds Small.client uriA' contentA
          (final (Small.client.applyRenameFile ⟨Small.uriA, uriA', some ⟨some true, none⟩⟩)
            (Small.opened "x".toList))) := by
  refine ⟨holds_uriA, ?_, ?_⟩
  · cases hrun : Small.client.applyRenameFile ⟨Small.uriA, uriA', some ⟨some true, none⟩⟩
        (Small.opened "x".toList) with
    | error e w' => exact ⟨e, w', rfl⟩
    | ok _ w' =>
      have hreturned : returned (Small.client.applyRenameFile ⟨Small.uriA, uriA', some ⟨some true, none⟩⟩
          (Small.opened "x".toList)) (fun _ _ => ()) = none := by decide +kernel
      rw [hrun] at hreturned
      cases hreturned
  · have hgone : fileAt (Small.client.route (Path.ofText "/ws/a".toList))
        (final (Small.client.applyRenameFile ⟨Small.uriA, uriA', some ⟨some true, none⟩⟩)
          (Small.opened "x".toList)).fs = none := by decide +kernel
    have huri : ∀ u ∈ [Small.uriA, uriA'],
        Small.client.fromLocalUri u = .ok (Path.ofText "/ws/a".toList) := by decide
    rintro (⟨p, hp, hb⟩ | ⟨p, hp, hb⟩)
    · cases (huri _ (by simp)).symm.trans hp
      cases hgone.symm.trans hb
    · cases (huri _ (by simp)).symm.trans hp
      cases hgone.symm.trans hb

end TrackedFiles
end LspClient
