/-
# Renaming and deleting what is open

A rename moves the tracked document to the new URI, and a deletion drops it,
through `register` and `unregister`; neither sends a notification, as
`open_files` does when it opens and closes. So the documents the server has
open stay those the client tracks just if no tracked document was touched
(`resource_same_open`): a renamed document stays open at the server under its
old name, and is tracked under a name the server has not opened
(`rename_opened`). What a rename carries over is the content and the version:
`register` sets the encoding and the count anew (`rename_carries`).

Key definitions: `SameOpen`, `RenameSkipped`, `DeleteSkipped`, `Touches`, `Carried`.
Key theorems: `applyRenameFile_touches`, `applyDeleteFile_touches`, `resource_same_open`,
`rename_carries`.
-/
import LspClient.Mirror

namespace LspClient
namespace Resources

open ByteStream Actions Client Mirror

/-- The server has open what the client tracks. -/
def SameOpen (w : World) : Prop := ∀ u, (serverMap w.conn.sent u).isSome = (w.doc.states u).isSome

variable (c : Client)

/-- Is there a file or a directory for the URI? -/
def present (uri : Uri) : Op Bool := do c.pathExists (← convert (c.fromLocalUri uri))

/-- The rename finds its target taken, and may not overwrite it. -/
def RenameSkipped (change : RenameFile) (w : World) : Prop :=
  asked (present c change.newUri) w = .ok true ∧ flag change.options (·.overwrite) = false

/-- The deletion finds nothing. -/
def DeleteSkipped (change : DeleteFile) (w : World) : Prop :=
  asked (present c change.uri) w = .ok false

instance (change : RenameFile) (w : World) : Decidable (RenameSkipped c change w) :=
  inferInstanceAs (Decidable (_ ∧ _))

instance (change : DeleteFile) (w : World) : Decidable (DeleteSkipped c change w) :=
  inferInstanceAs (Decidable (_ = _))

/-! ### What the operations do to the tracked documents -/

section Touches

variable {c} {α β : Type} {x : Op α} {f : DocumentStateManager → DocumentStateManager} {w w' : World}

/-- An operation on files alone. -/
abbrev FilesOnly (x : Op α) : Prop := Within (fun w w' => w'.doc = w.doc ∧ w'.conn = w.conn) x

/-- An operation that does `f` to the tracked documents if it returns and
nothing if it raises, and that sends nothing. -/
def Touches (f : DocumentStateManager → DocumentStateManager) (x : Op α) (w : World) : Prop :=
  match x w with
  | .ok _ w' => w'.doc = f w.doc ∧ w'.conn = w.conn
  | .error _ w' => w'.doc = w.doc ∧ w'.conn = w.conn

theorem filesOnly_os (call : FileSystem → FileTree.Outcome Name Bytes α) : FilesOnly (os call) := by
  intro w
  unfold final os
  simp only
  split <;> rename_i heq <;> split at heq <;> cases heq <;> exact ⟨rfl, rfl⟩

theorem filesOnly_of_reads (hx : Reads x) : FilesOnly x := within_of_reads (fun _ => ⟨rfl, rfl⟩) hx

theorem filesOnly_bind {k : α → Op β} (hx : FilesOnly x) (hk : ∀ a, FilesOnly (k a)) :
    FilesOnly (x >>= k) :=
  Within.bind (fun _ _ _ h h' => ⟨h'.1.trans h.1, h'.2.trans h.2⟩) hx hk

theorem filesOnly_createParents (p : Path) : FilesOnly (c.createParents p) := by
  refine filesOnly_bind (filesOnly_os _) fun there => ?_
  split
  · exact within_pure fun _ => ⟨rfl, rfl⟩
  · exact filesOnly_os _

theorem filesOnly_removePath (change : DeleteFile) (p : Path) : FilesOnly (c.removePath change p) := by
  refine filesOnly_bind (filesOnly_os _) fun directory => ?_
  split_ifs
  · exact filesOnly_os _
  · intro w
    rw [final_rethrow]
    exact filesOnly_os _ w
  · exact filesOnly_os _

theorem touches_throw {e : Exc} : Touches f (throw e : Op α) w := ⟨rfl, rfl⟩

/-- Files first, and then what touches the documents. -/
theorem touches_bind {k : α → Op β} (hx : FilesOnly x)
    (hk : ∀ a w', x w = .ok a w' → Touches f (k a) w') : Touches f (x >>= k) w := by
  cases h : x w with
  | ok a w₁ =>
    obtain ⟨hdoc, hconn⟩ := hx.of_ok h
    have hrest := hk a w₁ h
    unfold Touches at hrest ⊢
    rw [bind_eq_ok h]
    split <;> rename_i hr <;> rw [hr] at hrest
    · exact ⟨hrest.1.trans (congrArg f hdoc), hrest.2.trans hconn⟩
    · exact ⟨hrest.1.trans hdoc, hrest.2.trans hconn⟩
  | error e w₁ =>
    unfold Touches
    rw [bind_eq_error h]
    exact hx.of_error h

theorem present_eq {uri : Uri} {p : Path} (hp : c.fromLocalUri uri = .ok p) :
    present c uri = c.pathExists p := by
  unfold present
  rw [hp]
  rfl

theorem asked_present {uri : Uri} {p : Path} {b : Bool} (hp : c.fromLocalUri uri = .ok p)
    (h : c.pathExists p w = .ok b w') : asked (present c uri) w = .ok b := by
  rw [present_eq hp, asked, h]

/-- An operation that starts with a conversion. -/
theorem touches_convert {k : α → Op β} {r : Except UriError α} (hk : ∀ a, r = .ok a → Touches f (k a) w) :
    Touches f (convert r >>= k) w := by
  cases r with
  | ok a => exact hk a rfl
  | error e => exact ⟨rfl, rfl⟩

/-- An operation that asks for a path first. -/
theorem touches_pathExists {k : Bool → Op β} {p : Path}
    (hk : ∀ b, c.pathExists p w = .ok b w → Touches f (k b) w) :
    Touches f (c.pathExists p >>= k) w := by
  have hreads : Reads (c.pathExists p) := reads_os (FileTree.pathExists_changes _)
  refine touches_bind (filesOnly_of_reads hreads) fun b w' h => ?_
  obtain rfl := hreads.of_ok h
  exact hk b h

theorem renameOnto_touches (change : RenameFile) (oldPath newPath : Path) :
    Touches (fun m => (moveTracked change.oldUri change.newUri m).2)
      (c.renameOnto change oldPath newPath) w :=
  touches_bind (filesOnly_createParents _) fun _ _ _ =>
    touches_bind (filesOnly_os _) fun _ _ _ => ⟨rfl, rfl⟩

/-- **What `_apply_rename_file` does to the tracked documents.** -/
theorem applyRenameFile_touches (change : RenameFile) (w : World) :
    Touches (fun m => if RenameSkipped c change w then m
      else (moveTracked change.oldUri change.newUri m).2) (c.applyRenameFile change) w := by
  refine touches_convert fun oldPath _ => touches_convert fun newPath hnew => ?_
  refine touches_pathExists fun there _ => ?_
  cases there with
  | false => exact touches_throw
  | true =>
    refine touches_pathExists fun taken htaken => ?_
    have hasked := asked_present hnew htaken
    have hcarried : ¬ RenameSkipped c change w →
        ∀ w', Touches (fun m => if RenameSkipped c change w then m
          else (moveTracked change.oldUri change.newUri m).2) (c.renameOnto change oldPath newPath) w' := by
      intro hskip w'
      simp only [if_neg hskip]
      exact renameOnto_touches change oldPath newPath
    cases taken with
    | false =>
      refine hcarried (fun h => ?_) w
      cases hasked.symm.trans h.1
    | true =>
      cases hover : flag change.options (·.overwrite) with
      | true =>
        refine touches_bind (filesOnly_os _) fun _ w' _ => hcarried (fun h => ?_) w'
        cases hover.symm.trans h.2
      | false =>
        simp only [if_pos (show RenameSkipped c change w from ⟨hasked, hover⟩)]
        cases flag change.options (·.ignoreIfExists) with
        | true => exact ⟨rfl, rfl⟩
        | false => exact ⟨rfl, rfl⟩

/-- **What `_apply_delete_file` does to the tracked documents.** -/
theorem applyDeleteFile_touches (change : DeleteFile) (w : World) :
    Touches (fun m => if DeleteSkipped c change w then m else (m.unregister change.uri).2)
      (c.applyDeleteFile change) w := by
  refine touches_convert fun path hpath => touches_pathExists fun there hthere => ?_
  have hasked := asked_present hpath hthere
  cases there with
  | true =>
    have hskip : ¬ DeleteSkipped c change w := fun h => by cases hasked.symm.trans h
    simp only [if_neg hskip]
    exact touches_bind (filesOnly_removePath _ _) fun _ _ _ => ⟨rfl, rfl⟩
  | false =>
    simp only [if_pos (show DeleteSkipped c change w from hasked)]
    cases flag change.options (·.ignoreIfNotExists) with
    | true => exact ⟨rfl, rfl⟩
    | false => exact ⟨rfl, rfl⟩

end Touches

/-! ### The server is not told -/

section SameOpen

variable {c} {w w' : World}

/-- Nothing is sent, so the open documents are the same as before just if the tracked ones are. -/
theorem sameOpen_iff (hw : SameOpen w) (hconn : w'.conn = w.conn) :
    SameOpen w' ↔ ∀ u, (w'.doc.states u).isSome = (w.doc.states u).isSome := by
  unfold SameOpen
  rw [hconn]
  exact forall_congr' fun u => by rw [hw u, eq_comm]

theorem touches_ok {α : Type} {x : Op α} {f : DocumentStateManager → DocumentStateManager} {a : α}
    (hx : Touches f x w) (h : x w = .ok a w') : w'.doc = f w.doc ∧ w'.conn = w.conn := by
  unfold Touches at hx
  rwa [h] at hx

/-- A moved document is tracked under its new URI instead of the old one. -/
theorem moveTracked_isSome_iff (m : DocumentStateManager) (oldUri newUri : Uri) :
    (∀ u, ((moveTracked oldUri newUri m).2.states u).isSome = (m.states u).isSome) ↔
      m.states oldUri = none ∨ oldUri = newUri := by
  cases hold : m.states oldUri with
  | none => simp [moveTracked_untracked hold]
  | some d =>
    rw [moveTracked_tracked hold]
    constructor
    · intro h
      have hu := h oldUri
      rw [hold] at hu
      by_contra hne
      rw [not_or] at hne
      split_ifs at hu <;> simp [hne.2] at hu
    · rintro (h | rfl)
      · cases h
      · intro u
        by_cases hu : u = oldUri
        · simp [hu, hold]
        · simp [hu]

theorem unregister_isSome_iff (m : DocumentStateManager) (uri : Uri) :
    (∀ u, ((m.unregister uri).2.states u).isSome = (m.states u).isSome) ↔ m.states uri = none := by
  simp only [DocumentStateManager.unregister_states]
  constructor
  · intro h
    have huri := h uri
    rw [if_pos rfl] at huri
    exact Option.not_isSome_iff_eq_none.mp (by rw [← huri]; simp)
  · intro h u
    split_ifs with hu
    · rw [hu, h]
    · rfl

/-- **A rename or a deletion leaves the open documents in step with the
server's just if it touches no tracked document.** -/
theorem resource_same_open (hw : SameOpen w) :
    (∀ change, c.applyRenameFile change w = .ok () w' →
      (SameOpen w' ↔ w.doc.states change.oldUri = none ∨ change.oldUri = change.newUri ∨
        RenameSkipped c change w)) ∧
    (∀ change, c.applyDeleteFile change w = .ok () w' →
      (SameOpen w' ↔ w.doc.states change.uri = none ∨ DeleteSkipped c change w)) := by
  constructor
  · intro change h
    obtain ⟨hdoc, hconn⟩ := touches_ok (applyRenameFile_touches change w) h
    rw [sameOpen_iff hw hconn, hdoc]
    by_cases hskip : RenameSkipped c change w
    · simp [hskip]
    · simp only [hskip, if_false, or_false]
      exact moveTracked_isSome_iff _ _ _
  · intro change h
    obtain ⟨hdoc, hconn⟩ := touches_ok (applyDeleteFile_touches change w) h
    rw [sameOpen_iff hw hconn, hdoc]
    by_cases hskip : DeleteSkipped c change w
    · simp [hskip]
    · simp only [hskip, if_false, or_false]
      exact unregister_isSome_iff _ _

end SameOpen

/-! ### What a rename carries over -/

section Carried

variable {c} {w w' : World}

/-- The document `d` tracked at the old URI is tracked at the new one instead, held as
often as before, and nothing else has changed. -/
structure Carried (oldUri newUri : Uri) (d : DocumentState) (m m' : DocumentStateManager) : Prop where
  target : m'.states newUri = some d
  count : m'.refCounts newUri = m.refCounts oldUri
  source : m'.states oldUri = none ∧ m'.refCounts oldUri = none
  others : ∀ u, u ≠ oldUri → u ≠ newUri → m'.states u = m.states u ∧ m'.refCounts u = m.refCounts u

theorem carried_mk_iff {oldUri newUri : Uri} {d : DocumentState} {m : DocumentStateManager}
    {states : Uri → Option DocumentState} {refCounts : Counter} :
    Carried oldUri newUri d m ⟨states, refCounts⟩ ↔
      states newUri = some d ∧ refCounts newUri = m.refCounts oldUri ∧
        (states oldUri = none ∧ refCounts oldUri = none) ∧
        ∀ u, u ≠ oldUri → u ≠ newUri → states u = m.states u ∧ refCounts u = m.refCounts u :=
  ⟨fun h => ⟨h.target, h.count, h.source, h.others⟩, fun ⟨h₁, h₂, h₃, h₄⟩ => ⟨h₁, h₂, h₃, h₄⟩⟩

/-- `register` gives a document the default encoding and holds it once; where
another one is tracked already, that one stays. -/
theorem moveTracked_carried_iff {m : DocumentStateManager} {oldUri newUri : Uri} {d : DocumentState}
    (hd : m.states oldUri = some d) :
    Carried oldUri newUri d m (moveTracked oldUri newUri m).2 ↔ oldUri ≠ newUri ∧
      (m.states newUri = some d ∧ m.refCounts newUri = m.refCounts oldUri ∨
        m.states newUri = none ∧ d.encoding = utf8 ∧ m.refCounts oldUri = some 1) := by
  rw [moveTracked_tracked hd]
  by_cases hne : oldUri = newUri
  · subst hne
    simp [carried_mk_iff]
  have hne' : newUri ≠ oldUri := fun h => hne h.symm
  have hothers : ∀ u, u ≠ oldUri → (m.refCounts.del oldUri) u = m.refCounts u :=
    fun u hu => Function.update_of_ne hu ..
  have hgone : (m.refCounts.del oldUri) oldUri = none := Function.update_self ..
  cases htarget : m.states newUri with
  | some d' =>
    rw [if_pos ⟨hne', rfl⟩, carried_mk_iff]
    simp +contextual [hne, hne', htarget, hothers, hgone]
  | none =>
    rw [if_neg (by simp), carried_mk_iff]
    simp +contextual only [Function.update_apply, Counter.get_set, hne, hothers, hgone, if_true, if_false,
      and_self, implies_true, and_true, ne_eq, not_false_eq_true, true_and, reduceCtorEq, false_and,
      false_or, Option.some.injEq]
    obtain ⟨content, version, encoding⟩ := d
    simp only [DocumentState.mk.injEq, true_and]
    exact and_congr eq_comm eq_comm

/-- **A rename carries the tracked document over just if it takes place, to
another URI, and the new one is tracked alike already, or is not tracked and the
document is UTF-8 and held once.** -/
theorem rename_carries {change : RenameFile} {d : DocumentState}
    (hd : w.doc.states change.oldUri = some d) (h : c.applyRenameFile change w = .ok () w') :
    Carried change.oldUri change.newUri d w.doc w'.doc ↔
      ¬ RenameSkipped c change w ∧ change.oldUri ≠ change.newUri ∧
        (w.doc.states change.newUri = some d ∧
            w.doc.refCounts change.newUri = w.doc.refCounts change.oldUri ∨
          w.doc.states change.newUri = none ∧ d.encoding = utf8 ∧
            w.doc.refCounts change.oldUri = some 1) := by
  obtain ⟨hdoc, -⟩ := touches_ok (applyRenameFile_touches change w) h
  rw [hdoc]
  by_cases hskip : RenameSkipped c change w
  · simp only [hskip, if_true, not_true_eq_false, false_and, iff_false]
    intro hcarried
    cases hd.symm.trans hcarried.source.1
  · simp only [hskip, if_false, not_false_eq_true, true_and]
    exact moveTracked_carried_iff hd

end Carried

/-! ### A file that is open -/

/-- `file:///ws/b`. -/
def uriB : Uri := "file:///ws/b".toList

/-- `/ws/a` is open, here and at the server. -/
def openA : World :=
  { Small.opened "x".toList with
    conn := ⟨[.didOpen Small.uriA "python".toList 0 "x".toList], fun _ _ => none⟩ }

theorem openA_sameOpen : SameOpen openA := by
  intro u
  by_cases hu : u = Small.uriA
  · simp [openA, serverMap, Mirror.receive, Small.opened, hu]
  · simp [openA, serverMap, Mirror.receive, Small.opened, hu]

/-- A file that is not open is renamed, and another one deleted. -/
theorem resource_same_open_untracked :
    (∃ w', Small.client.applyRenameFile ⟨Small.uriA, uriB, none⟩ (Small.world [("a".toList, [])]) =
      .ok () w' ∧ SameOpen w') ∧
    ∃ w', Small.client.applyDeleteFile ⟨Small.uriA, none⟩ (Small.world [("a".toList, [])]) =
      .ok () w' ∧ SameOpen w' := by
  have hw : SameOpen (Small.world [("a".toList, [])]) := fun _ => rfl
  constructor
  · have hrun : returned (Small.client.applyRenameFile ⟨Small.uriA, uriB, none⟩
        (Small.world [("a".toList, [])])) (fun _ _ => ()) = some () := by decide +kernel
    obtain ⟨_, w', h, -⟩ := returned_some hrun
    exact ⟨w', h, ((resource_same_open hw).1 _ h).mpr (Or.inl rfl)⟩
  · have hrun : returned (Small.client.applyDeleteFile ⟨Small.uriA, none⟩
        (Small.world [("a".toList, [])])) (fun _ _ => ()) = some () := by decide +kernel
    obtain ⟨_, w', h, -⟩ := returned_some hrun
    exact ⟨w', h, ((resource_same_open hw).2 _ h).mpr (Or.inl rfl)⟩

/-- Is the document open at the server, and is it tracked? -/
def openHere (u : Uri) (w : World) : Bool × Bool :=
  ((serverMap w.conn.sent u).isSome, (w.doc.states u).isSome)

/-- **A rename of an open file, and its deletion.** After the rename the server
has the old name open and the client tracks the new one; after the deletion the
server still has the file open. -/
theorem rename_opened : SameOpen openA ∧
    (∃ w', Small.client.applyRenameFile ⟨Small.uriA, uriB, none⟩ openA = .ok () w' ∧
      openHere Small.uriA w' = (true, false) ∧ openHere uriB w' = (false, true) ∧ ¬ SameOpen w') ∧
    ∃ w', Small.client.applyDeleteFile ⟨Small.uriA, none⟩ openA = .ok () w' ∧
      openHere Small.uriA w' = (true, false) ∧ ¬ SameOpen w' := by
  have hapart : ∀ {w' : World}, openHere Small.uriA w' = (true, false) → ¬ SameOpen w' := by
    intro w' h hw'
    obtain ⟨hserver, hclient⟩ := Prod.mk.inj h
    cases hserver.symm.trans ((hw' Small.uriA).trans hclient)
  refine ⟨openA_sameOpen, ?_, ?_⟩
  · have hrun : returned (Small.client.applyRenameFile ⟨Small.uriA, uriB, none⟩ openA)
        (fun _ w => (openHere Small.uriA w, openHere uriB w)) =
          some ((true, false), false, true) := by decide +kernel
    obtain ⟨_, w', h, hw'⟩ := returned_some hrun
    obtain ⟨ha, hb⟩ := Prod.mk.inj hw'
    exact ⟨w', h, ha.symm, hb.symm, hapart ha.symm⟩
  · have hrun : returned (Small.client.applyDeleteFile ⟨Small.uriA, none⟩ openA)
        (fun _ w => openHere Small.uriA w) = some (true, false) := by decide +kernel
    obtain ⟨_, w', h, hw'⟩ := returned_some hrun
    exact ⟨w', h, hw'.symm, hapart hw'.symm⟩

/-- `/ws/a` is tracked with the state `d`, held `n` times. -/
def tracking (d : DocumentState) (n : ℤ) : World :=
  { Small.world [("a".toList, d.content)] with
    doc := ⟨fun u => if u = Small.uriA then some d else none,
      fun u => if u = Small.uriA then some n else none⟩ }

/-- A UTF-8 document that is held once. -/
theorem rename_carries_utf8 : ∃ w', Small.client.applyRenameFile ⟨Small.uriA, uriB, none⟩
      (tracking ⟨"x".toList, 3, utf8⟩ 1) = .ok () w' ∧
    Carried Small.uriA uriB ⟨"x".toList, 3, utf8⟩ (tracking ⟨"x".toList, 3, utf8⟩ 1).doc w'.doc := by
  have hrun : returned (Small.client.applyRenameFile ⟨Small.uriA, uriB, none⟩
      (tracking ⟨"x".toList, 3, utf8⟩ 1)) (fun _ _ => ()) = some () := by decide +kernel
  obtain ⟨_, w', h, -⟩ := returned_some hrun
  have hnew : ¬ RenameSkipped Small.client ⟨Small.uriA, uriB, none⟩
      (tracking ⟨"x".toList, 3, utf8⟩ 1) := by decide +kernel
  exact ⟨w', h, (rename_carries (by rfl) h).mpr ⟨hnew, by decide, Or.inr ⟨rfl, rfl, rfl⟩⟩⟩

/-- What is tracked for a URI. -/
def entry (u : Uri) (m : DocumentStateManager) : Option DocumentState × Option ℤ :=
  (m.states u, m.refCounts u)

/-- **A document that was read as ASCII and is held twice** comes out as a UTF-8
document that is held once. -/
theorem rename_resets : ∃ w', Small.client.applyRenameFile ⟨Small.uriA, uriB, none⟩
      (tracking ⟨"x".toList, 3, Small.ascii⟩ 2) = .ok () w' ∧
    entry uriB w'.doc = (some ⟨"x".toList, 3, utf8⟩, some 1) ∧
    ¬ Carried Small.uriA uriB ⟨"x".toList, 3, Small.ascii⟩
      (tracking ⟨"x".toList, 3, Small.ascii⟩ 2).doc w'.doc := by
  have hrun : returned (Small.client.applyRenameFile ⟨Small.uriA, uriB, none⟩
      (tracking ⟨"x".toList, 3, Small.ascii⟩ 2)) (fun _ w => entry uriB w.doc) =
        some (some ⟨"x".toList, 3, utf8⟩, some 1) := by decide +kernel
  obtain ⟨_, w', h, hw'⟩ := returned_some hrun
  refine ⟨w', h, hw'.symm, fun hcarried => ?_⟩
  have hcount : some (1 : ℤ) = some 2 := (Prod.mk.inj hw').2.trans hcarried.count
  cases hcount

end Resources
end LspClient
