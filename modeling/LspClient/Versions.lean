/-
# Versions within one edit

A text edit that names a version is checked against the tracked one when its
turn comes, and every text edit applied before it to the same document has
raised that by one (`version_changes`). So where every edit names the version
that is tracked at the start, or none, just an edit that follows another one of
its document is refused (`mismatch_iff`).

A version check alone raises the exceptions of its kind: whatever holds of the
others holds of all that the rest of an edit raises (`Usual`).

Key definitions: `Exc.isVersionMismatch`, `editsOf`, `Alone`, `Usual`.
Key theorems: `version_change`, `version_changes`, `mismatch_iff`.
-/
import LspClient.Rename

namespace LspClient

/-- `VersionMismatchError`. -/
def Exc.isVersionMismatch : Exc → Bool
  | .versionMismatchError .. => true
  | _ => false

namespace Versions

open ByteStream Actions Client Rename Resources

/-- The operation raises anything but `VersionMismatchError`. -/
abbrev NoMismatch {α : Type} (x : Op α) : Prop := Raises (fun e : Exc => e.isVersionMismatch = false) x

/-- Is the change a text edit of the document? -/
def edits (u : Uri) : DocumentChange → Bool
  | .textDocumentEdit edit => edit.uri = u
  | _ => false

/-- How many of the changes are text edits of the document. -/
def editsOf (u : Uri) (changes : List DocumentChange) : ℕ := changes.countP (edits u)

/-- The change, unless it is a text edit, has nothing to do with the document. -/
def Alone (u : Uri) : DocumentChange → Prop
  | .textDocumentEdit _ => True
  | .createFile change => change.uri ≠ u
  | .renameFile change => change.oldUri ≠ u ∧ change.newUri ≠ u
  | .deleteFile change => change.uri ≠ u

/-- Each text edit names the version that is tracked for its document, or none. -/
def NamesTracked (edit : WorkspaceEdit) (w : World) : Prop :=
  ∀ e, .textDocumentEdit e ∈ changesOf edit → ∀ n, e.version = some n → w.doc.getVersion e.uri = some n

/-- Nothing but its text edits concerns a document that is edited. -/
def EditsAlone (edit : WorkspaceEdit) : Prop :=
  ∀ e, .textDocumentEdit e ∈ changesOf edit → ∀ change ∈ changesOf edit, Alone e.uri change

/-- The edit is not refused for a version. -/
def NeverMismatch (c : Client) (edit : WorkspaceEdit) (w : World) : Prop :=
  ∀ e w', c.applyWorkspaceEdit edit w = .error e w' → e.isVersionMismatch = false

variable {c : Client} {α : Type} {u v : Uri} {w w' : World}

/-! ### Where the exception comes from -/

/-- What `P` holds of: whatever is raised by anything but a version check. -/
structure Usual (P : Exc → Prop) : Prop where
  osError : ∀ e, P (.osError e)
  uriError : ∀ e, P (.uriError e)
  unicodeEncodeError : P .unicodeEncodeError
  unicodeDecodeError : P .unicodeDecodeError
  sendError : ∀ e, P (.sendError e)
  editApplicationError : ∀ message uri, message.take 2 ≠ "Do".toList → P (.editApplicationError message uri)

theorem usual_mismatch : Usual fun e => e.isVersionMismatch = false where
  osError _ := rfl
  uriError _ := rfl
  unicodeEncodeError := rfl
  unicodeDecodeError := rfl
  sendError _ := rfl
  editApplicationError _ _ _ := rfl

section Usual

variable {P : Exc → Prop}

theorem raises_doc (method : DocumentStateManager → α × DocumentStateManager) : Raises P (doc method) :=
  nofun

variable (hP : Usual P)
include hP

theorem raises_os (call : FileSystem → FileTree.Outcome Name Bytes α) : Raises P (os call) := by
  intro w e w' h
  obtain ⟨cause, rfl, -⟩ := os_error h
  exact hP.osError cause

theorem raises_convert (x : Except UriError α) : Raises P (convert x) := by
  cases x with
  | ok a => exact raises_pure
  | error e => exact raises_throw (hP.uriError e)

theorem raises_notify (msg : Notification) : Raises P (notify msg) := by
  intro w e w' h
  unfold notify at h
  split at h
  · cases h
    exact hP.sendError _
  · cases h

theorem raises_editedContent (uri : Uri) (edits : List AnyTextEdit) :
    Raises P (c.editedContent uri edits) := by
  refine (raises_convert hP _).bind fun filePath => Raises.bind ?_ fun _ => raises_pure
  refine Raises.bind ?_ fun r => ?_
  · refine (raises_convert hP _).bind fun uri => (raises_doc _).bind fun content => ?_
    cases content with
    | some content => exact raises_pure
    | none => exact (raises_convert hP _).bind fun _ => raises_pure
  · cases r with
    | inl content => exact raises_pure
    | inr path =>
      refine (raises_os hP _).bind fun bytes => ?_
      cases c.codecs.decode utf8 bytes with
      | some t => exact raises_pure
      | none => exact raises_throw hP.unicodeDecodeError

theorem raises_writeFile (uri : Uri) (content : Text) : Raises P (c.writeFile uri content) := by
  have hbegin : Raises P (c.writeBegin uri) :=
    (raises_convert hP _).bind fun _ => (raises_doc _).bind fun _ => raises_pure
  refine hbegin.bind fun r => Raises.bind ((raises_os hP _).bind fun l => ?_) fun _ => ?_
  · cases c.codecs.encode r.2 content with
    | some bytes => exact raises_os hP _
    | none => exact raises_throw hP.unicodeEncodeError
  · refine (raises_doc _).bind fun version => ?_
    cases version with
    | some n =>
      exact (raises_convert hP _).bind fun _ => (raises_convert hP _).bind fun _ => raises_notify hP _
    | none => exact raises_pure

theorem raises_createParents (p : Path) : Raises P (c.createParents p) := by
  refine (raises_os hP _).bind fun there => ?_
  split_ifs
  · exact raises_pure
  · exact raises_os hP _

theorem raises_createFile (change : CreateFile) : Raises P (c.applyCreateFile change) := by
  have hcreate : ∀ path, Raises P (c.createParents path >>= fun _ => c.writeFile change.uri []) :=
    fun _ => (raises_createParents hP _).bind fun _ => raises_writeFile hP _ _
  refine (raises_convert hP _).bind fun path => (raises_os hP _).bind fun there => ?_
  split_ifs
  · exact hcreate path
  · exact raises_pure
  · exact raises_throw (hP.editApplicationError _ _ nofun)
  · exact hcreate path

theorem raises_renameFile (change : RenameFile) : Raises P (c.applyRenameFile change) := by
  have honto : ∀ oldPath newPath, Raises P (c.renameOnto change oldPath newPath) := fun _ _ =>
    (raises_createParents hP _).bind fun _ => (raises_os hP _).bind fun _ => raises_doc _
  refine (raises_convert hP _).bind fun oldPath => (raises_convert hP _).bind fun newPath => ?_
  refine (raises_os hP _).bind fun there => ?_
  cases there with
  | false => exact raises_throw (hP.editApplicationError _ _ nofun)
  | true =>
    refine Raises.bind (raises_os hP _) fun taken => ?_
    split_ifs
    · exact (raises_os hP _).bind fun _ => honto oldPath newPath
    · exact raises_pure
    · exact raises_throw (hP.editApplicationError _ _ nofun)
    · exact honto oldPath newPath

theorem raises_deleteFile (change : DeleteFile) : Raises P (c.applyDeleteFile change) := by
  refine (raises_convert hP _).bind fun path => (raises_os hP _).bind fun there => ?_
  split_ifs
  · refine Raises.bind ((raises_os hP _).bind fun directory => ?_) fun _ => raises_doc _
    split_ifs
    · exact raises_os hP _
    · exact raises_rethrow (hP.editApplicationError _ _ nofun)
    · exact raises_os hP _
  · exact raises_pure
  · exact raises_throw (hP.editApplicationError _ _ nofun)

end Usual

/-! ### How the versions change -/

theorem getVersion_congr {m m' : DocumentStateManager} (h : m'.states u = m.states u) :
    m'.getVersion u = m.getVersion u := by
  rw [DocumentStateManager.getVersion, h, DocumentStateManager.getVersion]

theorem updateContent_getVersion (m : DocumentStateManager) (u v : Uri) (content : Text) :
    (m.updateContent v content).2.getVersion u =
      (m.getVersion u).map fun n => n + if v = u then 1 else 0 := by
  rw [DocumentStateManager.getVersion, m.updateContent_states, DocumentStateManager.getVersion]
  by_cases hvu : v = u
  · subst hvu
    simp only [if_true, Option.map_map]
    rfl
  · simp only [hvu, Ne.symm hvu, if_false, Int.add_zero, Option.map_id']

/-- A written file has one version more, if it is tracked. -/
theorem writeFile_getVersion {content : Text} (h : c.writeFile v content w = .ok () w') :
    w'.doc.getVersion u = (w.doc.getVersion u).map fun n => n + if v = u then 1 else 0 := by
  obtain ⟨p, bytes, -, -, -, hend⟩ := writeFile_ok h
  cases hs : w.doc.states v with
  | some d =>
    rw [hs] at hend
    obtain ⟨_, -, hw'⟩ := hend
    rw [hw', World.sendAll_doc, updateContent_getVersion]
  | none =>
    rw [hs] at hend
    rw [hend]
    split_ifs with hvu
    · subst hvu
      simp [DocumentStateManager.getVersion, hs]
    · simp

/-- However it ends, the operation leaves the version of `u`. -/
abbrev KeepsVersion (u : Uri) (x : Op α) : Prop :=
  Within (fun w w' => w'.doc.getVersion u = w.doc.getVersion u) x

theorem keepsVersion_bind {β : Type} {x : Op α} {f : α → Op β} (hx : KeepsVersion u x)
    (hf : ∀ a, KeepsVersion u (f a)) : KeepsVersion u (x >>= f) :=
  Within.bind (fun _ _ _ h h' => h'.trans h) hx hf

theorem keepsVersion_of_doc {x : Op α} (hx : SameDoc x) : KeepsVersion u x :=
  hx.mono fun _ _ h => h ▸ rfl

theorem keepsVersion_writeFile (hvu : v ≠ u) (content : Text) : KeepsVersion u (c.writeFile v content) := by
  refine keepsVersion_bind (keepsVersion_of_doc (sameDoc_reads (c.reads_writeBegin v))) fun r => ?_
  refine keepsVersion_bind (keepsVersion_of_doc (c.writeText_doc _ _ _)) fun _ w => ?_
  show (final (c.writeFinish v content) w).doc.getVersion u = w.doc.getVersion u
  rw [c.writeFinish_doc, updateContent_getVersion, if_neg hvu]
  simp only [Int.add_zero, Option.map_id']

theorem keepsVersion_createFile {change : CreateFile} (hu : change.uri ≠ u) :
    KeepsVersion u (c.applyCreateFile change) := by
  have hcreate : ∀ path, KeepsVersion u (c.createParents path >>= fun _ => c.writeFile change.uri []) :=
    fun path => keepsVersion_bind
      (keepsVersion_of_doc ((filesOnly_createParents path).mono fun _ _ h => h.1))
      fun _ => keepsVersion_writeFile hu _
  refine keepsVersion_bind (keepsVersion_of_doc (sameDoc_reads (reads_convert _))) fun path => ?_
  refine keepsVersion_bind (keepsVersion_of_doc (os_doc _)) fun there => ?_
  split_ifs
  · exact hcreate path
  · exact keepsVersion_of_doc (sameDoc_reads reads_pure)
  · exact keepsVersion_of_doc (sameDoc_reads reads_throw)
  · exact hcreate path

/-- **A change that is applied raises the version of a document by one if it is
a text edit of it.** -/
theorem version_change {change : DocumentChange} (hu : Alone u change)
    (h : c.applyChange change w = .ok () w') :
    w'.doc.getVersion u = (w.doc.getVersion u).map fun n => n + if edits u change then 1 else 0 := by
  have hkept : w'.doc.getVersion u = w.doc.getVersion u →
      w'.doc.getVersion u = (w.doc.getVersion u).map fun n => n + if false = true then 1 else 0 :=
    fun h => by simpa using h
  cases change with
  | textDocumentEdit edit =>
    obtain ⟨newContent, -, hwrite⟩ := applyTextDocumentEdit_ok h
    rw [writeFile_getVersion hwrite]
    simp only [edits, decide_eq_true_eq]
  | createFile change => exact hkept ((keepsVersion_createFile hu).of_ok h)
  | renameFile change =>
    obtain ⟨hdoc, -⟩ := touches_ok (applyRenameFile_touches change w) h
    refine hkept (getVersion_congr ?_)
    rw [hdoc]
    split_ifs
    · rfl
    · rw [moveTracked_states hu.2, if_neg (Ne.symm hu.1)]
  | deleteFile change =>
    obtain ⟨hdoc, -⟩ := touches_ok (applyDeleteFile_touches change w) h
    refine hkept (getVersion_congr ?_)
    rw [hdoc]
    split_ifs
    · rfl
    · rw [DocumentStateManager.unregister_states, if_neg (Ne.symm hu)]

theorem version_changes : ∀ {changes : List DocumentChange} {w : World},
    (∀ change ∈ changes, Alone u change) → c.applyDocumentChanges changes w = .ok () w' →
      w'.doc.getVersion u = (w.doc.getVersion u).map fun n => n + (editsOf u changes : ℤ)
  | [], w, _, h => by
    cases h
    simp [editsOf]
  | change :: rest, w, hu, h => by
    obtain ⟨_, w₁, hchange, hrest⟩ := bind_ok_elim h
    rw [version_changes (fun r hr => hu r (List.mem_cons_of_mem _ hr)) hrest,
      version_change (hu change List.mem_cons_self) hchange, Option.map_map]
    refine Option.map_congr fun n _ => ?_
    rw [Function.comp, editsOf, editsOf, List.countP_cons]
    split_ifs <;> push_cast <;> omega

/-! ### The edit that is refused -/

/-- A text edit is refused for its version just if it names another one than the tracked. -/
theorem applyTextDocumentEdit_mismatch_iff {edit : TextDocumentEdit} :
    (∃ e w', c.applyTextDocumentEdit edit w = .error e w' ∧ e.isVersionMismatch = true) ↔
      ∃ n m, edit.version = some n ∧ w.doc.getVersion edit.uri = some m ∧ m ≠ n := by
  have hrest : NoMismatch (c.editedContent edit.uri edit.edits >>= fun newContent =>
      c.writeFile edit.uri newContent) :=
    (raises_editedContent usual_mismatch _ _).bind fun _ => raises_writeFile usual_mismatch _ _
  have hgiven : (doc fun m => (m.getVersion edit.uri, m)) w = .ok (w.doc.getVersion edit.uri) w := rfl
  constructor
  · rintro ⟨e, w', h, he⟩
    obtain hcheck | ⟨_, w₁, -, hraise⟩ := bind_error_elim h
    · cases hn : edit.version with
      | none =>
        rw [hn] at hcheck
        cases hcheck
      | some n =>
        rw [hn, checkVersion, bind_eq_ok hgiven] at hcheck
        cases hm : w.doc.getVersion edit.uri with
        | none =>
          rw [hm] at hcheck
          cases hcheck
          cases he
        | some m =>
          simp only [hm] at hcheck
          split_ifs at hcheck with hne
          · exact ⟨n, m, rfl, rfl, hne⟩
          · cases hcheck
    · rw [hrest w₁ e w' hraise] at he
      cases he
  · rintro ⟨n, m, hn, hm, hne⟩
    have hcheck : ∃ e, checkVersion edit.uri edit.version w = .error e w ∧ e.isVersionMismatch = true := by
      rw [hn, checkVersion, bind_eq_ok hgiven]
      simp only [hm, if_pos hne]
      exact ⟨_, rfl, rfl⟩
    obtain ⟨e, hraise, he⟩ := hcheck
    exact ⟨e, w, bind_eq_error hraise, he⟩

/-- Only a text edit is refused for its version. -/
theorem applyChange_mismatch {change : DocumentChange} {e : Exc}
    (h : c.applyChange change w = .error e w') (he : e.isVersionMismatch = true) :
    ∃ edit, change = .textDocumentEdit edit := by
  cases change with
  | textDocumentEdit edit => exact ⟨edit, rfl⟩
  | createFile change => exact absurd he (by rw [raises_createFile usual_mismatch change w e w' h]; decide)
  | renameFile change => exact absurd he (by rw [raises_renameFile usual_mismatch change w e w' h]; decide)
  | deleteFile change => exact absurd he (by rw [raises_deleteFile usual_mismatch change w e w' h]; decide)

/-- The change that raises, and those before it. -/
theorem applyDocumentChanges_error : ∀ {changes : List DocumentChange} {w : World} {e : Exc},
    c.applyDocumentChanges changes w = .error e w' → ∃ pre change post w₁,
      changes = pre ++ change :: post ∧ c.applyDocumentChanges pre w = .ok () w₁ ∧
        c.applyChange change w₁ = .error e w'
  | [], _, _, h => nomatch h
  | change :: rest, w, e, h => by
    obtain hraise | ⟨_, w₁, hchange, hrest⟩ := bind_error_elim h
    · exact ⟨[], change, rest, w, rfl, rfl, hraise⟩
    · obtain ⟨pre, change', post, w₂, rfl, hpre, hraise⟩ := applyDocumentChanges_error hrest
      exact ⟨change :: pre, change', post, w₂, rfl, by rw [applyDocumentChanges, bind_eq_ok hchange, hpre],
        hraise⟩

/-- **An edit whose versions are those tracked at the start is refused for a version just if
one of its text edits names a version and its turn comes after another one of its document.** -/
theorem mismatch_iff {edit : WorkspaceEdit} (hversions : NamesTracked edit w) (halone : EditsAlone edit) :
    NeverMismatch c edit w ↔ ∀ pre e post, changesOf edit = pre ++ .textDocumentEdit e :: post →
      e.version ≠ none → 0 < editsOf e.uri pre →
        ∃ x w₁, c.applyDocumentChanges pre w = .error x w₁ := by
  unfold NeverMismatch
  rw [applyWorkspaceEdit_eq]
  -- what the changes before a text edit make of the version that it names
  have hversion : ∀ pre e post w₁ n, changesOf edit = pre ++ .textDocumentEdit e :: post →
      e.version = some n → c.applyDocumentChanges pre w = .ok () w₁ →
        w₁.doc.getVersion e.uri = some (n + (editsOf e.uri pre : ℤ)) := by
    intro pre e post w₁ n hchanges hn hpre
    have hmem : .textDocumentEdit e ∈ changesOf edit := by rw [hchanges]; simp
    rw [version_changes (fun change hchange => halone e hmem change
      (by rw [hchanges]; exact List.mem_append_left _ hchange)) hpre, hversions e hmem n hn]
    rfl
  constructor
  · intro hnever pre e post hchanges hnamed hbefore
    cases hpre : c.applyDocumentChanges pre w with
    | error x w₁ => exact ⟨x, w₁, rfl⟩
    | ok _ w₁ =>
      obtain ⟨n, hn⟩ := Option.ne_none_iff_exists'.mp hnamed
      obtain ⟨x, w₂, hraise, hx⟩ := (applyTextDocumentEdit_mismatch_iff (c := c)).mpr
        ⟨n, _, hn, hversion pre e post w₁ n hchanges hn hpre, by omega⟩
      have hrun : c.applyDocumentChanges (changesOf edit) w = .error x w₂ := by
        rw [hchanges, applyDocumentChanges_append, bind_eq_ok hpre, applyDocumentChanges]
        exact bind_eq_error hraise
      rw [hnever x w₂ hrun] at hx
      cases hx
  · intro hfirst x w' hraise
    by_contra hx
    obtain ⟨pre, change, post, w₁, hchanges, hpre, hraise⟩ := applyDocumentChanges_error hraise
    obtain ⟨e, rfl⟩ := applyChange_mismatch hraise (by simpa using hx)
    obtain ⟨n, m, hn, hm, hne⟩ := applyTextDocumentEdit_mismatch_iff.mp ⟨x, w', hraise, by simpa using hx⟩
    have htracked := hversion pre e post w₁ n hchanges hn hpre
    rw [hm, Option.some.injEq] at htracked
    obtain ⟨y, w₂, herror⟩ := hfirst pre e post hchanges (by rw [hn]; simp) (by omega)
    cases hpre.symm.trans herror

/-- A text edit of `/ws/a` at version 0 that does nothing. -/
def editA : DocumentChange := .textDocumentEdit ⟨Small.uriA, some 0, []⟩

/-- An edit of text edits of `/ws/a`. -/
def ofEdits (n : ℕ) : WorkspaceEdit := ⟨some (List.replicate n editA), none⟩

theorem mem_ofEdits {n : ℕ} {change : DocumentChange} (h : change ∈ changesOf (ofEdits n)) :
    change = editA := by
  cases n with
  | zero => cases h
  | succ n =>
    have hmem : change ∈ List.replicate (n + 1) editA := h
    exact List.eq_of_mem_replicate hmem

theorem ofEdits_names (n : ℕ) : NamesTracked (ofEdits n) (Small.opened "x".toList) := by
  intro e he n hn
  cases mem_ofEdits he
  cases hn
  rfl

theorem ofEdits_alone (n : ℕ) : EditsAlone (ofEdits n) := by
  intro e _ change hchange
  rw [mem_ofEdits hchange]
  exact trivial

/-- One text edit. -/
theorem mismatch_iff_one : NeverMismatch Small.client (ofEdits 1) (Small.opened "x".toList) := by
  refine (mismatch_iff (ofEdits_names 1) (ofEdits_alone 1)).mpr fun pre e post hchanges _ hbefore => ?_
  -- nothing stands before it
  have hlength := congrArg List.length hchanges
  rw [show changesOf (ofEdits 1) = [editA] from rfl, List.length_append, List.length_singleton,
    List.length_cons] at hlength
  rw [List.length_eq_zero_iff.mp (show pre.length = 0 by omega)] at hbefore
  cases hbefore

/-- Does it end with a `VersionMismatchError`? -/
def mismatched : EStateM.Result Exc World Unit → Bool
  | .ok _ _ => false
  | .error e _ => e.isVersionMismatch

/-- **Two text edits of one document, each of which names the version it has.** The
first one raises it, and the second one is refused. -/
theorem mismatch_two : NamesTracked (ofEdits 2) (Small.opened "x".toList) ∧ EditsAlone (ofEdits 2) ∧
    ¬ NeverMismatch Small.client (ofEdits 2) (Small.opened "x".toList) := by
  refine ⟨ofEdits_names 2, ofEdits_alone 2, fun hnever => ?_⟩
  have hrun : mismatched (Small.client.applyWorkspaceEdit (ofEdits 2) (Small.opened "x".toList)) =
      true := by decide +kernel
  cases herror : Small.client.applyWorkspaceEdit (ofEdits 2) (Small.opened "x".toList) with
  | ok _ w' =>
    rw [herror] at hrun
    cases hrun
  | error e w' =>
    rw [herror, mismatched, hnever e w' herror] at hrun
    cases hrun

end Versions
end LspClient
