/-
# Renaming directly, and after a preview

`request_rename` asks the server for the edit and applies it inside its
`open_files` bracket; `request_rename_edits` returns the edit, and its caller
applies it after the bracket has been left. In between the document of the
request is dropped, unless another bracket holds it, and with it the version
that the edit's versions are checked against. If the edit spares the document,
but for renaming and deleting it, both ways end alike; at a text edit of it with
a version the preview raises (`preview_agrees_iff`).

Key definitions: `withOpenFiles`, `requestRename`, `requestRenameEdits`,
`previewRename`, `Dropped`, `Spares`, `Apart`, `SameEnd`.
Key theorems: `alike_applyDocumentChanges`, `preview_agrees`, `preview_refused`,
`preview_agrees_iff`, `preview_raises`.
-/
import LspClient.Release

namespace LspClient

open ByteStream Actions

namespace Client

variable (c : Client)

/-- `async with self.open_files(..)`: the bracket is left however its body ends. -/
def withOpenFiles {α : Type} (order : Order) (filePaths : List Path) (body : Op α) : Op α := do
  let fileUris ← c.openFilesEnter order filePaths
  tryFinally body (c.openFilesExit order fileUris)

/-- `_request_rename` for the URI of the file, with the reply of the server. -/
def requestRenameReply (filePath : Path) (reply : Option WorkspaceEdit) : Op (Option WorkspaceEdit) := do
  let _ ← convert (c.asUri filePath)
  return reply

/-- `request_rename_edits`. -/
def requestRenameEdits (order : Order) (filePath : Path) (reply : Option WorkspaceEdit) :
    Op (Option WorkspaceEdit) :=
  c.withOpenFiles order [filePath] (c.requestRenameReply filePath reply)

/-- `request_rename`. -/
def requestRename (order : Order) (filePath : Path) (reply : Option WorkspaceEdit) : Op Bool :=
  c.withOpenFiles order [filePath] do
    match ← c.requestRenameReply filePath reply with
    | none => return false
    | some edit => do
      c.applyWorkspaceEdit edit
      return true

/-- The workflow of the docstring of `request_rename_edits`. -/
def previewRename (order : Order) (filePath : Path) (reply : Option WorkspaceEdit) : Op Unit := do
  match ← c.requestRenameEdits order filePath reply with
  | some edits => c.applyWorkspaceEdit edits
  | none => return ()

/-- The documents whose tracked state a text edit looks up: `read_file` looks
for the URI of the path. -/
def lookedUp (uri : Uri) : List Uri :=
  uri :: (do c.asUri (← c.fromUri uri) : Except UriError Uri).toOption.toList

/-- What `apply_workspace_edit` applies: the edits of a `changes` map expect no version. -/
def changesOf (edit : WorkspaceEdit) : List DocumentChange :=
  match edit.documentChanges, edit.changes with
  | some (change :: rest), _ => change :: rest
  | _, some changes => changes.entries.map fun e => .textDocumentEdit ⟨e.1, none, e.2⟩
  | _, none => []

end Client

namespace Rename

open Client Release

variable (c : Client)

/-- The bracket of a request for the file is the only one that holds the
document, so it is dropped when the bracket is left. -/
def Dropped (filePath : Path) (w : World) (u : Uri) : Prop :=
  c.syncFile = true ∧ c.asUri filePath = .ok u ∧ w.doc.refCounts.get u ≤ 0

/-- The change does nothing to the documents in `S` but rename them to one
another and delete them. -/
def Avoids (S : Uri → Prop) : DocumentChange → Prop
  | .textDocumentEdit edit => ∀ u ∈ c.lookedUp edit.uri, ¬ S u
  | .createFile change => ¬ S change.uri
  | .renameFile change => S change.oldUri ↔ S change.newUri
  | .deleteFile _ => True

/-- The edit spares the document that is dropped: `S` holds its URI and the names
that the edit renames it to, at which nothing else is open. -/
def Spares (filePath : Path) (w : World) (edit : WorkspaceEdit) : Prop :=
  ∃ S : Uri → Prop, (∀ u, Dropped c filePath w u → S u) ∧
    (∀ u, S u → Dropped c filePath w u ∨ w.doc.states u = none ∧ w.doc.refCounts.get u ≤ 0) ∧
    ∀ change ∈ changesOf edit, Avoids c S change

/-- Both return, or both raise, and they leave the same files. -/
def SameEnd {α β : Type} (x : Op α) (y : Op β) (w : World) : Prop :=
  ((∃ a w', x w = .ok a w') ↔ ∃ b w', y w = .ok b w') ∧ (final x w).fs = (final y w).fs

/-- The connection does not fail. -/
def Sending (w : World) : Prop := ∀ sent msg, w.conn.fails sent msg = none

/-- The server can be told of the document. -/
def Tellable (u : Uri) : Prop := ∃ p v, c.fromLocalUri u = .ok p ∧ c.asUri p = .ok v

/-! ### Two worlds apart in some documents -/

section Apart

/-- The same documents are tracked, but for those in `S`, of which the second
world tracks none. -/
structure DocsApart (S : Uri → Prop) (m m' : DocumentStateManager) : Prop where
  same : ∀ u, ¬ S u → m.states u = m'.states u
  gone : ∀ u, S u → m'.states u = none

/-- The worlds have the same files, and working connections. -/
structure Apart (S : Uri → Prop) (w w' : World) : Prop where
  fs : w.fs = w'.fs
  doc : DocsApart S w.doc w'.doc
  sends : Sending w
  sends' : Sending w'

variable {c} {α : Type} {S : Uri → Prop}

theorem alike_os (call : FileSystem → FileTree.Outcome Name Bytes α) : Alike (Apart S) (os call) := by
  intro w w' h
  obtain ⟨fs, doc, conn⟩ := w
  obtain ⟨fs', doc', conn'⟩ := w'
  obtain rfl : fs = fs' := h.fs
  unfold os
  simp only
  cases (call fs).result with
  | ok a => exact ⟨rfl, rfl, h.doc, h.sends, h.sends'⟩
  | error e => exact ⟨rfl, rfl, h.doc, h.sends, h.sends'⟩

theorem alike_convert (x : Except UriError α) : Alike (Apart S) (convert x) := by
  cases x with
  | ok a => exact alike_pure
  | error e => exact alike_throw

theorem alike_notify (msg : Notification) : Alike (Apart S) (notify msg) := by
  intro w w' h
  unfold notify
  rw [h.sends w.conn.sent msg, h.sends' w'.conn.sent msg]
  exact ⟨rfl, h.fs, h.doc, h.sends, h.sends'⟩

/-- A method that finds and leaves the same, apart from `S`. -/
theorem alike_doc {method : DocumentStateManager → α × DocumentStateManager}
    (hm : ∀ m m', DocsApart S m m' →
      (method m).1 = (method m').1 ∧ DocsApart S (method m).2 (method m').2) :
    Alike (Apart S) (doc method) :=
  fun w w' h => ⟨(hm w.doc w'.doc h.doc).1, h.fs, (hm w.doc w'.doc h.doc).2, h.sends, h.sends'⟩

/-- A look at the state of one document. -/
theorem alike_look {β : Type} {u : Uri} (hu : ¬ S u) (get : Option DocumentState → β) :
    Alike (Apart S) (doc fun m => (get (m.states u), m)) :=
  alike_doc fun _ _ h => ⟨congrArg get (h.same u hu), h⟩

theorem DocsApart.update {m m' : DocumentStateManager} (h : DocsApart S m m') {u : Uri} (hu : ¬ S u)
    (d : Option DocumentState) (r r' : Counter) :
    DocsApart S ⟨Function.update m.states u d, r⟩ ⟨Function.update m'.states u d, r'⟩ := by
  constructor
  · intro v hv
    by_cases hvu : v = u
    · simp [hvu]
    · simpa [hvu] using h.same v hv
  · intro v hv
    have hvu : v ≠ u := fun he => hu (he ▸ hv)
    simpa [hvu] using h.gone v hv

/-- What becomes of a document of `S` in the first world. -/
theorem DocsApart.update_left {m m' : DocumentStateManager} (h : DocsApart S m m') {u : Uri} (hu : S u)
    (d : Option DocumentState) (r : Counter) : DocsApart S ⟨Function.update m.states u d, r⟩ m' := by
  refine ⟨fun v hv => ?_, h.gone⟩
  have hvu : v ≠ u := fun he => hv (he ▸ hu)
  simpa [hvu] using h.same v hv

theorem alike_updateContent {u : Uri} (hu : ¬ S u) (content : Text) :
    Alike (Apart S) (doc fun m => m.updateContent u content) := by
  refine alike_doc fun m m' h => ?_
  unfold DocumentStateManager.updateContent
  rw [← h.same u hu]
  cases m.states u with
  | none => exact ⟨rfl, h⟩
  | some d => exact ⟨rfl, h.update hu _ _ _⟩

theorem DocsApart.unregister {m m' : DocumentStateManager} (h : DocsApart S m m') (u : Uri) :
    DocsApart S (m.unregister u).2 (m'.unregister u).2 := by
  unfold DocumentStateManager.unregister
  by_cases hu : S u
  · -- the second world has no such document
    rw [h.gone u hu]
    cases m.states u with
    | none => exact h
    | some d => exact h.update_left hu none _
  · rw [← h.same u hu]
    cases m.states u with
    | none => exact h
    | some d => exact h.update hu _ _ _

theorem DocsApart.moveTracked {m m' : DocumentStateManager} (h : DocsApart S m m') {oldUri newUri : Uri}
    (hS : S oldUri ↔ S newUri) :
    DocsApart S (moveTracked oldUri newUri m).2 (moveTracked oldUri newUri m').2 := by
  by_cases hold : S oldUri
  · rw [moveTracked_untracked (h.gone oldUri hold)]
    cases hd : m.states oldUri with
    | none => rwa [moveTracked_untracked hd]
    | some d =>
      rw [moveTracked_tracked hd]
      split_ifs
      · exact h.update_left hold none _
      · exact (h.update_left hold none m.refCounts).update_left (hS.mp hold) _ _
  · have hnew : ¬ S newUri := fun hnew => hold (hS.mpr hnew)
    cases hd : m.states oldUri with
    | none => rwa [moveTracked_untracked hd, moveTracked_untracked (h.same oldUri hold ▸ hd)]
    | some d =>
      rw [moveTracked_tracked hd, moveTracked_tracked (h.same oldUri hold ▸ hd), ← h.same newUri hnew]
      split_ifs
      · exact h.update hold _ _ _
      · exact (h.update hold none m.refCounts m'.refCounts).update hnew _ _ _

end Apart

/-! ### Applying an edit in both worlds -/

section Applying

variable {c} {α : Type} {S : Uri → Prop}

theorem alike_convert_bind {β : Type} {x : Except UriError α} {k : α → Op β}
    (hk : ∀ a, x = .ok a → Alike (Apart S) (k a)) : Alike (Apart S) (convert x >>= k) := by
  cases x with
  | ok a => exact hk a rfl
  | error e => exact alike_throw

theorem alike_checkVersion {uri : Uri} (hu : ¬ S uri) (version : Option ℤ) :
    Alike (Apart S) (checkVersion uri version) := by
  cases version with
  | none => exact alike_pure
  | some expected =>
    refine (alike_look hu fun d => d.map (·.version)).bind fun actual => ?_
    cases actual with
    | none => exact alike_throw
    | some actual =>
      simp only
      split_ifs
      · exact alike_throw
      · exact alike_pure

theorem alike_readText (p : Path) (encoding : Encoding) : Alike (Apart S) (c.readText p encoding) := by
  refine (alike_os _).bind fun bytes => ?_
  cases c.codecs.decode encoding bytes with
  | some t => exact alike_pure
  | none => exact alike_throw

theorem alike_readFile {p : Path} (hp : ∀ v, c.asUri p = .ok v → ¬ S v) (encoding : Encoding) :
    Alike (Apart S) (c.readFile p encoding) := by
  refine Alike.bind (alike_convert_bind fun v hv => ?_) fun found => ?_
  · refine (alike_look (hp v hv) fun d => d.map (·.content)).bind fun content => ?_
    cases content with
    | some content => exact alike_pure
    | none => exact (alike_convert _).bind fun _ => alike_pure
  · cases found with
    | inl content => exact alike_pure
    | inr path => exact alike_readText path encoding

theorem alike_editedContent {uri : Uri} (hu : ∀ v ∈ c.lookedUp uri, ¬ S v) (edits : List AnyTextEdit) :
    Alike (Apart S) (c.editedContent uri edits) := by
  refine alike_convert_bind fun p hp => ?_
  refine (alike_readFile (fun v hv => hu v ?_) _).bind fun _ => alike_pure
  have hvia : (do c.asUri (← c.fromUri uri) : Except UriError Uri) = .ok v := by
    rw [hp]
    exact hv
  simp [lookedUp, hvia, Except.toOption]

theorem alike_writeText (p : Path) (content : Text) (encoding : Encoding) :
    Alike (Apart S) (c.writeText p content encoding) := by
  refine (alike_os _).bind fun l => ?_
  cases c.codecs.encode encoding content with
  | some bytes => exact alike_os _
  | none => exact alike_throw

theorem alike_writeFile {uri : Uri} (hu : ¬ S uri) (content : Text) :
    Alike (Apart S) (c.writeFile uri content) := by
  have hencoding : Alike (Apart S) (doc fun m => (m.getEncoding uri, m)) :=
    alike_look hu fun d => (d.map DocumentState.encoding).getD utf8
  refine Alike.bind ((alike_convert _).bind fun path => hencoding.bind fun _ => alike_pure) fun r => ?_
  refine (alike_writeText _ _ _).bind fun _ => ?_
  refine (alike_updateContent hu content).bind fun version => ?_
  cases version with
  | none => exact alike_pure
  | some version =>
    exact (alike_convert _).bind fun p => (alike_convert _).bind fun v => alike_notify _

theorem alike_textDocumentEdit {edit : TextDocumentEdit} (hu : ∀ v ∈ c.lookedUp edit.uri, ¬ S v) :
    Alike (Apart S) (c.applyTextDocumentEdit edit) := by
  have huri : ¬ S edit.uri := hu _ List.mem_cons_self
  exact (alike_checkVersion huri _).bind fun _ => (alike_editedContent hu _).bind fun newContent =>
    alike_writeFile huri newContent

theorem alike_createParents (p : Path) : Alike (Apart S) (c.createParents p) := by
  refine (alike_os _).bind fun there => ?_
  split_ifs
  · exact alike_pure
  · exact alike_os _

theorem alike_createFile {change : CreateFile} (hu : ¬ S change.uri) :
    Alike (Apart S) (c.applyCreateFile change) := by
  have hcreate : ∀ path, Alike (Apart S) (c.createParents path >>= fun _ => c.writeFile change.uri []) :=
    fun path => (alike_createParents path).bind fun _ => alike_writeFile hu []
  refine (alike_convert _).bind fun path => (alike_os _).bind fun there => ?_
  split_ifs
  · exact hcreate path
  · exact alike_pure
  · exact alike_throw
  · exact hcreate path

theorem alike_renameFile {change : RenameFile} (hS : S change.oldUri ↔ S change.newUri) :
    Alike (Apart S) (c.applyRenameFile change) := by
  have honto : ∀ oldPath newPath, Alike (Apart S) (c.renameOnto change oldPath newPath) :=
    fun _ newPath => (alike_createParents newPath).bind fun _ => (alike_os _).bind fun _ =>
      alike_doc fun _ _ h => ⟨by simp, h.moveTracked hS⟩
  refine (alike_convert _).bind fun oldPath => (alike_convert _).bind fun newPath => ?_
  refine (alike_os _).bind fun there => ?_
  cases there with
  | false => exact alike_throw
  | true =>
    refine (alike_os _).bind fun taken => ?_
    split_ifs
    · exact (alike_os _).bind fun _ => honto oldPath newPath
    · exact alike_pure
    · exact alike_throw
    · exact honto oldPath newPath

theorem alike_deleteFile (change : DeleteFile) : Alike (Apart S) (c.applyDeleteFile change) := by
  have hunregister : Alike (Apart S) (doc fun m => ((), (m.unregister change.uri).2)) :=
    alike_doc fun _ _ h => ⟨rfl, h.unregister change.uri⟩
  refine (alike_convert _).bind fun path => (alike_os _).bind fun there => ?_
  split_ifs
  · refine Alike.bind ((alike_os _).bind fun directory => ?_) fun _ => hunregister
    split_ifs
    · exact alike_os _
    · exact (alike_os _).rethrow _
    · exact alike_os _
  · exact alike_pure
  · exact alike_throw

/-- **A change that avoids the documents in `S`.** -/
theorem alike_applyChange {change : DocumentChange} (hS : Avoids c S change) :
    Alike (Apart S) (c.applyChange change) := by
  cases change with
  | textDocumentEdit edit => exact alike_textDocumentEdit hS
  | createFile change => exact alike_createFile hS
  | renameFile change => exact alike_renameFile hS
  | deleteFile change => exact alike_deleteFile change

theorem alike_applyDocumentChanges : ∀ {changes : List DocumentChange},
    (∀ change ∈ changes, Avoids c S change) → Alike (Apart S) (c.applyDocumentChanges changes)
  | [], _ => alike_pure
  | change :: _, hS => (alike_applyChange (hS change List.mem_cons_self)).bind fun _ =>
      alike_applyDocumentChanges fun change hm => hS change (List.mem_cons_of_mem _ hm)

theorem applyWorkspaceEdit_eq (edit : WorkspaceEdit) :
    c.applyWorkspaceEdit edit = c.applyDocumentChanges (changesOf edit) := by
  obtain ⟨documentChanges, changes⟩ := edit
  match documentChanges, changes with
  | some (_ :: _), _ => rfl
  | some [], some changes => exact applyChanges_eq _
  | none, some changes => exact applyChanges_eq _
  | some [], none => rfl
  | none, none => rfl

/-- **Applying a workspace edit is a run of its changes**, in their order and up
to the one it is refused at. -/
theorem applyWorkspaceEdit_acts (edit : WorkspaceEdit) (w : World) (brackets : List (List Uri)) :
    ∃ applied, applied <+: changesOf edit ∧ Run.exec (Release.step c) ⟨w, brackets⟩ (applied.map .change) =
        some ⟨Actions.final (c.applyWorkspaceEdit edit) w, brackets⟩ ∧
      ((∃ w', c.applyWorkspaceEdit edit w = .ok () w') → applied = changesOf edit) := by
  rw [applyWorkspaceEdit_eq]
  exact applyDocumentChanges_acts brackets _ w

end Applying

/-! ### The bracket of the request -/

section Bracket

variable {c} {w w₁ w₂ : World} {order : Order} {filePath : Path}

/-- However it ends, the operation leaves the files alone, and the connection
working as before. -/
abbrev KeepsFiles {α : Type} (x : Op α) : Prop :=
  Within (fun w w' => w'.fs = w.fs ∧ w'.conn.fails = w.conn.fails) x

theorem keepsFiles_trans (w₁ w₂ w₃ : World) (h : w₂.fs = w₁.fs ∧ w₂.conn.fails = w₁.conn.fails)
    (h' : w₃.fs = w₂.fs ∧ w₃.conn.fails = w₂.conn.fails) : w₃.fs = w₁.fs ∧ w₃.conn.fails = w₁.conn.fails :=
  ⟨h'.1.trans h.1, h'.2.trans h.2⟩

theorem keepsFiles_bind {α β : Type} {x : Op α} {k : α → Op β} (hx : KeepsFiles x)
    (hk : ∀ a, KeepsFiles (k a)) : KeepsFiles (x >>= k) :=
  Within.bind keepsFiles_trans hx hk

theorem keepsFiles_reads {α : Type} {x : Op α} (hx : Reads x) : KeepsFiles x :=
  within_of_reads (fun _ => ⟨rfl, rfl⟩) hx

theorem keepsFiles_doc {α : Type} (method : DocumentStateManager → α × DocumentStateManager) :
    KeepsFiles (doc method) := fun _ => ⟨rfl, rfl⟩

theorem keepsFiles_notify (msg : Notification) : KeepsFiles (notify msg) := by
  intro w
  unfold final notify
  split <;> rename_i heq <;> split at heq <;> cases heq <;> exact ⟨rfl, rfl⟩

theorem keepsFiles_openDocuments (uris : List Uri) : KeepsFiles (c.openDocuments uris) := by
  refine keepsFiles_bind (keepsFiles_doc _) fun newUris => ?_
  split_ifs
  · exact keepsFiles_reads reads_pure
  · exact keepsFiles_bind (keepsFiles_reads (c.reads_readDocuments _ _)) fun _ =>
      keepsFiles_bind (keepsFiles_doc _) fun _ => keepsFiles_reads reads_pure

theorem keepsFiles_enter (filePaths : List Path) : KeepsFiles (c.openFilesEnter order filePaths) := by
  unfold openFilesEnter
  split_ifs
  · exact keepsFiles_reads reads_pure
  · rw [mapM_convert]
    refine keepsFiles_bind (keepsFiles_reads (reads_convert _)) fun uris => ?_
    split_ifs
    · exact keepsFiles_reads reads_pure
    · exact keepsFiles_bind (keepsFiles_openDocuments uris) fun _ =>
        keepsFiles_bind (c.within_sendOpened (fun _ => ⟨rfl, rfl⟩) keepsFiles_trans keepsFiles_notify _)
          fun _ => keepsFiles_reads reads_pure

theorem keepsFiles_exit (uris : List Uri) : KeepsFiles (c.openFilesExit order uris) := by
  unfold openFilesExit
  split_ifs
  · exact keepsFiles_reads reads_pure
  · exact keepsFiles_bind (keepsFiles_doc _) fun _ =>
      c.within_sendClosed (fun _ => ⟨rfl, rfl⟩) keepsFiles_trans keepsFiles_notify _

theorem Sending.of_fails (h : Sending w) (hfails : w₁.conn.fails = w.conn.fails) : Sending w₁ :=
  fun sent msg => hfails ▸ h sent msg

theorem notify_returns (h : Sending w) (msg : Notification) : notify msg w = .ok () (w.sendAll [msg]) := by
  unfold notify
  rw [h w.conn.sent msg]

/-- The documents of the list that the server is told of can be told of. -/
theorem sendOpened_tellable : ∀ {l : List (Uri × Text)} {w w' : World}, c.sendOpened l w = .ok () w' →
    ∀ e ∈ l, Tellable c e.1
  | [], _, _, _ => nofun
  | (u, content) :: rest, w, w', h => by
    obtain ⟨p, v, hp, hv, hrest⟩ := tell_next_ok h
    intro e he
    rcases List.mem_cons.mp he with rfl | he
    · exact ⟨p, v, hp, hv⟩
    · exact sendOpened_tellable hrest e he

theorem sendClosed_returns : ∀ {l : List Uri} {w : World}, Sending w → (∀ u ∈ l, Tellable c u) →
    ∃ w', c.sendClosed l w = .ok () w'
  | [], w, _, _ => ⟨w, rfl⟩
  | u :: rest, w, hw, hl => by
    obtain ⟨p, v, hp, hv⟩ := hl u List.mem_cons_self
    have hsend : c.notifyTextDocumentClosed p w = .ok () (w.sendAll [.didClose v]) := by
      unfold notifyTextDocumentClosed
      rw [hv]
      exact notify_returns hw _
    obtain ⟨w', hw'⟩ := sendClosed_returns (w := w.sendAll [.didClose v]) hw
      fun x hx => hl x (List.mem_cons_of_mem _ hx)
    refine ⟨w', ?_⟩
    rw [sendClosed, hp]
    exact (bind_eq_ok hsend).trans hw'

/-- A bracket that is left over a working connection. -/
theorem openFilesExit_returns (order : Order) {uris : List Uri} (hw : Sending w)
    (hl : ∀ u ∈ uris, Tellable c u) :
    ∃ w', c.openFilesExit order uris w = .ok () w' := by
  unfold openFilesExit
  split_ifs with hnil
  · exact ⟨w, rfl⟩
  · have hclose : doc (fun m => m.close uris) w =
        .ok (w.doc.close uris).1 { w with doc := (w.doc.close uris).2 } := rfl
    have hmem : ∀ u ∈ order.arrange (w.doc.close uris).1, Tellable c u := by
      intro u hu
      have hreported := (order.perm _).mem_iff.mp hu
      by_contra hno
      have hout := (w.doc.close_untouched fun hin => hno (hl u hin)).2.2
      exact List.count_eq_zero.mp hout hreported
    obtain ⟨w', hw'⟩ := sendClosed_returns (w := { w with doc := (w.doc.close uris).2 }) hw hmem
    exact ⟨w', (bind_eq_ok hclose).trans hw'⟩

theorem requested_single (filePath : Path) : (requested c [filePath]).Nodup ∧
    ∀ u, u ∈ requested c [filePath] ↔ c.syncFile = true ∧ c.asUri filePath = .ok u := by
  have hmap : [filePath].mapM c.asUri = (do return [← c.asUri filePath]) := by
    rw [List.mapM_cons, List.mapM_nil]
    rfl
  unfold requested
  rw [hmap]
  cases c.syncFile with
  | false => simp
  | true =>
    cases c.asUri filePath with
    | error e => exact ⟨List.nodup_nil, fun u => ⟨nofun, nofun⟩⟩
    | ok v =>
      refine ⟨List.nodup_singleton v, fun u => ?_⟩
      show u ∈ [v] ↔ _
      rw [List.mem_singleton, Except.ok.injEq]
      exact ⟨fun h => ⟨rfl, h.symm⟩, fun h => h.2.symm⟩

theorem enter_uris {filePaths : List Path} {uris : List Uri}
    (h : c.openFilesEnter order filePaths w = .ok uris w₁) : uris = requested c filePaths := by
  obtain ⟨w', hrun, -⟩ | ⟨e, w', hrun, -⟩ := openFilesEnter_cases (c := c) order filePaths w
  · cases hrun.symm.trans h
    rfl
  · cases hrun.symm.trans h

/-- What a bracket holds can be told of, if what was tracked before could. -/
theorem enter_tellable {filePaths : List Path} {uris : List Uri}
    (h : c.openFilesEnter order filePaths w = .ok uris w₁)
    (htold : ∀ u ∈ uris, (w.doc.states u).isSome = true → Tellable c u) : ∀ u ∈ uris, Tellable c u := by
  intro u hu
  by_cases htracked : (w.doc.states u).isSome = true
  · exact htold u hu htracked
  · have hnone : w.doc.states u = none := by simpa using htracked
    unfold openFilesEnter at h
    split_ifs at h
    · cases h
      cases hu
    · obtain ⟨asked, w₂, hmap, hrest⟩ := bind_ok_elim h
      obtain ⟨rfl, -⟩ := asUris_ok hmap
      split_ifs at hrest
      · cases hrest
        cases hu
      · obtain ⟨new, w₃, hopen, hrest⟩ := bind_ok_elim hrest
        obtain ⟨_, w₄, hsend, hend⟩ := bind_ok_elim hrest
        cases hend
        -- the document is new, so the server was told of it
        have hnew := ((openDocuments_ok hopen).2 u).2
        rw [if_pos ⟨hu, hnone⟩] at hnew
        obtain ⟨d, hd, -⟩ := hnew
        refine sendOpened_tellable hsend (u, d.content) ((order.perm _).mem_iff.mpr ?_)
        exact NewStates.mem_contents.mpr ⟨d, hd, rfl⟩

/-- **Leaving the bracket of the request takes the documents that nobody else
holds out of the tracked ones.** -/
theorem docsApart_exit {uris : List Uri} (henter : c.openFilesEnter order [filePath] w = .ok uris w₁)
    (hexit : c.openFilesExit order uris w₁ = .ok () w₂) :
    DocsApart (Dropped c filePath w) w₁.doc w₂.doc := by
  obtain ⟨w', hrun, hdoc, -⟩ | ⟨e, w', hrun, -⟩ := openFilesEnter_cases (c := c) order [filePath] w
  · cases hrun.symm.trans henter
    have hclosed : w₂.doc = (w₁.doc.close (requested c [filePath])).2 := by
      have hclosed := openFilesExit_final (c := c) order (requested c [filePath]) w₁
      rwa [final, hexit] at hclosed
    obtain ⟨hnodup, hmem⟩ := requested_single (c := c) filePath
    have hcount : ∀ {u}, u ∈ requested c [filePath] → (requested c [filePath]).count u = 1 :=
      fun hu => List.count_eq_one_of_mem hnodup hu
    have hget : ∀ {u}, u ∈ requested c [filePath] →
        w₁.doc.refCounts.get u = w.doc.refCounts.get u + 1 := fun hu => by
      rw [hdoc, opened_get, hcount hu]
      rfl
    refine ⟨fun u hu => ?_, fun u hu => ?_⟩
    · rw [hclosed]
      by_cases hin : u ∈ requested c [filePath]
      · have hheld : ¬ w.doc.refCounts.get u ≤ 0 := fun hle =>
          hu ⟨((hmem u).mp hin).1, ((hmem u).mp hin).2, hle⟩
        refine (w₁.doc.close_held hin ?_).2.1.symm
        rw [hcount hin, hget hin]
        omega
      · exact (w₁.doc.close_untouched hin).2.1.symm
    · have hin := (hmem u).mpr ⟨hu.1, hu.2.1⟩
      have hle := hu.2.2
      rw [hclosed]
      refine (w₁.doc.close_released hin ?_).2.1
      rw [hcount hin, hget hin]
      omega
  · cases hrun.symm.trans henter

/-- It does nothing else that an edit looks at. -/
theorem apart_exit (hsend : Sending w) {uris : List Uri}
    (henter : c.openFilesEnter order [filePath] w = .ok uris w₁)
    (hexit : c.openFilesExit order uris w₁ = .ok () w₂) : Apart (Dropped c filePath w) w₁ w₂ := by
  obtain ⟨-, hfails₁⟩ := (keepsFiles_enter [filePath]).of_ok henter
  obtain ⟨hfs₂, hfails₂⟩ := (keepsFiles_exit uris).of_ok hexit
  have hsend₁ := hsend.of_fails hfails₁
  exact ⟨hfs₂.symm, docsApart_exit henter hexit, hsend₁, hsend₁.of_fails hfails₂⟩

/-- The documents an edit spares are untracked after the bracket, and the others as before. -/
theorem apart_spared (hsend : Sending w) {uris : List Uri} {S : Uri → Prop}
    (henter : c.openFilesEnter order [filePath] w = .ok uris w₁)
    (hexit : c.openFilesExit order uris w₁ = .ok () w₂) (hdrop : ∀ u, Dropped c filePath w u → S u)
    (hfree : ∀ u, S u → Dropped c filePath w u ∨ w.doc.states u = none ∧ w.doc.refCounts.get u ≤ 0) :
    Apart S w₁ w₂ := by
  have hapart := apart_exit hsend henter hexit
  refine ⟨hapart.fs, ⟨fun u hu => hapart.doc.same u (mt (hdrop u) hu), fun u hu => ?_⟩,
    hapart.sends, hapart.sends'⟩
  by_cases hd : Dropped c filePath w u
  · exact hapart.doc.gone u hd
  · -- the bracket does not ask for the document, so it does not open it
    obtain ⟨hnone, hcount⟩ := (hfree u hu).resolve_left hd
    have hout : u ∉ requested c [filePath] := fun hin =>
      have hasked := ((requested_single filePath).2 u).mp hin
      hd ⟨hasked.1, hasked.2, hcount⟩
    rw [← hapart.doc.same u hd]
    obtain ⟨w', hrun, hdoc, -⟩ | ⟨e, w', hrun, -⟩ := openFilesEnter_cases (c := c) order [filePath] w
    · cases hrun.symm.trans henter
      obtain ⟨new, hnew, hfinal⟩ := openDocuments_final (c := c) (requested c [filePath]) w
      have hlook : new.lookup u = none := by
        cases hl : new.lookup u with
        | none => rfl
        | some d => exact absurd (hnew u d hl) hout
      rw [hdoc, hfinal]
      show (new.lookup u).or (w.doc.states u) = none
      rw [hlook, hnone]
      rfl
    · cases hrun.symm.trans henter

end Bracket

/-! ### What is not tracked -/

section Untracked

variable {c} {u : Uri}

/-- A move leaves nothing under the old URI, and every other one but the new as it was. -/
theorem moveTracked_states {m : DocumentStateManager} {oldUri newUri : Uri} (hne : newUri ≠ u) :
    (moveTracked oldUri newUri m).2.states u = if u = oldUri then none else m.states u := by
  cases hd : m.states oldUri with
  | none =>
    rw [moveTracked_untracked hd]
    split_ifs with hu
    · rw [hu, hd]
    · rfl
  | some d =>
    rw [moveTracked_tracked hd]
    split_ifs with htaken hu hu
    · simp [hu]
    · simp [hu]
    · exact (Function.update_of_ne hne.symm ..).trans (hu ▸ Function.update_self ..)
    · exact (Function.update_of_ne hne.symm ..).trans (Function.update_of_ne hu ..)

/-- A change makes the client track a document only by renaming another one to it. -/
theorem untracked_applyChange (change : DocumentChange)
    (hu : ∀ r, change = .renameFile r → r.newUri ≠ u) :
    Within (fun w w' => w.doc.states u = none → w'.doc.states u = none) (c.applyChange change) := by
  intro w hnone
  cases change with
  | textDocumentEdit edit => exact (keepsTracked_textDocumentEdit (c := c) edit w).untracked hnone
  | createFile change => exact (keepsTracked_createFile (c := c) change w).untracked hnone
  | renameFile change =>
    show (final (c.applyRenameFile change) w).doc.states u = none
    obtain ⟨-, hdoc⟩ | ⟨-, hdoc⟩ := applyRenameFile_final (c := c) change w
    · rw [hdoc]
      rw [moveTracked_states (hu change rfl), hnone, ite_self]
    · rw [hdoc]
      exact hnone
  | deleteFile change =>
    show (final (c.applyDeleteFile change) w).doc.states u = none
    obtain hdoc | hdoc := applyDeleteFile_final (c := c) change w
    · rw [hdoc]
      exact hnone
    · rw [hdoc, DocumentStateManager.unregister_states, hnone, ite_self]

theorem untracked_applyDocumentChanges : ∀ {changes : List DocumentChange},
    (∀ r, .renameFile r ∈ changes → r.newUri ≠ u) →
    Within (fun w w' => w.doc.states u = none → w'.doc.states u = none) (c.applyDocumentChanges changes)
  | [], _ => within_pure fun _ h => h
  | change :: _, hu => Within.bind (fun _ _ _ h h' hnone => h' (h hnone))
      (untracked_applyChange change fun r hr => hu r (hr ▸ List.mem_cons_self)) fun _ =>
        untracked_applyDocumentChanges fun r hr => hu r (List.mem_cons_of_mem _ hr)

end Untracked

/-! ### Direct and previewed -/

section Bodies

variable {c} {α : Type} {order : Order} {filePaths : List Path} {body : Op α} {uris : List Uri}
  {w w₁ w₂ w₃ : World} {a : α} {e : Exc}

theorem withOpenFiles_refused (henter : c.openFilesEnter order filePaths w = .error e w₁) :
    c.withOpenFiles order filePaths body w = .error e w₁ := bind_eq_error henter

theorem withOpenFiles_ok (henter : c.openFilesEnter order filePaths w = .ok uris w₁)
    (hbody : body w₁ = .ok a w₂) (hexit : c.openFilesExit order uris w₂ = .ok () w₃) :
    c.withOpenFiles order filePaths body w = .ok a w₃ := by
  refine (bind_eq_ok henter).trans ?_
  simp only [tryFinally_apply, hbody, hexit]

theorem withOpenFiles_error (henter : c.openFilesEnter order filePaths w = .ok uris w₁)
    (hbody : body w₁ = .error e w₂) (hexit : c.openFilesExit order uris w₂ = .ok () w₃) :
    c.withOpenFiles order filePaths body w = .error e w₃ := by
  refine (bind_eq_ok henter).trans ?_
  simp only [tryFinally_apply, hbody, hexit]

end Bodies

section Preview

variable {c} {order : Order} {filePath : Path} {reply : Option WorkspaceEdit} {w w₁ w₂ : World}

theorem requestRenameReply_ok {u : Uri} (hu : c.asUri filePath = .ok u) (w : World) :
    c.requestRenameReply filePath reply w = .ok reply w := by
  rw [requestRenameReply, hu]
  rfl

theorem sameEnd_returns {α β : Type} {x : Op α} {y : Op β} {a : α} {b : β} (hx : x w = .ok a w₁)
    (hy : y w = .ok b w₂) (hfs : w₁.fs = w₂.fs) : SameEnd x y w := by
  unfold SameEnd final
  rw [hx, hy]
  exact ⟨⟨fun _ => ⟨_, _, rfl⟩, fun _ => ⟨_, _, rfl⟩⟩, hfs⟩

theorem sameEnd_raises {α β : Type} {x : Op α} {y : Op β} {e e' : Exc} (hx : x w = .error e w₁)
    (hy : y w = .error e' w₂) (hfs : w₁.fs = w₂.fs) : SameEnd x y w := by
  unfold SameEnd final
  rw [hx, hy]
  exact ⟨⟨nofun, nofun⟩, hfs⟩

/-- A preview over a working connection is the edit in the world after the bracket. -/
theorem previewRename_eq {uris : List Uri} {edit : WorkspaceEdit} {u : Uri}
    (hu : c.asUri filePath = .ok u) (henter : c.openFilesEnter order [filePath] w = .ok uris w₁)
    (hexit : c.openFilesExit order uris w₁ = .ok () w₂) :
    c.previewRename order filePath (some edit) w = c.applyWorkspaceEdit edit w₂ :=
  bind_eq_ok (withOpenFiles_ok henter (requestRenameReply_ok hu w₁) hexit)

/-- What the direct rename does with an edit, in the world in its bracket. -/
theorem requestRename_body {u : Uri} {edit : WorkspaceEdit} (hu : c.asUri filePath = .ok u) (w : World) :
    (c.requestRenameReply filePath (some edit) >>= fun r =>
      match r with
      | none => return false
      | some edit => do
        c.applyWorkspaceEdit edit
        return true : Op Bool) w = (do c.applyWorkspaceEdit edit; return true : Op Bool) w :=
  bind_eq_ok (requestRenameReply_ok hu w)

/-- If an edit ends alike in the bracket of the request and after it, so do the two ways. -/
theorem sameEnd_edit {S : Uri → Prop} {uris : List Uri} {edit : WorkspaceEdit} {u : Uri}
    (hu : c.asUri filePath = .ok u) (henter : c.openFilesEnter order [filePath] w = .ok uris w₁)
    (hexit : c.openFilesExit order uris w₁ = .ok () w₂) (htell : ∀ u ∈ uris, Tellable c u)
    (halike : EndAlike (Apart S) (c.applyWorkspaceEdit edit w₁) (c.applyWorkspaceEdit edit w₂)) :
    SameEnd (c.requestRename order filePath (some edit)) (c.previewRename order filePath (some edit)) w := by
  have hpreview : c.previewRename order filePath (some edit) w = c.applyWorkspaceEdit edit w₂ :=
    previewRename_eq hu henter hexit
  cases hd : c.applyWorkspaceEdit edit w₁ with
  | ok a w₃ =>
    cases hp : c.applyWorkspaceEdit edit w₂ with
    | ok b w₄ =>
      rw [hd, hp] at halike
      obtain ⟨w₅, hlast⟩ := openFilesExit_returns order halike.2.sends htell
      have hbody := (requestRename_body hu w₁).trans (bind_eq_ok hd)
      have hfs := ((keepsFiles_exit uris).of_ok hlast).1
      exact sameEnd_returns (withOpenFiles_ok henter hbody hlast) (hpreview.trans hp) (hfs.trans halike.2.fs)
    | error e w₄ =>
      rw [hd, hp] at halike
      exact halike.elim
  | error e w₃ =>
    cases hp : c.applyWorkspaceEdit edit w₂ with
    | ok b w₄ =>
      rw [hd, hp] at halike
      exact halike.elim
    | error e' w₄ =>
      rw [hd, hp] at halike
      obtain ⟨w₅, hlast⟩ := openFilesExit_returns order halike.2.sends htell
      have hbody := (requestRename_body hu w₁).trans (bind_eq_error hd)
      have hfs := ((keepsFiles_exit uris).of_ok hlast).1
      exact sameEnd_raises (withOpenFiles_error henter hbody hlast) (hpreview.trans hp) (hfs.trans halike.2.fs)

/-- **Renaming directly and after a preview end alike if the edit spares the
document that is dropped in between.** -/
theorem preview_agrees (hsend : Sending w)
    (htold : ∀ u, c.asUri filePath = .ok u → (w.doc.states u).isSome = true → Tellable c u)
    (hspares : ∀ edit, reply = some edit → Spares c filePath w edit) :
    SameEnd (c.requestRename order filePath reply) (c.previewRename order filePath reply) w := by
  cases henter : c.openFilesEnter order [filePath] w with
  | error e w₁ =>
    exact sameEnd_raises (withOpenFiles_refused henter) (bind_eq_error (withOpenFiles_refused henter)) rfl
  | ok uris w₁ =>
    have hsend₁ := hsend.of_fails ((keepsFiles_enter [filePath]).of_ok henter).2
    have htell : ∀ u ∈ uris, Tellable c u := enter_tellable henter fun u hu =>
      htold u (((requested_single filePath).2 u).mp (enter_uris henter ▸ hu)).2
    obtain ⟨w₂, hexit⟩ := openFilesExit_returns order hsend₁ htell
    cases hu : c.asUri filePath with
    | error e =>
      have hask : c.requestRenameReply filePath reply w₁ = .error (.uriError e) w₁ := by
        rw [requestRenameReply, hu]
        rfl
      exact sameEnd_raises (withOpenFiles_error henter (bind_eq_error hask) hexit)
        (bind_eq_error (withOpenFiles_error henter hask hexit)) rfl
    | ok u =>
      cases reply with
      | none =>
        have hdirect : c.requestRename order filePath none w = .ok false w₂ :=
          withOpenFiles_ok henter (bind_eq_ok (requestRenameReply_ok hu w₁)) hexit
        have hpreview : c.previewRename order filePath none w = .ok () w₂ :=
          bind_eq_ok (withOpenFiles_ok henter (requestRenameReply_ok hu w₁) hexit)
        exact sameEnd_returns hdirect hpreview rfl
      | some edit =>
        obtain ⟨S, hdrop, hfree, havoids⟩ := hspares edit rfl
        have halike : Alike (Apart S) (c.applyWorkspaceEdit edit) :=
          applyWorkspaceEdit_eq (c := c) edit ▸ alike_applyDocumentChanges havoids
        exact sameEnd_edit hu henter hexit htell
          (halike w₁ w₂ (apart_spared hsend henter hexit hdrop hfree))

theorem applyDocumentChanges_append : ∀ (pre post : List DocumentChange),
    c.applyDocumentChanges (pre ++ post) =
      c.applyDocumentChanges pre >>= fun _ => c.applyDocumentChanges post
  | [], post => (pure_bind () fun _ => c.applyDocumentChanges post).symm
  | change :: pre, post => by
    rw [List.cons_append, applyDocumentChanges, applyDocumentChanges, bind_assoc]
    congr 1
    funext _
    exact applyDocumentChanges_append pre post

/-- **A preview raises at a text edit with a version, of a document that has
been dropped and that no change before it renames another one to.** -/
theorem preview_refused (hsend : Sending w)
    (htold : ∀ u, c.asUri filePath = .ok u → (w.doc.states u).isSome = true → Tellable c u)
    {edit : WorkspaceEdit} {e : TextDocumentEdit} {pre post : List DocumentChange}
    (hchanges : changesOf edit = pre ++ .textDocumentEdit e :: post)
    (hpre : ∀ r, .renameFile r ∈ pre → r.newUri ≠ e.uri)
    (hdropped : Dropped c filePath w e.uri) (hversion : e.version ≠ none) :
    ¬ ∃ a w', c.previewRename order filePath (some edit) w = .ok a w' := by
  rintro ⟨_, w', hrun⟩
  cases henter : c.openFilesEnter order [filePath] w with
  | error e w₁ =>
    have hrefused : c.previewRename order filePath (some edit) w = .error e w₁ :=
      bind_eq_error (withOpenFiles_refused henter)
    cases hrefused.symm.trans hrun
  | ok uris w₁ =>
    have hsend₁ := hsend.of_fails ((keepsFiles_enter [filePath]).of_ok henter).2
    obtain ⟨w₂, hexit⟩ := openFilesExit_returns order hsend₁
      (enter_tellable henter fun u hu =>
        htold u (((requested_single filePath).2 u).mp (enter_uris henter ▸ hu)).2)
    rw [previewRename_eq hdropped.2.1 henter hexit, applyWorkspaceEdit_eq, hchanges,
      applyDocumentChanges_append] at hrun
    obtain ⟨_, w₃, hfirst, hrest⟩ := bind_ok_elim hrun
    obtain ⟨_, w₄, hedit, -⟩ := bind_ok_elim hrest
    obtain ⟨_, w₅, hcheck, -⟩ := bind_ok_elim hedit
    -- the changes before the edit do not track the document again
    have hgone : w₃.doc.states e.uri = none := (untracked_applyDocumentChanges hpre).of_ok hfirst
      ((apart_exit hsend henter hexit).doc.gone e.uri hdropped)
    obtain ⟨n, hn⟩ := Option.ne_none_iff_exists'.mp hversion
    have hfound := checkVersion_ok hcheck n hn
    rw [DocumentStateManager.getVersion, hgone] at hfound
    cases hfound

/-- A document that somebody else holds is spared by every edit. -/
theorem spares_of_held (h : ∀ u, ¬ Dropped c filePath w u) (edit : WorkspaceEdit) :
    Spares c filePath w edit := by
  refine ⟨fun _ => False, h, fun _ => False.elim, fun change _ => ?_⟩
  cases change with
  | textDocumentEdit edit => exact fun _ _ => id
  | createFile change => exact id
  | renameFile change => exact Iff.rfl
  | deleteFile change => trivial

/-- **When a rename may be previewed.** It ends as the direct rename does if the
edit spares the document that nobody but the request holds. If one of its text
edits is of the document, with a version, and nothing before it is renamed to
the document, and the direct rename succeeds, it does so exactly if the document
is held. -/
theorem preview_agrees_iff (hsend : Sending w)
    (htold : ∀ u, c.asUri filePath = .ok u → (w.doc.states u).isSome = true → Tellable c u) :
    ((∀ edit, reply = some edit → Spares c filePath w edit) →
      SameEnd (c.requestRename order filePath reply) (c.previewRename order filePath reply) w) ∧
    ∀ edit pre e post, reply = some edit →
      changesOf edit = pre ++ .textDocumentEdit e :: post →
      c.asUri filePath = .ok e.uri → e.version ≠ none → (∀ r, .renameFile r ∈ pre → r.newUri ≠ e.uri) →
      (∃ a w', c.requestRename order filePath reply w = .ok a w') →
      (SameEnd (c.requestRename order filePath reply) (c.previewRename order filePath reply) w ↔
        ¬ Dropped c filePath w e.uri) := by
  refine ⟨preview_agrees hsend htold, ?_⟩
  rintro edit pre e post rfl hchanges huri hversion hpre hdirect
  constructor
  · intro hsame hdropped
    exact preview_refused hsend htold hchanges hpre hdropped hversion (hsame.1.mp hdirect)
  · intro hheld
    refine preview_agrees hsend htold fun edit' _ => spares_of_held (fun u hu => hheld ?_) edit'
    cases hu.2.1.symm.trans huri
    exact hu

end Preview

/-! ### A rename of one occurrence -/

/-- The reply to a rename in `/ws/a`: one text edit, of the version that was opened. -/
def oneEdit : WorkspaceEdit :=
  ⟨some [.textDocumentEdit ⟨Small.uriA, some 0, [.textEdit ⟨⟨0, 0⟩, ⟨0, 1⟩⟩ "y".toList]⟩], none⟩

/-- `/ws/a`, the file of the request. -/
def pathA : Path := Path.ofText "a".toList

theorem pathA_uri : Small.client.asUri pathA = .ok Small.uriA := by decide

theorem pathA_tellable {w : World} : ∀ u, Small.client.asUri pathA = .ok u →
    (w.doc.states u).isSome = true → Tellable Small.client u := by
  intro u hu _
  cases pathA_uri.symm.trans hu
  obtain ⟨p, hp, hpu⟩ := Small.uriA_canonical
  exact ⟨p, _, hp, hpu⟩

/-- Of an open document and of one that is not. -/
theorem preview_agrees_iff_opened :
    SameEnd (Small.client.requestRename .inOrder pathA (some oneEdit))
      (Small.client.previewRename .inOrder pathA (some oneEdit)) (Small.opened "x".toList) ∧
    ¬ SameEnd (Small.client.requestRename .inOrder pathA (some oneEdit))
      (Small.client.previewRename .inOrder pathA (some oneEdit)) (Small.world [("a".toList, "x".toList)]) := by
  constructor
  · refine (preview_agrees_iff (fun _ _ => rfl) pathA_tellable).1 fun edit _ =>
      spares_of_held (fun u hu => ?_) edit
    cases pathA_uri.symm.trans hu.2.1
    exact absurd hu.2.2 (by decide)
  · have hrun : returned (Small.client.requestRename .inOrder pathA (some oneEdit)
        (Small.world [("a".toList, "x".toList)])) (fun b _ => b) = some true := by decide +kernel
    obtain ⟨b, w', hdirect, -⟩ := returned_some hrun
    intro hsame
    refine ((preview_agrees_iff (fun _ _ => rfl) pathA_tellable).2 oneEdit [] _ [] rfl rfl pathA_uri
      nofun nofun ⟨b, w', hdirect⟩).mp hsame ⟨rfl, pathA_uri, by decide⟩

/-- The message of what is raised. -/
def raisedMessage {α : Type} : EStateM.Result Exc World α → Option Text
  | .error (.editApplicationError message _) _ => some message
  | _ => none

/-- **A rename that succeeds directly and raises after a preview**, with the
version that the server was told. -/
theorem preview_raises :
    returned (Small.client.openFilesEnter .inOrder [pathA] (Small.world [("a".toList, "x".toList)]))
      (fun _ w => w.conn.sent) = some [.didOpen Small.uriA "python".toList 0 "x".toList] ∧
    returned (Small.client.requestRename .inOrder pathA (some oneEdit)
      (Small.world [("a".toList, "x".toList)])) (fun b _ => b) = some true ∧
    raisedMessage (Small.client.previewRename .inOrder pathA (some oneEdit)
      (Small.world [("a".toList, "x".toList)])) =
        some "Document file:///ws/a not open in client".toList ∧
    ¬ SameEnd (Small.client.requestRename .inOrder pathA (some oneEdit))
      (Small.client.previewRename .inOrder pathA (some oneEdit))
      (Small.world [("a".toList, "x".toList)]) := by
  have hdirect : returned (Small.client.requestRename .inOrder pathA (some oneEdit)
      (Small.world [("a".toList, "x".toList)])) (fun b _ => b) = some true := by decide +kernel
  have hpreview : raisedMessage (Small.client.previewRename .inOrder pathA (some oneEdit)
      (Small.world [("a".toList, "x".toList)])) =
        some "Document file:///ws/a not open in client".toList := by decide +kernel
  refine ⟨by decide +kernel, hdirect, hpreview, fun hsame => ?_⟩
  obtain ⟨b, w', hok, -⟩ := returned_some hdirect
  obtain ⟨a, w'', hreturns⟩ := hsame.1.mp ⟨b, w', hok⟩
  rw [hreturns] at hpreview
  cases hpreview

end Rename
end LspClient
