/-
# Applying workspace edits

`WorkspaceEditApplicator`: the changes of a `WorkspaceEdit` are applied one
after the other, each on the file system and the tracked documents as the one
before has left them. A text edit whose document has a version is checked
against the tracked version first; `editBegin` is what happens up to the
disk write.

Key definitions: `DocumentChange`, `WorkspaceEdit`, `applyTextDocumentEdit`,
`applyCreateFile`, `applyRenameFile`, `applyDeleteFile`, `applyWorkspaceEdit`,
`respondApplyEdit`.
-/
import LspClient.Client
import LspClient.TextEdit

namespace LspClient

/-- `lsp_type.TextDocumentEdit`; the URI and the version are those of its
`text_document`. -/
structure TextDocumentEdit where
  uri : Uri
  version : Option ℤ
  edits : List AnyTextEdit
  deriving DecidableEq, Repr

/-- `CreateFileOptions` and `RenameFileOptions`. -/
structure FileOptions where
  overwrite : Option Bool
  ignoreIfExists : Option Bool
  deriving DecidableEq, Repr

structure DeleteFileOptions where
  recursive : Option Bool
  ignoreIfNotExists : Option Bool
  deriving DecidableEq, Repr

structure CreateFile where
  uri : Uri
  options : Option FileOptions
  deriving DecidableEq, Repr

structure RenameFile where
  oldUri : Uri
  newUri : Uri
  options : Option FileOptions
  deriving DecidableEq, Repr

structure DeleteFile where
  uri : Uri
  options : Option DeleteFileOptions
  deriving DecidableEq, Repr

/-- An element of `document_changes`. -/
inductive DocumentChange where
  | textDocumentEdit (edit : TextDocumentEdit)
  | createFile (change : CreateFile)
  | renameFile (change : RenameFile)
  | deleteFile (change : DeleteFile)
  deriving DecidableEq, Repr

structure WorkspaceEdit where
  documentChanges : Option (List DocumentChange)
  changes : Option (AList fun _ : Uri => List AnyTextEdit)

/-- `options and options.flag`. -/
def flag {α : Type} (options : Option α) (get : α → Option Bool) : Bool :=
  (options.bind get).getD false

/-- `ApplyWorkspaceEditResult`. -/
structure ApplyWorkspaceEditResult where
  applied : Bool
  failureReason : Option Text
  deriving DecidableEq, Repr

namespace Exc

/-- `except (OSError, ValueError)` catches it; a timeout is an `OSError`. -/
def isOsOrValueError : Exc → Bool
  | .osError _ | .valueError _ | .unicodeEncodeError | .unicodeDecodeError => true
  | .uriError (.valueError _) | .sendError .timeout => true
  | _ => false

end Exc

namespace Client

variable (c : Client)

/-! ### Text edits -/

/-- The check of the expected version. -/
def checkVersion (uri : Uri) : Option ℤ → Op Unit
  | none => pure ()
  | some expectedVersion => do
    match ← doc fun m => (m.getVersion uri, m) with
    | none => throw (.editApplicationError
        ("Document ".toList ++ uri ++ " not open in client".toList) (some uri))
    | some actualVersion =>
      if actualVersion ≠ expectedVersion then
        throw (.versionMismatchError
          ("Version mismatch for ".toList ++ uri ++ ": expected ".toList ++
            (toString expectedVersion).toList ++ ", got ".toList ++ (toString actualVersion).toList)
          (some uri) (some expectedVersion) (some actualVersion))
      else return ()

/-- The content a text edit starts from, with its edits applied. -/
def editedContent (uri : Uri) (edits : List AnyTextEdit) : Op Text := do
  let filePath ← convert (c.fromUri uri)
  let content ← c.readFile filePath
  return applyTextEdits content edits

/-- `_apply_text_document_edit`. -/
def applyTextDocumentEdit (edit : TextDocumentEdit) : Op Unit := do
  checkVersion edit.uri edit.version
  let newContent ← c.editedContent edit.uri edit.edits
  c.writeFile edit.uri newContent

/-- A text edit that is about to write: the content it has read, the edited
content, and where it will write this in which encoding. -/
structure Prepared where
  content : Text
  newContent : Text
  path : Path
  encoding : Encoding

/-- `_apply_text_document_edit` from the content it has read to the disk write. -/
def editPrepare (edit : TextDocumentEdit) (content : Text) : Op Prepared := do
  let newContent := applyTextEdits content edit.edits
  let (path, encoding) ← c.writeBegin edit.uri
  return ⟨content, newContent, path, encoding⟩

/-- `_apply_text_document_edit` up to its first suspension, which is the disk
write if the document is tracked, and a read of the file if not. -/
def editBegin (edit : TextDocumentEdit) : Op (Prepared ⊕ Path) := do
  checkVersion edit.uri edit.version
  let filePath ← convert (c.fromUri edit.uri)
  match ← c.readBegin filePath with
  | .inl content => return .inl (← c.editPrepare edit content)
  | .inr path => return .inr path

/-- `_apply_text_document_edit` from the read of the file to the disk write. -/
def editRead (edit : TextDocumentEdit) (path : Path) : Op Prepared := do
  let content ← c.readText path utf8
  c.editPrepare edit content

/-- `_apply_text_document_edit` is its parts, one after the other. -/
theorem applyTextDocumentEdit_eq (edit : TextDocumentEdit) : c.applyTextDocumentEdit edit =
    c.editBegin edit >>= fun r =>
      (match r with
        | .inl p => pure p
        | .inr path => c.editRead edit path) >>= fun p =>
      c.writeText p.path p.newContent p.encoding >>= fun _ =>
      c.writeFinish edit.uri p.newContent := by
  simp only [applyTextDocumentEdit, editBegin, editedContent, readFile, editRead, writeFile, bind_assoc]
  congr 1
  funext _
  congr 1
  funext filePath
  congr 1
  funext r
  cases r with
  | inl content => simp only [editPrepare, bind_assoc, pure_bind]
  | inr path => simp only [editPrepare, bind_assoc, pure_bind]

/-- `_apply_changes`. -/
def applyChanges : List (Σ _ : Uri, List AnyTextEdit) → Op Unit
  | [] => pure ()
  | ⟨uri, edits⟩ :: rest => do
    let newContent ← c.editedContent uri edits
    c.writeFile uri newContent
    applyChanges rest

/-! ### Resource operations -/

/-- `Path.exists`. -/
def pathExists (p : Path) : Op Bool := os (FileTree.pathExists (c.route p))

/-- `if parent and not await parent.exists(): await parent.mkdir(parents=True, exist_ok=True)`. -/
def createParents (p : Path) : Op Unit := do
  if ← c.pathExists p.parent then return ()
  else os (FileTree.mkdirs (c.route p.parent).length (c.route p.parent))

/-- `_apply_create_file`. -/
def applyCreateFile (change : CreateFile) : Op Unit := do
  let path ← convert (c.fromLocalUri change.uri)
  if ← c.pathExists path then
    if flag change.options (·.overwrite) then
      c.createParents path
      c.writeFile change.uri []
    else if flag change.options (·.ignoreIfExists) then return ()
    else throw (.editApplicationError
      ("File ".toList ++ change.uri ++ " already exists and overwrite is not allowed".toList)
      (some change.uri))
  else
    c.createParents path
    c.writeFile change.uri []

/-- What `_apply_rename_file` does with the tracked document. -/
def moveTracked (oldUri newUri : Uri) (m : DocumentStateManager) : Unit × DocumentStateManager :=
  match m.getContent oldUri with
  | some content =>
    let version := (m.getVersion oldUri).getD 0
    ((), (((m.unregister oldUri).2).register newUri content version utf8).2)
  | none => ((), m)

/-- `_apply_rename_file` from the check of the target on. -/
def renameOnto (change : RenameFile) (oldPath newPath : Path) : Op Unit := do
  c.createParents newPath
  os (FileTree.rename (c.route oldPath) (c.route newPath))
  doc (moveTracked change.oldUri change.newUri)

/-- `_apply_rename_file`. -/
def applyRenameFile (change : RenameFile) : Op Unit := do
  let oldPath ← convert (c.fromLocalUri change.oldUri)
  let newPath ← convert (c.fromLocalUri change.newUri)
  if ← c.pathExists oldPath then
    if ← c.pathExists newPath then
      if flag change.options (·.overwrite) then
        os (FileTree.unlink (c.route newPath))
        c.renameOnto change oldPath newPath
      else if flag change.options (·.ignoreIfExists) then return ()
      else throw (.editApplicationError
        ("Target file ".toList ++ change.newUri ++ " already exists and overwrite is not allowed".toList)
        (some change.newUri))
    else c.renameOnto change oldPath newPath
  else throw (.editApplicationError
    ("Source file ".toList ++ change.oldUri ++ " does not exist".toList) (some change.oldUri))

/-- The removal in `_apply_delete_file`: of a directory or of a file. -/
def removePath (change : DeleteFile) (path : Path) : Op Unit := do
  if ← os (FileTree.isDir (c.route path)) then
    if flag change.options (·.recursive) then os (FileTree.rmtree (c.route path))
    else
      tryCatch (os (FileTree.rmdir (c.route path))) fun _ =>
        throw (.editApplicationError
          ("Directory ".toList ++ change.uri ++ " is not empty and recursive is not set".toList)
          (some change.uri))
  else os (FileTree.unlink (c.route path))

/-- `_apply_delete_file`. -/
def applyDeleteFile (change : DeleteFile) : Op Unit := do
  let path ← convert (c.fromLocalUri change.uri)
  if ← c.pathExists path then
    c.removePath change path
    doc fun m => ((), (m.unregister change.uri).2)
  else if flag change.options (·.ignoreIfNotExists) then return ()
  else throw (.editApplicationError
    ("File ".toList ++ change.uri ++ " does not exist".toList) (some change.uri))

/-! ### The edit -/

def applyChange : DocumentChange → Op Unit
  | .textDocumentEdit edit => c.applyTextDocumentEdit edit
  | .createFile change => c.applyCreateFile change
  | .renameFile change => c.applyRenameFile change
  | .deleteFile change => c.applyDeleteFile change

/-- `_apply_document_changes`. -/
def applyDocumentChanges : List DocumentChange → Op Unit
  | [] => pure ()
  | change :: rest => do
    c.applyChange change
    applyDocumentChanges rest

/-- `apply_workspace_edit`. -/
def applyWorkspaceEdit (edit : WorkspaceEdit) : Op Unit :=
  match edit.documentChanges, edit.changes with
  | some (change :: rest), _ => c.applyDocumentChanges (change :: rest)
  | _, some changes => c.applyChanges changes.entries
  | _, none => pure ()

/-- `_respond_apply_edit`; `describe` is `str(e)`. -/
def respondApplyEdit (describe : Exc → Text) (edit : WorkspaceEdit) : Op ApplyWorkspaceEditResult :=
  tryCatch (do c.applyWorkspaceEdit edit; return ⟨true, none⟩) fun e =>
    match e with
    | .editApplicationError message _ => return ⟨false, some message⟩
    | .versionMismatchError message _ _ _ => return ⟨false, some message⟩
    | e => if e.isOsOrValueError then return ⟨false, some (describe e)⟩ else throw e

end Client

/-! ### Moving a tracked document -/

namespace Client

variable {m : DocumentStateManager} {oldUri newUri : Uri}

theorem moveTracked_untracked (h : m.states oldUri = none) : (moveTracked oldUri newUri m).2 = m := by
  simp [moveTracked, DocumentStateManager.getContent, h]

/-- A tracked document gets its new URI, unless another one is tracked there. -/
theorem moveTracked_tracked {d : DocumentState} (h : m.states oldUri = some d) :
    (moveTracked oldUri newUri m).2 =
      if newUri ≠ oldUri ∧ (m.states newUri).isSome then
        ⟨Function.update m.states oldUri none, m.refCounts.del oldUri⟩
      else
        ⟨Function.update (Function.update m.states oldUri none) newUri
            (some ⟨d.content, d.version, utf8⟩),
          (m.refCounts.del oldUri).set newUri 1⟩ := by
  -- `register` finds the document without its old state
  have hfound : (Function.update m.states oldUri none newUri).isSome =
      decide (newUri ≠ oldUri ∧ (m.states newUri).isSome) := by
    by_cases hu : newUri = oldUri
    · simp [hu]
    · simp [hu]
  simp only [moveTracked, DocumentStateManager.getContent, DocumentStateManager.getVersion,
    DocumentStateManager.unregister, DocumentStateManager.register, h, Option.map_some,
    Option.getD_some, hfound, decide_eq_true_eq]
  split_ifs <;> rfl

end Client

/-! ### What only reads -/

section Reads

open Actions

namespace Client

variable {c : Client}

theorem reads_checkVersion (uri : Uri) (version : Option ℤ) : Reads (checkVersion uri version) := by
  cases version with
  | none => exact reads_pure
  | some expected =>
    refine (reads_doc fun _ => rfl).bindReads fun actual => ?_
    split
    · exact reads_throw
    · split_ifs
      · exact reads_throw
      · exact reads_pure

theorem reads_editedContent (uri : Uri) (edits : List AnyTextEdit) :
    Reads (c.editedContent uri edits) :=
  (reads_convert _).bindReads fun _ => (c.reads_readFile _ _).bindReads fun _ => reads_pure

theorem reads_editPrepare (edit : TextDocumentEdit) (content : Text) :
    Reads (c.editPrepare edit content) :=
  (c.reads_writeBegin _).bindReads fun _ => reads_pure

theorem reads_editBegin (edit : TextDocumentEdit) : Reads (c.editBegin edit) := by
  refine (reads_checkVersion _ _).bindReads fun _ => ?_
  refine (reads_convert _).bindReads fun filePath => ?_
  refine (c.reads_readBegin _).bindReads fun r => ?_
  split
  · exact (reads_editPrepare _ _).bindReads fun _ => reads_pure
  · exact reads_pure

theorem reads_editRead (edit : TextDocumentEdit) (path : Path) : Reads (c.editRead edit path) :=
  (c.reads_readText _ _).bindReads fun _ => reads_editPrepare _ _

theorem checkVersion_ok {uri : Uri} {version : Option ℤ} {w w' : World}
    (h : checkVersion uri version w = .ok () w') :
    ∀ n, version = some n → w.doc.getVersion uri = some n := by
  rintro n rfl
  obtain ⟨actual, w₁, hget, hrest⟩ := bind_ok_elim h
  obtain ⟨hactual, rfl⟩ := doc_ok hget
  cases actual with
  | none => cases hrest
  | some m =>
    simp only at hrest
    split_ifs at hrest with hne
    · cases hrest
    · rw [not_not.mp hne] at hactual
      exact hactual.symm

/-- The check fails just if the expected version is not the tracked one. -/
theorem checkVersion_raises_iff {uri : Uri} {version : Option ℤ} {w : World} :
    (∃ e w', checkVersion uri version w = .error e w') ↔
      ∃ n, version = some n ∧ w.doc.getVersion uri ≠ some n := by
  constructor
  · rintro ⟨e, w', h⟩
    cases version with
    | none => cases h
    | some n =>
      refine ⟨n, rfl, fun hn => ?_⟩
      have hgiven : (doc fun m => (m.getVersion uri, m)) w = .ok (some n) w := by rw [doc, hn]
      rw [checkVersion, bind_eq_ok hgiven] at h
      simp only [ne_eq, not_true_eq_false, ↓reduceIte] at h
      cases h
  · rintro ⟨n, rfl, hne⟩
    cases h : checkVersion uri (some n) w with
    | error e w' => exact ⟨e, w', rfl⟩
    | ok a w' => exact absurd (checkVersion_ok h n rfl) hne

/-- A text edit that has begun: its version was the tracked one. -/
theorem editBegin_version {edit : TextDocumentEdit} {r : Prepared ⊕ Path} {w w' : World}
    (h : c.editBegin edit w = .ok r w') :
    ∀ n, edit.version = some n → w.doc.getVersion edit.uri = some n := by
  obtain ⟨_, w₁, hcheck, -⟩ := bind_ok_elim h
  exact checkVersion_ok hcheck

/-- A text edit of a document that is tracked under the URI of its path reads it from memory. -/
theorem editBegin_content {edit : TextDocumentEdit} {r : Prepared ⊕ Path} {w w' : World}
    (hu : c.Canonical edit.uri) (h : c.editBegin edit w = .ok r w') : match r with
      | .inl p => w.doc.getContent edit.uri = some p.content
      | .inr _ => w.doc.getContent edit.uri = none := by
  obtain ⟨_, -, hpath⟩ := (reads_checkVersion _ _).bind_ok h
  obtain ⟨p, hp, hbegin⟩ := convert_bind_ok hpath
  obtain ⟨q, hq, hv⟩ := hu
  cases hq.symm.trans ((fromUri_eq edit.uri).symm.trans hp)
  obtain ⟨found, w₃, hread, hend⟩ := bind_ok_elim hbegin
  obtain ⟨v, hv', hfound⟩ := readBegin_ok hread
  cases hv.symm.trans hv'
  cases found with
  | inl content =>
    obtain ⟨prepared, w₄, hprepare, hreturn⟩ := bind_ok_elim hend
    obtain ⟨_, w₅, -, hprepared⟩ := bind_ok_elim hprepare
    cases hprepared
    cases hreturn
    exact hfound
  | inr path =>
    cases hend
    exact hfound

/-- A document is read from memory where its URI leads back to itself. -/
theorem editedContent_ok {u : Uri} {edits : List AnyTextEdit} {newContent : Text} {d : DocumentState}
    {w w' : World} (hu : c.Canonical u) (hd : w.doc.states u = some d)
    (h : c.editedContent u edits w = .ok newContent w') : newContent = applyTextEdits d.content edits := by
  obtain ⟨p, hp, hv⟩ := hu
  obtain ⟨filePath, hpath, hread⟩ := convert_bind_ok h
  rw [fromUri_eq] at hpath
  cases hp.symm.trans hpath
  rw [bind_eq_ok (readFile_tracked hv hd _)] at hread
  cases hread
  rfl

/-- A text edit that is applied writes the edited content. -/
theorem applyTextDocumentEdit_ok {edit : TextDocumentEdit} {w w' : World}
    (h : c.applyTextDocumentEdit edit w = .ok () w') :
    ∃ newContent, c.editedContent edit.uri edit.edits w = .ok newContent w ∧
      c.writeFile edit.uri newContent w = .ok () w' := by
  obtain ⟨_, -, hrest⟩ := (reads_checkVersion _ _).bind_ok h
  exact (reads_editedContent _ _).bind_ok hrest

end Client

end Reads

end LspClient
