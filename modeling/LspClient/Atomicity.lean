/-
# Workspace edits that fail

`apply_workspace_edit` applies one change after the other, and when a change
is refused it raises and leaves what the changes before it have done. What an
edit does is written down here as the steps it takes (`editEffect`), decided
from the world before each change, and the applicator takes exactly these
steps (`applyWorkspaceEdit_run`).

Which edits are refused before they have taken a step can be told from the edit
and the world before it: the changes are skipped, as their options ask for
(`Skipped`), up to one that does not get past its checks and its first system
call (`Refused`); `stops_iff` says that these are all of them. Such an edit
leaves everything as it was, and one that is refused after a text edit of an
open document never does (`atomic_when`). Nothing in the code undoes what was
done (`create_stays`); what else puts it back is said by `atomic_iff`.

Key definitions: `Place`, `Write`, `changeEffect`, `editEffect`, `Atomic`, `Skipped`, `Refused`,
`RefusedFirst`, `PutsBack`.
Key theorems: `applyWorkspaceEdit_run`, `stops_iff`, `landed_stays`, `atomic_when`, `create_stays`.
-/
import LspClient.Lib.FilePlaces
import LspClient.Lib.Journal
import LspClient.Contents

namespace LspClient
namespace Atomicity

open ByteStream Actions Actions.Effect Client

/-! ### Places -/

/-- What an edit may leave changed: an entry of the file tree, the state of a
document, or how often it is open. -/
inductive Place where
  | entry (l : FileTree.Location Name)
  | state (u : Uri)
  | count (u : Uri)
  deriving DecidableEq, Repr

/-- What a place holds. -/
abbrev Place.Value : Place → Type
  | .entry _ => Option (FileTree.Node Bytes)
  | .state _ => Option DocumentState
  | .count _ => Option ℤ

/-- What every place holds. -/
def visible (w : World) : ∀ p : Place, p.Value
  | .entry l => w.fs.tree.lookup l
  | .state u => w.doc.states u
  | .count u => w.doc.refCounts u

/-- A step of an edit: something is put at a place, or the server is told. -/
inductive Write where
  | put (place : Place) (value : place.Value)
  | send (msg : Notification)

/-- The world after a step. -/
def put (w : World) : Write → World
  | .put (.entry l) n => { w with fs := w.fs.apply [(l, n)] }
  | .put (.state u) d => { w with doc := { w.doc with states := Function.update w.doc.states u d } }
  | .put (.count u) n =>
    { w with doc := { w.doc with refCounts := Function.update w.doc.refCounts u n } }
  | .send msg => w.sendAll [msg]

/-- The writes to places among the steps. -/
def journal (steps : List Write) : List (Σ p : Place, p.Value) :=
  steps.filterMap fun
    | .put p x => some ⟨p, x⟩
    | .send _ => none

abbrev WorldEffect := Effect Write Exc Unit

/-! ### What the operations do -/

/-- Nothing. -/
def nothing : WorldEffect := answer (.ok ())

def refuse (e : Exc) : WorldEffect := answer (.error e)

/-- The entries that a system call sets. -/
def entries (changes : List (FileTree.Change Name Bytes)) : List Write :=
  changes.map fun ch => .put (.entry ch.1) ch.2

/-- A system call, with what is raised if it fails. -/
def osEffect {α : Type} (call : FileSystem → FileTree.Outcome Name Bytes α)
    (raised : FileTree.OsError → Exc) (w : World) : Effect Write Exc α :=
  ⟨entries (call w.fs).changes, (call w.fs).result.mapError raised⟩

/-- A conversion between URIs and paths. -/
def converted {α : Type} (x : Except UriError α) : Except Exc α := x.mapError .uriError

variable (c : Client)

/-- The URI under which the server is told of the document. -/
def toldUri (uri : Uri) : Except UriError Uri := do c.asUri (← c.fromUri uri)

/-- The new text of a tracked document: the state has it whether or not the server is told. -/
def syncEffect (uri : Uri) (content : Text) (w : World) : WorldEffect :=
  match w.doc.states uri with
  | none => nothing
  | some d =>
    let updated := Write.put (.state uri) (some ⟨content, d.version + 1, d.encoding⟩)
    match toldUri c uri with
    | .error e => ⟨[updated], .error (.uriError e)⟩
    | .ok v =>
      let msg := Notification.didChange v (d.version + 1) content
      match w.conn.fails w.conn.sent msg with
      | some e => ⟨[updated], .error (.sendError e)⟩
      | none => ⟨[updated, .send msg], .ok ()⟩

/-- The new text of a file: the file is empty before the text is encoded. -/
def diskEffect (path : Path) (content : Text) (encoding : Encoding) (w : World) : WorldEffect :=
  (osEffect (FileTree.openWrite (c.route path) · []) .osError w).andThen put w fun l =>
    match c.codecs.encode encoding content with
    | some bytes => osEffect (FileTree.write · l bytes) .osError
    | none => fun _ => refuse .unicodeEncodeError

/-- The new text of a document. -/
def writeEffect (uri : Uri) (content : Text) (w : World) : WorldEffect :=
  given (converted (c.fromLocalUri uri)) fun path =>
    (diskEffect c path content (w.doc.getEncoding uri) w).andThen put w fun _ => syncEffect c uri content

/-- A text edit, of a document that has this version and can be read. -/
def textEffect (uri : Uri) (version : Option ℤ) (edits : List AnyTextEdit) (w : World) : WorldEffect :=
  given (asked (checkVersion uri version) w) fun _ =>
    given (asked (c.editedContent uri edits) w) fun newContent => writeEffect c uri newContent w

/-- The directory of a path, if it is not there. -/
def parentsEffect (path : Path) (w : World) : WorldEffect :=
  given (asked (c.pathExists path.parent) w) fun there =>
    if there then nothing
    else osEffect (FileTree.mkdirs (c.route path.parent).length (c.route path.parent)) .osError w

/-- A new, empty file. -/
def createEffect (change : CreateFile) (w : World) : WorldEffect :=
  given (converted (c.fromLocalUri change.uri)) fun path =>
    given (asked (c.pathExists path) w) fun there =>
      if there && !flag change.options (·.overwrite) then
        if flag change.options (·.ignoreIfExists) then nothing
        else refuse (.editApplicationError
          ("File ".toList ++ change.uri ++ " already exists and overwrite is not allowed".toList)
          (some change.uri))
      else (parentsEffect c path w).andThen put w fun _ => writeEffect c change.uri []

/-- The tracked document under its new URI, unless that one is tracked. -/
def trackEffect (oldUri newUri : Uri) (w : World) : WorldEffect :=
  match w.doc.states oldUri with
  | none => nothing
  | some d =>
    ⟨[.put (.state oldUri) none, .put (.count oldUri) none] ++
      if newUri ≠ oldUri ∧ (w.doc.states newUri).isSome then []
      else [.put (.state newUri) (some ⟨d.content, d.version, utf8⟩), .put (.count newUri) (some 1)],
      .ok ()⟩

/-- A file or directory at its new path, which is free. -/
def moveEffect (change : RenameFile) (oldPath newPath : Path) (w : World) : WorldEffect :=
  (parentsEffect c newPath w).andThen put w fun _ w =>
    (osEffect (FileTree.rename (c.route oldPath) (c.route newPath)) .osError w).andThen put w fun _ =>
      trackEffect change.oldUri change.newUri

/-- A file or directory that gets another path. -/
def renameEffect (change : RenameFile) (w : World) : WorldEffect :=
  given (converted (c.fromLocalUri change.oldUri)) fun oldPath =>
    given (converted (c.fromLocalUri change.newUri)) fun newPath =>
      given (asked (c.pathExists oldPath) w) fun there =>
        if !there then refuse (.editApplicationError
          ("Source file ".toList ++ change.oldUri ++ " does not exist".toList) (some change.oldUri))
        else given (asked (c.pathExists newPath) w) fun taken =>
          if !taken then moveEffect c change oldPath newPath w
          else if flag change.options (·.overwrite) then
            (osEffect (FileTree.unlink (c.route newPath)) .osError w).andThen put w fun _ =>
              moveEffect c change oldPath newPath
          else if flag change.options (·.ignoreIfExists) then nothing
          else refuse (.editApplicationError
            ("Target file ".toList ++ change.newUri ++
              " already exists and overwrite is not allowed".toList)
            (some change.newUri))

/-- A document that is no longer tracked. -/
def untrackEffect (uri : Uri) (w : World) : WorldEffect :=
  if (w.doc.states uri).isSome then ⟨[.put (.state uri) none, .put (.count uri) none], .ok ()⟩
  else nothing

/-- A directory or a file taken away. -/
def removeEffect (change : DeleteFile) (path : Path) (w : World) : WorldEffect :=
  given (asked (os (FileTree.isDir (c.route path))) w) fun isDirectory =>
    if !isDirectory then osEffect (FileTree.unlink (c.route path)) .osError w
    else if flag change.options (·.recursive) then osEffect (FileTree.rmtree (c.route path)) .osError w
    else osEffect (FileTree.rmdir (c.route path)) (fun _ => .editApplicationError
      ("Directory ".toList ++ change.uri ++ " is not empty and recursive is not set".toList)
      (some change.uri)) w

/-- A file or directory that is no longer there. -/
def deleteEffect (change : DeleteFile) (w : World) : WorldEffect :=
  given (converted (c.fromLocalUri change.uri)) fun path =>
    given (asked (c.pathExists path) w) fun there =>
      if there then (removeEffect c change path w).andThen put w fun _ => untrackEffect change.uri
      else if flag change.options (·.ignoreIfNotExists) then nothing
      else refuse (.editApplicationError
        ("File ".toList ++ change.uri ++ " does not exist".toList) (some change.uri))

/-- What a change does in the world it finds. -/
def changeEffect : DocumentChange → World → WorldEffect
  | .textDocumentEdit edit => textEffect c edit.uri edit.version edit.edits
  | .createFile change => createEffect c change
  | .renameFile change => renameEffect c change
  | .deleteFile change => deleteEffect c change

/-- What changes do, one after the other, up to the first one that is refused. -/
def allEffect : List DocumentChange → World → WorldEffect
  | [], _ => nothing
  | change :: rest, w => (changeEffect c change w).andThen put w fun _ => allEffect rest

/-- What an edit does. -/
def editEffect (edit : WorkspaceEdit) : World → WorldEffect := allEffect c (changesOf edit)

/-! ### The applicator takes these steps -/

section Steps

variable {α : Type}

theorem after_entries (w : World) (changes : List (FileTree.Change Name Bytes)) :
    (entries changes).foldl put w = { w with fs := w.fs.apply changes } := by
  induction changes generalizing w with
  | nil => rfl
  | cons ch changes ih => exact ih _

theorem os_run (call : FileSystem → FileTree.Outcome Name Bytes α) (w : World) :
    os call w = (osEffect call .osError w).run put w := by
  unfold os run osEffect
  simp only [after, after_entries]
  cases (call w.fs).result <;> rfl

/-- A system call whose failure is raised as something else. -/
theorem os_catch_run (call : FileSystem → FileTree.Outcome Name Bytes α)
    (raised : FileTree.OsError → Exc) (e : Exc) (hraised : ∀ o, raised o = e) (w : World) :
    (tryCatch (os call) fun _ => throw e) w = (osEffect call raised w).run put w := by
  show EStateM.tryCatch (os call) (fun _ => throw e) w = _
  unfold EStateM.tryCatch os run osEffect
  simp only [after, after_entries]
  cases (call w.fs).result with
  | ok a => rfl
  | error o =>
    simp only [Except.mapError, hraised]
    rfl

theorem convert_run {β : Type} {x : Except UriError α} {f : α → Op β} {k : α → Effect Write Exc β}
    {w : World} (hf : ∀ a, f a w = (k a).run put w) :
    (convert x >>= f) w = (given (converted x) k).run put w := by
  cases x with
  | ok a => exact hf a
  | error e => rfl

variable {c : Client}

theorem writeFinish_run (uri : Uri) (content : Text) (w : World) :
    c.writeFinish uri content w = (syncEffect c uri content w).run put w := by
  unfold syncEffect
  cases hs : w.doc.states uri with
  | none =>
    have hupdate : doc (fun m => m.updateContent uri content) w = .ok none w := by
      simp only [doc, DocumentStateManager.updateContent, hs]
    exact bind_eq_ok hupdate
  | some d =>
    set w₁ := put w (.put (.state uri) (some ⟨content, d.version + 1, d.encoding⟩)) with hw₁
    have hupdate : doc (fun m => m.updateContent uri content) w = .ok (some (d.version + 1)) w₁ := by
      simp only [doc, DocumentStateManager.updateContent, hs]
      rfl
    refine (bind_eq_ok hupdate).trans ?_
    simp only [toldUri, notifyTextDocumentChanged]
    cases c.fromUri uri with
    | error e => rfl
    | ok path =>
      show (convert (c.asUri path) >>= fun v => notify (.didChange v (d.version + 1) content)) w₁ =
        run put w (match c.asUri path with
          | .error e => _
          | .ok v => _)
      cases c.asUri path with
      | error e => rfl
      | ok v =>
        have hfails : w₁.conn = w.conn := rfl
        show notify (.didChange v (d.version + 1) content) w₁ = _
        unfold notify
        rw [hfails]
        simp only
        cases w.conn.fails w.conn.sent (.didChange v (d.version + 1) content) <;> rfl

theorem writeText_run (path : Path) (content : Text) (encoding : Encoding) (w : World) :
    c.writeText path content encoding w = (diskEffect c path content encoding w).run put w := by
  refine bind_run (os_run _ w) fun l _ => ?_
  cases c.codecs.encode encoding content with
  | some bytes => exact os_run _ _
  | none => rfl

theorem writeFile_run (uri : Uri) (content : Text) (w : World) :
    c.writeFile uri content w = (writeEffect c uri content w).run put w := by
  have hparts : c.writeFile uri content = convert (c.fromLocalUri uri) >>= fun path =>
      doc (fun m => (m.getEncoding uri, m)) >>= fun encoding =>
      c.writeText path content encoding >>= fun _ => c.writeFinish uri content := by
    simp only [writeFile, writeBegin, bind_assoc, pure_bind]
  rw [hparts]
  refine convert_run fun path => ?_
  show (c.writeText path content (w.doc.getEncoding uri) >>= fun _ => c.writeFinish uri content) w = _
  exact bind_run (writeText_run path content _ w) fun _ _ => writeFinish_run uri content _

theorem applyTextDocumentEdit_run (edit : TextDocumentEdit) (w : World) :
    c.applyTextDocumentEdit edit w = (textEffect c edit.uri edit.version edit.edits w).run put w :=
  given_run (reads_checkVersion _ _) fun _ _ =>
    given_run (reads_editedContent _ _) fun newContent _ => writeFile_run edit.uri newContent w

theorem createParents_run (path : Path) (w : World) :
    c.createParents path w = (parentsEffect c path w).run put w := by
  refine given_run (reads_os (FileTree.pathExists_changes _)) fun there _ => ?_
  cases there with
  | true => rfl
  | false => exact os_run _ w

theorem applyCreateFile_run (change : CreateFile) (w : World) :
    c.applyCreateFile change w = (createEffect c change w).run put w := by
  refine convert_run fun path => given_run (reads_os (FileTree.pathExists_changes _)) fun there _ => ?_
  have hcreate : (c.createParents path >>= fun _ => c.writeFile change.uri []) w =
      ((parentsEffect c path w).andThen put w fun _ => writeEffect c change.uri []).run put w :=
    bind_run (createParents_run path w) fun _ _ => writeFile_run change.uri [] _
  cases there with
  | false => exact hcreate
  | true =>
    cases flag change.options (·.overwrite) with
    | true => exact hcreate
    | false => cases flag change.options (·.ignoreIfExists) <;> rfl

theorem moveTracked_run (oldUri newUri : Uri) (w : World) :
    doc (moveTracked oldUri newUri) w = (trackEffect oldUri newUri w).run put w := by
  have hdoc : doc (moveTracked oldUri newUri) w =
      .ok () { w with doc := (moveTracked oldUri newUri w.doc).2 } := rfl
  rw [hdoc]
  unfold trackEffect
  cases hs : w.doc.states oldUri with
  | none =>
    rw [moveTracked_untracked hs]
    rfl
  | some d =>
    rw [moveTracked_tracked hs]
    by_cases h : newUri ≠ oldUri ∧ (w.doc.states newUri).isSome = true
    · simp only [if_pos h]
      rfl
    · simp only [if_neg h]
      rfl

theorem renameOnto_run (change : RenameFile) (oldPath newPath : Path) (w : World) :
    c.renameOnto change oldPath newPath w = (moveEffect c change oldPath newPath w).run put w :=
  bind_run (createParents_run newPath w) fun _ _ =>
    bind_run (os_run _ _) fun _ _ => moveTracked_run change.oldUri change.newUri _

theorem applyRenameFile_run (change : RenameFile) (w : World) :
    c.applyRenameFile change w = (renameEffect c change w).run put w := by
  refine convert_run fun oldPath => convert_run fun newPath =>
    given_run (reads_os (FileTree.pathExists_changes _)) fun there _ => ?_
  cases there with
  | false => rfl
  | true =>
    refine given_run (reads_os (FileTree.pathExists_changes _)) fun taken _ => ?_
    cases taken with
    | false => exact renameOnto_run change oldPath newPath w
    | true =>
      cases flag change.options (·.overwrite) with
      | true =>
        exact bind_run (os_run _ w) fun _ _ => renameOnto_run change oldPath newPath _
      | false => cases flag change.options (·.ignoreIfExists) <;> rfl

theorem removePath_run (change : DeleteFile) (path : Path) (w : World) :
    c.removePath change path w = (removeEffect c change path w).run put w := by
  refine given_run (reads_os (FileTree.isDir_changes _)) fun isDirectory _ => ?_
  cases isDirectory with
  | false => exact os_run _ w
  | true =>
    cases flag change.options (·.recursive) with
    | true => exact os_run _ w
    | false => exact os_catch_run _ _ _ (fun _ => rfl) w

theorem unregister_run (uri : Uri) (w : World) :
    doc (fun m => ((), (m.unregister uri).2)) w = (untrackEffect uri w).run put w := by
  unfold untrackEffect doc DocumentStateManager.unregister
  cases hs : w.doc.states uri with
  | none =>
    simp only [hs]
    rfl
  | some d =>
    simp only [hs]
    rfl

theorem applyDeleteFile_run (change : DeleteFile) (w : World) :
    c.applyDeleteFile change w = (deleteEffect c change w).run put w := by
  refine convert_run fun path => given_run (reads_os (FileTree.pathExists_changes _)) fun there _ => ?_
  cases there with
  | true => exact bind_run (removePath_run change path w) fun _ _ => unregister_run change.uri _
  | false => cases flag change.options (·.ignoreIfNotExists) <;> rfl

theorem applyChange_run (change : DocumentChange) (w : World) :
    c.applyChange change w = (changeEffect c change w).run put w := by
  cases change with
  | textDocumentEdit edit => exact applyTextDocumentEdit_run edit w
  | createFile change => exact applyCreateFile_run change w
  | renameFile change => exact applyRenameFile_run change w
  | deleteFile change => exact applyDeleteFile_run change w

theorem applyDocumentChanges_run : ∀ (changes : List DocumentChange) (w : World),
    c.applyDocumentChanges changes w = (allEffect c changes w).run put w
  | [], _ => rfl
  | change :: rest, w =>
    bind_run (applyChange_run change w) fun _ _ => applyDocumentChanges_run rest _

/-- **The applicator takes the steps of the edit, and ends as they do.** -/
theorem applyWorkspaceEdit_run (edit : WorkspaceEdit) (w : World) :
    c.applyWorkspaceEdit edit w = (editEffect c edit w).run put w := by
  rw [Rename.applyWorkspaceEdit_eq]
  exact applyDocumentChanges_run (changesOf edit) w

end Steps

/-! ### Changes that are skipped, and changes that are refused -/

section Refusing

variable (c : Client)

/-- The call raises, and has set nothing. -/
def Fails {α : Type} (o : FileTree.Outcome Name Bytes α) : Prop := ∃ e, o = .fail e

/-- `path.exists()`. -/
def existence (path : Path) (w : World) : Except FileTree.OsError Bool :=
  (FileTree.pathExists (c.route path) w.fs).result

/-- The URI leads to a path of which this holds. -/
def Leads (uri : Uri) (P : Path → Prop) : Prop := ∃ path, c.fromLocalUri uri = .ok path ∧ P path

/-- The URI leads to no path. -/
def LeadsNowhere (uri : Uri) : Prop := ∃ e, c.fromLocalUri uri = .error e

/-- The directory of a path cannot be found out about or made. -/
def NoParent (path : Path) (w : World) : Prop :=
  (∃ e, existence c path.parent w = .error e) ∨ existence c path.parent w = .ok false ∧
    Fails (FileTree.mkdirs (c.route path.parent).length (c.route path.parent) w.fs)

/-- The system call that takes away what is at the path fails. -/
def NotRemoved (recursive : Bool) (path : Path) (w : World) : Prop :=
  match (FileTree.isDir (c.route path) w.fs).result with
  | .error _ => True
  | .ok false => Fails (FileTree.unlink (c.route path) w.fs)
  | .ok true =>
    if recursive then Fails (FileTree.rmtree (c.route path) w.fs)
    else Fails (FileTree.rmdir (c.route path) w.fs)

/-- The change is skipped, as its options ask for. -/
def Skipped : DocumentChange → World → Prop
  | .textDocumentEdit _, _ => False
  | .createFile change, w => Leads c change.uri fun path => existence c path w = .ok true ∧
      flag change.options (·.overwrite) = false ∧ flag change.options (·.ignoreIfExists) = true
  | .renameFile change, w => Leads c change.oldUri fun oldPath => Leads c change.newUri fun newPath =>
      existence c oldPath w = .ok true ∧ existence c newPath w = .ok true ∧
        flag change.options (·.overwrite) = false ∧ flag change.options (·.ignoreIfExists) = true
  | .deleteFile change, w => Leads c change.uri fun path => existence c path w = .ok false ∧
      flag change.options (·.ignoreIfNotExists) = true

/-- The text edit names another version than the tracked one, or its document
cannot be read, or the file cannot be opened for writing. -/
def RefusedText (edit : TextDocumentEdit) (w : World) : Prop :=
  (∃ n, edit.version = some n ∧ w.doc.getVersion edit.uri ≠ some n) ∨
  (∃ e w', c.editedContent edit.uri edit.edits w = .error e w') ∨
  LeadsNowhere c edit.uri ∨
  Leads c edit.uri fun path => Fails (FileTree.openWrite (c.route path) w.fs [])

/-- The file is there and may be neither overwritten nor left, or it cannot be made. -/
def RefusedCreate (change : CreateFile) (w : World) : Prop :=
  LeadsNowhere c change.uri ∨ Leads c change.uri fun path =>
    (∃ e, existence c path w = .error e) ∨
    (existence c path w = .ok true ∧ flag change.options (·.overwrite) = false ∧
      flag change.options (·.ignoreIfExists) = false) ∨
    ((existence c path w = .ok false ∨
        existence c path w = .ok true ∧ flag change.options (·.overwrite) = true) ∧
      (NoParent c path w ∨ existence c path.parent w = .ok true ∧
        Fails (FileTree.openWrite (c.route path) w.fs [])))

/-- The old file is not there, or the new one is and may be neither overwritten
nor left, or the first call that moves it fails. -/
def RefusedRename (change : RenameFile) (w : World) : Prop :=
  LeadsNowhere c change.oldUri ∨ Leads c change.oldUri fun oldPath =>
  LeadsNowhere c change.newUri ∨ Leads c change.newUri fun newPath =>
    (∃ e, existence c oldPath w = .error e) ∨ existence c oldPath w = .ok false ∨
    (∃ e, existence c newPath w = .error e) ∨
    (existence c newPath w = .ok true ∧ flag change.options (·.overwrite) = false ∧
      flag change.options (·.ignoreIfExists) = false) ∨
    (existence c newPath w = .ok true ∧ flag change.options (·.overwrite) = true ∧
      Fails (FileTree.unlink (c.route newPath) w.fs)) ∨
    (existence c newPath w = .ok false ∧
      (NoParent c newPath w ∨ existence c newPath.parent w = .ok true ∧
        Fails (FileTree.rename (c.route oldPath) (c.route newPath) w.fs)))

/-- The file is not there and this is not ignored, or it cannot be taken away. -/
def RefusedDelete (change : DeleteFile) (w : World) : Prop :=
  LeadsNowhere c change.uri ∨ Leads c change.uri fun path =>
    (∃ e, existence c path w = .error e) ∨
    (existence c path w = .ok false ∧ flag change.options (·.ignoreIfNotExists) = false) ∨
    (existence c path w = .ok true ∧ NotRemoved c (flag change.options (·.recursive)) path w)

/-- The change is refused at one of its checks or at its first system call. -/
def Refused : DocumentChange → World → Prop
  | .textDocumentEdit edit => RefusedText c edit
  | .createFile change => RefusedCreate c change
  | .renameFile change => RefusedRename c change
  | .deleteFile change => RefusedDelete c change

/-- A change is refused, and every change before it is skipped. -/
def RefusedFirst : List DocumentChange → World → Prop
  | [], _ => False
  | change :: rest, w => Refused c change w ∨ Skipped c change w ∧ RefusedFirst rest w

variable {c} {w : World}

theorem osEffect_stops {α : Type} {raised : FileTree.OsError → Exc}
    {call : FileSystem → FileTree.Outcome Name Bytes α} :
    (osEffect call raised w).Stops ↔ Fails (call w.fs) := by
  unfold osEffect Stops Fails answer FileTree.Outcome.fail
  cases call w.fs with
  | mk changes result => cases result <;> simp [entries, Except.mapError]

theorem osEffect_eq_answer {α : Type} {raised : FileTree.OsError → Exc} {a : α}
    {call : FileSystem → FileTree.Outcome Name Bytes α} :
    osEffect call raised w = answer (.ok a) ↔ call w.fs = .done [] a := by
  unfold osEffect answer FileTree.Outcome.done
  cases call w.fs with
  | mk changes result => cases result <;> simp [entries, Except.mapError]

theorem not_osEffect_idles {α : Type} {raised : FileTree.OsError → Exc}
    {call : FileSystem → FileTree.Outcome Name Bytes α} (h : ∀ a, call w.fs ≠ .done [] a) :
    ¬ (osEffect call raised w).Idles := by
  rintro ⟨a, ha⟩
  exact h a (osEffect_eq_answer.mp ha)

section Given

variable {α β : Type} {k : α → Effect Write Exc β}

theorem given_converted_stops {x : Except UriError α} : (given (converted x) k).Stops ↔
    (∃ e, x = .error e) ∨ ∃ a, x = .ok a ∧ (k a).Stops := by
  cases x <;> simp [converted, Except.mapError, stops_given]

theorem given_converted_idles {x : Except UriError α} : (given (converted x) k).Idles ↔
    ∃ a, x = .ok a ∧ (k a).Idles := by
  cases x <;> simp [converted, Except.mapError, idles_given]

theorem asked_os {call : FileSystem → FileTree.Outcome Name Bytes α} :
    asked (os call) w = (call w.fs).result.mapError .osError := by
  cases h : call w.fs with
  | mk changes result => cases result <;> simp [asked, os, h, Except.mapError]

theorem given_os_stops {call : FileSystem → FileTree.Outcome Name Bytes Bool} {k : Bool → Effect Write Exc β} :
    (given (asked (os call) w) k).Stops ↔ (∃ e, (call w.fs).result = .error e) ∨
      (call w.fs).result = .ok true ∧ (k true).Stops ∨ (call w.fs).result = .ok false ∧ (k false).Stops := by
  rw [asked_os]
  cases (call w.fs).result with
  | error e => simp [Except.mapError, stops_given]
  | ok b => cases b <;> simp [Except.mapError, stops_given]

theorem given_os_idles {call : FileSystem → FileTree.Outcome Name Bytes Bool} {k : Bool → Effect Write Exc β} :
    (given (asked (os call) w) k).Idles ↔
      (call w.fs).result = .ok true ∧ (k true).Idles ∨ (call w.fs).result = .ok false ∧ (k false).Idles := by
  rw [asked_os]
  cases (call w.fs).result with
  | error e => simp [Except.mapError, idles_given]
  | ok b => cases b <;> simp [Except.mapError, idles_given]

theorem given_exists_stops {path : Path} {k : Bool → Effect Write Exc β} :
    (given (asked (c.pathExists path) w) k).Stops ↔ (∃ e, existence c path w = .error e) ∨
      existence c path w = .ok true ∧ (k true).Stops ∨ existence c path w = .ok false ∧ (k false).Stops :=
  given_os_stops

theorem given_exists_idles {path : Path} {k : Bool → Effect Write Exc β} :
    (given (asked (c.pathExists path) w) k).Idles ↔
      existence c path w = .ok true ∧ (k true).Idles ∨ existence c path w = .ok false ∧ (k false).Idles :=
  given_os_idles

end Given

theorem not_openWrite_idles {path : Path} :
    ¬ (osEffect (FileTree.openWrite (c.route path) · []) .osError w).Idles :=
  not_osEffect_idles fun _ => FileTree.openWrite_ne_nothing

theorem not_unlink_idles {path : Path} :
    ¬ (osEffect (FileTree.unlink (c.route path)) .osError w).Idles :=
  not_osEffect_idles fun _ => FileTree.unlink_ne_nothing

/-- A file that is written is opened for writing first. -/
theorem diskEffect_stops {path : Path} {content : Text} {encoding : Encoding} :
    (diskEffect c path content encoding w).Stops ↔ Fails (FileTree.openWrite (c.route path) w.fs []) := by
  rw [diskEffect, stops_andThen_of_not_idles not_openWrite_idles, osEffect_stops]

theorem not_diskEffect_idles {path : Path} {content : Text} {encoding : Encoding} :
    ¬ (diskEffect c path content encoding w).Idles := not_idles_andThen not_openWrite_idles

theorem writeEffect_stops {uri : Uri} {content : Text} : (writeEffect c uri content w).Stops ↔
    LeadsNowhere c uri ∨ Leads c uri fun path => Fails (FileTree.openWrite (c.route path) w.fs []) := by
  rw [writeEffect, given_converted_stops]
  refine or_congr_right (exists_congr fun path => and_congr_right fun _ => ?_)
  rw [stops_andThen_of_not_idles not_diskEffect_idles, diskEffect_stops]

theorem not_writeEffect_idles {uri : Uri} {content : Text} : ¬ (writeEffect c uri content w).Idles := by
  rw [writeEffect, given_converted_idles]
  rintro ⟨path, -, h⟩
  exact not_idles_andThen not_diskEffect_idles h

theorem asked_error_iff {α : Type} {x : Op α} :
    (∃ e, asked x w = .error e) ↔ ∃ e w', x w = .error e w' := by
  unfold asked
  cases x w <;> simp

theorem textEffect_stops {edit : TextDocumentEdit} :
    (textEffect c edit.uri edit.version edit.edits w).Stops ↔ RefusedText c edit w := by
  rw [RefusedText, ← checkVersion_raises_iff, ← asked_error_iff, ← asked_error_iff]
  exact stops_given_const fun _ => stops_given_const fun _ => writeEffect_stops

theorem not_textEffect_idles {uri : Uri} {version : Option ℤ} {edits : List AnyTextEdit} :
    ¬ (textEffect c uri version edits w).Idles := by
  rw [textEffect, idles_given]
  rintro ⟨_, -, h⟩
  obtain ⟨_, -, h⟩ := idles_given.mp h
  exact not_writeEffect_idles h

theorem nothing_idles : nothing.Idles := ⟨(), rfl⟩

theorem not_nothing_stops : ¬ nothing.Stops := by
  rintro ⟨e, h⟩
  cases h

theorem refuse_stops (e : Exc) : (refuse e).Stops := ⟨e, rfl⟩

theorem not_refuse_idles (e : Exc) : ¬ (refuse e).Idles := by
  rintro ⟨a, h⟩
  cases h

theorem parentsEffect_stops {path : Path} : (parentsEffect c path w).Stops ↔ NoParent c path w := by
  refine given_exists_stops.trans (or_congr_right ?_)
  simp [not_nothing_stops, osEffect_stops]

/-- A directory for which nothing is done is there. -/
theorem parentsEffect_idles {path : Path} :
    (parentsEffect c path w).Idles ↔ existence c path.parent w = .ok true := by
  refine given_exists_idles.trans ⟨?_, fun h => Or.inl ⟨h, nothing_idles⟩⟩
  rintro (⟨hthere, -⟩ | ⟨-, ⟨_, h⟩⟩)
  · exact hthere
  · exact FileTree.mkdirs_nothing (osEffect_eq_answer.mp h)

/-- What comes after the directory. -/
theorem parents_andThen_stops {path : Path} {g : World → WorldEffect} :
    ((parentsEffect c path w).andThen put w fun _ => g).Stops ↔
      NoParent c path w ∨ existence c path.parent w = .ok true ∧ (g w).Stops := by
  rw [stops_andThen, parentsEffect_stops, ← parentsEffect_idles]
  exact or_congr_right ⟨fun ⟨a, h, hg⟩ => ⟨⟨a, h⟩, hg⟩, fun ⟨⟨a, h⟩, hg⟩ => ⟨a, h, hg⟩⟩

theorem not_parents_andThen_idles {path : Path} {g : World → WorldEffect} (hg : ¬ (g w).Idles) :
    ¬ ((parentsEffect c path w).andThen put w fun _ => g).Idles := by
  rw [idles_andThen]
  rintro ⟨_, -, h⟩
  exact hg h

theorem createEffect_stops {change : CreateFile} :
    (createEffect c change w).Stops ↔ RefusedCreate c change w := by
  rw [createEffect, given_converted_stops, RefusedCreate]
  refine or_congr_right (exists_congr fun path => and_congr_right fun hpath => ?_)
  -- the directory, and then the file
  have hwrite : (writeEffect c change.uri [] w).Stops ↔ Fails (FileTree.openWrite (c.route path) w.fs []) := by
    rw [writeEffect_stops, LeadsNowhere, Leads, hpath]
    simp
  generalize Exc.editApplicationError _ _ = refusal
  refine given_exists_stops.trans ?_
  cases hthere : existence c path w with
  | error e => simp [hthere]
  | ok there =>
    cases there <;> cases flag change.options (·.overwrite) <;>
      cases flag change.options (·.ignoreIfExists) <;>
      simp [hthere, parents_andThen_stops, hwrite, not_nothing_stops, refuse_stops]

theorem createEffect_idles {change : CreateFile} :
    (createEffect c change w).Idles ↔ Skipped c (.createFile change) w := by
  rw [createEffect, given_converted_idles]
  refine exists_congr fun path => and_congr_right fun _ => ?_
  generalize Exc.editApplicationError _ _ = refusal
  refine given_exists_idles.trans ?_
  have hcreate : ¬ ((parentsEffect c path w).andThen put w fun _ => writeEffect c change.uri []).Idles :=
    not_parents_andThen_idles not_writeEffect_idles
  cases hthere : existence c path w with
  | error e => simp [hthere]
  | ok there =>
    cases there <;> cases flag change.options (·.overwrite) <;>
      cases flag change.options (·.ignoreIfExists) <;>
      simp [hthere, hcreate, nothing_idles, not_refuse_idles]

theorem trackEffect_result (oldUri newUri : Uri) (w : World) :
    (trackEffect oldUri newUri w).result = .ok () := by
  unfold trackEffect
  cases w.doc.states oldUri <;> rfl

theorem moveEffect_stops {change : RenameFile} {oldPath newPath : Path} :
    (moveEffect c change oldPath newPath w).Stops ↔ NoParent c newPath w ∨
      existence c newPath.parent w = .ok true ∧
        Fails (FileTree.rename (c.route oldPath) (c.route newPath) w.fs) := by
  refine parents_andThen_stops.trans (or_congr_right (and_congr_right fun _ => ?_))
  rw [stops_andThen, osEffect_stops]
  refine or_iff_left ?_
  rintro ⟨_, -, e, h⟩
  have hresult := trackEffect_result change.oldUri change.newUri w
  rw [h] at hresult
  cases hresult

/-- Where the old path leads to something and the new one to nothing, something is moved. -/
theorem not_moveEffect_idles {change : RenameFile} {oldPath newPath : Path}
    (hold : existence c oldPath w = .ok true) (hnew : existence c newPath w = .ok false) :
    ¬ (moveEffect c change oldPath newPath w).Idles := by
  refine not_parents_andThen_idles fun h => ?_
  obtain ⟨_, h, -⟩ := idles_andThen.mp h
  have hsame := FileTree.rename_nothing (osEffect_eq_answer.mp h)
  have hthere := FileTree.pathExists_ok hold
  rw [← hsame, FileTree.pathExists_ok hnew] at hthere
  cases hthere

theorem renameEffect_stops {change : RenameFile} :
    (renameEffect c change w).Stops ↔ RefusedRename c change w := by
  rw [renameEffect, given_converted_stops, RefusedRename]
  refine or_congr_right (exists_congr fun oldPath => and_congr_right fun _ => ?_)
  rw [given_converted_stops]
  refine or_congr_right (exists_congr fun newPath => and_congr_right fun _ => ?_)
  have hunlink : ∀ g : World → WorldEffect,
      ((osEffect (FileTree.unlink (c.route newPath)) .osError w).andThen put w fun _ => g).Stops ↔
        Fails (FileTree.unlink (c.route newPath) w.fs) := fun g =>
    (stops_andThen_of_not_idles not_unlink_idles).trans osEffect_stops
  generalize Exc.editApplicationError _ (some change.oldUri) = missing
  generalize Exc.editApplicationError _ (some change.newUri) = taken
  refine given_exists_stops.trans ?_
  cases hold : existence c oldPath w with
  | error e => simp
  | ok there =>
    cases hnew : existence c newPath w with
    | error e => cases there <;> simp [hnew, given_exists_stops, refuse_stops]
    | ok b =>
      cases there <;> cases b <;> cases flag change.options (·.overwrite) <;>
        cases flag change.options (·.ignoreIfExists) <;>
        simp [hnew, given_exists_stops, refuse_stops, moveEffect_stops, hunlink, not_nothing_stops]

theorem renameEffect_idles {change : RenameFile} :
    (renameEffect c change w).Idles ↔ Skipped c (.renameFile change) w := by
  rw [renameEffect, given_converted_idles]
  refine exists_congr fun oldPath => and_congr_right fun _ => ?_
  rw [given_converted_idles]
  refine exists_congr fun newPath => and_congr_right fun _ => ?_
  have hunlink : ∀ g : World → WorldEffect,
      ¬ ((osEffect (FileTree.unlink (c.route newPath)) .osError w).andThen put w fun _ => g).Idles :=
    fun g => not_idles_andThen not_unlink_idles
  generalize Exc.editApplicationError _ (some change.oldUri) = missing
  generalize Exc.editApplicationError _ (some change.newUri) = taken
  refine given_exists_idles.trans ?_
  cases hold : existence c oldPath w with
  | error e => simp
  | ok there =>
    cases there with
    | false => simp [not_refuse_idles]
    | true =>
      cases hnew : existence c newPath w with
      | error e => simp [hnew, given_exists_idles]
      | ok b =>
        cases b <;> cases flag change.options (·.overwrite) <;>
          cases flag change.options (·.ignoreIfExists) <;>
          simp [hnew, given_exists_idles, not_refuse_idles, not_moveEffect_idles hold, hunlink,
            nothing_idles]

theorem removeEffect_stops {change : DeleteFile} {path : Path} :
    (removeEffect c change path w).Stops ↔ NotRemoved c (flag change.options (·.recursive)) path w := by
  unfold removeEffect NotRemoved
  generalize (fun _ : FileTree.OsError => Exc.editApplicationError _ (some change.uri)) = raised
  refine given_os_stops.trans ?_
  cases hdir : (FileTree.isDir (c.route path) w.fs).result with
  | error e => simp
  | ok b => cases b <;> cases flag change.options (·.recursive) <;> simp [osEffect_stops]

theorem not_removeEffect_idles {change : DeleteFile} {path : Path} : ¬ (removeEffect c change path w).Idles := by
  unfold removeEffect
  intro h
  obtain ⟨-, h⟩ | ⟨-, h⟩ := given_os_idles.mp h
  · simp only [Bool.not_true, Bool.false_eq_true, ↓reduceIte] at h
    split_ifs at h
    · exact not_osEffect_idles (fun _ => FileTree.rmtree_ne_nothing) h
    · exact not_osEffect_idles (fun _ => FileTree.rmdir_ne_nothing) h
  · exact not_unlink_idles h

theorem deleteEffect_stops {change : DeleteFile} :
    (deleteEffect c change w).Stops ↔ RefusedDelete c change w := by
  rw [deleteEffect, given_converted_stops, RefusedDelete]
  refine or_congr_right (exists_congr fun path => and_congr_right fun _ => ?_)
  have hremove : ((removeEffect c change path w).andThen put w fun _ => untrackEffect change.uri).Stops ↔
      NotRemoved c (flag change.options (·.recursive)) path w :=
    (stops_andThen_of_not_idles not_removeEffect_idles).trans removeEffect_stops
  generalize Exc.editApplicationError _ (some change.uri) = missing
  refine given_exists_stops.trans ?_
  cases hthere : existence c path w with
  | error e => simp [hthere]
  | ok b =>
    cases b <;> cases flag change.options (·.ignoreIfNotExists) <;>
      simp [hthere, hremove, refuse_stops, not_nothing_stops]

theorem deleteEffect_idles {change : DeleteFile} :
    (deleteEffect c change w).Idles ↔ Skipped c (.deleteFile change) w := by
  rw [deleteEffect, given_converted_idles]
  refine exists_congr fun path => and_congr_right fun _ => ?_
  have hremove : ¬ ((removeEffect c change path w).andThen put w fun _ => untrackEffect change.uri).Idles :=
    not_idles_andThen not_removeEffect_idles
  generalize Exc.editApplicationError _ (some change.uri) = missing
  refine given_exists_idles.trans ?_
  cases hthere : existence c path w with
  | error e => simp [hthere]
  | ok b =>
    cases b <;> cases flag change.options (·.ignoreIfNotExists) <;>
      simp [hthere, hremove, not_refuse_idles, nothing_idles]

/-- **A change raises before it has done anything exactly if it is refused.** -/
theorem changeEffect_stops (change : DocumentChange) :
    (changeEffect c change w).Stops ↔ Refused c change w := by
  cases change with
  | textDocumentEdit edit => exact textEffect_stops
  | createFile change => exact createEffect_stops
  | renameFile change => exact renameEffect_stops
  | deleteFile change => exact deleteEffect_stops

/-- **A change ends and has done nothing exactly if it is skipped.** -/
theorem changeEffect_idles (change : DocumentChange) :
    (changeEffect c change w).Idles ↔ Skipped c change w := by
  cases change with
  | textDocumentEdit edit => exact iff_of_false not_textEffect_idles id
  | createFile change => exact createEffect_idles
  | renameFile change => exact renameEffect_idles
  | deleteFile change => exact deleteEffect_idles

theorem allEffect_stops : ∀ changes : List DocumentChange,
    (allEffect c changes w).Stops ↔ RefusedFirst c changes w
  | [] => iff_of_false not_nothing_stops id
  | change :: rest => by
    rw [allEffect, stops_andThen, changeEffect_stops, RefusedFirst, ← changeEffect_idles,
      ← allEffect_stops rest]
    exact or_congr_right ⟨fun ⟨a, h, hrest⟩ => ⟨⟨a, h⟩, hrest⟩, fun ⟨⟨a, h⟩, hrest⟩ => ⟨a, h, hrest⟩⟩

variable (c w) in
/-- **Which edits raise before they have done anything.** -/
theorem stops_iff (edit : WorkspaceEdit) :
    (editEffect c edit w).Stops ↔ RefusedFirst c (changesOf edit) w := allEffect_stops _

end Refusing

/-! ### What an edit that raises leaves -/

theorem visible_put (w : World) (p : Place) (x : p.Value) :
    visible (put w (.put p x)) = Function.update (visible w) p x := by
  rw [Function.eq_update_iff]
  cases p with
  | entry l =>
    have hset := FileTree.lookup_set w.fs.tree (l, x)
    refine ⟨(hset l).trans (if_pos rfl), fun q hq => ?_⟩
    cases q with
    | entry m => exact (hset m).trans (if_neg fun h => hq (congrArg Place.entry h))
    | state u => rfl
    | count u => rfl
  | state u =>
    refine ⟨Function.update_self .., fun q hq => ?_⟩
    cases q with
    | entry m => rfl
    | state v => exact Function.update_of_ne (fun h => hq (congrArg Place.state h)) ..
    | count v => rfl
  | count u =>
    refine ⟨Function.update_self .., fun q hq => ?_⟩
    cases q with
    | entry m => rfl
    | state v => rfl
    | count v => exact Function.update_of_ne (fun h => hq (congrArg Place.count h)) ..

theorem visible_foldl : ∀ (steps : List Write) (w : World),
    visible (steps.foldl put w) = Journal.replay (visible w) (journal steps)
  | [], _ => rfl
  | .put p x :: steps, w => by
    rw [List.foldl_cons, visible_foldl steps, visible_put]
    rfl
  | .send _ :: steps, w => visible_foldl steps _

theorem visible_eq_iff {w w' : World} : visible w' = visible w ↔
    (∀ l, w'.fs.tree.lookup l = w.fs.tree.lookup l) ∧ w'.doc = w.doc := by
  constructor
  · intro h
    refine ⟨fun l => congrFun h (.entry l), ?_⟩
    have hstates : w'.doc.states = w.doc.states := funext fun u => congrFun h (.state u)
    have hcounts : w'.doc.refCounts = w.doc.refCounts := funext fun u => congrFun h (.count u)
    cases hdoc : w'.doc
    cases hdoc' : w.doc
    simp_all
  · rintro ⟨htree, hdoc⟩
    funext p
    cases p with
    | entry l => exact htree l
    | state u => exact congrArg (fun m => DocumentStateManager.states m u) hdoc
    | count u => exact congrArg (fun m => DocumentStateManager.refCounts m u) hdoc

section Failing

variable (c : Client) (edit : WorkspaceEdit) (w : World)

/-- If the edit raises, every file and all that is tracked are what they were. -/
def Atomic : Prop := ∀ e w', c.applyWorkspaceEdit edit w = .error e w' →
  (∀ l, w'.fs.tree.lookup l = w.fs.tree.lookup l) ∧ w'.doc = w.doc

/-- If a change of the edit is refused, the last write to each place puts back what was there. -/
def PutsBack : Prop := ∀ e, (editEffect c edit w).result = .error e →
  Journal.Restores (visible w) (journal (editEffect c edit w).steps)

variable {c edit w} {e : Exc} {w' : World}

theorem raises_iff : c.applyWorkspaceEdit edit w = .error e w' ↔
    (editEffect c edit w).result = .error e ∧ (editEffect c edit w).after put w = w' := by
  rw [applyWorkspaceEdit_run, run_eq_error_iff]

/-- The places after the edit are those before it exactly if the writes restore them. -/
theorem unchanged_iff : visible ((editEffect c edit w).after put w) = visible w ↔
    Journal.Restores (visible w) (journal (editEffect c edit w).steps) := by
  rw [← Journal.replay_eq_self_iff]
  exact iff_of_eq (congrArg (· = visible w) (visible_foldl _ w))

variable (c edit w) in
/-- An edit is atomic exactly if it puts back what it has changed before it is refused. -/
theorem atomic_iff : Atomic c edit w ↔ PutsBack c edit w := by
  constructor
  · intro h e he
    rw [← unchanged_iff, visible_eq_iff]
    exact h e _ (raises_iff.mpr ⟨he, rfl⟩)
  · intro h e w' hraise
    obtain ⟨he, rfl⟩ := raises_iff.mp hraise
    rw [← visible_eq_iff, unchanged_iff]
    exact h e he

/-- An edit that raises before it has done anything has left everything as it was. -/
theorem atomic_of_stops (h : (editEffect c edit w).Stops) : Atomic c edit w := by
  intro e w' hraise
  obtain ⟨-, rfl⟩ := raises_iff.mp hraise
  obtain ⟨e', h⟩ := h
  rw [h]
  exact ⟨fun _ => rfl, rfl⟩

/-- Every text edit that lands raises the version. -/
theorem landed_version (u : Uri) : ∀ (es : List (Uri × List AnyTextEdit)) (d : DocumentState),
    (es.foldl (Contents.landed u) d).version = d.version + es.countP (·.1 = u)
  | [], d => by simp
  | e :: es, d => by
    rw [List.foldl_cons, landed_version u es, Contents.landed, List.countP_cons]
    by_cases he : e.1 = u
    · simp only [if_pos he, decide_eq_true he, ↓reduceIte]
      omega
    · simp [he]

/-- **A text edit of an open document is not undone** by a change that is refused after it. -/
theorem landed_stays {pre post : List DocumentChange} {change : DocumentChange}
    {edited : TextDocumentEdit} {v : World} (hsplit : changesOf edit = pre ++ change :: post)
    (hpre : c.applyDocumentChanges pre w = .ok () v) (hraise : c.applyChange change v = .error e w')
    (hedited : .textDocumentEdit edited ∈ pre) (hu : c.Canonical edited.uri)
    (hopen : (w.doc.states edited.uri).isSome = true)
    (halone : ∀ ch ∈ changesOf edit, Versions.Alone edited.uri ch) : ¬ Atomic c edit w := by
  intro hatomic
  rw [hsplit, List.forall_mem_append, List.forall_mem_cons] at halone
  obtain ⟨halonePre, halone, -⟩ := halone
  obtain ⟨d, hd⟩ := Option.isSome_iff_exists.mp hopen
  have hrun : c.applyWorkspaceEdit edit w = .error e w' := by
    rw [Rename.applyWorkspaceEdit_eq, hsplit, Rename.applyDocumentChanges_append, bind_eq_ok hpre]
    exact bind_eq_error hraise
  obtain ⟨es, -, hlands, hall⟩ := Contents.changes_land hu w halonePre
  obtain rfl := hall ⟨v, hpre⟩
  rw [final, hpre] at hlands
  -- the refused change may have landed as well
  obtain ⟨es', hlands'⟩ : ∃ es', Contents.Lands edited.uri es' v w' := by
    have hchange := Contents.change_lands hu halone v
    unfold final at hchange
    rw [hraise] at hchange
    obtain ⟨h, -⟩ | h := hchange
    · exact ⟨_, h⟩
    · exact ⟨_, h⟩
  have hstate := (hlands.append hlands').state
  rw [(hatomic e w' hrun).2, hd, Option.map_some, Option.some.injEq] at hstate
  have hversion := congrArg DocumentState.version hstate
  rw [landed_version] at hversion
  have hmem : (edited.uri, edited.edits) ∈ pre.filterMap DocumentChange.textEdits :=
    List.mem_filterMap.mpr ⟨_, hedited, rfl⟩
  have hpos : 0 < (pre.filterMap DocumentChange.textEdits ++ es').countP (·.1 = edited.uri) :=
    List.countP_pos_iff.mpr ⟨_, List.mem_append_left _ hmem, by simp⟩
  omega

variable (c edit w) in
/-- **When an edit is atomic.** The edits that raise before they have done anything are
those one of whose changes is refused while all before it are skipped, and they leave
everything as it was; an edit that is refused after a text edit of an open document, which
nothing else in it concerns, does not. -/
theorem atomic_when :
    ((editEffect c edit w).Stops ↔ RefusedFirst c (changesOf edit) w) ∧
    (RefusedFirst c (changesOf edit) w → Atomic c edit w) ∧
    ∀ pre change post edited v e w', changesOf edit = pre ++ change :: post →
      c.applyDocumentChanges pre w = .ok () v → c.applyChange change v = .error e w' →
      .textDocumentEdit edited ∈ pre → c.Canonical edited.uri →
      (w.doc.states edited.uri).isSome = true →
      (∀ ch ∈ changesOf edit, Versions.Alone edited.uri ch) → ¬ Atomic c edit w :=
  ⟨stops_iff c w edit, fun h => atomic_of_stops ((stops_iff c w edit).mpr h),
    fun _ _ _ _ _ _ _ => landed_stays⟩

/-- The answer that the edit was not applied does not undo anything either. -/
theorem respondApplyEdit_error (describe : Exc → Text) (h : c.applyWorkspaceEdit edit w = .error e w') :
    (∃ reason, c.respondApplyEdit describe edit w = .ok ⟨false, some reason⟩ w') ∨
      c.respondApplyEdit describe edit w = .error e w' := by
  have hbody : (do c.applyWorkspaceEdit edit; return ⟨true, none⟩ : Op ApplyWorkspaceEditResult) w =
      .error e w' := bind_eq_error h
  unfold respondApplyEdit
  show (∃ reason, EStateM.tryCatch _ _ w = _) ∨ EStateM.tryCatch _ _ w = _
  unfold EStateM.tryCatch
  simp only [hbody]
  cases e with
  | editApplicationError message uri => exact .inl ⟨message, rfl⟩
  | versionMismatchError message uri expected actual => exact .inl ⟨message, rfl⟩
  | _ =>
    simp only
    split_ifs
    · exact .inl ⟨_, rfl⟩
    · exact .inr rfl

end Failing

/-- A text edit of `file:///ws/a`. -/
def editA : TextDocumentEdit := ⟨Small.uriA, some 0, [.textEdit ⟨⟨0, 0⟩, ⟨0, 1⟩⟩ "y".toList]⟩

def deleteC : DocumentChange := .deleteFile ⟨"file:///ws/c".toList, none⟩

/-- A new file that is there already, which is ignored, and the deletion of a file that is not there. -/
def skipThenDelete : WorkspaceEdit where
  documentChanges := some [.createFile ⟨Small.uriA, some ⟨none, some true⟩⟩, deleteC]
  changes := none

theorem atomic_when_delete :
    Atomic Small.client skipThenDelete (Small.world [("a".toList, "x".toList)]) ∧
      ¬ Atomic Small.client ⟨some [.textDocumentEdit editA, deleteC], none⟩ (Small.opened "x".toList) := by
  constructor
  · refine (atomic_when _ _ _).2.1 (Or.inr ⟨⟨Path.ofText "/ws/a".toList, by decide, ?_⟩,
      Or.inl (Or.inr ⟨Path.ofText "/ws/c".toList, by decide, ?_⟩)⟩)
    · exact ⟨by decide +kernel, rfl, rfl⟩
    · exact Or.inr (Or.inl ⟨by decide +kernel, rfl⟩)
  · have hrun : returned (Small.client.applyDocumentChanges [.textDocumentEdit editA]
        (Small.opened "x".toList)) (fun _ v =>
          (returned (Small.client.applyChange deleteC v) fun _ _ => ()).isNone) = some true := by
      decide +kernel
    obtain ⟨_, v, hpre, hraises⟩ := returned_some hrun
    obtain ⟨e, w', hdelete⟩ := returned_none (Option.isNone_iff_eq_none.mp hraises.symm)
    have hne : "file:///ws/c".toList ≠ Small.uriA := by decide
    exact (atomic_when _ _ _).2.2 _ _ [] editA v e w' rfl hpre hdelete List.mem_cons_self
      Small.uriA_canonical rfl (List.forall_mem_cons.mpr ⟨trivial,
        List.forall_mem_cons.mpr ⟨hne, List.forall_mem_nil _⟩⟩)

/-- A new file, and the deletion of a file that is not there. -/
def createThenDelete : WorkspaceEdit where
  documentChanges := some
    [.createFile ⟨"file:///ws/b".toList, none⟩, .deleteFile ⟨"file:///ws/c".toList, none⟩]
  changes := none

/-- **A refused change does not undo the ones before it**: the deletion raises,
and the new file is there. -/
theorem create_stays : ¬ Atomic Small.client createThenDelete (Small.world []) := by
  intro h
  have hraises : returned (Small.client.applyWorkspaceEdit createThenDelete (Small.world []))
      (fun _ _ => ()) = none := by decide +kernel
  have hend : (final (Small.client.applyWorkspaceEdit createThenDelete) (Small.world [])).fs.tree.lookup
      ["ws".toList, "b".toList] = some (.file []) := by decide +kernel
  obtain ⟨e, w', hrun⟩ := returned_none hraises
  have hsame := (h e w' hrun).1 ["ws".toList, "b".toList]
  have hnone : (Small.world []).fs.tree.lookup ["ws".toList, "b".toList] = none := by decide +kernel
  rw [final, hrun] at hend
  rw [hnone] at hsame
  cases hend.symm.trans hsame

end Atomicity
end LspClient
