/-
# The client and its world

The operations of `Client` that move files, tracked documents and
notifications: `read_file`, `write_file` and the two ends of `open_files`,
with `notify_text_document_opened`, `changed` and `closed`. They act on a
`World`: the file system, the `DocumentStateManager`, and the connection with
the notifications sent through it. An operation that raises leaves the world
as it is at that moment.

`write_file` is suspended around its disk write, so it is three parts:
`writeBegin`, `writeText` and `writeFinish`; `read_file` reads the disk only
where `readBegin` does not find the content. In `open_files` the tasks of a
group may finish in any order (`Order`).

Left to parameters are `charset_normalizer` and the codecs (`Codecs`), and the
host checks of `urlparse`.

Key definitions: `Client`, `World`, `readFile`, `writeFile`, `openFilesEnter`,
`openFilesExit`.
Key theorems: `writeText_ok`, `writeFinish_tracked`.
-/
import LspClient.Lib.Actions
import LspClient.Lib.FileTree
import LspClient.DocumentState

namespace LspClient

open ByteStream

/-- A name in a directory. -/
abbrev Name := Text

abbrev FileSystem := FileTree.FileSystem Name Bytes

abbrev Route := FileTree.Route Name

/-- The codecs of the runtime: `from_bytes(..).best()`, `str.encode` and
`bytes.decode`, `none` where they fail. -/
structure Codecs where
  best : Bytes → Option (Text × Encoding)
  encode : Encoding → Text → Option Bytes
  decode : Encoding → Bytes → Option Text

/-- What a client is set up with. -/
structure Client where
  workspace : Workspace
  syncFile : Bool
  /-- `get_language_config().kind`. -/
  languageId : Text
  codecs : Codecs
  /-- The checks of `urlparse` on a bracketed or a non-ASCII host. -/
  netlocError : Text → Option Text
  /-- The working directory. -/
  cwd : Path

/-- The notifications of text synchronization. -/
inductive Notification where
  | didOpen (uri : Uri) (languageId : Text) (version : ℤ) (text : Text)
  | didChange (uri : Uri) (version : ℤ) (text : Text)
  | didClose (uri : Uri)
  deriving DecidableEq, Repr

/-- Why a notification is not sent. -/
inductive SendError where
  | closedResource
  | timeout
  deriving DecidableEq, Repr

/-- The connection: what was sent through it, and what it fails to send. -/
structure Connection where
  sent : List Notification
  fails : List Notification → Notification → Option SendError

structure World where
  fs : FileSystem
  doc : DocumentStateManager
  conn : Connection

/-- The world with more notifications sent. -/
def World.sendAll (w : World) (msgs : List Notification) : World :=
  { w with conn := { w.conn with sent := w.conn.sent ++ msgs } }

@[simp] theorem World.sendAll_doc (w : World) (msgs : List Notification) :
    (w.sendAll msgs).doc = w.doc := rfl

theorem World.sendAll_nil (w : World) : w.sendAll [] = w := by
  rw [sendAll, List.append_nil]

theorem World.sendAll_append (w : World) (ms ns : List Notification) :
    (w.sendAll ms).sendAll ns = w.sendAll (ms ++ ns) := by
  simp only [sendAll, List.append_assoc]

/-- What an operation raises. -/
inductive Exc where
  | osError (e : FileTree.OsError)
  | uriError (e : UriError)
  | valueError (message : Text)
  | unicodeEncodeError
  | unicodeDecodeError
  | sendError (e : SendError)
  | editApplicationError (message : Text) (uri : Option Uri)
  | versionMismatchError (message : Text) (uri : Option Uri) (expectedVersion actualVersion : Option ℤ)
  deriving DecidableEq, Repr

abbrev Op := EStateM Exc World

/-- The state of a system after an operation that returns. -/
def returned {α : Type} {σ : Type*} (r : EStateM.Result Exc World α) (next : α → World → σ) :
    Option σ :=
  match r with
  | .ok a w => some (next a w)
  | .error _ _ => none

theorem returned_some {α : Type} {σ : Type*} {r : EStateM.Result Exc World α}
    {next : α → World → σ} {t : σ} (h : returned r next = some t) :
    ∃ a w, r = .ok a w ∧ t = next a w := by
  cases r with
  | ok a w => exact ⟨a, w, rfl, (Option.some.inj h).symm⟩
  | error e w => cases h

theorem returned_none {α : Type} {σ : Type*} {r : EStateM.Result Exc World α}
    {next : α → World → σ} (h : returned r next = none) : ∃ e w, r = .error e w := by
  cases r with
  | ok a w => cases h
  | error e w => exact ⟨e, w, rfl⟩

/-- A system call. -/
def os {α : Type} (call : FileSystem → FileTree.Outcome Name Bytes α) : Op α := fun w =>
  let o := call w.fs
  let w := { w with fs := w.fs.apply o.changes }
  match o.result with
  | .ok a => .ok a w
  | .error e => .error (.osError e) w

/-- A method of the `DocumentStateManager`. -/
def doc {α : Type} (method : DocumentStateManager → α × DocumentStateManager) : Op α := fun w =>
  let r := method w.doc
  .ok r.1 { w with doc := r.2 }

/-- `notify`. -/
def notify (msg : Notification) : Op Unit := fun w =>
  match w.conn.fails w.conn.sent msg with
  | some e => .error (.sendError e) w
  | none => .ok () (w.sendAll [msg])

/-- A conversion between URIs and paths. -/
def convert {α : Type} (x : Except UriError α) : Op α :=
  match x with
  | .ok a => pure a
  | .error e => throw (.uriError e)

/-- The order in which the tasks of a group get through. -/
structure Order where
  arrange : ∀ {α : Type}, List α → List α
  perm : ∀ {α : Type} (l : List α), (arrange l).Perm l

/-- The tasks get through in the order they were started in. -/
def Order.inOrder : Order := ⟨id, fun _ => List.Perm.refl _⟩

/-- Universal newlines: what reading in text mode makes of the line ends. -/
def universalNewlines : Text → Text
  | [] => []
  | '\r' :: '\n' :: cs => '\n' :: universalNewlines cs
  | '\r' :: cs => '\n' :: universalNewlines cs
  | c :: cs => c :: universalNewlines cs

theorem universalNewlines_crlf (cs : Text) :
    universalNewlines ('\r' :: '\n' :: cs) = '\n' :: universalNewlines cs := by
  rw [universalNewlines]

theorem universalNewlines_cons {c : Char} (h : c ≠ '\r') (cs : Text) :
    universalNewlines (c :: cs) = c :: universalNewlines cs := by
  rw [universalNewlines]
  · rintro _ rfl
    exact absurd rfl h
  · rintro rfl
    exact absurd rfl h

theorem universalNewlines_cr {cs : Text} (h : cs.head? ≠ some '\n') :
    universalNewlines ('\r' :: cs) = '\n' :: universalNewlines cs := by
  rw [universalNewlines]
  rintro cs' rfl
  exact absurd rfl h

/-- Along the text: at `\r\n`, at another `\r`, and at any other character. -/
theorem newline_induction {P : Text → Prop} (nil : P []) (crlf : ∀ cs, P cs → P ('\r' :: '\n' :: cs))
    (cr : ∀ cs : Text, cs.head? ≠ some '\n' → P cs → P ('\r' :: cs))
    (char : ∀ c cs, c ≠ '\r' → P cs → P (c :: cs)) (s : Text) : P s := by
  induction s using universalNewlines.induct with
  | case1 => exact nil
  | case2 cs ih => exact crlf cs ih
  | case3 cs hne ih =>
    refine cr cs (fun h => ?_) ih
    cases cs with
    | nil => cases h
    | cons d cs =>
      cases h
      exact hne cs rfl
  | case4 c cs _ hne ih => exact char c cs hne ih

namespace Client

variable (c : Client)

def asUri (p : Path) : Except UriError Uri := LspClient.asUri c.netlocError c.workspace p

def fromLocalUri (u : Uri) : Except UriError Path := LspClient.fromLocalUri c.netlocError u

/-- `from_uri(uri, relative=False)`. -/
def fromUri (u : Uri) : Except UriError Path := LspClient.fromUri c.netlocError c.workspace u false

/-- A path of the file system. -/
def route (p : Path) : Route :=
  (if p.isAbsolute then p.parts else c.cwd.parts ++ p.parts).map fun x =>
    if x.1 = ['.', '.'] then .up else .down x.1

/-! ### Files -/

/-- `Path.read_text`. -/
def readText (p : Path) (encoding : Encoding) : Op Text := do
  let bytes ← os (FileTree.read (c.route p))
  match c.codecs.decode encoding bytes with
  | some t => return universalNewlines t
  | none => throw .unicodeDecodeError

/-- `Path.write_text`: the file is open, and empty, before the text is encoded. -/
def writeText (p : Path) (content : Text) (encoding : Encoding) : Op Unit := do
  let l ← os fun fs => FileTree.openWrite (c.route p) fs []
  match c.codecs.encode encoding content with
  | some bytes => os fun fs => FileTree.write fs l bytes
  | none => throw .unicodeEncodeError

/-! ### Notifications -/

/-- `notify_text_document_opened`. -/
def notifyTextDocumentOpened (filePath : Path) (fileContent : Text) : Op Unit := do
  let uri ← convert (c.asUri filePath)
  notify (.didOpen uri c.languageId 0 fileContent)

/-- `notify_text_document_changed` with one change of the whole document. -/
def notifyTextDocumentChanged (filePath : Path) (text : Text) (version : ℤ) : Op Unit := do
  let uri ← convert (c.asUri filePath)
  notify (.didChange uri version text)

/-- `notify_text_document_closed`. -/
def notifyTextDocumentClosed (filePath : Path) : Op Unit := do
  let uri ← convert (c.asUri filePath)
  notify (.didClose uri)

/-! ### `open_files` -/

/-- `read_file` of `DocumentStateManager.open`. -/
def readDocument (uri : Uri) : Op DocumentState := do
  let path ← convert (c.fromLocalUri uri)
  let contentBytes ← os (FileTree.read (c.route path))
  match c.codecs.best contentBytes with
  | some (content, encoding) => return ⟨content, 0, encoding⟩
  | none => throw (.valueError ("Unable to decode file content for ".toList ++ uri ++
      ": charset detection failed".toList))

/-- The reads of `DocumentStateManager.open`: `new_states`. -/
def readDocuments : NewStates → List Uri → Op NewStates
  | new, [] => pure new
  | new, u :: us => do
    let state ← c.readDocument u
    readDocuments (new.insert u state) us

/-- `DocumentStateManager.open`. -/
def openDocuments (uris : List Uri) : Op NewStates := do
  let newUris ← doc fun m => m.openBegin uris
  if newUris = [] then return ∅
  else
    let newStates ← c.readDocuments ∅ newUris
    doc fun m => ((), m.openCommit newStates)
    return newStates

/-- The group of tasks that send `didOpen`. -/
def sendOpened : List (Uri × Text) → Op Unit
  | [] => pure ()
  | (uri, content) :: rest => do
    c.notifyTextDocumentOpened (← convert (c.fromLocalUri uri)) content
    sendOpened rest

/-- The group of tasks that send `didClose`. -/
def sendClosed : List Uri → Op Unit
  | [] => pure ()
  | uri :: rest => do
    c.notifyTextDocumentClosed (← convert (c.fromLocalUri uri))
    sendClosed rest

/-- `open_files` up to its `yield`: the URIs it holds. -/
def openFilesEnter (order : Order) (filePaths : List Path) : Op (List Uri) := do
  if !c.syncFile then return []
  else
    let fileUris ← filePaths.mapM fun p => convert (c.asUri p)
    if fileUris = [] then return []
    else
      let newDocs ← c.openDocuments fileUris
      c.sendOpened (order.arrange newDocs.contents)
      return fileUris

/-- `open_files` after its `yield`. -/
def openFilesExit (order : Order) (fileUris : List Uri) : Op Unit := do
  if fileUris = [] then return ()
  else
    let closedUris ← doc fun m => m.close fileUris
    c.sendClosed (order.arrange closedUris)

/-! ### `read_file` and `write_file` -/

/-- `read_file` up to the read: the tracked content, or the file to read. -/
def readBegin (filePath : Path) : Op (Text ⊕ Path) := do
  let uri ← convert (c.asUri filePath)
  match ← doc fun m => (m.getContent uri, m) with
  | some content => return .inl content
  | none => return .inr (← convert (c.fromUri uri))

/-- `read_file`. -/
def readFile (filePath : Path) (encoding : Encoding := utf8) : Op Text := do
  match ← c.readBegin filePath with
  | .inl content => return content
  | .inr path => c.readText path encoding

/-- `write_file` before the disk write: where to write, and in which encoding. -/
def writeBegin (uri : Uri) : Op (Path × Encoding) := do
  let path ← convert (c.fromLocalUri uri)
  let encoding ← doc fun m => (m.getEncoding uri, m)
  return (path, encoding)

/-- `write_file` after the disk write. -/
def writeFinish (uri : Uri) (content : Text) : Op Unit := do
  match ← doc fun m => m.updateContent uri content with
  | some newVersion => c.notifyTextDocumentChanged (← convert (c.fromUri uri)) content newVersion
  | none => return ()

/-- `write_file`. -/
def writeFile (uri : Uri) (content : Text) : Op Unit := do
  let (path, encoding) ← c.writeBegin uri
  c.writeText path content encoding
  c.writeFinish uri content

end Client

/-! ### What only reads -/

section Reads

open Actions

theorem reads_os {α : Type} {call : FileSystem → FileTree.Outcome Name Bytes α}
    (h : ∀ fs, (call fs).changes = []) : Reads (os call) := by
  intro w
  have hw : ({ w with fs := w.fs.apply (call w.fs).changes } : World) = w := by rw [h]; rfl
  unfold final os
  simp only [hw]
  split <;> rename_i heq <;> split at heq <;> cases heq <;> rfl

/-- However it ends, the operation leaves the tracked documents alone. -/
abbrev SameDoc {α : Type} (x : Op α) : Prop := Within (fun w w' => w'.doc = w.doc) x

theorem sameDoc_trans (w₁ w₂ w₃ : World) (h : w₂.doc = w₁.doc) (h' : w₃.doc = w₂.doc) : w₃.doc = w₁.doc :=
  h'.trans h

theorem sameDoc_bind {α β : Type} {x : Op α} {f : α → Op β} (hx : SameDoc x) (hf : ∀ a, SameDoc (f a)) :
    SameDoc (x >>= f) :=
  Within.bind sameDoc_trans hx hf

theorem sameDoc_reads {α : Type} {x : Op α} (hx : Reads x) : SameDoc x := hx.mono fun _ _ h => h ▸ rfl

theorem os_doc {α : Type} (call : FileSystem → FileTree.Outcome Name Bytes α) : SameDoc (os call) := by
  intro w
  unfold final os
  simp only
  split <;> rename_i heq <;> split at heq <;> cases heq <;> rfl

theorem reads_doc {α : Type} {method : DocumentStateManager → α × DocumentStateManager}
    (h : ∀ m, (method m).2 = m) : Reads (doc method) := by
  intro w
  show w = { w with doc := (method w.doc).2 }
  rw [h]

theorem notify_doc (msg : Notification) : SameDoc (notify msg) := by
  intro w
  unfold final notify
  split <;> rename_i heq <;> split at heq <;> cases heq <;> rfl

theorem reads_convert {α : Type} (x : Except UriError α) : Reads (convert x) := by
  unfold convert
  split
  · exact reads_pure
  · exact reads_throw

namespace Client

variable (c : Client)

theorem reads_readText (p : Path) (encoding : Encoding) : Reads (c.readText p encoding) := by
  refine (reads_os (FileTree.read_changes _)).bindReads fun bytes => ?_
  split
  · exact reads_pure
  · exact reads_throw

theorem reads_readDocument (uri : Uri) : Reads (c.readDocument uri) := by
  refine (reads_convert _).bindReads fun path => ?_
  refine (reads_os (FileTree.read_changes _)).bindReads fun bytes => ?_
  split
  · exact reads_pure
  · exact reads_throw

theorem reads_readDocuments : ∀ (new : NewStates) (us : List Uri), Reads (c.readDocuments new us)
  | _, [] => reads_pure
  | _, u :: us => (c.reads_readDocument u).bindReads fun _ => reads_readDocuments _ us

theorem reads_readBegin (filePath : Path) : Reads (c.readBegin filePath) := by
  refine (reads_convert _).bindReads fun uri => ?_
  refine (reads_doc fun _ => rfl).bindReads fun content => ?_
  split
  · exact reads_pure
  · exact (reads_convert _).bindReads fun path => reads_pure

theorem reads_readFile (filePath : Path) (encoding : Encoding) :
    Reads (c.readFile filePath encoding) := by
  refine (c.reads_readBegin _).bindReads fun r => ?_
  split
  · exact reads_pure
  · exact c.reads_readText _ _

/-- Writing a file does nothing to the tracked documents, also where it fails. -/
theorem writeText_doc (p : Path) (content : Text) (encoding : Encoding) :
    SameDoc (c.writeText p content encoding) := by
  refine sameDoc_bind (os_doc _) fun l => ?_
  split
  · exact os_doc _
  · exact within_throw fun _ => rfl

section Telling

variable {R : World → World → Prop} (hrefl : ∀ w, R w w)
  (htrans : ∀ w₁ w₂ w₃, R w₁ w₂ → R w₂ w₃ → R w₁ w₃) (hnotify : ∀ msg, Within R (notify msg))

include hrefl htrans hnotify

/-- The server is told of a document: what a notification does at most, this does. -/
theorem within_tell (uri : Except UriError Uri) (msg : Uri → Notification) :
    Within R (convert uri >>= fun u => notify (msg u)) :=
  Within.bind htrans (within_of_reads hrefl (reads_convert _)) fun _ => hnotify _

theorem within_sendOpened : ∀ l : List (Uri × Text), Within R (c.sendOpened l)
  | [] => within_pure hrefl
  | _ :: l => Within.bind htrans (within_of_reads hrefl (reads_convert _)) fun _ =>
      Within.bind htrans (within_tell hrefl htrans hnotify _ _) fun _ => within_sendOpened l

theorem within_sendClosed : ∀ l : List Uri, Within R (c.sendClosed l)
  | [] => within_pure hrefl
  | _ :: l => Within.bind htrans (within_of_reads hrefl (reads_convert _)) fun _ =>
      Within.bind htrans (within_tell hrefl htrans hnotify _ _) fun _ => within_sendClosed l

end Telling

theorem sameDoc_tell (uri : Except UriError Uri) (msg : Uri → Notification) :
    SameDoc (convert uri >>= fun u => notify (msg u)) :=
  within_tell (R := fun w w' => w'.doc = w.doc) (fun _ => rfl) sameDoc_trans notify_doc uri msg

theorem sendOpened_doc (l : List (Uri × Text)) : SameDoc (c.sendOpened l) :=
  c.within_sendOpened (R := fun w w' => w'.doc = w.doc) (fun _ => rfl) sameDoc_trans notify_doc l

theorem sendClosed_doc (l : List Uri) : SameDoc (c.sendClosed l) :=
  c.within_sendClosed (R := fun w w' => w'.doc = w.doc) (fun _ => rfl) sameDoc_trans notify_doc l

/-- The state is updated whether or not the server is told. -/
theorem writeFinish_doc (u : Uri) (content : Text) (w : World) :
    (final (c.writeFinish u content) w).doc = (w.doc.updateContent u content).2 := by
  have hrest : ∀ version, SameDoc (match version with
      | some newVersion => do c.notifyTextDocumentChanged (← convert (c.fromUri u)) content newVersion
      | none => return ()) := by
    intro version
    cases version with
    | none => exact within_pure fun _ => rfl
    | some newVersion =>
      exact sameDoc_bind (sameDoc_reads (reads_convert _)) fun _ => sameDoc_tell _ _
  exact hrest _ _

theorem reads_writeBegin (uri : Uri) : Reads (c.writeBegin uri) :=
  (reads_convert _).bindReads fun _ => (reads_doc fun _ => rfl).bindReads fun _ => reads_pure

end Client

end Reads

/-! ### What an operation that returns has done -/

section Returned

open Actions

variable {α : Type} {w w' : World}

theorem os_ok {call : FileSystem → FileTree.Outcome Name Bytes α} {a : α}
    (h : os call w = .ok a w') :
    (call w.fs).result = .ok a ∧ w' = { w with fs := w.fs.apply (call w.fs).changes } := by
  unfold os at h
  simp only at h
  split at h
  · rename_i hr
    cases h
    exact ⟨hr, rfl⟩
  · cases h

theorem os_error {call : FileSystem → FileTree.Outcome Name Bytes α} {e : Exc}
    (h : os call w = .error e w') :
    ∃ cause, e = .osError cause ∧ (call w.fs).result = .error cause ∧
      w' = { w with fs := w.fs.apply (call w.fs).changes } := by
  unfold os at h
  simp only at h
  split at h
  · cases h
  · rename_i cause hr
    cases h
    exact ⟨cause, rfl, hr, rfl⟩

theorem doc_ok {method : DocumentStateManager → α × DocumentStateManager} {a : α}
    (h : doc method w = .ok a w') :
    a = (method w.doc).1 ∧ w' = { w with doc := (method w.doc).2 } := by
  cases h
  exact ⟨rfl, rfl⟩

theorem convert_ok {x : Except UriError α} {a : α} (h : convert x w = .ok a w') :
    x = .ok a ∧ w' = w := by
  cases x with
  | ok b => cases h; exact ⟨rfl, rfl⟩
  | error e => cases h

theorem convert_bind_ok {β : Type} {x : Except UriError α} {f : α → Op β} {b : β}
    (h : (convert x >>= f) w = .ok b w') : ∃ a, x = .ok a ∧ f a w = .ok b w' := by
  obtain ⟨a, w₁, ha, hf⟩ := bind_ok_elim h
  obtain ⟨hx, rfl⟩ := convert_ok ha
  exact ⟨a, hx, hf⟩

theorem notify_ok {msg : Notification} (h : notify msg w = .ok () w') : w' = w.sendAll [msg] := by
  unfold notify at h
  split at h
  · cases h
  · cases h
    rfl

namespace Client

variable {c : Client}

theorem fromUri_eq (u : Uri) : c.fromUri u = c.fromLocalUri u := by
  unfold fromUri fromLocalUri LspClient.fromUri
  cases LspClient.fromLocalUri c.netlocError u <;> rfl

/-- A URI and the path it denotes lead to each other. -/
def Canonical (c : Client) (u : Uri) : Prop := ∃ p, c.fromLocalUri u = .ok p ∧ c.asUri p = .ok u

/-- The URI of a path in the workspace leads back to it if there is no `%` in the path. -/
theorem canonical_asUri {p : Path} {u : Uri} (h : c.asUri p = .ok u) (habs : p.isAbsolute = true)
    (hp : '%' ∉ p.toText) : c.Canonical u := by
  have hu : p.asUri = .ok u := by
    unfold asUri LspClient.asUri at h
    rw [if_pos habs] at h
    cases hin : inWorkspace c.netlocError c.workspace p with
    | error e => rw [hin] at h; cases h
    | ok b =>
      rw [hin] at h
      cases b with
      | true => exact h
      | false => cases h
  exact ⟨p, fromLocalUri_asUri c.netlocError hu hp, h⟩

/-- A written file holds the encoded text. -/
theorem writeText_ok {p : Path} {content : Text} {encoding : Encoding}
    (h : c.writeText p content encoding w = .ok () w') :
    ∃ bytes, c.codecs.encode encoding content = some bytes ∧
      FileTree.fileAt (c.route p) w'.fs = some bytes ∧ w' = { w with fs := w'.fs } := by
  obtain ⟨l, w₁, ho, h⟩ := bind_ok_elim h
  obtain ⟨hopen, rfl⟩ := os_ok ho
  cases he : c.codecs.encode encoding content with
  | none => simp only [he] at h; cases h
  | some bytes =>
    simp only [he] at h
    obtain ⟨hwrite, rfl⟩ := os_ok h
    exact ⟨bytes, rfl, FileTree.fileAt_write hopen hwrite, rfl⟩

theorem readBegin_eq {p : Path} {v : Uri} (hv : c.asUri p = .ok v) :
    c.readBegin p w = (match w.doc.getContent v with
      | some content => (return .inl content : Op (Text ⊕ Path))
      | none => do return .inr (← convert (c.fromUri v))) w := by
  unfold readBegin
  rw [hv]
  rfl

/-- What `read_file` finds without a read is the tracked content. -/
theorem readBegin_ok {p : Path} {r : Text ⊕ Path} (h : c.readBegin p w = .ok r w') :
    ∃ v, c.asUri p = .ok v ∧ match r with
      | .inl content => w.doc.getContent v = some content
      | .inr _ => w.doc.getContent v = none := by
  obtain ⟨v, hv, -⟩ := convert_bind_ok h
  refine ⟨v, hv, ?_⟩
  rw [readBegin_eq hv] at h
  cases hcontent : w.doc.getContent v with
  | some content =>
    rw [hcontent] at h
    cases h
    rfl
  | none =>
    rw [hcontent] at h
    obtain ⟨path, w₂, -, hreturn⟩ := bind_ok_elim h
    cases hreturn
    rfl

/-- A tracked document is read from memory. -/
theorem readFile_tracked {p : Path} {v : Uri} {d : DocumentState} (hv : c.asUri p = .ok v)
    (hd : w.doc.states v = some d) (encoding : Encoding) :
    c.readFile p encoding w = .ok d.content w := by
  have hbegin : c.readBegin p w = .ok (.inl d.content) w := by
    rw [readBegin_eq hv, DocumentStateManager.getContent, hd]
    rfl
  unfold readFile
  rw [bind_eq_ok hbegin]
  rfl

/-- Any other document is read from the disk, at the path its URI leads back to. -/
theorem readFile_untracked {p q : Path} {v : Uri} (hv : c.asUri p = .ok v)
    (hd : w.doc.states v = none) (hq : c.fromLocalUri v = .ok q) (encoding : Encoding) :
    c.readFile p encoding w = c.readText q encoding w := by
  have hbegin : c.readBegin p w = .ok (.inr q) w := by
    rw [readBegin_eq hv, DocumentStateManager.getContent, hd, fromUri_eq, hq]
    rfl
  unfold readFile
  rw [bind_eq_ok hbegin]

/-- What is read in text mode is the decoded bytes with universal newlines. -/
theorem readText_ok {p : Path} {encoding : Encoding} {content : Text}
    (h : c.readText p encoding w = .ok content w') : ∃ bytes t,
      FileTree.fileAt (c.route p) w.fs = some bytes ∧ c.codecs.decode encoding bytes = some t ∧
      content = universalNewlines t := by
  obtain ⟨bytes, hread, h⟩ := (reads_os (FileTree.read_changes _)).bind_ok h
  obtain ⟨hbytes, -⟩ := os_ok hread
  refine ⟨bytes, ?_⟩
  cases hdec : c.codecs.decode encoding bytes with
  | none =>
    simp only [hdec] at h
    cases h
  | some t =>
    simp only [hdec] at h
    cases h
    exact ⟨t, FileTree.read_ok hbytes, rfl, rfl⟩

theorem writeBegin_ok {u : Uri} {r : Path × Encoding} (h : c.writeBegin u w = .ok r w') :
    c.fromLocalUri u = .ok r.1 ∧ r.2 = w.doc.getEncoding u ∧ w' = w := by
  obtain ⟨path, hpath, hrest⟩ := convert_bind_ok h
  cases hrest
  exact ⟨hpath, rfl, rfl⟩

/-- The state is updated and the server is told, if the document is tracked. -/
theorem writeFinish_ok {u : Uri} {content : Text} (h : c.writeFinish u content w = .ok () w') :
    match w.doc.states u with
    | some d => ∃ p v, c.fromLocalUri u = .ok p ∧ c.asUri p = .ok v ∧
        w' = ({ w with doc := (w.doc.updateContent u content).2 }).sendAll
          [.didChange v (d.version + 1) content]
    | none => w' = w := by
  obtain ⟨version, w₁, hupdate, hrest⟩ := bind_ok_elim h
  cases hupdate
  cases hs : w.doc.states u with
  | none =>
    simp only [DocumentStateManager.updateContent, hs] at hrest
    cases hrest
    rfl
  | some d =>
    simp only [DocumentStateManager.updateContent, hs] at hrest ⊢
    obtain ⟨p, hp, hrest⟩ := convert_bind_ok hrest
    obtain ⟨v, hv, hsend⟩ := convert_bind_ok hrest
    exact ⟨p, v, fromUri_eq u ▸ hp, hv, notify_ok hsend⟩

/-- `write_file` writes the file, and brings the state and the server up to
date if the document is tracked. -/
theorem writeFile_ok {u : Uri} {content : Text} (h : c.writeFile u content w = .ok () w') :
    ∃ p bytes, c.fromLocalUri u = .ok p ∧
      c.codecs.encode (w.doc.getEncoding u) content = some bytes ∧
      FileTree.fileAt (c.route p) w'.fs = some bytes ∧
      match w.doc.states u with
      | some d => ∃ v, c.asUri p = .ok v ∧
          w' = (World.mk w'.fs (w.doc.updateContent u content).2 w.conn).sendAll
            [.didChange v (d.version + 1) content]
      | none => w' = { w with fs := w'.fs } := by
  obtain ⟨⟨p, encoding⟩, w₁, hbegin, hrest⟩ := bind_ok_elim h
  obtain ⟨hp, henc, rfl⟩ := writeBegin_ok hbegin
  simp only at henc hp
  obtain ⟨_, w₂, hwrite, hfinish⟩ := bind_ok_elim hrest
  obtain ⟨bytes, hbytes, hfile, hw₂⟩ := writeText_ok hwrite
  have hend := writeFinish_ok hfinish
  refine ⟨p, bytes, hp, henc ▸ hbytes, ?_⟩
  have hdoc : w₂.doc = w₁.doc := by rw [hw₂]
  have hconn : w₂.conn = w₁.conn := by rw [hw₂]
  rw [hdoc] at hend
  cases hs : w₁.doc.states u with
  | none =>
    rw [hs] at hend
    simp only at hend
    rw [hend]
    exact ⟨hfile, hw₂⟩
  | some d =>
    rw [hs] at hend
    obtain ⟨p', v, hp', hv, hw'⟩ := hend
    cases hp.symm.trans hp'
    rw [hw']
    exact ⟨hfile, v, hv, by rw [← hconn]; rfl⟩

/-! ### Opening and closing -/

theorem readDocument_ok {u : Uri} {d : DocumentState} (h : c.readDocument u w = .ok d w') :
    d.version = 0 := by
  obtain ⟨path, w₁, -, hrest⟩ := bind_ok_elim h
  obtain ⟨bytes, w₂, -, hrest⟩ := bind_ok_elim hrest
  cases hb : c.codecs.best bytes with
  | none => simp only [hb] at hrest; cases hrest
  | some r => simp only [hb] at hrest; cases hrest; rfl

/-- Every document that is read is new, at version 0. -/
theorem readDocuments_ok : ∀ {us : List Uri} {new new' : NewStates} {w w' : World},
    c.readDocuments new us w = .ok new' w' → w' = w ∧ ∀ u,
      if u ∈ us then ∃ d, new'.lookup u = some d ∧ d.version = 0
      else new'.lookup u = new.lookup u
  | [], _, _, _, _, h => by
    cases h
    exact ⟨rfl, fun u => by simp⟩
  | v :: vs, new, new', w, w', h => by
    obtain ⟨d, hd, hrest⟩ := (c.reads_readDocument v).bind_ok h
    obtain ⟨rfl, ih⟩ := readDocuments_ok hrest
    refine ⟨rfl, fun u => ?_⟩
    have hu := ih u
    by_cases hvs : u ∈ vs
    · rw [if_pos hvs] at hu
      rwa [if_pos (List.mem_cons_of_mem _ hvs)]
    · rw [if_neg hvs] at hu
      by_cases huv : u = v
      · subst huv
        rw [if_pos List.mem_cons_self]
        exact ⟨d, hu.trans (AList.lookup_insert new), readDocument_ok hd⟩
      · rw [if_neg (by simp [huv, hvs]), hu]
        exact AList.lookup_insert_ne huv

/-- What `open` returns is exactly what was not tracked, and is tracked now. -/
theorem openDocuments_ok {uris : List Uri} {new : NewStates}
    (h : c.openDocuments uris w = .ok new w') : w' = { w with doc := w'.doc } ∧ ∀ u,
      w'.doc.states u = (new.lookup u).or (w.doc.states u) ∧
      if u ∈ uris ∧ w.doc.states u = none then ∃ d, new.lookup u = some d ∧ d.version = 0
      else new.lookup u = none := by
  obtain ⟨newUris, w₁, hbegin, hrest⟩ := bind_ok_elim h
  obtain ⟨hnew, rfl⟩ := doc_ok hbegin
  have hmem : ∀ u, u ∈ newUris ↔ u ∈ uris ∧ w.doc.states u = none := fun u => by
    simp [hnew, DocumentStateManager.openBegin]
  by_cases hnil : newUris = []
  · rw [if_pos hnil] at hrest
    cases hrest
    refine ⟨rfl, fun u => ⟨rfl, ?_⟩⟩
    rw [if_neg fun hu => by rw [← hmem, hnil] at hu; cases hu]
    rfl
  · rw [if_neg hnil] at hrest
    obtain ⟨read, w₂, hread, hrest⟩ := bind_ok_elim hrest
    obtain ⟨rfl, hlook⟩ := readDocuments_ok hread
    cases hrest
    refine ⟨rfl, fun u => ⟨rfl, ?_⟩⟩
    have hu := hlook u
    by_cases hun : u ∈ uris ∧ w.doc.states u = none
    · rw [if_pos ((hmem u).mpr hun)] at hu
      rwa [if_pos hun]
    · rw [if_neg (mt (hmem u).mp hun)] at hu
      rw [if_neg hun, hu]
      rfl

/-- What `open` returns was asked for and not tracked, and is at version 0. -/
theorem openDocuments_fresh {uris : List Uri} {new : NewStates} {u : Uri} {d : DocumentState}
    (h : c.openDocuments uris w = .ok new w') (hd : new.lookup u = some d) :
    u ∈ uris ∧ w.doc.states u = none ∧ d.version = 0 := by
  have hu := ((openDocuments_ok h).2 u).2
  split_ifs at hu with hin
  · obtain ⟨d', hd', hv⟩ := hu
    cases hd.symm.trans hd'
    exact ⟨hin.1, hin.2, hv⟩
  · rw [hu] at hd
    cases hd

/-- The server is told of the document of a URI, under the URI of its path, and then of others. -/
theorem tell_next_ok {u : Uri} {msg : Uri → Notification} {rest : Op Unit}
    (h : (convert (c.fromLocalUri u) >>= fun p =>
      (convert (c.asUri p) >>= fun v => notify (msg v)) >>= fun _ => rest) w = .ok () w') :
    ∃ p v, c.fromLocalUri u = .ok p ∧ c.asUri p = .ok v ∧ rest (w.sendAll [msg v]) = .ok () w' := by
  obtain ⟨p, hp, hsends⟩ := convert_bind_ok h
  obtain ⟨_, w₂, hsend, hrest⟩ := bind_ok_elim hsends
  obtain ⟨v, hv, hnotify⟩ := convert_bind_ok hsend
  exact ⟨p, v, hp, hv, notify_ok hnotify ▸ hrest⟩

theorem Canonical.eq_of_ok {u v : Uri} {p : Path} (h : c.Canonical u) (hp : c.fromLocalUri u = .ok p)
    (hv : c.asUri p = .ok v) : v = u := by
  obtain ⟨p', hp', hu⟩ := h
  cases hp.symm.trans hp'
  cases hu.symm.trans hv
  rfl

/-- The URI under which the server is told of a document: that of the path it leads to. -/
def told (c : Client) (u : Uri) : Uri :=
  match c.fromLocalUri u with
  | .ok p =>
    match c.asUri p with
    | .ok v => v
    | .error _ => u
  | .error _ => u

theorem told_eq {u v : Uri} {p : Path} (hp : c.fromLocalUri u = .ok p) (hv : c.asUri p = .ok v) :
    c.told u = v := by
  simp only [told, hp, hv]

theorem Canonical.told {u : Uri} (h : c.Canonical u) : c.told u = u := by
  obtain ⟨p, hp, hv⟩ := h
  exact told_eq hp hv

theorem sendOpened_told : ∀ {l : List (Uri × Text)} {w w' : World}, c.sendOpened l w = .ok () w' →
    w' = w.sendAll (l.map fun e => .didOpen (c.told e.1) c.languageId 0 e.2)
  | [], w, _, h => by
    cases h
    exact w.sendAll_nil.symm
  | (u, content) :: rest, w, w', h => by
    obtain ⟨p, v, hp, hv, hrest⟩ := tell_next_ok h
    rw [sendOpened_told hrest, World.sendAll_append, List.map_cons, told_eq hp hv]
    rfl

theorem sendClosed_told : ∀ {l : List Uri} {w w' : World}, c.sendClosed l w = .ok () w' →
    w' = w.sendAll (l.map fun u => .didClose (c.told u))
  | [], w, _, h => by
    cases h
    exact w.sendAll_nil.symm
  | u :: rest, w, w', h => by
    obtain ⟨p, v, hp, hv, hrest⟩ := tell_next_ok h
    rw [sendClosed_told hrest, World.sendAll_append, List.map_cons, told_eq hp hv]
    rfl

/-- Each document of the list is announced under its URI. -/
theorem sendOpened_ok {l : List (Uri × Text)} (hcan : ∀ e ∈ l, c.Canonical e.1)
    (h : c.sendOpened l w = .ok () w') : w' = w.sendAll (l.map fun e => .didOpen e.1 c.languageId 0 e.2) := by
  rw [sendOpened_told h]
  exact congrArg _ (List.map_congr_left fun e he => by rw [(hcan e he).told])

theorem sendClosed_ok {l : List Uri} (hcan : ∀ u ∈ l, c.Canonical u) (h : c.sendClosed l w = .ok () w') :
    w' = w.sendAll (l.map .didClose) := by
  rw [sendClosed_told h]
  exact congrArg _ (List.map_congr_left fun u hu => by rw [(hcan u hu).told])

theorem asUris_ok : ∀ {ps : List Path} {us : List Uri} {w w' : World},
    (ps.mapM fun p => convert (c.asUri p)) w = .ok us w' →
    w' = w ∧ ∀ u ∈ us, ∃ p ∈ ps, c.asUri p = .ok u
  | [], us, w, w', h => by
    cases h
    exact ⟨rfl, fun u hu => by cases hu⟩
  | q :: qs, us, w, w', h => by
    rw [List.mapM_cons] at h
    obtain ⟨v, hv, hmap⟩ := convert_bind_ok h
    obtain ⟨vs, w₂, hvs, hrest⟩ := bind_ok_elim hmap
    obtain ⟨rfl, ih⟩ := asUris_ok hvs
    cases hrest
    refine ⟨rfl, fun u hu => ?_⟩
    rcases List.mem_cons.mp hu with rfl | hu
    · exact ⟨q, List.mem_cons_self, hv⟩
    · obtain ⟨p, hp, hpu⟩ := ih u hu
      exact ⟨p, List.mem_cons_of_mem _ hp, hpu⟩

/-- What entering a bracket does: what is in `new` was not tracked and is now,
at version 0, and is announced in some order. -/
structure Opens (c : Client) (w w' : World) (new : NewStates) (l : List (Uri × Text)) : Prop where
  perm : l.Perm new.contents
  world : w' = ({ w with doc := w'.doc }).sendAll
    (l.map fun e : Uri × Text => .didOpen e.1 c.languageId 0 e.2)
  states : ∀ u, w'.doc.states u = (new.lookup u).or (w.doc.states u)
  fresh : ∀ u d, new.lookup u = some d → d.version = 0 ∧ w.doc.states u = none ∧ c.Canonical u

theorem opens_nothing (w : World) : c.Opens w w ∅ [] where
  perm := List.Perm.refl _
  world := w.sendAll_nil.symm
  states _ := rfl
  fresh _ _ hd := by cases hd

theorem openFilesEnter_ok {order : Order} {ps : List Path} {us : List Uri}
    (hcan : ∀ p ∈ ps, ∀ u, c.asUri p = .ok u → c.Canonical u)
    (h : c.openFilesEnter order ps w = .ok us w') : ∃ new l, c.Opens w w' new l := by
  unfold openFilesEnter at h
  split at h
  · cases h
    exact ⟨_, _, opens_nothing w⟩
  · obtain ⟨uris, w₁, hmap, hrest⟩ := bind_ok_elim h
    obtain ⟨rfl, huris⟩ := asUris_ok hmap
    split at hrest
    · cases hrest
      exact ⟨_, _, opens_nothing _⟩
    · obtain ⟨new, w₂, hopen, hrest⟩ := bind_ok_elim hrest
      obtain ⟨hw₂, hstates⟩ := openDocuments_ok hopen
      obtain ⟨_, w₃, hsend, hrest⟩ := bind_ok_elim hrest
      cases hrest
      have hfresh : ∀ u d, new.lookup u = some d →
          d.version = 0 ∧ w₁.doc.states u = none ∧ c.Canonical u := by
        intro u d hd
        obtain ⟨hu, hnone, hv⟩ := openDocuments_fresh hopen hd
        obtain ⟨p, hp, hpu⟩ := huris u hu
        exact ⟨hv, hnone, hcan p hp u hpu⟩
      have hperm := order.perm new.contents
      have hw₃ := sendOpened_ok (fun e he => by
        obtain ⟨⟨u, d⟩, hd, rfl⟩ := List.mem_map.mp (hperm.mem_iff.mp he)
        exact (hfresh u d (AList.mem_lookup_iff.mpr hd)).2.2) hsend
      refine ⟨new, _, hperm, ?_, fun u => ?_, hfresh⟩
      · rw [hw₃, hw₂]
        rfl
      · rw [hw₃]
        exact (hstates u).1

/-- Leaving a bracket: what is closed is announced in some order. -/
theorem openFilesExit_ok {order : Order} {us : List Uri}
    (hcan : ∀ u, (w.doc.states u).isSome = true → c.Canonical u)
    (h : c.openFilesExit order us w = .ok () w') : ∃ closed : List Uri,
      w' = ({ w with doc := w'.doc }).sendAll (closed.map .didClose) ∧
      ∀ u, w'.doc.states u = if u ∈ closed then none else w.doc.states u := by
  unfold openFilesExit at h
  split at h
  · cases h
    exact ⟨[], w.sendAll_nil.symm, fun u => by simp⟩
  · obtain ⟨closed, w₁, hclose, hsend⟩ := bind_ok_elim h
    obtain ⟨rfl, rfl⟩ := doc_ok hclose
    have hperm := order.perm (w.doc.close us).1
    have hstates := w.doc.close_states us
    have hw' := sendClosed_ok (fun u hu =>
      hcan u ((hstates u).1 (hperm.mem_iff.mp hu))) hsend
    refine ⟨order.arrange (w.doc.close us).1, ?_, fun u => ?_⟩
    · rw [hw']
      rfl
    · rw [hw', World.sendAll_doc, (hstates u).2]
      simp only [hperm.mem_iff]

end Client

end Returned

/-! ### A small workspace -/

namespace Small

def ascii : Encoding := "ascii".toList

def decodeAscii (b : Bytes) : Option Text :=
  if b.all (·.toNat < 0x80) then some (b.map fun x => Char.ofNat x.toNat) else none

/-- The codecs, of a runtime that knows ASCII only. -/
def codecs : Codecs where
  best b := (decodeAscii b).map fun t => (t, ascii)
  encode _ t := if t.all (·.toNat < 0x80) then some (t.map fun c => c.toNat.toUInt8) else none
  decode _ b := decodeAscii b

theorem toUInt8_toNat {c : Char} (h : c.toNat < 0x80) : c.toNat.toUInt8.toNat = c.toNat :=
  UInt8.toNat_ofNat_of_lt' (by simp only [UInt8.size]; omega)

theorem decode_encode (e : Encoding) {t : Text} {b : Bytes} (h : codecs.encode e t = some b) :
    codecs.decode e b = some t := by
  simp only [codecs] at h ⊢
  split_ifs at h with ht
  cases h
  rw [List.all_eq_true] at ht
  have hlt : ∀ c ∈ t, c.toNat < 0x80 := fun c hc => by simpa using ht c hc
  have hall : (t.map fun c => c.toNat.toUInt8).all (·.toNat < 0x80) = true := by
    rw [List.all_map, List.all_eq_true]
    intro c hc
    simpa [toUInt8_toNat (hlt c hc)] using hlt c hc
  rw [decodeAscii, if_pos hall, List.map_map]
  congr 1
  conv_rhs => rw [← List.map_id t]
  refine List.map_congr_left fun c hc => ?_
  simp only [Function.comp, toUInt8_toNat (hlt c hc), Char.ofNat_toNat, id]

/-- A client in the directory `/ws`. -/
def client : Client where
  workspace := [⟨workspaceRootDir, ⟨"file:///ws".toList, "root".toList⟩⟩].toAList
  syncFile := true
  languageId := "python".toList
  codecs := codecs
  netlocError _ := none
  cwd := Path.ofText "/ws".toList

/-- The files of `/ws`, in a file system that refuses nothing. -/
def fileSystem (files : List (Name × Text)) : FileSystem where
  tree := (⟨[], .dir⟩ :: ⟨["ws".toList], .dir⟩ ::
    files.map fun f => ⟨["ws".toList, f.1], .file (f.2.map fun c => c.toNat.toUInt8)⟩).toAList
  deny _ _ := false
  torn _ _ b := b
  survivors _ _ _ := false

/-- A world with these files, in which nothing is open. -/
def world (files : List (Name × Text)) : World := ⟨fileSystem files, .empty, ⟨[], fun _ _ => none⟩⟩

/-- `file:///ws/a`. -/
def uriA : Uri := "file:///ws/a".toList

/-- The same world, with `/ws/a` tracked at version 0. -/
def opened (content : Text) : World :=
  { world [("a".toList, content)] with
    doc := ⟨fun u => if u = uriA then some ⟨content, 0, ascii⟩ else none,
      fun u => if u = uriA then some 1 else none⟩ }

theorem uriA_canonical : client.Canonical uriA := ⟨Path.ofText "/ws/a".toList, by decide, by decide⟩

end Small

end LspClient
