/-
# Code actions, asked for and applied

`request_code_action` asks for the code actions of a file inside its
`open_files` bracket, and its caller applies them after the bracket has been
left, one after the other. Their edits were made for the documents as they were
in the bracket: one that names the version of its document is checked against
what is tracked when its turn comes. By then the document is dropped, unless
another bracket holds it, and every text edit before has raised its version by
one. So the actions are refused exactly if the turn comes of a text edit with a
version that is of the dropped document, or follows another one of its own
(`actions_refused_iff`).

An action that has neither an edit nor a command is resolved first. One that
lacks the edit alone is not.

Key definitions: `CodeAction`, `applyCodeAction`, `applyCodeActions`,
`requestCodeAction`, `changesOf`, `Exc.isRefusal`.
Key theorems: `applyChange_refused_iff`, `version_actions`,
`actions_refused_iff`.
-/
import LspClient.Versions

namespace LspClient

/-- The version check of a text edit raises it. -/
def Exc.isRefusal : Exc → Bool
  | .versionMismatchError .. => true
  | .editApplicationError message (some uri) =>
    message = "Document ".toList ++ uri ++ " not open in client".toList
  | _ => false

namespace CodeActions

open ByteStream Actions Client Rename Versions Resources

/-- `lsp_type.Command`; `J` are the values of JSON. -/
structure Command (J : Type) where
  command : Text
  arguments : Option (List J)

/-- `lsp_type.CodeAction`; `disabled` is the reason given. -/
structure CodeAction (J : Type) where
  title : Text
  disabled : Option Text
  edit : Option WorkspaceEdit
  command : Option (Command J)
  data : Option J

/-- `Command | CodeAction`. -/
inductive Item (J : Type) where
  | command (item : Command J)
  | codeAction (item : CodeAction J)

/-- What applying code actions raises; `ε` is what a request raises. -/
inductive Raised (ε : Type) where
  | exc (e : Exc)
  | request (e : ε)
  | runtimeError (message : Text)

abbrev Act (ε : Type) := EStateM (Raised ε) World

/-- The server's part: the reply to `codeAction/resolve`, and what becomes of
`workspace/executeCommand`, during which the server can ask for edits. -/
structure Server (J ε : Type) where
  resolve : CodeAction J → Except ε (CodeAction J)
  execute : Command J → EStateM ε World Unit

variable {J ε α β : Type}

/-- `await`, with another type of exceptions. -/
def await {δ : Type} (raised : δ → Raised ε) (x : EStateM δ World α) : Act ε α := fun w =>
  match x w with
  | .ok a w' => .ok a w'
  | .error e w' => .error (raised e) w'

section Source

variable (c : Client) (server : Server J ε) (mixin : Bool)

/-- `request_code_action_resolve`. -/
def requestCodeActionResolve (item : CodeAction J) : Act ε (CodeAction J) :=
  match server.resolve item with
  | .ok item => pure item
  | .error e => throw (.request e)

/-- `getattr(self, "request_execute_command", None)`, and its call; `mixin` says
whether the client has `WithRequestExecuteCommand`. -/
def executeCommand (item : Command J) : Act ε Unit :=
  if mixin then await .request (server.execute item)
  else throw (.runtimeError
    "executeCommand capability not available. Include WithRequestExecuteCommand mixin.".toList)

/-- `if item.edit is not None: await self.apply_workspace_edit(item.edit)`. -/
def applyEdit : Option WorkspaceEdit → Act ε Unit
  | some edit => await .exc (c.applyWorkspaceEdit edit)
  | none => pure ()

/-- `apply_code_action` from `if item.command is not None` on. -/
def applyCommand : Option (Command J) → Act ε Unit
  | some command => executeCommand server mixin command
  | none => pure ()

/-- `apply_code_action` from the resolved action on. -/
def applyResolved (item : CodeAction J) : Act ε Unit := do
  applyEdit c item.edit
  applyCommand server mixin item.command

/-- `apply_code_action`. -/
def applyCodeAction : Item J → Act ε Unit
  | .command item => executeCommand server mixin item
  | .codeAction item =>
    if item.disabled.isSome then pure ()
    else if item.edit.isNone && item.command.isNone then do
      let item ← requestCodeActionResolve server item
      applyResolved c server mixin item
    else applyResolved c server mixin item

/-- `apply_code_actions`. -/
def applyCodeActions : List (Item J) → Act ε Unit := each (applyCodeAction c server mixin)

/-- `request_code_action`, with the reply of the server. -/
def requestCodeAction (order : Order) (filePath : Path) (reply : Option (List (Item J))) :
    Op (List (Item J)) := do
  let result ← c.withOpenFiles order [filePath] do
    let _ ← convert (c.asUri filePath)
    return reply
  return result.getD []

end Source

variable {c : Client} {server : Server J ε} {mixin : Bool} {u : Uri} {w w' : World}

/-! ### What is applied -/

/-- The action whose edit and command are taken, if there is one. -/
def resolved (server : Server J ε) : Item J → Option (CodeAction J)
  | .command _ => none
  | .codeAction item =>
    if item.disabled.isSome then none
    else if item.edit.isNone && item.command.isNone then (server.resolve item).toOption
    else some item

/-- The changes that the item stands for. -/
def changes (server : Server J ε) (item : Item J) : List DocumentChange :=
  (((resolved server item).bind (·.edit)).map changesOf).getD []

/-- The server executes commands without asking for edits meanwhile. -/
def KeepsDocs (server : Server J ε) : Prop :=
  ∀ command, Within (fun w w' => w'.doc = w.doc) (server.execute command)

theorem await_error {δ : Type} {raised : δ → Raised ε} {x : EStateM δ World α} {r : Raised ε} :
    await raised x w = .error r w' ↔ ∃ e, r = raised e ∧ x w = .error e w' := by
  unfold await
  cases x w with
  | ok a w₁ => exact ⟨nofun, nofun⟩
  | error e w₁ =>
    constructor
    · rintro ⟨⟩
      exact ⟨e, rfl, rfl⟩
    · rintro ⟨e, rfl, ⟨⟩⟩
      rfl

theorem await_ok {δ : Type} {raised : δ → Raised ε} {x : EStateM δ World α} {a : α} :
    await raised x w = .ok a w' ↔ x w = .ok a w' := by
  unfold await
  cases x w with
  | ok b w₁ => simp
  | error e w₁ => exact ⟨nofun, nofun⟩

/-- No command raises what an edit raises. -/
theorem executeCommand_exc (command : Command J) (e : Exc) :
    executeCommand server mixin command w ≠ .error (.exc e) w' := by
  intro h
  cases mixin with
  | false => cases h
  | true =>
    obtain ⟨_, hr, -⟩ := await_error.mp h
    cases hr

theorem executeCommand_doc (hexec : KeepsDocs server) {command : Command J}
    (h : executeCommand server mixin command w = .ok () w') : w'.doc = w.doc := by
  cases mixin with
  | false => cases h
  | true => exact (hexec command).of_ok (await_ok.mp h)

theorem applyCommand_exc (command : Option (Command J)) (e : Exc) :
    applyCommand server mixin command w ≠ .error (.exc e) w' := by
  cases command with
  | none => nofun
  | some command => exact executeCommand_exc command e

theorem applyCommand_doc (hexec : KeepsDocs server) {command : Option (Command J)}
    (h : applyCommand server mixin command w = .ok () w') : w'.doc = w.doc := by
  cases command with
  | none =>
    cases h
    rfl
  | some command => exact executeCommand_doc hexec h

/-- The changes of an edit are applied as they are. -/
theorem applyEdit_eq (edit : Option WorkspaceEdit) :
    (applyEdit c edit : Act ε Unit) =
      await .exc (c.applyDocumentChanges ((edit.map changesOf).getD [])) := by
  cases edit with
  | none => rfl
  | some edit => rw [applyEdit, applyWorkspaceEdit_eq, Option.map_some, Option.getD_some]

/-- The edit of an action is applied first, and what it raises is raised. -/
theorem applyResolved_exc_iff {item : CodeAction J} {e : Exc} :
    applyResolved c server mixin item w = .error (.exc e) w' ↔
      c.applyDocumentChanges ((item.edit.map changesOf).getD []) w = .error e w' := by
  rw [applyResolved, applyEdit_eq]
  constructor
  · intro h
    obtain hraise | ⟨_, w₁, -, hcommand⟩ := bind_error_elim h
    · obtain ⟨_, ⟨⟩, hedit⟩ := await_error.mp hraise
      exact hedit
    · exact absurd hcommand (applyCommand_exc _ e)
  · exact fun h => bind_eq_error (await_error.mpr ⟨e, rfl, h⟩)

/-- The documents are those that the edit of the action has left. -/
theorem applyResolved_ok (hexec : KeepsDocs server) {item : CodeAction J}
    (h : applyResolved c server mixin item w = .ok () w') :
    ∃ w₁, c.applyDocumentChanges ((item.edit.map changesOf).getD []) w = .ok () w₁ ∧
      w'.doc = w₁.doc := by
  rw [applyResolved, applyEdit_eq] at h
  obtain ⟨_, w₁, hedit, hcommand⟩ := bind_ok_elim h
  exact ⟨w₁, await_ok.mp hedit, applyCommand_doc hexec hcommand⟩

/-- An item is applied as its resolved action is, and raises for no edit if there is none. -/
theorem applyCodeAction_cases (c : Client) (server : Server J ε) (mixin : Bool) (item : Item J) (w : World) :
    (∃ action, resolved server item = some action ∧
      applyCodeAction c server mixin item w = applyResolved c server mixin action w) ∨
    resolved server item = none ∧ (∀ e w', applyCodeAction c server mixin item w ≠ .error (.exc e) w') ∧
      (KeepsDocs server → ∀ w', applyCodeAction c server mixin item w = .ok () w' → w'.doc = w.doc) := by
  cases item with
  | command item =>
    exact Or.inr ⟨rfl, fun e w' => executeCommand_exc item e, fun hexec w' h => executeCommand_doc hexec h⟩
  | codeAction item =>
    simp only [resolved, applyCodeAction]
    split_ifs
    · refine Or.inr ⟨rfl, fun e w' h => ?_, fun _ w' h => ?_⟩
      · cases h
      · cases h
        rfl
    · unfold requestCodeActionResolve
      cases server.resolve item with
      | ok action => exact Or.inl ⟨action, rfl, rfl⟩
      | error e =>
        refine Or.inr ⟨rfl, fun e w' h => ?_, fun _ w' h => ?_⟩
        · cases h
        · cases h
    · exact Or.inl ⟨item, rfl, rfl⟩

theorem changes_some {item : Item J} {action : CodeAction J} (h : resolved server item = some action) :
    changes server item = (action.edit.map changesOf).getD [] := by
  rw [changes, h, Option.bind_some]

theorem changes_none {item : Item J} (h : resolved server item = none) : changes server item = [] := by
  rw [changes, h]
  rfl

/-- **What the edit of an item raises.** -/
theorem applyCodeAction_exc_iff {item : Item J} {e : Exc} :
    applyCodeAction c server mixin item w = .error (.exc e) w' ↔
      c.applyDocumentChanges (changes server item) w = .error e w' := by
  obtain ⟨action, haction, hrun⟩ | ⟨hnone, hraise, -⟩ :=
    applyCodeAction_cases c server mixin item w
  · rw [hrun, changes_some haction, applyResolved_exc_iff]
  · rw [changes_none hnone]
    refine ⟨fun h => absurd h (hraise e w'), fun h => ?_⟩
    cases h

theorem applyCodeAction_ok (hexec : KeepsDocs server) {item : Item J}
    (h : applyCodeAction c server mixin item w = .ok () w') :
    ∃ w₁, c.applyDocumentChanges (changes server item) w = .ok () w₁ ∧ w'.doc = w₁.doc := by
  obtain ⟨action, haction, hrun⟩ | ⟨hnone, -, hdoc⟩ :=
    applyCodeAction_cases c server mixin item w
  · rw [changes_some haction]
    exact applyResolved_ok hexec (hrun.symm.trans h)
  · rw [changes_none hnone]
    exact ⟨w, rfl, hdoc hexec w' h⟩

/-! ### What raises a refusal -/

theorem usual_refusal : Usual fun e => e.isRefusal = false where
  osError _ := rfl
  uriError _ := rfl
  unicodeEncodeError := rfl
  unicodeDecodeError := rfl
  sendError _ := rfl
  editApplicationError message uri h := by
    cases uri with
    | none => rfl
    | some uri =>
      refine decide_eq_false fun hmessage => h ?_
      rw [hmessage]
      rfl

/-- The operation is not refused. -/
abbrev NoRefusal (x : Op α) : Prop := Raises (fun e : Exc => e.isRefusal = false) x

/-- What a version check raises is a refusal. -/
theorem checkVersion_refusal {uri : Uri} {version : Option ℤ} {e : Exc}
    (h : checkVersion uri version w = .error e w') : e.isRefusal = true := by
  cases version with
  | none => cases h
  | some n =>
    have hgiven : (doc fun m => (m.getVersion uri, m)) w = .ok (w.doc.getVersion uri) w := rfl
    rw [checkVersion, bind_eq_ok hgiven] at h
    cases hm : w.doc.getVersion uri with
    | none =>
      rw [hm] at h
      cases h
      simp [Exc.isRefusal]
    | some m =>
      simp only [hm] at h
      split_ifs at h with hne
      · cases h
        rfl
      · cases h

/-- **Only a text edit is refused**, and just if the version it names is not the tracked one. -/
theorem applyChange_refused_iff {change : DocumentChange} :
    (∃ e w', c.applyChange change w = .error e w' ∧ e.isRefusal = true) ↔
      ∃ edit n, change = .textDocumentEdit edit ∧ edit.version = some n ∧
        w.doc.getVersion edit.uri ≠ some n := by
  have hother : NoRefusal (c.applyChange change) →
      ¬ ∃ e w', c.applyChange change w = .error e w' ∧ e.isRefusal = true := by
    rintro hraises ⟨e, w', h, he⟩
    rw [hraises w e w' h] at he
    cases he
  cases change with
  | textDocumentEdit edit =>
    have hrest : NoRefusal (c.editedContent edit.uri edit.edits >>= fun newContent =>
        c.writeFile edit.uri newContent) :=
      (raises_editedContent usual_refusal _ _).bind fun _ => raises_writeFile usual_refusal _ _
    constructor
    · rintro ⟨e, w', h, he⟩
      obtain hcheck | ⟨_, w₁, -, hraise⟩ := bind_error_elim h
      · obtain ⟨n, hn, hne⟩ := checkVersion_raises_iff.mp ⟨e, w', hcheck⟩
        exact ⟨edit, n, rfl, hn, hne⟩
      · rw [hrest w₁ e w' hraise] at he
        cases he
    · rintro ⟨edit, n, ⟨⟩, hn, hne⟩
      obtain ⟨e, w₁, hcheck⟩ := checkVersion_raises_iff.mpr ⟨n, hn, hne⟩
      exact ⟨e, w₁, bind_eq_error hcheck, checkVersion_refusal hcheck⟩
  | createFile change => exact iff_of_false (hother (raises_createFile usual_refusal change)) nofun
  | renameFile change => exact iff_of_false (hother (raises_renameFile usual_refusal change)) nofun
  | deleteFile change => exact iff_of_false (hother (raises_deleteFile usual_refusal change)) nofun

/-! ### The turn of a text edit -/

theorem applyDocumentChanges_eq : ∀ changes : List DocumentChange,
    c.applyDocumentChanges changes = each c.applyChange changes
  | [] => rfl
  | change :: rest => congrArg (c.applyChange change >>= fun _ => ·) (applyDocumentChanges_eq rest)

/-- The turn of the text edit comes, and these are the changes applied before. -/
def Turn (c : Client) (server : Server J ε) (mixin : Bool) (items : List (Item J)) (w : World)
    (before : List DocumentChange) (edit : TextDocumentEdit) (w₂ : World) : Prop :=
  ∃ pre item post changesPre changesPost w₁, items = pre ++ item :: post ∧
    applyCodeActions c server mixin pre w = .ok () w₁ ∧
    changes server item = changesPre ++ .textDocumentEdit edit :: changesPost ∧
    c.applyDocumentChanges changesPre w₁ = .ok () w₂ ∧
    before = pre.flatMap (changes server) ++ changesPre

/-- **Actions are refused where the turn of a text edit comes whose version is not tracked.** -/
theorem refused_iff_turn {items : List (Item J)} :
    (∃ e w', applyCodeActions c server mixin items w = .error (.exc e) w' ∧ e.isRefusal = true) ↔
      ∃ before edit n w₂, Turn c server mixin items w before edit w₂ ∧ edit.version = some n ∧
        w₂.doc.getVersion edit.uri ≠ some n := by
  constructor
  · rintro ⟨e, w', h, he⟩
    obtain ⟨pre, item, post, w₁, rfl, hpre, hraise⟩ := each_error_iff.mp h
    rw [applyCodeAction_exc_iff, applyDocumentChanges_eq] at hraise
    obtain ⟨changesPre, change, changesPost, w₂, hchanges, hbefore, hraise⟩ := each_error_iff.mp hraise
    obtain ⟨edit, n, rfl, hn, hne⟩ := applyChange_refused_iff.mp ⟨e, w', hraise, he⟩
    rw [← applyDocumentChanges_eq] at hbefore
    exact ⟨_, edit, n, w₂, ⟨pre, item, post, changesPre, changesPost, w₁, rfl, hpre, hchanges, hbefore, rfl⟩,
      hn, hne⟩
  · rintro ⟨_, edit, n, w₂, ⟨pre, item, post, changesPre, changesPost, w₁, rfl, hpre, hchanges, hbefore, -⟩,
      hn, hne⟩
    obtain ⟨e, w', hraise, he⟩ := (applyChange_refused_iff (c := c)).mpr ⟨edit, n, rfl, hn, hne⟩
    refine ⟨e, w', each_error_iff.mpr ⟨pre, item, post, w₁, rfl, hpre, ?_⟩, he⟩
    rw [applyCodeAction_exc_iff, hchanges, applyDocumentChanges_eq]
    rw [applyDocumentChanges_eq] at hbefore
    exact each_error_iff.mpr ⟨changesPre, _, changesPost, w₂, rfl, hbefore, hraise⟩

/-- **Applied actions raise the version of a document by one for each text edit of it.** -/
theorem version_actions (hexec : KeepsDocs server) : ∀ {items : List (Item J)} {w : World},
    (∀ change ∈ items.flatMap (changes server), Alone u change) →
      applyCodeActions c server mixin items w = .ok () w' →
        w'.doc.getVersion u =
          (w.doc.getVersion u).map fun n => n + (editsOf u (items.flatMap (changes server)) : ℤ)
  | [], w, _, h => by
    cases h
    simp [editsOf]
  | item :: rest, w, hu, h => by
    rw [List.flatMap_cons] at hu ⊢
    obtain ⟨_, w₁, hitem, hrest⟩ := bind_ok_elim h
    obtain ⟨w₂, hchanges, hdoc⟩ := applyCodeAction_ok hexec hitem
    have hfirst := version_changes (fun change hc => hu change (List.mem_append_left _ hc)) hchanges
    rw [version_actions hexec (fun change hc => hu change (List.mem_append_right _ hc)) hrest, hdoc, hfirst,
      Option.map_map]
    refine Option.map_congr fun n _ => ?_
    rw [Function.comp, editsOf, editsOf, editsOf, List.countP_append]
    push_cast
    omega

/-- The version of a document when the turn of a text edit comes. -/
theorem Turn.version (hexec : KeepsDocs server) {items : List (Item J)} {before : List DocumentChange}
    {edit : TextDocumentEdit} {w₂ : World} (h : Turn c server mixin items w before edit w₂)
    (hu : ∀ change ∈ items.flatMap (changes server), Alone u change) :
    w₂.doc.getVersion u = (w.doc.getVersion u).map fun n => n + (editsOf u before : ℤ) := by
  obtain ⟨pre, item, post, changesPre, changesPost, w₁, rfl, hpre, hchanges, hbefore, rfl⟩ := h
  have hitem : ∀ change ∈ changesPre, Alone u change := fun change hc => hu change (by
    rw [List.flatMap_append, List.flatMap_cons, hchanges]
    simp [hc])
  rw [version_changes hitem hbefore, version_actions hexec (fun change hc => hu change (by
    rw [List.flatMap_append]
    exact List.mem_append_left _ hc)) hpre, Option.map_map]
  refine Option.map_congr fun n _ => ?_
  rw [Function.comp, editsOf, editsOf, editsOf, List.countP_append]
  push_cast
  omega

theorem Turn.mem {items : List (Item J)} {before : List DocumentChange} {edit : TextDocumentEdit}
    {w₂ : World} (h : Turn c server mixin items w before edit w₂) :
    .textDocumentEdit edit ∈ items.flatMap (changes server) := by
  obtain ⟨pre, item, post, changesPre, changesPost, w₁, rfl, -, hchanges, -, -⟩ := h
  rw [List.flatMap_append, List.flatMap_cons, hchanges]
  simp

/-! ### Asked for, and then applied -/

section Request

variable {order : Order} {filePath : Path} {reply : Option (List (Item J))} {items : List (Item J)}
  {uris : List Uri} {w₁ : World}

/-- A request that returns has left its bracket, and nothing else has happened. -/
theorem requestCodeAction_ok (henter : c.openFilesEnter order [filePath] w = .ok uris w₁)
    (h : requestCodeAction c order filePath reply w = .ok items w') :
    items = reply.getD [] ∧ c.openFilesExit order uris w₁ = .ok () w' := by
  obtain ⟨result, w₂, hbracket, hend⟩ := bind_ok_elim h
  cases hend
  unfold withOpenFiles at hbracket
  rw [bind_eq_ok henter, tryFinally_apply] at hbracket
  cases hbody : (do let _ ← convert (c.asUri filePath); return reply : Op (Option (List (Item J)))) w₁ with
  | error e w₃ =>
    simp only [hbody] at hbracket
    split at hbracket <;> cases hbracket
  | ok r w₃ =>
    obtain ⟨_, -, hr⟩ := (reads_convert _).bind_ok hbody
    cases hr
    simp only [hbody] at hbracket
    cases hexit : c.openFilesExit order uris w₁ with
    | error e w₃ =>
      rw [hexit] at hbracket
      cases hbracket
    | ok _ w₃ =>
      rw [hexit] at hbracket
      cases hbracket
      exact ⟨rfl, rfl⟩

/-- Each text edit that names a version names the one tracked in this world. -/
def NameTracked (server : Server J ε) (items : List (Item J)) (w : World) : Prop :=
  ∀ e, .textDocumentEdit e ∈ items.flatMap (changes server) → ∀ n, e.version = some n →
    w.doc.getVersion e.uri = some n

/-- Nothing but its text edits concerns a document that is edited. -/
def AreAlone (server : Server J ε) (items : List (Item J)) : Prop :=
  ∀ e, .textDocumentEdit e ∈ items.flatMap (changes server) →
    ∀ change ∈ items.flatMap (changes server), Alone e.uri change

/-- **Code actions whose versions are those tracked during their request are refused
exactly if the turn comes of a text edit with a version that is of the document which
only the request held open, or that follows another one of its document.** -/
theorem actions_refused_iff (henter : c.openFilesEnter order [filePath] w = .ok uris w₁)
    (hrequest : requestCodeAction c order filePath reply w = .ok items w')
    (hexec : KeepsDocs server) (hversions : NameTracked server items w₁) (halone : AreAlone server items) :
    (∃ e w₂, applyCodeActions c server mixin items w' = .error (.exc e) w₂ ∧ e.isRefusal = true) ↔
      ∃ before edit w₂, Turn c server mixin items w' before edit w₂ ∧ edit.version ≠ none ∧
        (Dropped c filePath w edit.uri ∨ 0 < editsOf edit.uri before) := by
  have hapart := docsApart_exit henter (requestCodeAction_ok henter hrequest).2
  -- the version that is tracked when the turn of a text edit comes
  have hturn : ∀ {before edit w₂ n}, Turn c server mixin items w' before edit w₂ → edit.version = some n →
      (w₂.doc.getVersion edit.uri ≠ some n ↔
        Dropped c filePath w edit.uri ∨ 0 < editsOf edit.uri before) := by
    intro before edit w₂ n hturn hn
    rw [hturn.version hexec (halone edit hturn.mem)]
    by_cases hdrop : Dropped c filePath w edit.uri
    · have hnone : w'.doc.getVersion edit.uri = none := by
        rw [DocumentStateManager.getVersion, hapart.gone _ hdrop]
        rfl
      rw [hnone]
      exact iff_of_true (Option.some_ne_none n).symm (Or.inl hdrop)
    · rw [getVersion_congr (hapart.same _ hdrop).symm, hversions edit hturn.mem n hn, Option.map_some,
        ne_eq, Option.some.injEq]
      constructor
      · exact fun hne => Or.inr (by omega)
      · rintro (hd | hbefore)
        · exact absurd hd hdrop
        · omega
  rw [refused_iff_turn]
  constructor
  · rintro ⟨before, edit, n, w₂, ht, hn, hne⟩
    exact ⟨before, edit, w₂, ht, by rw [hn]; exact Option.some_ne_none n, (hturn ht hn).mp hne⟩
  · rintro ⟨before, edit, w₂, ht, hnamed, hcause⟩
    obtain ⟨n, hn⟩ := Option.ne_none_iff_exists'.mp hnamed
    exact ⟨before, edit, n, w₂, ht, hn, (hturn ht hn).mpr hcause⟩

end Request

/-- A code action with one text edit of `/ws/a` at version 0, which does nothing. -/
def quickFix : Item Unit :=
  .codeAction ⟨"fix".toList, none, some ⟨some [.textDocumentEdit ⟨Small.uriA, some 0, []⟩], none⟩, none, none⟩

/-- A server whose commands do nothing. -/
def quietServer : Server Unit Unit := ⟨.ok, fun _ => pure ()⟩

/-- **The code action of a file that nobody else holds open** is refused when its
request has returned. -/
theorem actions_refused_alone : ∃ w', requestCodeAction Small.client .inOrder pathA (some [quickFix])
      (Small.world [("a".toList, "x".toList)]) = .ok [quickFix] w' ∧
    ∃ e w₂, applyCodeActions Small.client quietServer false [quickFix] w' = .error (.exc e) w₂ ∧
      e.isRefusal = true := by
  have henters : returned (Small.client.openFilesEnter .inOrder [pathA]
      (Small.world [("a".toList, "x".toList)])) (fun _ w => w.doc.getVersion Small.uriA) =
        some (some 0) := by decide +kernel
  have hreturns : returned (requestCodeAction Small.client .inOrder pathA (some [quickFix])
      (Small.world [("a".toList, "x".toList)])) (fun items _ => items.length) = some 1 := by decide +kernel
  obtain ⟨uris, w₁, henter, hversion⟩ := returned_some henters
  obtain ⟨items, w', hrequest, -⟩ := returned_some hreturns
  obtain rfl : items = [quickFix] := (requestCodeAction_ok henter hrequest).1
  have hedits : ∀ e, .textDocumentEdit e ∈ [quickFix].flatMap (changes quietServer) →
      e = ⟨Small.uriA, some 0, []⟩ := fun e he => by simpa using List.mem_singleton.mp he
  refine ⟨w', hrequest, (actions_refused_iff henter hrequest (fun _ _ => rfl) ?_ ?_).mpr
    ⟨[], ⟨Small.uriA, some 0, []⟩, w', ⟨[], quickFix, [], [], [], w', rfl, rfl, rfl, rfl, rfl⟩, nofun,
      Or.inl ⟨rfl, pathA_uri, by decide⟩⟩⟩
  · intro e he n hn
    obtain rfl := hedits e he
    cases hn
    exact hversion.symm
  · intro e _ change hchange
    cases List.mem_singleton.mp hchange
    exact trivial

end CodeActions
end LspClient
