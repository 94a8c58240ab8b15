/-
# The capabilities a client advertises

A client class inherits from any number of mixins, in any order.
`build_client_capabilities` calls `cls.register_workspace_capability` and its
siblings, each of which runs along the method resolution order of the class by
`super()` calls: every mixin first lets the classes after it register and then
sets its own fields. One mixin, `WithRequestWorkspaceSymbolResolve`, does not go
on, so what the mixins after it would register is lost. Every mixin registers
just once exactly if none that registers a workspace capability comes after
that one (`mixins_advertise_iff`), and then the order does not matter.

The hierarchy is the repository's; the class itself is given by its bases.

Key definitions: `RepoClass`, `bases`, `mro`, `registrations`, `callMethod`,
`buildClientCapabilities`, `Advertises`.
Key theorems: `mem_ran`, `callMethod_apply`, `mixins_advertise_iff`, `resolve_drops`.
-/
import LspClient.Lib.Mro
import LspClient.Text

namespace LspClient
namespace Capabilities

open Mro

/-! ### The classes -/

/-- The classes of the repository that a client may inherit from, and theirs. -/
inductive RepoClass where
  | object
  | generic
  | protocol
  | abc
  | asyncContextManagerMixin
  | capabilityProtocol
  | capabilityClientProtocol
  | serverRequestHookProtocol
  | workspaceCapabilityProtocol
  | textDocumentCapabilityProtocol
  | notebookCapabilityProtocol
  | windowCapabilityProtocol
  | generalCapabilityProtocol
  | experimentalCapabilityProtocol
  | withApplyWorkspaceEdit
  | withDocumentDiagnostic
  | withWorkspaceDiagnostic
  | withNotifyDidChangeConfiguration
  | withNotifyDidChangeWorkspaceFolders
  | withNotifyDidCreateFiles
  | withNotifyDidDeleteFiles
  | withNotifyDidRenameFiles
  | withNotifyTextDocumentSynchronize
  | withRequestCallHierarchy
  | withRequestCodeAction
  | withRequestCompletion
  | withRequestDeclaration
  | withRequestDefinition
  | withRequestDocumentSymbol
  | withRequestExecuteCommand
  | withRequestHover
  | withRequestImplementation
  | withRequestInlayHint
  | withRequestInlineValue
  | withRequestReferences
  | withRequestRename
  | withRequestSignatureHelp
  | withRequestTypeDefinition
  | withRequestTypeHierarchy
  | withRequestWillCreateFiles
  | withRequestWillDeleteFiles
  | withRequestWillRenameFiles
  | withRequestWorkspaceSymbol
  | withRequestWorkspaceSymbolResolve
  | withReceiveLogMessage
  | withReceiveLogTrace
  | withReceivePublishDiagnostics
  | withReceiveShowMessage
  | withRespondApplyEdit
  | withRespondConfigurationRequest
  | withRespondInlayHintRefresh
  | withRespondRegisterCapability
  | withRespondShowDocumentRequest
  | withRespondShowMessageRequest
  | withRespondWorkspaceFoldersRequest
  | withRequestDenoCache
  | withRequestDenoPerformance
  | withRequestDenoReloadImportRegistries
  | withRequestDenoVirtualTextDocument
  | withRequestDenoTask
  | withRequestDenoTestRun
  | withRequestDenoTestRunCancel
  | withReceiveDenoRegistryStatus
  | withReceiveDenoTestModule
  | withReceiveDenoTestModuleDelete
  | withReceiveDenoTestRunProgress
  | client
  | pythonClientBase
  | rustClientBase
  | goClientBase
  | typeScriptClientBase
  | javaClientBase
  deriving DecidableEq, Repr

open RepoClass

namespace RepoClass

/-- All of them. -/
def all : List RepoClass := (List.range 72).map RepoClass.ofNat

theorem mem_all (c : RepoClass) : c ∈ all := by
  refine List.mem_map.mpr ⟨c.ctorIdx, List.mem_range.mpr ?_, RepoClass.ofNat_ctorIdx c⟩
  cases c <;> decide

instance {p : RepoClass → Prop} [DecidablePred p] : Decidable (∀ c, p c) :=
  decidable_of_iff (∀ c ∈ all, p c) ⟨fun h c => h c c.mem_all, fun h c _ => h c⟩

end RepoClass

/-- The bases of a mixin for one category of capabilities. -/
def mixin (category : RepoClass) : List RepoClass := [category, capabilityClientProtocol, protocol]

/-- The same, of one that also answers the server. -/
def hookMixin (category : RepoClass) : List RepoClass :=
  [category, serverRequestHookProtocol, capabilityClientProtocol, protocol]

/-- The same, of one that applies workspace edits. -/
def editMixin (category : RepoClass) : List RepoClass := [category, withApplyWorkspaceEdit, protocol]

/-- The bases of a class, as its definition lists them. -/
def bases : RepoClass → List RepoClass
  | object => []
  | generic => [object]
  | protocol => [generic]
  | abc => [object]
  | asyncContextManagerMixin => [object]
  | capabilityProtocol => [protocol]
  | capabilityClientProtocol => [protocol]
  | serverRequestHookProtocol => [capabilityProtocol, protocol]
  | workspaceCapabilityProtocol => [capabilityProtocol, protocol]
  | textDocumentCapabilityProtocol => [capabilityProtocol, protocol]
  | notebookCapabilityProtocol => [capabilityProtocol, protocol]
  | windowCapabilityProtocol => [capabilityProtocol, protocol]
  | generalCapabilityProtocol => [capabilityProtocol, protocol]
  | experimentalCapabilityProtocol => [capabilityProtocol, protocol]
  | withApplyWorkspaceEdit => [capabilityClientProtocol, protocol]
  | withDocumentDiagnostic => mixin textDocumentCapabilityProtocol
  | withWorkspaceDiagnostic => hookMixin workspaceCapabilityProtocol
  | withNotifyDidChangeConfiguration => mixin workspaceCapabilityProtocol
  | withNotifyDidChangeWorkspaceFolders => mixin workspaceCapabilityProtocol
  | withNotifyDidCreateFiles => mixin workspaceCapabilityProtocol
  | withNotifyDidDeleteFiles => mixin workspaceCapabilityProtocol
  | withNotifyDidRenameFiles => mixin workspaceCapabilityProtocol
  | withNotifyTextDocumentSynchronize => mixin textDocumentCapabilityProtocol
  | withRequestCallHierarchy => mixin textDocumentCapabilityProtocol
  | withRequestCodeAction => editMixin textDocumentCapabilityProtocol
  | withRequestCompletion => mixin textDocumentCapabilityProtocol
  | withRequestDeclaration => mixin textDocumentCapabilityProtocol
  | withRequestDefinition => mixin textDocumentCapabilityProtocol
  | withRequestDocumentSymbol => mixin textDocumentCapabilityProtocol
  | withRequestExecuteCommand => mixin workspaceCapabilityProtocol
  | withRequestHover => mixin textDocumentCapabilityProtocol
  | withRequestImplementation => mixin textDocumentCapabilityProtocol
  | withRequestInlayHint => mixin textDocumentCapabilityProtocol
  | withRequestInlineValue => mixin textDocumentCapabilityProtocol
  | withRequestReferences => mixin textDocumentCapabilityProtocol
  | withRequestRename => editMixin textDocumentCapabilityProtocol
  | withRequestSignatureHelp => mixin textDocumentCapabilityProtocol
  | withRequestTypeDefinition => mixin textDocumentCapabilityProtocol
  | withRequestTypeHierarchy => mixin textDocumentCapabilityProtocol
  | withRequestWillCreateFiles => editMixin workspaceCapabilityProtocol
  | withRequestWillDeleteFiles => editMixin workspaceCapabilityProtocol
  | withRequestWillRenameFiles => editMixin workspaceCapabilityProtocol
  | withRequestWorkspaceSymbol => mixin workspaceCapabilityProtocol
  | withRequestWorkspaceSymbolResolve => mixin workspaceCapabilityProtocol
  | withReceiveLogMessage => hookMixin windowCapabilityProtocol
  | withReceiveLogTrace => hookMixin windowCapabilityProtocol
  | withReceivePublishDiagnostics => hookMixin textDocumentCapabilityProtocol
  | withReceiveShowMessage => hookMixin windowCapabilityProtocol
  | withRespondApplyEdit => hookMixin workspaceCapabilityProtocol
  | withRespondConfigurationRequest => hookMixin workspaceCapabilityProtocol
  | withRespondInlayHintRefresh => hookMixin workspaceCapabilityProtocol
  | withRespondRegisterCapability => mixin serverRequestHookProtocol
  | withRespondShowDocumentRequest => hookMixin windowCapabilityProtocol
  | withRespondShowMessageRequest => hookMixin windowCapabilityProtocol
  | withRespondWorkspaceFoldersRequest => hookMixin workspaceCapabilityProtocol
  | withRequestDenoCache => mixin capabilityProtocol
  | withRequestDenoPerformance => mixin capabilityProtocol
  | withRequestDenoReloadImportRegistries => mixin capabilityProtocol
  | withRequestDenoVirtualTextDocument => mixin capabilityProtocol
  | withRequestDenoTask => mixin capabilityProtocol
  | withRequestDenoTestRun =>
    [experimentalCapabilityProtocol, capabilityProtocol, capabilityClientProtocol, protocol]
  | withRequestDenoTestRunCancel => mixin capabilityProtocol
  | withReceiveDenoRegistryStatus => mixin serverRequestHookProtocol
  | withReceiveDenoTestModule => mixin serverRequestHookProtocol
  | withReceiveDenoTestModuleDelete => mixin serverRequestHookProtocol
  | withReceiveDenoTestRunProgress => mixin serverRequestHookProtocol
  | client =>
    [withNotifyTextDocumentSynchronize, withRespondRegisterCapability, capabilityClientProtocol,
      asyncContextManagerMixin, abc]
  | pythonClientBase => [client, abc]
  | rustClientBase => [client, abc]
  | goClientBase => [client, abc]
  | typeScriptClientBase => [client, abc]
  | javaClientBase => [client, abc]

/-- The method resolution order of a class at most so deep in the hierarchy. -/
def mroWithin : ℕ → RepoClass → Option (List RepoClass)
  | 0, _ => none
  | n + 1, c =>
    ((bases c).mapM (mroWithin n)).bind fun orders =>
      (linearize (orders ++ [bases c])).map (c :: ·)

/-- `cls.__mro__`; no class is deeper than nine. -/
def mro (c : RepoClass) : List RepoClass := (mroWithin 9 c).getD []

/-- `__mro__` of a class with these bases, without the class itself; `none` is
the `TypeError` of bases that cannot be ordered. -/
def mroOf (bs : List RepoClass) : Option (List RepoClass) := linearize (bs.map mro ++ [bs])

theorem mro_exists : ∀ c, (mroWithin 9 c).isSome = true := by decide +kernel

/-! ### What the mixins register -/

/-- The methods `register_*_capability`. -/
inductive Category where
  | workspace
  | textDocument
  | notebookDocument
  | window
  | general
  | experimental
  deriving DecidableEq, Repr

instance {p : Category → Prop} [DecidablePred p] : Decidable (∀ k, p k) :=
  decidable_of_iff (p .workspace ∧ p .textDocument ∧ p .notebookDocument ∧ p .window ∧ p .general ∧
    p .experimental)
    ⟨fun ⟨hw, ht, hn, hi, hg, he⟩ k => by cases k <;> assumption, fun h => ⟨h _, h _, h _, h _, h _, h _⟩⟩

/-- The protocol that declares the method. -/
def Category.declaredBy : Category → RepoClass
  | .workspace => workspaceCapabilityProtocol
  | .textDocument => textDocumentCapabilityProtocol
  | .notebookDocument => notebookCapabilityProtocol
  | .window => windowCapabilityProtocol
  | .general => generalCapabilityProtocol
  | .experimental => experimentalCapabilityProtocol

/-- The attributes of `FileOperationClientCapabilities`. -/
inductive FileOperation where
  | didCreate
  | didRename
  | didDelete
  | willCreate
  | willRename
  | willDelete
  deriving DecidableEq, Repr

/-- The attributes that are set; those of `file_operations` each on its own, as
the mixins make it only where it is missing. -/
inductive Field where
  | diagnostics
  | didChangeConfiguration
  | workspaceFolders
  | fileOperations (operation : FileOperation)
  | executeCommand
  | symbol
  | applyEdit
  | workspaceEdit
  | configuration
  | inlayHint
  | diagnostic
  | synchronization
  | callHierarchy
  | codeAction
  | completion
  | declaration
  | definition
  | documentSymbol
  | hover
  | implementation
  | inlineValue
  | references
  | rename
  | signatureHelp
  | typeDefinition
  | typeHierarchy
  | showMessage
  | showDocument
  | testingApi
  deriving DecidableEq, Repr

/-- What an attribute is set to: `record` is a call of the attribute's class with
keyword arguments, `every` is the list of an enumeration's members. -/
inductive Value where
  | flag (b : Bool)
  | members (names : List Text)
  | every (enumeration : Text)
  | noArgument
  | argument (name : Text) (value rest : Value)
  deriving DecidableEq, Repr

def record (arguments : List (String × Value)) : Value :=
  arguments.foldr (fun a rest => .argument a.1.toList a.2 rest) .noArgument

def members (names : List String) : Value := .members (names.map String.toList)

def every (enumeration : String) : Value := .every enumeration.toList

/-- The body of a method: whether it calls `super()` first, and what it sets. -/
structure Body where
  callsSuper : Bool
  sets : List (Field × Value)
  deriving DecidableEq, Repr

def diagnosticClientCapabilities : Value := record [("related_document_support", .flag true),
  ("related_information", .flag true),
  ("tag_support", record [("value_set", every "DiagnosticTag")]),
  ("code_description_support", .flag true), ("data_support", .flag true)]

def showMessageRequestClientCapabilities : Value := record [("message_action_item",
  record [("additional_properties_support", .flag true)])]

def linkSupport : Value := record [("link_support", .flag true)]

def refreshSupport : Value := record [("refresh_support", .flag true)]

/-- A body that calls `super()` and sets one attribute. -/
def adds (field : Field) (value : Value) : Body := ⟨true, [(field, value)]⟩

/-- The same for an attribute of `file_operations`. -/
def addsOperation (operation : FileOperation) : Body := adds (.fileOperations operation) (.flag true)

/-- The classes that define `register_workspace_capability`. -/
def registerWorkspaceCapability : List (RepoClass × Body) :=
  [(workspaceCapabilityProtocol, ⟨false, []⟩),
    (withWorkspaceDiagnostic, adds .diagnostics refreshSupport),
    (withNotifyDidChangeConfiguration, adds .didChangeConfiguration (record [])),
    (withNotifyDidChangeWorkspaceFolders, adds .workspaceFolders (.flag true)),
    (withNotifyDidCreateFiles, addsOperation .didCreate),
    (withNotifyDidDeleteFiles, addsOperation .didDelete),
    (withNotifyDidRenameFiles, addsOperation .didRename),
    (withRequestExecuteCommand, adds .executeCommand (record [])),
    (withRequestWillCreateFiles, addsOperation .willCreate),
    (withRequestWillDeleteFiles, addsOperation .willDelete),
    (withRequestWillRenameFiles, addsOperation .willRename),
    (withRequestWorkspaceSymbol, adds .symbol (record [
      ("symbol_kind", record [("value_set", every "SymbolKind")]),
      ("tag_support", record [("value_set", every "SymbolTag")])])),
    (withRequestWorkspaceSymbolResolve, ⟨false, []⟩),
    (withRespondApplyEdit, ⟨true, [(.applyEdit, .flag true), (.workspaceEdit, record [
      ("document_changes", .flag true),
      ("resource_operations", members ["Create", "Rename", "Delete"]),
      ("failure_handling", members ["Undo"])])]⟩),
    (withRespondConfigurationRequest, adds .configuration (.flag true)),
    (withRespondInlayHintRefresh, adds .inlayHint refreshSupport),
    (withRespondWorkspaceFoldersRequest, adds .workspaceFolders (.flag true))]

/-- The classes that define `register_text_document_capability`. -/
def registerTextDocumentCapability : List (RepoClass × Body) :=
  [(textDocumentCapabilityProtocol, ⟨false, []⟩),
    (withDocumentDiagnostic, adds .diagnostic diagnosticClientCapabilities),
    (withNotifyTextDocumentSynchronize, adds .synchronization (record [("will_save", .flag true),
      ("will_save_wait_until", .flag true), ("did_save", .flag true)])),
    (withRequestCallHierarchy, adds .callHierarchy (record [])),
    (withRequestCodeAction, adds .codeAction (record [
      ("code_action_literal_support", record [("code_action_kind", record [
        ("value_set", every "CodeActionKind")])]),
      ("is_preferred_support", .flag true), ("disabled_support", .flag true),
      ("data_support", .flag true),
      ("resolve_support", record [("properties", members ["edit", "command"])])])),
    (withRequestCompletion, adds .completion (record [
      ("completion_item", record [("snippet_support", .flag true),
        ("resolve_support", record [("properties", members ["documentation", "additionalTextEdits"])])]),
      ("context_support", .flag true)])),
    (withRequestDeclaration, adds .declaration linkSupport),
    (withRequestDefinition, adds .definition linkSupport),
    (withRequestDocumentSymbol, adds .documentSymbol (record [
      ("symbol_kind", record [("value_set", every "SymbolKind")]),
      ("hierarchical_document_symbol_support", .flag true),
      ("tag_support", record [("value_set", every "SymbolTag")]), ("label_support", .flag true)])),
    (withRequestHover, adds .hover (record [("content_format", members ["Markdown", "PlainText"])])),
    (withRequestImplementation, adds .implementation linkSupport),
    (withRequestInlayHint, adds .inlayHint (record [("resolve_support", record [
      ("properties", members ["tooltip", "location", "label.tooltip", "label.location", "textEdits"])])])),
    (withRequestInlineValue, adds .inlineValue (record [])),
    (withRequestReferences, adds .references (record [])),
    (withRequestRename, adds .rename (record [("prepare_support", .flag true)])),
    (withRequestSignatureHelp, adds .signatureHelp (record [("context_support", .flag true),
      ("signature_information", record [
        ("documentation_format", members ["Markdown", "PlainText"]),
        ("parameter_information", record [("label_offset_support", .flag true)]),
        ("active_parameter_support", .flag true)])])),
    (withRequestTypeDefinition, adds .typeDefinition linkSupport),
    (withRequestTypeHierarchy, adds .typeHierarchy (record [])),
    (withReceivePublishDiagnostics, adds .diagnostic diagnosticClientCapabilities)]

/-- The classes that define `register_window_capability`. -/
def registerWindowCapability : List (RepoClass × Body) :=
  [(windowCapabilityProtocol, ⟨false, []⟩),
    (withReceiveLogMessage, ⟨true, []⟩),
    (withReceiveLogTrace, ⟨true, []⟩),
    (withReceiveShowMessage, adds .showMessage showMessageRequestClientCapabilities),
    (withRespondShowDocumentRequest, adds .showDocument (record [("support", .flag true)])),
    (withRespondShowMessageRequest, adds .showMessage showMessageRequestClientCapabilities)]

/-- The classes that define a method, with its body there. -/
def registrations : Category → List (RepoClass × Body)
  | .workspace => registerWorkspaceCapability
  | .textDocument => registerTextDocumentCapability
  | .notebookDocument => [(notebookCapabilityProtocol, ⟨false, []⟩)]
  | .window => registerWindowCapability
  | .general => [(generalCapabilityProtocol, ⟨false, []⟩)]
  | .experimental =>
    [(experimentalCapabilityProtocol, ⟨false, []⟩),
      (withRequestDenoTestRun, ⟨false, [(.testingApi, .flag true)]⟩)]

/-- What a class itself defines under the method's name. -/
def method (k : Category) (c : RepoClass) : Option Body := (registrations k).lookup c

/-! ### Registering -/

/-- The attributes of one category that are set. -/
abbrev Capability := Field → Option Value

/-- The attributes set by a body, one after the other. -/
def assign (cap : Capability) (sets : List (Field × Value)) : Capability :=
  sets.foldl (fun cap s => Function.update cap s.1 (some s.2)) cap

/-- The method looked up along the rest of the order, and called; `none` is the
`AttributeError` where no class has it. -/
def callMethod (k : Category) : List RepoClass → Capability → Option Capability
  | [], _ => none
  | c :: rest, cap =>
    match method k c with
    | none => callMethod k rest cap
    | some body =>
      if body.callsSuper then (callMethod k rest cap).map (assign · body.sets)
      else some (assign cap body.sets)

/-- `build_client_capabilities`, of a class with this method resolution order:
a category is left as it is made if the class is not of its protocol. -/
def buildClientCapabilities (order : List RepoClass) (k : Category) : Option Capability :=
  if k.declaredBy ∈ order then callMethod k order fun _ => none else some fun _ => none

/-! ### What is claimed of it, and when it is so -/

/-- What a class does with the method. -/
def stepOf (k : Category) (c : RepoClass) : Step :=
  match method k c with
  | none => .inherits
  | some body => if body.callsSuper then .goesOn else .stops

/-- The attributes that a class itself sets. -/
def setsOf (k : Category) (c : RepoClass) : List (Field × Value) :=
  match method k c with
  | none => []
  | some body => body.sets

/-- A class, other than the protocol, that registers capabilities of the category. -/
def Registers (k : Category) (c : RepoClass) : Prop := (method k c).isSome = true ∧ c ≠ k.declaredBy

instance (k : Category) (c : RepoClass) : Decidable (Registers k c) :=
  inferInstanceAs (Decidable (_ ∧ _))

/-- Capabilities are returned, and each mixin has registered just once, with
its attributes among them. -/
def Advertises (order : List RepoClass) : Prop :=
  ∀ k, ∃ cap, buildClientCapabilities order k = some cap ∧
    ∀ m ∈ order, Registers k m →
      (ran (stepOf k) order).count m = 1 ∧ ∀ s ∈ setsOf k m, cap s.1 = some s.2

/-- No mixin that registers a workspace capability comes after the one that
does not go on. -/
def ResolveLast (bs : List RepoClass) : Prop :=
  ∀ m, Registers .workspace m → ¬ [withRequestWorkspaceSymbolResolve, m].Sublist bs

instance (bs : List RepoClass) : Decidable (ResolveLast bs) := inferInstanceAs (Decidable (∀ _, _))

/-! ### The hierarchy -/

theorem mem_of_method {k : Category} {c : RepoClass} {body : Body} (h : method k c = some body) :
    (c, body) ∈ registrations k := by
  obtain ⟨l₁, l₂, hl, -⟩ := List.lookup_eq_some_iff.mp h
  rw [hl]
  exact List.mem_append_right _ List.mem_cons_self

theorem mem_of_mapM {f : RepoClass → Option (List RepoClass)} :
    ∀ {cs : List RepoClass} {orders : List (List RepoClass)}, cs.mapM f = some orders →
      (∀ c ∈ cs, ∃ order ∈ orders, f c = some order) ∧ ∀ order ∈ orders, ∃ c ∈ cs, f c = some order
  | [], _, h => by
    cases h
    exact ⟨nofun, nofun⟩
  | c :: cs, _, h => by
    rw [List.mapM_cons] at h
    obtain ⟨order, hc, h⟩ := Option.bind_eq_some_iff.mp h
    obtain ⟨orders, hcs, h⟩ := Option.bind_eq_some_iff.mp h
    cases h
    obtain ⟨hto, hfrom⟩ := mem_of_mapM hcs
    rw [List.forall_mem_cons, List.forall_mem_cons]
    refine ⟨⟨⟨order, List.mem_cons_self, hc⟩, fun x hx => ?_⟩, ⟨c, List.mem_cons_self, hc⟩, fun o ho => ?_⟩
    · obtain ⟨o, ho, hxo⟩ := hto x hx
      exact ⟨o, List.mem_cons_of_mem _ ho, hxo⟩
    · obtain ⟨x, hx, hxo⟩ := hfrom o ho
      exact ⟨x, List.mem_cons_of_mem _ hx, hxo⟩

section Orders

variable {n : ℕ} {b c : RepoClass} {l : List RepoClass}

/-- The order of a class is the class, and the merged orders of its bases. -/
theorem mroWithin_succ (h : mroWithin (n + 1) b = some l) : ∃ orders rest,
    (bases b).mapM (mroWithin n) = some orders ∧ linearize (orders ++ [bases b]) = some rest ∧
      l = b :: rest := by
  rw [mroWithin] at h
  obtain ⟨orders, horders, h⟩ := Option.bind_eq_some_iff.mp h
  obtain ⟨rest, hrest, rfl⟩ := Option.map_eq_some_iff.mp h
  exact ⟨orders, rest, horders, hrest, rfl⟩

theorem mem_mroWithin_self (h : mroWithin n b = some l) : b ∈ l := by
  cases n with
  | zero => cases h
  | succ n =>
    obtain ⟨_, _, -, -, rfl⟩ := mroWithin_succ h
    exact List.mem_cons_self

/-- What is in the order of a class is the class, or in the order of one of its bases. -/
theorem mem_mroWithin (h : mroWithin (n + 1) b = some l) (hc : c ∈ l) : c = b ∨
    ∃ b' ∈ bases b, ∃ l', mroWithin n b' = some l' ∧ c ∈ l' ∧ l'.Sublist l := by
  obtain ⟨orders, rest, horders, hrest, rfl⟩ := mroWithin_succ h
  obtain ⟨hto, hfrom⟩ := mem_of_mapM horders
  have hpart : ∀ order ∈ orders, order.Sublist (b :: rest) := fun order ho =>
    (merge_sublist hrest order (List.mem_append_left _ ho)).cons b
  rcases List.mem_cons.mp hc with rfl | hc
  · exact Or.inl rfl
  · right
    obtain ⟨s, hs, hcs⟩ := mem_merge hrest c hc
    rcases List.mem_append.mp hs with hs | hs
    · obtain ⟨b', hb', hl'⟩ := hfrom s hs
      exact ⟨b', hb', s, hl', hcs, hpart s hs⟩
    · rw [List.mem_singleton.mp hs] at hcs
      obtain ⟨order, ho, hl'⟩ := hto c hcs
      exact ⟨c, hcs, order, hl', mem_mroWithin_self hl', hpart order ho⟩

theorem mroWithin_mro (b : RepoClass) : mroWithin 9 b = some (mro b) := by
  obtain ⟨l, hl⟩ := Option.isSome_iff_exists.mp (mro_exists b)
  rw [mro, hl]
  rfl

theorem mem_mro (c : RepoClass) : c ∈ mro c := mem_mroWithin_self (mroWithin_mro c)

/-- What holds of the class itself and goes over from the order of a base holds
wherever the class is in the order. -/
theorem mro_induction {P : RepoClass → List RepoClass → Prop}
    (self : ∀ n l, mroWithin (n + 1) c = some l → P c l)
    (base : ∀ b, ∀ b' ∈ bases b, ∀ l l', l'.Sublist l → P b' l' → P b l) (hc : c ∈ mro b) :
    P b (mro b) := by
  have hwithin : ∀ n b l, mroWithin n b = some l → c ∈ l → P b l := by
    intro n
    induction n with
    | zero =>
      intro b l h
      cases h
    | succ n ih =>
      intro b l h hc
      rcases mem_mroWithin h hc with rfl | ⟨b', hb', l', hl', hc', hsub⟩
      · exact self n l h
      · exact base b b' hb' l l' hsub (ih b' l' hl' hc')
  exact hwithin 9 b _ (mroWithin_mro b) hc

end Orders

/-- A class that registers is of the protocol. -/
theorem declaredBy_base {k : Category} {c : RepoClass} (h : Registers k c) : k.declaredBy ∈ bases c := by
  have hall : ∀ k, ∀ p ∈ registrations k, p.1 = k.declaredBy ∨ k.declaredBy ∈ bases p.1 := by decide
  obtain ⟨body, hbody⟩ := Option.isSome_iff_exists.mp h.1
  exact (hall k _ (mem_of_method hbody)).resolve_left h.2

/-- No class inherits from a mixin that registers a workspace capability. -/
theorem bases_register : ∀ c, Registers .workspace c → ∀ b, c ∉ bases b := by decide +kernel

/-- The protocol comes after each class that registers. -/
theorem declared_after {b c : RepoClass} (hc : c ∈ mro b) {k : Category} (hr : Registers k c) :
    [c, k.declaredBy].Sublist (mro b) := by
  refine mro_induction (P := fun _ l => [c, k.declaredBy].Sublist l) (fun n l h => ?_)
    (fun _ _ _ _ _ hsub h => h.trans hsub) hc
  obtain ⟨orders, rest, -, hrest, rfl⟩ := mroWithin_succ h
  have hbases := merge_sublist hrest (bases c) (List.mem_append_right _ (List.mem_singleton.mpr rfl))
  exact (List.singleton_sublist.mpr (hbases.subset (declaredBy_base hr))).cons_cons c

/-- Workspace capabilities are not inherited from one mixin to another. -/
theorem registers_direct {b c : RepoClass} (hc : c ∈ mro b) (hr : Registers .workspace c) : c = b :=
  mro_induction (P := fun b _ => c = b) (fun _ _ _ => rfl)
    (fun b _ hb' _ _ _ h => absurd hb' (h ▸ bases_register c hr b)) hc

/-- The bodies that do not go on. -/
theorem stops_cases {k : Category} {c : RepoClass} (h : stepOf k c = .stops) : c = k.declaredBy ∨
    (k = .workspace ∧ c = withRequestWorkspaceSymbolResolve) ∨
    (k = .experimental ∧ c = withRequestDenoTestRun) := by
  have hall : ∀ k, ∀ p ∈ registrations k, p.2.callsSuper = false → p.1 = k.declaredBy ∨
      (k = .workspace ∧ p.1 = withRequestWorkspaceSymbolResolve) ∨
      (k = .experimental ∧ p.1 = withRequestDenoTestRun) := by decide
  unfold stepOf at h
  cases hm : method k c with
  | none =>
    rw [hm] at h
    cases h
  | some body =>
    rw [hm] at h
    refine hall k _ (mem_of_method hm) ?_
    cases hsuper : body.callsSuper with
    | false => rfl
    | true =>
      simp only [hsuper, if_true] at h
      cases h

theorem registers_experimental {c : RepoClass} (h : Registers .experimental c) :
    c = withRequestDenoTestRun := by
  have hall : ∀ p ∈ registrations .experimental, p.1 = Category.declaredBy .experimental ∨
      p.1 = withRequestDenoTestRun := by decide
  obtain ⟨body, hbody⟩ := Option.isSome_iff_exists.mp h.1
  exact (hall _ (mem_of_method hbody)).resolve_left h.2

theorem declaredBy_stops : ∀ k : Category, stepOf k k.declaredBy = .stops ∧ setsOf k k.declaredBy = [] := by
  decide

/-- Two classes that set the same attribute set it to the same value. -/
theorem sets_agree : ∀ k, ((registrations k).flatMap (·.2.sets)).Pairwise fun s t =>
    s.1 = t.1 → s.2 = t.2 := by
  decide +kernel

theorem mem_setsOf {k : Category} {c : RepoClass} {s : Field × Value} (hs : s ∈ setsOf k c) :
    s ∈ (registrations k).flatMap (·.2.sets) := by
  rw [setsOf] at hs
  rcases hm : method k c with _ | body
  · rw [hm] at hs
    cases hs
  · rw [hm] at hs
    exact List.mem_flatMap.mpr ⟨(c, body), mem_of_method hm, hs⟩

theorem setsOf_agree {k : Category} {c c' : RepoClass} {s t : Field × Value} (hs : s ∈ setsOf k c)
    (ht : t ∈ setsOf k c') (h : s.1 = t.1) : s.2 = t.2 := by
  have hflip := (sets_agree k).imp fun {a b} hab (hba : b.1 = a.1) => (hab hba.symm).symm
  exact (sets_agree k).forall_of_forall_of_flip (fun _ _ _ => rfl) hflip (mem_setsOf hs) (mem_setsOf ht) h

theorem registers_of_mem {k : Category} {c : RepoClass} {s : Field × Value} (hs : s ∈ setsOf k c) :
    Registers k c := by
  refine ⟨?_, ?_⟩
  · by_contra hnone
    rw [setsOf, Option.not_isSome_iff_eq_none.mp hnone] at hs
    cases hs
  · rintro rfl
    rw [(declaredBy_stops k).2] at hs
    cases hs

theorem registers_step {k : Category} {c : RepoClass} (h : Registers k c) : stepOf k c ≠ .inherits := by
  obtain ⟨body, hbody⟩ := Option.isSome_iff_exists.mp h.1
  obtain ⟨callsSuper, sets⟩ := body
  rw [stepOf, hbody]
  cases callsSuper <;> simp

theorem resolve_registers : Registers .workspace withRequestWorkspaceSymbolResolve := by decide

theorem resolve_stops : stepOf .workspace withRequestWorkspaceSymbolResolve = .stops := by decide

/-! ### The order of a class -/

theorem mroOf_nodup {bs l : List RepoClass} (h : mroOf bs = some l) : l.Nodup := merge_nodup h

theorem bases_sublist {bs l : List RepoClass} (h : mroOf bs = some l) : bs.Sublist l :=
  merge_sublist h bs (by simp)

theorem mro_sublist {bs l : List RepoClass} (h : mroOf bs = some l) {b : RepoClass} (hb : b ∈ bs) :
    (mro b).Sublist l :=
  merge_sublist h _ (List.mem_append_left _ (List.mem_map_of_mem hb))

theorem mem_mroOf {bs l : List RepoClass} (h : mroOf bs = some l) (c : RepoClass) :
    c ∈ l ↔ ∃ b ∈ bs, c ∈ mro b := by
  constructor
  · intro hc
    obtain ⟨s, hs, hcs⟩ := mem_merge h c hc
    rcases List.mem_append.mp hs with hs | hs
    · obtain ⟨b, hb, rfl⟩ := List.mem_map.mp hs
      exact ⟨b, hb, hcs⟩
    · rw [List.mem_singleton.mp hs] at hcs
      exact ⟨c, hcs, mem_mro c⟩
  · rintro ⟨b, hb, hc⟩
    exact (mro_sublist h hb).subset hc

/-- The protocol of a category comes after each class that registers. -/
theorem registers_before {bs l : List RepoClass} (h : mroOf bs = some l) {k : Category} {m : RepoClass}
    (hm : m ∈ l) (hr : Registers k m) : [m, k.declaredBy].Sublist l := by
  obtain ⟨b, hb, hmb⟩ := (mem_mroOf h m).mp hm
  exact (declared_after hmb hr).trans (mro_sublist h hb)

theorem registers_base {bs l : List RepoClass} (h : mroOf bs = some l) {m : RepoClass} (hm : m ∈ l)
    (hr : Registers .workspace m) : m ∈ bs := by
  obtain ⟨b, hb, hmb⟩ := (mem_mroOf h m).mp hm
  exact registers_direct hmb hr ▸ hb

/-- **A mixin registers exactly if it is not a workspace mixin behind the one
that does not go on.** -/
theorem mem_ran {bs l : List RepoClass} (h : mroOf bs = some l) {k : Category} {m : RepoClass}
    (hm : m ∈ l) (hr : Registers k m) :
    m ∈ ran (stepOf k) l ↔
      (k = .workspace → ¬ [withRequestWorkspaceSymbolResolve, m].Sublist bs) := by
  have hnodup := mroOf_nodup h
  rw [mem_ran_iff (stepOf k) hnodup]
  constructor
  · rintro ⟨-, -, hbefore⟩ rfl hpair
    exact hbefore _ (hpair.trans (bases_sublist h)) resolve_stops
  · intro hlast
    refine ⟨hm, registers_step hr, fun x hx hstops => ?_⟩
    rcases stops_cases hstops with rfl | ⟨rfl, rfl⟩ | ⟨rfl, rfl⟩
    · exact pair_asymm hnodup (registers_before h hm hr) hx
    · -- both are among the bases, in the same order
      have hres : withRequestWorkspaceSymbolResolve ∈ l := hx.subset List.mem_cons_self
      exact hlast rfl (pair_part hnodup (bases_sublist h) (registers_base h hres resolve_registers)
        (registers_base h hm hr) hx)
    · rw [registers_experimental hr] at hx
      exact pair_asymm hnodup hx hx

/-! ### What is set -/

theorem assign_other {f : Field} : ∀ {sets : List (Field × Value)} {cap : Capability},
    (∀ s ∈ sets, s.1 ≠ f) → assign cap sets f = cap f
  | [], _, _ => rfl
  | s :: sets, cap, h => by
    rw [assign, List.foldl_cons, ← assign, assign_other fun t ht => h t (List.mem_cons_of_mem _ ht)]
    exact Function.update_of_ne (h s List.mem_cons_self).symm _ _

theorem assign_mem : ∀ {sets : List (Field × Value)} {cap : Capability},
    (∀ s ∈ sets, ∀ t ∈ sets, s.1 = t.1 → s.2 = t.2) →
      ∀ s ∈ sets, assign cap sets s.1 = some s.2
  | [], _, _, s, hs => by cases hs
  | t :: sets, cap, h, s, hs => by
    rw [assign, List.foldl_cons, ← assign]
    by_cases hlater : ∃ u ∈ sets, u.1 = s.1
    · obtain ⟨u, hu, hus⟩ := hlater
      have hagree : ∀ a ∈ sets, ∀ b ∈ sets, a.1 = b.1 → a.2 = b.2 := fun a ha b hb =>
        h a (List.mem_cons_of_mem _ ha) b (List.mem_cons_of_mem _ hb)
      rw [← hus, assign_mem hagree u hu, h u (List.mem_cons_of_mem _ hu) s hs hus]
    · push Not at hlater
      rw [assign_other hlater]
      rcases List.mem_cons.mp hs with rfl | hin
      · exact Function.update_self _ _ _
      · exact absurd rfl (hlater s hin)

/-- What these classes set, the last of them first. -/
def registered (k : Category) (cs : List RepoClass) (cap : Capability) : Capability :=
  cs.foldr (fun c cap => assign cap (setsOf k c)) cap

/-- A call of the method is the run of the bodies reached. -/
theorem callMethod_apply {k : Category} {cap : Capability} : ∀ {l : List RepoClass},
    (∃ c ∈ l, stepOf k c = .stops) → callMethod k l cap = some (registered k (ran (stepOf k) l) cap)
  | [], h => by simp at h
  | c :: rest, h => by
    have ih : (∃ c ∈ rest, stepOf k c = .stops) →
        callMethod k rest cap = some (registered k (ran (stepOf k) rest) cap) := callMethod_apply
    rw [callMethod, ran]
    rcases hm : method k c with _ | ⟨_ | _, sets⟩
    · have hstep : stepOf k c = .inherits := by rw [stepOf, hm]
      rw [hstep]
      exact ih (by simpa [hstep] using h)
    · have hstep : stepOf k c = .stops := by rw [stepOf, hm]; rfl
      rw [hstep]
      simp [registered, setsOf, hm]
    · have hstep : stepOf k c = .goesOn := by rw [stepOf, hm]; rfl
      rw [hstep]
      simp [registered, setsOf, hm, ih (by simpa [hstep] using h)]

theorem registered_mem {k : Category} {cap : Capability} {s : Field × Value} : ∀ {cs : List RepoClass},
    (∃ c ∈ cs, s ∈ setsOf k c) → registered k cs cap s.1 = some s.2
  | [], h => by simp at h
  | c :: cs, h => by
    obtain ⟨c', hc', hs⟩ := h
    change assign (registered k cs cap) (setsOf k c) s.1 = some s.2
    by_cases hhere : ∃ t ∈ setsOf k c, t.1 = s.1
    · obtain ⟨t, ht, hts⟩ := hhere
      rw [← hts, assign_mem (fun _ ha _ hb => setsOf_agree ha hb) t ht, setsOf_agree ht hs hts]
    · push Not at hhere
      rw [assign_other hhere]
      rcases List.mem_cons.mp hc' with rfl | hin
      · exact absurd rfl (hhere s hs)
      · exact registered_mem ⟨c', hin, hs⟩

theorem registered_other {k : Category} {cap : Capability} {f : Field} : ∀ {cs : List RepoClass},
    (∀ c ∈ cs, ∀ s ∈ setsOf k c, s.1 ≠ f) → registered k cs cap f = cap f
  | [], _ => rfl
  | c :: cs, h => by
    change assign (registered k cs cap) (setsOf k c) f = cap f
    rw [assign_other (h c List.mem_cons_self),
      registered_other fun c' hc' => h c' (List.mem_cons_of_mem _ hc')]

/-- What is set depends on which mixins register, not on their order. -/
theorem registered_congr {k : Category} {cap : Capability} {cs cs' : List RepoClass}
    (h : ∀ c, Registers k c → (c ∈ cs ↔ c ∈ cs')) : registered k cs cap = registered k cs' cap := by
  funext f
  by_cases hset : ∃ c ∈ cs, ∃ s ∈ setsOf k c, s.1 = f
  · obtain ⟨c, hc, s, hs, rfl⟩ := hset
    have hc' := (h c (registers_of_mem hs)).mp hc
    rw [registered_mem ⟨c, hc, hs⟩, registered_mem ⟨c, hc', hs⟩]
  · push Not at hset
    have hset' : ∀ c ∈ cs', ∀ s ∈ setsOf k c, s.1 ≠ f := fun c hc s hs =>
      hset c ((h c (registers_of_mem hs)).mpr hc) s hs
    rw [registered_other hset, registered_other hset']

/-- What is built, when the class is of the category's protocol. -/
theorem build_declared {order : List RepoClass} {k : Category} (h : k.declaredBy ∈ order) :
    buildClientCapabilities order k = some (registered k (ran (stepOf k) order) fun _ => none) := by
  rw [buildClientCapabilities, if_pos h, callMethod_apply ⟨_, h, (declaredBy_stops k).1⟩]

theorem build_undeclared {order : List RepoClass} {k : Category} (h : k.declaredBy ∉ order) :
    buildClientCapabilities order k = some fun _ => none := by
  rw [buildClientCapabilities, if_neg h]

/-- **Nothing is set in the general capabilities**, of any class. -/
theorem general_unset {order : List RepoClass} {cap : Capability}
    (h : buildClientCapabilities order .general = some cap) : cap = fun _ => none := by
  have hcall : ∀ l : List RepoClass, ∀ cap', callMethod .general l (fun _ => none) = some cap' →
      cap' = fun _ => none := by
    intro l
    induction l with
    | nil =>
      intro cap' h
      cases h
    | cons c l ih =>
      intro cap' h
      rw [callMethod] at h
      by_cases hc : c = generalCapabilityProtocol
      · subst hc
        exact (Option.some.inj h).symm
      · have hnone : method .general c = none := by
          show List.lookup c [(generalCapabilityProtocol, (⟨false, []⟩ : Body))] = none
          rw [List.lookup_cons, beq_false_of_ne hc]
          rfl
        rw [hnone] at h
        exact ih cap' h
  by_cases hin : Category.declaredBy .general ∈ order
  · rw [buildClientCapabilities, if_pos hin] at h
    exact hcall order cap h
  · rw [build_undeclared hin] at h
    exact (Option.some.inj h).symm

/-! ### The order of the mixins -/

theorem advertises_of_last {bs l : List RepoClass} (h : mroOf bs = some l) (hlast : ResolveLast bs) :
    Advertises l := by
  intro k
  by_cases hk : k.declaredBy ∈ l
  · refine ⟨_, build_declared hk, fun m hm hr => ?_⟩
    have hran : m ∈ ran (stepOf k) l := (mem_ran h hm hr).mpr fun hw => hlast m (hw ▸ hr)
    have hnodup := (ran_sublist (stepOf k) l).nodup (mroOf_nodup h)
    exact ⟨List.count_eq_one_of_mem hnodup hran, fun s hs => registered_mem ⟨m, hran, hs⟩⟩
  · refine ⟨_, build_undeclared hk, fun m hm hr => absurd ?_ hk⟩
    exact (registers_before h hm hr).subset (List.mem_cons_of_mem _ List.mem_cons_self)

theorem last_of_advertises {bs l : List RepoClass} (h : mroOf bs = some l) (ha : Advertises l) :
    ResolveLast bs := by
  intro m hr hpair
  have hm : m ∈ l := (hpair.trans (bases_sublist h)).subset (List.mem_cons_of_mem _ List.mem_cons_self)
  obtain ⟨_, -, hall⟩ := ha .workspace
  have hran : m ∈ ran (stepOf .workspace) l := List.count_pos_iff.mp (by rw [(hall m hm hr).1]; decide)
  exact (mem_ran h hm hr).mp hran rfl hpair

/-- The same mixins in another order. -/
theorem build_perm {bs bs' l l' : List RepoClass} (h : mroOf bs = some l) (h' : mroOf bs' = some l')
    (hperm : bs'.Perm bs) (hlast : ResolveLast bs) (hlast' : ResolveLast bs') :
    buildClientCapabilities l' = buildClientCapabilities l := by
  have hmem : ∀ c, c ∈ l' ↔ c ∈ l := fun c => by
    rw [mem_mroOf h, mem_mroOf h']
    exact exists_congr fun b => and_congr_left fun _ => hperm.mem_iff
  funext k
  by_cases hk : k.declaredBy ∈ l
  · rw [build_declared hk, build_declared ((hmem _).mpr hk)]
    refine congrArg some (registered_congr fun c hr => ?_)
    have hall : ∀ {bs l : List RepoClass}, mroOf bs = some l → ResolveLast bs →
        (c ∈ ran (stepOf k) l ↔ c ∈ l) := fun h hlast =>
      ⟨fun hin => (ran_sublist (stepOf k) _).subset hin,
        fun hin => (mem_ran h hin hr).mpr fun hw => hlast c (hw ▸ hr)⟩
    rw [hall h' hlast', hall h hlast, hmem]
  · rw [build_undeclared hk, build_undeclared (mt (hmem _).mp hk)]

/-- **Every mixin registers just once exactly if no workspace mixin comes after
`WithRequestWorkspaceSymbolResolve`; where none does, the order is indifferent.** -/
theorem mixins_advertise_iff {bs l : List RepoClass} (h : mroOf bs = some l) :
    (Advertises l ↔ ResolveLast bs) ∧
      ∀ bs' l', mroOf bs' = some l' → bs'.Perm bs → ResolveLast bs → ResolveLast bs' →
        buildClientCapabilities l' = buildClientCapabilities l :=
  ⟨⟨last_of_advertises h, advertises_of_last h⟩, fun _ _ h' hperm => build_perm h h' hperm⟩

/-- Symbols and the configuration, and the same the other way round. -/
theorem mixins_advertise_symbols :
    (Advertises ((mroOf [withRequestWorkspaceSymbol, withRespondConfigurationRequest, client]).getD []) ↔
        ResolveLast [withRequestWorkspaceSymbol, withRespondConfigurationRequest, client]) ∧
      buildClientCapabilities
          ((mroOf [withRespondConfigurationRequest, withRequestWorkspaceSymbol, client]).getD []) =
        buildClientCapabilities
          ((mroOf [withRequestWorkspaceSymbol, withRespondConfigurationRequest, client]).getD []) := by
  have h : mroOf [withRequestWorkspaceSymbol, withRespondConfigurationRequest, client] = some _ :=
    Option.eq_some_of_isSome (by decide +kernel)
  have h' : mroOf [withRespondConfigurationRequest, withRequestWorkspaceSymbol, client] = some _ :=
    Option.eq_some_of_isSome (by decide +kernel)
  obtain ⟨hiff, hsame⟩ := mixins_advertise_iff h
  have hsame := hsame _ _ h' (.swap _ _ _) (by decide +kernel) (by decide +kernel)
  rw [h, h']
  exact ⟨hiff, hsame⟩

/-- `WithRequestWorkspaceSymbolResolve` before `WithRespondConfigurationRequest`:
the configuration is not advertised, though it is in the other order. -/
theorem resolve_drops :
    (mroOf [withRequestWorkspaceSymbolResolve, withRespondConfigurationRequest, client]).isSome = true ∧
      ¬ Advertises
        ((mroOf [withRequestWorkspaceSymbolResolve, withRespondConfigurationRequest, client]).getD []) ∧
      buildClientCapabilities
          ((mroOf [withRequestWorkspaceSymbolResolve, withRespondConfigurationRequest, client]).getD []) ≠
        buildClientCapabilities
          ((mroOf [withRespondConfigurationRequest, withRequestWorkspaceSymbolResolve, client]).getD []) := by
  refine ⟨by decide +kernel, fun h => ?_, fun h => ?_⟩
  · obtain ⟨cap, hcap, hall⟩ := h .workspace
    have hcount := (hall withRespondConfigurationRequest (by decide +kernel) (by decide)).1
    revert hcount
    decide +kernel
  · have hfield := congrArg (fun build => (build .workspace).map fun cap => cap .configuration) h
    revert hfield
    decide +kernel

end Capabilities
end LspClient
