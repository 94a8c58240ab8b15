/-
# Inspecting a server

`inspect_capabilities` sets side by side what a client class has and what a
server has, one row for each LSP method of the mixins that the package lists.
The column of the server is the check that `_initialize` makes of the mixin, so
a client can be initialised exactly if no row says that it has what the server
lacks, but for the one mixin with a check that is not listed (`inspect_agrees`).

A test asks for rows whose columns are the same. Most mixins of notifications
and of answers to the server check nothing, so their rows say that every server
has them; and two mixins check the same attribute. So there is a server for
which no row differs exactly if the client has all mixins that check nothing,
and both of those two or neither (`inspect_match_iff`).

Key definitions: `iterMethods`, `capabilities`, `inspectCapabilities`.
Key theorems: `inspectCapabilities_eq`, `inspect_agrees`, `inspect_match_iff`.
-/
import LspClient.Handlers

namespace LspClient
namespace Inspection

open Mro Capabilities RepoClass Handlers

/-- The classes that define `iter_methods`, with what each yields after what
`super()` does. -/
def iterMethods : List (RepoClass × List Text) :=
  [(withDocumentDiagnostic, ["textDocument/diagnostic"]),
    (withWorkspaceDiagnostic, ["workspace/diagnostic", "workspace/diagnostic/refresh"]),
    (withNotifyDidChangeConfiguration, ["workspace/didChangeConfiguration"]),
    (withNotifyDidChangeWorkspaceFolders, ["workspace/didChangeWorkspaceFolders"]),
    (withNotifyDidCreateFiles, ["workspace/didCreateFiles"]),
    (withNotifyDidDeleteFiles, ["workspace/didDeleteFiles"]),
    (withNotifyDidRenameFiles, ["workspace/didRenameFiles"]),
    (withNotifyTextDocumentSynchronize,
      ["textDocument/didOpen", "textDocument/didChange", "textDocument/didClose"]),
    (withRequestCallHierarchy,
      ["textDocument/prepareCallHierarchy", "callHierarchy/incomingCalls", "callHierarchy/outgoingCalls"]),
    (withRequestCodeAction, ["textDocument/codeAction", "codeAction/resolve"]),
    (withRequestCompletion, ["textDocument/completion", "completionItem/resolve"]),
    (withRequestDeclaration, ["textDocument/declaration"]),
    (withRequestDefinition, ["textDocument/definition"]),
    (withRequestDocumentSymbol, ["textDocument/documentSymbol"]),
    (withRequestExecuteCommand, ["workspace/executeCommand"]),
    (withRequestHover, ["textDocument/hover"]),
    (withRequestImplementation, ["textDocument/implementation"]),
    (withRequestInlayHint, ["textDocument/inlayHint", "inlayHint/resolve"]),
    (withRequestInlineValue, ["textDocument/inlineValue"]),
    (withRequestReferences, ["textDocument/references"]),
    (withRequestRename, ["textDocument/rename", "textDocument/prepareRename"]),
    (withRequestSignatureHelp, ["textDocument/signatureHelp"]),
    (withRequestTypeDefinition, ["textDocument/typeDefinition"]),
    (withRequestTypeHierarchy,
      ["textDocument/prepareTypeHierarchy", "typeHierarchy/supertypes", "typeHierarchy/subtypes"]),
    (withRequestWillCreateFiles, ["workspace/willCreateFiles"]),
    (withRequestWillDeleteFiles, ["workspace/willDeleteFiles"]),
    (withRequestWillRenameFiles, ["workspace/willRenameFiles"]),
    (withRequestWorkspaceSymbol, ["workspace/symbol"]),
    (withRequestWorkspaceSymbolResolve, ["workspaceSymbol/resolve"]),
    (withReceiveLogMessage, ["window/logMessage"]),
    (withReceiveLogTrace, ["$/logTrace"]),
    (withReceivePublishDiagnostics, ["textDocument/publishDiagnostics"]),
    (withReceiveShowMessage, ["window/showMessage"]),
    (withRespondApplyEdit, ["workspace/applyEdit"]),
    (withRespondConfigurationRequest, ["workspace/configuration"]),
    (withRespondInlayHintRefresh, ["workspace/inlayHint/refresh"]),
    (withRespondRegisterCapability, ["client/registerCapability", "client/unregisterCapability"]),
    (withRespondShowDocumentRequest, ["window/showDocument"]),
    (withRespondShowMessageRequest, ["window/showMessageRequest"]),
    (withRespondWorkspaceFoldersRequest, ["workspace/workspaceFolders"]),
    (withRequestDenoCache, ["deno/cache"]),
    (withRequestDenoPerformance, ["deno/performance"]),
    (withRequestDenoReloadImportRegistries, ["deno/reloadImportRegistries"]),
    (withRequestDenoVirtualTextDocument, ["deno/virtualTextDocument"]),
    (withRequestDenoTask, ["deno/task"]),
    (withRequestDenoTestRun, ["deno/testRun"]),
    (withRequestDenoTestRunCancel, ["deno/testRunCancel"]),
    (withReceiveDenoRegistryStatus, ["deno/registryState"]),
    (withReceiveDenoTestModule, ["deno/testModule"]),
    (withReceiveDenoTestModuleDelete, ["deno/testModuleDelete"]),
    (withReceiveDenoTestRunProgress, ["deno/testRunProgress"])].map fun e => (e.1, e.2.map String.toList)

/-- What a class does with `iter_methods`; `CapabilityProtocol` yields nothing. -/
def iterStep (c : RepoClass) : Step :=
  if c = capabilityProtocol then .stops
  else if (iterMethods.lookup c).isSome then .goesOn else .inherits

/-- The methods that a class itself yields. -/
def yields (c : RepoClass) : List Text := (iterMethods.lookup c).getD []

/-- `capabilities` of `capability.request`. -/
def requestCapabilities : List RepoClass :=
  [withRequestCallHierarchy, withRequestCodeAction, withRequestCompletion, withRequestDeclaration,
    withRequestDefinition, withRequestDocumentSymbol, withRequestExecuteCommand, withRequestHover,
    withRequestImplementation, withRequestInlayHint, withRequestInlineValue, withDocumentDiagnostic,
    withRequestReferences, withRequestRename, withRequestSignatureHelp, withRequestTypeDefinition,
    withRequestTypeHierarchy, withRequestWillCreateFiles, withRequestWillRenameFiles,
    withRequestWillDeleteFiles, withWorkspaceDiagnostic, withRequestWorkspaceSymbol]

/-- `capabilities` of `capability.notification`. -/
def notificationCapabilities : List RepoClass :=
  [withNotifyDidChangeConfiguration, withNotifyDidChangeWorkspaceFolders, withNotifyDidCreateFiles,
    withNotifyDidRenameFiles, withNotifyDidDeleteFiles, withNotifyTextDocumentSynchronize]

/-- `capabilities` of `capability.server_request`. -/
def serverRequestCapabilities : List RepoClass :=
  [withRespondApplyEdit, withRespondConfigurationRequest, withWorkspaceDiagnostic,
    withRespondInlayHintRefresh, withRespondShowDocumentRequest, withRespondRegisterCapability,
    withRespondShowMessageRequest, withRespondWorkspaceFoldersRequest]

/-- `capabilities` of `capability.server_notification`. -/
def serverNotificationCapabilities : List RepoClass :=
  [withReceiveLogMessage, withReceiveLogTrace, withReceivePublishDiagnostics, withReceiveShowMessage]

/-- What `inspect_capabilities` goes through. -/
def capabilities : List RepoClass :=
  requestCapabilities ++ notificationCapabilities ++ serverRequestCapabilities ++
    serverNotificationCapabilities

structure CapabilityInspectResult where
  capability : Text
  client : Bool
  server : Bool
  deriving DecidableEq, Repr

/-- The rows of one mixin. A class method is called on the mixin itself, and an
`AssertionError` says that the server does not have it. -/
def inspectOne (order : List RepoClass) (cap : ServerCapabilities) (c : RepoClass) :
    Option (List CapabilityInspectResult) := do
  let serverAvailable ← call checkStep (check cap) (mro c) (.ok ())
  let methods ← call iterStep (fun c methods => methods ++ yields c) (mro c) []
  return methods.map fun method => ⟨method, decide (c ∈ order), serverAvailable.isOk⟩

/-- `inspect_capabilities` of a client class with this method resolution order,
once the server has sent its capabilities. Each listed mixin has a method that
no other class has, so `issubclass`, which also goes by names, is membership. -/
def inspectCapabilities (order : List RepoClass) (cap : ServerCapabilities) :
    Option (List CapabilityInspectResult) :=
  (capabilities.mapM (inspectOne order cap)).map List.flatten

/-! ### The rows -/

variable {bs l : List RepoClass} {cap : ServerCapabilities}

theorem iterMethods_of : ∀ c ∈ capabilities,
    call iterStep (fun c methods => methods ++ yields c) (mro c) [] = some (yields c) := by
  decide +kernel

theorem yields_nonempty : ∀ c ∈ capabilities, yields c ≠ [] := by decide +kernel

/-- A listed mixin is ordered as a class with it as the only base is. -/
theorem mroOf_listed : ∀ c ∈ capabilities, mroOf [c] = some (mro c) ∧ capabilityProtocol ∈ mro c ∧ c ∈ mro c := by
  decide +kernel

/-- The other classes of its order are protocols, which assert nothing. -/
theorem checks_listed : ∀ c ∈ capabilities, ∀ c' ∈ mro c, c' = c ∨ (checks.lookup c').getD [] = [] := by
  decide +kernel

theorem meets_of_none {c : RepoClass} (h : (checks.lookup c).getD [] = []) : meets cap c = true := by
  rw [meets, h]
  rfl

/-- The column of the server is the check of the mixin alone. -/
theorem serverAvailable_eq (cap : ServerCapabilities) {c : RepoClass} (hc : c ∈ capabilities) :
    ∃ checked, call checkStep (check cap) (mro c) (.ok ()) = some checked ∧
      checked.isOk = meets cap c := by
  obtain ⟨horder, hprotocol, hself⟩ := mroOf_listed c hc
  have hall : (∀ c' ∈ mro c, meets cap c' = true) ↔ meets cap c = true := by
    refine ⟨fun h => h c hself, fun h c' hc' => ?_⟩
    obtain rfl | hnone := checks_listed c hc c' hc'
    · exact h
    · exact meets_of_none hnone
  have hok : checkServerCapability (mro c) cap = some (.ok ()) ↔ meets cap c = true :=
    (checkServerCapability_ok horder).trans hall
  rw [checkServerCapability_eq hprotocol] at hok
  refine ⟨_, call_eq ⟨_, hprotocol, by decide⟩, ?_⟩
  cases hchecked : (ran checkStep (mro c)).foldr (check cap) (.ok ()) with
  | ok =>
    rw [hchecked] at hok
    exact (hok.mp rfl).symm
  | error e =>
    rw [hchecked] at hok
    have hfails : meets cap c ≠ true := fun h => by simpa using hok.mpr h
    exact (Bool.eq_false_iff.mpr hfails).symm

theorem inspectOne_eq {c : RepoClass} (hc : c ∈ capabilities) :
    inspectOne l cap c = some ((yields c).map fun m => ⟨m, decide (c ∈ l), meets cap c⟩) := by
  obtain ⟨checked, hcall, hchecked⟩ := serverAvailable_eq cap hc
  rw [inspectOne, hcall, iterMethods_of c hc]
  simp [hchecked]

/-- **The rows**: one for each method of each listed mixin, and the call never fails. -/
theorem inspectCapabilities_eq (l : List RepoClass) (cap : ServerCapabilities) :
    inspectCapabilities l cap = some (capabilities.flatMap fun c =>
      (yields c).map fun m => ⟨m, decide (c ∈ l), meets cap c⟩) := by
  have hmap : ∀ cs : List RepoClass, (∀ c ∈ cs, c ∈ capabilities) → cs.mapM (inspectOne l cap) =
      some (cs.map fun c => (yields c).map fun m => ⟨m, decide (c ∈ l), meets cap c⟩) := by
    intro cs hcs
    induction cs with
    | nil => rfl
    | cons c cs ih =>
      obtain ⟨hc, hrest⟩ := List.forall_mem_cons.mp hcs
      rw [List.mapM_cons, inspectOne_eq hc, ih hrest]
      rfl
  rw [inspectCapabilities, hmap _ fun c hc => hc, Option.map_some, List.flatMap]

/-- What holds of all rows holds of all listed mixins, as each has a row. -/
theorem forall_rows {P : Bool → Bool → Prop} :
    (∀ rows, inspectCapabilities l cap = some rows → ∀ r ∈ rows, P r.client r.server) ↔
      ∀ c ∈ capabilities, P (decide (c ∈ l)) (meets cap c) := by
  rw [inspectCapabilities_eq]
  constructor
  · intro hall c hc
    obtain ⟨m, hm⟩ := List.exists_mem_of_ne_nil _ (yields_nonempty c hc)
    exact hall _ rfl _ (List.mem_flatMap.mpr ⟨c, hc, List.mem_map_of_mem hm⟩)
  · intro hall rows hrows r hr
    cases hrows
    obtain ⟨c, hc, hrow⟩ := List.mem_flatMap.mp hr
    obtain ⟨m, -, rfl⟩ := List.mem_map.mp hrow
    exact hall c hc

/-! ### The rows and `_initialize` -/

/-- Every mixin that asserts something is listed, but for one. -/
theorem checks_cases : ∀ e ∈ checks,
    e.2 = [] ∨ e.1 ∈ capabilities ∨ e.1 = withRequestWorkspaceSymbolResolve := by
  decide +kernel

theorem meets_cases {c : RepoClass} (hfails : meets cap c = false) :
    c ∈ capabilities ∨ c = withRequestWorkspaceSymbolResolve := by
  obtain ⟨assertions, hmem, hasserts⟩ := mem_checks hfails
  exact (checks_cases _ hmem).resolve_left hasserts

/-- **A client can be initialised exactly if no row says that it has what the
server lacks**, and if what resolves workspace symbols, which has no row, has
what it needs. -/
theorem inspect_agrees (h : mroOf bs = some l) (cap : ServerCapabilities) :
    checkServerCapability l cap = some (.ok ()) ↔
      (∀ rows, inspectCapabilities l cap = some rows → ∀ r ∈ rows, r.client = true → r.server = true) ∧
        (withRequestWorkspaceSymbolResolve ∈ l → meets cap withRequestWorkspaceSymbolResolve = true) := by
  rw [checkServerCapability_ok h, forall_rows (P := fun client server => client = true → server = true)]
  constructor
  · exact fun hall => ⟨fun c _ hc => hall c (of_decide_eq_true hc), hall _⟩
  · intro ⟨hrows, hresolve⟩ c hc
    by_contra hfails
    obtain hlisted | rfl := meets_cases (Bool.eq_false_iff.mpr hfails)
    · exact hfails (hrows c hlisted (decide_eq_true hc))
    · exact hfails (hresolve hc)

/-- A client that resolves workspace symbols, of a server that only finds them:
no row says so, and the check fails. -/
theorem inspect_agrees_resolve : ∃ l : List RepoClass,
    mroOf [withRequestWorkspaceSymbolResolve, withRequestWorkspaceSymbol, client] = some l ∧
      checkServerCapability l (fun _ => .options none) ≠ some (.ok ()) ∧
      ∀ rows, inspectCapabilities l (fun _ => .options none) = some rows → ∀ r ∈ rows, r.server = true := by
  have h : mroOf [withRequestWorkspaceSymbolResolve, withRequestWorkspaceSymbol, client] = some _ :=
    Option.eq_some_of_isSome (by decide +kernel)
  refine ⟨_, h, fun hok => ?_, (forall_rows (P := fun _ server => server = true)).mpr (by decide +kernel)⟩
  have hresolve := ((inspect_agrees h _).mp hok).2
  revert hresolve
  decide +kernel

/-! ### A server for which no row differs -/

/-- What a mixin asserts. -/
def assertionsOf (c : RepoClass) : List Assertion := (checks.lookup c).getD []

def isTruthy : Assertion → Bool
  | .truthy _ => true
  | _ => false

theorem assertionsOf_listed : ∀ c ∈ capabilities, ∀ a ∈ assertionsOf c, isTruthy a = true := by
  decide +kernel

/-- An attribute is asserted by one listed mixin, but for `diagnostic_provider`. -/
theorem assertionsOf_shared : ∀ c ∈ capabilities, ∀ c' ∈ capabilities, ∀ a ∈ assertionsOf c,
    a ∈ assertionsOf c' → c' = c ∨ (c = withDocumentDiagnostic ∧ c' = withWorkspaceDiagnostic) ∨
      (c = withWorkspaceDiagnostic ∧ c' = withDocumentDiagnostic) := by
  decide +kernel

/-- The server that has the attributes that the listed mixins of a class assert, each
with an instance of its options class. -/
def serverOf (l : List RepoClass) : ServerCapabilities := fun p =>
  if capabilities.any fun c => decide (c ∈ l) && decide (Assertion.truthy p ∈ assertionsOf c) then
    .options none
  else .none

theorem holds_serverOf {a : Assertion} (ha : isTruthy a = true) :
    a.holds (serverOf l) = true ↔ ∃ c ∈ capabilities, c ∈ l ∧ a ∈ assertionsOf c := by
  cases a with
  | truthy p =>
    show (serverOf l p).truthy = true ↔ _
    unfold serverOf
    split_ifs with hany <;> simpa [Provision.truthy] using hany
  | isOptions p => cases ha
  | resolves p => cases ha

theorem meets_serverOf {c : RepoClass} (hc : c ∈ capabilities) : meets (serverOf l) c = true ↔
    ∀ a ∈ assertionsOf c, ∃ c' ∈ capabilities, c' ∈ l ∧ a ∈ assertionsOf c' := by
  change (assertionsOf c).all (Assertion.holds (serverOf l)) = true ↔ _
  rw [List.all_eq_true]
  exact forall₂_congr fun a ha => holds_serverOf (assertionsOf_listed c hc a ha)

/-- **No row differs for some server, exactly if the class has all listed mixins
that assert nothing**, and both mixins of diagnostics or neither. -/
theorem inspect_match_iff (l : List RepoClass) :
    (∃ cap, ∀ rows, inspectCapabilities l cap = some rows → ∀ r ∈ rows, r.client = r.server) ↔
      (∀ c ∈ capabilities, assertionsOf c = [] → c ∈ l) ∧
        (withDocumentDiagnostic ∈ l ↔ withWorkspaceDiagnostic ∈ l) := by
  simp only [forall_rows (P := fun client server => client = server)]
  constructor
  · rintro ⟨cap, hall⟩
    have hiff : ∀ c ∈ capabilities, (c ∈ l ↔ meets cap c = true) := fun c hc => by
      rw [← hall c hc, decide_eq_true_iff]
    refine ⟨fun c hc hnone => (hiff c hc).mpr (meets_of_none hnone), ?_⟩
    -- both assert `diagnostic_provider`
    exact (hiff withDocumentDiagnostic (by decide)).trans (hiff withWorkspaceDiagnostic (by decide)).symm
  · rintro ⟨hnone, hdiagnostic⟩
    refine ⟨serverOf l, fun c hc => ?_⟩
    rw [Bool.eq_iff_iff, decide_eq_true_iff, meets_serverOf hc]
    refine ⟨fun hcl a ha => ⟨c, hc, hcl, ha⟩, fun hshared => ?_⟩
    by_contra hcl
    obtain ⟨a, ha⟩ := List.exists_mem_of_ne_nil _ fun hnil => hcl (hnone c hc hnil)
    obtain ⟨c', hc', hcl', ha'⟩ := hshared a ha
    obtain rfl | ⟨rfl, rfl⟩ | ⟨rfl, rfl⟩ := assertionsOf_shared c hc c' hc' a ha ha'
    · exact hcl hcl'
    · exact hcl (hdiagnostic.mpr hcl')
    · exact hcl (hdiagnostic.mp hcl')

end Inspection
end LspClient
