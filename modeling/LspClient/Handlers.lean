/-
# The hooks of a client, and what they answer

`build_server_request_hooks` calls `register_server_request_hooks` of the
client, which runs along the method resolution order like the methods that
register capabilities: every mixin first lets the classes after it register and
then registers its own hooks. All that a client has is registered, one hook at
most for each method (`hooks_registered`), so that a notification reaches all
its hooks (`notifications_reach_hooks`).

What a client advertises is what a server may ask it for. Two mixins advertise
for another one: `WithReceiveShowMessage` sets `show_message`, which is about the
request `window/showMessageRequest`, and `WithNotifyDidChangeWorkspaceFolders`
sets `workspace_folders`. A client that has one of them without the mixin that
answers raises `Unhandled server request method` on a request it has invited;
every other client answers all of them (`invited_answered_iff`).

`check_server_capability` goes the other way: what the mixins need of the server.

Key definitions: `registerServerRequestHooks`, `buildServerRequestHooks`,
`invites`, `checkServerCapability`.
Key theorems: `mem_ran_hookStep`, `hooks_registered`, `notifications_reach_hooks`,
`invited_answered_iff`, `checked_iff`.
-/
import LspClient.Capabilities
import LspClient.Hooks
import LspClient.Lib.Dict

namespace LspClient
namespace Handlers

open Mro Hooks Capabilities RepoClass

/-! ### What the mixins register -/

/-- A hook, by the names of its class and of the method it executes. -/
abbrev Hook := ServerRequestHook Text Text ⊕ ServerNotificationHook Text Text

def request (method cls execute : String) : Text × Hook :=
  (method.toList, .inl ⟨cls.toList, execute.toList⟩)

def notification (method cls execute : String) : Text × Hook :=
  (method.toList, .inr ⟨cls.toList, execute.toList⟩)

/-- The mixins that define `register_server_request_hooks`, with the hooks each
registers after its call of `super()`. -/
def registerServerRequestHooks : List (RepoClass × List (Text × Hook)) :=
  [(withRespondApplyEdit,
      [request "workspace/applyEdit" "ApplyWorkspaceEditRequest" "respond_apply_edit"]),
    (withRespondConfigurationRequest,
      [request "workspace/configuration" "ConfigurationRequest" "respond_configuration_request"]),
    (withRespondInlayHintRefresh,
      [request "workspace/inlayHint/refresh" "InlayHintRefreshRequest" "respond_inlay_hint_refresh"]),
    (withRespondRegisterCapability,
      [request "client/registerCapability" "RegistrationRequest" "respond_register_capability",
        request "client/unregisterCapability" "UnregistrationRequest"
          "respond_unregister_capability"]),
    (withRespondShowDocumentRequest,
      [request "window/showDocument" "ShowDocumentRequest" "respond_show_document_request"]),
    (withRespondShowMessageRequest,
      [request "window/showMessageRequest" "ShowMessageRequest" "respond_show_message_request"]),
    (withRespondWorkspaceFoldersRequest,
      [request "workspace/workspaceFolders" "WorkspaceFoldersRequest"
        "respond_workspace_folders_request"]),
    (withWorkspaceDiagnostic,
      [request "workspace/diagnostic/refresh" "DiagnosticRefreshRequest" "respond_diagnostic_refresh"]),
    (withReceiveLogMessage,
      [notification "window/logMessage" "LogMessageNotification" "receive_log_message"]),
    (withReceiveLogTrace, [notification "$/logTrace" "LogTraceNotification" "receive_log_trace"]),
    (withReceivePublishDiagnostics,
      [notification "textDocument/publishDiagnostics" "PublishDiagnosticsNotification"
        "receive_publish_diagnostics"]),
    (withReceiveShowMessage,
      [notification "window/showMessage" "ShowMessageNotification" "receive_show_message"]),
    (withReceiveDenoRegistryStatus,
      [notification "deno/registryState" "DenoRegistryStatusNotification"
        "receive_deno_registry_state"]),
    (withReceiveDenoTestModule,
      [notification "deno/testModule" "DenoTestModuleNotification" "receive_deno_test_module"]),
    (withReceiveDenoTestModuleDelete,
      [notification "deno/testModuleDelete" "DenoTestModuleDeleteNotification"
        "receive_deno_test_module_delete"]),
    (withReceiveDenoTestRunProgress,
      [notification "deno/testRunProgress" "DenoTestRunProgressNotification"
        "receive_deno_test_run_progress"])]

/-- The hooks that a class itself registers. -/
def hooksOf (c : RepoClass) : List (Text × Hook) := (registerServerRequestHooks.lookup c).getD []

/-- What a class does with `register_server_request_hooks`; the body in the
protocol is empty. -/
def hookStep (c : RepoClass) : Step :=
  if c = serverRequestHookProtocol then .stops
  else if (registerServerRequestHooks.lookup c).isSome then .goesOn else .inherits

/-- The registry, and the listeners of the configuration map. -/
structure Registered where
  registry : ServerRequestHookRegistry Text Text
  onChange : List Text

def registerAll (r : ServerRequestHookRegistry Text Text) (hooks : List (Text × Hook)) :
    ServerRequestHookRegistry Text Text :=
  hooks.foldl (fun r p => r.register p.1 p.2) r

/-- The body of `register_server_request_hooks` after the call of `super()`, in
an instance with this method resolution order: the mixin of
`workspace/configuration` also listens for changes, where there is a method that
notifies the server of them. -/
def registerHooks (order : List RepoClass) (c : RepoClass) (s : Registered) : Registered where
  registry := registerAll s.registry (hooksOf c)
  onChange :=
    if c = withRespondConfigurationRequest ∧ withNotifyDidChangeConfiguration ∈ order then
      s.onChange ++ ["notify_change".toList]
    else s.onChange

/-- `build_server_request_hooks`, of an instance whose configuration map has
these listeners. -/
def buildServerRequestHooks (order : List RepoClass) (listeners : List Text) : Option Registered :=
  if serverRequestHookProtocol ∈ order then
    call hookStep (registerHooks order) order ⟨.empty, listeners⟩
  else some ⟨.empty, listeners⟩

/-! ### Registering one after the other -/

variable {r : ServerRequestHookRegistry Text Text} {m : Text}

theorem getRequestHook_registerAll {hook : ServerRequestHook Text Text} :
    ∀ (hooks : List (Text × Hook)) {r : ServerRequestHookRegistry Text Text},
      (registerAll r hooks).getRequestHook m = some hook →
        (m, .inl hook) ∈ hooks ∨ r.getRequestHook m = some hook
  | [], _, h => Or.inr h
  | (n, .inl hook') :: hooks, r, h => by
    obtain hin | hreg := getRequestHook_registerAll hooks h
    · exact Or.inl (List.mem_cons_of_mem _ hin)
    · by_cases hm : m = n
      · subst hm
        have hsame : some hook' = some hook := by
          simpa [ServerRequestHookRegistry.register, ServerRequestHookRegistry.getRequestHook] using hreg
        cases hsame
        exact Or.inl List.mem_cons_self
      · right
        simpa [ServerRequestHookRegistry.register, ServerRequestHookRegistry.getRequestHook, hm] using hreg
  | (n, .inr hook') :: hooks, r, h =>
    (getRequestHook_registerAll hooks h).imp_left (List.mem_cons_of_mem _)

/-- What is registered for a request stays, or another hook takes its place. -/
theorem isSome_registerAll : ∀ (hooks : List (Text × Hook)) {r : ServerRequestHookRegistry Text Text},
    (r.getRequestHook m).isSome = true → ((registerAll r hooks).getRequestHook m).isSome = true
  | [], _, h => h
  | (n, .inl hook) :: hooks, r, h => by
    refine isSome_registerAll hooks ?_
    by_cases hm : m = n
    · subst hm
      simp [ServerRequestHookRegistry.register, ServerRequestHookRegistry.getRequestHook]
    · simpa [ServerRequestHookRegistry.register, ServerRequestHookRegistry.getRequestHook, hm] using h
  | (n, .inr hook) :: hooks, r, h => isSome_registerAll hooks h

theorem isSome_registerAll_of_mem {hook : ServerRequestHook Text Text} :
    ∀ (hooks : List (Text × Hook)) {r : ServerRequestHookRegistry Text Text},
      (m, .inl hook) ∈ hooks → ((registerAll r hooks).getRequestHook m).isSome = true
  | p :: hooks, r, h => by
    rcases List.mem_cons.mp h with rfl | hin
    · refine isSome_registerAll hooks ?_
      simp [ServerRequestHookRegistry.register, ServerRequestHookRegistry.getRequestHook]
    · exact isSome_registerAll_of_mem hooks hin

theorem mem_getNotificationHooks_registerAll {hook : ServerNotificationHook Text Text} :
    ∀ (hooks : List (Text × Hook)) {r : ServerRequestHookRegistry Text Text},
      hook ∈ (registerAll r hooks).getNotificationHooks m ↔
        (m, .inr hook) ∈ hooks ∨ hook ∈ r.getNotificationHooks m
  | [], _ => by simp [registerAll]
  | (n, .inl hook') :: hooks, r => by
    refine (mem_getNotificationHooks_registerAll hooks).trans ?_
    simp [ServerRequestHookRegistry.register, ServerRequestHookRegistry.getNotificationHooks]
  | (n, .inr hook') :: hooks, r => by
    refine (mem_getNotificationHooks_registerAll hooks).trans ?_
    rw [ServerRequestHookRegistry.mem_getNotificationHooks_register, List.mem_cons, Prod.mk.injEq,
      Sum.inr.injEq]
    tauto

/-- The bodies of some classes, the last of them first. -/
theorem registry_foldr {order : List RepoClass} {s : Registered} : ∀ cs : List RepoClass,
    (cs.foldr (registerHooks order) s).registry = registerAll s.registry (cs.reverse.flatMap hooksOf)
  | [] => rfl
  | c :: cs => by
    rw [List.foldr_cons, registerHooks, registry_foldr cs, registerAll, registerAll, registerAll,
      ← List.foldl_append, List.reverse_cons, List.flatMap_append, List.flatMap_singleton]

theorem onChange_foldr {order : List RepoClass} {s : Registered} : ∀ {cs : List RepoClass}, cs.Nodup →
    (cs.foldr (registerHooks order) s).onChange = s.onChange ++
      if withRespondConfigurationRequest ∈ cs ∧ withNotifyDidChangeConfiguration ∈ order then
        ["notify_change".toList]
      else []
  | [], _ => by simp
  | c :: cs, h => by
    obtain ⟨hc, hcs⟩ := List.nodup_cons.mp h
    rw [List.foldr_cons, registerHooks, onChange_foldr hcs]
    by_cases hconf : c = withRespondConfigurationRequest
    · rw [← hconf, if_neg (c := c ∈ cs ∧ _) fun hin => hc hin.1, List.append_nil]
      by_cases hnotify : withNotifyDidChangeConfiguration ∈ order
      · rw [if_pos ⟨rfl, hnotify⟩, if_pos ⟨List.mem_cons_self, hnotify⟩]
      · rw [if_neg fun hin => hnotify hin.2, if_neg fun hin => hnotify hin.2, List.append_nil]
    · have hmem : withRespondConfigurationRequest ∈ c :: cs ↔ withRespondConfigurationRequest ∈ cs := by
        rw [List.mem_cons, or_iff_right (Ne.symm hconf)]
      rw [if_neg fun hin => hconf hin.1]
      simp only [hmem]

/-! ### The order of a class -/

section Order

variable {bs l : List RepoClass} {c p : RepoClass}

/-- A base comes after the class. -/
theorem base_after {b : RepoClass} (hp : p ∈ bases c) (hc : c ∈ mro b) : [c, p].Sublist (mro b) := by
  refine mro_induction (P := fun _ l => [c, p].Sublist l) (fun n l h => ?_)
    (fun _ _ _ _ _ hsub h => h.trans hsub) hc
  obtain ⟨orders, rest, -, hrest, rfl⟩ := mroWithin_succ h
  have hbases := merge_sublist hrest (bases c) (List.mem_append_right _ (List.mem_singleton.mpr rfl))
  exact (List.singleton_sublist.mpr (hbases.subset hp)).cons_cons c

theorem base_after_mroOf (h : mroOf bs = some l) (hp : p ∈ bases c) (hc : c ∈ l) : [c, p].Sublist l := by
  obtain ⟨b, hb, hcb⟩ := (mem_mroOf h c).mp hc
  exact (base_after hp hcb).trans (mro_sublist h hb)

theorem mem_of_hooksOf {q : Text × Hook} (hq : q ∈ hooksOf c) :
    ∃ hooks, (c, hooks) ∈ registerServerRequestHooks ∧ q ∈ hooks := by
  rw [hooksOf] at hq
  rcases hl : registerServerRequestHooks.lookup c with _ | hooks
  · rw [hl] at hq
    cases hq
  · rw [hl] at hq
    exact ⟨hooks, Dict.mem_of_lookup hl, hq⟩

/-- A mixin with hooks is of the protocol, and goes on. -/
theorem hooksOf_base {q : Text × Hook} (hq : q ∈ hooksOf c) :
    serverRequestHookProtocol ∈ bases c ∧ hookStep c = .goesOn := by
  have hall : ∀ e ∈ registerServerRequestHooks,
      serverRequestHookProtocol ∈ bases e.1 ∧ hookStep e.1 = .goesOn := by decide
  obtain ⟨hooks, hmem, -⟩ := mem_of_hooksOf hq
  exact hall _ hmem

theorem hookStep_stops (h : hookStep c = .stops) : c = serverRequestHookProtocol := by
  by_contra hne
  rw [hookStep, if_neg hne] at h
  split_ifs at h

/-- **Every mixin with hooks is reached**: the protocol, where the calls of
`super()` end, comes after all of them. -/
theorem mem_ran_hookStep (h : mroOf bs = some l) {q : Text × Hook} (hq : q ∈ hooksOf c) :
    c ∈ ran hookStep l ↔ c ∈ l := by
  obtain ⟨hbase, hstep⟩ := hooksOf_base hq
  have hnodup := mroOf_nodup h
  rw [mem_ran_iff hookStep hnodup, hstep]
  refine ⟨fun hran => hran.1, fun hc => ⟨hc, by decide, fun x hx hstops => ?_⟩⟩
  rw [hookStep_stops hstops] at hx
  exact pair_asymm hnodup (base_after_mroOf h hbase hc) hx

/-- What the mixins of the order register, in the order in which they do. -/
def hooksIn (l : List RepoClass) : List (Text × Hook) := (ran hookStep l).reverse.flatMap hooksOf

theorem mem_hooksIn (h : mroOf bs = some l) {q : Text × Hook} : q ∈ hooksIn l ↔ ∃ c ∈ l, q ∈ hooksOf c := by
  simp only [hooksIn, List.mem_flatMap, List.mem_reverse]
  exact exists_congr fun c => and_congr_left fun hq => mem_ran_hookStep h hq

theorem build_hooks (hprotocol : serverRequestHookProtocol ∈ l) (listeners : List Text) :
    buildServerRequestHooks l listeners =
      some ((ran hookStep l).foldr (registerHooks l) ⟨.empty, listeners⟩) := by
  rw [buildServerRequestHooks, if_pos hprotocol]
  exact call_eq ⟨_, hprotocol, by decide⟩

/-- What is built: a registry with the hooks of the mixins, and the listeners. -/
theorem build_eq (h : mroOf bs = some l) (listeners : List Text) :
    buildServerRequestHooks l listeners = some
      ⟨registerAll .empty (hooksIn l), listeners ++
        if withRespondConfigurationRequest ∈ l ∧ withNotifyDidChangeConfiguration ∈ l then
          ["notify_change".toList]
        else []⟩ := by
  have hconf : request "workspace/configuration" "ConfigurationRequest" "respond_configuration_request" ∈
      hooksOf withRespondConfigurationRequest := List.mem_singleton_self _
  by_cases hprotocol : serverRequestHookProtocol ∈ l
  · have hran := @onChange_foldr l ⟨.empty, listeners⟩ _
      ((ran_sublist hookStep l).nodup (mroOf_nodup h))
    simp only [mem_ran_hookStep h hconf] at hran
    rw [build_hooks hprotocol, ← hran, hooksIn, ← @registry_foldr l ⟨.empty, listeners⟩]
  · -- a class that is not of the protocol has no mixin with hooks
    have hnone : ∀ c ∈ l, ∀ q, q ∉ hooksOf c := fun c hc q hq =>
      hprotocol ((base_after_mroOf h (hooksOf_base hq).1 hc).subset (by simp))
    have hempty : hooksIn l = [] := List.eq_nil_iff_forall_not_mem.mpr fun q hq => by
      obtain ⟨c, hc, hqc⟩ := (mem_hooksIn h).mp hq
      exact hnone c hc q hqc
    rw [buildServerRequestHooks, if_neg hprotocol, hempty,
      if_neg fun hin => hnone _ hin.1 _ hconf, List.append_nil]
    rfl

end Order

/-! ### What is registered -/

/-- A hook is registered by the mixins under one method only, and a method has one hook. -/
theorem hooks_agree : ∀ p ∈ registerServerRequestHooks.flatMap (·.2),
    ∀ q ∈ registerServerRequestHooks.flatMap (·.2), p.1 = q.1 → p = q := by
  decide +kernel

theorem hooksOf_agree {c c' : RepoClass} {q q' : Text × Hook} (hq : q ∈ hooksOf c) (hq' : q' ∈ hooksOf c')
    (hmethod : q.1 = q'.1) : q = q' := by
  obtain ⟨hooks, hmem, hin⟩ := mem_of_hooksOf hq
  obtain ⟨hooks', hmem', hin'⟩ := mem_of_hooksOf hq'
  exact hooks_agree q (List.mem_flatMap.mpr ⟨_, hmem, hin⟩) q' (List.mem_flatMap.mpr ⟨_, hmem', hin'⟩) hmethod

section Registry

variable {bs l : List RepoClass} {listeners : List Text} {s : Registered}

theorem getRequestHook_iff (h : mroOf bs = some l) (hs : buildServerRequestHooks l listeners = some s)
    {hook : ServerRequestHook Text Text} :
    s.registry.getRequestHook m = some hook ↔ ∃ c ∈ l, (m, .inl hook) ∈ hooksOf c := by
  rw [build_eq h] at hs
  cases hs
  constructor
  · intro hget
    obtain hin | hempty := getRequestHook_registerAll _ hget
    · exact (mem_hooksIn h).mp hin
    · cases hempty
  · rintro ⟨c, hc, hq⟩
    obtain ⟨hook', hget⟩ := Option.isSome_iff_exists.mp
      (isSome_registerAll_of_mem (r := .empty) _ ((mem_hooksIn h).mpr ⟨c, hc, hq⟩))
    obtain hin | hempty := getRequestHook_registerAll _ hget
    · obtain ⟨c', -, hq'⟩ := (mem_hooksIn h).mp hin
      cases hooksOf_agree hq hq' rfl
      exact hget
    · cases hempty

theorem mem_getNotificationHooks_iff (h : mroOf bs = some l)
    (hs : buildServerRequestHooks l listeners = some s) {hook : ServerNotificationHook Text Text} :
    hook ∈ s.registry.getNotificationHooks m ↔ ∃ c ∈ l, (m, .inr hook) ∈ hooksOf c := by
  rw [build_eq h] at hs
  cases hs
  rw [mem_getNotificationHooks_registerAll, mem_hooksIn h, or_iff_left]
  exact Finset.notMem_empty _

/-- A notification has one hook at most. -/
theorem card_getNotificationHooks (h : mroOf bs = some l)
    (hs : buildServerRequestHooks l listeners = some s) : (s.registry.getNotificationHooks m).card ≤ 1 := by
  refine Finset.card_le_one.mpr fun a ha b hb => ?_
  obtain ⟨c, -, hqa⟩ := (mem_getNotificationHooks_iff h hs).mp ha
  obtain ⟨c', -, hqb⟩ := (mem_getNotificationHooks_iff h hs).mp hb
  cases hooksOf_agree hqa hqb rfl
  rfl

/-- A method of requests is none of notifications. -/
theorem getNotificationHooks_eq_empty (h : mroOf bs = some l)
    (hs : buildServerRequestHooks l listeners = some s) {hook : ServerRequestHook Text Text}
    (hget : s.registry.getRequestHook m = some hook) : s.registry.getNotificationHooks m = ∅ := by
  refine Finset.eq_empty_of_forall_notMem fun hook' hmem => ?_
  obtain ⟨c, -, hq⟩ := (getRequestHook_iff h hs).mp hget
  obtain ⟨c', -, hq'⟩ := (mem_getNotificationHooks_iff h hs).mp hmem
  cases hooksOf_agree hq hq' rfl

/-- **The hooks of a client are those of its mixins**, in whatever order they
are listed, at most one under each method, and there is one listener for changes
of the configuration where they are answered and notified of. -/
theorem hooks_registered (h : mroOf bs = some l) (listeners : List Text) :
    ∃ s, buildServerRequestHooks l listeners = some s ∧
      (∀ m hook, s.registry.getRequestHook m = some hook ↔ ∃ c ∈ l, (m, .inl hook) ∈ hooksOf c) ∧
      (∀ m hook, hook ∈ s.registry.getNotificationHooks m ↔ ∃ c ∈ l, (m, .inr hook) ∈ hooksOf c) ∧
      (∀ m, (s.registry.getNotificationHooks m).card ≤ 1 ∧
        ∀ hook, s.registry.getRequestHook m = some hook → s.registry.getNotificationHooks m = ∅) ∧
      s.onChange = listeners ++
        if withRespondConfigurationRequest ∈ l ∧ withNotifyDidChangeConfiguration ∈ l then
          ["notify_change".toList]
        else [] :=
  have hs := build_eq h listeners
  ⟨_, hs, fun _ _ => getRequestHook_iff h hs, fun _ _ => mem_getNotificationHooks_iff h hs,
    fun _ => ⟨card_getNotificationHooks h hs, fun _ => getNotificationHooks_eq_empty h hs⟩, rfl⟩

/-- Configuration, answered and notified of. -/
theorem hooks_registered_small : ∃ (l : List RepoClass) (s : Registered),
    mroOf [withRespondConfigurationRequest, withNotifyDidChangeConfiguration, client] = some l ∧
      buildServerRequestHooks l [] = some s ∧
      s.registry.getRequestHook "workspace/configuration".toList =
        some ⟨"ConfigurationRequest".toList, "respond_configuration_request".toList⟩ ∧
      s.onChange = ["notify_change".toList] := by
  have h : mroOf [withRespondConfigurationRequest, withNotifyDidChangeConfiguration, client] = some _ :=
    Option.eq_some_of_isSome (by decide +kernel)
  obtain ⟨s, hs, hrequest, -, -, hlisteners⟩ := hooks_registered h []
  refine ⟨_, s, h, hs, (hrequest _ _).mpr ⟨withRespondConfigurationRequest, by decide +kernel,
    List.mem_singleton_self _⟩, ?_⟩
  rw [hlisteners, if_pos ⟨by decide +kernel, by decide +kernel⟩]
  rfl

end Registry

/-! ### Notifications -/

section Notifications

variable {bs l : List RepoClass} {listeners : List Text} {s : Registered} {Obj E : Type*}
  {deserialize : Hooks.Value Obj → Text → Except E Obj} {noti : RawNotification}
  {hooks : List (ServerNotificationHook Text Text)}

/-- Of at most one hook, each is executed if the notification is of its class. -/
theorem eachOnce_of_card {r : ServerRequestHookRegistry Text Text}
    (hcard : (r.getNotificationHooks noti.method).card ≤ 1)
    (horder : hooks.Perm (r.getNotificationHooks noti.method).toList) :
    EachOnce r deserialize noti (dispatchNotification deserialize hooks noti) ↔
      ∀ hook ∈ r.getNotificationHooks noti.method,
        ∃ obj, deserialize (.notification noti) hook.cls = .ok obj := by
  have hmem : ∀ hook, hook ∈ r.getNotificationHooks noti.method ↔ hook ∈ hooks := fun hook => by
    rw [horder.mem_iff, Finset.mem_toList]
  constructor
  · intro heach hook hhook
    -- the hook is one of those that were executed
    have hin : hook ∈ (dispatchNotification deserialize hooks noti).1.map Prod.fst :=
      heach.hooks.mem_iff.mpr (Finset.mem_toList.mpr hhook)
    obtain ⟨p, hp, rfl⟩ := List.mem_map.mp hin
    exact ⟨p.2, heach.objects p hp⟩
  · intro hraw
    have hlen : hooks.length ≤ 1 := by rwa [horder.length_eq, Finset.length_toList]
    match hooks with
    | [] => exact ⟨horder, nofun, rfl⟩
    | [hook] =>
      obtain ⟨obj, hok⟩ := hraw hook ((hmem hook).mpr List.mem_cons_self)
      rw [dispatchNotification]
      simp only [executeHooks, hok]
      refine ⟨horder, fun p hp => ?_, rfl⟩
      rw [List.mem_singleton.mp hp]
      exact hok
    | _ :: _ :: _ => simp at hlen

/-- **A notification reaches all its hooks**, in every client made of the
mixins, exactly if it is of the class of each of them. -/
theorem notifications_reach_hooks (h : mroOf bs = some l)
    (hs : buildServerRequestHooks l listeners = some s)
    (horder : hooks.Perm (s.registry.getNotificationHooks noti.method).toList) :
    EachOnce s.registry deserialize noti (dispatchNotification deserialize hooks noti) ↔
      ∀ c ∈ l, ∀ hook, (noti.method, .inr hook) ∈ hooksOf c →
        ∃ obj, deserialize (.notification noti) hook.cls = .ok obj := by
  rw [eachOnce_of_card (card_getNotificationHooks h hs) horder]
  simp only [mem_getNotificationHooks_iff h hs, forall_exists_index, and_imp]
  exact ⟨fun hall c hc hook hq => hall hook c hc hq, fun hall hook c hc hq => hall c hc hook hq⟩

/-- `window/showMessage`. -/
theorem notifications_reach_hooks_small : ∃ (l : List RepoClass) (s : Registered),
    mroOf [withReceiveShowMessage, client] = some l ∧ buildServerRequestHooks l [] = some s ∧
      EachOnce s.registry Hooks.Small.deserialize ⟨"window/showMessage".toList, none⟩
        (dispatchNotification Hooks.Small.deserialize
          (s.registry.getNotificationHooks "window/showMessage".toList).toList
          ⟨"window/showMessage".toList, none⟩) := by
  have h : mroOf [withReceiveShowMessage, client] = some _ := Option.eq_some_of_isSome (by decide +kernel)
  have hs := build_eq h []
  exact ⟨_, _, h, hs, (notifications_reach_hooks h hs (.refl _)).mpr fun _ _ _ _ => ⟨_, rfl⟩⟩

end Notifications

/-! ### What a client invites the server to ask -/

/-- The request that a server may send to a client with this attribute set. -/
def invites : Category → Field → Option Text
  | .workspace, .applyEdit => some "workspace/applyEdit".toList
  | .workspace, .configuration => some "workspace/configuration".toList
  | .workspace, .workspaceFolders => some "workspace/workspaceFolders".toList
  | .workspace, .inlayHint => some "workspace/inlayHint/refresh".toList
  | .workspace, .diagnostics => some "workspace/diagnostic/refresh".toList
  | .window, .showMessage => some "window/showMessageRequest".toList
  | .window, .showDocument => some "window/showDocument".toList
  | _, _ => none

/-- The advertised capabilities of the class invite this request. -/
def Invited (order : List RepoClass) (m : Text) : Prop :=
  ∃ k cap f, buildClientCapabilities order k = some cap ∧ cap f ≠ none ∧ invites k f = some m

/-- A class registers a hook for this request. -/
def answers (c : RepoClass) (m : Text) : Bool := (hooksOf c).any fun q => q.1 = m ∧ q.2.isLeft

theorem answers_iff {c : RepoClass} : answers c m = true ↔ ∃ hook, (m, .inl hook) ∈ hooksOf c := by
  rw [answers, List.any_eq_true]
  constructor
  · rintro ⟨⟨m', hook | hook⟩, hq, htest⟩
    · obtain ⟨rfl, -⟩ := of_decide_eq_true htest
      exact ⟨hook, hq⟩
    · cases (of_decide_eq_true htest).2
  · rintro ⟨hook, hq⟩
    exact ⟨_, hq, by simp⟩

/-- **A mixin answers what it invites, but for two of them.** -/
theorem invites_cases : ∀ k, ∀ p ∈ registrations k, ∀ s ∈ p.2.sets,
    (invites k s.1).all (answers p.1) = true ∨ (k = .window ∧ p.1 = withReceiveShowMessage) ∨
      (k = .workspace ∧ p.1 = withNotifyDidChangeWorkspaceFolders) := by
  decide +kernel

/-- The only classes that answer what the two invite. -/
theorem answers_cases : ∀ e ∈ registerServerRequestHooks, ∀ q ∈ e.2,
    (q.1 = "window/showMessageRequest".toList → e.1 = withRespondShowMessageRequest) ∧
      (q.1 = "workspace/workspaceFolders".toList → e.1 = withRespondWorkspaceFoldersRequest) := by
  decide +kernel

section Invited

variable {bs l : List RepoClass} {listeners : List Text} {s : Registered}

/-- What is advertised is set by a mixin that is reached. -/
theorem advertised_iff (h : mroOf bs = some l) {k : Category} {cap : Capability}
    (hcap : buildClientCapabilities l k = some cap) {f : Field} :
    cap f ≠ none ↔ ∃ c ∈ l, (∃ v, (f, v) ∈ setsOf k c) ∧
      (k = .workspace → ¬ [withRequestWorkspaceSymbolResolve, c].Sublist bs) := by
  by_cases hk : k.declaredBy ∈ l
  · rw [build_declared hk] at hcap
    cases hcap
    constructor
    · intro hset
      by_contra hnot
      push Not at hnot
      refine hset (registered_other fun c hran s hs hf => ?_)
      have hc := (ran_sublist (stepOf k) l).subset hran
      obtain ⟨hw, hpair⟩ := hnot c hc ⟨s.2, hf ▸ hs⟩
      exact (mem_ran h hc (registers_of_mem hs)).mp hran hw hpair
    · rintro ⟨c, hc, ⟨v, hs⟩, hlast⟩
      have hran := (mem_ran h hc (registers_of_mem hs)).mpr hlast
      rw [registered_mem (s := (f, v)) ⟨c, hran, hs⟩]
      exact Option.some_ne_none v
  · rw [build_undeclared hk] at hcap
    cases hcap
    refine iff_of_false (fun hset => hset rfl) fun ⟨c, hc, ⟨v, hs⟩, _⟩ => hk ?_
    exact (registers_before h hc (registers_of_mem hs)).subset (List.mem_cons_of_mem _ List.mem_cons_self)

/-- A request is answered if a mixin has a hook for it. -/
theorem isSome_getRequestHook (h : mroOf bs = some l) (hs : buildServerRequestHooks l listeners = some s) :
    (s.registry.getRequestHook m).isSome = true ↔ ∃ c ∈ l, answers c m = true := by
  rw [Option.isSome_iff_exists]
  simp only [getRequestHook_iff h hs, answers_iff]
  exact ⟨fun ⟨hook, c, hc, hq⟩ => ⟨c, hc, hook, hq⟩, fun ⟨c, hc, hook, hq⟩ => ⟨hook, c, hc, hq⟩⟩

theorem dispatch_unhandled {Obj E : Type*} {deserialize : Hooks.Value Obj → Text → Except E Obj}
    {r : ServerRequestHookRegistry Text Text} {req : RawRequest} :
    dispatchRequest r deserialize req =
        .error (.clientRuntimeError ("Unhandled server request method: ".toList ++ req.method)) ↔
      r.getRequestHook req.method = none := by
  rw [dispatchRequest]
  cases hget : r.getRequestHook req.method with
  | none => exact iff_of_true rfl rfl
  | some hook =>
    cases hd : deserialize (.request req) hook.cls <;> simp [hd]

theorem answers_showMessage {c : RepoClass} (h : answers c "window/showMessageRequest".toList = true) :
    c = withRespondShowMessageRequest := by
  obtain ⟨hook, hq⟩ := answers_iff.mp h
  obtain ⟨hooks, hmem, hin⟩ := mem_of_hooksOf hq
  exact (answers_cases _ hmem _ hin).1 rfl

theorem answers_workspaceFolders {c : RepoClass} (h : answers c "workspace/workspaceFolders".toList = true) :
    c = withRespondWorkspaceFoldersRequest := by
  obtain ⟨hook, hq⟩ := answers_iff.mp h
  obtain ⟨hooks, hmem, hin⟩ := mem_of_hooksOf hq
  exact (answers_cases _ hmem _ hin).2 rfl

/-- What invites a request is the mixin that answers it, or one of the two others. -/
theorem invited_cases {k : Category} {c : RepoClass} {f : Field} {v : Capabilities.Value}
    (hset : (f, v) ∈ setsOf k c) (hm : invites k f = some m) : answers c m = true ∨
      (k = .window ∧ c = withReceiveShowMessage ∧ m = "window/showMessageRequest".toList) ∨
      (k = .workspace ∧ c = withNotifyDidChangeWorkspaceFolders ∧
        m = "workspace/workspaceFolders".toList) := by
  obtain ⟨body, hbody⟩ := Option.isSome_iff_exists.mp (registers_of_mem hset).1
  have hin : (f, v) ∈ body.sets := by rwa [setsOf, hbody] at hset
  obtain hall | ⟨rfl, hc⟩ | ⟨rfl, hc⟩ := invites_cases k _ (mem_of_method hbody) _ hin
  · rw [hm] at hall
    exact Or.inl hall
  · -- what the mixin sets is `show_message`, and `workspace_folders` below
    subst hc
    cases List.mem_singleton.mp hset
    cases hm
    exact Or.inr (Or.inl ⟨rfl, rfl, rfl⟩)
  · subst hc
    cases List.mem_singleton.mp hset
    cases hm
    exact Or.inr (Or.inr ⟨rfl, rfl, rfl⟩)

/-- **A client answers every request that it invites, exactly if it has the
mixins that answer what two others invite**: `WithReceiveShowMessage`, and
`WithNotifyDidChangeWorkspaceFolders` where it is reached. -/
theorem invited_answered_iff {Obj E : Type*} (h : mroOf bs = some l)
    (hs : buildServerRequestHooks l listeners = some s)
    (deserialize : Hooks.Value Obj → Text → Except E Obj) :
    (∀ req : RawRequest, Invited l req.method →
      dispatchRequest s.registry deserialize req ≠
        .error (.clientRuntimeError ("Unhandled server request method: ".toList ++ req.method))) ↔
    (withReceiveShowMessage ∈ l → withRespondShowMessageRequest ∈ l) ∧
      (withNotifyDidChangeWorkspaceFolders ∈ l →
        ¬ [withRequestWorkspaceSymbolResolve, withNotifyDidChangeWorkspaceFolders].Sublist bs →
        withRespondWorkspaceFoldersRequest ∈ l) := by
  simp only [ne_eq, dispatch_unhandled, ← Option.not_isSome_iff_eq_none, not_not,
    isSome_getRequestHook h hs]
  constructor
  · -- a client of one of the two invites the request, so that some mixin answers
    intro hall
    refine ⟨fun hreceive => ?_, fun hnotify hreached => ?_⟩
    · have hdeclared : Category.declaredBy .window ∈ l :=
        (registers_before h hreceive (k := .window) (by decide)).subset (by simp)
      have hset : ∃ v, (Field.showMessage, v) ∈ setsOf .window withReceiveShowMessage :=
        ⟨_, List.mem_singleton_self _⟩
      obtain ⟨c, hc, hans⟩ := hall ⟨none, "window/showMessageRequest".toList, none⟩ ⟨.window, _, .showMessage,
        build_declared hdeclared, (advertised_iff h (build_declared hdeclared)).mpr
          ⟨_, hreceive, hset, nofun⟩, rfl⟩
      exact answers_showMessage hans ▸ hc
    · have hdeclared : Category.declaredBy .workspace ∈ l :=
        (registers_before h hnotify (k := .workspace) (by decide)).subset (by simp)
      have hset : ∃ v, (Field.workspaceFolders, v) ∈ setsOf .workspace withNotifyDidChangeWorkspaceFolders :=
        ⟨_, List.mem_singleton_self _⟩
      obtain ⟨c, hc, hans⟩ := hall ⟨none, "workspace/workspaceFolders".toList, none⟩ ⟨.workspace, _,
        .workspaceFolders, build_declared hdeclared, (advertised_iff h (build_declared hdeclared)).mpr
          ⟨_, hnotify, hset, fun _ => hreached⟩, rfl⟩
      exact answers_workspaceFolders hans ▸ hc
  · rintro ⟨hmessage, hfolders⟩ req ⟨k, cap, f, hcap, hset, hinvites⟩
    obtain ⟨c, hc, ⟨v, hv⟩, hreached⟩ := (advertised_iff h hcap).mp hset
    obtain hans | ⟨rfl, rfl, hm⟩ | ⟨rfl, rfl, hm⟩ := invited_cases hv hinvites
    · exact ⟨c, hc, hans⟩
    · exact ⟨_, hmessage hc, hm ▸ by decide⟩
    · exact ⟨_, hfolders hc (hreached rfl), hm ▸ by decide⟩

end Invited

/-- A client that shows messages and does not answer requests about them: what
it advertises invites one, on which `dispatch` raises. -/
theorem invited_unanswered_small : ∃ (l : List RepoClass) (s : Registered),
    mroOf [withReceiveShowMessage, client] = some l ∧ buildServerRequestHooks l [] = some s ∧
      ¬ ∀ req : RawRequest, Invited l req.method →
        dispatchRequest s.registry Hooks.Small.deserialize req ≠
          .error (.clientRuntimeError ("Unhandled server request method: ".toList ++ req.method)) := by
  have h : mroOf [withReceiveShowMessage, client] = some _ := Option.eq_some_of_isSome (by decide +kernel)
  have hs := build_eq h []
  refine ⟨_, _, h, hs, fun hall => ?_⟩
  have hmixins := ((invited_answered_iff h hs Hooks.Small.deserialize).mp hall).1
  revert hmixins
  decide +kernel

/-! ### What the mixins need of the server -/

/-- The attributes of `ServerCapabilities` that are looked at. -/
inductive Provider where
  | textDocumentSync
  | diagnosticProvider
  | callHierarchyProvider
  | codeActionProvider
  | completionProvider
  | declarationProvider
  | definitionProvider
  | documentSymbolProvider
  | executeCommandProvider
  | hoverProvider
  | implementationProvider
  | inlayHintProvider
  | inlineValueProvider
  | referencesProvider
  | renameProvider
  | signatureHelpProvider
  | typeDefinitionProvider
  | typeHierarchyProvider
  | workspaceSymbolProvider
  deriving DecidableEq, Repr

/-- The value of such an attribute; `kind` is a `TextDocumentSyncKind`. -/
inductive Provision where
  | none
  | flag (b : Bool)
  | kind (n : ℕ)
  | options (resolveProvider : Option Bool)
  deriving DecidableEq, Repr

/-- `bool(..)`; an instance of an options class is true. -/
def Provision.truthy : Provision → Bool
  | .none => false
  | .flag b => b
  | .kind n => n ≠ 0
  | .options _ => true

abbrev ServerCapabilities := Provider → Provision

/-- What is asserted of an attribute. -/
inductive Assertion where
  | truthy (p : Provider)
  /-- `isinstance(.., WorkspaceSymbolOptions)`. -/
  | isOptions (p : Provider)
  /-- The attribute's own `resolve_provider`. -/
  | resolves (p : Provider)
  deriving DecidableEq, Repr

def Assertion.holds (cap : ServerCapabilities) : Assertion → Bool
  | .truthy p => (cap p).truthy
  | .isOptions p => match cap p with
    | .options _ => true
    | _ => false
  | .resolves p => match cap p with
    | .options resolveProvider => resolveProvider.getD false
    | _ => false

/-- The classes that define `check_server_capability`, with what each asserts
after its call of `super()`. -/
def checks : List (RepoClass × List Assertion) :=
  [(withDocumentDiagnostic, [.truthy .diagnosticProvider]),
    (withWorkspaceDiagnostic, [.truthy .diagnosticProvider]),
    (withNotifyDidChangeConfiguration, []),
    (withNotifyDidChangeWorkspaceFolders, []),
    (withNotifyDidCreateFiles, []),
    (withNotifyDidDeleteFiles, []),
    (withNotifyDidRenameFiles, []),
    (withNotifyTextDocumentSynchronize, [.truthy .textDocumentSync]),
    (withRequestCallHierarchy, [.truthy .callHierarchyProvider]),
    (withRequestCodeAction, [.truthy .codeActionProvider]),
    (withRequestCompletion, [.truthy .completionProvider]),
    (withRequestDeclaration, [.truthy .declarationProvider]),
    (withRequestDefinition, [.truthy .definitionProvider]),
    (withRequestDocumentSymbol, [.truthy .documentSymbolProvider]),
    (withRequestExecuteCommand, [.truthy .executeCommandProvider]),
    (withRequestHover, [.truthy .hoverProvider]),
    (withRequestImplementation, [.truthy .implementationProvider]),
    (withRequestInlayHint, [.truthy .inlayHintProvider]),
    (withRequestInlineValue, [.truthy .inlineValueProvider]),
    (withRequestReferences, [.truthy .referencesProvider]),
    (withRequestRename, [.truthy .renameProvider]),
    (withRequestSignatureHelp, [.truthy .signatureHelpProvider]),
    (withRequestTypeDefinition, [.truthy .typeDefinitionProvider]),
    (withRequestTypeHierarchy, [.truthy .typeHierarchyProvider]),
    (withRequestWillCreateFiles, []),
    (withRequestWillDeleteFiles, []),
    (withRequestWillRenameFiles, []),
    (withRequestWorkspaceSymbol, [.truthy .workspaceSymbolProvider]),
    (withRequestWorkspaceSymbolResolve,
      [.isOptions .workspaceSymbolProvider, .resolves .workspaceSymbolProvider]),
    (withReceiveLogMessage, []),
    (withReceiveLogTrace, []),
    (withReceivePublishDiagnostics, []),
    (withReceiveShowMessage, []),
    (withRespondApplyEdit, []),
    (withRespondConfigurationRequest, []),
    (withRespondInlayHintRefresh, []),
    (withRespondShowDocumentRequest, []),
    (withRespondShowMessageRequest, []),
    (withRespondWorkspaceFoldersRequest, [])]

/-- What a class does with `check_server_capability`; in `CapabilityProtocol` it returns. -/
def checkStep (c : RepoClass) : Step :=
  if c = capabilityProtocol then .stops
  else if (checks.lookup c).isSome then .goesOn else .inherits

/-- The assertions of a class hold. -/
def meets (cap : ServerCapabilities) (c : RepoClass) : Bool :=
  ((checks.lookup c).getD []).all (Assertion.holds cap)

/-- The body after the call of `super()`; an error is the class whose assertion fails. -/
def check (cap : ServerCapabilities) (c : RepoClass) (s : Except RepoClass Unit) : Except RepoClass Unit :=
  s.bind fun _ => if meets cap c then .ok () else .error c

/-- `check_server_capability` as `_initialize` calls it. -/
def checkServerCapability (order : List RepoClass) (cap : ServerCapabilities) :
    Option (Except RepoClass Unit) :=
  if capabilityProtocol ∈ order then call checkStep (check cap) order (.ok ()) else some (.ok ())

section Checks

variable {bs l : List RepoClass} {cap : ServerCapabilities}

theorem check_foldr_ok : ∀ {cs : List RepoClass},
    cs.foldr (check cap) (.ok ()) = .ok () ↔ ∀ c ∈ cs, meets cap c = true
  | [] => by simp
  | c :: cs => by
    have ih : cs.foldr (check cap) (.ok ()) = .ok () ↔ ∀ c ∈ cs, meets cap c = true := check_foldr_ok
    rw [List.foldr_cons, List.forall_mem_cons]
    cases hrest : cs.foldr (check cap) (.ok ()) with
    | error e =>
      rw [hrest] at ih
      exact iff_of_false nofun fun hall => nomatch ih.mpr hall.2
    | ok =>
      rw [hrest] at ih
      have hall := ih.mp rfl
      cases hc : meets cap c with
      | false => simp [check, Except.bind, hc]
      | true => simpa [check, Except.bind, hc] using hall

/-- The error is that of the last class whose assertion fails. -/
theorem check_foldr_error {e : RepoClass} : ∀ {cs : List RepoClass}, cs.Nodup →
    (cs.foldr (check cap) (.ok ()) = .error e ↔
      e ∈ cs ∧ meets cap e = false ∧ ∀ c, [e, c].Sublist cs → meets cap c = true)
  | [], _ => by simp
  | c :: cs, hnodup => by
    obtain ⟨hc, hcs⟩ := List.nodup_cons.mp hnodup
    have ih := check_foldr_error (e := e) hcs
    have hok : cs.foldr (check cap) (.ok ()) = .ok () ↔ ∀ c ∈ cs, meets cap c = true := check_foldr_ok
    rw [List.foldr_cons]
    simp only [pair_sublist_cons, or_imp, forall_and, and_imp]
    cases hrest : cs.foldr (check cap) (.ok ()) with
    | error e' =>
      rw [hrest] at ih hok
      have hsome : ¬ ∀ c ∈ cs, meets cap c = true := fun hall => nomatch hok.mpr hall
      change Except.error e' = .error e ↔ _
      rw [ih]
      constructor
      · rintro ⟨he, hfails, hlast⟩
        exact ⟨List.mem_cons_of_mem _ he, hfails, fun x hx _ => absurd (hx ▸ he) hc, hlast⟩
      · rintro ⟨he, hfails, hhead, hlast⟩
        have hne : e ≠ c := fun hec => hsome fun x hx => hhead x hec hx
        exact ⟨(List.mem_cons.mp he).resolve_left hne, hfails, hlast⟩
    | ok =>
      rw [hrest] at hok
      have hall := hok.mp rfl
      change (if meets cap c then Except.ok () else .error c) = .error e ↔ _
      cases hm : meets cap c with
      | true =>
        refine iff_of_false nofun fun ⟨he, hfails, _⟩ => ?_
        rcases List.mem_cons.mp he with rfl | he
        · rw [hm] at hfails
          cases hfails
        · rw [hall e he] at hfails
          cases hfails
      | false =>
        constructor
        · intro heq
          cases heq
          exact ⟨List.mem_cons_self, hm, fun x _ hx => hall x hx, fun x hx => hall x (hx.subset (by simp))⟩
        · rintro ⟨he, hfails, -⟩
          rcases List.mem_cons.mp he with rfl | he
          · rfl
          · rw [hall e he] at hfails
            cases hfails

theorem checkStep_stops {c : RepoClass} (h : checkStep c = .stops) : c = capabilityProtocol := by
  by_contra hne
  rw [checkStep, if_neg hne] at h
  split_ifs at h

/-- A class whose assertion fails is one of those that assert something. -/
theorem mem_checks {c : RepoClass} (hfails : meets cap c = false) :
    ∃ assertions, (c, assertions) ∈ checks ∧ assertions ≠ [] := by
  rw [meets] at hfails
  cases hl : checks.lookup c with
  | none =>
    rw [hl] at hfails
    cases hfails
  | some assertions =>
    refine ⟨assertions, Dict.mem_of_lookup hl, fun hnil => ?_⟩
    rw [hl, hnil] at hfails
    cases hfails

/-- A class that asserts something is of a protocol that is of the last one. -/
theorem meets_base {c : RepoClass} (hc : meets cap c = false) : checkStep c = .goesOn ∧
    ∃ p ∈ bases c, capabilityProtocol ∈ bases p := by
  have hall : ∀ e ∈ checks, checkStep e.1 = .goesOn ∧ ∃ p ∈ bases e.1, capabilityProtocol ∈ bases p := by
    decide +kernel
  obtain ⟨assertions, hmem, -⟩ := mem_checks hc
  exact hall _ hmem

/-- A class whose assertion fails is before the last protocol, and is reached. -/
theorem mem_ran_checkStep (h : mroOf bs = some l) {c : RepoClass} (hc : c ∈ l)
    (hfails : meets cap c = false) : [c, capabilityProtocol].Sublist l ∧ c ∈ ran checkStep l := by
  obtain ⟨hstep, p, hp, hcap⟩ := meets_base hfails
  have hnodup := mroOf_nodup h
  have hfirst := base_after_mroOf h hp hc
  have hsecond := base_after_mroOf h hcap (hfirst.subset (List.mem_cons_of_mem _ List.mem_cons_self))
  have hpair := pair_trans hnodup hfirst hsecond
  refine ⟨hpair, (mem_ran_iff checkStep hnodup).mpr ⟨hc, hstep ▸ by decide, fun x hx hstops => ?_⟩⟩
  rw [checkStep_stops hstops] at hx
  exact pair_asymm hnodup hpair hx

/-- The classes that are not reached assert nothing. -/
theorem meets_of_notRan (h : mroOf bs = some l) {c : RepoClass} (hc : c ∈ l) (hran : c ∉ ran checkStep l) :
    meets cap c = true := by
  by_contra hfails
  exact hran (mem_ran_checkStep h hc (Bool.eq_false_iff.mpr hfails)).2

/-- Without the last protocol there is no class that asserts anything. -/
theorem meets_of_noProtocol (h : mroOf bs = some l) (hprotocol : capabilityProtocol ∉ l) {c : RepoClass}
    (hc : c ∈ l) : meets cap c = true := by
  by_contra hfails
  exact hprotocol ((mem_ran_checkStep h hc (Bool.eq_false_iff.mpr hfails)).1.subset (by simp))

theorem checkServerCapability_eq (hprotocol : capabilityProtocol ∈ l) :
    checkServerCapability l cap = some ((ran checkStep l).foldr (check cap) (.ok ())) := by
  rw [checkServerCapability, if_pos hprotocol]
  exact call_eq ⟨_, hprotocol, by decide⟩

theorem checkServerCapability_ok (h : mroOf bs = some l) :
    checkServerCapability l cap = some (.ok ()) ↔ ∀ c ∈ l, meets cap c = true := by
  by_cases hprotocol : capabilityProtocol ∈ l
  · rw [checkServerCapability_eq hprotocol, Option.some.injEq, check_foldr_ok]
    refine ⟨fun hall c hc => ?_, fun hall c hc => hall c ((ran_sublist checkStep l).subset hc)⟩
    by_cases hran : c ∈ ran checkStep l
    · exact hall c hran
    · exact meets_of_notRan h hc hran
  · rw [checkServerCapability, if_neg hprotocol]
    exact iff_of_true rfl fun c hc => meets_of_noProtocol h hprotocol hc

/-- **`_initialize` goes on exactly if every mixin has what it needs**; else the
assertion that fails is that of the last such class of the order. -/
theorem checked_iff (h : mroOf bs = some l) (cap : ServerCapabilities) :
    (checkServerCapability l cap = some (.ok ()) ↔ ∀ c ∈ l, meets cap c = true) ∧
      ∀ e, checkServerCapability l cap = some (.error e) ↔
        e ∈ l ∧ meets cap e = false ∧ ∀ c, [e, c].Sublist l → meets cap c = true := by
  refine ⟨checkServerCapability_ok h, fun e => ?_⟩
  have hnodup := mroOf_nodup h
  by_cases hprotocol : capabilityProtocol ∈ l
  · have hsub := ran_sublist checkStep l
    rw [checkServerCapability_eq hprotocol, Option.some.injEq, check_foldr_error (hsub.nodup hnodup)]
    constructor
    · rintro ⟨he, hfails, hlast⟩
      refine ⟨hsub.subset he, hfails, fun c hpair => ?_⟩
      by_cases hran : c ∈ ran checkStep l
      · exact hlast c (pair_part hnodup hsub he hran hpair)
      · exact meets_of_notRan h (hpair.subset (List.mem_cons_of_mem _ List.mem_cons_self)) hran
    · rintro ⟨he, hfails, hlast⟩
      exact ⟨(mem_ran_checkStep h he hfails).2, hfails, fun c hpair => hlast c (hpair.trans hsub)⟩
  · rw [checkServerCapability, if_neg hprotocol]
    refine iff_of_false (by simp) fun ⟨he, hfails, _⟩ => ?_
    rw [meets_of_noProtocol h hprotocol he] at hfails
    cases hfails

/-- A server without hover, and one with it. -/
theorem checked_small : ∃ l : List RepoClass, mroOf [withRequestHover, client] = some l ∧
    checkServerCapability l (fun p => if p = .hoverProvider then .none else .flag true) =
      some (.error withRequestHover) ∧
    checkServerCapability l (fun _ => .flag true) = some (.ok ()) := by
  have h : mroOf [withRequestHover, client] = some _ := Option.eq_some_of_isSome (by decide +kernel)
  exact ⟨_, h, ((checked_iff h _).2 _).mpr (by decide +kernel), (checked_iff h _).1.mpr (by decide +kernel)⟩

end Checks

end Handlers
end LspClient
