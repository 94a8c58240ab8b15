/-
# The configuration that a server has

A client that answers `workspace/configuration` and may notify
`didChangeConfiguration` registers a listener on its `ConfigurationMap` each
time it is entered. Every change of the map calls the listeners, each of which
notifies the server. The notification says only that something has changed. The
server is one that asks again on each notification it reads, and always for the
same items; a task of its own answers each of its requests, from the map as it
is when the task gets to it.

Changes, notifications, requests and answers of several changes are under way at
once and overtake one another. Once all is quiet, what the server holds by the
latest of its requests is what the map says (`configuration_current`): the
system is that of `Lib/Refresh` (`step_refresh`).

Key definitions: `respondConfiguration`, `State`, `step`, `Listened`, `Quiet`.
Key theorems: `step_refresh`, `configuration_current`.
-/
import LspClient.Config
import LspClient.Lib.Refresh
import LspClient.Lib.Run

namespace LspClient
namespace Configuration

variable {α : Type}

/-- `ConfigurationItem`. -/
structure ConfigurationItem where
  scopeUri : Option Text
  sect : Option Text
  deriving DecidableEq, Repr

section Respond

variable (netlocError : Text → Option Text) (fnmatch : Text → Text → Bool)

/-- `get_configuration`; there is always a map, and it is truthy. -/
def getConfiguration (map : ConfigurationMap α) (item : ConfigurationItem) : Except UriError (Value α) :=
  map.get netlocError fnmatch item.scopeUri item.sect

/-- `_respond_configuration`. -/
def respondConfiguration (map : ConfigurationMap α) (items : List ConfigurationItem) :
    Except UriError (List (Value α)) :=
  items.mapM (getConfiguration netlocError fnmatch map)

end Respond

/-- A request `workspace/configuration` of the server. -/
inductive Request (α : Type) where
  /-- On its way, or waiting for its task. -/
  | requested
  /-- The response is on its way. -/
  | responded (result : List (Value α))
  | received (result : List (Value α))

/-- What the server has received. -/
def Request.result : Request α → Option (List (Value α))
  | received result => some result
  | _ => none

/-- The map and its listeners, the notifications, and the requests in the order in
which the server makes them; `failed` once a hook has raised, which ends the session. -/
structure State (α : Type) where
  map : ConfigurationMap α
  listeners : ℕ
  /-- Listeners whose frame has not left. -/
  notifying : ℕ
  /-- Notifications the server has not read. -/
  sent : ℕ
  requests : List (Request α)
  failed : Bool

inductive Action (α : Type) where
  /-- The client is entered: `register_server_request_hooks` adds its listener. -/
  | enter
  | updateGlobal (config : Config α) (merge : Bool)
  | addScope (pattern : Text) (config : Config α)
  /-- The frame of a listener's notification leaves. -/
  | notify
  /-- The server reads a notification, and requests the configuration. -/
  | notified
  /-- The server requests the configuration of its own. -/
  | request
  /-- The task of request `k` responds. -/
  | respond (k : ℕ)
  /-- The server receives the response to request `k`. -/
  | receive (k : ℕ)

namespace State

def start (map : ConfigurationMap α) : State α := ⟨map, 0, 0, 0, [], false⟩

/-- The map has changed, and `_notify_change` calls the listeners. -/
def change (s : State α) (map : ConfigurationMap α) : State α :=
  { s with map := map, notifying := s.notifying + s.listeners }

/-- The server makes a request. -/
def ask (s : State α) : State α := { s with requests := s.requests ++ [.requested] }

/-- What the server holds: the response to the latest request it has one for. -/
def copy (s : State α) : Option (List (Value α)) := (s.requests.filterMap Request.result).getLast?

/-- Nothing is under way. -/
def Quiet (s : State α) : Prop :=
  s.notifying = 0 ∧ s.sent = 0 ∧ ∀ r ∈ s.requests, r.result.isSome = true

end State

section Steps

variable (netlocError : Text → Option Text) (fnmatch : Text → Text → Bool) (items : List ConfigurationItem)

/-- One step; `items` is what the server asks for. -/
def act (s : State α) : Action α → Option (State α)
  | .enter => some { s with listeners := s.listeners + 1 }
  | .updateGlobal config merge => some (s.change (s.map.updateGlobal config merge))
  | .addScope pattern config => some (s.change (s.map.addScope pattern config))
  | .notify =>
    if s.notifying = 0 then none else some { s with notifying := s.notifying - 1, sent := s.sent + 1 }
  | .notified => if s.sent = 0 then none else some { s with sent := s.sent - 1 }.ask
  | .request => some s.ask
  | .respond k =>
    match s.requests[k]? with
    | some .requested =>
      match respondConfiguration netlocError fnmatch s.map items with
      | .ok result => some { s with requests := s.requests.set k (.responded result) }
      | .error _ => some { s with failed := true }
    | _ => none
  | .receive k =>
    match s.requests[k]? with
    | some (.responded result) => some { s with requests := s.requests.set k (.received result) }
    | _ => none

/-- One step of a session that has not ended. -/
def step (s : State α) (a : Action α) : Option (State α) :=
  if s.failed = true then none else act netlocError fnmatch items s a

/-- A change is listened to, or is none of what the server asks for. -/
def Listened (s : State α) (a : Action α) : Prop :=
  ∀ map, (∃ config merge, a = .updateGlobal config merge ∧ map = s.map.updateGlobal config merge) ∨
    (∃ pattern config, a = .addScope pattern config ∧ map = s.map.addScope pattern config) →
    0 < s.listeners ∨
      respondConfiguration netlocError fnmatch map items = respondConfiguration netlocError fnmatch s.map items

/-! ### The copy of the server -/

/-- A request as a question. -/
def Request.question : Request α → Refresh.Question (Except UriError (List (Value α)))
  | requested => .asked
  | responded result => .read (.ok result)
  | received result => .answered (.ok result)

/-- The map is a store, and the server keeps a copy of what it asks for. -/
def State.refresh (s : State α) : Refresh.State (ConfigurationMap α) (Except UriError (List (Value α))) :=
  ⟨s.map, s.notifying + s.sent, s.requests.map Request.question⟩

variable {netlocError fnmatch items} {s t : State α}

theorem refresh_ask (s : State α) : s.ask.refresh = s.refresh.ask := by
  simp [State.refresh, State.ask, Refresh.State.ask, Request.question]

theorem refresh_get {k : ℕ} {r : Request α} (h : s.requests[k]? = some r) :
    s.refresh.questions[k]? = some r.question := by
  rw [State.refresh, List.getElem?_map, h]
  rfl

theorem refresh_set (s : State α) (k : ℕ) (r : Request α) :
    State.refresh { s with requests := s.requests.set k r } = s.refresh.set k r.question := by
  simp [State.refresh, Refresh.State.set, List.map_set]

/-- **Each step of the client and the server is one of the store and its reader**,
or is none that these know of. -/
theorem step_refresh {a : Action α} (ha : Listened netlocError fnmatch items s a)
    (hstep : step netlocError fnmatch items s a = some t) (hfailed : t.failed = false) :
    t.refresh = s.refresh ∨ ∃ b,
      Refresh.Noticed (fun map => respondConfiguration netlocError fnmatch map items) s.refresh b ∧
      Refresh.step (fun map => respondConfiguration netlocError fnmatch map items) s.refresh b = some t.refresh := by
  have hchange : ∀ map, 0 < s.listeners ∨ respondConfiguration netlocError fnmatch map items =
      respondConfiguration netlocError fnmatch s.map items →
      Refresh.Noticed (fun map => respondConfiguration netlocError fnmatch map items) s.refresh
        (.change map s.listeners) ∧
      Refresh.step (fun map => respondConfiguration netlocError fnmatch map items) s.refresh
        (.change map s.listeners) = some (s.change map).refresh := fun map hmap => by
    refine ⟨hmap, ?_⟩
    simp only [Refresh.step, State.refresh, State.change]
    congr 2
    omega
  unfold step at hstep
  split_ifs at hstep
  cases a with
  | enter =>
    obtain rfl := Option.some.inj hstep
    exact .inl rfl
  | updateGlobal config merge =>
    obtain rfl := Option.some.inj hstep
    exact .inr ⟨_, hchange _ (ha _ (.inl ⟨config, merge, rfl, rfl⟩))⟩
  | addScope pattern config =>
    obtain rfl := Option.some.inj hstep
    exact .inr ⟨_, hchange _ (ha _ (.inr ⟨pattern, config, rfl, rfl⟩))⟩
  | notify =>
    simp only [act] at hstep
    split_ifs at hstep
    obtain rfl := Option.some.inj hstep
    left
    simp only [State.refresh]
    congr 1
    omega
  | notified =>
    simp only [act] at hstep
    split_ifs at hstep with hsent
    obtain rfl := Option.some.inj hstep
    refine .inr ⟨.notice, trivial, ?_⟩
    have hnotices : s.refresh.notices = s.notifying + s.sent := rfl
    rw [Refresh.step, if_neg (by omega), refresh_ask]
    congr 3
    show s.notifying + s.sent - 1 = s.notifying + (s.sent - 1)
    omega
  | request =>
    obtain rfl := Option.some.inj hstep
    exact .inr ⟨.ask, trivial, congrArg some (refresh_ask s).symm⟩
  | respond k =>
    simp only [act] at hstep
    split at hstep
    · rename_i hk
      split at hstep
      · rename_i result hresult
        obtain rfl := Option.some.inj hstep
        refine .inr ⟨.read k, trivial, ?_⟩
        simp only [Refresh.step, refresh_get hk, Request.question, refresh_set]
        rw [show s.refresh.store = s.map from rfl, hresult]
      · obtain rfl := Option.some.inj hstep
        cases hfailed
    · cases hstep
  | receive k =>
    simp only [act] at hstep
    split at hstep
    · rename_i result hk
      obtain rfl := Option.some.inj hstep
      refine .inr ⟨.answer k, trivial, ?_⟩
      simp only [Refresh.step, refresh_get hk, Request.question, refresh_set]
    · cases hstep

/-- The server is as current as its requests let it be. -/
def State.Current (netlocError : Text → Option Text) (fnmatch : Text → Text → Bool)
    (items : List ConfigurationItem) (s : State α) : Prop :=
  s.failed = false → s.refresh.Current fun map => respondConfiguration netlocError fnmatch map items

theorem current_step (h : s.Current netlocError fnmatch items) {a : Action α}
    (ha : Listened netlocError fnmatch items s a) (hstep : step netlocError fnmatch items s a = some t) :
    t.Current netlocError fnmatch items := by
  intro hfailed
  have hs : s.failed = false := by
    cases hf : s.failed with
    | false => rfl
    | true =>
      rw [step, if_pos hf] at hstep
      cases hstep
  rcases step_refresh ha hstep hfailed with heq | ⟨b, hb, hrefresh⟩
  · rw [heq]
    exact h hs
  · exact Refresh.current_step (h hs) hb hrefresh

theorem copy_refresh (s : State α) : s.refresh.copy = s.copy.map .ok := by
  have hanswer : ∀ r : Request α, r.question.answer = r.result.map .ok := fun r => by cases r <;> rfl
  have hmap : s.refresh.questions.filterMap Refresh.Question.answer =
      (s.requests.filterMap Request.result).map .ok := by
    rw [State.refresh, List.filterMap_map, List.map_filterMap]
    exact List.filterMap_congr fun r _ => hanswer r
  rw [Refresh.State.copy, hmap, List.getLast?_map, State.copy]

/-- **When all is quiet, the server holds what the map says.** Whatever changes,
notifications, requests and responses have overtaken one another, the response
to the latest of the server's requests is that of the map as it is. -/
theorem configuration_current {map : ConfigurationMap α} {as : List (Action α)}
    (hrun : Run.exec (step netlocError fnmatch items) (.start map) as = some s)
    (hlistened : Run.Along (step netlocError fnmatch items) (Listened netlocError fnmatch items) (.start map) as)
    (hfailed : s.failed = false) (hquiet : s.Quiet) (hasked : s.requests ≠ []) :
    ∃ result, s.copy = some result ∧ respondConfiguration netlocError fnmatch s.map items = .ok result := by
  have hcurrent := Run.exec_inv_along (I := State.Current netlocError fnmatch items)
    (fun _ _ _ h ha hstep => current_step h ha hstep) as (fun _ => Refresh.current_start map) hlistened hrun
  obtain ⟨hnotifying, hsent, hall⟩ := hquiet
  have hsettled : s.refresh.Settled := by
    refine ⟨?_, fun q hq => ?_⟩
    · show s.notifying + s.sent = 0
      omega
    · obtain ⟨r, hr, rfl⟩ := List.mem_map.mp hq
      have hr := hall r hr
      cases r <;> first | rfl | cases hr
  have hcopy := (hcurrent hfailed).copy_eq hsettled fun hnil => hasked (List.map_eq_nil_iff.mp hnil)
  rw [copy_refresh] at hcopy
  obtain ⟨result, hresult, hok⟩ := Option.map_eq_some_iff.mp hcopy
  exact ⟨result, hresult, hok.symm⟩

/-- Two requests: the response to the earlier one, from before a change, is received last. -/
def overtaken : List (Action ℕ) :=
  [.enter, .request, .respond 0, .updateGlobal (.single "a".toList ⟨.leaf (some 1), .leaf _⟩) true, .notify,
    .notified, .respond 1, .receive 1, .receive 0]

theorem configuration_current_overtaken :
    ∃ s : State ℕ, Run.exec (step (fun _ => none) (fun _ _ => false) [⟨none, some "a".toList⟩]) (.start {})
        overtaken = some s ∧
      ∃ result, s.copy = some result ∧
        respondConfiguration (fun _ => none) (fun _ _ => false) s.map [⟨none, some "a".toList⟩] = .ok result := by
  have hlistened : Run.Along (step (fun _ => none) (fun _ _ => false) [⟨none, some "a".toList⟩])
      (Listened (fun _ => none) (fun _ _ => false) [⟨none, some "a".toList⟩]) (.start {}) overtaken := by
    iterate 3 refine (Run.along_cons rfl).mpr ⟨(by rintro _ (⟨_, _, h, -⟩ | ⟨_, _, h, -⟩) <;> cases h), ?_⟩
    refine (Run.along_cons rfl).mpr ⟨fun _ _ => .inl Nat.zero_lt_one, ?_⟩
    iterate 5 refine (Run.along_cons rfl).mpr ⟨(by rintro _ (⟨_, _, h, -⟩ | ⟨_, _, h, -⟩) <;> cases h), ?_⟩
    trivial
  have hreceived : ∀ r ∈ [Request.received [Value.leaf none], .received [Value.leaf (some 1)]],
      r.result.isSome = true := by simp [Request.result]
  exact ⟨_, rfl, configuration_current rfl hlistened rfl ⟨rfl, rfl, hreceived⟩ (List.cons_ne_nil _ _)⟩

end Steps

end Configuration
end LspClient
