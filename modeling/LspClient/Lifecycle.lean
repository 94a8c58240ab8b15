/-
# The life of a session

`async with client` starts a server and initializes it: `initialize` is
requested, its result is checked, `initialized` is notified and the default
configuration is set. The body runs then, with any number of tasks that request
and notify. However it ends, the session waits until the response table is
empty, requests `shutdown` and notifies `exit`.

All of this happens at once: `step` is one step of the session or of one of the
tasks, on the table of `ResponseTable`. The other side is `ServerPhase`, what the
protocol lets a server be told and when; it refuses, among others, a `shutdown`
while a request is open. If no notification of the body is under way when the
body ends, the server is never told anything it must refuse, however the tasks
are interleaved and whatever fails (`session_accepted`).

Key definitions: `ServerPhase`, `accept`, `Stage`, `State`, `step`, `Timely`.
Key theorems: `inv_step`, `session_accepted`.
-/
import LspClient.Outstanding

set_option linter.unusedSectionVars false

namespace LspClient
namespace Lifecycle

open Requests (Caller Handler HandlerPc Response OneShotTable.completed)

/-! ### What a server may be told -/

/-- What the server is told, and what it answers. -/
inductive Event (Id : Type*) where
  | initializeRequest (id : Id)
  | initializedNotification
  | request (id : Id)
  | notification
  | shutdownRequest (id : Id)
  | exitNotification
  | answered (id : Id)
  deriving DecidableEq, Repr

/-- Where a server stands; `running` with the requests it has not answered. -/
inductive ServerPhase (Id : Type*) where
  | uninitialized
  | initializing (id : Id)
  | initialized
  | running (unanswered : List Id)
  | shuttingDown (id : Id)
  | shutDown
  | exited
  deriving DecidableEq, Repr

variable {ι ν Id V E R : Type*} [DecidableEq Id]

namespace ServerPhase

/-- `none` where the protocol is violated. -/
def next : ServerPhase Id → Event Id → Option (ServerPhase Id)
  | uninitialized, .initializeRequest id => some (initializing id)
  | initializing id, .answered id' => if id' = id then some initialized else none
  | initialized, .initializedNotification => some (running [])
  | running ids, .request id => if id ∈ ids then none else some (running (ids ++ [id]))
  | running ids, .answered id => if id ∈ ids then some (running (ids.erase id)) else none
  | running ids, .notification => some (running ids)
  | running [], .shutdownRequest id => some (shuttingDown id)
  | shuttingDown id, .answered id' => if id' = id then some shutDown else none
  | shutDown, .exitNotification => some exited
  | _, _ => none

/-- The requests the server has not answered. -/
def unanswered : ServerPhase Id → List Id
  | initializing id | shuttingDown id => [id]
  | running ids => ids
  | _ => []

end ServerPhase

/-- Where a server stands that has been told all this. -/
def accept (log : List (Event Id)) : Option (ServerPhase Id) :=
  log.foldlM ServerPhase.next .uninitialized

theorem accept_snoc (log : List (Event Id)) (e : Event Id) :
    accept (log ++ [e]) = (accept log).bind fun phase => phase.next e := by
  rw [accept, List.foldlM_append]
  simp only [List.foldlM_cons, List.foldlM_nil, bind_pure]
  rfl

/-! ### The session -/

/-- The calls of `Client.request`: the session's own and those of the body. -/
inductive Call (ι : Type*) where
  | initializeRequest
  | body (i : ι)
  | shutdownRequest
  deriving DecidableEq, Repr

/-- What stands under the keys `"error"` and `"result"` of a response, where they are there. -/
structure RawResponse (V : Type*) where
  error : Option V
  result : Option V
  deriving DecidableEq, Repr

/-- `JsonRpcResponseError` has the error, `JsonRpcParseError` is what there is no
sense in; `structure` is what `converter.structure` raises. -/
inductive ResponseFailure (V E : Type*) where
  | responseError (code : ℤ) (message : List Char) (data : Option V)
  | parseError
  | structure (e : E)
  deriving Repr

/-- `converter.structure`, of the error of a response and of its result. -/
structure Converter (V E R : Type*) where
  error : V → Except E (Option (ℤ × List Char × Option V))
  result : V → Except E R

/-- `response_deserialize`. -/
def responseDeserialize (converter : Converter V E R) (raw : RawResponse V) :
    Except (ResponseFailure V E) R :=
  match raw.error, raw.result with
  | some e, _ =>
    match converter.error e with
    | .error e => .error (.structure e)
    | .ok (some (code, message, data)) => .error (.responseError code message data)
    | .ok none => .error .parseError
  | none, some v =>
    match converter.result v with
    | .error e => .error (.structure e)
    | .ok r => .ok r
  | none, none => .error .parseError

/-- Where a call of `Client.notify` stands. -/
inductive Notifier where
  | idle
  | sending
  /-- The frame has left, and `send` has not returned. -/
  | out
  | ended (ok : Bool)
  deriving DecidableEq, Repr

/-- Where `async with client` stands; `out` is whether the frame of its own
notification has left. -/
inductive Stage (ν : Type*) where
  | entering
  | initializing
  | announcing (out : Bool)
  /-- In `update_global`, whose listeners notify. -/
  | configuring (listeners : List ν)
  | body
  /-- In `wait_requests_completed`. -/
  | draining
  | shuttingDown
  | exiting (out : Bool)
  | left
  deriving DecidableEq, Repr

/-- What the client's class and the server decide: what becomes of the result of
`initialize`, its checks, and the notifications of the listeners that the default
configuration has; `none` if there is none. -/
structure Setup (ν V E R : Type*) where
  initializeResponse : Converter V E R
  shutdownResponse : Converter V E Unit
  /-- `check_server_compatibility`. -/
  compatible : R → Bool
  /-- `check_server_capability`. -/
  capable : R → Bool
  defaultConfig : Option (List ν)

/-- The calls and the table, the notifications, and the session; `failed` once
an exception leaves it. `log` records what the server has been told and has answered. -/
structure State (ι ν Id V : Type*) where
  client : Requests.State (Call ι) Id (RawResponse V)
  note : ν → Notifier
  stage : Stage ν
  failed : Bool
  log : List (Event Id)

inductive Action (ι ν Id V : Type*) where
  /-- The server runs, and the session requests `initialize`. -/
  | enter
  /-- A step of a call, of a handler, of the read loop or of the server. -/
  | task (a : Requests.Action (Call ι) Id (RawResponse V))
  /-- The session goes on, as what it waits for has ended. -/
  | proceed
  /-- The frame of the session's own notification leaves. -/
  | tell
  /-- `send` of it returns. -/
  | told
  /-- The session raises where it is suspended: a send fails, a timeout strikes,
  or the task group is cancelled. -/
  | fail
  /-- The body begins a request. -/
  | call (i : ι)
  /-- The body begins a notification. -/
  | notify (n : ν)
  /-- Its frame leaves. -/
  | transmit (n : ν)
  /-- `notify` returns or raises. -/
  | noteEnds (n : ν) (ok : Bool)
  /-- The body ends. -/
  | leave
  /-- `wait_until_empty` sees an empty table, and the session requests `shutdown`. -/
  | drained
  deriving DecidableEq, Repr

variable [DecidableEq ι] [DecidableEq ν]

namespace State

def init : State ι ν Id V := ⟨.init, fun _ => .idle, .entering, false, []⟩

def setNote (s : State ι ν Id V) (n : ν) (x : Notifier) : State ι ν Id V :=
  { s with note := Function.update s.note n x }

/-- An exception leaves the session. -/
def raise (s : State ι ν Id V) : State ι ν Id V := { s with failed := true }

/-- The listeners of the configuration begin to notify. -/
def configure (s : State ι ν Id V) : Option (List ν) → State ι ν Id V
  | none => { s with stage := .body }
  | some ns => { s with
      note := fun n => if n ∈ ns then .sending else s.note n
      stage := .configuring ns }

end State

/-- A task other than the session takes such a step. -/
def isTask : Requests.Action (Call ι) Id (RawResponse V) → Bool
  | .reserve _ | .leave | .wake | .waitTimeout => false
  | _ => true

/-- What a step of a task tells the server, or is answered. -/
def told (idOf : Call ι → Id) : Requests.Action (Call ι) Id (RawResponse V) → List (Event Id)
  | .transmit .initializeRequest => [.initializeRequest (idOf .initializeRequest)]
  | .transmit (.body i) => [.request (idOf (.body i))]
  | .transmit .shutdownRequest => [.shutdownRequest (idOf .shutdownRequest)]
  | .answer id _ => [.answered id]
  | _ => []

/-- The session begins a call. -/
def reserve (idOf : Call ι → Id) (s : State ι ν Id V) (c : Call ι) (stage : Stage ν) :
    Option (State ι ν Id V) :=
  (Requests.step idOf s.client (.reserve c)).map fun client => { s with client := client, stage := stage }

/-- `_initialize` goes on with the response: it is an error, or the checks of its
result fail, or `initialized` is notified. -/
def initialized (setup : Setup ν V E R) (s : State ι ν Id V) (r : RawResponse V) : State ι ν Id V :=
  match responseDeserialize setup.initializeResponse r with
  | .error _ => s.raise
  | .ok result =>
    if setup.compatible result && setup.capable result then { s with stage := .announcing false }
    else s.raise

/-- `_shutdown` goes on with the response, and `exit` is notified. -/
def shutDown (setup : Setup ν V E R) (s : State ι ν Id V) (r : RawResponse V) : State ι ν Id V :=
  match responseDeserialize setup.shutdownResponse r with
  | .error _ => s.raise
  | .ok () => { s with stage := .exiting false }

/-- The session goes on, as what it waits for has ended. -/
def proceed (setup : Setup ν V E R) (s : State ι ν Id V) : Option (State ι ν Id V) :=
  match s.stage with
  | .initializing =>
    match s.client.caller .initializeRequest with
    | .returned r => some (initialized setup s r.body)
    | .raised _ => some s.raise
    | _ => none
  | .configuring ns =>
    if ∃ n ∈ ns, s.note n = .ended false then some s.raise
    else if ∀ n ∈ ns, s.note n = .ended true then some { s with stage := .body }
    else none
  | .shuttingDown =>
    match s.client.caller .shutdownRequest with
    | .returned r => some (shutDown setup s r.body)
    | .raised _ => some s.raise
    | _ => none
  | _ => none

/-- One step of a session that has not ended. -/
def act (idOf : Call ι → Id) (setup : Setup ν V E R) (s : State ι ν Id V) :
    Action ι ν Id V → Option (State ι ν Id V)
  | .enter => if s.stage = .entering then reserve idOf s .initializeRequest .initializing else none
  | .task a =>
    if isTask a then
      (Requests.step idOf s.client a).map fun client =>
        { s with client := client, log := s.log ++ told idOf a }
    else none
  | .proceed => proceed setup s
  | .tell =>
    match s.stage with
    | .announcing false => some { s with stage := .announcing true, log := s.log ++ [.initializedNotification] }
    | .exiting false => some { s with stage := .exiting true, log := s.log ++ [.exitNotification] }
    | _ => none
  | .told =>
    match s.stage with
    | .announcing true => some (s.configure setup.defaultConfig)
    | .exiting true => some { s with stage := .left }
    | _ => none
  | .fail => if s.stage = .entering then none else some s.raise
  | .call i => if s.stage = .body then reserve idOf s (.body i) .body else none
  | .notify n => if s.stage = .body ∧ s.note n = .idle then some (s.setNote n .sending) else none
  | .transmit n =>
    if s.note n = .sending then some { s.setNote n .out with log := s.log ++ [.notification] } else none
  | .noteEnds n ok =>
    match s.note n with
    | .sending => if ok then none else some (s.setNote n (.ended false))
    | .out => some (s.setNote n (.ended ok))
    | _ => none
  | .leave => if s.stage = .body then some { s with stage := .draining } else none
  | .drained =>
    if s.stage = .draining ∧ OneShotTable.completed s.client.pending = true then
      reserve idOf s .shutdownRequest .shuttingDown
    else none

/-- One step: none once the session has ended. -/
def step (idOf : Call ι → Id) (setup : Setup ν V E R) (s : State ι ν Id V) (a : Action ι ν Id V) :
    Option (State ι ν Id V) :=
  if s.failed = true ∨ s.stage = .left then none else act idOf setup s a

/-- No notification of the body leaves once the server has been told to shut down. -/
def Timely (s : State ι ν Id V) (a : Action ι ν Id V) : Prop :=
  ∀ n, a = .transmit n → ∀ id, .shutdownRequest id ∉ s.log

/-- Where the server stands at a stage of the session, whether it fails there or not. -/
def Stage.allows (idOf : Call ι → Id) : Stage ν → ServerPhase Id → Prop
  | .entering, p => p = .uninitialized
  | .initializing, p =>
    p = .uninitialized ∨ p = .initializing (idOf .initializeRequest) ∨ p = .initialized
  | .announcing out, p => p = if out then .running [] else .initialized
  | .configuring _, p | .body, p | .draining, p => ∃ ids, p = .running ids
  | .shuttingDown, p => p = .running [] ∨ p = .shuttingDown (idOf .shutdownRequest) ∨ p = .shutDown
  | .exiting out, p => p = if out then .exited else .shutDown
  | .left, p => p = .exited

/-- Who has a frame that has yet to leave. -/
def Stage.sends (stage : Stage ν) (p : ServerPhase Id) (c : Call ι) : Prop :=
  match stage with
  | .initializing => c = .initializeRequest ∧ p = .uninitialized
  | .configuring _ | .body | .draining => ∃ i, c = .body i
  | .shuttingDown => c = .shutdownRequest ∧ p = .running []
  | _ => False

/-- The session has not got to where the body and the listeners notify. -/
def Stage.early : Stage ν → Prop
  | .entering | .initializing | .announcing _ => True
  | _ => False

/-! ### The server's side -/

/-- The server has been told to shut down. -/
def ServerPhase.down : ServerPhase Id → Prop
  | shuttingDown _ | shutDown | exited => True
  | _ => False

/-- What one thing that is told or answered does to the server. -/
theorem next_down {p q : ServerPhase Id} {e : Event Id} (h : p.next e = some q) :
    q.down ↔ p.down ∨ ∃ id, e = .shutdownRequest id := by
  unfold ServerPhase.next at h
  split at h
  case h_2 | h_4 | h_5 | h_8 => all_goals (split_ifs at h; cases h; simp [ServerPhase.down])
  case h_10 => cases h
  all_goals cases h; simp [ServerPhase.down]

theorem accept_down {log : List (Event Id)} : ∀ {p : ServerPhase Id}, accept log = some p →
    (p.down ↔ ∃ id, .shutdownRequest id ∈ log) := by
  induction log using List.reverseRecOn with
  | nil =>
    intro p h
    obtain rfl := Option.some.inj h
    simp [ServerPhase.down]
  | append_singleton log e ih =>
    intro p h
    rw [accept_snoc] at h
    obtain ⟨q, hq, hnext⟩ := Option.bind_eq_some_iff.mp h
    rw [next_down hnext, ih hq]
    simp only [List.mem_append, List.mem_singleton, exists_or]
    exact or_congr_right (exists_congr fun _ => eq_comm)

/-- The session requests `initialize` or `shutdown`. -/
def Stage.own : Stage ν → Prop
  | .initializing | .shuttingDown => True
  | _ => False

theorem Stage.own_sends {stage : Stage ν} {p : ServerPhase Id} {c : Call ι} (h : stage.own)
    (hs : stage.sends p c) : p.unanswered = [] := by
  cases stage with
  | initializing | shuttingDown => rw [hs.2]; rfl
  | _ => cases h

/-- **The server answers a request it has not answered**, at any stage. -/
theorem next_answered {idOf : Call ι → Id} {stage : Stage ν} {p : ServerPhase Id} {id : Id}
    (hid : id ∈ p.unanswered) (hstage : stage.allows idOf p) : ∃ q, p.next (.answered id) = some q ∧
      q.unanswered = p.unanswered.erase id ∧ stage.allows idOf q ∧
      ∀ c : Call ι, stage.sends q c ↔ stage.sends p c := by
  -- which requests are open says which answer is allowed
  have hrunning : ∀ ids, p = .running ids → p.next (.answered id) = some (.running (ids.erase id)) := by
    rintro ids rfl
    exact if_pos hid
  cases stage with
  | entering =>
    rw [show p = _ from hstage] at hid
    cases hid
  | initializing =>
    rcases hstage with rfl | rfl | rfl
    · cases hid
    · obtain rfl := List.mem_singleton.mp hid
      refine ⟨.initialized, if_pos rfl, ?_, .inr (.inr rfl), fun c => iff_of_false nofun nofun⟩
      simp [ServerPhase.unanswered]
    · cases hid
  | announcing out =>
    rw [show p = _ from hstage] at hid
    cases out <;> cases hid
  | configuring | body | draining =>
    obtain ⟨ids, rfl⟩ := hstage
    exact ⟨_, hrunning ids rfl, rfl, ⟨_, rfl⟩, fun _ => Iff.rfl⟩
  | shuttingDown =>
    rcases hstage with rfl | rfl | rfl
    · cases hid
    · obtain rfl := List.mem_singleton.mp hid
      refine ⟨.shutDown, if_pos rfl, ?_, .inr (.inr rfl), fun c => iff_of_false nofun nofun⟩
      simp [ServerPhase.unanswered]
    · cases hid
  | exiting out =>
    rw [show p = _ from hstage] at hid
    cases out <;> cases hid
  | left =>
    rw [show p = _ from hstage] at hid
    cases hid

/-- **The server is told of a request**, by who may send it. -/
theorem next_request {idOf : Call ι → Id} {stage : Stage ν} {p : ServerPhase Id} {c : Call ι}
    (hc : stage.sends p c) (hnew : idOf c ∉ p.unanswered) (hstage : stage.allows idOf p) :
    ∃ e q, told (V := V) idOf (.transmit c) = [e] ∧ p.next e = some q ∧
      q.unanswered = p.unanswered ++ [idOf c] ∧ stage.allows idOf q ∧
      (∀ c', c' ≠ c → stage.sends p c' → stage.sends q c') ∧
      (stage.own → ∀ c' : Call ι, ¬ stage.sends q c') := by
  cases stage with
  | initializing =>
    obtain ⟨rfl, rfl⟩ := hc
    exact ⟨_, _, rfl, rfl, rfl, .inr (.inl rfl), fun c' hne h => absurd h.1 hne, fun _ _ => nofun⟩
  | configuring | body | draining =>
    obtain ⟨i, rfl⟩ := hc
    obtain ⟨ids, rfl⟩ := hstage
    exact ⟨_, _, rfl, if_neg hnew, rfl, ⟨_, rfl⟩, fun _ _ h => h, nofun⟩
  | shuttingDown =>
    obtain ⟨rfl, rfl⟩ := hc
    exact ⟨_, _, rfl, rfl, rfl, .inr (.inl rfl), fun c' hne h => absurd h.1 hne, fun _ _ => nofun⟩
  | _ => cases hc

/-! ### Every step -/

/-- Where the session, the table and the server stand. -/
structure Linked (idOf : Call ι → Id) (s : State ι ν Id V) (p : ServerPhase Id) : Prop where
  log : accept s.log = some p
  received : s.client.received = p.unanswered
  stage : s.stage.allows idOf p
  unsent : ∀ c, s.client.caller c = .sending false → s.stage.sends p c
  untold : s.stage.own → ∀ c, s.stage.sends p c → Requests.Unknown s.client (idOf c)
  notes : s.stage.early → ∀ n, s.note n ≠ .sending

/-- The invariant of the runs that keep to the protocol. -/
structure Inv (idOf : Call ι → Id) (s : State ι ν Id V) : Prop where
  table : Requests.Table idOf s.client
  linked : ∃ p, Linked idOf s p

variable {idOf : Call ι → Id} {setup : Setup ν V E R} {s t : State ι ν Id V}

theorem inv_init : Inv idOf (State.init : State ι ν Id V) where
  table := Requests.table_init
  linked := ⟨.uninitialized, rfl, rfl, rfl, nofun, nofun, fun _ _ => nofun⟩

/-- An exception changes nothing that has been said. -/
theorem Linked.raise {p : ServerPhase Id} (h : Linked idOf s p) : Linked idOf s.raise p :=
  ⟨h.log, h.received, h.stage, h.unsent, h.untold, h.notes⟩

/-- A step of a task. -/
theorem inv_task (hinj : Function.Injective idOf) (h : Inv idOf s)
    {a : Requests.Action (Call ι) Id (RawResponse V)} {client : Requests.State (Call ι) Id (RawResponse V)}
    (htask : isTask a = true) (hstep : Requests.step idOf s.client a = some client) :
    Inv idOf { s with client := client, log := s.log ++ told idOf a } := by
  obtain ⟨p, hp⟩ := h.linked
  refine ⟨Requests.table_step hinj h.table hstep, ?_⟩
  by_cases ha : Requests.Loud a
  · cases Requests.step_cases hstep with
    | reserve | reserved => cases htask
    | @transmit c hc =>
      have hnew : idOf c ∉ p.unanswered := hp.received ▸ (h.table.unsent c hc).2.1
      obtain ⟨e, q, htold, hq, hun, hstage, hsends, hown⟩ := next_request (hp.unsent c hc) hnew hp.stage
      refine ⟨q, ?_, ?_, hstage, fun c' hc' => ?_, fun ho c' hc' => absurd hc' (hown ho c'), hp.notes⟩
      · rw [htold, accept_snoc, hp.log, Option.bind_some, hq]
      · show s.client.received ++ [idOf c] = q.unanswered
        rw [hp.received, hun]
      · obtain ⟨hne, hold⟩ := Requests.caller_ne hc' (by simp)
        exact hsends c' hne (hp.unsent c' hold)
    | @answer id body hid =>
      have hid' : id ∈ p.unanswered := hp.received ▸ hid
      obtain ⟨q, hq, hun, hstage, hsends⟩ := next_answered hid' hp.stage
      refine ⟨q, ?_, ?_, hstage, fun c hc => (hsends c).mpr (hp.unsent c hc), fun hown c hc => ?_, hp.notes⟩
      · show accept (s.log ++ [.answered id]) = some q
        rw [accept_snoc, hp.log, Option.bind_some, hq]
      · show s.client.received.erase id = q.unanswered
        rw [hp.received, hun]
      · rw [Stage.own_sends hown ((hsends c).mp hc)] at hid'
        cases hid'
    | _ => exact absurd ha id
  · have hquiet := Requests.quiet_step hstep ha
    have htold : told idOf a = [] := by
      cases a <;> first | rfl | exact absurd trivial ha
    refine ⟨p, ?_, hquiet.received.trans hp.received, hp.stage, fun c hc => hp.unsent c (hquiet.unsent c hc),
      fun hown c hc => ?_, hp.notes⟩
    · rw [htold, List.append_nil]
      exact hp.log
    · obtain ⟨hnot, hno⟩ := hp.untold hown c hc
      exact ⟨hquiet.received ▸ hnot, fun r hr => hno r ((hquiet.responses r).mp hr)⟩

/-- The session begins a call of its own: it is at its stage with the server not told of it. -/
theorem inv_reserve (hinj : Function.Injective idOf) (h : Inv idOf s) {p : ServerPhase Id}
    (hp : Linked idOf s p) (c : Call ι) (stage : Stage ν) (hstage : stage.allows idOf p)
    (hc : stage.sends p c) (hnone : ∀ c', s.client.caller c' = .sending false → stage.sends p c')
    (hown : stage.own → ∀ c', stage.sends p c' → c' = c)
    (hnotes : stage.early → s.stage.early)
    (hstep : reserve idOf s c stage = some t) : Inv idOf t := by
  obtain ⟨client, hclient, rfl⟩ := Option.map_eq_some_iff.mp hstep
  refine ⟨Requests.table_step hinj h.table hclient, p, ?_⟩
  cases Requests.step_cases hclient with
  | reserve hidle hmem =>
    refine ⟨hp.log, hp.received, hstage, fun c' hc' => ?_, fun ho c' hc' => ?_,
      fun he => hp.notes (hnotes he)⟩
    · by_cases hcc : c' = c
      · exact hcc ▸ hc
      · exact hnone c' ((Function.update_of_ne hcc _ s.client.caller).symm.trans hc')
    · obtain rfl := hown ho c' hc'
      exact (h.table.fresh c' hidle).2
  | reserved hidle hmem => exact absurd hmem (h.table.fresh c hidle).1

/-- A call of the session's own that has returned has been answered. -/
theorem Linked.answered {p : ServerPhase Id} (h : Inv idOf s) (hp : Linked idOf s p) (hown : s.stage.own)
    {c : Call ι} {r : Response Id (RawResponse V)} (hr : s.client.caller c = .returned r) :
    ¬ s.stage.sends p c ∧ p.unanswered ≠ [idOf c] := by
  obtain ⟨hmem, hid⟩ := h.table.got c r (.inr hr)
  refine ⟨fun hc => (hp.untold hown c hc).2 r hmem hid, fun hun => ?_⟩
  have hin : idOf c ∈ s.client.received := hp.received ▸ hun ▸ List.mem_singleton_self _
  exact (h.table.unanswered _ hin).2 r hmem hid

/-- The session goes on. -/
theorem inv_proceed (h : Inv idOf s) (hstep : proceed setup s = some t) : Inv idOf t := by
  obtain ⟨p, hp⟩ := h.linked
  have hraise : Inv idOf s.raise := ⟨h.table, p, hp.raise⟩
  unfold proceed at hstep
  split at hstep
  · rename_i hs
    have hown : s.stage.own := hs ▸ trivial
    split at hstep
    · rename_i r hr
      obtain rfl := Option.some.inj hstep
      obtain ⟨hsends, hne⟩ := hp.answered h hown hr
      have hphase : p = .initialized := by
        have hstage := hp.stage
        rw [hs] at hstage hsends
        rcases hstage with rfl | rfl | rfl
        · exact absurd ⟨rfl, rfl⟩ hsends
        · exact absurd rfl hne
        · rfl
      unfold initialized
      split
      · exact hraise
      · split
        · refine ⟨h.table, p, hp.log, hp.received, hphase, fun c hc => ?_, nofun, fun _ => ?_⟩
          · have hc := hp.unsent c hc
            rw [hs] at hc
            cases hphase.symm.trans hc.2
          · exact hp.notes (hs ▸ trivial)
        · exact hraise
    · exact Option.some.inj hstep ▸ hraise
    · cases hstep
  · rename_i ns hs
    split_ifs at hstep
    · exact Option.some.inj hstep ▸ hraise
    · obtain rfl := Option.some.inj hstep
      refine ⟨h.table, p, hp.log, hp.received, ?_, fun c hc => ?_, nofun, nofun⟩
      · have hstage := hp.stage
        rw [hs] at hstage
        exact hstage
      · have hc := hp.unsent c hc
        rw [hs] at hc
        exact hc
  · rename_i hs
    have hown : s.stage.own := hs ▸ trivial
    split at hstep
    · rename_i r hr
      obtain rfl := Option.some.inj hstep
      obtain ⟨hsends, hne⟩ := hp.answered h hown hr
      have hphase : p = .shutDown := by
        have hstage := hp.stage
        rw [hs] at hstage hsends
        rcases hstage with rfl | rfl | rfl
        · exact absurd ⟨rfl, rfl⟩ hsends
        · exact absurd rfl hne
        · rfl
      unfold shutDown
      split
      · exact hraise
      · refine ⟨h.table, p, hp.log, hp.received, hphase, fun c hc => ?_, nofun, nofun⟩
        have hc := hp.unsent c hc
        rw [hs] at hc
        cases hphase.symm.trans hc.2
    · exact Option.some.inj hstep ▸ hraise
    · cases hstep
  · cases hstep

/-- What is told at a stage without open requests. -/
theorem inv_tell {p : ServerPhase Id} (h : Inv idOf s) (hp : Linked idOf s p) {q : ServerPhase Id}
    {e : Event Id} {stage : Stage ν} (hq : p.next e = some q) (hp' : p.unanswered = [])
    (hq' : q.unanswered = []) (hstage : stage.allows idOf q)
    (hnone : ∀ c, s.client.caller c ≠ .sending false) (hown : ¬ stage.own)
    (hnotes : stage.early → s.stage.early) :
    Inv idOf { s with stage := stage, log := s.log ++ [e] } := by
  refine ⟨h.table, q, ?_, ?_, hstage, fun c hc => absurd hc (hnone c), fun ho => absurd ho hown,
    fun he => hp.notes (hnotes he)⟩
  · rw [accept_snoc, hp.log, Option.bind_some, hq]
  · exact (hp.received.trans hp').trans hq'.symm

/-- A notification of the body leaves. -/
theorem inv_transmit (h : Inv idOf s) {n : ν} (hn : s.note n = .sending)
    (htimely : ∀ id, .shutdownRequest id ∉ s.log) :
    Inv idOf { s.setNote n .out with log := s.log ++ [.notification] } := by
  obtain ⟨p, hp⟩ := h.linked
  have hup : ¬ p.down := fun hd => by
    obtain ⟨id, hid⟩ := (accept_down hp.log).mp hd
    exact htimely id hid
  obtain ⟨ids, rfl⟩ : ∃ ids, p = .running ids := by
    have hstage := hp.stage
    have hnotes := fun he => hp.notes he n hn
    cases hs : s.stage with
    | entering | initializing | announcing => exact (hnotes (hs ▸ trivial)).elim
    | configuring | body | draining =>
      rw [hs] at hstage
      exact hstage
    | shuttingDown =>
      rw [hs] at hstage
      rcases hstage with rfl | rfl | rfl
      · exact ⟨_, rfl⟩
      · exact absurd trivial hup
      · exact absurd trivial hup
    | exiting out =>
      rw [hs] at hstage
      obtain rfl := hstage
      cases out <;> exact absurd trivial hup
    | left =>
      rw [hs] at hstage
      obtain rfl := hstage
      exact absurd trivial hup
  refine ⟨h.table, .running ids, ?_, hp.received, hp.stage, hp.unsent, hp.untold, fun he m => ?_⟩
  · rw [accept_snoc, hp.log]
    rfl
  · exact absurd hn (hp.notes he n)

/-- Notes that change where no stage forbids it. -/
theorem Linked.setNote {p : ServerPhase Id} (hp : Linked idOf s p) (n : ν) {x : Notifier}
    (hx : x = .sending → ¬ s.stage.early) : Linked idOf (s.setNote n x) p := by
  refine ⟨hp.log, hp.received, hp.stage, hp.unsent, hp.untold, fun he m hm => ?_⟩
  have hm : Function.update s.note n x m = .sending := hm
  by_cases hmn : m = n
  · subst hmn
    rw [Function.update_self] at hm
    exact hx hm he
  · rw [Function.update_of_ne hmn] at hm
    exact hp.notes he m hm

/-- **A step that is timely keeps the server and the session in step.** -/
theorem inv_step (hinj : Function.Injective idOf) (h : Inv idOf s) {a : Action ι ν Id V} (ha : Timely s a)
    (hstep : step idOf setup s a = some t) : Inv idOf t := by
  obtain ⟨p, hp⟩ := h.linked
  have hnone : (∀ c, ¬ s.stage.sends p c) → ∀ c, s.client.caller c ≠ .sending false := fun hno c hc =>
    hno c (hp.unsent c hc)
  unfold step at hstep
  split_ifs at hstep
  cases a with
  | enter =>
    simp only [act] at hstep
    split_ifs at hstep with hs
    have hphase : p = .uninitialized := by
      have hstage := hp.stage
      rwa [hs] at hstage
    refine inv_reserve hinj h hp .initializeRequest .initializing (.inl hphase) ⟨rfl, hphase⟩
      (fun c hc => ?_) (fun _ _ hc => hc.1) (fun _ => hs ▸ trivial) hstep
    exact absurd hc (hnone (fun c => by rw [hs]; exact id) c)
  | task a =>
    simp only [act] at hstep
    split_ifs at hstep with htask
    obtain ⟨client, hclient, rfl⟩ := Option.map_eq_some_iff.mp hstep
    exact inv_task hinj h htask hclient
  | proceed => exact inv_proceed h hstep
  | tell =>
    simp only [act] at hstep
    have hstage := hp.stage
    split at hstep
    · rename_i hs
      rw [hs] at hstage
      obtain rfl := hstage
      obtain rfl := Option.some.inj hstep
      exact inv_tell h hp rfl rfl rfl rfl (hnone fun c => by rw [hs]; exact id) id fun _ => hs ▸ trivial
    · rename_i hs
      rw [hs] at hstage
      obtain rfl := hstage
      obtain rfl := Option.some.inj hstep
      exact inv_tell h hp rfl rfl rfl rfl (hnone fun c => by rw [hs]; exact id) id nofun
    · cases hstep
  | told =>
    simp only [act] at hstep
    have hstage := hp.stage
    split at hstep
    · rename_i hs
      rw [hs] at hstage
      obtain rfl := Option.some.inj hstep
      have hno : ∀ c, s.client.caller c ≠ .sending false := hnone fun c => by rw [hs]; exact id
      refine ⟨?_, p, ?_⟩
      · unfold State.configure
        split <;> exact h.table
      · unfold State.configure
        split
        all_goals exact ⟨hp.log, hp.received, ⟨[], hstage⟩, fun c hc => absurd hc (hno c), nofun, nofun⟩
    · rename_i hs
      rw [hs] at hstage
      obtain rfl := Option.some.inj hstep
      have hno : ∀ c, s.client.caller c ≠ .sending false := hnone fun c => by rw [hs]; exact id
      exact ⟨h.table, p, hp.log, hp.received, hstage, fun c hc => absurd hc (hno c), nofun, nofun⟩
    · cases hstep
  | fail =>
    simp only [act] at hstep
    split_ifs at hstep
    exact Option.some.inj hstep ▸ ⟨h.table, p, hp.raise⟩
  | call i =>
    simp only [act] at hstep
    split_ifs at hstep with hs
    have hstage := hp.stage
    have hunsent := hp.unsent
    rw [hs] at hstage hunsent
    exact inv_reserve hinj h hp (.body i) .body hstage ⟨i, rfl⟩ hunsent nofun nofun hstep
  | notify n =>
    simp only [act] at hstep
    split_ifs at hstep with hs
    exact Option.some.inj hstep ▸ ⟨h.table, p, hp.setNote n fun _ he => by rw [hs.1] at he; exact he⟩
  | transmit n =>
    simp only [act] at hstep
    split_ifs at hstep with hn
    exact Option.some.inj hstep ▸ inv_transmit h hn (ha n rfl)
  | noteEnds n ok =>
    simp only [act] at hstep
    split at hstep
    · split_ifs at hstep
      exact Option.some.inj hstep ▸ ⟨h.table, p, hp.setNote n nofun⟩
    · exact Option.some.inj hstep ▸ ⟨h.table, p, hp.setNote n nofun⟩
    · cases hstep
  | leave =>
    simp only [act] at hstep
    split_ifs at hstep with hs
    have hstage := hp.stage
    have hunsent := hp.unsent
    rw [hs] at hstage hunsent
    exact Option.some.inj hstep ▸ ⟨h.table, p, hp.log, hp.received, hstage, hunsent, nofun, nofun⟩
  | drained =>
    simp only [act] at hstep
    split_ifs at hstep with hs
    -- an empty table: the server has answered all, and no call has a frame that has yet to leave
    obtain ⟨hreceived, hno⟩ := Requests.table_drained h.table hs.2
    have hphase : p = .running [] := by
      have hstage := hp.stage
      rw [hs.1] at hstage
      obtain ⟨ids, rfl⟩ := hstage
      exact congrArg _ (hp.received.symm.trans hreceived)
    exact inv_reserve hinj h hp .shutdownRequest .shuttingDown (.inl hphase) ⟨rfl, hphase⟩
      (fun c hc => absurd hc (hno c)) (fun _ _ hc => hc.1) nofun hstep

/-- A notification that leaves later is one the server must refuse. -/
theorem timely_leave (h : Inv idOf s) {a : Action ι ν Id V} (ha : ¬ Timely s a)
    (hstep : step idOf setup s a = some t) : accept t.log = none := by
  obtain ⟨p, hp⟩ := h.linked
  unfold Timely at ha
  push Not at ha
  obtain ⟨n, rfl, id, hid⟩ := ha
  unfold step at hstep
  split_ifs at hstep
  simp only [act] at hstep
  split_ifs at hstep
  obtain rfl := Option.some.inj hstep
  show accept (s.log ++ [.notification]) = none
  rw [accept_snoc, hp.log, Option.bind_some]
  have hdown := (accept_down hp.log).mpr ⟨id, hid⟩
  cases p <;> first | rfl | exact hdown.elim

/-- **The session keeps to the protocol**: whatever fails and however the tasks
are interleaved, the server is told nothing that it must refuse, stands where
the session's stage says, and has answered every request before it is told to
shut down, exactly if no notification of the body leaves after that. -/
theorem session_accepted (hinj : Function.Injective idOf) {as : List (Action ι ν Id V)}
    (hrun : Run.exec (step idOf setup) State.init as = some s) :
    Run.Always (step idOf setup) (fun s => ∃ p, accept s.log = some p ∧ s.stage.allows idOf p)
      State.init as ↔ Run.Along (step idOf setup) Timely State.init as := by
  refine Run.always_iff_along (I := Inv idOf) (fun s h => ?_) (fun s a t h hC ht => inv_step hinj h hC ht)
    (fun s a t h hC ht => ?_) as inv_init hrun
  · obtain ⟨p, hp⟩ := h.linked
    exact ⟨p, hp.log, hp.stage⟩
  · rintro ⟨p, hp, -⟩
    rw [timely_leave h hC ht] at hp
    cases hp

/-- The ids of the calls, those of the session first. -/
def smallId : Call ℕ → ℕ
  | .initializeRequest => 0
  | .shutdownRequest => 1
  | .body i => i + 2

/-- A client whose default configuration has one listener. -/
def smallSetup : Setup ℕ Unit Unit Unit where
  initializeResponse := ⟨fun _ => .ok none, .ok⟩
  shutdownResponse := ⟨fun _ => .ok none, .ok⟩
  compatible _ := true
  capable _ := true
  defaultConfig := some [0]

/-- The steps of a call that is answered as handler `k`, while it waits. -/
def answeredCall (c : Call ℕ) (k : ℕ) : List (Action ℕ ℕ ℕ Unit) :=
  [.transmit c, .sent c, .receive c, .answer (smallId c) ⟨none, some ()⟩, .dispatch, .handle k, .resume c,
    .notify k].map .task

/-- A session whose body requests once. -/
def smallSession : List (Action ℕ ℕ ℕ Unit) :=
  [.enter] ++ answeredCall .initializeRequest 0 ++ [.proceed, .tell, .told, .transmit 0, .noteEnds 0 true,
    .proceed, .call 3] ++ answeredCall (.body 3) 1 ++ [.leave, .drained] ++
    answeredCall .shutdownRequest 2 ++ [.proceed, .tell, .told]

theorem session_accepted_small : ∃ s, Run.exec (step smallId smallSetup) State.init smallSession = some s ∧
    s.stage = .left ∧ Run.Always (step smallId smallSetup)
      (fun s => ∃ p, accept s.log = some p ∧ s.stage.allows smallId p) State.init smallSession := by
  have hinj : Function.Injective smallId := by
    rintro (_ | i | _) (_ | j | _) h <;> simp_all [smallId]
  refine ⟨_, rfl, rfl, (session_accepted hinj rfl).mpr ?_⟩
  iterate 12 refine (Run.along_cons rfl).mpr ⟨nofun, ?_⟩
  -- the listener's notification: the server has been told two things
  refine (Run.along_cons rfl).mpr ⟨fun _ _ id (hid : _ ∈ [Event.initializeRequest 0, .answered 0,
    .initializedNotification]) => by simp at hid, ?_⟩
  iterate 24 refine (Run.along_cons rfl).mpr ⟨nofun, ?_⟩
  trivial

end Lifecycle
end LspClient
