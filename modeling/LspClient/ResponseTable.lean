/-
# Requests and their responses

`StreamServer.request` and `OneShotTable` of `utils/channel.py`. A request
reserves an entry under its id, sends its frame and receives from the entry's
channel; the read loop starts one handler task for each response it reads,
which looks the id up, sends the response over the channel and then removes
the entry. The channel has no buffer: `send` returns when the receiver has
taken the item, and whichever of the two comes first waits for the other.

`step` is one step of one of the tasks, from one suspension point to the next:
of a caller, of a handler, of the read loop, of the server, or of the session
that waits for the table to become empty before it sends `shutdown` and `exit`.

Key definitions: `OneShotTable.reserve`, `State`, `Action`, `step`.
-/
import Mathlib.Data.List.AList
import LspClient.Lib.Run

namespace LspClient
namespace Requests

/-- A response package: `{"result": .., "id": id}` or `{"error": .., "id": id}`. -/
structure Response (Id β : Type*) where
  id : Id
  body : β
  deriving DecidableEq, Repr

/-- What an operation of the table raises. -/
inductive TableError (Id : Type*) where
  /-- `ValueError`: `Pending request of id {id} not found`. -/
  | notFound (id : Id)
  /-- `ValueError`: `Sender with id {id} already registered`. -/
  | alreadyRegistered (id : Id)
  /-- `KeyError`, of `self._pending.pop(id)`. -/
  | keyError (id : Id)
  /-- The receiver has been closed. -/
  | brokenResource
  deriving DecidableEq, Repr

/-- What `Client.request` raises instead of returning a response. -/
inductive CallError (Id : Type*) where
  | table (e : TableError Id)
  | sendFailed
  | timeout
  deriving DecidableEq, Repr

/-- Where a call of `Client.request` stands. -/
inductive Caller (Id β : Type*) where
  | idle
  /-- In `await self.send(request)`; has the frame left? -/
  | sending (out : Bool)
  /-- The frame is sent; at the suspension point with which `receive` begins. -/
  | sent
  /-- Blocked in `rx.receive()`. -/
  | waiting
  /-- The response has been put into its hands, but it has not gone on yet. -/
  | woken (r : Response Id β)
  | returned (r : Response Id β)
  | raised (e : CallError Id)
  deriving DecidableEq, Repr

/-- The call has ended, with a response or without. -/
def Caller.ended {Id β : Type*} : Caller Id β → Bool
  | .returned _ | .raised _ => true
  | _ => false

/-- Where a handler task stands, in `OneShotTable.send` of its response. -/
inductive HandlerPc (ι Id : Type*) where
  | ready
  /-- Waits in `self._pending[id].send(data)` for the call the entry belongs to. -/
  | sending (i : ι)
  /-- The item has been taken; goes on with `self._pending.pop(id)`. -/
  | resumed
  /-- The table has become empty; acquires the condition to notify all. -/
  | notifying
  | done
  | raised (e : TableError Id)
  deriving DecidableEq, Repr

/-- A task `_handle_package` of a response. -/
structure Handler (ι Id β : Type*) where
  resp : Response Id β
  pc : HandlerPc ι Id
  deriving DecidableEq, Repr

/-- The end of a session: `wait_requests_completed`, then `shutdown` and `exit`. -/
inductive Session where
  | active
  /-- In `wait_until_empty`. -/
  | draining
  /-- Goes on to send `shutdown` and `exit`. -/
  | closing
  /-- `wait_requests_completed` raised `TimeoutError`. -/
  | raised
  deriving DecidableEq, Repr

/-- The dictionary `_pending`; a one-shot sender is named by the call that made it. -/
abbrev Pending (ι Id : Type*) := AList fun _ : Id => ι

namespace OneShotTable

variable {ι Id : Type*} [DecidableEq Id]

/-- `OneShotTable.reserve`. -/
def reserve (pending : Pending ι Id) (id : Id) (i : ι) : Except (TableError Id) (Pending ι Id) :=
  if id ∈ pending then .error (.alreadyRegistered id) else .ok (pending.insert id i)

/-- `OneShotTable.completed`. -/
def completed (pending : Pending ι Id) : Bool := pending.entries.isEmpty

/-- What follows `send` on the channel in `OneShotTable.send`: the entry is
popped, and where the handler stands then. -/
def pop (pending : Pending ι Id) (id : Id) : Pending ι Id × HandlerPc ι Id :=
  if id ∈ pending then
    (pending.erase id, if completed (pending.erase id) then .notifying else .done)
  else (pending, .raised (.keyError id))

end OneShotTable

/-- The calls, the table, the server, the tasks and the session. `received`
holds the ids the server has read and not answered, `wire` the responses on
their way; `answers` and `deliveries` record what the server has answered and
which call took which response. -/
structure State (ι Id β : Type*) where
  caller : ι → Caller Id β
  pending : Pending ι Id
  received : List Id
  wire : List (Response Id β)
  handlers : List (Handler ι Id β)
  session : Session
  answers : List (Response Id β)
  deliveries : List (ι × Response Id β)

inductive Action (ι Id β : Type*) where
  /-- The call begins: it reserves its entry and starts to send. -/
  | reserve (i : ι)
  /-- Its frame reaches the server. -/
  | transmit (i : ι)
  /-- `send` returns. -/
  | sent (i : ι)
  /-- It looks for a handler that waits with its response, and waits if there is none. -/
  | receive (i : ι)
  /-- It goes on after having waited. -/
  | resume (i : ι)
  /-- `send` raises. -/
  | sendFails (i : ι)
  /-- The timeout cancels it where it is suspended. -/
  | cancel (i : ι)
  /-- The server answers a request it has received. -/
  | answer (id : Id) (body : β)
  /-- The read loop receives the next response and starts its handler. -/
  | dispatch
  /-- Handler `k` looks up its id and sends. -/
  | handle (k : ℕ)
  /-- Handler `k` goes on after having waited for the receiver. -/
  | pop (k : ℕ)
  /-- Handler `k` notifies those who wait for the empty table. -/
  | notify (k : ℕ)
  /-- The session ends and calls `wait_requests_completed`. -/
  | leave
  /-- `wait_until_empty` sees an empty table. -/
  | wake
  /-- `wait_requests_completed` times out. -/
  | waitTimeout
  deriving DecidableEq, Repr

variable {ι Id β : Type*} [DecidableEq ι] [DecidableEq Id]

namespace State

def init : State ι Id β := ⟨fun _ => .idle, ∅, [], [], [], .active, [], []⟩

def setCaller (s : State ι Id β) (i : ι) (c : Caller Id β) : State ι Id β :=
  { s with caller := Function.update s.caller i c }

def setHandler (s : State ι Id β) (k : ℕ) (pc : HandlerPc ι Id) : State ι Id β :=
  { s with handlers := s.handlers.modify k fun h => { h with pc := pc } }

/-- The call closes its receiver: whoever still waits to send to it fails. -/
def closeReceiver (s : State ι Id β) (i : ι) : State ι Id β :=
  { s with handlers := s.handlers.map fun h =>
      if h.pc = .sending i then { h with pc := .raised .brokenResource } else h }

/-- Handler `k` pops the entry of its id. -/
def popEntry (s : State ι Id β) (k : ℕ) (id : Id) : State ι Id β :=
  let p := OneShotTable.pop s.pending id
  { s with pending := p.1 }.setHandler k p.2

/-- The response passes from its handler to the call. -/
def deliver (s : State ι Id β) (i : ι) (r : Response Id β) : State ι Id β :=
  { s with deliveries := s.deliveries ++ [(i, r)] }

end State

open State

/-- `OneShotTable.send` of handler `k`, up to where it suspends or ends. -/
def sendResponse (s : State ι Id β) (k : ℕ) (r : Response Id β) : State ι Id β :=
  match s.pending.lookup r.id with
  | none => s.setHandler k (.raised (.notFound r.id))
  | some i =>
    match s.caller i with
    | .waiting => ((s.deliver i r).setCaller i (.woken r)).popEntry k r.id
    | .returned _ => s.setHandler k (.raised .brokenResource)
    | _ => s.setHandler k (.sending i)

/-- `OneShotReceiver.receive` of a call, up to where it suspends or returns. -/
def receiveResponse (s : State ι Id β) (i : ι) : State ι Id β :=
  match s.handlers.findIdx? (fun h => h.pc = .sending i) with
  | some k =>
    match s.handlers[k]? with
    | some h => (((s.setHandler k .resumed).deliver i h.resp).setCaller i
        (.returned h.resp)).closeReceiver i
    | none => s
  | none => s.setCaller i .waiting

/-- One step. -/
def step (idOf : ι → Id) (s : State ι Id β) : Action ι Id β → Option (State ι Id β)
  | .reserve i =>
    match s.caller i with
    | .idle =>
      match OneShotTable.reserve s.pending (idOf i) i with
      | .ok pending => some ({ s with pending := pending }.setCaller i (.sending false))
      | .error e => some (s.setCaller i (.raised (.table e)))
    | _ => none
  | .transmit i =>
    match s.caller i with
    | .sending false =>
      some ({ s with received := s.received ++ [idOf i] }.setCaller i (.sending true))
    | _ => none
  | .sent i =>
    match s.caller i with
    | .sending true => some (s.setCaller i .sent)
    | _ => none
  | .receive i =>
    match s.caller i with
    | .sent => some (receiveResponse s i)
    | _ => none
  | .resume i =>
    match s.caller i with
    | .woken r => some ((s.setCaller i (.returned r)).closeReceiver i)
    | _ => none
  | .sendFails i =>
    match s.caller i with
    | .sending _ => some (s.setCaller i (.raised .sendFailed))
    | _ => none
  | .cancel i =>
    match s.caller i with
    | .sending _ | .sent | .waiting | .woken _ => some (s.setCaller i (.raised .timeout))
    | _ => none
  | .answer id body =>
    if id ∈ s.received then
      some { s with
        received := s.received.erase id
        wire := s.wire ++ [⟨id, body⟩]
        answers := s.answers ++ [⟨id, body⟩] }
    else none
  | .dispatch =>
    match s.wire with
    | [] => none
    | r :: rest => some { s with wire := rest, handlers := s.handlers ++ [⟨r, .ready⟩] }
  | .handle k =>
    match s.handlers[k]? with
    | some ⟨r, .ready⟩ => some (sendResponse s k r)
    | _ => none
  | .pop k =>
    match s.handlers[k]? with
    | some ⟨r, .resumed⟩ => some (s.popEntry k r.id)
    | _ => none
  | .notify k =>
    match s.handlers[k]? with
    | some ⟨_, .notifying⟩ => some (s.setHandler k .done)
    | _ => none
  | .leave =>
    if s.session = .active then
      some { s with session := if OneShotTable.completed s.pending then .closing else .draining }
    else none
  | .wake =>
    if s.session = .draining ∧ OneShotTable.completed s.pending = true then
      some { s with session := .closing }
    else none
  | .waitTimeout => if s.session = .draining then some { s with session := .raised } else none

end Requests
end LspClient
