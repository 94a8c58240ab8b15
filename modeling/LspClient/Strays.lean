/-
# Responses nobody has asked for

A server may send a response whose id is null (the types of `jsonrpc/types.py`
allow it), is that of no request, or is that of a request it has answered
already. `OneShotTable.send` raises for an id that is not pending, and a second
response of one id finds the entry popped, its receiver closed, or is left
without a receiver when the call takes the other one.

All handlers are tasks of the group of `StreamServer._dispatch`, and so is its
read loop: when one handler raises, the loop ends, the other handlers are
cancelled, and no call that is still open gets its response (`torn_run`). A
stray response always raises in the end, whatever the schedule: the requests
are answered and the loop goes on exactly in the runs without one
(`strays_harmless_iff`).

The calls, the table and the handlers are those of `Requests`; without a stray
response the system runs as it does there (`unstrayed_run`).

Key definitions: `Live`, `Event`, `step`, `Stray`, `Quiet`, `Unharmed`.
Key theorems: `unstrayed_run`, `accounted_step`, `torn_run`, `strays_harmless_iff`.
-/
import LspClient.Requests

set_option linter.unusedSectionVars false

namespace LspClient
namespace Strays

open Requests Requests.State Tasks

variable {ι Id β : Type*} [DecidableEq ι] [DecidableEq Id]

/-! ### The group of the read loop -/

/-- What `id` of a response may be, `ID | None`: the id of a call is never null. -/
def ids (idOf : ι → Id) (i : ι) : Option Id := some (idOf i)

/-- A client with the task group of its read loop. `strays` records the
responses that no request has led to. -/
structure Live (ι Id β : Type*) where
  client : State ι (Option Id) β
  reading : Bool
  strays : List (Response (Option Id) β)

inductive Event (ι Id β : Type*) where
  /-- A task of the client, or the server as it answers. -/
  | task (a : Action ι (Option Id) β)
  /-- The call receives while handlers wait for it, and takes the response of
  handler `k`: of those that wait the first to have come, which may be any. -/
  | takeFrom (i : ι) (k : ℕ)
  /-- The server sends a response that is no answer. -/
  | stray (r : Response (Option Id) β)
  deriving DecidableEq, Repr

def Live.init : Live ι Id β := ⟨.init, true, []⟩

def failed (h : Handler ι Id β) : Bool :=
  match h.pc with
  | .raised _ => true
  | _ => false

/-- The exception of a handler ends the group: the loop stops, and the handlers
are cancelled where they are suspended. One whose item has been taken is not. -/
def settle (s : Live ι Id β) (t : State ι (Option Id) β) : Live ι Id β :=
  if t.handlers.any failed then
    { s with client := { t with handlers := t.handlers.filter (·.pc = .resumed) }, reading := false }
  else { s with client := t }

/-- The tasks of the group run while it lasts, and a call waits for its
response only if no handler waits for the call. -/
def allowed (s : Live ι Id β) : Action ι (Option Id) β → Bool
  | .dispatch | .handle _ | .notify _ => s.reading
  | .receive i => s.client.handlers.all fun h => h.pc ≠ .sending i
  | _ => true

/-- `OneShotReceiver.receive` of a call for which handler `k` waits. -/
def takeFrom (s : State ι Id β) (i : ι) (k : ℕ) : Option (State ι Id β) :=
  match s.caller i, s.handlers[k]? with
  | .sent, some ⟨r, .sending j⟩ =>
    if j = i then
      some ((((s.setHandler k .resumed).deliver i r).setCaller i (.returned r)).closeReceiver i)
    else none
  | _, _ => none

/-- One step. -/
def step (idOf : ι → Id) (s : Live ι Id β) : Event ι Id β → Option (Live ι Id β)
  | .task a => if allowed s a then (Requests.step (ids idOf) s.client a).map (settle s) else none
  | .takeFrom i k => (takeFrom s.client i k).map (settle s)
  | .stray r =>
    some { s with
      client := { s.client with wire := s.client.wire ++ [r] }
      strays := s.strays ++ [r] }

/-- The response is null's, that of an id no call uses, or a second answer. -/
def Stray (idOf : ι → Id) (s : Live ι Id β) (r : Response (Option Id) β) : Prop :=
  r.id = none ∨ (∃ id, r.id = some id ∧ ∀ i, idOf i ≠ id) ∨ ∃ a ∈ s.client.answers, a.id = r.id

/-- No send of a call fails, no call times out, and what is sent besides the
answers is stray. -/
def Meant (idOf : ι → Id) (s : Live ι Id β) : Event ι Id β → Prop
  | .task a => a.orderly = true
  | .takeFrom _ _ => True
  | .stray r => Stray idOf s r

def Event.isStray : Event ι Id β → Bool
  | .stray _ => true
  | _ => false

/-- The tasks of the client have nothing left to do. -/
def Quiet (idOf : ι → Id) (s : Live ι Id β) : Prop :=
  (∀ a : Action ι (Option Id) β, a.internal = true → step idOf s (.task a) = none) ∧
    ∀ i k, step idOf s (.takeFrom i k) = none

/-- The loop goes on reading, and every request that has been answered has
returned its own response. -/
structure Unharmed (idOf : ι → Id) (s : Live ι Id β) : Prop where
  reading : s.reading = true
  returned : ∀ r ∈ s.client.answers, ∃ i, r.id = some (idOf i) ∧ s.client.caller i = .returned r

variable {idOf : ι → Id}

theorem ids_injective (hinj : Function.Injective idOf) : Function.Injective (ids idOf) :=
  fun _ _ h => hinj (Option.some.inj h)

/-- What a step does: it is one of the client's, or puts a stray response on the wire. -/
inductive Steps (idOf : ι → Id) (s : Live ι Id β) : Event ι Id β → Live ι Id β → Prop where
  | task {a : Action ι (Option Id) β} {c : State ι (Option Id) β} (ha : allowed s a = true)
      (hc : Requests.step (ids idOf) s.client a = some c) : Steps idOf s (.task a) (settle s c)
  | takeFrom {i : ι} {k : ℕ} {r : Response (Option Id) β} (hc : s.client.caller i = .sent)
      (hk : s.client.handlers[k]? = some ⟨r, .sending i⟩) : Steps idOf s (.takeFrom i k)
        (settle s ((((s.client.setHandler k .resumed).deliver i r).setCaller i
          (.returned r)).closeReceiver i))
  | stray {r : Response (Option Id) β} : Steps idOf s (.stray r) { s with
      client := { s.client with wire := s.client.wire ++ [r] }
      strays := s.strays ++ [r] }

theorem takeFrom_eq_some {s t : State ι Id β} {i : ι} {k : ℕ} (h : takeFrom s i k = some t) :
    ∃ r, s.caller i = .sent ∧ s.handlers[k]? = some ⟨r, .sending i⟩ ∧
      t = (((s.setHandler k .resumed).deliver i r).setCaller i (.returned r)).closeReceiver i := by
  unfold takeFrom at h
  split at h
  · rename_i r j hc hk
    split_ifs at h with hj
    cases h
    exact ⟨r, hc, hj ▸ hk, rfl⟩
  · cases h

theorem step_cases {s t : Live ι Id β} {e : Event ι Id β} (h : step idOf s e = some t) :
    Steps idOf s e t := by
  cases e with
  | task a =>
    rw [step] at h
    split_ifs at h with ha
    obtain ⟨c, hc, rfl⟩ := Option.map_eq_some_iff.mp h
    exact .task ha hc
  | takeFrom i k =>
    obtain ⟨c, hc, rfl⟩ := Option.map_eq_some_iff.mp h
    obtain ⟨r, hcaller, hk, rfl⟩ := takeFrom_eq_some hc
    exact .takeFrom hcaller hk
  | stray r =>
    cases h
    exact .stray

/-! ### Settling -/

theorem settle_intact {s : Live ι Id β} {t : State ι (Option Id) β}
    (h : ∀ hd ∈ t.handlers, ∀ e, hd.pc ≠ .raised e) : settle s t = { s with client := t } := by
  refine if_neg fun hany => ?_
  obtain ⟨hd, hm, hf⟩ := List.any_eq_true.mp hany
  unfold failed at hf
  split at hf
  · rename_i e he
    exact h hd hm e he
  · cases hf

/-- The group lasts just if it has lasted and no handler has raised. -/
theorem settle_reading {s : Live ι Id β} {t : State ι (Option Id) β} (h : (settle s t).reading = true) :
    s.reading = true ∧ settle s t = { s with client := t } ∧ ∀ hd ∈ t.handlers, ∀ e, hd.pc ≠ .raised e := by
  unfold settle at h ⊢
  split_ifs at h ⊢ with hany
  refine ⟨h, rfl, fun hd hm e he => hany (List.any_eq_true.mpr ⟨hd, hm, ?_⟩)⟩
  rw [failed, he]

@[simp] theorem settle_strays (s : Live ι Id β) (t : State ι (Option Id) β) :
    (settle s t).strays = s.strays := by
  unfold settle
  split <;> rfl

theorem settle_torn {s : Live ι Id β} (h : s.reading = false) (t : State ι (Option Id) β) :
    (settle s t).reading = false := by
  unfold settle
  split
  · rfl
  · exact h

/-- The stray responses of a run are recorded. -/
theorem strays_eq_nil_iff {es : List (Event ι Id β)} {s : Live ι Id β}
    (hrun : Run.exec (step idOf) Live.init es = some s) :
    s.strays = [] ↔ ∀ e ∈ es, e.isStray = false := by
  refine Run.exec_inv_history (I := fun es s => s.strays = [] ↔ ∀ e ∈ es, e.isStray = false)
    (fun es s e t ih hstep => ?_) es ?_ hrun
  · cases step_cases hstep with
    | task | takeFrom => simpa [Event.isStray, or_imp, forall_and] using ih
    | stray => simp [Event.isStray, or_imp, forall_and]
  · simp [Live.init]

/-! ### Without stray responses -/

/-- A run of the calls and the handlers without stray responses. -/
def Plain (idOf : ι → Id) (s : Live ι Id β) : Prop :=
  s.reading = true ∧ ∃ as, (∀ a ∈ as, a.orderly = true) ∧
    Run.exec (Requests.step (ids idOf)) State.init as = some s.client

/-- No handler fails, so a task's step is all that happens. -/
theorem Plain.task {s : Live ι Id β} (hinj : Function.Injective idOf) (h : Plain idOf s)
    {a : Action ι (Option Id) β} {c : State ι (Option Id) β} (ha : a.orderly = true)
    (hc : Requests.step (ids idOf) s.client a = some c) : Plain idOf (settle s c) := by
  obtain ⟨hreading, as, has, hrun⟩ := h
  have hrun' : Run.exec (Requests.step (ids idOf)) State.init (as ++ [a]) = some c := by
    rw [Run.exec_append, hrun, Option.bind_some, Run.exec_cons hc, Run.exec]
  have has' : ∀ b ∈ as ++ [a], b.orderly = true := by
    simpa [or_imp, forall_and] using ⟨has, ha⟩
  rw [settle_intact fun _ => (orderly_run (ids_injective hinj) has' hrun').not_raised]
  exact ⟨hreading, as ++ [a], has', hrun'⟩

/-- Only one handler waits for a call: to take its response is to receive. -/
theorem Plain.takeFrom {s : Live ι Id β} (hinj : Function.Injective idOf) (h : Plain idOf s) {i : ι}
    {k : ℕ} {r : Response (Option Id) β} (hc : s.client.caller i = .sent)
    (hk : s.client.handlers[k]? = some ⟨r, .sending i⟩) :
    Requests.step (ids idOf) s.client (.receive i) = some ((((s.client.setHandler k .resumed).deliver
      i r).setCaller i (.returned r)).closeReceiver i) := by
  obtain ⟨-, as, has, hrun⟩ := h
  have hinv := (orderly_run (ids_injective hinj) has hrun).toInv
  obtain ⟨hid, -, -, hv⟩ := hinv.blocked (List.mem_of_getElem? hk) rfl
  have hone : s.client.handlers.countP (·.resp.id = ids idOf i) = 1 := by
    rw [List.countP_eq_length_filter]
    exact congrArg (fun v : View ι (Option Id) β => v.handlers.length) hv
  have hfind : s.client.handlers.findIdx? (fun h => h.pc = .sending i) = some k := by
    rcases hf : s.client.handlers.findIdx? (fun h => h.pc = .sending i) with _ | k'
    · have hnone := List.findIdx?_eq_none_iff.mp hf _ (List.mem_of_getElem? hk)
      simp at hnone
    · obtain ⟨hlt, hpc, -⟩ := List.findIdx?_eq_some_iff_getElem.mp hf
      have hk' := List.getElem?_eq_getElem hlt
      obtain ⟨hid', -⟩ := hinv.blocked (List.mem_of_getElem? hk') (by simpa using hpc)
      by_contra hne
      have htwo := two_le_countP (p := fun h : Handler ι (Option Id) β => h.resp.id = ids idOf i)
        (fun h => hne (hf.trans (congrArg some h))) hk' (by simp [hid']) hk (by simp [hid])
      omega
  simp only [Requests.step, hc, receiveResponse, hfind, hk]

/-- **Without stray responses the client runs as in `Requests`.** -/
theorem unstrayed_run {es : List (Event ι Id β)} {s : Live ι Id β} (hinj : Function.Injective idOf)
    (hm : Run.Along (step idOf) (Meant idOf) Live.init es)
    (hrun : Run.exec (step idOf) Live.init es = some s) (hs : s.strays = []) : Plain idOf s := by
  refine Run.exec_inv_along (I := fun s => s.strays = [] → Plain idOf s)
    (fun s e t ih hmeant hstep ht => ?_) es (fun _ => ⟨rfl, [], nofun, rfl⟩) hm hrun hs
  cases step_cases hstep with
  | task ha hc => exact (ih (by simpa using ht)).task hinj hmeant hc
  | takeFrom hc hk =>
    have hplain := ih (by simpa using ht)
    exact hplain.task hinj rfl (hplain.takeFrom hinj hc hk)
  | stray => simp at ht

/-! ### While the group lasts -/

section Callers

/-- The frame is out, and the call does not receive yet. -/
def away : Caller Id β → Bool
  | .sending true | .sent => true
  | _ => false

/-- The call has got its response. -/
def served : Caller Id β → Bool
  | .woken _ | .returned _ => true
  | _ => false

/-- The frame is out, or the call has ended. -/
def begun : Caller Id β → Bool
  | .idle | .sending false => false
  | _ => true

/-- The call may have an entry in the table. -/
def holder : Caller Id β → Bool
  | .sending _ | .sent | .waiting | .returned _ => true
  | _ => false

end Callers

/-- The item has passed to the call. -/
def passed : HandlerPc ι Id → Bool
  | .resumed | .notifying | .done => true
  | _ => false

/-- Where a handler is, and where its call is then. -/
inductive Place (idOf : ι → Id) (caller : ι → Caller (Option Id) β) : Handler ι (Option Id) β → Prop where
  | ready {r : Response (Option Id) β} : Place idOf caller ⟨r, .ready⟩
  | sending {r : Response (Option Id) β} {i : ι} (hid : ids idOf i = r.id)
      (hc : away (caller i) = true) : Place idOf caller ⟨r, .sending i⟩
  | passed {r : Response (Option Id) β} {pc : HandlerPc ι (Option Id)} {i : ι} (hpc : passed pc = true)
      (hid : ids idOf i = r.id) (hc : served (caller i) = true) : Place idOf caller ⟨r, pc⟩

/-- The handlers of one id whose item has passed. -/
def passes (hs : List (Handler ι (Option Id) β)) (id : Option Id) : ℕ :=
  hs.countP fun h => passed h.pc && decide (h.resp.id = id)

/-- Every package is accounted for, and one handler for each call at most gets
through. -/
structure Accounted (idOf : ι → Id) (s : Live ι Id β) : Prop where
  packets : (s.client.wire ++ s.client.handlers.map Handler.resp).Perm (s.client.answers ++ s.strays)
  entries : ∀ id i, s.client.pending.lookup id = some i →
    ids idOf i = id ∧ holder (s.client.caller i) = true
  received : ∀ id ∈ s.client.received, ∃ i, ids idOf i = id ∧ begun (s.client.caller i) = true
  answered : ∀ r ∈ s.client.answers, ∃ i, ids idOf i = r.id ∧ begun (s.client.caller i) = true
  strays : ∀ r ∈ s.strays, (∀ i, ids idOf i ≠ r.id) ∨ ∃ a ∈ s.client.answers, a.id = r.id
  handlers : ∀ h ∈ s.client.handlers, Place idOf s.client.caller h
  once : ∀ id, passes s.client.handlers id ≤ 1

theorem Place.sending_away {caller : ι → Caller (Option Id) β} {hd : Handler ι (Option Id) β} {i : ι}
    (h : Place idOf caller hd) (hs : hd.pc = .sending i) :
    ids idOf i = hd.resp.id ∧ away (caller i) = true := by
  cases h with
  | ready => cases hs
  | sending hid hc =>
    cases hs
    exact ⟨hid, hc⟩
  | passed hpc =>
    simp only at hs
    subst hs
    cases hpc

theorem Place.passed_served (hinj : Function.Injective idOf) {caller : ι → Caller (Option Id) β}
    {hd : Handler ι (Option Id) β} {i : ι} (h : Place idOf caller hd) (hp : Strays.passed hd.pc = true)
    (hid : hd.resp.id = ids idOf i) : served (caller i) = true := by
  cases h with
  | ready => cases hp
  | sending => cases hp
  | passed _ hid' hc =>
    rw [← hid'] at hid
    exact ids_injective hinj hid ▸ hc

/-- The call of a handler goes on. -/
theorem Place.update {caller : ι → Caller (Option Id) β} {hd : Handler ι (Option Id) β} {i : ι}
    {c : Caller (Option Id) β} (h : Place idOf caller hd)
    (ha : hd.pc = .sending i → away (caller i) = true → away c = true)
    (hs : served (caller i) = true → served c = true) :
    Place idOf (Function.update caller i c) hd := by
  cases h with
  | ready => exact .ready
  | @sending r j hid hc =>
    refine .sending hid ?_
    by_cases hj : j = i
    · subst hj
      rw [Function.update_self]
      exact ha rfl hc
    · rwa [Function.update_of_ne hj]
  | @passed r pc j hpc hid hc =>
    refine .passed hpc hid ?_
    by_cases hj : j = i
    · subst hj
      rw [Function.update_self]
      exact hs hc
    · rwa [Function.update_of_ne hj]

section Steps

variable {s : Live ι Id β} {c : State ι (Option Id) β}

/-- What the new caller has if the old one had it, every caller has. -/
theorem caller_setCaller_imp {i : ι} {d : Caller (Option Id) β} {q : Caller (Option Id) β → Bool}
    (hq : q (c.caller i) = true → q d = true) {j : ι} (hj : q (c.caller j) = true) :
    q ((c.setCaller i d).caller j) = true := by
  by_cases hji : j = i
  · subst hji
    simpa [State.setCaller] using hq hj
  · simpa [State.setCaller, hji] using hj

theorem mem_setHandler_self {k : ℕ} {hd : Handler ι (Option Id) β} (hk : c.handlers[k]? = some hd)
    (pc : HandlerPc ι (Option Id)) : ⟨hd.resp, pc⟩ ∈ (c.setHandler k pc).handlers := by
  refine List.mem_of_getElem? (i := k) ?_
  simp [State.setHandler, hk]

theorem mem_setHandler_elim {k : ℕ} {hd hd' : Handler ι (Option Id) β} {pc : HandlerPc ι (Option Id)}
    (hk : c.handlers[k]? = some hd) (hm : hd' ∈ (c.setHandler k pc).handlers) :
    hd' = ⟨hd.resp, pc⟩ ∨ hd' ∈ c.handlers := by
  refine (mem_modify_elim hm).imp_left fun ⟨a, ha, heq⟩ => ?_
  rw [hk] at ha
  cases ha
  exact heq

/-- A handler gets through that has been through, or is the first of its call. -/
theorem passes_setHandler {k : ℕ} {hd : Handler ι (Option Id) β} {pc : HandlerPc ι (Option Id)}
    (hk : c.handlers[k]? = some hd) (honce : ∀ id, passes c.handlers id ≤ 1)
    (hfirst : passed pc = true → passed hd.pc = true ∨ passes c.handlers hd.resp.id = 0)
    (id : Option Id) : passes (c.setHandler k pc).handlers id ≤ 1 := by
  by_cases hcount : passed pc = true ∧ hd.resp.id = id ∧ passed hd.pc = false
  · obtain ⟨hpc, rfl, hno⟩ := hcount
    have hzero := (hfirst hpc).resolve_left (by simp [hno])
    have hle : passes (c.setHandler k pc).handlers hd.resp.id ≤ passes c.handlers hd.resp.id + 1 :=
      countP_modify_le _ k
    omega
  · refine Nat.le_trans (countP_modify_of_imp fun a ha hq => ?_) (honce id)
    rw [hk] at ha
    cases ha
    simp only [Bool.and_eq_true, decide_eq_true_eq] at hq ⊢
    refine ⟨?_, hq.2⟩
    by_contra hno
    exact hcount ⟨hq.1, hq.2, by simpa using hno⟩

/-- A call goes on, and nothing else. -/
theorem Accounted.setCaller (h : Accounted idOf s) {i : ι} {d : Caller (Option Id) β}
    (hh : ∀ id, s.client.pending.lookup id = some i → holder (s.client.caller i) = true → holder d = true)
    (hb : begun (s.client.caller i) = true → begun d = true)
    (ha : ∀ hd ∈ s.client.handlers, hd.pc = .sending i → away (s.client.caller i) = true → away d = true)
    (hs : served (s.client.caller i) = true → served d = true) :
    Accounted idOf { s with client := s.client.setCaller i d } := by
  refine ⟨h.packets, fun id j hl => ?_, fun id hid => ?_, fun r hr => ?_, h.strays,
    fun hd hm => (h.handlers hd hm).update (ha hd hm) hs, h.once⟩
  · obtain ⟨hid, hc⟩ := h.entries id j hl
    by_cases hj : j = i
    · subst hj
      exact ⟨hid, by simpa [State.setCaller] using hh id hl hc⟩
    · exact ⟨hid, by simpa [State.setCaller, hj] using hc⟩
  · obtain ⟨j, hid, hc⟩ := h.received id hid
    exact ⟨j, hid, caller_setCaller_imp hb hc⟩
  · obtain ⟨j, hid, hc⟩ := h.answered r hr
    exact ⟨j, hid, caller_setCaller_imp hb hc⟩

/-- A handler goes on to where its call allows it to be. -/
theorem Accounted.setHandler (h : Accounted idOf s) {k : ℕ} {hd : Handler ι (Option Id) β}
    {pc : HandlerPc ι (Option Id)} (hk : s.client.handlers[k]? = some hd)
    (hp : Place idOf s.client.caller ⟨hd.resp, pc⟩)
    (hfirst : passed pc = true → passed hd.pc = true ∨ passes s.client.handlers hd.resp.id = 0) :
    Accounted idOf { s with client := s.client.setHandler k pc } := by
  refine ⟨?_, h.entries, h.received, h.answered, h.strays, fun hd' hm => ?_,
    passes_setHandler hk h.once hfirst⟩
  · show (s.client.wire ++ (s.client.setHandler k pc).handlers.map Handler.resp).Perm _
    rw [resps_setHandler]
    exact h.packets
  · rcases mem_setHandler_elim hk hm with rfl | hm
    · exact hp
    · exact h.handlers hd' hm

/-- Which call took which response is not accounted for. -/
theorem Accounted.deliver (h : Accounted idOf s) (i : ι) (r : Response (Option Id) β) :
    Accounted idOf { s with client := s.client.deliver i r } :=
  ⟨h.packets, h.entries, h.received, h.answered, h.strays, h.handlers, h.once⟩

/-- No handler of a call that has not got its response has got through. -/
theorem Accounted.passes_eq_zero (hinj : Function.Injective idOf) (h : Accounted idOf s) {i : ι}
    (hc : served (s.client.caller i) = false) : passes s.client.handlers (ids idOf i) = 0 := by
  refine List.countP_eq_zero.mpr fun hd hm hq => ?_
  simp only [Bool.and_eq_true, decide_eq_true_eq] at hq
  have hserved := (h.handlers hd hm).passed_served hinj hq.1 hq.2
  rw [hc] at hserved
  cases hserved

/-- The call of a package has sent its request. -/
theorem Accounted.packet_begun (hinj : Function.Injective idOf) (h : Accounted idOf s)
    {r : Response (Option Id) β} (hr : r ∈ s.client.wire ++ s.client.handlers.map Handler.resp) {i : ι}
    (hid : ids idOf i = r.id) : begun (s.client.caller i) = true := by
  have hanswer : ∃ a ∈ s.client.answers, a.id = r.id := by
    rcases List.mem_append.mp (h.packets.mem_iff.mp hr) with hr | hr
    · exact ⟨r, hr, rfl⟩
    · rcases h.strays r hr with hno | ha
      · exact absurd hid (hno i)
      · exact ha
  obtain ⟨a, ha, haid⟩ := hanswer
  obtain ⟨j, hj, hbegun⟩ := h.answered a ha
  exact ids_injective hinj (hj.trans (haid.trans hid.symm)) ▸ hbegun

/-- What is found when an entry has been popped is that of another id. -/
theorem lookup_erase_some {pending : Pending ι (Option Id)} {id id' : Option Id} {i : ι}
    (hl : (pending.erase id).lookup id' = some i) : id' ≠ id ∧ pending.lookup id' = some i := by
  have hne : id' ≠ id := by
    rintro rfl
    rw [AList.lookup_erase] at hl
    cases hl
  exact ⟨hne, AList.lookup_erase_ne hne ▸ hl⟩

/-- An entry is popped that is there, or is not. -/
theorem Accounted.erase (h : Accounted idOf s) (id : Option Id) :
    Accounted idOf { s with client := { s.client with pending := s.client.pending.erase id } } := by
  exact ⟨h.packets, fun id' j hl => h.entries id' j (lookup_erase_some hl).2, h.received, h.answered,
    h.strays, h.handlers, h.once⟩

/-- No handler has raised. -/
def Intact (c : State ι (Option Id) β) : Prop := ∀ hd ∈ c.handlers, ∀ e, hd.pc ≠ .raised e

theorem Intact.not_sending {i : ι} (h : Intact (c.closeReceiver i)) {hd : Handler ι (Option Id) β}
    (hm : hd ∈ c.handlers) : hd.pc ≠ .sending i := by
  intro hs
  have hraised : { hd with pc := .raised .brokenResource } ∈ (c.closeReceiver i).handlers :=
    List.mem_map.mpr ⟨hd, hm, if_pos hs⟩
  exact h _ hraised _ rfl

theorem Intact.closeReceiver {i : ι} (h : Intact (c.closeReceiver i)) : c.closeReceiver i = c :=
  closeReceiver_eq fun _ => h.not_sending

/-- A handler whose item has passed pops the entry, which is there if nothing raises. -/
theorem Accounted.popEntry (h : Accounted idOf s) {k : ℕ} {hd : Handler ι (Option Id) β}
    (hk : s.client.handlers[k]? = some hd) {i : ι} (hid : ids idOf i = hd.resp.id)
    (hc : served (s.client.caller i) = true)
    (hfirst : passed hd.pc = true ∨ passes s.client.handlers hd.resp.id = 0)
    (hok : Intact (s.client.popEntry k hd.resp.id)) :
    Accounted idOf { s with client := s.client.popEntry k hd.resp.id } := by
  unfold State.popEntry OneShotTable.pop at hok ⊢
  by_cases hmem : hd.resp.id ∈ s.client.pending
  · simp only [if_pos hmem] at hok ⊢
    have hpc : ∀ b : Bool, passed (if b then .notifying else .done : HandlerPc ι (Option Id)) = true := by
      intro b
      cases b <;> rfl
    exact (h.erase hd.resp.id).setHandler hk (.passed (hpc _) hid hc) fun _ => hfirst
  · simp only [if_neg hmem] at hok
    exact absurd rfl (hok _ (mem_setHandler_self hk _) _)

theorem accounted_init : Accounted idOf (Live.init : Live ι Id β) := by
  refine ⟨.refl _, fun id i hl => ?_, nofun, nofun, nofun, nofun, fun _ => Nat.zero_le _⟩
  cases hl

theorem Accounted.reserve (h : Accounted idOf s) {i : ι}
    (hc : s.client.caller i = .idle) : Accounted idOf { s with client :=
      { s.client with pending := s.client.pending.insert (ids idOf i) i }.setCaller i (.sending false) } := by
  have hset := h.setCaller (i := i) (d := .sending false) (fun _ _ _ => rfl) (by simp [hc, begun])
    (by simp [hc, away]) (by simp [hc, served])
  refine ⟨hset.packets, fun id j hl => ?_, hset.received, hset.answered, hset.strays, hset.handlers,
    hset.once⟩
  change AList.lookup id (s.client.pending.insert (ids idOf i) i) = some j at hl
  by_cases hid : id = ids idOf i
  · subst hid
    rw [AList.lookup_insert] at hl
    cases hl
    exact ⟨rfl, by simp [State.setCaller, holder]⟩
  · rw [AList.lookup_insert_ne hid] at hl
    exact hset.entries id j hl

theorem Accounted.transmit (h : Accounted idOf s) {i : ι} (hc : s.client.caller i = .sending false) :
    Accounted idOf { s with client :=
      { s.client with received := s.client.received ++ [ids idOf i] }.setCaller i (.sending true) } := by
  have hset := h.setCaller (i := i) (d := .sending true) (fun _ _ _ => rfl) (fun _ => rfl)
    (by simp [hc, away]) (by simp [hc, served])
  refine ⟨hset.packets, hset.entries, fun id hid => ?_, hset.answered, hset.strays, hset.handlers, hset.once⟩
  rcases List.mem_append.mp hid with hid | hid
  · exact hset.received id hid
  · rw [List.mem_singleton.mp hid]
    exact ⟨i, rfl, by simp [State.setCaller, begun]⟩

theorem Accounted.answer (h : Accounted idOf s) {id : Option Id} (body : β)
    (hm : id ∈ s.client.received) {left : List (Option Id)} (hleft : ∀ id ∈ left, id ∈ s.client.received) :
    Accounted idOf { s with client := { s.client with
      received := left
      wire := s.client.wire ++ [⟨id, body⟩]
      answers := s.client.answers ++ [⟨id, body⟩] } } := by
  refine ⟨?_, h.entries, fun id' hid => h.received id' (hleft id' hid), fun r hr => ?_,
    fun r hr => ?_, h.handlers, h.once⟩
  · have hperm := (h.packets.append_right [⟨id, body⟩])
    refine (List.Perm.trans ?_ hperm).trans ?_
    · simpa only [List.append_assoc] using List.perm_append_comm.append_left s.client.wire
    · simpa only [List.append_assoc] using List.perm_append_comm.append_left s.client.answers
  · rcases List.mem_append.mp hr with hr | hr
    · exact h.answered r hr
    · rw [List.mem_singleton.mp hr]
      exact h.received id hm
  · exact (h.strays r hr).imp_right fun ⟨a, ha, haid⟩ => ⟨a, List.mem_append_left _ ha, haid⟩

theorem Accounted.dispatch (h : Accounted idOf s) {r : Response (Option Id) β}
    {rest : List (Response (Option Id) β)} (hw : s.client.wire = r :: rest) :
    Accounted idOf { s with client := { s.client with
      wire := rest, handlers := s.client.handlers ++ [⟨r, .ready⟩] } } := by
  refine ⟨?_, h.entries, h.received, h.answered, h.strays, fun hd hm => ?_, fun id => ?_⟩
  · have hperm := h.packets
    rw [hw] at hperm
    refine List.Perm.trans ?_ hperm
    simpa only [List.map_append, List.map_cons, List.map_nil, List.append_assoc, List.cons_append] using
      (List.perm_append_singleton r (rest ++ s.client.handlers.map Handler.resp))
  · rcases List.mem_append.mp hm with hm | hm
    · exact h.handlers hd hm
    · rw [List.mem_singleton.mp hm]
      exact .ready
  · simpa [passes, passed] using h.once id

/-- A handler that sends is waited for, or waits. -/
theorem Accounted.handle (hinj : Function.Injective idOf) (h : Accounted idOf s) {k : ℕ}
    {r : Response (Option Id) β} (hk : s.client.handlers[k]? = some ⟨r, .ready⟩)
    (hok : Intact (sendResponse s.client k r)) :
    Accounted idOf { s with client := sendResponse s.client k r } := by
  have hraised : ∀ e, ¬ Intact (s.client.setHandler k (.raised e)) := fun e hok =>
    hok _ (mem_setHandler_self hk _) e rfl
  unfold sendResponse at hok ⊢
  rcases hl : s.client.pending.lookup r.id with _ | i
  · simp only [hl] at hok
    exact absurd hok (hraised _)
  · obtain ⟨hid, hholder⟩ := h.entries _ i hl
    have hbegun := h.packet_begun hinj
      (List.mem_append_right _ (List.mem_map_of_mem (List.mem_of_getElem? hk))) hid
    simp only [hl] at hok ⊢
    cases hc : s.client.caller i with
    | waiting =>
      simp only [hc] at hok ⊢
      have hmem : r.id ∈ s.client.pending := by
        rw [← AList.lookup_isSome, hl]
        rfl
      have hzero : passes s.client.handlers r.id = 0 :=
        hid ▸ h.passes_eq_zero hinj (by rw [hc]; rfl)
      -- the entry goes, the call has its response, and the handler gets through
      have hpop := ((h.deliver i r).erase r.id).setCaller (i := i) (d := .woken r) (fun id hl' _ => ?_)
        (fun _ => rfl) (fun hd hm hs => ?_) (fun _ => rfl)
      · have hplace : Place idOf ((s.client.deliver i r).setCaller i (.woken r)).caller
            ⟨r, (OneShotTable.pop s.client.pending r.id).2⟩ := by
          refine .passed (i := i) ?_ hid (by simp [State.setCaller, served])
          rw [OneShotTable.pop, if_pos hmem]
          simp only
          split <;> rfl
        have hget := hpop.setHandler hk hplace fun _ => Or.inr hzero
        have htable : (OneShotTable.pop s.client.pending r.id).1 = s.client.pending.erase r.id := by
          rw [OneShotTable.pop, if_pos hmem]
        unfold State.popEntry
        simp only [State.setCaller, State.deliver, htable] at hget ⊢
        exact hget
      · obtain ⟨hid', hl'⟩ := lookup_erase_some hl'
        exact absurd ((h.entries id i hl').1.symm.trans hid) hid'
      · have haway := ((h.handlers hd hm).sending_away hs).2
        rw [hc] at haway
        cases haway
    | returned r' =>
      simp only [hc] at hok
      exact absurd hok (hraised _)
    | sending out =>
      simp only [hc] at hok ⊢
      rw [hc] at hbegun
      cases out with
      | false => cases hbegun
      | true => exact h.setHandler hk (.sending hid (by rw [hc]; rfl)) fun hp => absurd hp Bool.false_ne_true
    | sent =>
      simp only [hc] at hok ⊢
      exact h.setHandler hk (.sending hid (by rw [hc]; rfl)) fun hp => absurd hp Bool.false_ne_true
    | idle | woken | raised =>
      rw [hc] at hholder
      cases hholder

/-- A call takes the response of a handler; no other handler waits for it, or one raises. -/
theorem Accounted.takeFrom (hinj : Function.Injective idOf) (h : Accounted idOf s) {i : ι} {k : ℕ}
    {r : Response (Option Id) β} (hc : s.client.caller i = .sent)
    (hk : s.client.handlers[k]? = some ⟨r, .sending i⟩)
    (hok : Intact ((((s.client.setHandler k .resumed).deliver i r).setCaller i
      (.returned r)).closeReceiver i)) :
    Accounted idOf { s with client := (((s.client.setHandler k .resumed).deliver i r).setCaller i
      (.returned r)).closeReceiver i } := by
  have hid := ((h.handlers _ (List.mem_of_getElem? hk)).sending_away rfl).1
  have hzero : passes s.client.handlers r.id = 0 :=
    hid ▸ h.passes_eq_zero hinj (by rw [hc]; rfl)
  have hintact := hok.closeReceiver
  have hnone : ∀ hd ∈ (s.client.setHandler k .resumed).handlers, hd.pc ≠ .sending i := fun _ =>
    hok.not_sending
  rw [hintact]
  refine ⟨?_, fun id j hl => ?_, fun id hid => ?_, fun a ha => ?_, h.strays, fun hd hm => ?_,
    passes_setHandler hk h.once fun _ => Or.inr hzero⟩
  · show (s.client.wire ++ (s.client.setHandler k .resumed).handlers.map Handler.resp).Perm _
    rw [resps_setHandler]
    exact h.packets
  · obtain ⟨hid', hj⟩ := h.entries id j hl
    exact ⟨hid', caller_setCaller_imp (c := s.client) (d := .returned r) (fun _ => rfl) hj⟩
  · obtain ⟨j, hid', hj⟩ := h.received id hid
    exact ⟨j, hid', caller_setCaller_imp (c := s.client) (d := .returned r) (fun _ => rfl) hj⟩
  · obtain ⟨j, hid', hj⟩ := h.answered a ha
    exact ⟨j, hid', caller_setCaller_imp (c := s.client) (d := .returned r) (fun _ => rfl) hj⟩
  · rcases mem_setHandler_elim hk hm with rfl | hm'
    · exact .passed (i := i) rfl hid (by simp [State.setCaller, served])
    · exact (h.handlers hd hm').update (fun hs => absurd hs (hnone hd hm)) fun _ => rfl

/-- A call begins to wait that no handler waits for. -/
theorem Accounted.receive (h : Accounted idOf s) {i : ι} (hc : s.client.caller i = .sent)
    (hnone : ∀ hd ∈ s.client.handlers, hd.pc ≠ .sending i) :
    Accounted idOf { s with client := receiveResponse s.client i } := by
  have hfind : s.client.handlers.findIdx? (fun h => h.pc = .sending i) = none :=
    List.findIdx?_eq_none_iff.mpr fun hd hm => by simpa using hnone hd hm
  rw [receiveResponse, hfind]
  exact h.setCaller (fun _ _ _ => rfl) (fun _ => rfl) (fun hd hm hs => absurd hs (hnone hd hm))
    (by simp [hc, served])

/-- **Every step accounts for every package**, as long as no handler raises. -/
theorem Accounted.task (hinj : Function.Injective idOf) (h : Accounted idOf s)
    {a : Action ι (Option Id) β} (hallowed : allowed s a = true) (ha : a.orderly = true)
    (hstep : Requests.step (ids idOf) s.client a = some c) (hok : Intact c) :
    Accounted idOf { s with client := c } := by
  have hserved : ∀ {hd : Handler ι (Option Id) β}, hd ∈ s.client.handlers → passed hd.pc = true →
      ∃ i, ids idOf i = hd.resp.id ∧ served (s.client.caller i) = true := fun hm hp => by
    cases h.handlers _ hm with
    | ready => cases hp
    | sending => cases hp
    | passed _ hid hc => exact ⟨_, hid, hc⟩
  cases Requests.step_cases hstep with
  | reserve hc _ => exact h.reserve hc
  | @reserved i e hc hmem =>
    obtain ⟨j, hj⟩ := Option.isSome_iff_exists.mp (AList.lookup_isSome.mpr hmem)
    obtain ⟨hid, hholder⟩ := h.entries _ j hj
    rw [ids_injective hinj hid, hc] at hholder
    cases hholder
  | transmit hc => exact h.transmit hc
  | sent hc =>
    exact h.setCaller (fun _ _ _ => rfl) (fun _ => rfl) (fun _ _ _ _ => rfl) (by simp [hc, served])
  | receive hc => exact h.receive hc (by simpa [allowed] using hallowed)
  | resume hc =>
    rw [hok.closeReceiver]
    exact h.setCaller (by simp [hc, holder]) (fun _ => rfl) (by simp [hc, away]) (fun _ => rfl)
  | sendFails | cancel => cases ha
  | @answer id body hm => exact h.answer body hm fun _ => @List.mem_of_mem_erase _ instBEqOfDecidableEq _ _ _
  | dispatch hw => exact h.dispatch hw
  | handle hk => exact h.handle hinj hk hok
  | pop hk =>
    obtain ⟨i, hid, hc⟩ := hserved (List.mem_of_getElem? hk) rfl
    exact h.popEntry hk hid hc (Or.inl rfl) hok
  | notify hk =>
    obtain ⟨i, hid, hc⟩ := hserved (List.mem_of_getElem? hk) rfl
    exact h.setHandler hk (.passed rfl hid hc) fun _ => Or.inl rfl
  | leave | wake | waitTimeout =>
    exact ⟨h.packets, h.entries, h.received, h.answered, h.strays, h.handlers, h.once⟩

theorem Accounted.stray (h : Accounted idOf s) {r : Response (Option Id) β} (hr : Stray idOf s r) :
    Accounted idOf { s with
      client := { s.client with wire := s.client.wire ++ [r] }
      strays := s.strays ++ [r] } := by
  refine ⟨?_, h.entries, h.received, h.answered, fun r' hr' => ?_, h.handlers, h.once⟩
  · have hperm := h.packets.append_right [r]
    refine List.Perm.trans ?_ (hperm.trans (by simp))
    simpa only [List.append_assoc] using List.perm_append_comm.append_left s.client.wire
  · rcases List.mem_append.mp hr' with hr' | hr'
    · exact h.strays r' hr'
    · rw [List.mem_singleton.mp hr']
      rcases hr with hnull | ⟨id, hid, hno⟩ | ha
      · exact Or.inl fun i hi => by simp [hnull, ids] at hi
      · exact Or.inl fun i hi => hno i (Option.some.inj (hi.trans hid))
      · exact Or.inr ha

end Steps

theorem accounted_step (hinj : Function.Injective idOf) {s t : Live ι Id β} {e : Event ι Id β}
    (h : s.reading = true → Accounted idOf s) (hm : Meant idOf s e) (hstep : step idOf s e = some t)
    (ht : t.reading = true) : Accounted idOf t := by
  cases step_cases hstep with
  | task ha hc =>
    obtain ⟨hs, heq, hok⟩ := settle_reading ht
    rw [heq]
    exact (h hs).task hinj ha hm hc hok
  | takeFrom hc hk =>
    obtain ⟨hs, heq, hok⟩ := settle_reading ht
    rw [heq]
    exact (h hs).takeFrom hinj hc hk hok
  | stray => exact (h ht).stray hm

theorem accounted_run (hinj : Function.Injective idOf) {es : List (Event ι Id β)} {s : Live ι Id β}
    (hm : Run.Along (step idOf) (Meant idOf) Live.init es)
    (hrun : Run.exec (step idOf) Live.init es = some s) (hs : s.reading = true) : Accounted idOf s :=
  Run.exec_inv_along (I := fun s => s.reading = true → Accounted idOf s)
    (fun _ _ _ h hmeant hstep => accounted_step hinj h hmeant hstep) es (fun _ => accounted_init) hm hrun hs

/-! ### When the group has ended -/

theorem settle_caller (s : Live ι Id β) (c : State ι (Option Id) β) :
    (settle s c).client.caller = c.caller := by
  unfold settle
  split <;> rfl

theorem mem_settle {s : Live ι Id β} {c : State ι (Option Id) β} {hd : Handler ι (Option Id) β}
    (hm : hd ∈ (settle s c).client.handlers) : hd ∈ c.handlers := by
  unfold settle at hm
  split at hm
  · exact (List.mem_filter.mp hm).1
  · exact hm

/-- No handler of a group that has ended waits for its call. -/
def Torn (s : Live ι Id β) : Prop := s.reading = false ∧ ∀ hd ∈ s.client.handlers, ∀ i, hd.pc ≠ .sending i

/-- The step that ends the group leaves only handlers whose item has been taken. -/
theorem settle_ends {s : Live ι Id β} {c : State ι (Option Id) β} (hs : s.reading = true)
    (ht : (settle s c).reading = false) : Torn (settle s c) := by
  refine ⟨ht, fun hd hm i hsend => ?_⟩
  unfold settle at ht hm
  split at ht
  · rename_i hany
    rw [if_pos hany] at hm
    have hpc : hd.pc = .resumed := by simpa using (List.mem_filter.mp hm).2
    rw [hsend] at hpc
    cases hpc
  · change s.reading = false at ht
    rw [hs] at ht
    cases ht

theorem torn_task {s : Live ι Id β} {a : Action ι (Option Id) β} {c : State ι (Option Id) β} (hs : Torn s)
    (ha : allowed s a = true) (hstep : Requests.step (ids idOf) s.client a = some c) :
    (∀ hd ∈ c.handlers, ∀ i, hd.pc ≠ .sending i) ∧
      ∀ i r, (c.caller i = .returned r ∨ c.caller i = .woken r) →
        s.client.caller i = .returned r ∨ s.client.caller i = .woken r := by
  obtain ⟨hreading, hnone⟩ := hs
  have hset : ∀ {i : ι} {d : Caller (Option Id) β}, served d = false → ∀ j r,
      ((s.client.setCaller i d).caller j = .returned r ∨ (s.client.setCaller i d).caller j = .woken r) →
        s.client.caller j = .returned r ∨ s.client.caller j = .woken r := fun hd j r hj => by
    rcases hj with hj | hj <;> rcases caller_setCaller hj with rfl | hj'
    · cases hd
    · exact Or.inl hj'
    · cases hd
    · exact Or.inr hj'
  cases Requests.step_cases hstep with
  | reserve | reserved | transmit | sent | sendFails | cancel => exact ⟨hnone, hset rfl⟩
  | @receive i hc =>
    have hfind : s.client.handlers.findIdx? (fun h => h.pc = .sending i) = none :=
      List.findIdx?_eq_none_iff.mpr fun hd hm => by simpa using hnone hd hm i
    rw [receiveResponse, hfind]
    exact ⟨hnone, hset rfl⟩
  | @resume i r hc =>
    have hclose : (s.client.setCaller i (.returned r)).closeReceiver i = s.client.setCaller i (.returned r) :=
      closeReceiver_eq fun hd hm => hnone hd hm i
    rw [hclose]
    refine ⟨hnone, fun j r' hj => ?_⟩
    by_cases hji : j = i
    · subst hji
      have hr : r = r' := by simpa [State.setCaller] using hj
      exact hr ▸ Or.inr hc
    · simpa [State.setCaller, hji] using hj
  | dispatch | handle | notify =>
    rw [allowed, hreading] at ha
    cases ha
  | @pop k r hk =>
    refine ⟨fun hd hm i hsend => ?_, fun i r hj => hj⟩
    rcases mem_setHandler hm with hm | hpc
    · exact hnone hd hm i hsend
    · rw [hsend] at hpc
      unfold OneShotTable.pop at hpc
      split at hpc
      · simp only at hpc
        split at hpc <;> cases hpc
      · cases hpc
  | answer | leave | wake | waitTimeout => exact ⟨hnone, fun _ _ hj => hj⟩

theorem torn_step {s t : Live ι Id β} {e : Event ι Id β} (hs : Torn s) (hstep : step idOf s e = some t) :
    Torn t ∧ ∀ i r, (t.client.caller i = .returned r ∨ t.client.caller i = .woken r) →
      s.client.caller i = .returned r ∨ s.client.caller i = .woken r := by
  cases step_cases hstep with
  | task ha hc =>
    obtain ⟨hnone, hcaller⟩ := torn_task hs ha hc
    refine ⟨⟨settle_torn hs.1 _, fun hd hm => hnone hd (mem_settle hm)⟩, fun i r hj => ?_⟩
    rw [settle_caller] at hj
    exact hcaller i r hj
  | @takeFrom i k r hc hk => exact absurd rfl (hs.2 _ (List.mem_of_getElem? hk) i)
  | stray => exact ⟨hs, fun _ _ hj => hj⟩

/-- **Once the group has ended it stays so, and no call gets its response any more.** -/
theorem torn_run : ∀ {es : List (Event ι Id β)} {s t : Live ι Id β}, Torn s →
    Run.exec (step idOf) s es = some t → Torn t ∧ ∀ i r, t.client.caller i = .returned r →
      s.client.caller i = .returned r ∨ s.client.caller i = .woken r := by
  intro es s t hs hrun
  have hall := Run.exec_inv_history (I := fun _ t => Torn t ∧ ∀ i r,
      (t.client.caller i = .returned r ∨ t.client.caller i = .woken r) →
        s.client.caller i = .returned r ∨ s.client.caller i = .woken r)
    (fun _ _ _ _ h hstep => ?_) es ⟨hs, fun _ _ hj => hj⟩ hrun
  · exact ⟨hall.1, fun i r hj => hall.2 i r (Or.inl hj)⟩
  · obtain ⟨ht, hcaller⟩ := torn_step h.1 hstep
    exact ⟨ht, fun i r hj => h.2 i r (hcaller i r hj)⟩

/-- A group that is at its end in a run is torn. -/
theorem torn_of_run {es : List (Event ι Id β)} {s : Live ι Id β}
    (hrun : Run.exec (step idOf) Live.init es = some s) (hs : s.reading = false) : Torn s := by
  refine Run.exec_inv_history (I := fun _ s => s.reading = false → Torn s)
    (fun _ s e t h hstep ht => ?_) es (fun h => by simp [Live.init] at h) hrun hs
  rcases hr : s.reading with _ | _
  · exact (torn_step (h hr) hstep).1
  · cases step_cases hstep with
    | task | takeFrom => exact settle_ends hr ht
    | stray => exact absurd (hr.symm.trans ht) (by decide)

/-! ### What a stray response does -/

theorem Quiet.client {s : Live ι Id β} (h : Quiet idOf s) (hs : s.reading = true)
    {a : Action ι (Option Id) β} (ha : a.internal = true) : Requests.step (ids idOf) s.client a = none := by
  have hnone := h.1 a ha
  rw [step] at hnone
  by_cases hallowed : allowed s a = true
  · rw [if_pos hallowed] at hnone
    exact Option.map_eq_none_iff.mp hnone
  · -- a call that receives from a handler that waits takes its response
    cases a with
    | receive i =>
      simp only [allowed, List.all_eq_true, not_forall] at hallowed
      obtain ⟨hd, hm, hpc⟩ := hallowed
      obtain ⟨k, hk⟩ := List.getElem?_of_mem hm
      have hsend : hd.pc = .sending i := by simpa using hpc
      have htake := Option.map_eq_none_iff.mp (h.2 i k)
      obtain ⟨r, pc⟩ := hd
      simp only at hsend
      subst hsend
      cases hc : s.client.caller i with
      | sent => simp [takeFrom, hc, hk] at htake
      | _ => simp only [Requests.step, hc]
    | dispatch | handle | notify => exact absurd hs hallowed
    | _ => exact absurd rfl hallowed

/-- When nothing is left to do and the loop goes on, every handler has got through. -/
theorem Quiet.passed {s : Live ι Id β} (h : Quiet idOf s) (hacc : Accounted idOf s)
    (hs : s.reading = true) {hd : Handler ι (Option Id) β} (hm : hd ∈ s.client.handlers) :
    ∃ i, Strays.passed hd.pc = true ∧ ids idOf i = hd.resp.id := by
  obtain ⟨k, hk⟩ := List.getElem?_of_mem hm
  cases hacc.handlers hd hm with
  | ready =>
    have hnone := h.client hs (a := .handle k) rfl
    simp [Requests.step, hk] at hnone
  | @sending r i hid hc =>
    cases hcaller : s.client.caller i with
    | sending out =>
      rw [hcaller] at hc
      cases out with
      | false => cases hc
      | true =>
        have hnone := h.client hs (a := .sent i) rfl
        simp [Requests.step, hcaller] at hnone
    | sent =>
      have hnone := Option.map_eq_none_iff.mp (h.2 i k)
      simp [takeFrom, hcaller, hk] at hnone
    | _ =>
      rw [hcaller] at hc
      cases hc
  | passed hpc hid _ => exact ⟨_, hpc, hid⟩

/-- **A stray response ends the loop**, if it is not still on its way. -/
theorem Quiet.no_strays {s : Live ι Id β} (h : Quiet idOf s) (hacc : Accounted idOf s)
    (hs : s.reading = true) : s.strays = [] := by
  have hwire : s.client.wire = [] := by
    have hnone := h.client hs (a := .dispatch) rfl
    rcases hw : s.client.wire with _ | ⟨r, rest⟩
    · rfl
    · simp [Requests.step, hw] at hnone
  have hpackets := hacc.packets
  rw [hwire, List.nil_append] at hpackets
  refine List.eq_nil_iff_forall_not_mem.mpr fun r hr => ?_
  rcases hacc.strays r hr with hno | ⟨a, ha, haid⟩
  · obtain ⟨hd, hmem, rfl⟩ := List.mem_map.mp (hpackets.mem_iff.mpr (List.mem_append_right _ hr))
    obtain ⟨i, -, hid⟩ := h.passed hacc hs hmem
    exact hno i hid
  · -- the answer and the stray response are with two handlers, both through
    have hcount := hpackets.countP_eq fun p => decide (p.id = r.id)
    rw [List.countP_append, List.countP_map] at hcount
    have hans : 0 < s.client.answers.countP fun p => decide (p.id = r.id) :=
      List.countP_pos_iff.mpr ⟨a, ha, by simp [haid]⟩
    have hstr : 0 < s.strays.countP fun p => decide (p.id = r.id) :=
      List.countP_pos_iff.mpr ⟨r, hr, by simp⟩
    have hpass : passes s.client.handlers r.id =
        s.client.handlers.countP ((fun p => decide (p.id = r.id)) ∘ Handler.resp) := by
      refine List.countP_congr fun hd hm => ?_
      obtain ⟨i, hpc, -⟩ := h.passed hacc hs hm
      simp [hpc]
    have honce := hacc.once r.id
    omega

/-- **Stray responses are harmful.** In every run without timeouts and failing
sends: while no stray response is sent the loop goes on and what a call returns
is its own response; and when the client has nothing left to do, the loop goes
on and every answered request has returned its own response exactly if no stray
response has been sent. -/
theorem strays_harmless_iff {es : List (Event ι Id β)} {s : Live ι Id β} (hinj : Function.Injective idOf)
    (hm : Run.Along (step idOf) (Meant idOf) Live.init es)
    (hrun : Run.exec (step idOf) Live.init es = some s) :
    ((∀ e ∈ es, e.isStray = false) → s.reading = true ∧ ∀ i r, s.client.caller i = .returned r →
      r.id = some (idOf i) ∧ r ∈ s.client.answers) ∧
    (Quiet idOf s → (Unharmed idOf s ↔ ∀ e ∈ es, e.isStray = false)) := by
  have hplain : (∀ e ∈ es, e.isStray = false) → Plain idOf s := fun hno =>
    unstrayed_run hinj hm hrun ((strays_eq_nil_iff hrun).mpr hno)
  refine ⟨fun hno => ?_, fun hq => ⟨fun hun => ?_, fun hno => ?_⟩⟩
  · obtain ⟨hreading, as, has, hclient⟩ := hplain hno
    refine ⟨hreading, fun i r hc => ?_⟩
    obtain ⟨hid, hans, -⟩ := (orderly_run (ids_injective hinj) has hclient).returned hc
    exact ⟨hid, hans⟩
  · exact (strays_eq_nil_iff hrun).mp
      (hq.no_strays (accounted_run hinj hm hrun hun.reading) hun.reading)
  · obtain ⟨hreading, as, has, hclient⟩ := hplain hno
    refine ⟨hreading, fun r hr => ?_⟩
    obtain ⟨i, hid, hc⟩ :=
      (orderly_run (ids_injective hinj) has hclient).answered (fun a ha => hq.client hreading ha) hr
    exact ⟨i, hid.symm, hc⟩

/-- One request, answered. -/
def unstrayed : List (Event ℕ ℕ ℕ) := [.task (.reserve 0), .task (.transmit 0), .task (.sent 0),
  .task (.receive 0), .task (.answer (some 0) 10), .task .dispatch, .task (.handle 0), .task (.resume 0),
  .task (.notify 0)]

theorem strays_harmless_one : ∃ s : Live ℕ ℕ ℕ, Run.exec (step id) Live.init unstrayed = some s ∧
    s.client.caller 0 = .returned ⟨some 0, 10⟩ ∧ s.reading = true ∧
      ∀ i r, s.client.caller i = .returned r → r.id = some i ∧ r ∈ s.client.answers := by
  have halong : Run.Along (step id) (Meant id) Live.init unstrayed := by
    repeat refine (Run.along_cons rfl).mpr ⟨rfl, ?_⟩
    trivial
  exact ⟨_, rfl, rfl, (strays_harmless_iff Function.injective_id halong rfl).1 (by decide)⟩

/-- A response of null, as the answer is on its way. -/
def strayNull : List (Event ℕ ℕ ℕ) := [.task (.reserve 0), .task (.transmit 0), .task (.sent 0),
  .task (.receive 0), .stray ⟨none, 7⟩, .task (.answer (some 0) 10), .task .dispatch, .task (.handle 0)]

/-- A second answer to request 1, as that to request 0 is on its way. -/
def strayTwice : List (Event ℕ ℕ ℕ) := [.task (.reserve 0), .task (.reserve 1), .task (.transmit 0),
  .task (.transmit 1), .task (.sent 0), .task (.receive 0), .task (.sent 1), .task (.receive 1),
  .task (.answer (some 1) 11), .stray ⟨some 1, 11⟩, .task (.answer (some 0) 10), .task .dispatch,
  .task .dispatch, .task (.handle 0), .task (.handle 1)]

/-- The run leaves the loop ended, and request 0, though it is answered, never returns. -/
def Harmful (es : List (Event ℕ ℕ ℕ)) : Prop := ∃ s : Live ℕ ℕ ℕ,
  Run.Along (step id) (Meant id) Live.init es ∧ Run.exec (step id) Live.init es = some s ∧
  s.reading = false ∧ ⟨some 0, 10⟩ ∈ s.client.answers ∧ s.client.caller 0 = .waiting ∧
  ∀ es' t, Run.exec (step id) s es' = some t → t.reading = false ∧ ∀ r, t.client.caller 0 ≠ .returned r

theorem never_returns {es : List (Event ℕ ℕ ℕ)} {s : Live ℕ ℕ ℕ}
    (hrun : Run.exec (step id) Live.init es = some s) (hs : s.reading = false)
    (hc : s.client.caller 0 = .waiting) {es' : List (Event ℕ ℕ ℕ)} {t : Live ℕ ℕ ℕ}
    (hrun' : Run.exec (step id) s es' = some t) : t.reading = false ∧ ∀ r, t.client.caller 0 ≠ .returned r := by
  obtain ⟨ht, hcaller⟩ := torn_run (torn_of_run hrun hs) hrun'
  refine ⟨ht.1, fun r hr => ?_⟩
  rcases hcaller 0 r hr with h | h <;> rw [hc] at h <;> cases h

/-- **A stray response ends the loop**: one of null, and a second answer. -/
theorem stray_ends_loop : Harmful strayNull ∧ Harmful strayTwice := by
  constructor
  · have hrun : Run.exec (step id) Live.init strayNull = some _ := rfl
    refine ⟨_, ?_, hrun, rfl, by decide, rfl, fun _ _ => never_returns hrun rfl rfl⟩
    repeat refine (Run.along_cons rfl).mpr ⟨rfl, ?_⟩
    refine (Run.along_cons rfl).mpr ⟨Or.inl rfl, ?_⟩
    repeat refine (Run.along_cons rfl).mpr ⟨rfl, ?_⟩
    trivial
  · have hrun : Run.exec (step id) Live.init strayTwice = some _ := rfl
    refine ⟨_, ?_, hrun, rfl, by decide, rfl, fun _ _ => never_returns hrun rfl rfl⟩
    repeat refine (Run.along_cons rfl).mpr ⟨rfl, ?_⟩
    refine (Run.along_cons rfl).mpr ⟨Or.inr (Or.inr ⟨⟨some 1, 11⟩, List.mem_cons_self, rfl⟩), ?_⟩
    repeat refine (Run.along_cons rfl).mpr ⟨rfl, ?_⟩
    trivial

end Strays
end LspClient
