/-
# One response for each request

The calls share the table, the wire and the handler tasks, but not their ids.
`view s i` is what a state holds of call `i`: its caller, its entry, and what
the server, the wire and the tasks hold under its id. A step changes the view
of one call at most, and in the runs in which no call is cut off between its
reservation and its response every view is at a `Stage` (`inv_step`): a request
and its response are in one place at a time.

* `request_correlation`: without timeouts and failing sends every call that
  returns returns the response with its own id, every response goes to one call,
  once, and what is left over in the end is an empty table.
* `request_leaves_no_trace`: the entry of a call that ends otherwise stays. The
  runs in which none stays are those in which no send fails, no timeout
  strikes a call between its reservation and its response, and no call finds
  its response already waiting.

Key definitions: `View`, `Stage`, `Inv`, `NoTrace`.
Key theorems: `inv_step`, `request_correlation`, `request_leaves_no_trace`.
-/
import LspClient.Lib.Tasks
import LspClient.ResponseTable

set_option linter.unusedSectionVars false

namespace LspClient
namespace Requests

open State Tasks

variable {ι Id β : Type*} [DecidableEq ι] [DecidableEq Id]

/-- The call's frame has left and its response has not reached it. -/
def Caller.open : Caller Id β → Bool
  | .sending true | .sent | .waiting => true
  | _ => false

/-! ### What a state holds of one call -/

structure View (ι Id β : Type*) where
  caller : Caller Id β
  entry : Option ι
  received : ℕ
  wire : List (Response Id β)
  handlers : List (Handler ι Id β)
  answers : List (Response Id β)
  deliveries : List (ι × Response Id β)

def view (idOf : ι → Id) (s : State ι Id β) (i : ι) : View ι Id β where
  caller := s.caller i
  entry := s.pending.lookup (idOf i)
  received := s.received.count (idOf i)
  wire := s.wire.filter (·.id = idOf i)
  handlers := s.handlers.filter (·.resp.id = idOf i)
  answers := s.answers.filter (·.id = idOf i)
  deliveries := s.deliveries.filter (·.1 = i)

/-- Where a request and its response are. -/
inductive Stage (i : ι) : View ι Id β → Prop where
  | idle : Stage i ⟨.idle, none, 0, [], [], [], []⟩
  | sending : Stage i ⟨.sending false, some i, 0, [], [], [], []⟩
  /-- With the server. -/
  | received {c : Caller Id β} (hc : c.open = true) : Stage i ⟨c, some i, 1, [], [], [], []⟩
  | answered {c : Caller Id β} {r : Response Id β} (hc : c.open = true) :
      Stage i ⟨c, some i, 0, [r], [], [r], []⟩
  | dispatched {c : Caller Id β} {r : Response Id β} (hc : c.open = true) :
      Stage i ⟨c, some i, 0, [], [⟨r, .ready⟩], [r], []⟩
  /-- The handler waits for the call. -/
  | blocked {c : Caller Id β} {r : Response Id β} (hc : c.open = true) (hw : c ≠ .waiting) :
      Stage i ⟨c, some i, 0, [], [⟨r, .sending i⟩], [r], []⟩
  /-- The call has returned and the handler has yet to pop the entry. -/
  | taken {r : Response Id β} :
      Stage i ⟨.returned r, some i, 0, [], [⟨r, .resumed⟩], [r], [(i, r)]⟩
  | popped {c : Caller Id β} {r : Response Id β} {pc : HandlerPc ι Id}
      (hc : c = .woken r ∨ c = .returned r ∨ c = .raised .timeout)
      (hpc : pc = .notifying ∨ pc = .done) :
      Stage i ⟨c, none, 0, [], [⟨r, pc⟩], [r], [(i, r)]⟩

/-- Every id in the system is that of a call. -/
structure Known (idOf : ι → Id) (s : State ι Id β) : Prop where
  pending : ∀ id ∈ s.pending, ∃ i, idOf i = id
  received : ∀ id ∈ s.received, ∃ i, idOf i = id
  wire : ∀ r ∈ s.wire, ∃ i, idOf i = r.id
  handlers : ∀ r ∈ s.handlers.map Handler.resp, ∃ i, idOf i = r.id
  answers : ∀ r ∈ s.answers, ∃ i, idOf i = r.id

/-- Every call is at a stage. -/
structure Inv (idOf : ι → Id) (s : State ι Id β) : Prop where
  known : Known idOf s
  stage : ∀ i, Stage i (view idOf s i)

/-! ### The tasks of one call among all tasks -/

theorem resps_setHandler (s : State ι Id β) (k : ℕ) (pc : HandlerPc ι Id) :
    (s.setHandler k pc).handlers.map Handler.resp = s.handlers.map Handler.resp :=
  map_modify_of_eq (f := fun h : Handler ι Id β => { h with pc := pc }) (fun _ => rfl) s.handlers k

section Steps

variable {idOf : ι → Id}

theorem Known.handler {s : State ι Id β} (h : Known idOf s) {k : ℕ} {hd : Handler ι Id β}
    (hk : s.handlers[k]? = some hd) : ∃ i, idOf i = hd.resp.id :=
  h.handlers hd.resp (List.mem_map_of_mem (List.mem_of_getElem? hk))

/-- The table is empty if no call has an entry. -/
theorem Known.completed {s : State ι Id β} (h : Known idOf s)
    (hnone : ∀ i, s.pending.lookup (idOf i) = none) : OneShotTable.completed s.pending = true := by
  rw [OneShotTable.completed, List.isEmpty_iff, List.eq_nil_iff_forall_not_mem]
  intro e he
  have hmem : e.1 ∈ s.pending := List.mem_map_of_mem he
  obtain ⟨i, hid⟩ := h.pending e.1 hmem
  exact AList.lookup_eq_none.mp (hid ▸ hnone i) hmem

theorem Known.setCaller {s : State ι Id β} (h : Known idOf s) (i : ι) (c : Caller Id β) :
    Known idOf (s.setCaller i c) :=
  ⟨h.pending, h.received, h.wire, h.handlers, h.answers⟩

theorem Known.setHandler {s : State ι Id β} (h : Known idOf s) (k : ℕ) (pc : HandlerPc ι Id) :
    Known idOf (s.setHandler k pc) :=
  ⟨h.pending, h.received, h.wire, by rw [resps_setHandler]; exact h.handlers, h.answers⟩

theorem Known.closeReceiver {s : State ι Id β} (h : Known idOf s) (i : ι) :
    Known idOf (s.closeReceiver i) := by
  refine ⟨h.pending, h.received, h.wire, fun r hr => ?_, h.answers⟩
  simp only [State.closeReceiver, List.map_map, List.mem_map, Function.comp_apply] at hr
  obtain ⟨hd, hmem, hr⟩ := hr
  refine h.handlers r (List.mem_map.mpr ⟨hd, hmem, ?_⟩)
  split at hr <;> exact hr

theorem Known.deliver {s : State ι Id β} (h : Known idOf s) (i : ι) (r : Response Id β) :
    Known idOf (s.deliver i r) :=
  ⟨h.pending, h.received, h.wire, h.handlers, h.answers⟩

theorem Known.popEntry {s : State ι Id β} (h : Known idOf s) (k : ℕ) (id : Id) :
    Known idOf (s.popEntry k id) := by
  have hpop : Known idOf { s with pending := (OneShotTable.pop s.pending id).1 } := by
    refine ⟨fun id' hid => ?_, h.received, h.wire, h.handlers, h.answers⟩
    simp only [OneShotTable.pop] at hid
    split at hid
    · exact h.pending id' (AList.mem_erase.mp hid).2
    · exact h.pending id' hid
  exact hpop.setHandler k _

theorem Known.sendResponse {s : State ι Id β} (h : Known idOf s) (k : ℕ) (r : Response Id β) :
    Known idOf (sendResponse s k r) := by
  unfold Requests.sendResponse
  split
  · exact h.setHandler k _
  · split
    · exact (((h.deliver _ r).setCaller _ _).popEntry k r.id)
    · exact h.setHandler k _
    · exact h.setHandler k _

theorem Known.receiveResponse {s : State ι Id β} (h : Known idOf s) (i : ι) :
    Known idOf (receiveResponse s i) := by
  unfold Requests.receiveResponse
  split
  · split
    · exact (((h.setHandler _ _).deliver i _).setCaller i _).closeReceiver i
    · exact h
  · exact h.setCaller i _

/-- What each action does, and when. -/
inductive Steps (idOf : ι → Id) (s : State ι Id β) : Action ι Id β → State ι Id β → Prop where
  | reserve {i : ι} (hc : s.caller i = .idle) (hmem : idOf i ∉ s.pending) : Steps idOf s (.reserve i)
      ({ s with pending := s.pending.insert (idOf i) i }.setCaller i (.sending false))
  | reserved {i : ι} {e : TableError Id} (hc : s.caller i = .idle) (hmem : idOf i ∈ s.pending) :
      Steps idOf s (.reserve i) (s.setCaller i (.raised (.table e)))
  | transmit {i : ι} (hc : s.caller i = .sending false) : Steps idOf s (.transmit i)
      ({ s with received := s.received ++ [idOf i] }.setCaller i (.sending true))
  | sent {i : ι} (hc : s.caller i = .sending true) : Steps idOf s (.sent i) (s.setCaller i .sent)
  | receive {i : ι} (hc : s.caller i = .sent) : Steps idOf s (.receive i) (receiveResponse s i)
  | resume {i : ι} {r : Response Id β} (hc : s.caller i = .woken r) : Steps idOf s (.resume i)
      ((s.setCaller i (.returned r)).closeReceiver i)
  | sendFails {i : ι} {out : Bool} (hc : s.caller i = .sending out) : Steps idOf s (.sendFails i)
      (s.setCaller i (.raised .sendFailed))
  | cancel {i : ι} (hc : (s.caller i).open = true ∨ s.caller i = .sending false ∨
      ∃ r, s.caller i = .woken r) : Steps idOf s (.cancel i) (s.setCaller i (.raised .timeout))
  | answer {id : Id} {body : β} (hm : id ∈ s.received) : Steps idOf s (.answer id body) { s with
      received := s.received.erase id
      wire := s.wire ++ [⟨id, body⟩]
      answers := s.answers ++ [⟨id, body⟩] }
  | dispatch {r : Response Id β} {rest : List (Response Id β)} (hw : s.wire = r :: rest) :
      Steps idOf s .dispatch { s with wire := rest, handlers := s.handlers ++ [⟨r, .ready⟩] }
  | handle {k : ℕ} {r : Response Id β} (hk : s.handlers[k]? = some ⟨r, .ready⟩) :
      Steps idOf s (.handle k) (sendResponse s k r)
  | pop {k : ℕ} {r : Response Id β} (hk : s.handlers[k]? = some ⟨r, .resumed⟩) :
      Steps idOf s (.pop k) (s.popEntry k r.id)
  | notify {k : ℕ} {r : Response Id β} (hk : s.handlers[k]? = some ⟨r, .notifying⟩) :
      Steps idOf s (.notify k) (s.setHandler k .done)
  | leave (hs : s.session = .active) : Steps idOf s .leave
      { s with session := if OneShotTable.completed s.pending then .closing else .draining }
  | wake (hs : s.session = .draining) (hp : OneShotTable.completed s.pending = true) :
      Steps idOf s .wake { s with session := .closing }
  | waitTimeout (hs : s.session = .draining) : Steps idOf s .waitTimeout { s with session := .raised }

theorem step_cases {s t : State ι Id β} {a : Action ι Id β} (h : step idOf s a = some t) :
    Steps idOf s a t := by
  cases a with
  | reserve i =>
    simp only [step, OneShotTable.reserve] at h
    split at h
    · rename_i hc
      split_ifs at h with hmem
      · cases h
        exact .reserved hc hmem
      · cases h
        exact .reserve hc hmem
    · cases h
  | transmit i =>
    simp only [step] at h
    split at h
    · rename_i hc
      cases h
      exact .transmit hc
    · cases h
  | sent i =>
    simp only [step] at h
    split at h
    · rename_i hc
      cases h
      exact .sent hc
    · cases h
  | receive i =>
    simp only [step] at h
    split at h
    · rename_i hc
      cases h
      exact .receive hc
    · cases h
  | resume i =>
    simp only [step] at h
    split at h
    · rename_i hc
      cases h
      exact .resume hc
    · cases h
  | sendFails i =>
    simp only [step] at h
    split at h
    · rename_i hc
      cases h
      exact .sendFails hc
    · cases h
  | cancel i =>
    simp only [step] at h
    split at h
    · rename_i out hc
      cases h
      cases out with
      | false => exact .cancel (Or.inr (Or.inl hc))
      | true => exact .cancel (Or.inl (hc ▸ rfl))
    · rename_i hc
      cases h
      exact .cancel (Or.inl (hc ▸ rfl))
    · rename_i hc
      cases h
      exact .cancel (Or.inl (hc ▸ rfl))
    · rename_i r hc
      cases h
      exact .cancel (Or.inr (Or.inr ⟨r, hc⟩))
    · cases h
  | answer id body =>
    simp only [step] at h
    split_ifs at h with hm
    cases h
    exact .answer hm
  | dispatch =>
    simp only [step] at h
    split at h
    · cases h
    · rename_i hw
      cases h
      exact .dispatch hw
  | handle k =>
    simp only [step] at h
    split at h
    · rename_i hk
      cases h
      exact .handle hk
    · cases h
  | pop k =>
    simp only [step] at h
    split at h
    · rename_i hk
      cases h
      exact .pop hk
    · cases h
  | notify k =>
    simp only [step] at h
    split at h
    · rename_i hk
      cases h
      exact .notify hk
    · cases h
  | leave =>
    simp only [step] at h
    by_cases hs : s.session = .active
    · rw [if_pos hs] at h
      cases h
      exact .leave hs
    · rw [if_neg hs] at h
      cases h
  | wake =>
    simp only [step] at h
    split_ifs at h with hs
    cases h
    exact .wake hs.1 hs.2
  | waitTimeout =>
    simp only [step] at h
    split_ifs at h with hs
    cases h
    exact .waitTimeout hs

/-- A step brings in no id but that of its call. -/
theorem known_step {s t : State ι Id β} {a : Action ι Id β} (h : Known idOf s)
    (hstep : step idOf s a = some t) : Known idOf t := by
  cases step_cases hstep with
  | @reserve i _ _ =>
    refine ⟨fun id hid => ?_, h.received, h.wire, h.handlers, h.answers⟩
    rcases (AList.mem_insert _).mp hid with rfl | hid
    · exact ⟨i, rfl⟩
    · exact h.pending id hid
  | @transmit i _ =>
    refine ⟨h.pending, fun id hid => ?_, h.wire, h.handlers, h.answers⟩
    rcases List.mem_append.mp hid with hid | hid
    · exact h.received id hid
    · exact ⟨i, (List.mem_singleton.mp hid).symm⟩
  | reserved | sent | sendFails | cancel => exact h.setCaller _ _
  | receive => exact h.receiveResponse _
  | resume => exact (h.setCaller _ _).closeReceiver _
  | answer hm =>
    have hid := h.received _ hm
    refine ⟨h.pending, fun id' hid' => h.received id' (List.mem_of_mem_erase hid'), ?_, h.handlers, ?_⟩
    · simpa [or_imp, forall_and] using ⟨h.wire, hid⟩
    · simpa [or_imp, forall_and] using ⟨h.answers, hid⟩
  | @dispatch r rest hw =>
    have hr := h.wire r (hw ▸ List.mem_cons_self)
    refine ⟨h.pending, h.received, fun r' hr' => h.wire r' (hw ▸ List.mem_cons_of_mem _ hr'), ?_,
      h.answers⟩
    intro r' hr'
    rw [List.map_append, List.mem_append] at hr'
    rcases hr' with hr' | hr'
    · exact h.handlers r' hr'
    · rw [List.mem_singleton.mp hr']
      exact hr
  | handle => exact h.sendResponse _ _
  | pop => exact h.popEntry _ _
  | notify => exact h.setHandler _ _
  | leave | wake | waitTimeout => exact ⟨h.pending, h.received, h.wire, h.handlers, h.answers⟩

/-! ### The views after an operation -/

theorem view_eq {s : State ι Id β} {i : ι} {c : Caller Id β} {e : Option ι} {n : ℕ}
    {w as : List (Response Id β)} {hs : List (Handler ι Id β)} {ds : List (ι × Response Id β)} :
    view idOf s i = ⟨c, e, n, w, hs, as, ds⟩ ↔ s.caller i = c ∧ s.pending.lookup (idOf i) = e ∧
      s.received.count (idOf i) = n ∧ s.wire.filter (·.id = idOf i) = w ∧
      s.handlers.filter (·.resp.id = idOf i) = hs ∧ s.answers.filter (·.id = idOf i) = as ∧
      s.deliveries.filter (·.1 = i) = ds := by
  rw [view, View.mk.injEq]

theorem view_setCaller_self (s : State ι Id β) (i : ι) (c : Caller Id β) :
    view idOf (s.setCaller i c) i = { view idOf s i with caller := c } := by
  simp [view, State.setCaller]

theorem view_setCaller_ne (s : State ι Id β) {i j : ι} (c : Caller Id β) (h : j ≠ i) :
    view idOf (s.setCaller i c) j = view idOf s j := by
  simp [view, State.setCaller, h]

theorem view_deliver_self (s : State ι Id β) (i : ι) (r : Response Id β) :
    view idOf (s.deliver i r) i =
      { view idOf s i with deliveries := (view idOf s i).deliveries ++ [(i, r)] } := by
  simp [view, State.deliver]

theorem view_deliver_ne (s : State ι Id β) {i j : ι} (r : Response Id β) (h : j ≠ i) :
    view idOf (s.deliver i r) j = view idOf s j := by
  simp [view, State.deliver, h.symm]

theorem view_setHandler_self {s : State ι Id β} {i : ι} {k : ℕ} {hd hd' : Handler ι Id β}
    (pc : HandlerPc ι Id) (hk : s.handlers[k]? = some hd) (hid : idOf i = hd.resp.id)
    (hv : (view idOf s i).handlers = [hd']) :
    hd' = hd ∧ view idOf (s.setHandler k pc) i =
      { view idOf s i with handlers := [⟨hd.resp, pc⟩] } := by
  obtain ⟨heq, hf⟩ := filter_modify_of_pos (p := fun h : Handler ι Id β => decide (h.resp.id = idOf i))
    (f := fun h => { h with pc := pc }) hk (by simp [hid]) (by simp [hid]) hv
  exact ⟨heq, by rw [view, State.setHandler, hf]; rfl⟩

theorem view_setHandler_ne {s : State ι Id β} {j : ι} {k : ℕ} {hd : Handler ι Id β}
    (pc : HandlerPc ι Id) (hk : s.handlers[k]? = some hd) (hid : idOf j ≠ hd.resp.id) :
    view idOf (s.setHandler k pc) j = view idOf s j := by
  have hf := filter_modify_of_neg (p := fun h : Handler ι Id β => decide (h.resp.id = idOf j))
    (f := fun h => { h with pc := pc }) hk (by simp [Ne.symm hid]) (by simp [Ne.symm hid])
  rw [view, State.setHandler, hf]
  rfl

/-- The entry is there: it goes, and the handler is through. -/
theorem view_popEntry_self {s : State ι Id β} {i : ι} {k : ℕ} {hd hd' : Handler ι Id β} {j : ι}
    (hk : s.handlers[k]? = some hd) (hid : idOf i = hd.resp.id)
    (hv : (view idOf s i).handlers = [hd']) (he : (view idOf s i).entry = some j) :
    ∃ pc, (pc = .notifying ∨ pc = .done) ∧ view idOf (s.popEntry k hd.resp.id) i =
      { view idOf s i with entry := none, handlers := [⟨hd.resp, pc⟩] } := by
  have hmem : hd.resp.id ∈ s.pending := by
    have he' : s.pending.lookup (idOf i) = some j := he
    rw [← hid, ← AList.lookup_isSome, he']
    rfl
  have hpop : OneShotTable.pop s.pending hd.resp.id = (s.pending.erase hd.resp.id,
      if OneShotTable.completed (s.pending.erase hd.resp.id) then .notifying else .done) :=
    if_pos hmem
  have herase : (s.pending.erase hd.resp.id).lookup (idOf i) = none := by
    rw [hid, AList.lookup_erase]
  refine ⟨(OneShotTable.pop s.pending hd.resp.id).2, ?_, ?_⟩
  · rw [hpop]
    simp only
    split <;> simp
  · have hset := (view_setHandler_self
      (s := { s with pending := (OneShotTable.pop s.pending hd.resp.id).1 })
      (OneShotTable.pop s.pending hd.resp.id).2 hk hid hv).2
    rw [State.popEntry, hset, hpop]
    simp only [view, herase]

theorem view_popEntry_ne {s : State ι Id β} {j : ι} {k : ℕ} {hd : Handler ι Id β}
    (hk : s.handlers[k]? = some hd) (hid : idOf j ≠ hd.resp.id) :
    view idOf (s.popEntry k hd.resp.id) j = view idOf s j := by
  have hset := view_setHandler_ne (j := j)
    (s := { s with pending := (OneShotTable.pop s.pending hd.resp.id).1 })
    (OneShotTable.pop s.pending hd.resp.id).2 hk hid
  have hlookup : (OneShotTable.pop s.pending hd.resp.id).1.lookup (idOf j) =
      s.pending.lookup (idOf j) := by
    rw [OneShotTable.pop]
    split
    · exact AList.lookup_erase_ne hid
    · rfl
  rw [State.popEntry, hset]
  simp only [view, hlookup]

/-- Nobody waits to send to the call: closing its receiver is felt by nobody. -/
theorem closeReceiver_eq {s : State ι Id β} {i : ι} (h : ∀ hd ∈ s.handlers, hd.pc ≠ .sending i) :
    s.closeReceiver i = s := by
  have hmap : s.handlers.map (fun h =>
      if h.pc = .sending i then { h with pc := .raised .brokenResource } else h) = s.handlers := by
    refine List.map_congr_left (fun hd hmem => ?_) |>.trans (List.map_id _)
    rw [if_neg (h hd hmem), id]
  rw [State.closeReceiver, hmap]

/-! ### Where a request is -/

section Stages

variable {i : ι} {v : View ι Id β}

theorem Stage.of_idle (h : Stage i v) (hc : v.caller = .idle) :
    v = ⟨.idle, none, 0, [], [], [], []⟩ := by
  cases h <;> simp_all [Caller.open]

theorem Stage.of_sending (h : Stage i v) (hc : v.caller = .sending false) :
    v = ⟨.sending false, some i, 0, [], [], [], []⟩ := by
  cases h <;> simp_all [Caller.open]

/-- A call that is under way may go on to another suspension point, and to wait
if no handler waits for it. -/
theorem Stage.reopen (h : Stage i v) (ho : v.caller.open = true) {c : Caller Id β}
    (hc : c.open = true) (hw : c = .waiting → ∀ hd ∈ v.handlers, hd.pc ≠ .sending i) :
    Stage i { v with caller := c } := by
  cases h with
  | idle | sending | taken => cases ho
  | received _ => exact .received hc
  | answered _ => exact .answered hc
  | dispatched _ => exact .dispatched hc
  | blocked _ _ => exact .blocked hc fun h => hw h _ List.mem_cons_self rfl
  | popped hc' _ => rcases hc' with rfl | rfl | rfl <;> cases ho

/-- A call that has been woken goes on, or is cancelled: its entry is gone. -/
theorem Stage.of_woken (h : Stage i v) {r : Response Id β} (hw : v.caller = .woken r)
    {c : Caller Id β} (hc : c = .returned r ∨ c = .raised .timeout) :
    Stage i { v with caller := c } := by
  cases h with
  | idle | sending | taken => cases hw
  | received ho | answered ho | dispatched ho | blocked ho _ =>
    simp only at hw
    subst hw
    cases ho
  | @popped _ r' _ hc' hpc =>
    rcases hc' with rfl | rfl | rfl <;> cases hw
    exact .popped (Or.inr hc) hpc

theorem Stage.of_received (h : Stage i v) (hn : v.received ≠ 0) :
    v.caller.open = true ∧ v = ⟨v.caller, some i, 1, [], [], [], []⟩ := by
  cases h with
  | received hc => exact ⟨hc, rfl⟩
  | _ => exact absurd rfl hn

theorem Stage.of_wire (h : Stage i v) {r : Response Id β} (hr : r ∈ v.wire) :
    v.caller.open = true ∧ v = ⟨v.caller, some i, 0, [r], [], [r], []⟩ := by
  cases h with
  | answered hc =>
    rw [List.mem_singleton.mp hr]
    exact ⟨hc, rfl⟩
  | _ => cases hr

theorem Stage.of_ready (h : Stage i v) {r : Response Id β} (hr : ⟨r, .ready⟩ ∈ v.handlers) :
    v.caller.open = true ∧ v = ⟨v.caller, some i, 0, [], [⟨r, .ready⟩], [r], []⟩ := by
  cases h with
  | dispatched hc =>
    cases List.mem_singleton.mp hr
    exact ⟨hc, rfl⟩
  | blocked | taken => cases List.mem_singleton.mp hr
  | popped _ hpc =>
    cases List.mem_singleton.mp hr
    rcases hpc with hpc | hpc <;> cases hpc
  | _ => cases hr

theorem Stage.of_blocked (h : Stage i v) {hd : Handler ι Id β} {j : ι} (hm : hd ∈ v.handlers)
    (hs : hd.pc = .sending j) : j = i ∧ v.caller.open = true ∧ v.caller ≠ .waiting ∧
      v = ⟨v.caller, some i, 0, [], [hd], [hd.resp], []⟩ := by
  cases h with
  | blocked hc hw =>
    obtain rfl := List.mem_singleton.mp hm
    cases hs
    exact ⟨rfl, hc, hw, rfl⟩
  | dispatched | taken =>
    obtain rfl := List.mem_singleton.mp hm
    cases hs
  | popped _ hpc =>
    obtain rfl := List.mem_singleton.mp hm
    rcases hpc with rfl | rfl <;> cases hs
  | _ => cases hm

theorem Stage.of_resumed (h : Stage i v) {r : Response Id β} (hr : ⟨r, .resumed⟩ ∈ v.handlers) :
    v = ⟨.returned r, some i, 0, [], [⟨r, .resumed⟩], [r], [(i, r)]⟩ := by
  cases h with
  | taken =>
    cases List.mem_singleton.mp hr
    rfl
  | dispatched | blocked => cases List.mem_singleton.mp hr
  | popped _ hpc =>
    cases List.mem_singleton.mp hr
    rcases hpc with hpc | hpc <;> cases hpc
  | _ => cases hr

theorem Stage.of_notifying (h : Stage i v) {r : Response Id β}
    (hr : ⟨r, .notifying⟩ ∈ v.handlers) : Stage i { v with handlers := [⟨r, .done⟩] } := by
  cases h with
  | popped hc _ =>
    cases List.mem_singleton.mp hr
    exact .popped hc (Or.inr rfl)
  | dispatched | blocked | taken => cases List.mem_singleton.mp hr
  | _ => cases hr

/-- No handler fails. -/
theorem Stage.not_raised (h : Stage i v) {hd : Handler ι Id β} (hm : hd ∈ v.handlers)
    (e : TableError Id) : hd.pc ≠ .raised e := by
  cases h with
  | dispatched | blocked | taken =>
    rw [List.mem_singleton.mp hm]
    nofun
  | popped _ hpc =>
    rw [List.mem_singleton.mp hm]
    rcases hpc with rfl | rfl <;> nofun
  | _ => cases hm

end Stages

/-! ### One step -/

/-- No send fails, and no timeout strikes a call that has not got its response. -/
def Uncut (s : State ι Id β) : Action ι Id β → Prop
  | .sendFails _ => False
  | .cancel i => ∃ r, s.caller i = .woken r
  | _ => True

theorem Inv.update {s t : State ι Id β} (h : Inv idOf s) (hk : Known idOf t) (i : ι)
    (hne : ∀ j, j ≠ i → view idOf t j = view idOf s j) (hi : Stage i (view idOf t i)) :
    Inv idOf t := by
  refine ⟨hk, fun j => ?_⟩
  by_cases hj : j = i
  · exact hj ▸ hi
  · rw [hne j hj]
    exact h.stage j

/-- Every handler is that of a call. -/
theorem Inv.handler {s : State ι Id β} (h : Inv idOf s) {k : ℕ} {hd : Handler ι Id β}
    (hk : s.handlers[k]? = some hd) : ∃ i, idOf i = hd.resp.id ∧ hd ∈ (view idOf s i).handlers := by
  obtain ⟨i, hi⟩ := h.known.handler hk
  exact ⟨i, hi, List.mem_filter.mpr ⟨List.mem_of_getElem? hk, by simp [hi]⟩⟩

/-- A handler waits for the call of its own id, which does not wait. -/
theorem Inv.blocked {s : State ι Id β} (h : Inv idOf s) {hd : Handler ι Id β} {i : ι}
    (hm : hd ∈ s.handlers) (hs : hd.pc = .sending i) : idOf i = hd.resp.id ∧
      (s.caller i).open = true ∧ s.caller i ≠ .waiting ∧
      view idOf s i = ⟨s.caller i, some i, 0, [], [hd], [hd.resp], []⟩ := by
  obtain ⟨k, hk⟩ := List.getElem?_of_mem hm
  obtain ⟨j, hj, hmem⟩ := h.handler hk
  obtain ⟨rfl, hc, hw, hv⟩ := (h.stage j).of_blocked hmem hs
  exact ⟨hj, hc, hw, hv⟩

theorem Inv.closeReceiver {s : State ι Id β} (h : Inv idOf s) {i : ι}
    (hc : (s.caller i).open = false) : s.closeReceiver i = s := by
  refine closeReceiver_eq fun hd hm hs => ?_
  have hwaiting := (h.blocked hm hs).2.1
  rw [hc] at hwaiting
  cases hwaiting

theorem inv_init : Inv idOf (State.init : State ι Id β) := by
  refine ⟨⟨fun id h => absurd h (AList.notMem_empty id), ?_, ?_, ?_, ?_⟩, fun i => .idle⟩
  all_goals simp [State.init]

theorem inv_reserve {s : State ι Id β} (hinj : Function.Injective idOf) (h : Inv idOf s) {i : ι}
    (hc : s.caller i = .idle) (hk : Known idOf
      ({ s with pending := s.pending.insert (idOf i) i }.setCaller i (.sending false))) :
    Inv idOf ({ s with pending := s.pending.insert (idOf i) i }.setCaller i (.sending false)) := by
  have hv := (h.stage i).of_idle hc
  refine h.update hk i (fun j hj => ?_) ?_
  · rw [view_setCaller_ne _ _ hj]
    simp only [view, AList.lookup_insert_ne (hinj.ne hj)]
  · rw [view_setCaller_self]
    rw [view_eq] at hv
    obtain ⟨-, -, h3, h4, h5, h6, h7⟩ := hv
    simp only [view, AList.lookup_insert, h3, h4, h5, h6, h7]
    exact .sending

theorem inv_transmit {s : State ι Id β} (hinj : Function.Injective idOf) (h : Inv idOf s) {i : ι}
    (hc : s.caller i = .sending false) (hk : Known idOf
      ({ s with received := s.received ++ [idOf i] }.setCaller i (.sending true))) :
    Inv idOf ({ s with received := s.received ++ [idOf i] }.setCaller i (.sending true)) := by
  have hv := (h.stage i).of_sending hc
  refine h.update hk i (fun j hj => ?_) ?_
  · rw [view_setCaller_ne _ _ hj]
    have hne : idOf i ≠ idOf j := hinj.ne hj.symm
    simp [view, List.count_append, hne]
  · rw [view_setCaller_self]
    rw [view_eq] at hv
    obtain ⟨-, h2, h3, h4, h5, h6, h7⟩ := hv
    simp only [view, List.count_append, List.count_singleton_self, h2, h3, h4, h5, h6, h7]
    exact .received rfl

/-- A call goes from one suspension point to another. -/
theorem inv_setCaller {s : State ι Id β} (h : Inv idOf s) {i : ι} {c : Caller Id β}
    (hi : Stage i { view idOf s i with caller := c }) : Inv idOf (s.setCaller i c) := by
  refine h.update (h.known.setCaller i c) i (fun j hj => view_setCaller_ne s c hj) ?_
  rw [view_setCaller_self]
  exact hi

/-- A handler goes from one suspension point to another. -/
theorem inv_setHandler {s : State ι Id β} (hinj : Function.Injective idOf) (h : Inv idOf s) {i : ι}
    {k : ℕ} {hd hd' : Handler ι Id β} (hk : s.handlers[k]? = some hd) (hid : idOf i = hd.resp.id)
    (hv : (view idOf s i).handlers = [hd']) {pc : HandlerPc ι Id}
    (hi : Stage i { view idOf s i with handlers := [⟨hd.resp, pc⟩] }) :
    Inv idOf (s.setHandler k pc) := by
  refine h.update (h.known.setHandler k pc) i (fun j hj => ?_) ?_
  · exact view_setHandler_ne pc hk (hid ▸ hinj.ne hj)
  · rw [(view_setHandler_self pc hk hid hv).2]
    exact hi

theorem inv_receive {s : State ι Id β} (hinj : Function.Injective idOf) (h : Inv idOf s) {i : ι}
    (hc : s.caller i = .sent) : Inv idOf (receiveResponse s i) := by
  have hknown := h.known.receiveResponse i
  unfold receiveResponse at hknown ⊢
  rcases hfind : s.handlers.findIdx? (fun h => h.pc = .sending i) with _ | k
  · have hno := List.findIdx?_eq_none_iff.mp hfind
    simp only [hfind] at hknown ⊢
    refine inv_setCaller h ((h.stage i).reopen ?_ rfl fun _ hd hm => ?_)
    · show (s.caller i).open = true
      rw [hc]
      rfl
    · simpa using hno hd (List.mem_filter.mp hm).1
  · simp only [hfind] at hknown ⊢
    obtain ⟨hlt, hpc, -⟩ := List.findIdx?_eq_some_iff_getElem.mp hfind
    have hk : s.handlers[k]? = some s.handlers[k] := List.getElem?_eq_getElem hlt
    have hpc' : s.handlers[k].pc = .sending i := by simpa using hpc
    obtain ⟨hid, -, -, hv⟩ := h.blocked (List.mem_of_getElem? hk) hpc'
    simp only [hk] at hknown ⊢
    -- the response passes over, and its handler goes on
    have hset := view_setHandler_self .resumed hk hid (congrArg View.handlers hv)
    have hview : view idOf (((s.setHandler k .resumed).deliver i s.handlers[k].resp).setCaller i
        (.returned s.handlers[k].resp)) i = ⟨.returned s.handlers[k].resp, some i, 0, [],
          [⟨s.handlers[k].resp, .resumed⟩], [s.handlers[k].resp], [(i, s.handlers[k].resp)]⟩ := by
      rw [view_setCaller_self, view_deliver_self, hset.2, hv]
      rfl
    have hinv : Inv idOf (((s.setHandler k .resumed).deliver i s.handlers[k].resp).setCaller i
        (.returned s.handlers[k].resp)) := by
      refine h.update (((h.known.setHandler k _).deliver i _).setCaller i _) i (fun j hj => ?_) ?_
      · rw [view_setCaller_ne _ _ hj, view_deliver_ne _ _ hj,
          view_setHandler_ne _ hk (hid ▸ hinj.ne hj)]
      · rw [hview]
        exact .taken
    rw [hinv.closeReceiver (by simp [State.setCaller, Caller.open])]
    exact hinv

theorem inv_send {s : State ι Id β} (hinj : Function.Injective idOf) (h : Inv idOf s) {k : ℕ}
    {r : Response Id β} (hk : s.handlers[k]? = some ⟨r, .ready⟩) : Inv idOf (sendResponse s k r) := by
  obtain ⟨i, hid, hm⟩ := h.handler hk
  obtain ⟨hopen, hv⟩ := (h.stage i).of_ready hm
  have hcaller : (view idOf s i).caller = s.caller i := rfl
  rw [hcaller] at hopen hv
  have hlookup : s.pending.lookup r.id = some i := by
    rw [← hid]
    exact congrArg View.entry hv
  have hhandlers : (view idOf s i).handlers = [⟨r, .ready⟩] := congrArg View.handlers hv
  have hblock : s.caller i ≠ .waiting → Inv idOf (s.setHandler k (.sending i)) := fun hw => by
    refine inv_setHandler hinj h hk hid hhandlers ?_
    rw [hv]
    exact .blocked hopen hw
  unfold sendResponse
  rw [hlookup]
  simp only
  split
  · -- the call waits: it gets the response and the entry is popped at once
    have hview : view idOf ((s.deliver i r).setCaller i (.woken r)) i =
        ⟨.woken r, some i, 0, [], [⟨r, .ready⟩], [r], [(i, r)]⟩ := by
      rw [view_setCaller_self, view_deliver_self, hv]
      rfl
    obtain ⟨pc, hpc, hpop⟩ := view_popEntry_self
      (s := (s.deliver i r).setCaller i (.woken r)) hk hid
      (congrArg View.handlers hview) (congrArg View.entry hview)
    refine h.update (((h.known.deliver i r).setCaller i _).popEntry k _) i (fun j hj => ?_) ?_
    · rw [view_popEntry_ne (s := (s.deliver i r).setCaller i (.woken r)) hk (hid ▸ hinj.ne hj),
        view_setCaller_ne _ _ hj, view_deliver_ne _ _ hj]
    · rw [hpop, hview]
      exact .popped (Or.inl rfl) hpc
  · rename_i r' hr'
    rw [hr'] at hopen
    cases hopen
  · rename_i hw _
    exact hblock hw

theorem inv_pop {s : State ι Id β} (hinj : Function.Injective idOf) (h : Inv idOf s) {k : ℕ}
    {r : Response Id β} (hk : s.handlers[k]? = some ⟨r, .resumed⟩) : Inv idOf (s.popEntry k r.id) := by
  obtain ⟨i, hid, hm⟩ := h.handler hk
  have hv := (h.stage i).of_resumed hm
  obtain ⟨pc, hpc, hpop⟩ := view_popEntry_self hk hid (congrArg View.handlers hv)
    (congrArg View.entry hv)
  refine h.update (h.known.popEntry k _) i (fun j hj => ?_) ?_
  · exact view_popEntry_ne hk (hid ▸ hinj.ne hj)
  · rw [hpop, hv]
    exact .popped (Or.inr (Or.inl rfl)) hpc

theorem inv_answer {s : State ι Id β} (hinj : Function.Injective idOf) (h : Inv idOf s) {i : ι}
    {body : β} (hm : idOf i ∈ s.received) (hk : Known idOf { s with
      received := s.received.erase (idOf i)
      wire := s.wire ++ [⟨idOf i, body⟩]
      answers := s.answers ++ [⟨idOf i, body⟩] }) :
    Inv idOf { s with
      received := s.received.erase (idOf i)
      wire := s.wire ++ [⟨idOf i, body⟩]
      answers := s.answers ++ [⟨idOf i, body⟩] } := by
  obtain ⟨hopen, hv⟩ := (h.stage i).of_received (Nat.ne_of_gt (List.count_pos_iff.mpr hm))
  refine h.update hk i (fun j hj => ?_) ?_
  · have hne : idOf i ≠ idOf j := hinj.ne hj.symm
    simp [view, hne, List.count_erase_of_ne hne.symm]
  · obtain ⟨-, h2, h3, h4, h5, h6, h7⟩ := view_eq.mp hv
    simp only [view, List.count_erase_self, List.filter_append, h2, h3, h4, h5, h6, h7]
    have hstage : Stage i ⟨s.caller i, some i, 0, [⟨idOf i, body⟩], [], [⟨idOf i, body⟩], []⟩ :=
      .answered hopen
    simpa using hstage

theorem inv_dispatch {s : State ι Id β} (hinj : Function.Injective idOf) (h : Inv idOf s)
    {r : Response Id β} {rest : List (Response Id β)} (hw : s.wire = r :: rest) (hk : Known idOf
      { s with wire := rest, handlers := s.handlers ++ [⟨r, .ready⟩] }) :
    Inv idOf { s with wire := rest, handlers := s.handlers ++ [⟨r, .ready⟩] } := by
  obtain ⟨i, hid⟩ := h.known.wire r (hw ▸ List.mem_cons_self)
  have hm : r ∈ (view idOf s i).wire :=
    List.mem_filter.mpr ⟨hw ▸ List.mem_cons_self, by simp [hid]⟩
  obtain ⟨hopen, hv⟩ := (h.stage i).of_wire hm
  refine h.update hk i (fun j hj => ?_) ?_
  · have hne : r.id ≠ idOf j := hid ▸ hinj.ne hj.symm
    simp [view, hw, hne]
  · obtain ⟨-, h2, h3, h4, h5, h6, h7⟩ := view_eq.mp hv
    rw [hw, List.filter_cons, if_pos (by simp [hid])] at h4
    have hrest : rest.filter (·.id = idOf i) = [] := (List.cons.inj h4).2
    have hstage : Stage i ⟨s.caller i, some i, 0, [], [⟨r, .ready⟩], [r], []⟩ := .dispatched hopen
    simp only [view, List.filter_append, h2, h3, hrest, h5, h6, h7]
    simpa [hid] using hstage

/-- **Every step keeps every call at a stage**, unless it cuts a call off. -/
theorem inv_step {s t : State ι Id β} {a : Action ι Id β} (hinj : Function.Injective idOf)
    (h : Inv idOf s) (hu : Uncut s a) (hstep : step idOf s a = some t) : Inv idOf t := by
  have hknown := known_step h.known hstep
  cases step_cases hstep with
  | reserve hc _ => exact inv_reserve hinj h hc hknown
  | reserved hc hmem =>
    have hnone := congrArg View.entry ((h.stage _).of_idle hc)
    exact absurd hmem (AList.lookup_eq_none.mp hnone)
  | transmit hc => exact inv_transmit hinj h hc hknown
  | @sent i hc =>
    refine inv_setCaller h ((h.stage i).reopen ?_ rfl nofun)
    show (s.caller i).open = true
    rw [hc]
    rfl
  | receive hc => exact inv_receive hinj h hc
  | resume hc =>
    have hinv := inv_setCaller h ((h.stage _).of_woken hc (Or.inl rfl))
    rw [hinv.closeReceiver (by simp [State.setCaller, Caller.open])]
    exact hinv
  | sendFails => exact hu.elim
  | cancel =>
    obtain ⟨r, hc⟩ := hu
    exact inv_setCaller h ((h.stage _).of_woken hc (Or.inr rfl))
  | answer hm =>
    obtain ⟨i, rfl⟩ := h.known.received _ hm
    exact inv_answer hinj h hm hknown
  | dispatch hw => exact inv_dispatch hinj h hw hknown
  | handle hk => exact inv_send hinj h hk
  | pop hk => exact inv_pop hinj h hk
  | notify hk =>
    obtain ⟨i, hid, hm⟩ := h.handler hk
    have hstage := (h.stage i).of_notifying hm
    obtain ⟨hd, hhd⟩ : ∃ hd, (view idOf s i).handlers = [hd] := by
      have hst := h.stage i
      generalize view idOf s i = v at hst hm
      cases hst <;> first | exact ⟨_, rfl⟩ | cases hm
    exact inv_setHandler hinj h hk hid hhd hstage
  | leave | wake | waitTimeout => exact ⟨hknown, h.stage⟩

/-! ### Runs without timeouts and failing sends -/

/-- The action is no failing send and no timeout of a call. -/
def Action.orderly : Action ι Id β → Bool
  | .sendFails _ | .cancel _ => false
  | _ => true

/-- The action is one that a task of the client takes by itself. -/
def Action.internal : Action ι Id β → Bool
  | .transmit _ | .sent _ | .receive _ | .resume _ | .dispatch | .handle _ | .pop _ | .notify _ => true
  | _ => false

/-- The handler has run to its end. -/
def HandlerPc.finished : HandlerPc ι Id → Bool
  | .done | .raised _ => true
  | _ => false

theorem uncut_of_orderly {a : Action ι Id β} (h : a.orderly = true) (s : State ι Id β) :
    Uncut s a := by
  cases a with
  | sendFails | cancel => cases h
  | _ => trivial

theorem caller_setCaller {s : State ι Id β} {i j : ι} {c d : Caller Id β}
    (h : (s.setCaller i c).caller j = d) : d = c ∨ s.caller j = d := by
  by_cases hj : j = i
  · subst hj
    simp only [State.setCaller, Function.update_self] at h
    exact Or.inl h.symm
  · simp only [State.setCaller, Function.update_of_ne hj] at h
    exact Or.inr h

theorem caller_sendResponse {s : State ι Id β} {k : ℕ} {r : Response Id β} {j : ι} {d : Caller Id β}
    (h : (sendResponse s k r).caller j = d) : (∃ r, d = .woken r) ∨ s.caller j = d := by
  unfold sendResponse at h
  split at h
  · exact Or.inr h
  · split at h
    · rcases caller_setCaller h with h | h
      · exact Or.inl ⟨r, h⟩
      · exact Or.inr h
    · exact Or.inr h
    · exact Or.inr h

theorem caller_receiveResponse {s : State ι Id β} {i j : ι} {d : Caller Id β}
    (h : (receiveResponse s i).caller j = d) :
    (d = .waiting ∨ ∃ r, d = .returned r) ∨ s.caller j = d := by
  unfold receiveResponse at h
  split at h
  · split at h
    · rcases caller_setCaller h with h | h
      · exact Or.inl (Or.inr ⟨_, h⟩)
      · exact Or.inr h
    · exact Or.inr h
  · rcases caller_setCaller h with h | h
    · exact Or.inl (Or.inl h)
    · exact Or.inr h

/-- No call times out in an orderly step. -/
theorem timeout_step {s t : State ι Id β} {a : Action ι Id β} (ha : a.orderly = true)
    (hstep : step idOf s a = some t) {j : ι} (hj : t.caller j = .raised .timeout) :
    s.caller j = .raised .timeout := by
  cases step_cases hstep with
  | sendFails | cancel => cases ha
  | reserve | reserved | transmit | sent | resume =>
    rcases caller_setCaller hj with h | h
    · cases h
    · exact h
  | receive =>
    rcases caller_receiveResponse hj with h | h
    · rcases h with h | ⟨r, h⟩ <;> cases h
    · exact h
  | handle =>
    rcases caller_sendResponse hj with ⟨r, h⟩ | h
    · cases h
    · exact h
  | pop | notify | dispatch | answer | leave | wake | waitTimeout => exact hj

/-- What an orderly run keeps. -/
structure OrderlyInv (idOf : ι → Id) (s : State ι Id β) : Prop extends Inv idOf s where
  noTimeout : ∀ i, s.caller i ≠ .raised .timeout

theorem orderly_run {as : List (Action ι Id β)} {s : State ι Id β}
    (hinj : Function.Injective idOf) (ha : ∀ a ∈ as, a.orderly = true)
    (hrun : Run.exec (step idOf) State.init as = some s) : OrderlyInv idOf s := by
  refine Run.exec_inv_along (fun s a t hs ho hstep => ?_) as ⟨inv_init, nofun⟩
    (Run.along_of_forall as _ ha) hrun
  exact ⟨inv_step hinj hs.toInv (uncut_of_orderly ho s) hstep,
    fun i hi => hs.noTimeout i (timeout_step ho hstep hi)⟩

/-! ### Correlation -/

/-- An answer in the view of a call is the only one, and goes to this call or
has not been delivered. -/
theorem Stage.of_answer {i : ι} {v : View ι Id β} (h : Stage i v) {r : Response Id β}
    (hr : r ∈ v.answers) : v.deliveries = [] ∨ v.deliveries = [(i, r)] := by
  cases h with
  | idle | sending | received => cases hr
  | answered | dispatched | blocked => exact Or.inl rfl
  | taken | popped =>
    rw [List.mem_singleton.mp hr]
    exact Or.inr rfl

theorem Stage.of_delivery {i : ι} {v : View ι Id β} (h : Stage i v) {p : ι × Response Id β}
    (hp : p ∈ v.deliveries) : p.2 ∈ v.answers := by
  cases h with
  | taken | popped =>
    rw [List.mem_singleton.mp hp]
    exact List.mem_cons_self
  | _ => cases hp

theorem Stage.of_returned {i : ι} {v : View ι Id β} (h : Stage i v) {r : Response Id β}
    (hc : v.caller = .returned r) : v.answers = [r] ∧ v.deliveries = [(i, r)] := by
  cases h with
  | idle | sending => cases hc
  | received ho | answered ho | dispatched ho | blocked ho =>
    simp only at hc
    subst hc
    cases ho
  | taken =>
    cases hc
    exact ⟨rfl, rfl⟩
  | popped hc' =>
    rcases hc' with rfl | rfl | rfl <;> cases hc
    exact ⟨rfl, rfl⟩

theorem Inv.answer {s : State ι Id β} (h : Inv idOf s) {r : Response Id β} (hr : r ∈ s.answers) :
    ∃ i, idOf i = r.id ∧ r ∈ (view idOf s i).answers := by
  obtain ⟨i, hi⟩ := h.known.answers r hr
  exact ⟨i, hi, List.mem_filter.mpr ⟨hr, by simp [hi]⟩⟩

/-- What a call has taken is an answer under its id. -/
theorem Inv.delivery {s : State ι Id β} (h : Inv idOf s) {p : ι × Response Id β}
    (hp : p ∈ s.deliveries) : p.2.id = idOf p.1 := by
  have hm := (h.stage p.1).of_delivery (List.mem_filter.mpr ⟨hp, by simp⟩)
  simpa using (List.mem_filter.mp hm).2

/-- The deliveries of a response are those to the call of its id. -/
theorem Inv.deliveries {s : State ι Id β} (hinj : Function.Injective idOf) (h : Inv idOf s) {i : ι}
    {id : Id} (hid : idOf i = id) :
    s.deliveries.filter (·.2.id = id) = (view idOf s i).deliveries := by
  refine List.filter_congr fun p hp => ?_
  rw [h.delivery hp, ← hid]
  simp [hinj.eq_iff]

/-- When no task of the client can go on by itself, an answered call has returned. -/
theorem OrderlyInv.stuck {s : State ι Id β} (h : OrderlyInv idOf s)
    (hstuck : ∀ a : Action ι Id β, a.internal = true → step idOf s a = none) {i : ι}
    {r : Response Id β} (hr : r ∈ (view idOf s i).answers) : s.caller i = .returned r := by
  have hhandler : ∀ hd ∈ (view idOf s i).handlers, ∃ k, s.handlers[k]? = some hd := fun hd hm =>
    List.getElem?_of_mem (List.mem_filter.mp hm).1
  have hst := h.stage i
  generalize hv : view idOf s i = v at hst hr hhandler
  cases hst with
  | idle | sending | received => cases hr
  | answered =>
    -- the read loop can go on
    obtain ⟨-, -, -, h4, -⟩ := view_eq.mp hv
    have hnone := hstuck .dispatch rfl
    cases hw : s.wire with
    | nil => rw [hw] at h4; cases h4
    | cons r' rest => simp [step, hw] at hnone
  | dispatched =>
    obtain ⟨k, hk⟩ := hhandler _ List.mem_cons_self
    have hnone := hstuck (.handle k) rfl
    simp [step, hk] at hnone
  | @blocked c r' hc hw =>
    -- the call has still to send or to receive
    obtain ⟨h1, -⟩ := view_eq.mp hv
    have hsent := hstuck (.sent i) rfl
    have hreceive := hstuck (.receive i) rfl
    simp only [step, h1] at hsent hreceive
    cases c with
    | sending out => cases out <;> simp [Caller.open] at hc hsent
    | sent => simp at hreceive
    | waiting => exact absurd rfl hw
    | _ => cases hc
  | taken =>
    obtain ⟨k, hk⟩ := hhandler _ List.mem_cons_self
    have hnone := hstuck (.pop k) rfl
    simp [step, hk] at hnone
  | popped hc hpc =>
    obtain ⟨h1, -⟩ := view_eq.mp hv
    rcases hc with rfl | rfl | rfl
    · have hnone := hstuck (.resume i) rfl
      simp [step, h1] at hnone
    · rw [List.mem_singleton.mp hr, h1]
    · exact absurd h1 (h.noTimeout i)

/-- What a call has returned is the one response to it, and was taken by it alone. -/
theorem Inv.returned {s : State ι Id β} (h : Inv idOf s) {i : ι} {r : Response Id β}
    (hc : s.caller i = .returned r) :
    r.id = idOf i ∧ r ∈ s.answers ∧ (view idOf s i).deliveries = [(i, r)] := by
  obtain ⟨has, hds⟩ := (h.stage i).of_returned hc
  have hm : r ∈ (view idOf s i).answers := has ▸ List.mem_cons_self
  obtain ⟨hmem, hid⟩ := List.mem_filter.mp hm
  exact ⟨by simpa using hid, hmem, hds⟩

theorem Inv.not_raised {s : State ι Id β} (h : Inv idOf s) {hd : Handler ι Id β}
    (hm : hd ∈ s.handlers) (e : TableError Id) : hd.pc ≠ .raised e := by
  obtain ⟨k, hk⟩ := List.getElem?_of_mem hm
  obtain ⟨i, -, hmem⟩ := h.handler hk
  exact (h.stage i).not_raised hmem e

/-- When nothing is left to do, every answer has been returned by the call of its id. -/
theorem OrderlyInv.answered {s : State ι Id β} (h : OrderlyInv idOf s)
    (hstuck : ∀ a : Action ι Id β, a.internal = true → step idOf s a = none) {r : Response Id β}
    (hr : r ∈ s.answers) : ∃ i, idOf i = r.id ∧ s.caller i = .returned r := by
  obtain ⟨i, hid, hm⟩ := h.answer hr
  exact ⟨i, hid, h.stuck hstuck hm⟩

/-- A call that has returned has no entry any more once its handler has finished. -/
theorem Stage.entry_of_finished {i : ι} {v : View ι Id β} (h : Stage i v) {r : Response Id β}
    (hc : v.caller = .returned r) (hfin : ∀ hd ∈ v.handlers, hd.pc.finished = true) :
    v.entry = none := by
  cases h with
  | idle | popped => rfl
  | sending => cases hc
  | received ho | answered ho | dispatched ho | blocked ho =>
    simp only at hc
    subst hc
    cases ho
  | taken => cases hfin _ List.mem_cons_self

/-- **Every request gets its own response.** In every run without timeouts and
failing sends: a call that returns returns a response with its own id; a
response is taken by no call but the one of its id, and at most once; no
handler fails; when the client has nothing left to do every response has been
taken and its call has returned; and when all requests have returned and all
handlers have finished, every response has been taken and the table is empty. -/
theorem request_correlation {as : List (Action ι Id β)} {s : State ι Id β}
    (hinj : Function.Injective idOf) (ha : ∀ a ∈ as, a.orderly = true)
    (hrun : Run.exec (step idOf) State.init as = some s) :
    (∀ i r, s.caller i = .returned r → r.id = idOf i ∧ r ∈ s.answers ∧ (i, r) ∈ s.deliveries) ∧
    (∀ r ∈ s.answers, ∃ i, idOf i = r.id ∧ (s.deliveries.filter (·.2.id = r.id) = [] ∨
      s.deliveries.filter (·.2.id = r.id) = [(i, r)])) ∧
    (∀ h ∈ s.handlers, ∀ e, h.pc ≠ .raised e) ∧
    ((∀ a : Action ι Id β, a.internal = true → step idOf s a = none) →
      ∀ r ∈ s.answers, ∃ i, s.caller i = .returned r ∧
        s.deliveries.filter (·.2.id = r.id) = [(i, r)]) ∧
    ((∀ i, s.caller i = .idle ∨ ∃ r, s.caller i = .returned r) →
      (∀ h ∈ s.handlers, h.pc.finished = true) →
      (∀ r ∈ s.answers, ∃ i, s.deliveries.filter (·.2.id = r.id) = [(i, r)]) ∧
        OneShotTable.completed s.pending = true) := by
  have h := orderly_run hinj ha hrun
  refine ⟨fun i r hc => ?_, fun r hr => ?_, fun hd hm e => h.not_raised hm e, fun hstuck r hr => ?_,
    fun hall hfin => ⟨fun r hr => ?_, ?_⟩⟩
  · obtain ⟨hid, hmem, hds⟩ := h.returned hc
    have hd : (i, r) ∈ (view idOf s i).deliveries := hds ▸ List.mem_cons_self
    exact ⟨hid, hmem, (List.mem_filter.mp hd).1⟩
  · obtain ⟨i, hid, hm⟩ := h.answer hr
    rw [h.deliveries hinj hid]
    exact ⟨i, hid, (h.stage i).of_answer hm⟩
  · obtain ⟨i, hid, hc⟩ := h.answered hstuck hr
    exact ⟨i, hc, by rw [h.deliveries hinj hid]; exact (h.returned hc).2.2⟩
  · obtain ⟨i, hid, hm⟩ := h.answer hr
    rcases hall i with hc | ⟨r', hc⟩
    · rw [(h.stage i).of_idle hc] at hm
      cases hm
    · obtain ⟨has, hds⟩ := (h.stage i).of_returned hc
      rw [has] at hm
      rw [h.deliveries hinj hid, List.mem_singleton.mp hm]
      exact ⟨i, hds⟩
  · refine h.known.completed fun i => ?_
    rcases hall i with hc | ⟨r, hc⟩
    · exact congrArg View.entry ((h.stage i).of_idle hc)
    · exact (h.stage i).entry_of_finished hc fun hd hm => hfin hd (List.mem_filter.mp hm).1

/-- Two requests: the response of the second one is there before it waits. -/
def twoRequests : List (Action ℕ ℕ ℕ) :=
  [.reserve 0, .reserve 1, .transmit 1, .transmit 0, .sent 0, .receive 0, .answer 1 11, .answer 0 10,
    .dispatch, .dispatch, .handle 0, .handle 1, .resume 0, .sent 1, .receive 1, .pop 0, .notify 0]

theorem request_correlation_two : ∃ s, Run.exec (step id) State.init twoRequests = some s ∧
    s.caller 0 = .returned ⟨0, 10⟩ ∧ s.caller 1 = .returned ⟨1, 11⟩ ∧
    ∀ r ∈ s.answers, ∃ i, i = r.id ∧ (s.deliveries.filter (·.2.id = r.id) = [] ∨
      s.deliveries.filter (·.2.id = r.id) = [(i, r)]) := by
  have horderly : ∀ a ∈ twoRequests, a.orderly = true := by decide
  exact ⟨_, rfl, rfl, rfl, (request_correlation Function.injective_id horderly rfl).2.1⟩

/-! ### Calls that end without a response -/

/-- Ended calls leave no trace: no entry, no handler that failed or waits for
one of them, and nothing that keeps `wait_requests_completed` from returning
at once. -/
structure NoTrace (idOf : ι → Id) (s : State ι Id β) : Prop where
  entry : ∀ i, (s.caller i).ended = true → s.pending.lookup (idOf i) = none
  handler : ∀ h ∈ s.handlers, (∀ e, h.pc ≠ .raised e) ∧
    ∀ i, h.pc = .sending i → (s.caller i).ended = false
  wait : (∀ i, s.caller i = .idle ∨ (s.caller i).ended = true) → s.session = .active →
    step idOf s .leave = some { s with session := .closing }

/-- No send fails, no timeout strikes a call that has not got its response, and
no call begins to receive when a handler already waits with its response. -/
def Clean (s : State ι Id β) (a : Action ι Id β) : Prop :=
  Uncut s a ∧ ∀ i, a = .receive i → ∀ h ∈ s.handlers, h.pc ≠ .sending i

/-- What a clean run keeps: every handler pops its entry as it delivers. -/
structure CleanInv (idOf : ι → Id) (s : State ι Id β) : Prop extends Inv idOf s where
  noResumed : ∀ h ∈ s.handlers, h.pc ≠ .resumed

theorem mem_setHandler {s : State ι Id β} {k : ℕ} {pc : HandlerPc ι Id} {h : Handler ι Id β}
    (hm : h ∈ (s.setHandler k pc).handlers) : h ∈ s.handlers ∨ h.pc = pc := by
  obtain ⟨h', -, rfl⟩ | hin := mem_modify_elim hm
  · exact Or.inr rfl
  · exact Or.inl hin

theorem pop_ne_resumed (pending : Pending ι Id) (id : Id) :
    (OneShotTable.pop pending id).2 ≠ .resumed := by
  unfold OneShotTable.pop
  split
  · simp only
    split <;> nofun
  · nofun

/-- A handler has been resumed before, or a call found it waiting. -/
theorem resumed_step {s t : State ι Id β} {a : Action ι Id β} (hstep : step idOf s a = some t)
    (ha : ∀ i, a = .receive i → ∀ h ∈ s.handlers, h.pc ≠ .sending i)
    (hs : ∀ h ∈ s.handlers, h.pc ≠ .resumed) : ∀ h ∈ t.handlers, h.pc ≠ .resumed := by
  have hset : ∀ (k : ℕ) (pc : HandlerPc ι Id), pc ≠ .resumed →
      ∀ h ∈ (s.setHandler k pc).handlers, h.pc ≠ .resumed := fun k pc hpc h hm =>
    (mem_setHandler hm).elim (hs h) fun he => he ▸ hpc
  cases step_cases hstep with
  | @handle k r _ =>
    unfold sendResponse
    split
    · exact hset k _ nofun
    · split
      · exact hset k _ (pop_ne_resumed _ _)
      · exact hset k _ nofun
      · exact hset k _ nofun
  | @pop k r _ => exact hset k _ (pop_ne_resumed _ _)
  | @notify k r _ => exact hset k _ nofun
  | @receive i _ =>
    have hnone : s.handlers.findIdx? (fun h => h.pc = .sending i) = none :=
      List.findIdx?_eq_none_iff.mpr fun h hm => by simpa using ha i rfl h hm
    rw [receiveResponse, hnone]
    exact hs
  | resume =>
    intro h hm
    simp only [State.closeReceiver, List.mem_map] at hm
    obtain ⟨h', hm', rfl⟩ := hm
    split
    · nofun
    · exact hs h' hm'
  | dispatch =>
    intro h hm
    rcases List.mem_append.mp hm with hm | hm
    · exact hs h hm
    · rw [List.mem_singleton.mp hm]
      nofun
  | _ => exact hs

theorem clean_step {s t : State ι Id β} {a : Action ι Id β} (hinj : Function.Injective idOf)
    (h : CleanInv idOf s) (hc : Clean s a) (hstep : step idOf s a = some t) : CleanInv idOf t :=
  ⟨inv_step hinj h.toInv hc.1 hstep, resumed_step hstep hc.2 h.noResumed⟩

/-- An ended call's entry is there only until its handler, which has delivered, pops it. -/
theorem Inv.entry {s : State ι Id β} (h : Inv idOf s) {i : ι} (hc : (s.caller i).ended = true) :
    s.pending.lookup (idOf i) = none ∨
      ∃ r, s.caller i = .returned r ∧ ⟨r, .resumed⟩ ∈ s.handlers := by
  have hst := h.stage i
  generalize hv : view idOf s i = v at hst
  obtain ⟨h1, h2⟩ : s.caller i = v.caller ∧ s.pending.lookup (idOf i) = v.entry := by
    rw [← hv]
    exact ⟨rfl, rfl⟩
  have h5 : ∀ hd ∈ v.handlers, hd ∈ s.handlers := fun hd hm => by
    rw [← hv] at hm
    exact (List.mem_filter.mp hm).1
  rw [h1] at hc
  cases hst with
  | idle | sending => cases hc
  | @received c ho | @answered c _ ho | @dispatched c _ ho | @blocked c _ ho =>
    cases c with
    | returned | raised => cases ho
    | _ => cases hc
  | @taken r => exact Or.inr ⟨r, h1, h5 _ List.mem_cons_self⟩
  | popped => exact Or.inl h2

theorem CleanInv.noTrace {s : State ι Id β} (h : CleanInv idOf s) : NoTrace idOf s := by
  have hentry : ∀ i, (s.caller i).ended = true → s.pending.lookup (idOf i) = none := fun i hc => by
    rcases h.entry hc with he | ⟨r, -, hm⟩
    · exact he
    · exact absurd rfl (h.noResumed _ hm)
  refine ⟨hentry, fun hd hm => ⟨fun e => ?_, fun i hs => ?_⟩, fun hall hact => ?_⟩
  · obtain ⟨k, hk⟩ := List.getElem?_of_mem hm
    obtain ⟨i, -, hmem⟩ := h.handler hk
    exact (h.stage i).not_raised hmem e
  · obtain ⟨-, ho, -⟩ := h.blocked hm hs
    cases hc : s.caller i with
    | returned | raised => rw [hc] at ho; cases ho
    | _ => rfl
  · have hcompleted : OneShotTable.completed s.pending = true := h.known.completed fun i => by
      rcases hall i with hc | hc
      · exact congrArg View.entry ((h.stage i).of_idle hc)
      · exact hentry i hc
    simp only [step, hact, hcompleted, if_true]

/-- A call that is cut off, or that finds its response waiting, ends with its entry pending. -/
theorem clean_leave {s t : State ι Id β} {a : Action ι Id β} (h : CleanInv idOf s)
    (hc : ¬ Clean s a) (hstep : step idOf s a = some t) : ¬ NoTrace idOf t := by
  -- such a call has an entry, and the step that ends it leaves the table alone
  have key : ∀ (i : ι) (c : Caller Id β), c.ended = true → (s.caller i).open = true ∨
      s.caller i = .sending false → ¬ NoTrace idOf (s.setCaller i c) := fun i c hend ho hn => by
    have hnone : s.pending.lookup (idOf i) = none := hn.entry i (by simp [State.setCaller, hend])
    have hst := h.stage i
    have hcv : (view idOf s i).caller = s.caller i := rfl
    have hev : (view idOf s i).entry = none := hnone
    generalize view idOf s i = v at hst hcv hev
    rw [← hcv] at ho
    cases hst with
    | idle => rcases ho with ho | ho <;> cases ho
    | popped hc' => rcases hc' with rfl | rfl | rfl <;> rcases ho with ho | ho <;> cases ho
    | _ => cases hev
  cases step_cases hstep with
  | @sendFails i out hs =>
    refine key i _ rfl ?_
    cases out with
    | false => exact Or.inr hs
    | true => exact Or.inl (by rw [hs]; rfl)
  | @cancel i hs =>
    rcases hs with ho | ho | hw
    · exact key i _ rfl (Or.inl ho)
    · exact key i _ rfl (Or.inr ho)
    · exact absurd ⟨hw, nofun⟩ hc
  | @receive i hs =>
    obtain ⟨hd, hm, hpc⟩ : ∃ hd ∈ s.handlers, hd.pc = .sending i := by
      by_contra hno
      refine hc ⟨trivial, fun j hj hd hm hpc => hno ⟨hd, hm, ?_⟩⟩
      cases hj
      exact hpc
    obtain ⟨hid, -, -, hv⟩ := h.blocked hm hpc
    intro hn
    have hfind : ∃ k, s.handlers.findIdx? (fun h => h.pc = .sending i) = some k := by
      cases hf : s.handlers.findIdx? (fun h => h.pc = .sending i) with
      | some k => exact ⟨k, rfl⟩
      | none => simpa [hpc] using List.findIdx?_eq_none_iff.mp hf hd hm
    obtain ⟨k, hfind⟩ := hfind
    obtain ⟨hlt, -, -⟩ := List.findIdx?_eq_some_iff_getElem.mp hfind
    have hk : s.handlers[k]? = some s.handlers[k] := List.getElem?_eq_getElem hlt
    have hnone := hn.entry i
    simp only [receiveResponse, hfind, hk, State.closeReceiver, State.setCaller,
      Function.update_self] at hnone
    have hsome : s.pending.lookup (idOf i) = some i := congrArg View.entry hv
    have hnot := hnone rfl
    simp only [State.deliver, State.setHandler, hsome] at hnot
    cases hnot
  | _ => exact absurd ⟨trivial, nofun⟩ hc

/-- **Which requests leave no trace.** Of the runs of calls with distinct ids,
those in all of whose states the ended calls have left no trace are exactly the
clean ones. -/
theorem request_leaves_no_trace {as : List (Action ι Id β)} {s : State ι Id β}
    (hinj : Function.Injective idOf) (hrun : Run.exec (step idOf) State.init as = some s) :
    Run.Always (step idOf) (NoTrace idOf) State.init as ↔
      Run.Along (step idOf) Clean State.init as :=
  Run.always_iff_along (I := CleanInv idOf) (fun _ h => h.noTrace)
    (fun _ _ _ h hc => clean_step hinj h hc) (fun _ _ _ h hc => clean_leave h hc) as
    ⟨inv_init, nofun⟩ hrun

/-- A request whose response finds it waiting. -/
theorem request_leaves_no_trace_returned :
    Run.Always (step id) (NoTrace id) (State.init : State ℕ ℕ ℕ) [.reserve 0, .transmit 0, .sent 0,
      .receive 0, .answer 0 7, .dispatch, .handle 0, .resume 0, .notify 0, .leave] := by
  refine (request_leaves_no_trace Function.injective_id rfl).mpr ?_
  iterate 3 refine (Run.along_cons rfl).mpr ⟨⟨trivial, nofun⟩, ?_⟩
  -- nothing has been dispatched when the call begins to receive
  refine (Run.along_cons rfl).mpr ⟨⟨trivial, fun _ _ _ hm => nomatch hm⟩, ?_⟩
  iterate 6 refine (Run.along_cons rfl).mpr ⟨⟨trivial, nofun⟩, ?_⟩
  trivial

/-- A request that times out while it waits: its entry stays, the handler of
the late response is stuck, and the session ends without `shutdown`. -/
theorem request_timeout_leaves_trace :
    ∃ s : State ℕ ℕ ℕ, Run.exec (step id) State.init [.reserve 0, .transmit 0, .sent 0, .receive 0,
      .cancel 0, .answer 0 7, .dispatch, .handle 0, .leave, .waitTimeout] = some s ∧
    s.caller 0 = .raised .timeout ∧ s.pending.lookup 0 = some 0 ∧
    s.handlers = [⟨⟨0, 7⟩, .sending 0⟩] ∧ s.session = .raised ∧ ¬ NoTrace id s := by
  refine ⟨_, rfl, rfl, rfl, rfl, rfl, fun h => ?_⟩
  have hentry := h.entry 0 rfl
  cases hentry

end Steps

end Requests
end LspClient
