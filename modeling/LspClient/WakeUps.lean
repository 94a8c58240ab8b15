/-
# Waiting for an empty table

`OneShotTable` of `utils/channel.py`, with any number of tasks that reserve
entries, send to them, receive from them and wait in `wait_until_empty`, in any
interleaving, none of them cancelled. An entry is removed by the send whose item
has been taken, without the condition's lock; a send that leaves the table empty
takes the lock afterwards and notifies all.

The condition is `Lib/Condition`, and the table a monitor whose goal is to be
empty (`step_monitor`). So `wait_until_empty` returns only while the table is
empty, and no task is left waiting for a table that is (`no_lost_wake_up`).

`step` is one step of one task, from one suspension point to the next.

Key definitions: `Pc`, `State`, `Action`, `step`.
Key theorems: `step_monitor`, `no_lost_wake_up`, `wait_can_end`.
-/
import LspClient.Lib.Channel
import LspClient.Lib.Condition
import LspClient.ResponseTable

namespace LspClient
namespace WakeUps

open Requests (Pending)

/-- Where a task stands; channels are numbered. -/
inductive Pc (Id : Type*) where
  | idle
  /-- In `send`: waits for the receiver of the channel. -/
  | sending (id : Id) (channel : ℕ)
  /-- In `send`: the item has been taken; goes on with `self._pending.pop(id)`. -/
  | sent (id : Id)
  /-- In `rx.receive()`. -/
  | receiving (channel : ℕ)
  /-- At `async with self._condition`, of `send` or of `wait_until_empty`. -/
  | locking (d : Duty)
  /-- Has got the lock; goes on with `notify_all`, or with the test of the loop. -/
  | holding (d : Duty)
  /-- In `wait`, before it has been registered. -/
  | registering
  /-- In `wait`, registered. -/
  | waiting
  deriving DecidableEq, Repr

/-- Where the task stands towards the condition. -/
def Pc.phase {Id : Type*} : Pc Id → Phase
  | .locking d => .locking d
  | .holding d => .holding d
  | .registering => .registering
  | .waiting => .waiting
  | _ => .outside

/-- Towards the condition, where a task stands is its phase. -/
theorem Pc.eq_of_phase {Id : Type*} {p q : Pc Id} (h : p.phase = q.phase) (hq : q.phase ≠ .outside) : p = q := by
  cases q <;> first | exact absurd rfl hq | (cases p <;> cases h; rfl)

/-- Is the task in `wait_until_empty`? -/
def Pc.waits {Id : Type*} (p : Pc Id) : Bool := p.phase.waits

/-- Is the task in `send`, between removing its entry and notifying? -/
def Pc.notifies {Id : Type*} (p : Pc Id) : Bool := p.phase.notifies

/-- The table with the channels of its entries; a one-shot sender is named by its channel. -/
structure State (τ Id α : Type*) where
  pc : τ → Pc Id
  pending : Pending ℕ Id
  channels : List (Channel τ α)
  condition : Condition τ

inductive Action (τ Id α : Type*) where
  | reserve (t : τ) (id : Id)
  /-- `send` begins. -/
  | send (t : τ) (id : Id) (data : α)
  /-- `send` goes on after having waited for the receiver. -/
  | pop (t : τ)
  /-- `send` goes on after having waited for the receiver, which has been closed. -/
  | fail (t : τ)
  /-- `receive` of the receiver of a channel begins. -/
  | receive (t : τ) (channel : ℕ)
  /-- `receive` goes on with the item it has been handed. -/
  | resume (t : τ)
  /-- `wait_until_empty` begins. -/
  | waitUntilEmpty (t : τ)
  /-- The task gets the lock. -/
  | acquire (t : τ)
  /-- The task goes on under the lock. -/
  | proceed (t : τ)
  /-- The task is registered. -/
  | register (t : τ)
  deriving DecidableEq, Repr

variable {τ Id α : Type*} [DecidableEq τ] [DecidableEq Id]

namespace State

def init : State τ Id α := ⟨fun _ => .idle, ∅, [], Condition.free⟩

def setPc (s : State τ Id α) (t : τ) (p : Pc Id) : State τ Id α :=
  { s with pc := Function.update s.pc t p }

def setChannel (s : State τ Id α) (r : ℕ) (c : Channel τ α) : State τ Id α :=
  { s with channels := s.channels.set r c }

/-- `self._pending.pop(id)` of task `t`, which notifies if the table has become empty. -/
def popEntry (s : State τ Id α) (t : τ) (id : Id) : State τ Id α :=
  match Requests.OneShotTable.pop s.pending id with
  | (pending, .notifying) => { s with pending := pending }.setPc t (.locking .notify)
  | (pending, _) => { s with pending := pending }.setPc t .idle

/-- The item of the first sender has been taken: it will go on. -/
def accept (s : State τ Id α) : Option (τ × α) → State τ Id α
  | some (t, _) =>
    match s.pc t with
    | .sending id _ => s.setPc t (.sent id)
    | _ => s
  | none => s

/-- Task `t` is blocked in `wait_until_empty`, or about to be, and has not been notified. -/
def Unnotified (s : State τ Id α) (t : τ) : Prop :=
  s.pc t = .registering ∨ s.pc t = .waiting ∧ t ∈ s.condition.waiters

end State

/-- `OneShotTable.send`, up to where it suspends or ends. -/
def send (s : State τ Id α) (t : τ) (id : Id) (data : α) : State τ Id α :=
  match s.pending.lookup id with
  | none => s -- raises `ValueError`
  | some r =>
    match s.channels[r]? with
    | none => s -- no entry is without its channel
    | some c =>
      match c.send 0 t data with
      | (.accepted, c) => (s.setChannel r c).popEntry t id
      | (.blocked, c) => (s.setChannel r c).setPc t (.sending id r)
      | (.broken, _) => s -- raises `BrokenResourceError`

/-- `OneShotReceiver.receive`, up to where it suspends or returns. -/
def receive (s : State τ Id α) (t : τ) (r : ℕ) (c : Channel τ α) : State τ Id α :=
  match c.receive with
  | (some _, c') => (s.setChannel r c'.close).accept c.senders.head?
  | (none, c') => (s.setChannel r c').setPc t (.receiving r)

/-- One step. A receiver is received from by one task. -/
def step (s : State τ Id α) : Action τ Id α → Option (State τ Id α)
  | .reserve t id =>
    match s.pc t with
    | .idle =>
      match Requests.OneShotTable.reserve s.pending id s.channels.length with
      | .ok pending => some { s with pending := pending, channels := s.channels ++ [Channel.empty] }
      | .error _ => some s
    | _ => none
  | .send t id data =>
    match s.pc t with
    | .idle => some (send s t id data)
    | _ => none
  | .pop t =>
    match s.pc t with
    | .sent id => some (s.popEntry t id)
    | _ => none
  | .fail t =>
    match s.pc t with
    | .sending _ r =>
      match s.channels[r]? with
      | some ⟨_, _, .closed⟩ => some (s.setPc t .idle)
      | _ => none
    | _ => none
  | .receive t r =>
    match s.pc t, s.channels[r]? with
    | .idle, some c =>
      match c.receiver with
      | .away => some (receive s t r c)
      | .closed => some s -- raises `ClosedResourceError`
      | _ => none
    | _, _ => none
  | .resume t =>
    match s.pc t with
    | .receiving r =>
      match s.channels[r]?.bind Channel.resume with
      | some (_, c) => some ((s.setChannel r c.close).setPc t .idle)
      | none => none
    | _ => none
  | .waitUntilEmpty t =>
    match s.pc t with
    | .idle => some (s.setPc t (.locking .check))
    | _ => none
  | .acquire t =>
    match s.pc t with
    | .locking d => (s.condition.acquire t).map fun c => { s with condition := c }.setPc t (.holding d)
    | .waiting =>
      if t ∈ s.condition.waiters then none
      else (s.condition.acquire t).map fun c => { s with condition := c }.setPc t (.holding .check)
    | _ => none
  | .proceed t =>
    match s.pc t with
    | .holding .notify =>
      ((s.condition.notifyAll t).bind fun c => c.release t).map fun c =>
        { s with condition := c }.setPc t .idle
    | .holding .check =>
      if Requests.OneShotTable.completed s.pending then
        (s.condition.release t).map fun c => { s with condition := c }.setPc t .idle
      else some (s.setPc t .registering)
    | _ => none
  | .register t =>
    match s.pc t with
    | .registering => (s.condition.wait t).map fun c => { s with condition := c }.setPc t .waiting
    | _ => none

/-! ### The table is a monitor -/

namespace State

/-- The table as a monitor: the goal is that it is empty. -/
def monitor (s : State τ Id α) : Monitor τ :=
  ⟨fun t => (s.pc t).phase, s.condition, Requests.OneShotTable.completed s.pending⟩

omit [DecidableEq τ] [DecidableEq Id] in
theorem monitor_phase {s : State τ Id α} {t : τ} {p : Pc Id} (h : s.pc t = p) : s.monitor.phase t = p.phase :=
  congrArg Pc.phase h

omit [DecidableEq Id] in
theorem monitor_setPc (s : State τ Id α) (t : τ) (p : Pc Id) :
    (s.setPc t p).monitor = s.monitor.setPhase t p.phase := by
  have hphase : (fun u => (Function.update s.pc t p u).phase) =
      Function.update (fun u => (s.pc u).phase) t p.phase := Function.comp_update Pc.phase s.pc t p
  rw [monitor, setPc, hphase]
  rfl

omit [DecidableEq Id] in
/-- A task that has nothing to do with the condition. -/
theorem monitor_setPc_outside (s : State τ Id α) {t : τ} {p : Pc Id} (ht : (s.pc t).phase = .outside)
    (hp : p.phase = .outside) : (s.setPc t p).monitor = s.monitor := by
  rw [monitor_setPc, hp]
  exact s.monitor.setPhase_eq ht

omit [DecidableEq Id] in
theorem monitor_setPc_idle (s : State τ Id α) {t : τ} (ht : (s.pc t).phase = .outside) :
    (s.setPc t .idle).monitor = s.monitor :=
  s.monitor_setPc_outside ht rfl

omit [DecidableEq Id] in
theorem monitor_accept (s : State τ Id α) : ∀ o : Option (τ × α), (s.accept o).monitor = s.monitor
  | none => rfl
  | some (t, _) => by
    rw [accept]
    split
    · rename_i id r hpc
      exact s.monitor_setPc_outside (congrArg Pc.phase hpc) rfl
    · rfl

/-- The entry is removed: if it was the last, the task goes on to notify. -/
theorem step_popEntry (s : State τ Id α) {t : τ} (id : Id) (ht : (s.pc t).phase = .outside) :
    s.monitor.Step (s.popEntry t id).monitor := by
  rw [popEntry, Requests.OneShotTable.pop]
  by_cases hid : id ∈ s.pending
  · rw [if_pos hid]
    by_cases hempty : Requests.OneShotTable.completed (s.pending.erase id) = true
    · rw [if_pos hempty]
      dsimp only
      rw [monitor_setPc]
      exact Monitor.Step.meet t _ ht
    · rw [if_neg hempty]
      dsimp only
      rw [monitor_setPc_idle _ (by exact ht)]
      exact Monitor.Step.lose _ fun h => absurd h hempty
  · rw [if_neg hid]
    dsimp only
    rw [monitor_setPc_idle _ (by exact ht)]
    exact Monitor.Step.refl _

end State

theorem step_send (s : State τ Id α) {t : τ} (id : Id) (data : α) (ht : s.pc t = .idle) :
    s.monitor.Step (send s t id data).monitor := by
  have hout : (s.pc t).phase = .outside := congrArg Pc.phase ht
  unfold send
  split
  · exact Monitor.Step.refl _
  · rename_i r hr
    split
    · exact Monitor.Step.refl _
    · split
      · rename_i c _
        exact (s.setChannel r c).step_popEntry id hout
      · rename_i c _
        rw [(s.setChannel r c).monitor_setPc_outside hout rfl]
        exact Monitor.Step.refl _
      · exact Monitor.Step.refl _

omit [DecidableEq Id] in
theorem monitor_receive (s : State τ Id α) {t : τ} (r : ℕ) (c : Channel τ α) (ht : s.pc t = .idle) :
    (receive s t r c).monitor = s.monitor := by
  unfold receive
  split
  · exact State.monitor_accept _ _
  · rename_i c' _
    exact (s.setChannel r c').monitor_setPc_outside (congrArg Pc.phase ht) rfl

/-- A new entry: the goal is lost. -/
theorem step_reserve (s : State τ Id α) {pending : Pending ℕ Id} {id : Id} {r : ℕ}
    (h : Requests.OneShotTable.reserve s.pending id r = .ok pending) (channels : List (Channel τ α)) :
    s.monitor.Step { s with pending := pending, channels := channels }.monitor := by
  unfold Requests.OneShotTable.reserve at h
  split at h
  · cases h
  · cases h
    refine Monitor.Step.lose _ fun hempty => ?_
    simp [Requests.OneShotTable.completed] at hempty

/-- **Each step of the table is one of the monitor.** -/
theorem step_monitor {s s' : State τ Id α} {a : Action τ Id α} (h : step s a = some s') :
    s.monitor.Step s'.monitor := by
  cases a with
  | reserve t id =>
    simp only [step] at h
    split at h
    · split at h
      · rename_i pending hres
        cases h
        exact step_reserve s hres _
      · cases h
        exact Monitor.Step.refl _
    · cases h
  | send t id data =>
    simp only [step] at h
    split at h
    · rename_i hpc
      cases h
      exact step_send s id data hpc
    · cases h
  | pop t =>
    simp only [step] at h
    split at h
    · rename_i id hpc
      cases h
      exact s.step_popEntry id (congrArg Pc.phase hpc)
    · cases h
  | fail t =>
    simp only [step] at h
    split at h
    · rename_i id r hpc
      split at h
      · cases h
        rw [s.monitor_setPc_idle (congrArg Pc.phase hpc)]
        exact Monitor.Step.refl _
      · cases h
    · cases h
  | receive t r =>
    simp only [step] at h
    split at h
    · rename_i c hpc hc
      split at h
      · cases h
        rw [monitor_receive s r c hpc]
        exact Monitor.Step.refl _
      · cases h
        exact Monitor.Step.refl _
      · cases h
    · cases h
  | resume t =>
    simp only [step] at h
    split at h
    · rename_i r hpc
      split at h
      · rename_i a c hc
        cases h
        rw [(s.setChannel r c.close).monitor_setPc_idle (congrArg Pc.phase hpc)]
        exact Monitor.Step.refl _
      · cases h
    · cases h
  | waitUntilEmpty t =>
    simp only [step] at h
    split at h
    · rename_i hpc
      cases h
      rw [s.monitor_setPc]
      exact Monitor.Step.enter t (State.monitor_phase hpc)
    · cases h
  | acquire t =>
    simp only [step] at h
    split at h
    · rename_i d hpc
      obtain ⟨c, hc, rfl⟩ := Option.map_eq_some_iff.mp h
      rw [State.monitor_setPc]
      exact Monitor.Step.inner (.acquire t d c (Or.inl (State.monitor_phase hpc)) hc)
    · rename_i hpc
      split at h
      · cases h
      · rename_i hnot
        obtain ⟨c, hc, rfl⟩ := Option.map_eq_some_iff.mp h
        rw [State.monitor_setPc]
        exact Monitor.Step.inner (.acquire t .check c (Or.inr ⟨State.monitor_phase hpc, hnot, rfl⟩) hc)
    · cases h
  | proceed t =>
    simp only [step] at h
    split at h
    · rename_i hpc
      obtain ⟨c', hc', rfl⟩ := Option.map_eq_some_iff.mp h
      obtain ⟨c, hc, hrel⟩ := Option.bind_eq_some_iff.mp hc'
      rw [State.monitor_setPc]
      exact Monitor.Step.inner (.notify t c c' (State.monitor_phase hpc) hc hrel)
    · rename_i hpc
      have hphase : s.monitor.phase t = .holding .check := State.monitor_phase hpc
      split at h
      · rename_i hempty
        obtain ⟨c, hc, rfl⟩ := Option.map_eq_some_iff.mp h
        rw [State.monitor_setPc]
        exact Monitor.Step.inner (.leave t c hphase hempty hc)
      · rename_i hempty
        cases h
        rw [s.monitor_setPc]
        exact Monitor.Step.inner (.refuse t hphase (Bool.not_eq_true _ ▸ hempty))
    · cases h
  | register t =>
    simp only [step] at h
    split at h
    · rename_i hpc
      obtain ⟨c, hc, rfl⟩ := Option.map_eq_some_iff.mp h
      rw [State.monitor_setPc]
      exact Monitor.Step.inner (.register t c (State.monitor_phase hpc) hc)
    · cases h

/-! ### Runs -/

theorem sound_exec {acts : List (Action τ Id α)} {s : State τ Id α}
    (h : Run.exec step State.init acts = some s) : s.monitor.Sound :=
  Run.exec_inv_history (I := fun _ s => s.monitor.Sound) (fun _ _ _ _ hs hstep => (step_monitor hstep).sound hs)
    acts (Monitor.sound_start true) h

/-- **No lost wake-up.** Whatever the interleaving, `wait_until_empty` returns only while the table is
empty; and while it is empty and no task is between removing its entry and notifying, no task is blocked
in `wait_until_empty` that has not been notified. -/
theorem no_lost_wake_up {acts : List (Action τ Id α)} {s : State τ Id α}
    (h : Run.exec step State.init acts = some s) :
    (∀ a s' t, step s a = some s' → (s.pc t).waits = true → (s'.pc t).waits = false →
      Requests.OneShotTable.completed s.pending = true ∧ Requests.OneShotTable.completed s'.pending = true) ∧
    ¬(Requests.OneShotTable.completed s.pending = true ∧ (∀ t, (s.pc t).notifies = false) ∧
      ∃ t, s.Unnotified t) := by
  refine ⟨fun a s' t hstep hw hend => (step_monitor hstep).goal_of_end hw hend, ?_⟩
  rintro ⟨hempty, hnone, t, ht⟩
  refine (sound_exec h).notified hempty hnone t ?_
  rcases ht with hreg | ⟨-, hmem⟩
  · exact Or.inl (State.monitor_phase hreg)
  · exact Or.inr hmem

/-- Task 0 waits and is registered; task 1, whose send to task 2 empties the table, notifies it. -/
def notifiedRun : List (Action ℕ ℕ ℕ) :=
  [.reserve 2 7, .waitUntilEmpty 0, .acquire 0, .proceed 0, .register 0, .receive 2 0, .send 1 7 5,
    .acquire 1, .proceed 1, .resume 2, .acquire 0]

/-- After it, task 0 returns. -/
theorem no_lost_wake_up_notified : ∃ s s' : State ℕ ℕ ℕ, Run.exec step State.init notifiedRun = some s ∧
    step s (.proceed 0) = some s' ∧ (s.pc 0).waits = true ∧ (s'.pc 0).waits = false ∧
    Requests.OneShotTable.completed s'.pending = true :=
  have hrun : Run.exec step State.init notifiedRun = some _ := rfl
  ⟨_, _, rfl, rfl, rfl, rfl, ((no_lost_wake_up hrun).1 (.proceed 0) _ 0 rfl rfl rfl).2⟩

/-! ### While the table is empty, every wait can end -/

/-- A step of a task under the condition, or to get the lock. -/
inductive Action.Inner : Action τ Id α → Prop
  | acquire (t : τ) : Inner (.acquire t)
  | proceed (t : τ) : Inner (.proceed t)
  | register (t : τ) : Inner (.register t)

/-- Such a step of the monitor is one of the table. -/
theorem exists_step {s : State τ Id α} {m : Monitor τ} (h : s.monitor.Inner m) :
    ∃ (a : Action τ Id α) (s' : State τ Id α), a.Inner ∧ step s a = some s' ∧ s'.monitor = m := by
  cases h with
  | acquire t d c ha hc =>
    refine ⟨.acquire t, { s with condition := c }.setPc t (.holding d), .acquire t, ?_, State.monitor_setPc _ t _⟩
    rcases ha with hp | ⟨hp, hmem, rfl⟩
    · have hpc : s.pc t = .locking d := Pc.eq_of_phase hp nofun
      simp [step, hpc, show s.condition.acquire t = some c from hc]
    · have hpc : s.pc t = .waiting := Pc.eq_of_phase hp nofun
      have hmem' : t ∉ s.condition.waiters := hmem
      simp [step, hpc, hmem', show s.condition.acquire t = some c from hc]
  | notify t c c' hp hc hc' =>
    have hpc : s.pc t = .holding .notify := Pc.eq_of_phase hp nofun
    refine ⟨.proceed t, { s with condition := c' }.setPc t .idle, .proceed t, ?_, State.monitor_setPc _ t _⟩
    simp [step, hpc, show s.condition.notifyAll t = some c from hc, hc']
  | leave t c hp hgoal hc =>
    have hpc : s.pc t = .holding .check := Pc.eq_of_phase hp nofun
    have hempty : Requests.OneShotTable.completed s.pending = true := hgoal
    refine ⟨.proceed t, { s with condition := c }.setPc t .idle, .proceed t, ?_, State.monitor_setPc _ t _⟩
    simp [step, hpc, hempty, show s.condition.release t = some c from hc]
  | refuse t hp hgoal =>
    have hpc : s.pc t = .holding .check := Pc.eq_of_phase hp nofun
    have hempty : Requests.OneShotTable.completed s.pending = false := hgoal
    refine ⟨.proceed t, s.setPc t .registering, .proceed t, ?_, State.monitor_setPc _ t _⟩
    simp [step, hpc, hempty]
  | register t c hp hc =>
    have hpc : s.pc t = .registering := Pc.eq_of_phase hp nofun
    refine ⟨.register t, { s with condition := c }.setPc t .waiting, .register t, ?_, State.monitor_setPc _ t _⟩
    simp [step, hpc, show s.condition.wait t = some c from hc]

theorem exists_run {s : State τ Id α} {m : Monitor τ} (h : Relation.ReflTransGen Monitor.Inner s.monitor m) :
    ∃ (acts : List (Action τ Id α)) (s' : State τ Id α), (∀ a ∈ acts, a.Inner) ∧
      Run.exec step s acts = some s' ∧ s'.monitor = m := by
  induction h with
  | refl => exact ⟨[], s, nofun, rfl, rfl⟩
  | tail _ hlast ih =>
    obtain ⟨acts, u, hacts, hrun, rfl⟩ := ih
    obtain ⟨a, s', ha, hstep, hs'⟩ := exists_step hlast
    refine ⟨acts ++ [a], s', ?_, ?_, hs'⟩
    · intro b hb
      rcases List.mem_append.mp hb with hb | hb
      · exact hacts b hb
      · exact List.mem_singleton.mp hb ▸ ha
    · rw [Run.exec_append, hrun, Option.bind_some, Run.exec, hstep]
      rfl

/-- **While the table is empty, every wait can end**, without a step of a task that has not emptied the
table and does not wait for it. -/
theorem wait_can_end {acts : List (Action τ Id α)} {s : State τ Id α}
    (h : Run.exec step State.init acts = some s) (hempty : Requests.OneShotTable.completed s.pending = true)
    {t : τ} (hw : (s.pc t).waits = true) :
    ∃ (rest : List (Action τ Id α)) (s' : State τ Id α), (∀ a ∈ rest, a.Inner) ∧
      Run.exec step s rest = some s' ∧ (s'.pc t).waits = false := by
  obtain ⟨m, hpath, hend⟩ := (sound_exec h).exists_end hempty hw
  obtain ⟨rest, s', hrest, hrun, rfl⟩ := exists_run hpath
  exact ⟨rest, s', hrest, hrun, hend⟩

/-- Task 0 has been notified, and can end its wait. -/
theorem wait_can_end_notified : ∃ (s : State ℕ ℕ ℕ) (rest : List (Action ℕ ℕ ℕ)) (s' : State ℕ ℕ ℕ),
    Run.exec step State.init notifiedRun = some s ∧ (s.pc 0).waits = true ∧ (∀ a ∈ rest, a.Inner) ∧
      Run.exec step s rest = some s' ∧ (s'.pc 0).waits = false := by
  have hrun : Run.exec step State.init notifiedRun = some _ := rfl
  obtain ⟨rest, s', hinner, hrest, hend⟩ := wait_can_end hrun rfl (t := 0) rfl
  exact ⟨_, rest, s', hrun, rfl, hinner, hrest, hend⟩

end WakeUps
end LspClient
