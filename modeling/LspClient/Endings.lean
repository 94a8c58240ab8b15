/-
# How a session ends

The context managers around a server process, from the inside out: the body of
the session; its end, which of `Client.__asynccontextmanager__` waits for the
pending requests and sends `shutdown` and `exit`, and of `unmanaged` and
`inspect_capabilities` does nothing; the task group of `StreamServer.run`, in
which `_dispatch` reads packages until the stream ends; and the `finally` of
`LocalServer.run_process`, which terminates the process, waits, and kills it.

A group is left without an exception only when its tasks are done. So before
the process is terminated the stream has to end, and that is for the server to
do: a session in which nobody tells it to exit does not come to a normal end
(`can_end_iff`). This is so of every `inspect_capabilities`. A process that is
still running when its session has ended was left by a cancellation, which does
not wait for it (`ended_process`).

The server closes its stream only by exiting. It sends nothing whose handling can
only raise or wait for ever, so each task of the group can come to its end; and
no request has left its entry behind, so the pending requests can be completed.

Key definitions: `Kind`, `Phase`, `step`, `Loyal`, `CanEnd`, `Tells`.
Key theorems: `step_cases`, `inv_step`, `ended_process`, `tells_of_step`, `can_end_iff`.
-/
import LspClient.Lib.Run
import Mathlib.Tactic.Common

namespace LspClient
namespace Endings

open Run

/-! ### The system -/

/-- How the session is run. -/
inductive Kind where
  /-- `async with client`. -/
  | managed
  /-- `async with client.unmanaged()`. -/
  | unmanaged
  /-- `inspect_capabilities`. -/
  | inspect
  deriving DecidableEq, Repr

/-- Where the session stands. -/
inductive Phase where
  | body
  /-- In the `finally` of a managed session. -/
  | finishing
  /-- The body is left: the group of `run` waits for its tasks. -/
  | joining
  /-- Before the `finally` of `run_process`. -/
  | releasing
  /-- `await self._process.wait()`. -/
  | waiting
  | ended
  deriving DecidableEq, Repr

/-- The group of `run` is entered and not left. -/
def Phase.inGroup : Phase → Bool
  | .body | .finishing | .joining => true
  | _ => false

@[simp] theorem Phase.inGroup_body : Phase.body.inGroup = true := rfl
@[simp] theorem Phase.inGroup_finishing : Phase.finishing.inGroup = true := rfl
@[simp] theorem Phase.inGroup_joining : Phase.joining.inGroup = true := rfl
@[simp] theorem Phase.inGroup_releasing : Phase.releasing.inGroup = false := rfl
@[simp] theorem Phase.inGroup_waiting : Phase.waiting.inGroup = false := rfl
@[simp] theorem Phase.inGroup_ended : Phase.ended.inGroup = false := rfl

structure State where
  kind : Kind
  phase : Phase
  /-- The server process; its stream ends when it exits. -/
  running : Bool
  /-- `_dispatch` reads. -/
  reading : Bool
  /-- The tasks of `_handle_package`. -/
  handlers : ℕ
  /-- `exit` was sent. -/
  told : Bool
  /-- The process was terminated. -/
  signalled : Bool
  /-- The scope around the session was cancelled. -/
  cancelled : Bool
  /-- The session ends with an exception. -/
  raised : Bool
  deriving DecidableEq, Repr

/-- The session begins, with the server started. -/
def State.init (kind : Kind) : State :=
  ⟨kind, .body, true, true, 0, false, false, false, false⟩

/-- An exception passes through the group of `run`: its tasks are cancelled. -/
def State.abort (s : State) : State :=
  { s with phase := .releasing, reading := false, handlers := 0, raised := true }

inductive Action where
  /-- A package is read, and a task handles it. -/
  | arrive
  | handled
  /-- `_dispatch` meets the end of the stream. -/
  | eof
  /-- The server exits. -/
  | exits
  /-- The body of an unmanaged session sends `exit`. -/
  | tell
  /-- The body ends, or raises. -/
  | leave (raises : Bool)
  /-- The pending requests are completed, `shutdown` is answered and `exit` sent. -/
  | complete
  /-- One of these fails, or takes too long. -/
  | giveUp
  /-- A task of the group raises. -/
  | taskFails
  /-- The tasks of the group are done. -/
  | join
  /-- The scope around the session is cancelled. -/
  | cancel
  | terminate
  /-- The process has exited. -/
  | reap
  /-- `shutdown_timeout` is over. -/
  | kill
  /-- The wait is cancelled. -/
  | abandon
  deriving DecidableEq, Repr

/-- One step. -/
def step (s : State) : Action → Option State
  | .arrive => if s.reading then some { s with handlers := s.handlers + 1 } else none
  | .handled => if 0 < s.handlers then some { s with handlers := s.handlers - 1 } else none
  | .eof => if s.reading ∧ !s.running then some { s with reading := false } else none
  | .exits => if s.running then some { s with running := false } else none
  | .tell =>
    if s.kind = .unmanaged ∧ s.phase = .body ∧ s.running then some { s with told := true } else none
  | .leave raises =>
    if s.phase = .body then
      if s.kind = .managed then some { s with phase := .finishing, raised := raises }
      else if raises then some s.abort
      else some { s with phase := .joining }
    else none
  | .complete =>
    if s.phase = .finishing ∧ s.running ∧ s.reading then
      if s.raised then some { s with told := true }.abort
      else some { s with told := true, phase := .joining }
    else none
  | .giveUp => if s.phase = .finishing then some s.abort else none
  | .taskFails =>
    if s.phase.inGroup ∧ (s.reading ∨ 0 < s.handlers) then some s.abort else none
  | .join =>
    if s.phase = .joining ∧ !s.reading ∧ s.handlers = 0 then some { s with phase := .releasing } else none
  | .cancel =>
    if s.phase.inGroup then some { s.abort with cancelled := true }
    else if s.phase = .ended then none
    else some { s with cancelled := true, raised := true }
  | .terminate =>
    if s.phase = .releasing then
      some { s with phase := .waiting, signalled := s.signalled || s.running }
    else none
  | .reap => if s.phase = .waiting ∧ !s.running then some { s with phase := .ended } else none
  | .kill =>
    if s.phase = .waiting ∧ s.running ∧ !s.cancelled then
      some { s with phase := .ended, running := false }
    else none
  | .abandon => if s.phase = .waiting ∧ s.cancelled then some { s with phase := .ended } else none

/-- What each action does, and when. -/
inductive Steps (s : State) : Action → State → Prop where
  | arrive (h : s.reading = true) : Steps s .arrive { s with handlers := s.handlers + 1 }
  | handled (h : 0 < s.handlers) : Steps s .handled { s with handlers := s.handlers - 1 }
  | eof (h : s.reading = true) (hexited : s.running = false) : Steps s .eof { s with reading := false }
  | exits (h : s.running = true) : Steps s .exits { s with running := false }
  | tell (hkind : s.kind = .unmanaged) (hphase : s.phase = .body) (h : s.running = true) :
      Steps s .tell { s with told := true }
  | finish {raises : Bool} (hphase : s.phase = .body) (hkind : s.kind = .managed) :
      Steps s (.leave raises) { s with phase := .finishing, raised := raises }
  | leave (hphase : s.phase = .body) (hkind : s.kind ≠ .managed) :
      Steps s (.leave false) { s with phase := .joining }
  | raises (hphase : s.phase = .body) (hkind : s.kind ≠ .managed) : Steps s (.leave true) s.abort
  | complete (hphase : s.phase = .finishing) (h : s.running = true) (hread : s.reading = true)
      (hraised : s.raised = false) : Steps s .complete { s with told := true, phase := .joining }
  | completeRaised (hphase : s.phase = .finishing) (h : s.running = true) (hread : s.reading = true)
      (hraised : s.raised = true) : Steps s .complete { s with told := true }.abort
  | giveUp (hphase : s.phase = .finishing) : Steps s .giveUp s.abort
  | taskFails (hphase : s.phase.inGroup = true) : Steps s .taskFails s.abort
  | join (hphase : s.phase = .joining) (hread : s.reading = false) (hhandlers : s.handlers = 0) :
      Steps s .join { s with phase := .releasing }
  | cancelGroup (hphase : s.phase.inGroup = true) : Steps s .cancel { s.abort with cancelled := true }
  | cancel (hphase : s.phase.inGroup = false) (hended : s.phase ≠ .ended) :
      Steps s .cancel { s with cancelled := true, raised := true }
  | terminate (hphase : s.phase = .releasing) :
      Steps s .terminate { s with phase := .waiting, signalled := s.signalled || s.running }
  | reap (hphase : s.phase = .waiting) (hexited : s.running = false) :
      Steps s .reap { s with phase := .ended }
  | kill (hphase : s.phase = .waiting) (h : s.running = true) :
      Steps s .kill { s with phase := .ended, running := false }
  | abandon (hphase : s.phase = .waiting) (hcancelled : s.cancelled = true) :
      Steps s .abandon { s with phase := .ended }

theorem step_cases {s t : State} {a : Action} (h : step s a = some t) : Steps s a t := by
  cases a with
  | leave raises =>
    simp only [step] at h
    split_ifs at h with hphase hkind hraises
    · cases h
      exact .finish hphase hkind
    · cases h
      exact hraises ▸ .raises hphase hkind
    · cases h
      exact Bool.eq_false_iff.mpr hraises ▸ .leave hphase hkind
  | complete =>
    simp only [step] at h
    split_ifs at h with hwhen hraised
    · cases h
      exact .completeRaised hwhen.1 hwhen.2.1 hwhen.2.2 hraised
    · cases h
      exact .complete hwhen.1 hwhen.2.1 hwhen.2.2 (Bool.eq_false_iff.mpr hraised)
  | cancel =>
    simp only [step] at h
    split_ifs at h with hgroup hended
    · cases h
      exact .cancelGroup hgroup
    · cases h
      exact .cancel (Bool.eq_false_iff.mpr hgroup) hended
  | _ =>
    simp only [step] at h
    split_ifs at h with hwhen
    cases h
    constructor <;> simp_all

/-! ### What holds in every session -/

structure Inv (s : State) : Prop where
  finishing : s.phase = .finishing → s.kind = .managed
  /-- The process is waited for when it has exited, or was terminated. -/
  waiting : s.phase = .waiting → s.running = true → s.signalled = true
  ended : s.phase = .ended → s.running = true → s.cancelled = true ∧ s.signalled = true
  cancelled : s.cancelled = true → s.raised = true ∧ s.phase.inGroup = false
  /-- In the group, reading stops at the end of the stream. -/
  reading : s.phase.inGroup = true → s.reading = false → s.running = false
  /-- Without an exception, the group is left when the process has exited. -/
  normal : s.raised = false → s.phase.inGroup = false → s.running = false ∧ s.signalled = false
  unsignalled : s.phase.inGroup = true ∨ s.phase = .releasing → s.signalled = false

theorem inv_init (kind : Kind) : Inv (State.init kind) :=
  ⟨nofun, nofun, nofun, nofun, nofun, nofun, fun _ => rfl⟩

theorem inv_step {s t : State} {a : Action} (h : Inv s) (ht : step s a = some t) : Inv t := by
  obtain ⟨hfinishing, hwaiting, hended, hcancelled, hreading, hnormal, hunsignalled⟩ := h
  cases step_cases ht <;> constructor <;> simp_all [State.abort]

theorem inv_run {kind : Kind} {as : List Action} {s : State} (h : exec step (State.init kind) as = some s) :
    Inv s :=
  exec_inv_history (I := fun _ s => Inv s) (fun _ _ _ _ hs ht => inv_step hs ht) as (inv_init kind) h

/-- **What is left of the server.** A session that has come to a normal end has
never signalled its process, which has exited; and after any other end, whatever
the server does, the process is not running unless the scope around the session
was cancelled, and then it was terminated. -/
theorem ended_process {kind : Kind} {as : List Action} {s : State}
    (h : exec step (State.init kind) as = some s) (hended : s.phase = .ended) :
    (s.raised = false → s.running = false ∧ s.signalled = false) ∧
      (s.running = true → s.cancelled = true ∧ s.signalled = true) :=
  ⟨fun hraised => (inv_run h).normal hraised (by rw [hended]; rfl), (inv_run h).ended hended⟩

/-- A server that does not stop when terminated, and a session that is cancelled. -/
theorem ended_process_left : ∃ s, exec step (State.init .managed) [.cancel, .terminate, .abandon] = some s ∧
    s.phase = .ended ∧ s.running = true ∧ s.signalled = true := by
  refine ⟨_, rfl, rfl, rfl, ?_⟩
  exact ((@ended_process .managed [.cancel, .terminate, .abandon] _ rfl rfl).2 rfl).2

/-! ### Sessions that come to a normal end -/

/-- The server exits when it is told to, or terminated, and not before. -/
def Loyal (s : State) : Action → Prop
  | .exits => s.told = true ∨ s.signalled = true
  | _ => True

structure LoyalInv (s : State) : Prop extends Inv s where
  exited : s.running = false → s.told = true ∨ s.signalled = true
  told : s.told = true → s.kind ≠ .inspect ∧ (s.kind = .managed → s.phase ≠ .body ∧ s.phase ≠ .finishing)

theorem loyalInv_init (kind : Kind) : LoyalInv (State.init kind) := ⟨inv_init kind, nofun, nofun⟩

theorem loyalInv_step {s t : State} {a : Action} (h : LoyalInv s) (ha : Loyal s a) (ht : step s a = some t) :
    LoyalInv t := by
  refine ⟨inv_step h.toInv ht, ?_, ?_⟩
  · have hexited := h.exited
    have hwaiting := h.waiting
    cases step_cases ht <;> simp_all [State.abort, Loyal]
  · have htold := h.told
    have hfinishing := h.finishing
    cases step_cases ht <;> simp_all [State.abort]

/-- The server was told to exit, or the session is still to tell it. -/
def Tells (s : State) : Prop :=
  s.told = true ∨ s.kind = .managed ∧ (s.phase = .body ∨ s.phase = .finishing) ∨
    s.kind = .unmanaged ∧ s.phase = .body

/-- The session can come to a normal end, with a loyal server. -/
def CanEnd (s : State) : Prop :=
  ∃ as t, Along step Loyal s as ∧ exec step s as = some t ∧ t.phase = .ended ∧ t.raised = false

/-- A session that no longer tells the server does not come to tell it. -/
theorem tells_of_step {s t : State} {a : Action} (h : Inv s) (ht : step s a = some t) (htells : Tells t) :
    Tells s := by
  have hfinishing := h.finishing
  unfold Tells at *
  cases step_cases ht <;> simp_all [State.abort]

theorem tells_of_exec : ∀ {as : List Action} {s t : State}, Inv s → exec step s as = some t → Tells t →
    Tells s
  | [], _, _, _, h, htells => Option.some.inj h ▸ htells
  | a :: as, s, t, hs, h, htells => by
    obtain ⟨u, hu, hrest⟩ := exec_cons_elim h
    exact tells_of_step hs hu (tells_of_exec (inv_step hs hu) hrest htells)

theorem CanEnd.of_step {s t : State} {a : Action} (ht : step s a = some t) (ha : Loyal s a) (h : CanEnd t) :
    CanEnd s := by
  obtain ⟨as, u, hloyal, hrun, hend⟩ := h
  exact ⟨a :: as, u, (along_cons ht).mpr ⟨ha, hloyal⟩, (exec_cons ht).mpr hrun, hend⟩

section CanEnd

variable {s : State}

theorem canEnd_ended (hphase : s.phase = .ended) (hraised : s.raised = false) : CanEnd s :=
  ⟨[], s, trivial, rfl, hphase, hraised⟩

theorem canEnd_waiting (hphase : s.phase = .waiting) (hexited : s.running = false)
    (hraised : s.raised = false) : CanEnd s := by
  have ht : step s .reap = some { s with phase := .ended } := if_pos ⟨hphase, by rw [hexited]; rfl⟩
  exact .of_step ht trivial (canEnd_ended rfl hraised)

theorem canEnd_releasing (hphase : s.phase = .releasing) (hexited : s.running = false)
    (hraised : s.raised = false) : CanEnd s := by
  have ht : step s .terminate = some { s with phase := .waiting, signalled := s.signalled || s.running } :=
    if_pos hphase
  exact .of_step ht trivial (canEnd_waiting rfl hexited hraised)

/-- The stream has ended: what is left are the tasks of the group. -/
theorem canEnd_drained : ∀ {n : ℕ} {s : State}, s.handlers = n → s.phase = .joining →
    s.running = false → s.reading = false → s.raised = false → CanEnd s
  | 0, s, hhandlers, hphase, hexited, hread, hraised => by
    have ht : step s .join = some { s with phase := .releasing } :=
      if_pos ⟨hphase, by rw [hread]; rfl, hhandlers⟩
    exact .of_step ht trivial (canEnd_releasing rfl hexited hraised)
  | n + 1, s, hhandlers, hphase, hexited, hread, hraised => by
    have ht : step s .handled = some { s with handlers := s.handlers - 1 } := if_pos (by omega)
    have hn : s.handlers - 1 = n := by omega
    exact .of_step ht trivial (canEnd_drained hn hphase hexited hread hraised)

theorem canEnd_exited (hphase : s.phase = .joining) (hexited : s.running = false)
    (hraised : s.raised = false) : CanEnd s := by
  cases hread : s.reading with
  | false => exact canEnd_drained rfl hphase hexited hread hraised
  | true =>
    have ht : step s .eof = some { s with reading := false } := if_pos ⟨hread, by rw [hexited]; rfl⟩
    exact .of_step ht trivial (canEnd_drained rfl hphase hexited rfl hraised)

/-- The server is told to exit, and the group waits. -/
theorem canEnd_joining (hphase : s.phase = .joining) (htold : s.told = true) (hraised : s.raised = false) :
    CanEnd s := by
  cases hrunning : s.running with
  | false => exact canEnd_exited hphase hrunning hraised
  | true =>
    have ht : step s .exits = some { s with running := false } := if_pos hrunning
    exact .of_step ht (Or.inl htold) (canEnd_exited hphase rfl hraised)

/-- In the group, the server runs and is read from until it is told to exit. -/
theorem LoyalInv.untold (h : LoyalInv s) (hphase : s.phase.inGroup = true) (htold : s.told = false) :
    s.running = true ∧ s.reading = true := by
  have hrunning : s.running = true := by
    by_contra hexited
    obtain hs | hs := h.exited (Bool.eq_false_iff.mpr hexited)
    · rw [htold] at hs
      cases hs
    · rw [h.unsignalled (Or.inl hphase)] at hs
      cases hs
  refine ⟨hrunning, ?_⟩
  by_contra hread
  rw [h.reading hphase (Bool.eq_false_iff.mpr hread)] at hrunning
  cases hrunning

theorem canEnd_finishing (h : LoyalInv s) (hphase : s.phase = .finishing) (hraised : s.raised = false) :
    CanEnd s := by
  have htold : s.told = false := by
    by_contra htold
    exact ((h.told (eq_true_of_ne_false htold)).2 (h.finishing hphase)).2 hphase
  obtain ⟨hrunning, hread⟩ := h.untold (by rw [hphase]; rfl) htold
  have ht : step s .complete = some { s with told := true, phase := .joining } := by
    rw [step, if_pos ⟨hphase, hrunning, hread⟩, if_neg (by rw [hraised]; decide)]
  exact .of_step ht trivial (canEnd_joining rfl rfl hraised)

theorem canEnd_body (h : LoyalInv s) (hphase : s.phase = .body) (htells : Tells s)
    (hraised : s.raised = false) : CanEnd s := by
  cases hkind : s.kind with
  | managed =>
    have ht : step s (.leave false) = some { s with phase := .finishing, raised := false } := by
      rw [step, if_pos hphase, if_pos hkind]
    exact .of_step ht trivial (canEnd_finishing (loyalInv_step (a := .leave false) h trivial ht) rfl rfl)
  | unmanaged =>
    have hleave : ∀ {s : State}, s.phase = .body → s.kind = .unmanaged → s.told = true →
        s.raised = false → CanEnd s := by
      intro s hphase hkind htold hraised
      have ht : step s (.leave false) = some { s with phase := .joining } := by
        rw [step, if_pos hphase, if_neg (by rw [hkind]; decide)]
        rfl
      exact .of_step ht trivial (canEnd_joining rfl htold hraised)
    cases htold : s.told with
    | true => exact hleave hphase hkind htold hraised
    | false =>
      have hrunning := (h.untold (by rw [hphase]; rfl) htold).1
      have ht : step s .tell = some { s with told := true } := if_pos ⟨hkind, hphase, hrunning⟩
      exact .of_step ht trivial (hleave hphase hkind rfl hraised)
  | inspect =>
    -- nobody tells the server
    obtain htold | ⟨hmanaged, -⟩ | ⟨hunmanaged, -⟩ := htells
    · exact absurd hkind (h.told htold).1
    · rw [hkind] at hmanaged
      cases hmanaged
    · rw [hkind] at hunmanaged
      cases hunmanaged

end CanEnd

/-- **A session can come to a normal end exactly if somebody tells the server to
exit.** In a managed session this is its own end, in an unmanaged one the body,
and in `inspect_capabilities` nobody. -/
theorem can_end_iff {kind : Kind} {as : List Action} {s : State}
    (hrun : exec step (State.init kind) as = some s) (hloyal : Along step Loyal (State.init kind) as)
    (hraised : s.raised = false) : CanEnd s ↔ Tells s := by
  have hs : LoyalInv s := exec_inv_along (fun _ _ _ h ha ht => loyalInv_step h ha ht) as (loyalInv_init kind)
    hloyal hrun
  constructor
  · rintro ⟨as', t, hloyal', hrun', hended, hnormal⟩
    have ht : LoyalInv t := exec_inv_along (fun _ _ _ h ha ht => loyalInv_step h ha ht) as' hs hloyal' hrun'
    obtain ⟨hexited, hunsignalled⟩ := ht.normal hnormal (by rw [hended]; rfl)
    have htold : t.told = true := (ht.exited hexited).resolve_right (by rw [hunsignalled]; decide)
    exact tells_of_exec hs.toInv hrun' (Or.inl htold)
  · intro htells
    have hleft : s.phase.inGroup = false → s.running = false := fun hphase => (hs.normal hraised hphase).1
    cases hphase : s.phase with
    | body => exact canEnd_body hs hphase htells hraised
    | finishing => exact canEnd_finishing hs hphase hraised
    | joining =>
      have htold : s.told = true := by simpa [Tells, hphase] using htells
      exact canEnd_joining hphase htold hraised
    | releasing => exact canEnd_releasing hphase (hleft (by rw [hphase]; rfl)) hraised
    | waiting => exact canEnd_waiting hphase (hleft (by rw [hphase]; rfl)) hraised
    | ended => exact canEnd_ended hphase hraised

/-- An inspection cannot come to a normal end, and the two sessions can. -/
theorem can_end_inspect : ¬ CanEnd (.init .inspect) ∧ CanEnd (.init .managed) ∧ CanEnd (.init .unmanaged) := by
  have hiff : ∀ kind, CanEnd (.init kind) ↔ Tells (.init kind) := fun kind =>
    @can_end_iff kind [] _ rfl trivial rfl
  refine ⟨fun h => ?_, (hiff _).mpr (Or.inr (Or.inl ⟨rfl, Or.inl rfl⟩)), (hiff _).mpr (Or.inr (Or.inr ⟨rfl, rfl⟩))⟩
  obtain htold | ⟨hmanaged, -⟩ | ⟨hunmanaged, -⟩ := (hiff _).mp h
  · cases htold
  · cases hmanaged
  · cases hunmanaged

end Endings
end LspClient
