/-
# Condition variables

A condition is a lock and the tasks that wait to be notified. A task that holds
the lock may wait: it is registered, then the lock is let go, and once it has
been notified it asks for the lock again. Whoever asks for the lock gets it when
it is free, in an order that is left open.

A monitor is the common use of one. A task that waits for a goal takes the lock,
looks whether the goal is met, and waits as long as it is not. The goal may be
met and lost again at any time, by tasks that do not hold the lock, but a task
that meets it takes the lock afterwards and notifies all. No wake-up is lost so:
while the goal is met and no task is on the way to notify, no task waits that
has not been notified (`Monitor.Sound`), and a wait that ends has found the goal
met (`Monitor.Step.goal_of_end`).

Key definitions: `Condition`, `Phase`, `Monitor`, `Monitor.Step`, `Monitor.Sound`.
Key theorems: `Monitor.Step.sound`, `Monitor.Step.goal_of_end`.
-/
import Mathlib.Logic.Function.Basic
import Mathlib.Logic.Relation
import Mathlib.Data.List.Basic

namespace LspClient

/-- Who has the lock, and who is registered and has not been notified. -/
structure Condition (τ : Type*) where
  owner : Option τ
  waiters : List τ
  deriving DecidableEq, Repr

namespace Condition

variable {τ : Type*} [DecidableEq τ]

def free : Condition τ := ⟨none, []⟩

/-- Task `t` takes the lock; it cannot while another has it. -/
def acquire (c : Condition τ) (t : τ) : Option (Condition τ) :=
  if c.owner = none then some { c with owner := some t } else none

/-- Task `t` lets the lock go. This and what follows raise if it has not got it. -/
def release (c : Condition τ) (t : τ) : Option (Condition τ) :=
  if c.owner = some t then some { c with owner := none } else none

/-- Task `t` is registered before the lock is let go. -/
def wait (c : Condition τ) (t : τ) : Option (Condition τ) :=
  if c.owner = some t then release { c with waiters := c.waiters ++ [t] } t else none

def notifyAll (c : Condition τ) (t : τ) : Option (Condition τ) :=
  if c.owner = some t then some { c with waiters := [] } else none

omit [DecidableEq τ] in
theorem acquire_eq_some {c c' : Condition τ} {t : τ} :
    c.acquire t = some c' ↔ c.owner = none ∧ c' = ⟨some t, c.waiters⟩ := by
  rw [acquire, Option.ite_none_right_eq_some, Option.some.injEq, eq_comm (b := c')]

theorem release_eq_some {c c' : Condition τ} {t : τ} :
    c.release t = some c' ↔ c.owner = some t ∧ c' = ⟨none, c.waiters⟩ := by
  rw [release, Option.ite_none_right_eq_some, Option.some.injEq, eq_comm (b := c')]

theorem wait_eq_some {c c' : Condition τ} {t : τ} :
    c.wait t = some c' ↔ c.owner = some t ∧ c' = ⟨none, c.waiters ++ [t]⟩ := by
  rw [wait, Option.ite_none_right_eq_some, release_eq_some]
  exact ⟨fun h => ⟨h.1, h.2.2⟩, fun h => ⟨h.1, h.1, h.2⟩⟩

theorem notifyAll_eq_some {c c' : Condition τ} {t : τ} :
    c.notifyAll t = some c' ↔ c.owner = some t ∧ c' = ⟨some t, []⟩ := by
  rw [notifyAll, Option.ite_none_right_eq_some, Option.some.injEq, eq_comm (b := c')]
  exact and_congr_right fun h => by rw [h]

end Condition

/-- What a task wants the lock for. -/
inductive Duty where
  | notify
  /-- To look whether the goal is met. -/
  | check
  deriving DecidableEq, Repr

/-- Where a task stands towards the condition. -/
inductive Phase where
  | outside
  | locking (d : Duty)
  | holding (d : Duty)
  /-- Has found the goal not met; has the lock, and is not registered yet. -/
  | registering
  /-- Registered, or notified and about to ask for the lock again. -/
  | waiting
  deriving DecidableEq, Repr

namespace Phase

def holds : Phase → Bool
  | .holding _ | .registering => true
  | _ => false

/-- Is the task on the way to notify? -/
def notifies : Phase → Bool
  | .locking .notify | .holding .notify => true
  | _ => false

/-- Does the task wait for the goal? -/
def waits : Phase → Bool
  | .locking .check | .holding .check | .registering | .waiting => true
  | _ => false

end Phase

/-- The tasks, their condition, and whether the goal is met. -/
structure Monitor (τ : Type*) where
  phase : τ → Phase
  condition : Condition τ
  goal : Bool

namespace Monitor

variable {τ : Type*} [DecidableEq τ]

def setPhase (m : Monitor τ) (t : τ) (p : Phase) : Monitor τ :=
  { m with phase := Function.update m.phase t p }

@[simp] theorem setPhase_condition (m : Monitor τ) (t : τ) (p : Phase) :
    (m.setPhase t p).condition = m.condition := rfl

@[simp] theorem setPhase_self (m : Monitor τ) (t : τ) (p : Phase) : (m.setPhase t p).phase t = p := by
  simp [setPhase]

theorem setPhase_ne (m : Monitor τ) {t u : τ} (p : Phase) (h : u ≠ t) :
    (m.setPhase t p).phase u = m.phase u := by
  simp [setPhase, h]

theorem setPhase_eq (m : Monitor τ) {t : τ} {p : Phase} (h : m.phase t = p) : m.setPhase t p = m := by
  rw [setPhase, ← h, Function.update_eq_self]

/-- Does task `t` ask for the lock, for `d`? One that has been notified does, to look again. -/
def Asks (m : Monitor τ) (t : τ) (d : Duty) : Prop :=
  m.phase t = .locking d ∨ m.phase t = .waiting ∧ t ∉ m.condition.waiters ∧ d = .check

/-- Task `t` is about to wait, or waits and has not been notified. -/
def Unnotified (m : Monitor τ) (t : τ) : Prop :=
  m.phase t = .registering ∨ t ∈ m.condition.waiters

/-- The steps of a task that has to do with the condition. -/
inductive Inner (m : Monitor τ) : Monitor τ → Prop
  | acquire (t : τ) (d : Duty) (c : Condition τ) : m.Asks t d → m.condition.acquire t = some c →
    Inner m ({ m with condition := c }.setPhase t (.holding d))
  | notify (t : τ) (c c' : Condition τ) : m.phase t = .holding .notify →
    m.condition.notifyAll t = some c → c.release t = some c' →
    Inner m ({ m with condition := c' }.setPhase t .outside)
  | leave (t : τ) (c : Condition τ) : m.phase t = .holding .check → m.goal = true →
    m.condition.release t = some c → Inner m ({ m with condition := c }.setPhase t .outside)
  | refuse (t : τ) : m.phase t = .holding .check → m.goal = false → Inner m (m.setPhase t .registering)
  | register (t : τ) (c : Condition τ) : m.phase t = .registering → m.condition.wait t = some c →
    Inner m ({ m with condition := c }.setPhase t .waiting)

/-- The steps. -/
inductive Step (m : Monitor τ) : Monitor τ → Prop
  /-- The goal may be lost. -/
  | lose (goal : Bool) : (goal = true → m.goal = true) → Step m { m with goal := goal }
  /-- The goal may have been met: the task goes on to notify. -/
  | meet (t : τ) (goal : Bool) : m.phase t = .outside →
    Step m ({ m with goal := goal }.setPhase t (.locking .notify))
  | enter (t : τ) : m.phase t = .outside → Step m (m.setPhase t (.locking .check))
  | inner {m' : Monitor τ} : Inner m m' → Step m m'

/-- Nothing changes. -/
theorem Step.refl (m : Monitor τ) : m.Step m := Step.lose m.goal id

omit [DecidableEq τ] in
/-- A task that waits asks for the lock to look again. -/
theorem Asks.check_of_waits {m : Monitor τ} {t : τ} {d : Duty} (h : m.Asks t d)
    (hw : (m.phase t).waits = true) : d = .check := by
  rcases h with hp | ⟨-, -, hd⟩
  · rw [hp] at hw
    cases d with
    | notify => cases hw
    | check => rfl
  · exact hd

/-- **A wait ends only when the goal is met.** -/
theorem Step.goal_of_end {m m' : Monitor τ} (h : Step m m') {t : τ} (hw : (m.phase t).waits = true)
    (hend : (m'.phase t).waits = false) : m.goal = true ∧ m'.goal = true := by
  -- only a step of the task itself ends its wait
  have hself {n : Monitor τ} {u : τ} {p : Phase} (hn : n.phase = m.phase)
      (hp : ((n.setPhase u p).phase t).waits = false) : u = t ∧ p.waits = false := by
    by_cases hu : t = u
    · subst hu
      exact ⟨rfl, by rwa [setPhase_self] at hp⟩
    · rw [setPhase_ne n p hu, hn, hw] at hp
      cases hp
  cases h with
  | lose goal hgoal => exact absurd (hw.symm.trans hend) nofun
  | meet u goal hu =>
    obtain ⟨rfl, -⟩ := hself (by rfl) hend
    rw [hu] at hw
    cases hw
  | enter u hu => exact absurd (hself (by rfl) hend).2 nofun
  | inner h =>
    cases h with
    | acquire u d c ha hc =>
      obtain ⟨rfl, hd⟩ := hself (by rfl) hend
      rw [ha.check_of_waits hw] at hd
      cases hd
    | notify u c c' hu hc hc' =>
      obtain ⟨rfl, -⟩ := hself (by rfl) hend
      rw [hu] at hw
      cases hw
    | leave u c hu hgoal hc => exact ⟨hgoal, hgoal⟩
    | refuse u hu hgoal => exact absurd (hself (by rfl) hend).2 nofun
    | register u c hu hc => exact absurd (hself (by rfl) hend).2 nofun

/-- The invariant: the owner is who acts under the lock, those registered wait,
and who is not notified will be, or the goal is not met. -/
structure Sound (m : Monitor τ) : Prop where
  owned : ∀ t, m.condition.owner = some t ↔ (m.phase t).holds = true
  registered : ∀ t ∈ m.condition.waiters, m.phase t = .waiting
  notified : m.goal = true → (∀ t, (m.phase t).notifies = false) → ∀ t, ¬m.Unnotified t

/-- Nobody has come yet. -/
def start (goal : Bool) : Monitor τ := ⟨fun _ => .outside, Condition.free, goal⟩

omit [DecidableEq τ] in
theorem sound_start (goal : Bool) : Sound (start goal : Monitor τ) :=
  ⟨fun _ => ⟨nofun, nofun⟩, nofun, fun _ _ _ h => h.elim nofun nofun⟩

omit [DecidableEq τ] in
/-- Who is not waiting is not registered. -/
theorem Sound.not_registered {m : Monitor τ} (h : Sound m) {t : τ} (ht : m.phase t ≠ .waiting) :
    t ∉ m.condition.waiters :=
  fun hmem => ht (h.registered t hmem)

omit [DecidableEq τ] in
/-- Who asks for the lock is not registered. -/
theorem Sound.not_registered_of_asks {m : Monitor τ} (h : Sound m) {t : τ} {d : Duty} (ha : m.Asks t d) :
    t ∉ m.condition.waiters := by
  rcases ha with hp | ⟨-, ht, -⟩
  · exact h.not_registered (by rw [hp]; nofun)
  · exact ht

/-- The owner after a step of task `t`, if it is right about `t` and about the others. -/
theorem Sound.owned_setPhase {m n : Monitor τ} (h : Sound m) {t : τ} {p : Phase} (hn : n.phase = m.phase)
    (hothers : ∀ u, u ≠ t → (n.condition.owner = some u ↔ m.condition.owner = some u))
    (hself : n.condition.owner = some t ↔ p.holds = true) (u : τ) :
    (n.setPhase t p).condition.owner = some u ↔ ((n.setPhase t p).phase u).holds = true := by
  rw [setPhase_condition]
  by_cases hu : u = t
  · subst hu
    rw [setPhase_self, hself]
  · rw [setPhase_ne n p hu, hothers u hu, hn, h.owned u]

/-- Nobody owns the lock after a step of the owner that lets it go. -/
theorem Sound.owned_release {m : Monitor τ} (h : Sound m) {t : τ} {p : Phase} (hown : m.condition.owner = some t)
    (hp : p.holds = false) (waiters : List τ) (u : τ) :
    (({ m with condition := ⟨none, waiters⟩ }).setPhase t p).condition.owner = some u ↔
      ((({ m with condition := ⟨none, waiters⟩ }).setPhase t p).phase u).holds = true := by
  refine h.owned_setPhase (n := { m with condition := ⟨none, waiters⟩ }) rfl (fun v hv => ?_) ?_ u
  · simp [hown, hv.symm]
  · simp [hp]

/-- Those registered after a step of a task that has not been. -/
theorem Sound.registered_setPhase {m n : Monitor τ} (h : Sound m) {t : τ} {p : Phase} (hn : n.phase = m.phase)
    (hsub : ∀ u ∈ n.condition.waiters, u ∈ m.condition.waiters) (ht : t ∉ m.condition.waiters) :
    ∀ u ∈ (n.setPhase t p).condition.waiters, (n.setPhase t p).phase u = .waiting := by
  intro u hu
  have hum := hsub u hu
  have hne : u ≠ t := fun he => ht (he ▸ hum)
  rw [setPhase_ne n p hne, hn, h.registered u hum]

/-- Nobody is forgotten by a step of a task that does not meet the goal, does not give up notifying
and is not about to wait. -/
theorem Sound.notified_setPhase {m n : Monitor τ} (h : Sound m) {t : τ} {p : Phase} (hn : n.phase = m.phase)
    (hgoal : n.goal = true → m.goal = true) (hsub : ∀ u ∈ n.condition.waiters, u ∈ m.condition.waiters)
    (hnotifies : (m.phase t).notifies = true → p.notifies = true) (hp : p ≠ .registering) :
    (n.setPhase t p).goal = true → (∀ u, ((n.setPhase t p).phase u).notifies = false) →
      ∀ u, ¬(n.setPhase t p).Unnotified u := by
  intro hg hno u hu
  have hnone : ∀ v, (m.phase v).notifies = false := by
    intro v
    have hv := hno v
    by_cases hvt : v = t
    · subst hvt
      rw [setPhase_self] at hv
      by_contra hm
      exact absurd (hnotifies (by simpa using hm)) (by simp [hv])
    · rwa [setPhase_ne n p hvt, hn] at hv
  refine h.notified (hgoal hg) hnone u ?_
  rcases hu with hreg | hmem
  · by_cases hut : u = t
    · subst hut
      exact absurd (setPhase_self n u p ▸ hreg) hp
    · rw [setPhase_ne n p hut, hn] at hreg
      exact Or.inl hreg
  · exact Or.inr (hsub u hmem)

/-- A step of a task that has not been registered, under a lock that it has or does not want. -/
theorem Sound.setPhase {m : Monitor τ} (h : Sound m) {t : τ} {p : Phase} (hm : m.phase t ≠ .waiting)
    (hp : p.holds = (m.phase t).holds)
    (hnotified : (m.setPhase t p).goal = true → (∀ u, ((m.setPhase t p).phase u).notifies = false) →
      ∀ u, ¬(m.setPhase t p).Unnotified u) : Sound (m.setPhase t p) where
  owned := h.owned_setPhase rfl (fun _ _ => Iff.rfl) (by rw [hp, h.owned t])
  registered := h.registered_setPhase rfl (fun _ hu => hu) (h.not_registered hm)
  notified := hnotified

theorem Inner.sound {m m' : Monitor τ} (h : Sound m) (hs : Inner m m') : Sound m' := by
  cases hs with
  | acquire t d c ha hc =>
    obtain ⟨hfree, rfl⟩ := Condition.acquire_eq_some.mp hc
    refine ⟨h.owned_setPhase rfl (fun u hu => ?_) ⟨fun _ => rfl, fun _ => rfl⟩,
      h.registered_setPhase rfl (fun _ hu => hu) (h.not_registered_of_asks ha),
      h.notified_setPhase rfl id (fun _ hu => hu) (fun hn => ?_) nofun⟩
    · simp [hfree, hu.symm]
    · rcases ha with hp | ⟨hp, -, -⟩
      · rw [hp] at hn
        cases d with
        | notify => rfl
        | check => cases hn
      · rw [hp] at hn
        cases hn
  | notify t c c' ht hc hc' =>
    obtain ⟨hown, rfl⟩ := Condition.notifyAll_eq_some.mp hc
    obtain ⟨-, rfl⟩ := Condition.release_eq_some.mp hc'
    refine ⟨h.owned_release hown rfl [],
      h.registered_setPhase rfl (fun _ hu => absurd hu List.not_mem_nil) ?_, ?_⟩
    · exact h.not_registered (by rw [ht]; nofun)
    · -- nobody is registered any more, and who is about to be would have the lock
      intro _ _ u hu
      rcases hu with hreg | hmem
      · by_cases hut : u = t
        · subst hut
          rw [setPhase_self] at hreg
          cases hreg
        · rw [setPhase_ne _ _ hut] at hreg
          have hu := (h.owned u).mpr (by rw [hreg]; rfl)
          exact hut (Option.some.inj (hu.symm.trans hown))
      · exact absurd hmem List.not_mem_nil
  | leave t c ht hgoal hc =>
    obtain ⟨hown, rfl⟩ := Condition.release_eq_some.mp hc
    exact ⟨h.owned_release hown rfl m.condition.waiters,
      h.registered_setPhase rfl (fun _ hu => hu) (h.not_registered (by rw [ht]; nofun)),
      h.notified_setPhase rfl id (fun _ hu => hu) (by rw [ht]; nofun) nofun⟩
  | refuse t ht hgoal =>
    refine h.setPhase (by rw [ht]; nofun) (by rw [ht]; rfl) fun hg => ?_
    exact absurd (hgoal.symm.trans hg) nofun
  | register t c ht hc =>
    obtain ⟨hown, rfl⟩ := Condition.wait_eq_some.mp hc
    refine ⟨h.owned_release hown rfl (m.condition.waiters ++ [t]), fun u hu => ?_, fun hg hno => ?_⟩
    · by_cases hut : u = t
      · subst hut
        exact setPhase_self _ u _
      · rw [setPhase_ne _ _ hut]
        refine h.registered u ?_
        simpa [hut] using hu
    · -- while `t` has not been registered, somebody is on the way already
      have hnone : ∀ v, (m.phase v).notifies = false := by
        intro v
        by_cases hvt : v = t
        · rw [hvt, ht]
          rfl
        · have hv := hno v
          rwa [setPhase_ne _ _ hvt] at hv
      exact absurd (Or.inl ht) (h.notified hg hnone t)

/-- **No wake-up is lost.** -/
theorem Step.sound {m m' : Monitor τ} (h : Sound m) (hs : Step m m') : Sound m' := by
  cases hs with
  | lose goal hgoal =>
    exact ⟨h.owned, h.registered, fun hg => h.notified (hgoal hg)⟩
  | meet t goal ht =>
    refine ⟨h.owned_setPhase rfl (fun _ _ => Iff.rfl) ?_, h.registered_setPhase rfl (fun _ hu => hu) ?_, ?_⟩
    · rw [h.owned t, ht]
      exact Iff.rfl
    · exact h.not_registered (by rw [ht]; nofun)
    · -- the task itself is on the way
      intro _ hno
      have := hno t
      rw [setPhase_self] at this
      cases this
  | enter t ht =>
    refine h.setPhase (by rw [ht]; nofun) (by rw [ht]; rfl) ?_
    exact h.notified_setPhase rfl id (fun _ hu => hu) (by rw [ht]; nofun) nofun
  | inner hs => exact hs.sound h

/-! ### While the goal is met, every wait can end -/

theorem Inner.goal_eq {m m' : Monitor τ} (h : Inner m m') : m'.goal = m.goal := by
  cases h <;> rfl

theorem sound_of_inner {m m' : Monitor τ} (h : Sound m) (hs : Relation.ReflTransGen Inner m m') : Sound m' := by
  induction hs with
  | refl => exact h
  | tail _ hlast ih => exact hlast.sound ih

theorem goal_of_inner {m m' : Monitor τ} (hs : Relation.ReflTransGen Inner m m') : m'.goal = m.goal := by
  induction hs with
  | refl => rfl
  | tail _ hlast ih => exact hlast.goal_eq.trans ih

/-- Whoever has the lock can let it go; to the others nothing happens, or they are notified. -/
theorem Sound.exists_free {m : Monitor τ} (h : Sound m) (hg : m.goal = true) :
    ∃ m', Relation.ReflTransGen Inner m m' ∧ m'.condition.owner = none ∧
      ∀ t, (m.phase t).holds = false → m'.phase t = m.phase t := by
  cases hown : m.condition.owner with
  | none => exact ⟨m, .refl, hown, fun _ _ => rfl⟩
  | some u =>
    have hu := (h.owned u).mp hown
    -- a step of `u` that leaves the lock free
    have hstep {c : Condition τ} {p : Phase} (hc : c.owner = none)
        (hin : Inner m ({ m with condition := c }.setPhase u p)) :
        ∃ m', Relation.ReflTransGen Inner m m' ∧ m'.condition.owner = none ∧
          ∀ t, (m.phase t).holds = false → m'.phase t = m.phase t := by
      refine ⟨_, .single hin, hc, fun t ht => setPhase_ne _ p fun he => ?_⟩
      rw [he, hu] at ht
      cases ht
    cases hp : m.phase u with
    | holding d =>
      cases d with
      | notify =>
        exact hstep rfl (.notify u _ _ hp (Condition.notifyAll_eq_some.mpr ⟨hown, rfl⟩)
          (Condition.release_eq_some.mpr ⟨rfl, rfl⟩))
      | check => exact hstep rfl (.leave u _ hp hg (Condition.release_eq_some.mpr ⟨hown, rfl⟩))
    | registering => exact hstep rfl (.register u _ hp (Condition.wait_eq_some.mpr ⟨hown, rfl⟩))
    | outside | locking | waiting =>
      rw [hp] at hu
      cases hu

/-- Who asks for a free lock can get it. -/
theorem exists_acquire {m : Monitor τ} (hfree : m.condition.owner = none) {t : τ} {d : Duty} (ha : m.Asks t d) :
    ∃ n, Inner m n ∧ n.phase t = .holding d ∧ n.condition.owner = some t ∧
      ∀ u, u ≠ t → n.phase u = m.phase u :=
  ⟨_, .acquire t d _ ha (Condition.acquire_eq_some.mpr ⟨hfree, rfl⟩), setPhase_self _ t _, rfl,
    fun _ hu => setPhase_ne _ _ hu⟩

/-- Who asks for a free lock can end its wait. -/
theorem exists_end_of_asks {m : Monitor τ} (hg : m.goal = true) (hfree : m.condition.owner = none) {t : τ}
    (ha : m.Asks t .check) :
    ∃ m', Relation.ReflTransGen Inner m m' ∧ (m'.phase t).waits = false := by
  obtain ⟨n, hacq, ht, hown, -⟩ := exists_acquire hfree ha
  have hleave := Inner.leave t _ ht (hacq.goal_eq.trans hg) (Condition.release_eq_some.mpr ⟨hown, rfl⟩)
  refine ⟨_, (Relation.ReflTransGen.single hacq).tail hleave, ?_⟩
  rw [setPhase_self]
  rfl

/-- Who waits while the lock is free can be notified. -/
theorem Sound.exists_end_of_waiting {m : Monitor τ} (h : Sound m) (hg : m.goal = true)
    (hfree : m.condition.owner = none) {t : τ} (ht : m.phase t = .waiting) :
    ∃ m', Relation.ReflTransGen Inner m m' ∧ (m'.phase t).waits = false := by
  by_cases hmem : t ∈ m.condition.waiters
  · -- somebody is on the way to notify, and takes the lock
    obtain ⟨v, hv⟩ : ∃ v, (m.phase v).notifies = true := by
      by_contra hnone
      exact h.notified hg (fun v => by simpa using fun hv => hnone ⟨v, hv⟩) t (Or.inr hmem)
    have hlocking : m.phase v = .locking .notify := by
      have hholds : (m.phase v).holds ≠ true := fun hh => by
        cases hfree.symm.trans ((h.owned v).mpr hh)
      cases hp : m.phase v with
      | locking d =>
        cases d with
        | notify => rfl
        | check => simp [hp, Phase.notifies] at hv
      | holding d => exact absurd (by rw [hp]; rfl) hholds
      | outside | registering | waiting => simp [hp, Phase.notifies] at hv
    have hne : t ≠ v := fun he => by
      rw [← he, ht] at hlocking
      cases hlocking
    obtain ⟨n, hacq, hv, hown, hothers⟩ := exists_acquire hfree (Or.inl hlocking)
    have hnotify := Inner.notify v _ _ hv (Condition.notifyAll_eq_some.mpr ⟨hown, rfl⟩)
      (Condition.release_eq_some.mpr ⟨rfl, rfl⟩)
    have hpath := (Relation.ReflTransGen.single hacq).tail hnotify
    have hwaiting := (setPhase_ne { n with condition := ⟨none, []⟩ } .outside hne).trans
      ((hothers t hne).trans ht)
    obtain ⟨m', hend, hw⟩ := exists_end_of_asks ((goal_of_inner hpath).trans hg) (by rfl)
      (Or.inr ⟨hwaiting, List.not_mem_nil, rfl⟩)
    exact ⟨m', hpath.trans hend, hw⟩
  · exact exists_end_of_asks hg hfree (Or.inr ⟨ht, hmem, rfl⟩)

/-- **While the goal is met, every wait can end**: by steps under the lock, none of which loses the goal. -/
theorem Sound.exists_end {m : Monitor τ} (h : Sound m) (hg : m.goal = true) {t : τ}
    (hw : (m.phase t).waits = true) :
    ∃ m', Relation.ReflTransGen Inner m m' ∧ (m'.phase t).waits = false := by
  cases hp : m.phase t with
  | outside =>
    rw [hp] at hw
    cases hw
  | holding d =>
    obtain rfl : d = .check := by
      cases d with
      | notify => rw [hp] at hw; cases hw
      | check => rfl
    have hown := (h.owned t).mpr (by rw [hp]; rfl)
    refine ⟨_, .single (.leave t _ hp hg (Condition.release_eq_some.mpr ⟨hown, rfl⟩)), ?_⟩
    rw [setPhase_self]
    rfl
  | registering =>
    have hown := (h.owned t).mpr (by rw [hp]; rfl)
    have hreg := Inner.register t _ hp (Condition.wait_eq_some.mpr ⟨hown, rfl⟩)
    obtain ⟨m', hend, hw'⟩ := (hreg.sound h).exists_end_of_waiting (hreg.goal_eq.trans hg) (by rfl)
      (setPhase_self _ t _)
    exact ⟨m', .head hreg hend, hw'⟩
  | locking d =>
    obtain ⟨n, hpath, hfree, hsame⟩ := h.exists_free hg
    have ht : n.phase t = .locking d := (hsame t (by rw [hp]; rfl)).trans hp
    have ha : n.Asks t .check := Or.inl (Asks.check_of_waits (Or.inl hp) hw ▸ ht)
    obtain ⟨m', hend, hw'⟩ := exists_end_of_asks ((goal_of_inner hpath).trans hg) hfree ha
    exact ⟨m', hpath.trans hend, hw'⟩
  | waiting =>
    obtain ⟨n, hpath, hfree, hsame⟩ := h.exists_free hg
    have ht : n.phase t = .waiting := (hsame t (by rw [hp]; rfl)).trans hp
    obtain ⟨m', hend, hw'⟩ := (sound_of_inner h hpath).exists_end_of_waiting
      ((goal_of_inner hpath).trans hg) hfree ht
    exact ⟨m', hpath.trans hend, hw'⟩

end Monitor
end LspClient
