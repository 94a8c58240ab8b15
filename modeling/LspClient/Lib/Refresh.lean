/-
# A copy that is refreshed on notice

A store changes, and each change sends notices of itself. A reader that has a
notice asks for the store's view; the view is read some time later, and the
answer comes some time after that, so that several questions are open at once
and answers overtake one another. The reader keeps the answer to the latest of
its questions that has been answered.

Every change that sends a notice makes the reader ask again, and what is read
after a change is what the change has left. So once no notice is under way and
no question is open, the copy is the view of the store (`State.Current.copy_eq`).

Key definitions: `State`, `Action`, `step`, `State.copy`, `State.Settled`, `State.Current`.
Key theorems: `current_step`, `State.Current.copy_eq`.
-/
import Mathlib.Data.List.Basic

namespace LspClient
namespace Refresh

variable {σ ν : Type*}

/-- A question of the reader. -/
inductive Question (ν : Type*) where
  | asked
  | read (v : ν)
  | answered (v : ν)

/-- What has been read for it. -/
def Question.value : Question ν → Option ν
  | asked => none
  | read v | answered v => some v

/-- The answer the reader has. -/
def Question.answer : Question ν → Option ν
  | answered v => some v
  | _ => none

/-- The store, the notices under way, and the questions in the order in which they were asked. -/
structure State (σ ν : Type*) where
  store : σ
  notices : ℕ
  questions : List (Question ν)

inductive Action (σ : Type*) where
  /-- The store changes, and so many notices of it are sent. -/
  | change (store : σ) (notices : ℕ)
  /-- A notice arrives, and the reader asks. -/
  | notice
  /-- The reader asks of its own. -/
  | ask
  /-- The view is read for question `k`. -/
  | read (k : ℕ)
  /-- The answer to question `k` arrives. -/
  | answer (k : ℕ)

def start (store : σ) : State σ ν := ⟨store, 0, []⟩

namespace State

def ask (s : State σ ν) : State σ ν := { s with questions := s.questions ++ [.asked] }

def set (s : State σ ν) (k : ℕ) (q : Question ν) : State σ ν := { s with questions := s.questions.set k q }

/-- The copy: the answer to the latest question that has one. -/
def copy (s : State σ ν) : Option ν := (s.questions.filterMap Question.answer).getLast?

/-- No notice is under way, and no question is open. -/
def Settled (s : State σ ν) : Prop := s.notices = 0 ∧ ∀ q ∈ s.questions, q.answer.isSome = true

/-- The latest question has not been read for, or for what the store holds. -/
def Current (view : σ → ν) (s : State σ ν) : Prop :=
  s.notices = 0 → ∀ q, s.questions.getLast? = some q → q.value = none ∨ q.value = some (view s.store)

end State

/-- One step. -/
def step (view : σ → ν) (s : State σ ν) : Action σ → Option (State σ ν)
  | .change store notices => some { s with store := store, notices := s.notices + notices }
  | .notice => if s.notices = 0 then none else some { s with notices := s.notices - 1 }.ask
  | .ask => some s.ask
  | .read k =>
    match s.questions[k]? with
    | some .asked => some (s.set k (.read (view s.store)))
    | _ => none
  | .answer k =>
    match s.questions[k]? with
    | some (.read v) => some (s.set k (.answered v))
    | _ => none

/-- A change sends a notice, or changes nothing that the reader sees. -/
def Noticed (view : σ → ν) (s : State σ ν) : Action σ → Prop
  | .change store notices => 0 < notices ∨ view store = view s.store
  | _ => True

variable {view : σ → ν} {s t : State σ ν}

/-- What has been read stays as it is, or is read now. -/
theorem getLast_set {l : List (Question ν)} {k : ℕ} {x q : Question ν} (h : (l.set k x).getLast? = some q) :
    l.getLast? = some q ∨ q = x ∧ ∃ old, l[k]? = some old ∧ l.getLast? = some old := by
  rw [List.getLast?_eq_getElem?, List.length_set, List.getElem?_set] at h
  split_ifs at h with hk hlt
  · have hold : l[k]? = some l[k] := List.getElem?_eq_getElem hlt
    refine .inr ⟨(Option.some.inj h).symm, l[k], hold, ?_⟩
    rw [List.getLast?_eq_getElem?, ← hk, hold]
  · left
    rwa [List.getLast?_eq_getElem?]

/-- **What follows a change is read after it.** -/
theorem current_step (h : s.Current view) {a : Action σ} (ha : Noticed view s a) (hstep : step view s a = some t) :
    t.Current view := by
  cases a with
  | change store notices =>
    obtain rfl := Option.some.inj hstep
    intro hzero q hq
    have hzero : s.notices + notices = 0 := hzero
    have hview : view store = view s.store := ha.resolve_left (by omega)
    show q.value = none ∨ q.value = some (view store)
    rw [hview]
    exact h (by omega) q hq
  | notice | ask =>
    simp only [step] at hstep
    try split_ifs at hstep
    obtain rfl := Option.some.inj hstep
    intro _ q hq
    have hq : (s.questions ++ [Question.asked]).getLast? = some q := hq
    rw [List.getLast?_concat] at hq
    exact .inl (Option.some.inj hq ▸ rfl)
  | read k =>
    simp only [step] at hstep
    split at hstep
    · obtain rfl := Option.some.inj hstep
      intro hzero q hq
      rcases getLast_set hq with hq | ⟨rfl, -⟩
      · exact h hzero q hq
      · exact .inr rfl
    · cases hstep
  | answer k =>
    simp only [step] at hstep
    split at hstep
    · rename_i v hk
      obtain rfl := Option.some.inj hstep
      intro hzero q hq
      rcases getLast_set hq with hq | ⟨rfl, old, hold, hlast⟩
      · exact h hzero q hq
      · obtain rfl := Option.some.inj (hk.symm.trans hold)
        exact h hzero (.read v) hlast
    · cases hstep

/-- When all is answered, the copy is the answer to the latest question. -/
theorem State.Settled.copy_eq (h : s.Settled) (hasked : s.questions ≠ []) :
    ∃ q, s.questions.getLast? = some q ∧ s.copy = q.value := by
  obtain ⟨qs, q, hqs⟩ := List.eq_nil_or_concat s.questions |>.resolve_left hasked
  obtain ⟨-, hall⟩ := h
  rw [List.concat_eq_append] at hqs
  refine ⟨q, by rw [hqs, List.getLast?_concat], ?_⟩
  obtain ⟨v, hv⟩ := Option.isSome_iff_exists.mp (hall q (by rw [hqs]; simp))
  have hq : q = .answered v := by
    cases q with
    | answered => exact congrArg _ (Option.some.inj hv)
    | _ => cases hv
  rw [State.copy, hqs, List.filterMap_append, hq]
  exact List.getLast?_concat

/-- **Once all has settled, the copy is the view of the store.** -/
theorem State.Current.copy_eq (h : s.Current view) (hsettled : s.Settled) (hasked : s.questions ≠ []) :
    s.copy = some (view s.store) := by
  obtain ⟨q, hlast, hcopy⟩ := hsettled.copy_eq hasked
  have hsome : q.value ≠ none := by
    have hq := hsettled.2 q (List.mem_of_getLast? hlast)
    cases q with
    | answered => simp [Question.value]
    | _ => cases hq
  rw [hcopy]
  exact (h hsettled.1 q hlast).resolve_left hsome

theorem current_start (store : σ) : (start store : State σ ν).Current view := fun _ _ hq => by cases hq

end Refresh
end LspClient
