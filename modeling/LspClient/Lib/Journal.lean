/-
# Journals

A journal is a list of writes to places, each place with values of its own
type, and replaying it makes the writes one after the other. What a place
holds afterwards is the last value written to it, or what it held before
(`replay_apply`); so a journal that is replayed leaves everything as it was
exactly if the last write to each place puts back what was there
(`replay_eq_self_iff`).

Key definitions: `replay`, `last`, `Restores`.
Key theorems: `replay_apply`, `replay_eq_self_iff`.
-/
import Mathlib.Logic.Function.Basic

namespace LspClient
namespace Journal

variable {κ : Type*} [DecidableEq κ] {ν : κ → Type*}

/-- The store after the writes. -/
def replay (s : ∀ k, ν k) (j : List (Σ k, ν k)) : ∀ k, ν k :=
  j.foldl (fun s e => Function.update s e.1 e.2) s

/-- The last value written to a place. -/
def last : List (Σ k, ν k) → ∀ k, Option (ν k)
  | [], _ => none
  | e :: j, k => (last j k).or (if h : e.1 = k then some (h ▸ e.2) else none)

/-- The last write to each place puts back what the store holds there. -/
def Restores (s : ∀ k, ν k) (j : List (Σ k, ν k)) : Prop := ∀ k x, last j k = some x → x = s k

theorem replay_cons (s : ∀ k, ν k) (e : Σ k, ν k) (j : List (Σ k, ν k)) :
    replay s (e :: j) = replay (Function.update s e.1 e.2) j := rfl

theorem replay_apply : ∀ (j : List (Σ k, ν k)) (s : ∀ k, ν k) (k : κ),
    replay s j k = (last j k).getD (s k)
  | [], _, _ => rfl
  | ⟨k', x⟩ :: j, s, k => by
    rw [replay_cons, replay_apply j, last]
    cases last j k with
    | some y => rfl
    | none =>
      by_cases h : k' = k
      · subst h
        simp
      · simp [h, Function.update_of_ne fun h' => h h'.symm]

/-- **A journal that leaves everything as it was.** -/
theorem replay_eq_self_iff (s : ∀ k, ν k) (j : List (Σ k, ν k)) : replay s j = s ↔ Restores s j := by
  constructor
  · intro h k x hx
    have hk := congrFun h k
    rw [replay_apply, hx] at hk
    exact hk
  · intro h
    funext k
    rw [replay_apply]
    cases hx : last j k with
    | none => rfl
    | some x => exact h k x hx

end Journal
end LspClient
