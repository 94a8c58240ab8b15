/-
# Trying candidates in turn

A list of candidates is tried one after the other until one starts; which
candidate comes next may depend on the state (`none` where there is none). The
errors of the attempts that `catches` holds of are collected, and any other
error ends the loop (`tryEach`). What the loop should do is what the attempts
come to when every error is caught (`attempts`), and it does that exactly if
every failed attempt has raised an error that is caught (`complete_iff`).

Key definitions: `tryEach`, `attempts`, `Complete`.
Key theorems: `failed_raised`, `tryEach_of_caught`, `tryEach_leaked`, `complete_iff`.
-/
import LspClient.Lib.Actions

namespace LspClient
namespace Fallback

variable {ε σ κ τ : Type}

/-- How the loop ends: with the candidate that has started, with the errors of
all that were tried, or with an error that was not caught. -/
inductive Ended (ε σ κ τ : Type) where
  | started (candidate : κ) (result : τ) (state : σ)
  | exhausted (errors : List ε) (state : σ)
  | leaked (error : ε) (state : σ)

/-- An attempt that has failed: the candidate, the state it was tried in, and what it raised. -/
structure Failed (ε σ κ : Type) where
  candidate : κ
  before : σ
  error : ε

/-- What the attempts come to: those that fail, and the first that starts. -/
structure Attempts (ε σ κ τ : Type) where
  failed : List (Failed ε σ κ)
  started : Option (κ × τ)
  state : σ

variable (start : κ → EStateM ε σ τ) (catches : ε → Bool)

/-- The loop, with the errors collected so far. -/
def tryEach : List (σ → Option κ) → List ε → σ → Ended ε σ κ τ
  | [], errors, s => .exhausted errors s
  | next :: rest, errors, s =>
    match next s with
    | none => tryEach rest errors s
    | some k =>
      match start k s with
      | .ok r t => .started k r t
      | .error e t => if catches e then tryEach rest (errors ++ [e]) t else .leaked e t

/-- The attempts, each candidate after the one before has failed in whatever way. -/
def attempts : List (σ → Option κ) → σ → Attempts ε σ κ τ
  | [], s => ⟨[], none, s⟩
  | next :: rest, s =>
    match next s with
    | none => attempts rest s
    | some k =>
      match start k s with
      | .ok r t => ⟨[], some (k, r), t⟩
      | .error e t =>
        let others := attempts rest t
        ⟨⟨k, s, e⟩ :: others.failed, others.started, others.state⟩

/-- The loop ends with the first candidate that starts, or else with one error
for each candidate. -/
def Complete (candidates : List (σ → Option κ)) (s : σ) : Prop :=
  let tried := attempts start candidates s
  match tried.started with
  | some (k, r) => tryEach start catches candidates [] s = .started k r tried.state
  | none => tryEach start catches candidates [] s =
      .exhausted (tried.failed.map (·.error)) tried.state

variable {start catches}

/-- A failed attempt has raised its error in the state it was tried in. -/
theorem failed_raised : ∀ (candidates : List (σ → Option κ)) (s : σ) {f : Failed ε σ κ},
    f ∈ (attempts start candidates s).failed → ∃ t, start f.candidate f.before = .error f.error t
  | [], _, _, h => by simp [attempts] at h
  | next :: rest, s, f, h => by
    unfold attempts at h
    cases hk : next s with
    | none =>
      simp only [hk] at h
      exact failed_raised rest s h
    | some k =>
      simp only [hk] at h
      cases hs : start k s with
      | ok r t => simp [hs] at h
      | error e t =>
        simp only [hs, List.mem_cons] at h
        rcases h with rfl | h
        · exact ⟨t, hs⟩
        · exact failed_raised rest t h

/-- If every error is caught, the loop is the attempts. -/
theorem tryEach_of_caught : ∀ (candidates : List (σ → Option κ)) (errors : List ε) (s : σ),
    (∀ f ∈ (attempts start candidates s).failed, catches f.error = true) →
    tryEach start catches candidates errors s = match (attempts start candidates s).started with
      | some (k, r) => .started k r (attempts start candidates s).state
      | none => .exhausted (errors ++ (attempts start candidates s).failed.map (·.error))
          (attempts start candidates s).state
  | [], errors, s, _ => by simp [tryEach, attempts]
  | next :: rest, errors, s, h => by
    unfold tryEach
    unfold attempts at h ⊢
    cases hk : next s with
    | none =>
      simp only [hk] at h ⊢
      exact tryEach_of_caught rest errors s h
    | some k =>
      simp only [hk] at h ⊢
      cases hs : start k s with
      | ok r t => rfl
      | error e t =>
        simp only [hs, List.forall_mem_cons] at h ⊢
        rw [if_pos h.1, tryEach_of_caught rest (errors ++ [e]) t h.2]
        cases (attempts start rest t).started with
        | none => simp
        | some kr => rfl

/-- The first error that is not caught ends the loop. -/
theorem tryEach_leaked : ∀ (candidates : List (σ → Option κ)) (errors : List ε) (s : σ)
    {f : Failed ε σ κ}, f ∈ (attempts start candidates s).failed → catches f.error = false →
    ∃ e t, tryEach start catches candidates errors s = .leaked e t ∧ catches e = false
  | [], _, _, _, h, _ => by simp [attempts] at h
  | next :: rest, errors, s, f, h, hf => by
    unfold tryEach
    unfold attempts at h
    cases hk : next s with
    | none =>
      simp only [hk] at h ⊢
      exact tryEach_leaked rest errors s h hf
    | some k =>
      simp only [hk] at h ⊢
      cases hs : start k s with
      | ok r t => simp [hs] at h
      | error e t =>
        simp only [hs, List.mem_cons] at h ⊢
        by_cases he : catches e = true
        · rw [if_pos he]
          rcases h with rfl | h
          · simp [hf] at he
          · exact tryEach_leaked rest (errors ++ [e]) t h hf
        · rw [if_neg he]
          exact ⟨e, t, rfl, by simpa using he⟩

/-- **The loop is complete exactly if every failed attempt has raised an error
that is caught.** -/
theorem complete_iff (candidates : List (σ → Option κ)) (s : σ) :
    Complete start catches candidates s ↔
      ∀ f ∈ (attempts start candidates s).failed, catches f.error = true := by
  constructor
  · intro h f hf
    cases hno : catches f.error with
    | true => rfl
    | false =>
      obtain ⟨e, t, hrun, -⟩ := tryEach_leaked candidates [] s hf hno
      unfold Complete at h
      cases hstarted : (attempts start candidates s).started with
      | none =>
        simp only [hstarted] at h
        cases hrun.symm.trans h
      | some kr =>
        simp only [hstarted] at h
        cases hrun.symm.trans h
  · intro h
    have hrun := tryEach_of_caught candidates [] s h
    unfold Complete
    cases hstarted : (attempts start candidates s).started with
    | none => simpa only [hstarted, List.nil_append] using hrun
    | some kr => simpa only [hstarted] using hrun

end Fallback
end LspClient
