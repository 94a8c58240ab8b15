/-
# Actions that return or raise

An action on a state either returns or raises, and what it has done to the
state stays done in both cases (`EStateM`). How a sequence of two actions ends
follows from how each of them ends, and what both of them do at most, their
sequence does at most (`Within`); likewise for what they raise (`Raises`). The
actions of a list raise where the first of them does (`each_error_iff`).

Run from two related states, an action may end alike in both (`Alike`); a
sequence does so if its actions do.

What an action does in a state can be written down as the steps it takes and
the way it ends (`Effect`); the effect of a sequence is the first effect and
then, unless that raises, the second one from where the first has led
(`bind_run`).

Key definitions: `final`, `Within`, `Raises`, `each`, `Alike`, `Effect`, `Effect.run`, `Effect.andThen`,
`Effect.Stops`, `Effect.Idles`.
Key theorems: `bind_eq_ok`, `bind_eq_error`, `bind_ok_elim`, `bind_error_elim`,
`Within.bind`, `each_error_iff`, `Effect.bind_run`.
-/
import Mathlib.Init

namespace LspClient
namespace Actions

variable {ε σ α β : Type} {x : EStateM ε σ α} {f : α → EStateM ε σ β} {s t u : σ} {a : α} {b : β} {e : ε}

theorem bind_eq_ok (h : x s = .ok a t) : (x >>= f) s = f a t := by
  show EStateM.bind x f s = f a t
  rw [EStateM.bind, h]

theorem bind_eq_error (h : x s = .error e t) : (x >>= f) s = .error e t := by
  show EStateM.bind x f s = .error e t
  rw [EStateM.bind, h]

/-- A sequence that returns: so did its first action. -/
theorem bind_ok_elim (h : (x >>= f) s = .ok b u) : ∃ a t, x s = .ok a t ∧ f a t = .ok b u := by
  cases hx : x s with
  | ok a t => exact ⟨a, t, rfl, by rwa [bind_eq_ok hx] at h⟩
  | error e t =>
    rw [bind_eq_error hx] at h
    cases h

/-- A sequence that raises: one of its two actions did. -/
theorem bind_error_elim (h : (x >>= f) s = .error e u) :
    x s = .error e u ∨ ∃ a t, x s = .ok a t ∧ f a t = .error e u := by
  cases hx : x s with
  | ok a t => exact Or.inr ⟨a, t, rfl, by rwa [bind_eq_ok hx] at h⟩
  | error e' t =>
    rw [bind_eq_error hx] at h
    cases h
    exact Or.inl rfl

theorem catch_eq_ok {g : ε → EStateM ε σ α} (h : x s = .ok a t) : tryCatch x g s = .ok a t := by
  show EStateM.tryCatch x g s = .ok a t
  unfold EStateM.tryCatch
  rw [h]

/-- An exception is handled in the state it was raised in. -/
theorem catch_eq_error {g : ε → EStateM ε σ α} (h : x s = .error e t) : tryCatch x g s = g e t := by
  show EStateM.tryCatch x g s = g e t
  unfold EStateM.tryCatch
  rw [h]
  rfl

/-- The state an action leaves. -/
def final (x : EStateM ε σ α) (s : σ) : σ :=
  match x s with
  | .ok _ t => t
  | .error _ t => t

theorem final_bind_ok (h : x s = .ok a t) : final (x >>= f) s = final (f a) t := by
  rw [final, bind_eq_ok h, final]

theorem final_bind_error (h : x s = .error e t) : final (x >>= f) s = t := by
  rw [final, bind_eq_error h]

/-- Raising something else changes nothing about the state that is left. -/
theorem final_rethrow (x : EStateM ε σ α) (e : ε) (s : σ) :
    final (tryCatch x fun _ => throw e) s = final x s := by
  show final (EStateM.tryCatch x fun _ => throw e) s = final x s
  unfold final EStateM.tryCatch
  cases x s <;> rfl

/-- What comes at last is done however the action ends, and if it raises, its
exception is the one raised. -/
theorem tryFinally_apply {δ : Type} (x : EStateM ε σ α) (fin : EStateM ε σ δ) (s : σ) :
    tryFinally x fin s = match x s with
      | .ok a t => match fin t with
        | .ok _ u => .ok a u
        | .error e u => .error e u
      | .error e t => match fin t with
        | .ok _ u => .error e u
        | .error e' u => .error e' u := by
  show EStateM.map Prod.fst (tryFinally' x fun _ => fin) s = _
  simp only [EStateM.map, tryFinally']
  cases x s with
  | ok a t => cases h : fin t <;> simp only [h]
  | error e t => cases h : fin t <;> simp only [h]

/-- However the action ends, the state it leaves is related to the one it found. -/
def Within (R : σ → σ → Prop) (x : EStateM ε σ α) : Prop := ∀ s, R s (final x s)

variable {R : σ → σ → Prop}

theorem Within.of_ok (hx : Within R x) (h : x s = .ok a t) : R s t := by
  have hs := hx s
  rwa [final, h] at hs

theorem Within.of_error (hx : Within R x) (h : x s = .error e t) : R s t := by
  have hs := hx s
  rwa [final, h] at hs

theorem Within.mono {R' : σ → σ → Prop} (hx : Within R x) (h : ∀ s t, R s t → R' s t) : Within R' x :=
  fun s => h s _ (hx s)

theorem within_pure (hR : ∀ s, R s s) : Within R (pure a : EStateM ε σ α) := hR

theorem within_throw (hR : ∀ s, R s s) : Within R (throw e : EStateM ε σ α) := hR

/-- **What both actions do at most, their sequence does at most.** -/
theorem Within.bind (hR : ∀ s t u, R s t → R t u → R s u) (hx : Within R x)
    (hf : ∀ a, Within R (f a)) : Within R (x >>= f) := by
  intro s
  cases h : x s with
  | ok a t =>
    have ht := hf a t
    rw [final, bind_eq_ok h]
    exact hR s t _ (hx.of_ok h) ht
  | error e t =>
    rw [final, bind_eq_error h]
    exact hx.of_error h

/-- An action that does nothing to the state. -/
abbrev Reads (x : EStateM ε σ α) : Prop := Within Eq x

theorem reads_pure : Reads (pure a : EStateM ε σ α) := within_pure fun _ => rfl

theorem reads_throw : Reads (throw e : EStateM ε σ α) := within_throw fun _ => rfl

theorem within_of_reads (hR : ∀ s, R s s) (hx : Reads x) : Within R x := hx.mono fun s _ h => h ▸ hR s

/-- A sequence that returns, and whose first action only reads. -/
theorem Within.bind_ok (hx : Reads x) (h : (x >>= f) s = .ok b u) :
    ∃ a, x s = .ok a s ∧ f a s = .ok b u := by
  obtain ⟨a, t, ha, hf⟩ := bind_ok_elim h
  obtain rfl := hx.of_ok ha
  exact ⟨a, ha, hf⟩

theorem Within.bindReads (hx : Reads x) (hf : ∀ a, Reads (f a)) : Reads (x >>= f) :=
  Within.bind (fun _ _ _ => Eq.trans) hx hf

/-- Whatever the action raises is `P`. -/
def Raises (P : ε → Prop) (x : EStateM ε σ α) : Prop := ∀ s e t, x s = .error e t → P e

section Raises

variable {P : ε → Prop}

theorem raises_pure : Raises P (pure a : EStateM ε σ α) := nofun

theorem raises_throw (h : P e) : Raises P (throw e : EStateM ε σ α) := by
  rintro s _ t ⟨⟩
  exact h

/-- **A sequence raises what its actions raise.** -/
theorem Raises.bind (hx : Raises P x) (hf : ∀ a, Raises P (f a)) : Raises P (x >>= f) := by
  intro s e t h
  obtain hraise | ⟨a, u, -, hraise⟩ := bind_error_elim h
  · exact hx s e t hraise
  · exact hf a u e t hraise

theorem raises_rethrow (h : P e) : Raises P (tryCatch x fun _ => throw e) := by
  intro s e' t hraise
  cases hx : x s with
  | ok a u =>
    rw [catch_eq_ok hx] at hraise
    cases hraise
  | error e₁ u =>
    rw [catch_eq_error hx] at hraise
    cases hraise
    exact h

end Raises

/-! ### One action for each item of a list -/

section Each

variable {ι : Type} {g : ι → EStateM ε σ Unit}

/-- The actions of the items, one after the other. -/
def each (g : ι → EStateM ε σ Unit) : List ι → EStateM ε σ Unit
  | [] => pure ()
  | i :: rest => do
    g i
    each g rest

/-- **The actions raise where one of them does after those before it have returned.** -/
theorem each_error_iff : ∀ {items : List ι} {s : σ}, each g items s = .error e t ↔
    ∃ pre i post u, items = pre ++ i :: post ∧ each g pre s = .ok () u ∧ g i u = .error e t
  | [], s => by
    refine ⟨nofun, ?_⟩
    rintro ⟨pre, i, post, u, h, -⟩
    exact absurd h (by simp)
  | j :: rest, s => by
    constructor
    · intro h
      obtain hraise | ⟨_, v, hj, hrest⟩ := bind_error_elim h
      · exact ⟨[], j, rest, s, rfl, rfl, hraise⟩
      · obtain ⟨pre, i, post, u, rfl, hpre, hraise⟩ := each_error_iff.mp hrest
        exact ⟨j :: pre, i, post, u, rfl, (bind_eq_ok hj).trans hpre, hraise⟩
    · rintro ⟨pre, i, post, u, h, hpre, hraise⟩
      cases pre with
      | nil =>
        cases hpre
        cases h
        exact bind_eq_error hraise
      | cons j' pre =>
        obtain ⟨rfl, rfl⟩ := List.cons.inj h
        obtain ⟨_, v, hj, hpre⟩ := bind_ok_elim hpre
        exact (bind_eq_ok hj).trans (each_error_iff.mpr ⟨pre, i, post, u, rfl, hpre, hraise⟩)

end Each

/-! ### The same action in two states -/

/-- Two actions have ended alike: both have returned the same, or both have
raised the same, and the states they leave are related. -/
def EndAlike (R : σ → σ → Prop) : EStateM.Result ε σ α → EStateM.Result ε σ α → Prop
  | .ok a s, .ok b t => a = b ∧ R s t
  | .error e s, .error e' t => e = e' ∧ R s t
  | _, _ => False

/-- From related states the action ends alike. -/
def Alike (R : σ → σ → Prop) (x : EStateM ε σ α) : Prop := ∀ s t, R s t → EndAlike R (x s) (x t)

theorem alike_pure : Alike R (pure a : EStateM ε σ α) := fun _ _ h => ⟨rfl, h⟩

theorem alike_throw : Alike R (throw e : EStateM ε σ α) := fun _ _ h => ⟨rfl, h⟩

/-- **A sequence ends alike if both its actions do.** -/
theorem Alike.bind (hx : Alike R x) (hf : ∀ a, Alike R (f a)) : Alike R (x >>= f) := by
  intro s t hst
  have hends := hx s t hst
  cases hs : x s with
  | ok a s' =>
    cases ht : x t with
    | ok b t' =>
      rw [hs, ht] at hends
      obtain ⟨rfl, hR⟩ := hends
      rw [bind_eq_ok hs, bind_eq_ok ht]
      exact hf a s' t' hR
    | error e t' =>
      rw [hs, ht] at hends
      exact hends.elim
  | error e s' =>
    cases ht : x t with
    | ok b t' =>
      rw [hs, ht] at hends
      exact hends.elim
    | error e' t' =>
      rw [hs, ht] at hends
      rw [bind_eq_error hs, bind_eq_error ht]
      exact hends

theorem Alike.rethrow (hx : Alike R x) (e : ε) : Alike R (tryCatch x fun _ => throw e) := by
  intro s t hst
  have hends := hx s t hst
  show EndAlike R (EStateM.tryCatch x (fun _ => throw e) s) (EStateM.tryCatch x (fun _ => throw e) t)
  unfold EStateM.tryCatch
  cases hs : x s <;> cases ht : x t <;> rw [hs, ht] at hends
  · exact hends
  · exact hends.elim
  · exact hends.elim
  · exact ⟨rfl, hends.2⟩

/-! ### Effects -/

/-- What an action does, written down: the steps it takes, and how it ends. -/
@[ext] structure Effect (ω ε α : Type) where
  steps : List ω
  result : Except ε α

/-- What an action finds that only reads. -/
def asked (x : EStateM ε σ α) (s : σ) : Except ε α :=
  match x s with
  | .ok a _ => .ok a
  | .error e _ => .error e

namespace Effect

variable {ω : Type} (put : σ → ω → σ)

/-- No step at all. -/
def answer (r : Except ε α) : Effect ω ε α := ⟨[], r⟩

/-- What follows an answer. -/
def given (r : Except ε α) (k : α → Effect ω ε β) : Effect ω ε β :=
  match r with
  | .ok a => k a
  | .error e => answer (.error e)

/-- The state after the steps. -/
def after (s : σ) (f : Effect ω ε α) : σ := f.steps.foldl put s

/-- The steps taken from a state, and the end. -/
def run (s : σ) (f : Effect ω ε α) : EStateM.Result ε σ α :=
  match f.result with
  | .ok a => .ok a (f.after put s)
  | .error e => .error e (f.after put s)

/-- One effect and, unless it raises, another one from where it has led. -/
def andThen (s : σ) (f : Effect ω ε α) (g : α → σ → Effect ω ε β) : Effect ω ε β :=
  match f.result with
  | .ok a => ⟨f.steps ++ (g a (f.after put s)).steps, (g a (f.after put s)).result⟩
  | .error e => ⟨f.steps, .error e⟩

/-- It raises before it takes a step. -/
def Stops (f : Effect ω ε α) : Prop := ∃ e, f = answer (.error e)

/-- It ends and takes no step. -/
def Idles (f : Effect ω ε α) : Prop := ∃ a, f = answer (.ok a)

variable {put} {fx : Effect ω ε α} {g : α → σ → Effect ω ε β} {r : Except ε α} {k : α → Effect ω ε β}

theorem stops_answer : (answer r : Effect ω ε α).Stops ↔ ∃ e, r = .error e := by
  simp [Stops, answer]

theorem idles_answer : (answer r : Effect ω ε α).Idles ↔ ∃ a, r = .ok a := by
  simp [Idles, answer]

theorem stops_given : (given r k).Stops ↔ (∃ e, r = .error e) ∨ ∃ a, r = .ok a ∧ (k a).Stops := by
  cases r with
  | ok a => simp [given]
  | error e => simp [given, stops_answer]

/-- Where what follows raises alike whatever the answer is. -/
theorem stops_given_const {P : Prop} (h : ∀ a, (k a).Stops ↔ P) :
    (given r k).Stops ↔ (∃ e, r = .error e) ∨ P := by
  cases r with
  | ok a => simp [given, h]
  | error e => simp [given, stops_answer]

theorem idles_given : (given r k).Idles ↔ ∃ a, r = .ok a ∧ (k a).Idles := by
  cases r with
  | ok a => simp [given]
  | error e => simp [given, idles_answer]

/-- A sequence raises before it takes a step in its first effect, or in the
second one after the first has taken none. -/
theorem stops_andThen : (fx.andThen put s g).Stops ↔
    fx.Stops ∨ ∃ a, fx = answer (.ok a) ∧ (g a s).Stops := by
  obtain ⟨steps, result⟩ := fx
  cases result with
  | error e => simp [andThen, Stops, answer]
  | ok a =>
    cases steps with
    | nil => simp [andThen, Stops, answer, after, Effect.ext_iff]
    | cons x steps => simp [andThen, Stops, answer]

theorem idles_andThen : (fx.andThen put s g).Idles ↔ ∃ a, fx = answer (.ok a) ∧ (g a s).Idles := by
  obtain ⟨steps, result⟩ := fx
  cases result with
  | error e => simp [andThen, Idles, answer]
  | ok a =>
    cases steps with
    | nil => simp [andThen, Idles, answer, after, Effect.ext_iff]
    | cons x steps => simp [andThen, Idles, answer]

/-- A sequence that begins with more than nothing raises at once only in its first effect. -/
theorem stops_andThen_of_not_idles (h : ¬ fx.Idles) : (fx.andThen put s g).Stops ↔ fx.Stops := by
  rw [stops_andThen]
  exact or_iff_left fun ⟨a, ha, _⟩ => h ⟨a, ha⟩

theorem not_idles_andThen (h : ¬ fx.Idles) : ¬ (fx.andThen put s g).Idles := by
  rw [idles_andThen]
  exact fun ⟨a, ha, _⟩ => h ⟨a, ha⟩

/-- What an effect leaves if it raises. -/
theorem run_eq_error_iff : fx.run put s = .error e t ↔ fx.result = .error e ∧ fx.after put s = t := by
  unfold run
  split <;> rename_i heq <;> simp [heq]

/-- **The effect of a sequence.** -/
theorem bind_run (hx : x s = fx.run put s)
    (hf : ∀ a, fx.result = .ok a →
      f a (fx.after put s) = (g a (fx.after put s)).run put (fx.after put s)) :
    (x >>= f) s = (fx.andThen put s g).run put s := by
  unfold run at hx
  unfold andThen
  cases hr : fx.result with
  | ok a =>
    simp only [hr] at hx ⊢
    rw [bind_eq_ok hx, hf a hr]
    unfold run after
    simp only [List.foldl_append]
  | error e =>
    simp only [hr] at hx ⊢
    rw [bind_eq_error hx]
    rfl

/-- A sequence whose first action only reads. -/
theorem given_run {k : α → Effect ω ε β} (hx : Reads x)
    (hf : ∀ a, asked x s = .ok a → f a s = (k a).run put s) :
    (x >>= f) s = (given (asked x s) k).run put s := by
  unfold asked at hf ⊢
  cases h : x s with
  | ok a t =>
    obtain rfl := hx.of_ok h
    rw [bind_eq_ok h]
    exact hf a (by rw [h])
  | error e t =>
    obtain rfl := hx.of_error h
    rw [bind_eq_error h]
    rfl

end Effect

end Actions
end LspClient
