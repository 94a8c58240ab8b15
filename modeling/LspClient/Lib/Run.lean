/-
# Runs of a system

A system is a partial step function: `step s a` is the state after the action
`a`, or `none` where `s` does not allow it. An interleaving of tasks is a list
of actions, each one step of one task, and `exec` runs it. What each step
preserves holds in every state a run reaches (`exec_inv_history`); where it is
preserved only by the steps that meet a condition, it holds along the runs
whose steps all meet it (`exec_inv_along`), and where a step that does not
meet it breaks the property, along no others (`always_iff_along`).

Key definitions: `exec`, `Along`, `Each`, `Always`.
Key theorems: `exec_inv_history`, `exec_inv_along`, `each_iff_along`, `always_iff_along`,
`always_iff_along_within`.
-/
import Mathlib.Data.List.Induction

namespace LspClient
namespace Run

variable {σ α : Type*}

/-- The run of a list of actions. -/
def exec (step : σ → α → Option σ) : σ → List α → Option σ
  | s, [] => some s
  | s, a :: as => (step s a).bind fun t => exec step t as

/-- `C` holds at each step of the run: of the state before it and its action. -/
def Along (step : σ → α → Option σ) (C : σ → α → Prop) : σ → List α → Prop
  | _, [] => True
  | s, a :: as => C s a ∧ ∀ t, step s a = some t → Along step C t as

/-- `P` holds in every state of the run. -/
def Always (step : σ → α → Option σ) (P : σ → Prop) : σ → List α → Prop
  | s, [] => P s
  | s, a :: as => P s ∧ ∀ t, step s a = some t → Always step P t as

variable {step : σ → α → Option σ}

theorem exec_cons {s t u : σ} {a : α} {as : List α} (h : step s a = some t) :
    exec step s (a :: as) = some u ↔ exec step t as = some u := by
  rw [exec, h, Option.bind_some]

/-- The first step of a run. -/
theorem exec_cons_elim {s u : σ} {a : α} {as : List α} (h : exec step s (a :: as) = some u) :
    ∃ t, step s a = some t ∧ exec step t as = some u :=
  Option.bind_eq_some_iff.mp h

theorem exec_append : ∀ (as bs : List α) (s : σ),
    exec step s (as ++ bs) = (exec step s as).bind fun t => exec step t bs
  | [], _, _ => rfl
  | a :: as, bs, s => by
    rw [List.cons_append, exec, exec, Option.bind_assoc]
    exact Option.bind_congr fun t _ => exec_append as bs t

/-- The last step of a run. -/
theorem exec_snoc_elim {as : List α} {a : α} {s u : σ} (h : exec step s (as ++ [a]) = some u) :
    ∃ t, exec step s as = some t ∧ step t a = some u := by
  rw [exec_append] at h
  obtain ⟨t, ht, hlast⟩ := Option.bind_eq_some_iff.mp h
  obtain ⟨v, hv, hnil⟩ := exec_cons_elim hlast
  cases hnil
  exact ⟨t, ht, hv⟩

/-- **What every step preserves, every run preserves**; what is preserved may
speak of the actions so far. -/
theorem exec_inv_history {I : List α → σ → Prop}
    (hstep : ∀ as s a t, I as s → step s a = some t → I (as ++ [a]) t) (as : List α) {s t : σ}
    (hs : I [] s) (h : exec step s as = some t) : I as t := by
  induction as using List.reverseRecOn generalizing t with
  | nil => exact Option.some.inj h ▸ hs
  | append_singleton as a ih =>
    obtain ⟨u, hu, hlast⟩ := exec_snoc_elim h
    exact hstep as u a t (ih hu) hlast

/-- **What the steps that meet `C` preserve holds along the runs that meet it.** -/
theorem exec_inv_along {I : σ → Prop} {C : σ → α → Prop}
    (hstep : ∀ s a t, I s → C s a → step s a = some t → I t) :
    ∀ (as : List α) {s t : σ}, I s → Along step C s as → exec step s as = some t → I t
  | [], _, _, hs, _, h => Option.some.inj h ▸ hs
  | a :: as, s, _, hs, hC, h =>
    have ⟨u, hu, hrest⟩ := exec_cons_elim h
    exec_inv_along hstep as (hstep s a u hs hC.1 hu) (hC.2 u hu) hrest

theorem along_cons {C : σ → α → Prop} {s t : σ} {a : α} {as : List α} (h : step s a = some t) :
    Along step C s (a :: as) ↔ C s a ∧ Along step C t as := by
  rw [Along, h]
  simp

/-- A condition on the actions alone. -/
theorem along_of_forall {p : α → Prop} : ∀ (as : List α) (s : σ), (∀ a ∈ as, p a) →
    Along step (fun _ a => p a) s as
  | [], _, _ => trivial
  | a :: as, _, h => ⟨h a List.mem_cons_self, fun t _ =>
      along_of_forall as t fun b hb => h b (List.mem_cons_of_mem _ hb)⟩

theorem always_head {P : σ → Prop} {s : σ} {as : List α} (h : Always step P s as) : P s := by
  cases as with
  | nil => exact h
  | cons a as => exact h.1

theorem always_last {P : σ → Prop} : ∀ (as : List α) {s t : σ}, Always step P s as →
    exec step s as = some t → P t
  | [], _, _, h, ht => Option.some.inj ht ▸ h
  | _ :: as, _, _, h, ht =>
    have ⟨u, hu, hrest⟩ := exec_cons_elim ht
    always_last as (h.2 u hu) hrest

/-- `Q` holds of every step of the run, the states before and after it. -/
def Each (step : σ → α → Option σ) (Q : σ → α → σ → Prop) : σ → List α → Prop :=
  Along step fun s a => ∀ t, step s a = some t → Q s a t

theorem always_iff_each {P : σ → Prop} : ∀ (as : List α) (s : σ),
    Always step P s as ↔ P s ∧ Each step (fun _ _ t => P t) s as
  | [], s => ⟨fun h => ⟨h, trivial⟩, fun h => h.1⟩
  | a :: as, s => by
    constructor
    · rintro ⟨hs, h⟩
      exact ⟨hs, fun t ht => always_head (h t ht), fun t ht => ((always_iff_each as t).mp (h t ht)).2⟩
    · rintro ⟨hs, hP, h⟩
      exact ⟨hs, fun t ht => (always_iff_each as t).mpr ⟨hP t ht, h t ht⟩⟩

theorem along_and {C D : σ → α → Prop} : ∀ (as : List α) {s : σ}, Along step C s as → Along step D s as →
    Along step (fun s a => C s a ∧ D s a) s as
  | [], _, _, _ => trivial
  | _ :: as, _, hC, hD => ⟨⟨hC.1, hD.1⟩, fun t ht => along_and as (hC.2 t ht) (hD.2 t ht)⟩

theorem each_mono {Q Q' : σ → α → σ → Prop} (h : ∀ s a t, Q s a t → Q' s a t) :
    ∀ (as : List α) {s : σ}, Each step Q s as → Each step Q' s as
  | [], _, _ => trivial
  | _ :: as, _, hQ => ⟨fun t ht => h _ _ t (hQ.1 t ht), fun t ht => each_mono h as (hQ.2 t ht)⟩

/-- Where the steps of a run do the one just if they do the other, the run does. -/
theorem each_congr {Q Q' : σ → α → σ → Prop} : ∀ (as : List α) {s : σ},
    Each step (fun s a t => Q s a t ↔ Q' s a t) s as → (Each step Q s as ↔ Each step Q' s as)
  | [], _, _ => Iff.rfl
  | _ :: as, _, h => and_congr (forall₂_congr fun t ht => h.1 t ht)
      (forall₂_congr fun t ht => each_congr as (h.2 t ht))

/-! ### Runs seen through a map of the states -/

section Map

variable {τ : Type*} {stepMapped : τ → α → Option τ} {f : σ → τ}

theorem along_map (h : ∀ s a, stepMapped (f s) a = (step s a).map f) {C : τ → α → Prop} :
    ∀ (as : List α) (s : σ), Along stepMapped C (f s) as ↔ Along step (fun s a => C (f s) a) s as
  | [], _ => Iff.rfl
  | a :: as, s => by
    refine and_congr_right fun _ => ?_
    rw [h]
    cases step s a with
    | none => simp
    | some t => simpa using along_map h as t

theorem each_map (h : ∀ s a, stepMapped (f s) a = (step s a).map f) {Q : τ → α → τ → Prop}
    (as : List α) (s : σ) :
    Each stepMapped Q (f s) as ↔ Each step (fun s a t => Q (f s) a (f t)) s as := by
  have hstep : ∀ s a, (∀ t, stepMapped (f s) a = some t → Q (f s) a t) ↔
      ∀ t, step s a = some t → Q (f s) a (f t) := by
    intro s a
    rw [h]
    cases step s a <;> simp
  rw [Each, along_map h]
  simp only [hstep]
  rfl

end Map

/-- What the steps that meet `C` do, each step of a run that meets it does. -/
theorem each_of_along {I : σ → Prop} {C : σ → α → Prop} {Q : σ → α → σ → Prop}
    (hstep : ∀ s a t, I s → C s a → step s a = some t → I t ∧ Q s a t) :
    ∀ (as : List α) {s : σ}, I s → Along step C s as → Each step Q s as
  | [], _, _, _ => trivial
  | a :: as, s, hs, hC => ⟨fun t ht => (hstep s a t hs hC.1 ht).2, fun t ht =>
      each_of_along hstep as (hstep s a t hs hC.1 ht).1 (hC.2 t ht)⟩

/-- **Exactly the runs that meet `C`.** If the steps that meet `C` preserve an
invariant and do `Q`, and the others do not do `Q`, then every step of a run
does `Q` just if `C` holds at each of them. -/
theorem each_iff_along {I : σ → Prop} {C : σ → α → Prop} {Q : σ → α → σ → Prop}
    (hstep : ∀ s a t, I s → C s a → step s a = some t → I t ∧ Q s a t)
    (hleave : ∀ s a t, I s → ¬ C s a → step s a = some t → ¬ Q s a t) :
    ∀ (as : List α) {s u : σ}, I s → exec step s as = some u →
      (Each step Q s as ↔ Along step C s as)
  | [], _, _, _, _ => Iff.rfl
  | a :: as, s, _, hs, h => by
    obtain ⟨t, ht, hrest⟩ := exec_cons_elim h
    refine ⟨fun hQ => ?_, each_of_along hstep (a :: as) hs⟩
    have hC : C s a := by
      by_contra hC
      exact hleave s a t hs hC ht (hQ.1 t ht)
    refine (along_cons ht).mpr ⟨hC, ?_⟩
    exact (each_iff_along hstep hleave as (hstep s a t hs hC ht).1 hrest).mp (hQ.2 t ht)

/-- The same for what holds in every state. -/
theorem always_iff_along {I P : σ → Prop} {C : σ → α → Prop} (hP : ∀ s, I s → P s)
    (hstep : ∀ s a t, I s → C s a → step s a = some t → I t)
    (hleave : ∀ s a t, I s → ¬ C s a → step s a = some t → ¬ P t)
    (as : List α) {s u : σ} (hs : I s) (h : exec step s as = some u) :
    Always step P s as ↔ Along step C s as := by
  have hiff := each_iff_along (Q := fun _ _ t => P t)
    (fun s a t hs hC ht => have hI := hstep s a t hs hC ht; ⟨hI, hP t hI⟩) hleave as hs h
  rw [always_iff_each, hiff]
  exact and_iff_right (hP s hs)

/-- The same in the runs that meet another condition `D` throughout. -/
theorem always_iff_along_within {I P : σ → Prop} {C D : σ → α → Prop} (hP : ∀ s, I s → P s)
    (hstep : ∀ s a t, I s → D s a → C s a → step s a = some t → I t)
    (hleave : ∀ s a t, I s → D s a → ¬ C s a → step s a = some t → ¬ P t) :
    ∀ (as : List α) {s u : σ}, I s → Along step D s as → exec step s as = some u →
      (Always step P s as ↔ Along step C s as)
  | [], s, _, hs, _, _ => iff_of_true (hP s hs) trivial
  | a :: as, s, _, hs, hD, h => by
    obtain ⟨t, ht, hrest⟩ := exec_cons_elim h
    rw [along_cons ht]
    constructor
    · intro hall
      have hC : C s a := by
        by_contra hC
        exact hleave s a t hs hD.1 hC ht (always_head (hall.2 t ht))
      exact ⟨hC, (always_iff_along_within hP hstep hleave as (hstep s a t hs hD.1 hC ht) (hD.2 t ht) hrest).mp
        (hall.2 t ht)⟩
    · rintro ⟨hC, hrun⟩
      refine ⟨hP s hs, fun t' ht' => ?_⟩
      cases ht.symm.trans ht'
      exact (always_iff_along_within hP hstep hleave as (hstep s a t hs hD.1 hC ht) (hD.2 t ht) hrest).mpr hrun

end Run
end LspClient
