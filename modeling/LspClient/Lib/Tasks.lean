/-
# Lists of tasks

The tasks of a system are kept in a list, in the order they were started, and
a step of one of them modifies its entry. What is filtered or counted of the
other tasks stays (`filter_modify_of_neg`), and a count grows by one at most
(`countP_modify_le`).

Key theorems: `mem_modify_elim`, `map_modify_of_eq`, `filter_modify_of_neg`, `filter_modify_of_pos`,
`countP_modify_le`, `countP_modify_of_imp`, `two_le_countP`.
-/
import Mathlib.Data.List.Basic

namespace LspClient
namespace Tasks

variable {α : Type*} {p : α → Bool} {f : α → α}

theorem mem_modify_elim {l : List α} {k : ℕ} {x : α} (hx : x ∈ l.modify k f) :
    (∃ a, l[k]? = some a ∧ x = f a) ∨ x ∈ l := by
  obtain ⟨n, hn⟩ := List.getElem?_of_mem hx
  rw [List.getElem?_modify] at hn
  obtain ⟨a, ha, rfl⟩ := Option.map_eq_some_iff.mp hn
  split
  · rename_i hkn
    exact Or.inl ⟨a, hkn ▸ ha, rfl⟩
  · exact Or.inr (List.mem_of_getElem? ha)

/-- What a step does not touch. -/
theorem map_modify_of_eq {β : Type*} {g : α → β} (h : ∀ a, g (f a) = g a) : ∀ (l : List α) (k : ℕ),
    (l.modify k f).map g = l.map g
  | [], _ => by simp
  | a :: l, 0 => by simp [h]
  | a :: l, k + 1 => by simp [map_modify_of_eq h l k]

theorem getElem?_modify_self {l : List α} {k : ℕ} {a : α} (h : l[k]? = some a) :
    (l.modify k f)[k]? = some (f a) := by
  simp [h]

theorem getElem?_modify_ne {l : List α} {k n : ℕ} (h : n ≠ k) : (l.modify k f)[n]? = l[n]? := by
  simp [h.symm]

theorem filter_modify_of_neg : ∀ {l : List α} {k : ℕ} {a : α}, l[k]? = some a → p a = false →
    p (f a) = false → (l.modify k f).filter p = l.filter p
  | [], _, _, h, _, _ => by simp at h
  | b :: l, 0, a, h, hp, hf => by
    have hb : b = a := by simpa using h
    subst hb
    simp [hp, hf]
  | b :: l, k + 1, a, h, hp, hf => by
    have hk : l[k]? = some a := by simpa using h
    rw [List.modify_succ_cons, List.filter_cons, List.filter_cons, filter_modify_of_neg hk hp hf]

theorem filter_modify_of_pos : ∀ {l : List α} {k : ℕ} {a b : α}, l[k]? = some a → p a = true →
    p (f a) = true → l.filter p = [b] → b = a ∧ (l.modify k f).filter p = [f a]
  | [], _, _, _, h, _, _, _ => by simp at h
  | c :: l, 0, a, b, h, hp, hf, hl => by
    have hc : c = a := by simpa using h
    subst hc
    rw [List.filter_cons, if_pos hp] at hl
    simp only [List.cons.injEq] at hl
    exact ⟨hl.1.symm, by simp [hf, hl.2]⟩
  | c :: l, k + 1, a, b, h, hp, hf, hl => by
    have hk : l[k]? = some a := by simpa using h
    have hmem : a ∈ l.filter p := List.mem_filter.mpr ⟨List.mem_of_getElem? hk, hp⟩
    by_cases hc : p c = true
    · rw [List.filter_cons, if_pos hc] at hl
      simp only [List.cons.injEq] at hl
      rw [hl.2] at hmem
      simp at hmem
    · rw [List.filter_cons, if_neg hc] at hl
      rw [List.modify_succ_cons, List.filter_cons, if_neg hc]
      exact filter_modify_of_pos hk hp hf hl

theorem countP_modify_le : ∀ (l : List α) (k : ℕ), (l.modify k f).countP p ≤ l.countP p + 1
  | [], _ => by simp
  | a :: l, 0 => by
    rw [List.modify_zero_cons, List.countP_cons, List.countP_cons]
    split <;> split <;> omega
  | a :: l, k + 1 => by
    rw [List.modify_succ_cons, List.countP_cons, List.countP_cons]
    have ih := countP_modify_le l k
    omega

theorem countP_modify_of_imp : ∀ {l : List α} {k : ℕ}, (∀ a, l[k]? = some a → p (f a) = true → p a = true) →
    (l.modify k f).countP p ≤ l.countP p
  | [], _, _ => by simp
  | a :: l, 0, h => by
    have ha := h a rfl
    rw [List.modify_zero_cons, List.countP_cons, List.countP_cons]
    split
    · rename_i hf
      exact Nat.le_of_eq (by rw [if_pos (ha hf)])
    · omega
  | a :: l, k + 1, h => by
    rw [List.modify_succ_cons, List.countP_cons, List.countP_cons]
    have ih := countP_modify_of_imp (l := l) (k := k) fun b hb => h b (by simpa using hb)
    omega

/-- Two tasks of a kind. -/
theorem two_le_countP : ∀ {l : List α} {k k' : ℕ} {a b : α}, k ≠ k' → l[k]? = some a → p a = true →
    l[k']? = some b → p b = true → 2 ≤ l.countP p
  | [], _, _, _, _, _, h, _, _, _ => by simp at h
  | c :: l, 0, 0, _, _, hne, _, _, _, _ => absurd rfl hne
  | c :: l, 0, k' + 1, a, b, _, hk, ha, hk', hb => by
    have hc : c = a := by simpa using hk
    have hpos := List.countP_pos_iff.mpr ⟨b, List.mem_of_getElem? (by simpa using hk'), hb⟩
    rw [List.countP_cons, hc, ha]
    exact Nat.succ_le_succ hpos
  | c :: l, k + 1, 0, a, b, _, hk, ha, hk', hb => by
    have hc : c = b := by simpa using hk'
    have hpos := List.countP_pos_iff.mpr ⟨a, List.mem_of_getElem? (by simpa using hk), ha⟩
    rw [List.countP_cons, hc, hb]
    exact Nat.succ_le_succ hpos
  | c :: l, k + 1, k' + 1, a, b, hne, hk, ha, hk', hb => by
    have ih := two_le_countP (l := l) (by simpa using hne) (by simpa using hk) ha (by simpa using hk') hb
    rw [List.countP_cons]
    exact Nat.le_trans ih (Nat.le_add_right _ _)

end Tasks
end LspClient
