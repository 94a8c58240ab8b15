/-
# Replacing several pieces of a list at once

A `Span` names a piece `[lo, hi)` of a list by its offsets and gives the
elements that replace it. `simultaneous xs es` replaces all the pieces of
`es` at once: at each offset the new elements of the pieces that begin
there, in the order of `es`, then the old element unless a piece covers it.
Nothing in it depends on an order in which the pieces are worked off, so it
says what such a batch of replacements means; when no two pieces begin at
one offset it does not depend on the order of `es` either
(`simultaneous_perm`). `splice` computes the same from left to right when
the pieces come in ascending order (`simultaneous_eq_splice`).

Batches are compared gap by gap and new part by new part (`splice_eq_iff`).

Key definitions: `Splice.Span`, `Splice.simultaneous`, `Splice.splice`, `Splice.gaps`.
Key theorems: `Splice.simultaneous_eq_splice`, `Splice.simultaneous_perm`,
`Splice.mem_gaps`, `Splice.splice_eq_iff`.
-/
import Mathlib.Data.List.Basic
import Mathlib.Data.List.Forall2
import Mathlib.Data.List.Perm.Basic
import Mathlib.Data.List.Range
import Mathlib.Data.Nat.Notation

namespace LspClient
namespace Splice

variable {α : Type*}

/-- The piece from offset `lo` up to `hi`, and what replaces it. -/
structure Span (α : Type*) where
  lo : ℕ
  hi : ℕ
  new : List α

/-- What all of `es` leave at offset `i` of `xs`: the new elements of the
pieces that begin there, then the old element unless a piece covers it. -/
def column (xs : List α) (es : List (Span α)) (i : ℕ) : List α :=
  (es.filter (·.lo = i)).flatMap (·.new) ++
    if es.any (fun e => e.lo ≤ i ∧ i < e.hi) then [] else xs[i]?.toList

/-- The pieces `es` of `xs` replaced at once. -/
def simultaneous (xs : List α) (es : List (Span α)) : List α :=
  (List.range (xs.length + 1)).flatMap (column xs es)

/-- The part of `xs` from offset `i` on, with the pieces of `es`, in
ascending order, replaced. -/
def splice (xs : List α) : ℕ → List (Span α) → List α
  | i, [] => xs.drop i
  | i, e :: es => (xs.take e.lo).drop i ++ (e.new ++ splice xs e.hi es)

/-- The pieces are well formed, in ascending order, and do not overlap. -/
def Ascending (es : List (Span α)) : Prop :=
  (∀ e ∈ es, e.lo ≤ e.hi) ∧ es.Pairwise fun a b => a.hi ≤ b.lo

theorem Ascending.tail {e : Span α} {es : List (Span α)} (h : Ascending (e :: es)) : Ascending es :=
  ⟨fun a ha => h.1 a (List.mem_cons_of_mem _ ha), (List.pairwise_cons.mp h.2).2⟩

theorem Ascending.head_le {e : Span α} {es : List (Span α)} (h : Ascending (e :: es)) :
    ∀ a ∈ es, e.hi ≤ a.lo :=
  (List.pairwise_cons.mp h.2).1

/-! ### The columns of an ascending batch -/

/-- A column before every piece is the old element. -/
theorem column_of_lt (xs : List α) {es : List (Span α)} {i : ℕ} (h : ∀ e ∈ es, i < e.lo) :
    column xs es i = xs[i]?.toList := by
  have h1 : es.filter (·.lo = i) = [] := by
    rw [List.filter_eq_nil_iff]
    intro e he
    have := h e he
    simp only [decide_eq_true_eq]
    omega
  have h2 : es.any (fun e => e.lo ≤ i ∧ i < e.hi) = false := by
    rw [List.any_eq_false]
    intro e he
    have := h e he
    simp only [decide_eq_true_eq]
    omega
  rw [column, h1, h2]
  rfl

/-- The columns before every piece are the old elements. -/
theorem columns_before (xs : List α) (es : List (Span α)) :
    ∀ (n i : ℕ), (∀ e ∈ es, i + n ≤ e.lo) →
      (List.range' i n).flatMap (column xs es) = (xs.drop i).take n
  | 0, i, _ => by simp
  | n + 1, i, h => by
    have ih := columns_before xs es n (i + 1) fun e he => by have := h e he; omega
    rw [List.range'_succ, List.flatMap_cons, ih,
      column_of_lt xs (fun e he => by have := h e he; omega)]
    rcases Nat.lt_or_ge i xs.length with hi | hi
    · rw [List.drop_eq_getElem_cons hi, List.getElem?_eq_getElem hi, List.take_succ_cons]
      rfl
    · simp [List.drop_eq_nil_of_le hi, List.drop_eq_nil_of_le (Nat.le_succ_of_le hi), hi]

/-- A column at or past the end of the first piece does not see it, unless
the piece is empty and begins there. -/
theorem column_cons_of_le (xs : List α) {e : Span α} (es : List (Span α)) {i : ℕ}
    (h : e.hi ≤ i) (hne : e.lo ≠ i) : column xs (e :: es) i = column xs es i := by
  have h1 : ¬ (e.lo ≤ i ∧ i < e.hi) := by omega
  simp [column, hne, h1]

/-- The columns the first piece covers hold its new elements and nothing else. -/
theorem columns_covered (xs : List α) {e : Span α} {es : List (Span α)}
    (h : ∀ a ∈ es, e.hi ≤ a.lo) : ∀ (n i : ℕ), e.lo < i → i + n = e.hi →
      (List.range' i n).flatMap (column xs (e :: es)) = []
  | 0, _, _, _ => by simp
  | n + 1, i, hi, hn => by
    have ih := columns_covered xs h n (i + 1) (by omega) (by omega)
    have h1 : (e :: es).filter (·.lo = i) = [] := by
      rw [List.filter_eq_nil_iff]
      intro a ha
      simp only [decide_eq_true_eq]
      rcases List.mem_cons.mp ha with rfl | ha
      · omega
      · have := h a ha; omega
    have h2 : (e :: es).any (fun a => a.lo ≤ i ∧ i < a.hi) = true := by
      rw [List.any_eq_true]
      exact ⟨e, List.mem_cons_self, by simp only [decide_eq_true_eq]; omega⟩
    rw [List.range'_succ, List.flatMap_cons, ih, column, h1, h2]
    rfl

/-- From the first piece on: its new elements, then the columns from its end
on, of the other pieces. -/
theorem columns_cons (xs : List α) {e : Span α} {es : List (Span α)} (h : Ascending (e :: es))
    (m : ℕ) : (List.range' e.lo (e.hi - e.lo + (m + 1))).flatMap (column xs (e :: es)) =
      e.new ++ (List.range' e.hi (m + 1)).flatMap (column xs es) := by
  have hle : e.lo ≤ e.hi := h.1 e List.mem_cons_self
  have hcongr : ∀ n i, e.hi ≤ i → e.lo < i →
      (List.range' i n).flatMap (column xs (e :: es)) = (List.range' i n).flatMap (column xs es) := by
    intro n i hi hlo
    refine List.flatMap_congr fun j hj => ?_
    rw [List.mem_range'_1] at hj
    exact column_cons_of_le xs es (by omega) (by omega)
  rcases Nat.eq_or_lt_of_le hle with heq | hlt
  · -- an empty piece: its column is its new elements before the rest of the column
    have hcol : column xs (e :: es) e.lo = e.new ++ column xs es e.lo := by
      have h1 : ¬ e.lo < e.hi := by omega
      simp [column, h1]
    calc (List.range' e.lo (e.hi - e.lo + (m + 1))).flatMap (column xs (e :: es))
        = column xs (e :: es) e.lo ++ (List.range' (e.lo + 1) m).flatMap (column xs (e :: es)) := by
          rw [← heq, Nat.sub_self, Nat.zero_add, List.range'_succ, List.flatMap_cons]
      _ = e.new ++ (column xs es e.lo ++ (List.range' (e.lo + 1) m).flatMap (column xs es)) := by
          rw [hcol, hcongr m (e.lo + 1) (by omega) (by omega), List.append_assoc]
      _ = e.new ++ (List.range' e.hi (m + 1)).flatMap (column xs es) := by
          rw [← heq, List.range'_succ, List.flatMap_cons]
  · have hcol : column xs (e :: es) e.lo = e.new := by
      have h1 : es.filter (·.lo = e.lo) = [] := by
        rw [List.filter_eq_nil_iff]
        intro a ha
        have := h.head_le a ha
        simp only [decide_eq_true_eq]
        omega
      simp [column, h1, hlt]
    obtain ⟨n, hn⟩ : ∃ n, e.hi = e.lo + 1 + n := ⟨e.hi - e.lo - 1, by omega⟩
    have hsplit : e.hi - e.lo + (m + 1) = (n + (m + 1)) + 1 := by omega
    calc (List.range' e.lo (e.hi - e.lo + (m + 1))).flatMap (column xs (e :: es))
        = e.new ++ ((List.range' (e.lo + 1) n).flatMap (column xs (e :: es)) ++
            (List.range' (e.lo + 1 + n) (m + 1)).flatMap (column xs (e :: es))) := by
          rw [hsplit, List.range'_succ, List.flatMap_cons, hcol, ← List.range'_append_1,
            List.flatMap_append]
      _ = e.new ++ (List.range' e.hi (m + 1)).flatMap (column xs (e :: es)) := by
          rw [columns_covered xs h.head_le n (e.lo + 1) (by omega) (by omega), List.nil_append, ← hn]
      _ = e.new ++ (List.range' e.hi (m + 1)).flatMap (column xs es) := by
          rw [hcongr (m + 1) e.hi (le_refl _) hlt]

/-- The columns from `i` on are what `splice` computes. -/
theorem columns_eq_splice (xs : List α) : ∀ (es : List (Span α)) (i n : ℕ), Ascending es →
    (∀ e ∈ es, i ≤ e.lo ∧ e.hi ≤ xs.length) → i + n = xs.length →
    (List.range' i (n + 1)).flatMap (column xs es) = splice xs i es
  | [], i, n, _, _, hn => by
    rw [columns_before xs [] (n + 1) i (fun e he => by cases he), splice,
      List.take_of_length_le (by simp; omega)]
  | e :: es, i, n, h, hb, hn => by
    obtain ⟨hlo, hhi⟩ := hb e List.mem_cons_self
    have hle : e.lo ≤ e.hi := h.1 e List.mem_cons_self
    obtain ⟨k, hk⟩ : ∃ k, e.lo = i + k := ⟨e.lo - i, by omega⟩
    obtain ⟨m, hm⟩ : ∃ m, e.hi + m = xs.length := ⟨xs.length - e.hi, by omega⟩
    have hsplit : n + 1 = k + (e.hi - e.lo + (m + 1)) := by omega
    have hbefore : ∀ a ∈ e :: es, i + k ≤ a.lo := by
      intro a ha
      rcases List.mem_cons.mp ha with rfl | ha
      · omega
      · have := h.head_le a ha; omega
    have ih := columns_eq_splice xs es e.hi m h.tail
      (fun a ha => ⟨h.head_le a ha, (hb a (List.mem_cons_of_mem _ ha)).2⟩) hm
    have hkept : (xs.drop i).take k = (xs.take e.lo).drop i := by
      rw [List.drop_take]
      congr 1
      omega
    calc (List.range' i (n + 1)).flatMap (column xs (e :: es))
        = (xs.drop i).take k ++
            (List.range' e.lo (e.hi - e.lo + (m + 1))).flatMap (column xs (e :: es)) := by
          rw [hsplit, ← List.range'_append_1, List.flatMap_append, columns_before xs _ k i hbefore, ← hk]
      _ = (xs.drop i).take k ++ (e.new ++ splice xs e.hi es) := by rw [columns_cons xs h m, ih]
      _ = splice xs i (e :: es) := by rw [hkept, splice]

/-- **The pieces replaced at once, from left to right.** In ascending order
the replacements are worked off by one pass over the list. -/
theorem simultaneous_eq_splice (xs : List α) (es : List (Span α)) (h : Ascending es)
    (hb : ∀ e ∈ es, e.hi ≤ xs.length) : simultaneous xs es = splice xs 0 es := by
  rw [simultaneous, List.range_eq_range']
  exact columns_eq_splice xs es 0 xs.length h (fun e he => ⟨Nat.zero_le _, hb e he⟩) (by omega)

/-! ### The order of the batch -/

theorem filter_lo_perm {es es' : List (Span α)} (hp : es.Perm es')
    (hd : es.Pairwise fun a b => a.lo ≠ b.lo) (i : ℕ) :
    es.filter (·.lo = i) = es'.filter (·.lo = i) := by
  have hpf := hp.filter (fun e => decide (e.lo = i))
  have hmem : ∀ e ∈ es.filter (·.lo = i), e.lo = i := fun e he => by
    simpa using (List.mem_filter.mp he).2
  have hpw := hd.filter (fun e => decide (e.lo = i))
  generalize es.filter (·.lo = i) = fs at hpf hmem hpw ⊢
  match fs with
  | [] => exact (List.nil_perm.mp hpf).symm
  | [_] => exact List.singleton_perm.mp hpf
  | a :: b :: _ =>
    have hab := (List.pairwise_cons.mp hpw).1 b List.mem_cons_self
    exact absurd ((hmem a (by simp)).trans (hmem b (by simp)).symm) hab

/-- Only the order of pieces that begin at one offset matters. -/
theorem simultaneous_congr (xs : List α) {es es' : List (Span α)} (hp : es.Perm es')
    (h : ∀ i, es.filter (·.lo = i) = es'.filter (·.lo = i)) :
    simultaneous xs es = simultaneous xs es' := by
  unfold simultaneous
  refine List.flatMap_congr fun i _ => ?_
  unfold column
  rw [h i, hp.any_eq]

/-- **The order does not matter.** When no two pieces begin at one offset,
any order of the batch gives the same result. -/
theorem simultaneous_perm (xs : List α) {es es' : List (Span α)} (hp : es.Perm es')
    (hd : es.Pairwise fun a b => a.lo ≠ b.lo) : simultaneous xs es = simultaneous xs es' :=
  simultaneous_congr xs hp (filter_lo_perm hp hd)

/-! ### Comparing two batches -/

/-- Insertions where a piece begins join it. -/
theorem splice_insertions (xs : List α) (e : Span α) (es : List (Span α)) :
    ∀ (inserted : List (Span α)) (i : ℕ), (∀ a ∈ inserted, a.lo = e.lo ∧ a.hi = e.lo) →
      splice xs i (inserted ++ e :: es) =
        splice xs i (⟨e.lo, e.hi, inserted.flatMap (·.new) ++ e.new⟩ :: es)
  | [], _, _ => rfl
  | a :: inserted, i, h => by
    obtain ⟨hlo, hhi⟩ := h a List.mem_cons_self
    have ih := splice_insertions xs e es inserted e.lo fun b hb => h b (List.mem_cons_of_mem _ hb)
    have hnone : (xs.take e.lo).drop e.lo = [] :=
      List.drop_of_length_le (by rw [List.length_take]; omega)
    rw [List.cons_append, splice, hlo, hhi, ih, splice, splice, hnone]
    simp only [List.flatMap_cons, List.append_assoc, List.nil_append]

/-- What stands between the pieces of an ascending batch, from offset `i` on. -/
def gaps (xs : List α) : ℕ → List (Span α) → List (List α)
  | i, [] => [xs.drop i]
  | i, e :: es => (xs.take e.lo).drop i :: gaps xs e.hi es

theorem mem_drop_iff (l : List α) (a : α) (i : ℕ) :
    a ∈ l.drop i ↔ ∃ k, l[k]? = some a ∧ i ≤ k := by
  simp only [List.mem_iff_getElem?, List.getElem?_drop]
  constructor
  · rintro ⟨k, hk⟩
    exact ⟨i + k, hk, Nat.le_add_right i k⟩
  · rintro ⟨k, hk, hle⟩
    exact ⟨k - i, by rwa [Nat.add_sub_cancel' hle]⟩

/-- The gaps hold what no piece covers. -/
theorem mem_gaps (xs : List α) (a : α) : ∀ (es : List (Span α)) (i : ℕ), Ascending es →
    (∀ e ∈ es, i ≤ e.lo) → ((∃ gap ∈ gaps xs i es, a ∈ gap) ↔
      ∃ k, xs[k]? = some a ∧ i ≤ k ∧ ∀ e ∈ es, ¬(e.lo ≤ k ∧ k < e.hi))
  | [], i, _, _ => by simp [gaps, mem_drop_iff]
  | e :: es, i, h, hi => by
    have ih := mem_gaps xs a es e.hi h.tail h.head_le
    have hile := hi e List.mem_cons_self
    have hle := h.1 e List.mem_cons_self
    simp only [gaps, List.exists_mem_cons_iff, ih, List.forall_mem_cons, mem_drop_iff]
    constructor
    · rintro (⟨k, hk, hik⟩ | ⟨k, hk, hik, hes⟩)
      · -- before the first piece, and so before all of them
        rw [List.getElem?_take] at hk
        split_ifs at hk with hlt
        exact ⟨k, hk, hik, by omega, fun b hb => by
          have := h.head_le b hb
          omega⟩
      · exact ⟨k, hk, by omega, by omega, hes⟩
    · rintro ⟨k, hk, hik, hne, hes⟩
      rcases Nat.lt_or_ge k e.lo with hlt | hge
      · exact Or.inl ⟨k, by rw [List.getElem?_take, if_pos hlt, hk], hik⟩
      · exact Or.inr ⟨k, hk, by omega, hes⟩

section Compare

variable {γ : Type*} (xs ys : List α) (f g : γ → Span α)

theorem splice_length : ∀ (as : List γ) (i j : ℕ),
    List.Forall₂ (fun a b => b.length ≤ a.length) (gaps xs i (as.map f)) (gaps ys j (as.map g)) →
    (∀ a ∈ as, (g a).new.length ≤ (f a).new.length) →
    (splice ys j (as.map g)).length ≤ (splice xs i (as.map f)).length
  | [], _, _, hgaps, _ => (List.forall₂_cons.mp hgaps).1
  | a :: as, _, _, hgaps, hnew => by
    obtain ⟨hgap, hrest⟩ := List.forall₂_cons.mp hgaps
    have ih := splice_length as _ _ hrest fun b hb => hnew b (List.mem_cons_of_mem _ hb)
    have ha := hnew a List.mem_cons_self
    simp only [List.map_cons, splice, List.length_append]
    omega

/-- **Batches compared part by part.** If no gap and no new part of the one is
longer than that of the other, they leave the same only if all the parts are
the same. -/
theorem splice_eq_iff : ∀ (as : List γ) (i j : ℕ),
    List.Forall₂ (fun a b => b.length ≤ a.length) (gaps xs i (as.map f)) (gaps ys j (as.map g)) →
    (∀ a ∈ as, (g a).new.length ≤ (f a).new.length) →
    (splice xs i (as.map f) = splice ys j (as.map g) ↔
      gaps xs i (as.map f) = gaps ys j (as.map g) ∧ ∀ a ∈ as, (f a).new = (g a).new)
  | [], _, _, _, _ => by simp [splice, gaps]
  | a :: as, _, _, hgaps, hnew => by
    obtain ⟨hgap, hrest⟩ := List.forall₂_cons.mp hgaps
    have hnew' := fun b hb => hnew b (List.mem_cons_of_mem a hb)
    have ih := splice_eq_iff as _ _ hrest hnew'
    have hle := splice_length xs ys f g as _ _ hrest hnew'
    have ha := hnew a List.mem_cons_self
    simp only [List.map_cons, splice, gaps, List.cons.injEq, List.forall_mem_cons]
    constructor
    · intro heq
      have hlen := congrArg List.length heq
      simp only [List.length_append] at hlen
      obtain ⟨hfirst, htail⟩ := List.append_inj heq (by omega)
      obtain ⟨hn, hs⟩ := List.append_inj htail (by omega)
      obtain ⟨hg, hns⟩ := ih.mp hs
      exact ⟨⟨hfirst, hg⟩, hn, hns⟩
    · rintro ⟨⟨hfirst, hg⟩, hn, hns⟩
      rw [hfirst, hn, ih.mpr ⟨hg, hns⟩]

/-- The gaps are those of the pieces, whatever is put in their place. -/
theorem gaps_map_congr : ∀ (as : List γ) (i : ℕ),
    (∀ a ∈ as, (f a).lo = (g a).lo ∧ (f a).hi = (g a).hi) →
    gaps xs i (as.map f) = gaps xs i (as.map g)
  | [], _, _ => rfl
  | a :: as, _, h => by
    obtain ⟨hlo, hhi⟩ := h a List.mem_cons_self
    simp only [List.map_cons, gaps, hlo, hhi]
    rw [gaps_map_congr as _ fun b hb => h b (List.mem_cons_of_mem a hb)]

/-- **Batches of the same pieces.** If no new part of the one is longer than
that of the other, they leave the same only if all the new parts are the same. -/
theorem splice_map_eq_iff (as : List γ) (i : ℕ)
    (h : ∀ a ∈ as, (f a).lo = (g a).lo ∧ (f a).hi = (g a).hi ∧
      (f a).new.length ≤ (g a).new.length) :
    splice xs i (as.map f) = splice xs i (as.map g) ↔ ∀ a ∈ as, (f a).new = (g a).new := by
  have hgaps := gaps_map_congr xs f g as i fun a ha => ⟨(h a ha).1, (h a ha).2.1⟩
  have hlen : List.Forall₂ (fun a b : List α => b.length ≤ a.length) (gaps xs i (as.map g))
      (gaps xs i (as.map f)) := by
    rw [hgaps]
    exact List.forall₂_same.mpr fun _ _ => Nat.le_refl _
  rw [eq_comm, splice_eq_iff xs xs g f as i i hlen fun a ha => (h a ha).2.2]
  exact ⟨fun heq a ha => (heq.2 a ha).symm, fun hnew => ⟨hgaps.symm, fun a ha => (hnew a ha).symm⟩⟩

end Compare

end Splice
end LspClient
