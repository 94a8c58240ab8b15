/-
# What a stable sort does, key by key

A stable sort leaves the elements of one key in the order of the list
(`filter_mergeSort`). So a sorted list is put together of its keys' elements:
in the order of the keys, and under one key in the order they had in the list
before (`mergeSort_eq_flatMap`).

Key theorems: `filter_mergeSort`, `sorted_eq_flatMap`, `mergeSort_eq_flatMap`.
-/
import Mathlib.Data.List.Dedup
import Mathlib.Data.List.Sort

namespace LspClient
namespace StableSort

variable {α κ : Type*}

section Stable

variable {le : α → α → Bool} (htrans : ∀ a b c, le a b → le b c → le a c)
  (htotal : ∀ a b, le a b || le b a)

include htrans htotal

/-- **Elements that need no sorting among themselves keep their order.** -/
theorem filter_mergeSort {l : List α} {p : α → Bool} (h : (l.filter p).Pairwise fun a b => le a b) :
    (l.mergeSort le).filter p = l.filter p := by
  have hsub : ((l.filter p).filter p).Sublist ((l.mergeSort le).filter p) :=
    (List.sublist_mergeSort htrans htotal h List.filter_sublist).filter p
  rw [List.filter_filter] at hsub
  simp only [Bool.and_self] at hsub
  exact (hsub.eq_of_length ((List.mergeSort_perm l le).filter p).length_eq.symm).symm

end Stable

/-- A list in which `p` holds up to some point only. -/
theorem filter_append_filter_not {p : α → Bool} : ∀ {l : List α},
    l.Pairwise (fun a b => p b = true → p a = true) → l.filter p ++ l.filter (fun a => !p a) = l
  | [], _ => rfl
  | a :: l, h => by
    obtain ⟨ha, hl⟩ := List.pairwise_cons.mp h
    by_cases hp : p a = true
    · rw [List.filter_cons_of_pos hp, List.filter_cons_of_neg (by simp [hp]), List.cons_append,
        filter_append_filter_not hl]
    · -- nothing after `a` satisfies `p`
      have hnone : l.filter p = [] := List.filter_eq_nil_iff.mpr fun b hb hpb => hp (ha b hb hpb)
      have hall : l.filter (fun a => !p a) = l := List.filter_eq_self.mpr fun b hb => by
        simpa using fun hpb => hp (ha b hb hpb)
      rw [List.filter_cons_of_neg hp, List.filter_cons_of_pos (by simpa using hp), hnone, hall]
      rfl

section Keys

variable [DecidableEq κ] {key : α → κ} {r : κ → κ → Prop} (hanti : ∀ {k m}, r k m → r m k → k = m)

include hanti

/-- A list sorted by its keys is its elements key by key. -/
theorem sorted_eq_flatMap : ∀ {ks : List κ} {s : List α},
    s.Pairwise (fun a b => r (key a) (key b)) → ks.Pairwise r → ks.Nodup → (∀ a ∈ s, key a ∈ ks) →
    s = ks.flatMap fun k => s.filter (key · = k)
  | [], s, _, _, _, hmem => by
    rw [List.flatMap_nil, List.eq_nil_iff_forall_not_mem]
    exact fun a ha => List.not_mem_nil (hmem a ha)
  | k :: ks, s, hs, hks, hnd, hmem => by
    obtain ⟨hk, hks⟩ := List.pairwise_cons.mp hks
    obtain ⟨hkn, hnd⟩ := List.nodup_cons.mp hnd
    -- the elements of the first key come first
    have hfirst : s.Pairwise fun a b => decide (key b = k) = true → decide (key a = k) = true := by
      refine hs.imp_of_mem fun {a b} ha _ hab hb => ?_
      rw [decide_eq_true_eq] at hb ⊢
      rcases List.mem_cons.mp (hmem a ha) with h | h
      · exact h
      · exact hanti (hb ▸ hab) (hk _ h)
    have hrest : s.filter (fun a => !decide (key a = k)) = _ :=
      sorted_eq_flatMap (hs.filter _) hks hnd fun a ha => by
        obtain ⟨has, hak⟩ := List.mem_filter.mp ha
        exact (List.mem_cons.mp (hmem a has)).resolve_left (by simpa using hak)
    have hcongr : (ks.flatMap fun m => (s.filter fun a => !decide (key a = k)).filter (key · = m)) =
        ks.flatMap fun m => s.filter (key · = m) := by
      refine List.flatMap_congr fun m hm => ?_
      have hne : m ≠ k := fun h => hkn (h ▸ hm)
      rw [List.filter_filter]
      refine List.filter_congr fun a _ => ?_
      by_cases ha : key a = m
      · simp [ha, hne]
      · simp [ha]
    rw [List.flatMap_cons, ← hcongr, ← hrest]
    exact (filter_append_filter_not hfirst).symm

end Keys

/-- **A stable sort, key by key.** `le` compares the keys by `r`; `ks` are the
keys in their order. -/
theorem mergeSort_eq_flatMap [DecidableEq κ] {key : α → κ} {r : κ → κ → Prop} {le : α → α → Bool}
    (hle : ∀ a b, le a b = true ↔ r (key a) (key b)) (htrans : ∀ {k m n}, r k m → r m n → r k n)
    (htotal : ∀ k m, r k m ∨ r m k) (hanti : ∀ {k m}, r k m → r m k → k = m) {l : List α} {ks : List κ}
    (hks : ks.Pairwise r) (hnd : ks.Nodup) (hmem : ∀ a ∈ l, key a ∈ ks) :
    l.mergeSort le = ks.flatMap fun k => l.filter (key · = k) := by
  have ht : ∀ a b c, le a b → le b c → le a c := fun a b c hab hbc =>
    (hle a c).mpr (htrans ((hle a b).mp hab) ((hle b c).mp hbc))
  have hto : ∀ a b, le a b || le b a := fun a b => by
    rw [Bool.or_eq_true, hle, hle]
    exact htotal _ _
  have hsorted : (l.mergeSort le).Pairwise fun a b => r (key a) (key b) :=
    (List.pairwise_mergeSort ht hto l).imp fun h => (hle _ _).mp h
  rw [sorted_eq_flatMap hanti hsorted hks hnd fun a ha => hmem a (List.mem_mergeSort.mp ha)]
  refine List.flatMap_congr fun k _ => filter_mergeSort ht hto ?_
  -- under one key every order is sorted
  rw [List.pairwise_filter]
  refine List.pairwise_of_forall fun a b ha hb => (hle a b).mpr ?_
  rw [decide_eq_true_eq] at ha hb
  rw [ha, hb]
  exact (htotal k k).elim id id

end StableSort
end LspClient
