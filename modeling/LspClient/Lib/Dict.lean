/-
# Dictionaries

A dictionary is the list of its items in the order its keys first came. Setting
a key that is there writes over the value and keeps the key's place; a new key
goes to the end. So the keys stay distinct (`nodup_set`), and a lookup after a
set is the value set or what was there before (`lookup_set`). To set what is
there already changes nothing (`set_of_lookup`).

Of a dictionary filled from a list of items the last item of a key is what a
lookup finds (`lookup_setAll`). Where the first item of a key is the last one
too, the key has no other (`only_of_first_last`).

Key definitions: `set`, `setAll`.
Key theorems: `lookup_set`, `nodup_set`, `lookup_setAll`, `mem_iff_lookup`,
`only_of_first_last`.
-/
import Mathlib.Data.List.Nodup

namespace LspClient
namespace Dict

variable {κ ν : Type*} [BEq κ]

/-- `d[k] = v`. -/
def set : List (κ × ν) → κ → ν → List (κ × ν)
  | [], k, v => [(k, v)]
  | (j, w) :: d, k, v => if j == k then (j, v) :: d else (j, w) :: set d k v

/-- Set every item, in order. -/
def setAll (d items : List (κ × ν)) : List (κ × ν) := items.foldl (fun d e => set d e.1 e.2) d

theorem lookup_cons (i j : κ) (w : ν) (d : List (κ × ν)) :
    ((i, w) :: d).lookup j = if j == i then some w else d.lookup j := by
  rw [List.lookup_cons]
  cases j == i <;> rfl

variable [LawfulBEq κ]

theorem lookup_set (k j : κ) (v : ν) : ∀ d : List (κ × ν),
    (set d k v).lookup j = if j == k then some v else d.lookup j
  | [] => by rw [set, lookup_cons]
  | (i, w) :: d => by
    rw [set]
    by_cases hik : i = k
    · subst hik
      rw [if_pos BEq.rfl, lookup_cons, lookup_cons]
      cases j == i <;> rfl
    · rw [if_neg (by simpa using hik), lookup_cons, lookup_cons, lookup_set k j v d]
      by_cases hji : j = i
      · simp [hji, hik]
      · simp [hji]

theorem mem_keys_set {k j : κ} {v : ν} {d : List (κ × ν)} :
    j ∈ (set d k v).map Prod.fst ↔ j = k ∨ j ∈ d.map Prod.fst := by
  induction d with
  | nil => simp [set]
  | cons e d ih =>
    rw [set]
    split
    · rename_i h
      simp [← eq_of_beq h]
    · simp only [List.map_cons, List.mem_cons, ih]
      tauto

theorem nodup_set {k : κ} {v : ν} {d : List (κ × ν)} (h : (d.map Prod.fst).Nodup) :
    ((set d k v).map Prod.fst).Nodup := by
  induction d with
  | nil => simp [set]
  | cons e d ih =>
    rw [List.map_cons, List.nodup_cons] at h
    rw [set]
    split
    · simpa using h
    · rename_i hne
      rw [List.map_cons, List.nodup_cons, mem_keys_set, not_or]
      exact ⟨⟨by simpa using hne, h.1⟩, ih h.2⟩

/-- A new key goes to the end. -/
theorem set_of_notMem {k : κ} {v : ν} : ∀ {d : List (κ × ν)}, k ∉ d.map Prod.fst →
    set d k v = d ++ [(k, v)]
  | [], _ => rfl
  | (j, w) :: d, h => by
    rw [List.map_cons, List.mem_cons, not_or] at h
    rw [set, if_neg (by simpa using Ne.symm h.1), set_of_notMem h.2, List.cons_append]

/-- To set what is there changes nothing. -/
theorem set_of_lookup {k : κ} {v : ν} : ∀ {d : List (κ × ν)}, d.lookup k = some v → set d k v = d
  | [], h => by cases h
  | (j, w) :: d, h => by
    rw [lookup_cons] at h
    rw [set]
    by_cases hjk : j = k
    · subst hjk
      rw [if_pos BEq.rfl] at h ⊢
      rw [Option.some.inj h]
    · rw [if_neg (by simpa using Ne.symm hjk)] at h
      rw [if_neg (by simpa using hjk), set_of_lookup h]

theorem lookup_of_notMem {k : κ} {d : List (κ × ν)} (h : k ∉ d.map Prod.fst) : d.lookup k = none := by
  rw [List.lookup_eq_none_iff]
  intro e he
  simpa using fun heq : k = e.1 => h (heq ▸ List.mem_map_of_mem he)

theorem mem_of_lookup {k : κ} {v : ν} {d : List (κ × ν)} (h : d.lookup k = some v) : (k, v) ∈ d := by
  obtain ⟨l, r, rfl, -⟩ := List.lookup_eq_some_iff.mp h
  simp

theorem mem_iff_lookup {k : κ} {v : ν} {d : List (κ × ν)} (h : (d.map Prod.fst).Nodup) :
    (k, v) ∈ d ↔ d.lookup k = some v := by
  refine ⟨fun hm => ?_, mem_of_lookup⟩
  obtain ⟨l, r, rfl⟩ := List.append_of_mem hm
  refine List.lookup_eq_some_iff.mpr ⟨l, r, rfl, fun e he => ?_⟩
  rw [List.map_append, List.map_cons, List.nodup_middle, List.nodup_cons] at h
  simpa using fun hk : k = e.1 => h.1 (by simp [hk, List.mem_map_of_mem he])

theorem nodup_setAll {items : List (κ × ν)} : ∀ {d : List (κ × ν)}, (d.map Prod.fst).Nodup →
    ((setAll d items).map Prod.fst).Nodup := by
  induction items with
  | nil => exact id
  | cons e items ih => exact fun h => ih (nodup_set h)

theorem mem_keys_setAll {k : κ} {items : List (κ × ν)} : ∀ {d : List (κ × ν)},
    k ∈ (setAll d items).map Prod.fst ↔ k ∈ items.map Prod.fst ∨ k ∈ d.map Prod.fst := by
  induction items with
  | nil => simp [setAll]
  | cons e items ih =>
    intro d
    rw [setAll, List.foldl_cons, ← setAll, ih, mem_keys_set, List.map_cons, List.mem_cons]
    tauto

/-- **The last item of a key wins.** -/
theorem lookup_setAll (k : κ) (items : List (κ × ν)) : ∀ d : List (κ × ν),
    (setAll d items).lookup k = (items.reverse.lookup k).or (d.lookup k) := by
  induction items with
  | nil => simp [setAll]
  | cons e items ih =>
    intro d
    have hlast : (if k == e.1 then some e.2 else d.lookup k) = (List.lookup k [e]).or (d.lookup k) := by
      rw [lookup_cons]
      cases k == e.1 <;> simp
    calc (setAll d (e :: items)).lookup k
        = (items.reverse.lookup k).or (if k == e.1 then some e.2 else d.lookup k) := by
          rw [setAll, List.foldl_cons, ← setAll, ih, lookup_set]
      _ = ((items.reverse.lookup k).or (List.lookup k [e])).or (d.lookup k) := by
          rw [hlast, Option.or_assoc]
      _ = ((e :: items).reverse.lookup k).or (d.lookup k) := by
          rw [List.reverse_cons, List.lookup_append]

/-- The last item of a key has no other behind it. -/
theorem lookup_reverse_iff {k : κ} {v : ν} {items : List (κ × ν)} :
    items.reverse.lookup k = some v ↔
      ∃ before after, items = before ++ (k, v) :: after ∧ ∀ e ∈ after, e.1 ≠ k := by
  rw [List.lookup_eq_some_iff]
  constructor
  · rintro ⟨l, r, hl, hno⟩
    refine ⟨r.reverse, l.reverse, ?_, fun e he heq => ?_⟩
    · rw [← List.reverse_reverse items, hl, List.reverse_append, List.reverse_cons, List.append_assoc,
        List.singleton_append]
    · simpa [heq] using hno e (List.mem_reverse.mp he)
  · rintro ⟨before, after, rfl, hno⟩
    refine ⟨after.reverse, before.reverse, ?_, fun e he => ?_⟩
    · rw [List.reverse_append, List.reverse_cons, List.append_assoc, List.singleton_append]
    · simpa using Ne.symm (hno e (List.mem_reverse.mp he))

/-- An item that is both the first and the last of its key is the only one. -/
theorem only_of_first_last {k : κ} {v w : ν} {items : List (κ × ν)} (hn : items.Nodup)
    (hfirst : items.lookup k = some v) (hlast : items.reverse.lookup k = some v)
    (hw : (k, w) ∈ items) : w = v := by
  obtain ⟨l, r, rfl, hl⟩ := List.lookup_eq_some_iff.mp hfirst
  have hafter : (k, v) ∉ r := by
    rw [List.nodup_middle, List.nodup_cons] at hn
    exact fun h => hn.1 (List.mem_append_right _ h)
  rw [List.reverse_append, List.reverse_cons, List.append_assoc, List.lookup_append] at hlast
  cases hr : r.reverse.lookup k with
  | some x =>
    rw [hr, Option.some_or] at hlast
    have := mem_of_lookup (hr.trans hlast)
    exact absurd (List.mem_reverse.mp this) hafter
  | none =>
    rw [List.lookup_eq_none_iff] at hr
    rcases List.mem_append.mp hw with h | h
    · simpa using hl _ h
    · rcases List.mem_cons.mp h with h | h
      · exact (Prod.mk.inj h).2
      · simpa using hr _ (List.mem_reverse.mpr h)

end Dict
end LspClient
