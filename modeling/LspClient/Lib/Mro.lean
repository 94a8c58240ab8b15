/-
# Linearization of a class hierarchy, and chains of `super()` calls

The method resolution order of a class is merged from those of its bases and
the list of the bases: again and again the first head that is in no other tail
is taken (`merge`). What comes out keeps each of the lists in order, holds what
they hold, and holds nothing twice.

A method that each class may override and that may go on with `super()` runs
along this order until a class does not go on (`ran`): a class is reached
exactly if every class before it that has the method goes on (`mem_ran_iff`),
and a call runs the bodies of the classes reached, the last one first (`call_eq`).

Key definitions: `merge`, `linearize`, `Step`, `ran`, `call`.
Key theorems: `merge_sublist`, `merge_nodup`, `mem_merge`, `pair_part`, `mem_ran_iff`,
`call_eq`.
-/
import Mathlib.Data.List.Nodup
import Mathlib.Data.List.Sublists

namespace LspClient
namespace Mro

variable {κ : Type} [DecidableEq κ]

/-! ### Merging -/

/-- The first head that is in no tail. -/
def pick (seqs : List (List κ)) : Option κ :=
  (seqs.filterMap List.head?).find? fun h => seqs.all fun s => h ∉ s.tail

/-- A list without its head, if that is `h`. -/
def dropHead (h : κ) : List κ → List κ
  | [] => []
  | x :: s => if x = h then s else x :: s

/-- The merge in so many steps, if it goes through. -/
def merge : ℕ → List (List κ) → Option (List κ)
  | 0, seqs => if seqs.all List.isEmpty then some [] else none
  | n + 1, seqs =>
    if seqs.all List.isEmpty then some []
    else (pick seqs).bind fun h => (merge n (seqs.map (dropHead h))).map (h :: ·)

/-- The merge: every step takes an element away. -/
def linearize (seqs : List (List κ)) : Option (List κ) := merge seqs.flatten.length seqs

theorem mem_dropHead {h x : κ} {s : List κ} (hx : x ∈ dropHead h s) : x ∈ s := by
  cases s with
  | nil => exact hx
  | cons y s =>
    rw [dropHead] at hx
    split_ifs at hx
    · exact List.mem_cons_of_mem _ hx
    · exact hx

theorem pick_tail {seqs : List (List κ)} {h : κ} (hp : pick seqs = some h) {s : List κ} (hs : s ∈ seqs) :
    h ∉ s.tail := by
  have hall := List.find?_some hp
  simpa using List.all_eq_true.mp hall s hs

theorem pick_head {seqs : List (List κ)} {h : κ} (hp : pick seqs = some h) :
    ∃ s ∈ seqs, s.head? = some h := by
  have hmem := List.mem_of_find?_eq_some hp
  obtain ⟨s, hs, hh⟩ := List.mem_filterMap.mp hmem
  exact ⟨s, hs, hh⟩

/-- A step of the merge. -/
theorem merge_succ {n : ℕ} {seqs : List (List κ)} {l : List κ} (h : merge (n + 1) seqs = some l) :
    (l = [] ∧ ∀ s ∈ seqs, s = []) ∨
      ∃ x l', pick seqs = some x ∧ merge n (seqs.map (dropHead x)) = some l' ∧ l = x :: l' := by
  rw [merge] at h
  split_ifs at h with hempty
  · cases h
    exact Or.inl ⟨rfl, fun s hs => by simpa using List.all_eq_true.mp hempty s hs⟩
  · obtain ⟨x, hx, hmap⟩ := Option.bind_eq_some_iff.mp h
    obtain ⟨l', hl', rfl⟩ := Option.map_eq_some_iff.mp hmap
    exact Or.inr ⟨x, l', hx, hl', rfl⟩

theorem merge_zero {seqs : List (List κ)} {l : List κ} (h : merge 0 seqs = some l) :
    l = [] ∧ ∀ s ∈ seqs, s = [] := by
  rw [merge] at h
  split_ifs at h with hempty
  cases h
  exact ⟨rfl, fun s hs => by simpa using List.all_eq_true.mp hempty s hs⟩

/-- **The merge keeps each list in order.** -/
theorem merge_sublist : ∀ {n : ℕ} {seqs : List (List κ)} {l : List κ}, merge n seqs = some l →
    ∀ s ∈ seqs, s.Sublist l
  | 0, _, _, h, s, hs => (merge_zero h).2 s hs ▸ List.nil_sublist _
  | n + 1, seqs, l, h, s, hs => by
    obtain ⟨-, hnil⟩ | ⟨x, l', hx, hl', rfl⟩ := merge_succ h
    · exact hnil s hs ▸ List.nil_sublist _
    · have hrest := merge_sublist hl' _ (List.mem_map_of_mem hs)
      cases s with
      | nil => exact List.nil_sublist _
      | cons y s =>
        rw [dropHead] at hrest
        split_ifs at hrest with hy
        · exact hy ▸ hrest.cons_cons x
        · exact hrest.cons x

/-- What is merged comes from the lists. -/
theorem mem_merge : ∀ {n : ℕ} {seqs : List (List κ)} {l : List κ}, merge n seqs = some l →
    ∀ x ∈ l, ∃ s ∈ seqs, x ∈ s
  | 0, _, _, h, x, hx => by
    rw [(merge_zero h).1] at hx
    cases hx
  | n + 1, seqs, l, h, x, hx => by
    obtain ⟨rfl, -⟩ | ⟨y, l', hy, hl', rfl⟩ := merge_succ h
    · cases hx
    · rcases List.mem_cons.mp hx with rfl | hx
      · obtain ⟨s, hs, hhead⟩ := pick_head hy
        exact ⟨s, hs, List.mem_of_head? hhead⟩
      · obtain ⟨t, ht, hxt⟩ := mem_merge hl' x hx
        obtain ⟨s, hs, rfl⟩ := List.mem_map.mp ht
        exact ⟨s, hs, mem_dropHead hxt⟩

/-- **The merge holds nothing twice.** -/
theorem merge_nodup : ∀ {n : ℕ} {seqs : List (List κ)} {l : List κ}, merge n seqs = some l → l.Nodup
  | 0, _, _, h => (merge_zero h).1 ▸ List.nodup_nil
  | n + 1, seqs, l, h => by
    obtain ⟨rfl, -⟩ | ⟨x, l', hx, hl', rfl⟩ := merge_succ h
    · exact List.nodup_nil
    · refine List.nodup_cons.mpr ⟨fun hmem => ?_, merge_nodup hl'⟩
      -- no list holds `x` behind its head, and the heads that are `x` are gone
      obtain ⟨t, ht, hxt⟩ := mem_merge hl' x hmem
      obtain ⟨s, hs, rfl⟩ := List.mem_map.mp ht
      have htail := pick_tail hx hs
      cases s with
      | nil => cases hxt
      | cons y s =>
        rw [dropHead] at hxt
        split_ifs at hxt with hy
        · exact htail hxt
        · rcases List.mem_cons.mp hxt with rfl | hin
          · exact hy rfl
          · exact htail hin

/-! ### A method along the order -/

/-- What a class does with the method: nothing of its own, or a body of its own
that goes on with `super()` or does not. -/
inductive Step where
  | inherits
  | goesOn
  | stops
  deriving DecidableEq, Repr

/-- The classes whose bodies run, in the order they are entered. -/
def ran (step : κ → Step) : List κ → List κ
  | [] => []
  | c :: rest =>
    match step c with
    | .inherits => ran step rest
    | .goesOn => c :: ran step rest
    | .stops => [c]

omit [DecidableEq κ] in
theorem ran_sublist (step : κ → Step) : ∀ l : List κ, (ran step l).Sublist l
  | [] => List.nil_sublist _
  | c :: rest => by
    unfold ran
    cases step c with
    | inherits => exact (ran_sublist step rest).cons c
    | goesOn => exact (ran_sublist step rest).cons_cons c
    | stops => exact (List.nil_sublist rest).cons_cons c

omit [DecidableEq κ] in
theorem pair_sublist_cons {x m c : κ} {l : List κ} :
    [x, m].Sublist (c :: l) ↔ (x = c ∧ m ∈ l) ∨ [x, m].Sublist l := by
  rw [List.sublist_cons_iff, or_comm]
  refine or_congr_left ⟨?_, ?_⟩
  · rintro ⟨r, hr, hsub⟩
    cases hr
    exact ⟨rfl, List.singleton_sublist.mp hsub⟩
  · rintro ⟨rfl, hm⟩
    exact ⟨[m], rfl, List.singleton_sublist.mpr hm⟩

omit [DecidableEq κ] in
/-- Of two different members, one comes first. -/
theorem pair_total {x y : κ} (hne : x ≠ y) : ∀ {l : List κ}, x ∈ l → y ∈ l →
    [x, y].Sublist l ∨ [y, x].Sublist l
  | c :: l, hx, hy => by
    rw [pair_sublist_cons, pair_sublist_cons]
    rcases List.mem_cons.mp hx with rfl | hx'
    · exact Or.inl (Or.inl ⟨rfl, (List.mem_cons.mp hy).resolve_left (Ne.symm hne)⟩)
    · rcases List.mem_cons.mp hy with rfl | hy'
      · exact Or.inr (Or.inl ⟨rfl, hx'⟩)
      · exact (pair_total hne hx' hy').imp Or.inr Or.inr

omit [DecidableEq κ] in
/-- In a list without repetitions, not both come first. -/
theorem pair_asymm {x y : κ} : ∀ {l : List κ}, l.Nodup → [x, y].Sublist l → ¬ [y, x].Sublist l
  | [], _, h => by simp at h
  | c :: l, hl, h => by
    obtain ⟨hc, hl⟩ := List.nodup_cons.mp hl
    rw [pair_sublist_cons] at h ⊢
    rintro (⟨rfl, hx⟩ | hyx)
    · obtain ⟨rfl, hy⟩ | hxy := h
      · exact hc hx
      · exact hc (hxy.subset (List.mem_cons_of_mem _ List.mem_cons_self))
    · obtain ⟨rfl, -⟩ | hxy := h
      · exact hc (hyx.subset (List.mem_cons_of_mem _ List.mem_cons_self))
      · exact pair_asymm hl hxy hyx

omit [DecidableEq κ] in
theorem pair_trans {x y z : κ} : ∀ {l : List κ}, l.Nodup → [x, y].Sublist l → [y, z].Sublist l →
    [x, z].Sublist l
  | [], _, h, _ => by simp at h
  | c :: l, hl, hxy, hyz => by
    obtain ⟨hc, hl⟩ := List.nodup_cons.mp hl
    have hy : y ∈ l := by
      obtain ⟨-, hy⟩ | hxy := pair_sublist_cons.mp hxy
      · exact hy
      · exact hxy.subset (List.mem_cons_of_mem _ List.mem_cons_self)
    -- the second pair is behind the first element, which is not `y`
    have hrest : [y, z].Sublist l :=
      (pair_sublist_cons.mp hyz).resolve_left fun hhead => hc (hhead.1 ▸ hy)
    have hz : z ∈ l := hrest.subset (List.mem_cons_of_mem _ List.mem_cons_self)
    rw [pair_sublist_cons]
    obtain ⟨hx, -⟩ | hxy := pair_sublist_cons.mp hxy
    · exact Or.inl ⟨hx, hz⟩
    · exact Or.inr (pair_trans hl hxy hrest)

omit [DecidableEq κ] in
/-- A part of the list has its members in the same order. -/
theorem pair_part {x y : κ} {l part : List κ} (hl : l.Nodup) (hpart : part.Sublist l) (hx : x ∈ part)
    (hy : y ∈ part) (h : [x, y].Sublist l) : [x, y].Sublist part := by
  have hne : x ≠ y := by
    rintro rfl
    exact pair_asymm hl h h
  exact (pair_total hne hx hy).resolve_right fun hyx => pair_asymm hl h (hyx.trans hpart)

omit [DecidableEq κ] in
/-- **A class is reached exactly if every class before it goes on.** -/
theorem mem_ran_iff (step : κ → Step) {m : κ} : ∀ {l : List κ}, l.Nodup →
    (m ∈ ran step l ↔ m ∈ l ∧ step m ≠ .inherits ∧ ∀ x, [x, m].Sublist l → step x ≠ .stops)
  | [], _ => by simp [ran]
  | c :: rest, h => by
    obtain ⟨hc, hrest⟩ := List.nodup_cons.mp h
    have ih := mem_ran_iff step (m := m) hrest
    have hran : c ∉ ran step rest := fun hin => hc ((ran_sublist step rest).subset hin)
    by_cases hm : m = c
    · -- the first class: nothing is before it
      subst hm
      have hfirst : ∀ x, ¬ [x, m].Sublist (m :: rest) := fun x hx =>
        (pair_sublist_cons.mp hx).elim (fun hin => hc hin.2)
          fun hsub => hc (hsub.subset (List.mem_cons_of_mem _ List.mem_cons_self))
      unfold ran
      cases hs : step m with
      | inherits => simpa using hran
      | goesOn => simpa using fun x hx => absurd hx (hfirst x)
      | stops => simpa using fun x hx => absurd hx (hfirst x)
    · have hmem : m ∈ c :: rest ↔ m ∈ rest := by simp [hm]
      have hpairs : (∀ x, [x, m].Sublist (c :: rest) → step x ≠ .stops) ↔
          (m ∈ rest → step c ≠ .stops) ∧ ∀ x, [x, m].Sublist rest → step x ≠ .stops := by
        simp only [pair_sublist_cons, or_imp, forall_and, and_imp, forall_eq]
      rw [hmem, hpairs]
      unfold ran
      cases hs : step c with
      | inherits => simpa using ih
      | goesOn => simpa [hm] using ih
      | stops => simpa [hm] using fun hin _ hnot => absurd hin hnot

/-- A call of the method on `s`: each body first makes its call of `super()`, if
it makes one. `none` is the `AttributeError` where no class is left that has it. -/
def call {σ : Type*} (step : κ → Step) (body : κ → σ → σ) : List κ → σ → Option σ
  | [], _ => none
  | c :: rest, s =>
    match step c with
    | .inherits => call step body rest s
    | .goesOn => (call step body rest s).map (body c)
    | .stops => some (body c s)

omit [DecidableEq κ] in
/-- **A call runs the bodies of the classes reached**, the last one first, if
some class ends the calls of `super()`. -/
theorem call_eq {σ : Type*} {step : κ → Step} {body : κ → σ → σ} {s : σ} : ∀ {l : List κ},
    (∃ c ∈ l, step c = .stops) → call step body l s = some ((ran step l).foldr body s)
  | [], h => by simp at h
  | c :: rest, h => by
    rw [call, ran]
    cases hc : step c with
    | inherits => exact call_eq (by simpa [hc] using h)
    | goesOn =>
      have hrest : call step body rest s = some ((ran step rest).foldr body s) :=
        call_eq (by simpa [hc] using h)
      simp [hrest]
    | stops => rfl

end Mro
end LspClient
