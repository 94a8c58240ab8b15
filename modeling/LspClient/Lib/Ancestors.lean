/-
# The ancestors of a place

A place is a list of names, and its ancestors are the beginnings of the list,
itself included, from the longest to the shortest. Any two of them are in line,
so the first one with a property is the one that all others with it are
ancestors of (`find?_ancestors`): the nearest.

Key definitions: `ancestors`, `Nearest`.
Key theorems: `Nearest.unique`, `find?_ancestors`, `find?_ancestors_none`.
-/
import Mathlib.Data.List.Infix

namespace LspClient
namespace Ancestors

variable {α : Type*}

/-- A place and what it is below, from itself to the root. -/
def ancestors (place : List α) : List (List α) := place.inits.reverse

theorem mem_ancestors {place a : List α} : a ∈ ancestors place ↔ a <+: place := by
  rw [ancestors, List.mem_reverse, List.mem_inits]

theorem ancestors_concat (place : List α) (x : α) :
    ancestors (place ++ [x]) = (place ++ [x]) :: ancestors place := by
  simp [ancestors, List.inits_append]

/-- The nearest of the ancestors with a property. -/
structure Nearest (P : List α → Prop) (place a : List α) : Prop where
  above : a <+: place
  holds : P a
  nearest : ∀ b, b <+: place → P b → b <+: a

theorem Nearest.unique {P : List α → Prop} {place a b : List α} (ha : Nearest P place a)
    (hb : Nearest P place b) : a = b :=
  (hb.nearest a ha.above ha.holds).eq_of_length_le (ha.nearest b hb.above hb.holds).length_le

theorem find?_ancestors_none {P : List α → Bool} {place : List α} :
    (ancestors place).find? P = none ↔ ∀ a, a <+: place → P a = false := by
  simp only [List.find?_eq_none, mem_ancestors, Bool.not_eq_true]

/-- **The first ancestor with a property is the nearest.** -/
theorem find?_ancestors {P : List α → Bool} {place a : List α} :
    (ancestors place).find? P = some a ↔ Nearest (fun l => P l = true) place a := by
  induction place using List.reverseRecOn with
  | nil =>
    show [[]].find? P = some a ↔ _
    rw [List.find?_singleton]
    constructor
    · intro h
      split_ifs at h with hP
      cases h
      exact ⟨List.prefix_rfl, hP, fun b hb _ => hb⟩
    · rintro ⟨habove, hP, -⟩
      obtain rfl := List.prefix_nil.mp habove
      rw [if_pos hP]
  | append_singleton place x ih =>
    rw [ancestors_concat, List.find?_cons]
    cases hP : P (place ++ [x]) with
    | true =>
      constructor
      · rintro ⟨⟩
        exact ⟨List.prefix_rfl, hP, fun b hb _ => hb⟩
      · intro h
        exact congrArg some ((h.nearest _ List.prefix_rfl hP).eq_of_length_le h.above.length_le)
    | false =>
      show (ancestors place).find? P = some a ↔ _
      rw [ih]
      -- the place itself does not have the property
      have hbelow : ∀ b, b <+: place ++ [x] → P b = true → b <+: place := fun b hb hPb =>
        (List.prefix_concat_iff.mp hb).resolve_left fun he => by
          rw [he, hP] at hPb
          cases hPb
      constructor
      · exact fun h => ⟨h.above.trans (List.prefix_append _ _), h.holds, fun b hb hPb =>
          h.nearest b (hbelow b hb hPb) hPb⟩
      · exact fun h => ⟨hbelow a h.above h.holds, h.holds, fun b hb hPb =>
          h.nearest b (hb.trans (List.prefix_append _ _)) hPb⟩

end Ancestors
end LspClient
