/-
# Counting in code units

Elements of a list may take several units each: `width` says how many. A
number of units names a cut between two elements if some first elements take
just so many, and then `elements` says how many these are (`elements_units`).
Counted in units a cut is no smaller than counted in elements, and as large
only if each element before it takes one unit (`units_eq_length_iff`).

Key definitions: `units`, `elements`.
Key theorems: `elements_units`, `units_eq_length_iff`.
-/
import Mathlib.Data.List.Basic
import Mathlib.Data.Nat.Notation

namespace LspClient
namespace CodeUnits

variable {α : Type*} (width : α → ℕ)

/-- The units of all elements. -/
def units : List α → ℕ
  | [] => 0
  | x :: xs => width x + units xs

/-- How many elements fit into the first `u` units. -/
def elements : List α → ℕ → ℕ
  | [], _ => 0
  | x :: xs, u => if u < width x then 0 else 1 + elements xs (u - width x)

theorem elements_le_length : ∀ (xs : List α) (u : ℕ), elements width xs u ≤ xs.length
  | [], _ => Nat.le_refl 0
  | x :: xs, u => by
    have ih := elements_le_length xs (u - width x)
    rw [elements, List.length_cons]
    split_ifs <;> omega

section Positive

variable {width} (hpos : ∀ x, 0 < width x)

include hpos

theorem length_le_units : ∀ xs : List α, xs.length ≤ units width xs
  | [] => Nat.le_refl 0
  | x :: xs => by
    have := hpos x
    have := length_le_units xs
    rw [List.length_cons, units]
    omega

/-- **The cut that some first elements make.** -/
theorem elements_units : ∀ (xs : List α) (k : ℕ), k ≤ xs.length →
    elements width xs (units width (xs.take k)) = k
  | [], k, hk => by
    rw [Nat.le_zero.mp hk]
    rfl
  | x :: xs, 0, _ => by
    rw [List.take_zero, units, elements, if_pos (hpos x)]
  | x :: xs, k + 1, hk => by
    have ih := elements_units xs k (Nat.le_of_succ_le_succ hk)
    have hge : ¬ width x + units width (xs.take k) < width x := by omega
    rw [List.take_succ_cons, units, elements, if_neg hge, Nat.add_sub_cancel_left, ih]
    omega

/-- Units are elements only where each element takes one. -/
theorem units_eq_length_iff : ∀ xs : List α,
    units width xs = xs.length ↔ ∀ x ∈ xs, width x = 1
  | [] => by simp [units]
  | x :: xs => by
    have ih := units_eq_length_iff xs
    have := hpos x
    have := length_le_units hpos xs
    rw [List.forall_mem_cons, ← ih, units, List.length_cons]
    omega

end Positive

end CodeUnits
end LspClient
