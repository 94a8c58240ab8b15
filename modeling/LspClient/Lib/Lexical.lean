/-
# Resolving `..` by the text of a path alone

A path is a list of components, of which some lead to the parent. `resolveFrom`
follows it from a place. However long, it first climbs a number of levels and
then goes down by names (`climb`), so where it leads is read off the place it
starts at (`resolveFrom_climb`), and also whether that is below another place
(`prefix_resolveFrom`). A path that climbs out of a place and ends below it
passes through it again (`exists_return`).

Key definitions: `resolveFrom`, `resolve`, `climb`, `Reaches`.
Key theorems: `resolveFrom_climb`, `prefix_resolveFrom`, `exists_return`.
-/
import Mathlib.Data.List.Induction

namespace LspClient
namespace Lexical

variable {α : Type*} (isUp : α → Bool)

/-- The place a path leads to. Above the root there is only the root. -/
def resolveFrom (place : List α) : List α → List α
  | [] => place
  | x :: xs => if isUp x then resolveFrom place.dropLast xs else resolveFrom (place ++ [x]) xs

def resolve (path : List α) : List α := resolveFrom isUp [] path

/-- What a path comes to: levels up, then names down. -/
structure Climb (α : Type*) where
  up : ℕ
  down : List α
  deriving DecidableEq, Repr

def Climb.step (c : Climb α) (x : α) : Climb α :=
  if isUp x then (if c.down = [] then ⟨c.up + 1, []⟩ else ⟨c.up, c.down.dropLast⟩)
  else ⟨c.up, c.down ++ [x]⟩

def climb (path : List α) : Climb α := path.foldl (Climb.step isUp) ⟨0, []⟩

/-- The place a climb from `place` leads to. -/
def Climb.from (c : Climb α) (place : List α) : List α := place.take (place.length - c.up) ++ c.down

/-- A climb from `place` ends in `goal` or below it: it turns back at `goal` or
below, or its way down leads there. -/
def Climb.Reaches (c : Climb α) (place goal : List α) : Prop :=
  (goal <+: place ∧ goal.length ≤ place.length - c.up) ∨
    ∃ names, goal = place.take (place.length - c.up) ++ names ∧ names <+: c.down

variable {isUp}

theorem resolveFrom_append (place xs ys : List α) :
    resolveFrom isUp place (xs ++ ys) = resolveFrom isUp (resolveFrom isUp place xs) ys := by
  induction xs generalizing place with
  | nil => rfl
  | cons x xs ih =>
    simp only [List.cons_append, resolveFrom]
    split_ifs <;> exact ih _

theorem Climb.step_from (c : Climb α) (place : List α) (x : α) :
    (c.step isUp x).from place =
      if isUp x then (c.from place).dropLast else c.from place ++ [x] := by
  unfold step «from»
  by_cases hx : isUp x = true
  · by_cases hd : c.down = []
    · have hlen : min (min (place.length - c.up) place.length - 1) (place.length - c.up) =
          place.length - (c.up + 1) := by omega
      simp only [hx, hd, ↓reduceIte, List.append_nil]
      rw [List.dropLast_eq_take, List.take_take, List.length_take, hlen]
    · simp only [hx, hd, ↓reduceIte, List.dropLast_append_of_ne_nil hd]
  · simp only [hx, Bool.false_eq_true, ↓reduceIte, List.append_assoc]

/-- **Where a path leads** from a place. -/
theorem resolveFrom_climb (place path : List α) :
    resolveFrom isUp place path = (climb isUp path).from place := by
  have hfold : ∀ (path : List α) (c : Climb α),
      resolveFrom isUp (c.from place) path = (path.foldl (Climb.step isUp) c).from place := by
    intro path
    induction path with
    | nil => exact fun _ => rfl
    | cons x xs ih =>
      intro c
      rw [List.foldl_cons, ← ih, Climb.step_from, resolveFrom]
      split_ifs <;> rfl
  have hstart : (⟨0, []⟩ : Climb α).from place = place := by simp [Climb.from]
  rw [climb, ← hfold, hstart]

/-- A prefix of a list and some more. -/
theorem prefix_append_iff {g a b : List α} : g <+: a ++ b ↔ g <+: a ∨ ∃ t, g = a ++ t ∧ t <+: b := by
  constructor
  · intro h
    rcases List.prefix_or_prefix_of_prefix h (List.prefix_append a b) with hga | ⟨t, rfl⟩
    · exact Or.inl hga
    · exact Or.inr ⟨t, rfl, (List.prefix_append_right_inj a).mp h⟩
  · rintro (h | ⟨t, rfl, ht⟩)
    · exact h.trans (List.prefix_append a b)
    · exact (List.prefix_append_right_inj a).mpr ht

/-- A path leads below a goal just if its climb does. -/
theorem prefix_resolveFrom (goal place path : List α) :
    goal <+: resolveFrom isUp place path ↔ (climb isUp path).Reaches place goal := by
  rw [resolveFrom_climb, Climb.from, prefix_append_iff, List.prefix_take_iff]
  rfl

/-- A climb of no levels ends where it started, or below. -/
theorem Climb.reaches_self {c : Climb α} (h : c.up = 0) (place : List α) : c.Reaches place place :=
  Or.inl ⟨List.prefix_rfl, by omega⟩

theorem climb_append_singleton (path : List α) (x : α) :
    climb isUp (path ++ [x]) = (climb isUp path).step isUp x := by
  rw [climb, List.foldl_append]
  rfl

/-- **A path that climbs out of a place and ends below it** has come back to the
place on the way. -/
theorem exists_return {place path : List α} (hup : (climb isUp path).up ≠ 0)
    (hback : place <+: resolveFrom isUp place path) :
    ∃ before, before ≠ [] ∧ before <+: path ∧ resolveFrom isUp place before = place := by
  induction path using List.reverseRecOn with
  | nil => exact absurd rfl hup
  | append_singleton path x ih =>
    have hlast : resolveFrom isUp place (path ++ [x]) =
        if isUp x then (resolveFrom isUp place path).dropLast
        else resolveFrom isUp place path ++ [x] := by
      rw [resolveFrom_append]
      simp only [resolveFrom]
    have hpath : path ++ [x] ≠ [] := List.append_ne_nil_of_right_ne_nil _ (by simp)
    by_cases hin : place <+: resolveFrom isUp place path
    · by_cases hbefore : (climb isUp path).up = 0
      · -- the last step climbs out, so there is nowhere to climb to
        have hstep : isUp x = true ∧ (climb isUp path).down = [] := by
          rw [climb_append_singleton, Climb.step] at hup
          split_ifs at hup with hx hd
          · exact ⟨hx, hd⟩
          · exact absurd hbefore hup
          · exact absurd hbefore hup
        have hhere : resolveFrom isUp place path = place := by
          rw [resolveFrom_climb, Climb.from, hbefore, hstep.2]
          simp
        rw [if_pos hstep.1, hhere] at hlast
        have hnil : place = [] := by
          have hlen := hback.length_le
          rw [hlast, List.length_dropLast] at hlen
          exact List.eq_nil_of_length_eq_zero (by omega)
        refine ⟨path ++ [x], hpath, List.prefix_rfl, ?_⟩
        rw [hlast, hnil]
        rfl
      · obtain ⟨before, hne, hle, hreturn⟩ := ih hbefore hin
        exact ⟨before, hne, hle.trans (List.prefix_append _ _), hreturn⟩
    · -- the last step goes down, to the place itself
      refine ⟨path ++ [x], hpath, List.prefix_rfl, ?_⟩
      rw [hlast] at hback ⊢
      split_ifs at hback ⊢ with hx
      · exact absurd (hback.trans (List.dropLast_prefix _)) hin
      · exact ((List.prefix_concat_iff.mp hback).resolve_right hin).symm

end Lexical
end LspClient
