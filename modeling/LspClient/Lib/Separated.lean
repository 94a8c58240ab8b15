/-
# Texts joined at a separator

Texts joined at a separator make one text, and a text is split at every
separator. To split a text and join the pieces gives the text back. To join
texts and split gives them back just if there is one at least and none of them
holds the separator (`splitOn_intercalate_iff`).

An option is a key, with a value or without one. It is written `key=value` or
`key`, and read by a cut at the first sign (`formatOption_cut`, `cut_formatOption`).
So a list of options joined at a separator is read back just if no value holds
the separator (`readOptions_formatOptions_iff`).

Key definitions: `cut`, `formatOption`, `formatOptions`, `readOptions`, `valuesOf`.
Key theorems: `splitOn_intercalate_iff`, `readOptions_formatOptions_iff`.
-/
import Mathlib.Data.List.Basic

namespace LspClient
namespace Separated

variable {α : Type*}

section Split

variable [BEq α] [LawfulBEq α]

/-- A piece of a split text does not hold the separator. -/
theorem notMem_of_mem_splitOn {x : α} : ∀ {t piece : List α}, piece ∈ t.splitOn x → x ∉ piece
  | [], piece, h => by
    rw [List.splitOn_nil] at h
    rw [List.mem_singleton.mp h]
    exact List.not_mem_nil
  | a :: t, piece, h => by
    obtain ⟨first, rest, hsplit⟩ := List.exists_cons_of_ne_nil (List.splitOn_ne_nil x t)
    have hpieces : ∀ p ∈ first :: rest, x ∉ p := fun p hp => notMem_of_mem_splitOn (hsplit ▸ hp)
    rw [List.forall_mem_cons] at hpieces
    rw [List.splitOn_cons_eq_if_modifyHead, hsplit] at h
    split at h
    · rcases List.mem_cons.mp h with rfl | h
      · exact List.not_mem_nil
      · rcases List.mem_cons.mp h with rfl | h
        · exact hpieces.1
        · exact hpieces.2 piece h
    · rename_i hax
      rw [List.modifyHead_cons] at h
      rcases List.mem_cons.mp h with rfl | h
      · rw [List.mem_cons, not_or]
        exact ⟨fun heq => hax (by simp [heq]), hpieces.1⟩
      · exact hpieces.2 piece h

/-- **What comes back from a join**: texts that do not hold the separator, if there are any. -/
theorem splitOn_intercalate_iff {x : α} {texts : List (List α)} :
    ([x].intercalate texts).splitOn x = texts ↔ texts ≠ [] ∧ ∀ t ∈ texts, x ∉ t := by
  constructor
  · intro h
    refine ⟨fun hnil => List.splitOn_ne_nil x _ (h.trans hnil), fun t ht => ?_⟩
    rw [← h] at ht
    exact notMem_of_mem_splitOn ht
  · exact fun h => List.splitOn_intercalate x h.2 h.1

end Split

/-! ### Options -/

/-- A key with a value, or a key alone. -/
def formatOption (sign : α) : List α × Option (List α) → List α
  | (key, none) => key
  | (key, some value) => key ++ sign :: value

/-- The options joined at the separator. -/
def formatOptions (separator sign : α) (options : List (List α × Option (List α))) : List α :=
  [separator].intercalate (options.map (formatOption sign))

/-- Of options that are joined to one text, and differ in the last alone, the last is written alike. -/
theorem formatOption_of_append {separator sign : α} {options : List (List α × Option (List α))}
    {o o' : List α × Option (List α)} (h : formatOptions separator sign (options ++ [o]) =
      formatOptions separator sign (options ++ [o'])) : formatOption sign o = formatOption sign o' := by
  unfold formatOptions at h
  rw [List.map_append, List.map_append] at h
  generalize options.map (formatOption sign) = texts at h
  induction texts with
  | nil => simpa using h
  | cons t texts ih =>
    refine ih ?_
    cases texts <;> simpa [List.intercalate_cons_cons] using h

/-- The separator is in an option as written if it is in its key or its value. -/
theorem mem_formatOption_iff {separator sign : α} (hne : separator ≠ sign)
    {o : List α × Option (List α)} (hkey : separator ∉ o.1) :
    separator ∉ formatOption sign o ↔ ∀ value, o.2 = some value → separator ∉ value := by
  obtain ⟨key, _ | value⟩ := o
  · simpa [formatOption] using hkey
  · have hmem : separator ∈ key ++ sign :: value ↔ separator ∈ value := by
      simp [hne, show separator ∉ key from hkey]
    simp [formatOption, hmem]

variable [BEq α]

/-- What the options say of a key. -/
def valuesOf (key : List α) (options : List (List α × Option (List α))) : List (Option (List α)) :=
  (options.filter (·.1 == key)).map Prod.snd

theorem valuesOf_append (key : List α) (options more : List (List α × Option (List α))) :
    valuesOf key (options ++ more) = valuesOf key options ++ valuesOf key more := by
  unfold valuesOf
  rw [List.filter_append, List.map_append]

theorem valuesOf_of_ne {key : List α} {options : List (List α × Option (List α))}
    (h : ∀ o ∈ options, (o.1 == key) = false) : valuesOf key options = [] := by
  unfold valuesOf
  rw [List.filter_eq_nil_iff.mpr fun o ho => by simp [h o ho], List.map_nil]

/-- Options that all have one key. -/
theorem valuesOf_map (key k : List α) (values : List (Option (List α))) :
    valuesOf key (values.map (k, ·)) = if k == key then values else [] := by
  unfold valuesOf
  rw [List.filter_map, List.map_map]
  cases hk : k == key <;> simp [Function.comp_def, hk]

/-- What stands before the first sign, and what after it if there is one. -/
def cut (sign : α) : List α → List α × Option (List α)
  | [] => ([], none)
  | a :: t => if a == sign then ([], some t) else (a :: (cut sign t).1, (cut sign t).2)

/-- The options a text says. -/
def readOptions (separator sign : α) (t : List α) : List (List α × Option (List α)) :=
  (t.splitOn separator).map (cut sign)

variable [LawfulBEq α]

theorem formatOption_cut (sign : α) : ∀ t : List α, formatOption sign (cut sign t) = t
  | [] => rfl
  | a :: t => by
    have ih := formatOption_cut sign t
    rw [cut]
    split
    · rename_i h
      rw [formatOption, List.nil_append, eq_of_beq h]
    · generalize cut sign t = o at ih
      obtain ⟨key, _ | value⟩ := o
      · exact congrArg (a :: ·) ih
      · exact congrArg (a :: ·) ih

/-- What has been cut is put together again. -/
theorem map_formatOption_cut (sign : α) (pieces : List (List α)) :
    (pieces.map (cut sign)).map (formatOption sign) = pieces := by
  rw [List.map_map]
  exact (List.map_congr_left fun t _ => formatOption_cut sign t).trans (List.map_id _)

/-- What has been read from a text is written as that text. -/
theorem formatOptions_readOptions (separator sign : α) (t : List α) :
    formatOptions separator sign (readOptions separator sign t) = t := by
  rw [formatOptions, readOptions, map_formatOption_cut]
  exact List.intercalate_splitOn separator

theorem cut_of_notMem {sign : α} : ∀ {key : List α}, sign ∉ key → cut sign key = (key, none)
  | [], _ => rfl
  | a :: key, h => by
    rw [List.mem_cons, not_or] at h
    rw [cut, if_neg (by simpa using Ne.symm h.1), cut_of_notMem h.2]

theorem cut_append {sign : α} {value : List α} : ∀ {key : List α}, sign ∉ key →
    cut sign (key ++ sign :: value) = (key, some value)
  | [], _ => by rw [List.nil_append, cut, if_pos BEq.rfl]
  | a :: key, h => by
    rw [List.mem_cons, not_or] at h
    rw [List.cons_append, cut, if_neg (by simpa using Ne.symm h.1), cut_append h.2]

/-- An option whose key does not hold the sign is read back. -/
theorem cut_formatOption {sign : α} {o : List α × Option (List α)} (h : sign ∉ o.1) :
    cut sign (formatOption sign o) = o := by
  obtain ⟨key, _ | value⟩ := o
  · exact cut_of_notMem h
  · exact cut_append h

/-- **What options are read back**: those no value of which holds the separator. -/
theorem readOptions_formatOptions_iff {separator sign : α} (hne : separator ≠ sign)
    {options : List (List α × Option (List α))}
    (hkeys : ∀ o ∈ options, separator ∉ o.1 ∧ sign ∉ o.1) :
    readOptions separator sign (formatOptions separator sign options) = options ↔
      options ≠ [] ∧ ∀ o ∈ options, ∀ value, o.2 = some value → separator ∉ value := by
  have hcut : (options.map (formatOption sign)).map (cut sign) = options := by
    rw [List.map_map]
    exact (List.map_congr_left fun o ho => cut_formatOption (hkeys o ho).2).trans (List.map_id _)
  have hread : readOptions separator sign (formatOptions separator sign options) = options ↔
      (formatOptions separator sign options).splitOn separator = options.map (formatOption sign) := by
    unfold readOptions
    refine ⟨fun h => ?_, fun h => by rw [h, hcut]⟩
    rw [← map_formatOption_cut sign (List.splitOn _ _), h]
  rw [hread, formatOptions, splitOn_intercalate_iff, ne_eq, List.map_eq_nil_iff, List.forall_mem_map]
  exact and_congr_right fun _ => forall₂_congr fun o ho => mem_formatOption_iff hne (hkeys o ho).1

end Separated
end LspClient
