/-
# Texts and their lines

A Python `str` is the list of its characters. `splitlines` is
`str.splitlines(keepends=True)`: it breaks after every character of
`isLineBreak` and takes `\r\n` as one break. On a text whose only break is
`\n` (`LfOnly`) its lines begin where the `\n`s end (`take_splitlines_length`).

Key definitions: `splitlines`, `lineText`, `lineStart`, `LfOnly`.
Key theorems: `splitlines_flatten`, `take_splitlines_length`, `lf_mem_splitlines`.
-/
import Mathlib.Data.List.TakeWhile
import Mathlib.Data.Nat.Notation

namespace LspClient

/-- A `str`. -/
abbrev Text := List Char

/-- The characters `str.splitlines` breaks a line at. -/
def isLineBreak (c : Char) : Bool :=
  c = '\n' || c = '\r' || c = '\x0b' || c = '\x0c' || c = '\x1c' || c = '\x1d' || c = '\x1e' ||
    c = '\u0085' || c = '\u2028' || c = '\u2029'

/-- A line ends after `c` when `cs` follows: in `\r\n` it ends after the `\n`. -/
def endsLine (c : Char) (cs : Text) : Bool :=
  isLineBreak c && !(c = '\r' && cs.head? = some '\n')

/-- `str.splitlines(keepends=True)`. -/
def splitlines : Text → List Text
  | [] => []
  | c :: cs =>
    if endsLine c cs then [c] :: splitlines cs
    else match splitlines cs with
      | [] => [[c]]
      | l :: ls => (c :: l) :: ls

/-- A line without its terminator. -/
def lineText (line : Text) : Text := line.takeWhile (!isLineBreak ·)

/-- The offset at which line `l` of a text begins, lines ending at `\n` only
(the end of the text if it has fewer lines). -/
def lineStart : Text → ℕ → ℕ
  | _, 0 => 0
  | [], _ + 1 => 0
  | c :: cs, l + 1 => 1 + lineStart cs (if c = '\n' then l else l + 1)

/-- The only line terminator of the text is `\n`. -/
def LfOnly (s : Text) : Prop := ∀ c ∈ s, isLineBreak c = true → c = '\n'

instance (s : Text) : Decidable (LfOnly s) :=
  List.decidableBAll (fun c => isLineBreak c = true → c = '\n') s

theorem LfOnly.tail {c : Char} {s : Text} (h : LfOnly (c :: s)) : LfOnly s :=
  fun x hx => h x (List.mem_cons_of_mem _ hx)

/-- The lines of a text make up the text. -/
theorem splitlines_flatten : ∀ s : Text, (splitlines s).flatten = s
  | [] => rfl
  | c :: cs => by
    have ih := splitlines_flatten cs
    rw [splitlines]
    split_ifs
    · simp [ih]
    · cases hs : splitlines cs with
      | nil => rw [hs] at ih; simp [← ih]
      | cons l ls => rw [hs] at ih; simp [← ih]

theorem splitlines_ends {c : Char} {cs : Text} (h : endsLine c cs = true) :
    splitlines (c :: cs) = [c] :: splitlines cs := by
  rw [splitlines, if_pos h]

theorem splitlines_cons {c : Char} {cs : Text} (h : LfOnly (c :: cs)) : splitlines (c :: cs) =
    if c = '\n' then [c] :: splitlines cs
    else match splitlines cs with
      | [] => [[c]]
      | l :: ls => (c :: l) :: ls := by
  have hends : endsLine c cs = true ↔ c = '\n' := by
    constructor
    · intro he
      simp only [endsLine, Bool.and_eq_true] at he
      exact h c List.mem_cons_self he.1
    · rintro rfl
      rfl
  simp only [splitlines, hends]

/-- The lines before line `l` reach up to where line `l` begins. -/
theorem take_splitlines_length : ∀ (s : Text) (l : ℕ), LfOnly s →
    ((splitlines s).take l).flatten.length = lineStart s l
  | _, 0, _ => by simp [lineStart]
  | [], l + 1, _ => by simp [splitlines, lineStart]
  | c :: cs, l + 1, h => by
    rw [splitlines_cons h, lineStart]
    by_cases hc : c = '\n'
    · have ih := take_splitlines_length cs l h.tail
      simp only [hc, ↓reduceIte, List.take_succ_cons, List.flatten_cons, List.length_append, ih,
        List.length_singleton]
    · have ih := take_splitlines_length cs (l + 1) h.tail
      simp only [hc, ↓reduceIte]
      cases hs : splitlines cs with
      | nil =>
        rw [hs] at ih
        simp only [List.take_nil, List.flatten_nil, List.length_nil] at ih
        simp [← ih]
      | cons line ls =>
        rw [hs] at ih
        simp only [List.take_succ_cons, List.flatten_cons, List.length_append,
          List.length_cons] at ih ⊢
        omega

/-- Every line but the last one ends with `\n`. -/
theorem lf_mem_splitlines : ∀ (s : Text) (l : ℕ), LfOnly s → l + 1 < (splitlines s).length →
    '\n' ∈ (splitlines s).getD l []
  | [], _, _, h => by simp [splitlines] at h
  | c :: cs, l, h, hl => by
    rw [splitlines_cons h] at hl ⊢
    by_cases hc : c = '\n'
    · simp only [hc, ↓reduceIte, List.length_cons] at hl ⊢
      cases l with
      | zero => simp
      | succ l => exact lf_mem_splitlines cs l h.tail (by omega)
    · simp only [hc, ↓reduceIte] at hl ⊢
      cases hs : splitlines cs with
      | nil => rw [hs] at hl; simp at hl
      | cons line ls =>
        have ih := lf_mem_splitlines cs l h.tail
        rw [hs] at hl ih
        simp only [List.length_cons] at hl ih
        cases l with
        | zero => exact List.mem_cons_of_mem _ (ih (by omega))
        | succ l => exact ih (by omega)

/-- No line is empty. -/
theorem ne_nil_of_mem_splitlines : ∀ {s line : Text}, line ∈ splitlines s → line ≠ []
  | [], _, h => by cases h
  | c :: cs, line, h => by
    rw [splitlines] at h
    split_ifs at h
    · rcases List.mem_cons.mp h with rfl | h
      · nofun
      · exact ne_nil_of_mem_splitlines h
    · cases hs : splitlines cs with
      | nil =>
        rw [hs] at h
        rw [List.mem_singleton.mp h]
        nofun
      | cons l ls =>
        rw [hs] at h
        rcases List.mem_cons.mp h with rfl | h
        · nofun
        · exact ne_nil_of_mem_splitlines (hs ▸ List.mem_cons_of_mem l h)

/-- The text of a line with a terminator is shorter than the line. -/
theorem lineText_length_lt {line : Text} (h : '\n' ∈ line) : (lineText line).length < line.length := by
  rcases Nat.lt_or_ge (lineText line).length line.length with hlt | hge
  · exact hlt
  · have heq : lineText line = line := (List.takeWhile_sublist _).eq_of_length_le hge
    exact absurd (List.takeWhile_eq_self_iff.mp heq '\n' h) (by decide)

end LspClient
