/-
# Cutting and replacing in a list of lines

A list of lines stands for the concatenation of its lines, and a line number
with a column names a cut of it. `replace` puts new elements between two
cuts: the lines between them are joined into one, which keeps what stood
before the first cut and after the second (`replace_flatten`). It leaves
everything before the first cut where it was (`agree_replace`), so a later
replacement further to the left still finds its place; that is what `Agree`
records.

A replacement at the place of an earlier insertion finds what was inserted in
its way (`replace_insert_line`, `replace_insert_lines`).

Key definitions: `Lines.before`, `Lines.after`, `Lines.replace`, `Lines.Agree`, `Lines.Edited`.
Key theorems: `Lines.replace_flatten`, `Lines.agree_replace`, `Lines.Edited.replace`,
`Lines.replace_insert_line`.
-/
import Mathlib.Data.List.Basic
import Mathlib.Data.List.GetD
import Mathlib.Data.Nat.Notation

namespace LspClient
namespace Lines

variable {α : Type*}

/-- What stands before column `c` of line `l`. -/
def before (L : List (List α)) (l c : ℕ) : List α := (L.take l).flatten ++ (L.getD l []).take c

/-- What stands from column `c` of line `l` on. -/
def after (L : List (List α)) (l c : ℕ) : List α := (L.getD l []).drop c ++ (L.drop (l + 1)).flatten

/-- The cut, as an offset into the concatenation. -/
def offset (L : List (List α)) (l c : ℕ) : ℕ := (before L l c).length

/-- The lines with what stands between the two cuts replaced by `new`. -/
def replace (L : List (List α)) (l c l' c' : ℕ) (new : List α) : List (List α) :=
  L.take l ++ ((L.getD l []).take c ++ new ++ (L.getD l' []).drop c') :: L.drop (l' + 1)

/-- The cut `l`, `c` is no later than the cut `l'`, `c'`. -/
def NoLater (l c l' c' : ℕ) : Prop := l < l' ∨ l = l' ∧ c ≤ c'

/-- `L` and `M` have the same lines and columns before the cut. -/
structure Agree (L M : List (List α)) (l c : ℕ) : Prop where
  lt : l < L.length
  lines : L.take l = M.take l
  line : (L.getD l []).take c = (M.getD l []).take c

theorem before_append_after (L : List (List α)) {l : ℕ} (c : ℕ) (h : l < L.length) :
    before L l c ++ after L l c = L.flatten := by
  have hL : L = L.take l ++ L.getD l [] :: L.drop (l + 1) := by
    rw [List.getD_eq_getElem _ _ h, ← List.drop_eq_getElem_cons h, List.take_append_drop]
  calc before L l c ++ after L l c
      = (L.take l).flatten ++ (L.getD l [] ++ (L.drop (l + 1)).flatten) := by
        rw [before, after, List.append_assoc, ← List.append_assoc ((L.getD l []).take c),
          List.take_append_drop]
    _ = (L.take l ++ L.getD l [] :: L.drop (l + 1)).flatten := by simp
    _ = L.flatten := by rw [← hL]

theorem before_eq_take (L : List (List α)) {l : ℕ} (c : ℕ) (h : l < L.length) :
    before L l c = L.flatten.take (offset L l c) := by
  rw [← before_append_after L c h, offset, List.take_left]

theorem after_eq_drop (L : List (List α)) {l : ℕ} (c : ℕ) (h : l < L.length) :
    after L l c = L.flatten.drop (offset L l c) := by
  rw [← before_append_after L c h, offset, List.drop_left]

theorem offset_le_length (L : List (List α)) {l : ℕ} (c : ℕ) (h : l < L.length) :
    offset L l c ≤ L.flatten.length := by
  rw [← before_append_after L c h, List.length_append, offset]
  omega

/-- The offset of a cut inside its line. -/
theorem offset_eq (L : List (List α)) {l c : ℕ} (hc : c ≤ (L.getD l []).length) :
    offset L l c = (L.take l).flatten.length + c := by
  rw [offset, before, List.length_append, List.length_take, Nat.min_eq_left hc]

@[simp] theorem offset_nil (l c : ℕ) : offset ([] : List (List α)) l c = 0 := by
  simp [offset, before]

@[simp] theorem offset_cons_zero (x : List α) (L : List (List α)) (c : ℕ) :
    offset (x :: L) 0 c = min c x.length := by
  simp [offset, before]

@[simp] theorem offset_cons_succ (x : List α) (L : List (List α)) (l c : ℕ) :
    offset (x :: L) (l + 1) c = x.length + offset L l c := by
  simp [offset, before]

/-- On the next line every offset is greater, or the same. -/
theorem offset_le_next (c c' : ℕ) : ∀ (L : List (List α)) (l : ℕ), offset L l c ≤ offset L (l + 1) c'
  | [], _ => by simp
  | x :: L, 0 => by
    simp only [offset_cons_zero, offset_cons_succ]
    omega
  | x :: L, l + 1 => by
    have ih := offset_le_next c c' L l
    simp only [offset_cons_succ]
    omega

theorem offset_le_column (L : List (List α)) (l : ℕ) {c c' : ℕ} (h : c ≤ c') :
    offset L l c ≤ offset L l c' := by
  unfold offset before
  simp only [List.length_append, List.length_take]
  omega

/-- The whole of a line lies before every later line. -/
theorem take_add_getD_le (L : List (List α)) {l l' : ℕ} (hl' : l' < L.length) (h : l < l') :
    (L.take l).flatten.length + (L.getD l []).length ≤ (L.take l').flatten.length := by
  have hl : l < L.length := Nat.lt_trans h hl'
  have hsucc : (L.take (l + 1)).flatten.length =
      (L.take l).flatten.length + (L.getD l []).length := by
    rw [List.take_succ_eq_append_getElem hl, List.flatten_append, List.length_append,
      List.getD_eq_getElem _ _ hl]
    simp
  have hk : l' = (l + 1) + (l' - (l + 1)) := by omega
  rw [← hsucc, hk, List.take_add (i := l + 1), List.flatten_append, List.length_append]
  omega

/-- A later cut has no smaller offset. -/
theorem offset_mono (L : List (List α)) {l c l' c' : ℕ} (hl' : l' < L.length)
    (hc : c ≤ (L.getD l []).length) (hc' : c' ≤ (L.getD l' []).length) (h : NoLater l c l' c') :
    offset L l c ≤ offset L l' c' := by
  rw [offset_eq L hc, offset_eq L hc']
  rcases h with h | ⟨rfl, h⟩
  · have := take_add_getD_le L hl' h
    omega
  · omega

/-- A cut on a later line has a greater offset, unless the earlier one stands
at the very end of its line. -/
theorem offset_lt (L : List (List α)) {l c l' c' : ℕ} (hl' : l' < L.length)
    (hc : c < (L.getD l []).length) (hc' : c' ≤ (L.getD l' []).length) (h : l < l') :
    offset L l c < offset L l' c' := by
  rw [offset_eq L (Nat.le_of_lt hc), offset_eq L hc']
  have := take_add_getD_le L hl' h
  omega

/-! ### Agreement -/

theorem Agree.refl (L : List (List α)) {l : ℕ} (c : ℕ) (h : l < L.length) : Agree L L l c :=
  ⟨h, rfl, rfl⟩

theorem Agree.trans {L M N : List (List α)} {l c : ℕ} (h : Agree L M l c) (h' : Agree M N l c) :
    Agree L N l c :=
  ⟨h.lt, h.lines.trans h'.lines, h.line.trans h'.line⟩

theorem Agree.before_eq {L M : List (List α)} {l c : ℕ} (h : Agree L M l c) :
    before L l c = before M l c := by
  rw [before, before, h.lines, h.line]

theorem getD_of_take {L M : List (List α)} {l l' : ℕ} (h : L.take l' = M.take l') (hl : l < l') :
    L.getD l [] = M.getD l [] := by
  have hL := List.getElem?_take_of_lt (l := L) hl
  have hM := List.getElem?_take_of_lt (l := M) hl
  rw [h, hM] at hL
  rw [List.getD_eq_getElem?_getD, List.getD_eq_getElem?_getD, hL]

/-- Lists that agree before a cut agree before every earlier one. -/
theorem Agree.mono {L M : List (List α)} {l c l' c' : ℕ} (h : Agree L M l' c')
    (hle : NoLater l c l' c') : Agree L M l c := by
  rcases hle with hl | ⟨rfl, hc⟩
  · refine ⟨Nat.lt_trans hl h.lt, ?_, by rw [getD_of_take h.lines hl]⟩
    have := congrArg (List.take l) h.lines
    simpa only [List.take_take, Nat.min_eq_left (Nat.le_of_lt hl)] using this
  · refine ⟨h.lt, h.lines, ?_⟩
    have := congrArg (List.take c) h.line
    simpa only [List.take_take, Nat.min_eq_left hc] using this

/-- A column of the line of the one is a column of the line of the other. -/
theorem Agree.le_length {L M : List (List α)} {l c : ℕ} (h : Agree L M l c)
    (hc : c ≤ (M.getD l []).length) : c ≤ (L.getD l []).length := by
  have := congrArg List.length h.line
  simp only [List.length_take] at this
  omega

/-- What stands after the cut, read off the concatenation. -/
theorem Agree.after_eq {L M : List (List α)} {l c : ℕ} {rest : List α} (h : Agree L M l c)
    (hL : L.flatten = before M l c ++ rest) : after L l c = rest := by
  rw [← before_append_after L c h.lt, h.before_eq] at hL
  exact List.append_cancel_left hL

/-! ### Replacing -/

theorem replace_flatten (L : List (List α)) (l c l' c' : ℕ) (new : List α) :
    (replace L l c l' c' new).flatten = before L l c ++ (new ++ after L l' c') := by
  simp only [replace, before, after, List.flatten_append, List.flatten_cons, List.append_assoc]

theorem replace_take (L : List (List α)) {l : ℕ} (c l' c' : ℕ) (new : List α) (hl : l < L.length) :
    (replace L l c l' c' new).take l = L.take l := by
  rw [replace, List.take_left' (by rw [List.length_take]; omega)]

theorem replace_getD (L : List (List α)) {l : ℕ} (c l' c' : ℕ) (new : List α) (hl : l < L.length) :
    (replace L l c l' c' new).getD l [] =
      (L.getD l []).take c ++ new ++ (L.getD l' []).drop c' := by
  have hlen : (L.take l).length = l := by rw [List.length_take]; omega
  rw [replace, List.getD_append_right _ _ _ _ (Nat.le_of_eq hlen), hlen, Nat.sub_self,
    List.getD_cons_zero]

theorem agree_replace (L : List (List α)) {l c : ℕ} (l' c' : ℕ) (new : List α)
    (hl : l < L.length) (hc : c ≤ (L.getD l []).length) : Agree (replace L l c l' c' new) L l c := by
  refine ⟨?_, replace_take L c l' c' new hl, ?_⟩
  · rw [replace, List.length_append, List.length_take, List.length_cons]
    omega
  · rw [replace_getD L c l' c' new hl, List.append_assoc,
      List.take_left' (by rw [List.length_take]; omega)]

/-! ### A replacement after others -/

/-- `L` is `M` up to the cut, and holds `rest` from there on. -/
structure Edited (L M : List (List α)) (l c : ℕ) (rest : List α) : Prop where
  agree : Agree L M l c
  flatten : L.flatten = before M l c ++ rest

theorem Edited.refl (L : List (List α)) {l : ℕ} (c : ℕ) (h : l < L.length) :
    Edited L L l c (L.flatten.drop (offset L l c)) :=
  ⟨Agree.refl L c h, by rw [← after_eq_drop L c h, before_append_after L c h]⟩

/-- The cut after the last line. -/
theorem offset_end (L : List (List α)) : offset L L.length 0 = L.flatten.length := by
  rw [offset, before, List.take_length, List.take_zero, List.append_nil]

/-- One more line at the end. -/
theorem Edited.snoc (L : List (List α)) {l c : ℕ} (new : List α)
    (h : l < L.length ∨ l = L.length ∧ c = 0) :
    Edited (L ++ [new]) L l c (L.flatten.drop (offset L l c) ++ new) := by
  have hlen : l < (L ++ [new]).length := by rw [List.length_append, List.length_singleton]; omega
  have hflat : (L ++ [new]).flatten = L.flatten ++ new := by simp
  rcases h with h | ⟨rfl, rfl⟩
  · refine ⟨⟨hlen, List.take_append_of_le_length (Nat.le_of_lt h), ?_⟩, ?_⟩
    · rw [List.getD_append _ _ _ _ h]
    · rw [hflat, ← List.append_assoc, ← after_eq_drop L c h, before_append_after L c h]
  · refine ⟨⟨hlen, ?_, by rw [List.take_zero, List.take_zero]⟩, ?_⟩
    · rw [List.take_left, List.take_length]
    · rw [hflat, offset_end, List.drop_length, before, List.take_length, List.take_zero,
        List.append_nil, List.nil_append]

/-- A replacement up to the cut moves it to where the replacement begins. -/
theorem Edited.replace {L M : List (List α)} {l c l' c' : ℕ} {rest : List α}
    (h : Edited L M l' c' rest) (hc : c ≤ (M.getD l []).length) (hle : NoLater l c l' c')
    (new : List α) : Edited (replace L l c l' c' new) M l c (new ++ rest) := by
  have hstart := h.agree.mono hle
  refine ⟨(agree_replace L l' c' new hstart.lt (hstart.le_length hc)).trans hstart, ?_⟩
  rw [replace_flatten, h.agree.after_eq h.flatten, hstart.before_eq]

/-- The cut taken further to the left. -/
theorem Edited.back {L M : List (List α)} {l c l' c' : ℕ} {rest : List α}
    (h : Edited L M l' c' rest) (hl' : l' < M.length) (hc : c ≤ (M.getD l []).length)
    (hc' : c' ≤ (M.getD l' []).length) (hle : NoLater l c l' c') :
    Edited L M l c ((M.flatten.take (offset M l' c')).drop (offset M l c) ++ rest) := by
  have hl : l < M.length := by unfold NoLater at hle; omega
  have hoff := offset_mono M hl' hc hc' hle
  refine ⟨h.agree.mono hle, ?_⟩
  rw [h.flatten, before_eq_take M c' hl', before_eq_take M c hl, ← List.append_assoc]
  congr 1
  conv_lhs => rw [← List.take_append_drop (offset M l c) (List.take _ M.flatten)]
  rw [List.take_take, Nat.min_eq_left hoff]

/-! ### Replacing twice at one place -/

section Twice

variable (L : List (List α)) {l c l' c' : ℕ}

theorem insert_length (c : ℕ) (new : List α) (hl : l < L.length) :
    (replace L l c l c new).length = L.length := by
  rw [replace, List.length_append, List.length_take, List.length_cons, List.length_drop]
  omega

/-- An insertion leaves the later lines. -/
theorem insert_drop (c : ℕ) (new : List α) (hl : l < L.length) (h : l < l') :
    (replace L l c l c new).drop l' = L.drop l' := by
  obtain ⟨k, hk⟩ : ∃ k, l' = (L.take l).length + (k + 1) :=
    ⟨l' - l - 1, by rw [List.length_take]; omega⟩
  have hl' : l + 1 + k = l' := by rw [List.length_take] at hk; omega
  calc (replace L l c l c new).drop l'
      = (((L.getD l []).take c ++ new ++ (L.getD l []).drop c) :: L.drop (l + 1)).drop (k + 1) := by
        rw [replace, hk, List.drop_append, List.drop_of_length_le (by omega), Nat.add_sub_cancel_left,
          List.nil_append]
    _ = L.drop l' := by rw [List.drop_succ_cons, List.drop_drop, hl']

theorem insert_getD (c : ℕ) (new : List α) (hl : l < L.length) (h : l < l') :
    (replace L l c l c new).getD l' [] = L.getD l' [] := by
  have hget : ∀ M : List (List α), M.getD l' [] = (M.drop l').getD 0 [] := fun M => by
    rw [List.getD_eq_getElem?_getD, List.getD_eq_getElem?_getD, List.getElem?_drop, Nat.add_zero]
  rw [hget, hget, insert_drop L c new hl h]

/-- Inserting nothing. -/
theorem insert_nil (c : ℕ) (hl : l < L.length) : replace L l c l c [] = L := by
  rw [replace, List.append_nil, List.take_append_drop, List.getD_eq_getElem _ _ hl,
    ← List.drop_eq_getElem_cons hl, List.take_append_drop]

/-- What is replaced on the line of an insertion, from its place on, is counted
from the inserted elements on. -/
theorem replace_insert_line (s t : List α) (hl : l < L.length) (hc : c ≤ c')
    (hc' : c' ≤ (L.getD l []).length) : replace (replace L l c l c s) l c l c' t =
      replace L l c l c' (t ++ (s ++ ((L.getD l []).take c').drop c).drop (c' - c)) := by
  have hmid : (((L.getD l []).take c').drop c).length = c' - c := by
    rw [List.length_drop, List.length_take]
    omega
  have hline : (L.getD l []).drop c =
      ((L.getD l []).take c').drop c ++ (L.getD l []).drop c' := by
    conv_lhs => rw [← List.take_append_drop c' (L.getD l [])]
    rw [List.drop_append_of_le_length (by rw [List.length_take]; omega)]
  have hdrop : ((L.getD l []).take c ++ s ++ (L.getD l []).drop c).drop c' =
      (s ++ ((L.getD l []).take c').drop c).drop (c' - c) ++ (L.getD l []).drop c' := by
    have hlen : ((L.getD l []).take c).length = c := by rw [List.length_take]; omega
    calc ((L.getD l []).take c ++ s ++ (L.getD l []).drop c).drop c'
        = (s ++ (L.getD l []).drop c).drop (c' - c) := by
          rw [List.append_assoc, List.drop_append, List.drop_of_length_le (by omega), hlen, List.nil_append]
      _ = (s ++ ((L.getD l []).take c').drop c ++ (L.getD l []).drop c').drop (c' - c) := by
          rw [hline, List.append_assoc]
      _ = _ := List.drop_append_of_le_length (by rw [List.length_append, hmid]; omega)
  have htake : ((L.getD l []).take c ++ s ++ (L.getD l []).drop c).take c = (L.getD l []).take c := by
    rw [List.append_assoc, List.take_left' (by rw [List.length_take]; omega)]
  rw [replace, replace_take L c l c s hl, replace_getD L c l c s hl,
    insert_drop L c s hl (Nat.lt_succ_self l), htake, hdrop, replace]
  simp only [List.append_assoc]

/-- What is replaced up to a later line goes together with what was inserted before it. -/
theorem replace_insert_lines (s t : List α) (hl : l < L.length) (hc : c ≤ (L.getD l []).length)
    (h : l < l') : replace (replace L l c l c s) l c l' c' t = replace L l c l' c' t := by
  rw [replace, replace_take L c l c s hl, (agree_replace L l c s hl hc).line, insert_getD L c s hl h,
    insert_drop L c s hl (Nat.lt_succ_of_lt h), replace]

/-- Two insertions at one place: the later one comes first. -/
theorem insert_insert (s t : List α) (hl : l < L.length) (hc : c ≤ (L.getD l []).length) :
    replace (replace L l c l c s) l c l c t = replace L l c l c (t ++ s) := by
  have hmid : ((L.getD l []).take c).drop c = [] :=
    List.drop_of_length_le (by rw [List.length_take]; omega)
  rw [replace_insert_line L s t hl (Nat.le_refl c) hc, hmid, Nat.sub_self, List.drop_zero,
    List.append_nil]

end Twice

end Lines
end LspClient
