/-
# What a column counts, and where it ends

A column of LSP counts UTF-16 code units, for `general` offers no other
encoding, and one past the end of a line means the end of its text. The code
takes a column as an index into a `str` with its line end. So it may reach
further to the right than the column that was meant, at the start of an edit
and at its end (`editLines_columns`): the text it passes over at the start
stays before the new text, and what it passes over at the end is lost.

Key definitions: `meant`, `passedOver`, `clamp`, `PastText`.
Key theorems: `editLines_columns`, `apply_text_edits_utf16`, `apply_text_edits_clamped`.
-/
import LspClient.Lib.CodeUnits
import LspClient.TextEdit

namespace LspClient

/-- The same edit at another range. -/
def AnyTextEdit.withRange : AnyTextEdit → Range → AnyTextEdit
  | .textEdit _ newText, r => .textEdit r newText
  | .annotatedTextEdit _ newText annotationId, r => .annotatedTextEdit r newText annotationId
  | .snippetTextEdit _ snippet annotationId, r => .snippetTextEdit r snippet annotationId

@[simp] theorem AnyTextEdit.range_withRange (e : AnyTextEdit) (r : Range) : (e.withRange r).range = r := by
  cases e <;> rfl

@[simp] theorem getEditText_withRange (e : AnyTextEdit) (r : Range) :
    getEditText (e.withRange r) = getEditText e := by
  cases e <;> rfl

/-! ### One edit, and its columns -/

/-- The lines after those an edit from line `a` to line `b` is about. -/
def linesAfter (lines : List Text) (a b : ℕ) : List Text :=
  lines.drop ((if a < b ∧ b < lines.length then b else a) + 1)

/-- One round of the loop, whatever the columns and the end of the edit are. -/
theorem editLines_flatten (lines : List Text) (e : AnyTextEdit)
    (hs : e.range.start.line < lines.length) : (editLines lines e).flatten =
      (lines.take e.range.start.line).flatten ++
        ((lines.getD e.range.start.line []).take e.range.start.character ++
          (getEditText e ++ (lines.getD e.range.stop.line []).drop e.range.stop.character)) ++
        (linesAfter lines e.range.start.line e.range.stop.line).flatten := by
  have hs' : ¬ e.range.start.line ≥ lines.length := by omega
  have hset : ∀ x : Text, lines.set e.range.start.line x =
      lines.take e.range.start.line ++ x :: lines.drop (e.range.start.line + 1) := fun x => by
    rw [List.set_eq_take_append_cons_drop, if_pos hs]
  have hend : (if e.range.stop.line ≥ lines.length then [] else lines.getD e.range.stop.line []) =
      lines.getD e.range.stop.line [] := by
    split_ifs with h
    · rw [List.getD_eq_default _ _ h]
    · rfl
  unfold editLines linesAfter
  simp only [hs', if_false, hend, List.length_set]
  by_cases heq : e.range.start.line = e.range.stop.line
  · have hab : ¬ (e.range.start.line < e.range.stop.line ∧ e.range.stop.line < lines.length) := by omega
    rw [if_pos heq, if_neg hab, hset]
    simp [heq]
  · rw [if_neg heq]
    by_cases ht : e.range.stop.line < lines.length
    · have hlen : (lines.take e.range.start.line).length = e.range.start.line := by
        rw [List.length_take]
        omega
      -- what is deleted is empty if the edit ends above its start
      have hmax : max (e.range.start.line + 1) (e.range.stop.line + 1) =
          (if e.range.start.line < e.range.stop.line ∧ e.range.stop.line < lines.length then
            e.range.stop.line else e.range.start.line) + 1 := by
        split_ifs <;> omega
      obtain ⟨k, hk⟩ : ∃ k, max (e.range.start.line + 1) (e.range.stop.line + 1) =
          e.range.start.line + (k + 1) := ⟨max e.range.start.line e.range.stop.line -
            e.range.start.line, by omega⟩
      have hkeep : ∀ x : Text, delLines (lines.take e.range.start.line ++ x ::
          lines.drop (e.range.start.line + 1)) (e.range.start.line + 1) (e.range.stop.line + 1) =
            lines.take e.range.start.line ++ x :: lines.drop (e.range.start.line + (k + 1)) := fun x => by
        have htake : (lines.take e.range.start.line ++ x :: lines.drop (e.range.start.line + 1)).take
            (e.range.start.line + 1) = lines.take e.range.start.line ++ [x] := by
          rw [List.take_append, List.take_of_length_le (by omega), hlen, Nat.add_sub_cancel_left]
          rfl
        have hdrop : (lines.take e.range.start.line ++ x :: lines.drop (e.range.start.line + 1)).drop
            (e.range.start.line + (k + 1)) = lines.drop (e.range.start.line + (k + 1)) := by
          rw [List.drop_append, List.drop_of_length_le (by omega), hlen, Nat.add_sub_cancel_left,
            List.drop_succ_cons, List.drop_drop, List.nil_append]
          congr 1
          omega
        rw [delLines, hk, htake, hdrop, List.append_assoc, List.singleton_append]
      rw [if_pos ht, hset, hkeep, ← hmax, hk]
      simp
    · have hab : ¬ (e.range.start.line < e.range.stop.line ∧ e.range.stop.line < lines.length) :=
        fun h => ht h.2
      rw [if_neg ht, if_neg hab, hset]
      simp

/-- What stands on a line between two columns. -/
def between (line : Text) (k c : ℕ) : Text := (line.take c).drop k

theorem take_eq_between (line : Text) {k c : ℕ} (h : k ≤ c) :
    line.take c = line.take k ++ between line k c := by
  conv_lhs => rw [← List.take_append_drop k (line.take c), List.take_take, Nat.min_eq_left h]
  rfl

theorem drop_eq_between (line : Text) {k c : ℕ} (h : k ≤ c) :
    line.drop k = between line k c ++ line.drop c := by
  have hsplit := List.take_append_drop c line
  rw [take_eq_between line h, List.append_assoc] at hsplit
  exact List.append_cancel_left ((List.take_append_drop k line).trans hsplit.symm)

/-- **Columns further to the left.** They give the same just if what the
columns of the edit pass over at its start and at its end is the same, seen
past the new text. -/
theorem editLines_columns (lines : List Text) (e : AnyTextEdit)
    (hs : e.range.start.line < lines.length) {k k' : ℕ} (hk : k ≤ e.range.start.character)
    (hk' : k' ≤ e.range.stop.character) :
    (editLines lines e).flatten = (editLines lines
        (e.withRange ⟨⟨e.range.start.line, k⟩, ⟨e.range.stop.line, k'⟩⟩)).flatten ↔
      between (lines.getD e.range.start.line []) k e.range.start.character ++ getEditText e =
        getEditText e ++ between (lines.getD e.range.stop.line []) k' e.range.stop.character := by
  rw [editLines_flatten lines e hs, editLines_flatten lines _ (by simpa using hs)]
  simp only [AnyTextEdit.range_withRange, getEditText_withRange, List.append_cancel_right_eq,
    List.append_cancel_left_eq]
  rw [take_eq_between _ hk, drop_eq_between _ hk', List.append_assoc, List.append_cancel_left_eq,
    ← List.append_assoc, ← List.append_assoc, List.append_cancel_right_eq]

/-! ### A column past the end of the line -/

/-- A line is its text, and the `\n` after it unless it is the last one. -/
theorem line_eq_lineText : ∀ {s : Text}, LfOnly s → ∀ line ∈ splitlines s,
    line = lineText line ++ ['\n'] ∨ line = lineText line
  | [], _, line, hline => by cases hline
  | c :: cs, h, line, hline => by
    have ih := fun l hl => line_eq_lineText (s := cs) h.tail l hl
    rw [splitlines_cons h] at hline
    by_cases hc : c = '\n'
    · rw [if_pos hc] at hline
      rcases List.mem_cons.mp hline with rfl | hline
      · exact Or.inl (by rw [hc]; rfl)
      · exact ih line hline
    · have hbreak : isLineBreak c = false := by
        by_contra hb
        exact hc (h c List.mem_cons_self (by simpa using hb))
      have hcons : ∀ l : Text, lineText (c :: l) = c :: lineText l := fun l => by
        rw [lineText, List.takeWhile_cons_of_pos (by simpa using hbreak)]
        rfl
      rw [if_neg hc] at hline
      cases hsl : splitlines cs with
      | nil =>
        rw [hsl] at hline
        rw [List.mem_singleton.mp hline, hcons]
        exact Or.inr rfl
      | cons l ls =>
        rw [hsl] at hline ih
        rcases List.mem_cons.mp hline with rfl | hline
        · rw [hcons]
          exact (ih l List.mem_cons_self).imp (congrArg (c :: ·)) (congrArg (c :: ·))
        · exact ih line (List.mem_cons_of_mem _ hline)

/-- The line a position is on. -/
def lineOf (content : Text) (p : Position) : Text := (splitlines content).getD p.line []

theorem lineOf_past {content : Text} {p : Position} (h : (splitlines content).length ≤ p.line) :
    lineOf content p = [] := by
  rw [lineOf, List.getD_eq_default _ _ h]

/-- The position with its column no greater than the line's text is long. -/
def clamp (content : Text) (p : Position) : Position :=
  ⟨p.line, min p.character (lineText (lineOf content p)).length⟩

/-- The edit with both its columns clamped. -/
def clampEdit (content : Text) (e : AnyTextEdit) : AnyTextEdit :=
  e.withRange ⟨clamp content e.range.start, clamp content e.range.stop⟩

/-- The column is past the text of a line that has a line end. -/
def PastText (content : Text) (p : Position) : Prop :=
  (lineText (lineOf content p)).length < p.character ∧ '\n' ∈ lineOf content p

instance (content : Text) (p : Position) : Decidable (PastText content p) := by
  unfold PastText; infer_instance

/-- What a column past the text of a line passes over: the line end. -/
theorem between_clamp {content : Text} (hlf : LfOnly content) (p : Position) :
    between (lineOf content p) (clamp content p).character p.character =
      if PastText content p then ['\n'] else [] := by
  have hline : lineOf content p = lineText (lineOf content p) ++ ['\n'] ∨
      lineOf content p = lineText (lineOf content p) := by
    by_cases hp : p.line < (splitlines content).length
    · refine line_eq_lineText hlf _ ?_
      rw [lineOf, List.getD_eq_getElem _ _ hp]
      exact List.getElem_mem hp
    · rw [lineOf_past (Nat.le_of_not_lt hp)]
      exact Or.inr rfl
  have hnot : '\n' ∉ lineText (lineOf content p) := fun h => by
    have := List.mem_takeWhile_imp h
    simp [isLineBreak] at this
  show ((lineOf content p).take p.character).drop
    (min p.character (lineText (lineOf content p)).length) = _
  rcases Nat.lt_or_ge (lineText (lineOf content p)).length p.character with hlt | hge
  · rw [Nat.min_eq_right (Nat.le_of_lt hlt)]
    rcases hline with hline | hline
    · have hmem : '\n' ∈ lineOf content p := by
        rw [hline]
        exact List.mem_append_right _ List.mem_cons_self
      have hlen : (lineOf content p).length ≤ p.character := by
        rw [hline, List.length_append, List.length_singleton]
        exact hlt
      have hdrop : (lineText (lineOf content p) ++ ['\n']).drop (lineText (lineOf content p)).length =
          ['\n'] := List.drop_left
      rw [← hline] at hdrop
      rw [if_pos ⟨hlt, hmem⟩, List.take_of_length_le hlen, hdrop]
    · have hpast : ¬ PastText content p := fun h => hnot (hline ▸ h.2)
      rw [if_neg hpast]
      exact List.drop_of_length_le (by rw [← hline, List.length_take]; omega)
  · rw [Nat.min_eq_left hge, if_neg fun h : PastText content p => Nat.not_lt.mpr hge h.1]
    exact List.drop_of_length_le (by rw [List.length_take]; omega)

/-- A line end goes through the new text if there is nothing else in it. -/
theorem cons_eq_concat_iff {c : Char} : ∀ {t : Text}, c :: t = t ++ [c] ↔ ∀ d ∈ t, d = c
  | [] => by simp
  | d :: t => by
    have ih := cons_eq_concat_iff (c := c) (t := t)
    rw [List.forall_mem_cons, ← ih, List.cons_append, List.cons.injEq]
    constructor
    · rintro ⟨rfl, h⟩
      exact ⟨rfl, h⟩
    · rintro ⟨rfl, h⟩
      exact ⟨rfl, h⟩

/-- **A column past the end of a line means the end of its text just if** no
line end is passed over, or one at the start and one at the end with new text
of line ends only between them. An edit that starts after the last line has no
column to clamp. -/
theorem apply_text_edits_clamped (content : Text) (e : AnyTextEdit) (hlf : LfOnly content) :
    applyTextEdits content [e] = applyTextEdits content [clampEdit content e] ↔
      (splitlines content).length ≤ e.range.start.line ∨
      (¬ PastText content e.range.start ∧ ¬ PastText content e.range.stop) ∨
      (PastText content e.range.start ∧ PastText content e.range.stop ∧
        ∀ c ∈ getEditText e, c = '\n') := by
  rw [applyTextEdits_singleton, applyTextEdits_singleton]
  rcases Nat.lt_or_ge e.range.start.line (splitlines content).length with hs | hs
  · have hle : ∀ p : Position, (clamp content p).character ≤ p.character := fun p => Nat.min_le_left _ _
    have hcol := editLines_columns (splitlines content) e hs
      (hle e.range.start) (hle e.range.stop)
    have hstart := between_clamp hlf e.range.start
    have hstop := between_clamp hlf e.range.stop
    unfold lineOf at hstart hstop
    rw [hstart, hstop] at hcol
    refine hcol.trans ?_
    by_cases h1 : PastText content e.range.start <;> by_cases h2 : PastText content e.range.stop <;>
      simp [h1, h2, Nat.not_le.mpr hs, cons_eq_concat_iff]
  · have hpast : ∀ e' : AnyTextEdit, e'.range.start.line = e.range.start.line →
        getEditText e' = getEditText e → editLines (splitlines content) e' =
          (padLines (splitlines content) e.range.start.line).set e.range.start.line (getEditText e) := by
      intro e' hline htext
      unfold editLines
      simp only [hline, htext, ge_iff_le, hs, if_true]
    rw [hpast e rfl rfl, hpast (clampEdit content e) (by simp [clampEdit, clamp]) (by simp [clampEdit])]
    exact ⟨fun _ => Or.inl hs, fun _ => rfl⟩

/-- A column past the last line, which has no line end. -/
theorem apply_text_edits_clamped_last :
    applyTextEdits "ab\ncd".toList [.textEdit ⟨⟨0, 1⟩, ⟨1, 9⟩⟩ "X".toList] =
      applyTextEdits "ab\ncd".toList
        [clampEdit "ab\ncd".toList (.textEdit ⟨⟨0, 1⟩, ⟨1, 9⟩⟩ "X".toList)] :=
  (apply_text_edits_clamped "ab\ncd".toList (.textEdit ⟨⟨0, 1⟩, ⟨1, 9⟩⟩ "X".toList) (by decide)).mpr
    (by decide)

/-- **An insertion past the end of a line goes to the next line.** -/
theorem apply_text_edits_past_text :
    LfOnly "ab\ncd".toList ∧
      applyTextEdits "ab\ncd".toList [.textEdit ⟨⟨0, 5⟩, ⟨0, 5⟩⟩ "X".toList] = "ab\nXcd".toList ∧
      clampEdit "ab\ncd".toList (.textEdit ⟨⟨0, 5⟩, ⟨0, 5⟩⟩ "X".toList) =
        .textEdit ⟨⟨0, 2⟩, ⟨0, 2⟩⟩ "X".toList ∧
      applyTextEdits "ab\ncd".toList [.textEdit ⟨⟨0, 2⟩, ⟨0, 2⟩⟩ "X".toList] = "abX\ncd".toList := by
  rw [applyTextEdits_singleton, applyTextEdits_singleton]
  decide

/-! ### Columns that count code units -/

/-- `PositionEncodingKind`: what a column counts. -/
inductive PositionEncodingKind where
  | utf8
  | utf16
  | utf32
  deriving DecidableEq, Repr

/-- The code units of a character. -/
def PositionEncodingKind.width : PositionEncodingKind → Char → ℕ
  | .utf8, c => c.utf8Size
  | .utf16, c => if c.toNat < 0x10000 then 1 else 2
  | .utf32, _ => 1

theorem PositionEncodingKind.width_pos (k : PositionEncodingKind) (c : Char) : 0 < k.width c := by
  cases k with
  | utf8 => exact c.utf8Size_pos
  | utf16 =>
    simp only [width]
    split_ifs <;> omega
  | utf32 => exact Nat.one_pos

/-- `position_encodings` of `build_client_capabilities(cls).general`: it is left
as `GeneralClientCapabilities()` has it (`general_unset`). -/
def generalPositionEncodings : Option (List PositionEncodingKind) := none

/-- What columns count between a client that offers encodings and a server
that picks one: UTF-16 code units if nothing is offered. -/
def agreedEncoding (offered : Option (List PositionEncodingKind)) (picked : PositionEncodingKind) :
    PositionEncodingKind :=
  match offered with
  | none => .utf16
  | some kinds => if picked ∈ kinds then picked else .utf16

section Units

variable (picked : PositionEncodingKind)

/-- The width of a character in a column, as client and server have agreed. -/
def columnWidth : Char → ℕ := (agreedEncoding generalPositionEncodings picked).width

theorem columnWidth_eq (c : Char) : columnWidth picked c = if c.toNat < 0x10000 then 1 else 2 := rfl

theorem columnWidth_pos (c : Char) : 0 < columnWidth picked c :=
  PositionEncodingKind.width_pos _ c

variable (content : Text)

/-- The position that is meant, with its column counted in characters. -/
def meant (p : Position) : Position :=
  ⟨p.line, CodeUnits.elements (columnWidth picked) (lineText (lineOf content p)) p.character⟩

/-- The column cuts the text of an existing line between two characters, or
the position is the end. -/
def OnBoundary (p : Position) : Prop :=
  (p.line < (splitlines content).length ∧ ∃ k ≤ (lineText (lineOf content p)).length,
    p.character = CodeUnits.units (columnWidth picked) ((lineText (lineOf content p)).take k)) ∨
  AtEnd content p

/-- What the code passes over on the line, from the column that is meant to
the one it takes. -/
def passedOver (p : Position) : Text :=
  between (lineOf content p) (meant picked content p).character p.character

end Units

section Meant

variable {picked : PositionEncodingKind} {content : Text} {p : Position}

theorem OnBoundary.le (h : OnBoundary picked content p) :
    (meant picked content p).character ≤ p.character := by
  rcases h with ⟨-, k, hk, hp⟩ | ⟨hp, -⟩
  · have hlen := CodeUnits.length_le_units (columnWidth_pos picked)
      ((lineText (lineOf content p)).take k)
    rw [List.length_take, Nat.min_eq_left hk, ← hp] at hlen
    unfold meant
    rw [hp, CodeUnits.elements_units (columnWidth_pos picked) _ k hk, ← hp]
    exact hlen
  · unfold meant
    rw [lineOf_past (by rw [hp])]
    exact Nat.zero_le _

/-- What is meant is a position of the document. -/
theorem OnBoundary.inside (h : OnBoundary picked content p) :
    Inside content (meant picked content p) := by
  rcases h with ⟨hline, -⟩ | ⟨hp, hend⟩
  · exact Or.inl ⟨hline, CodeUnits.elements_le_length _ _ _⟩
  · refine Or.inr ⟨?_, hend⟩
    unfold meant
    rw [lineOf_past (by rw [hp]), hp]
    rfl

/-- Nothing is passed over where every character before the column takes one
unit, or where the column is the end of a line without a line end. -/
theorem passedOver_eq_nil_iff (h : OnBoundary picked content p) : passedOver picked content p = [] ↔
    (∀ c ∈ (lineText (lineOf content p)).take (meant picked content p).character, c.toNat < 0x10000) ∨
      (lineOf content p).length ≤ (meant picked content p).character := by
  have hle := h.le
  have hempty : passedOver picked content p = [] ↔ p.character ≤ (meant picked content p).character ∨
      (lineOf content p).length ≤ (meant picked content p).character := by
    rw [passedOver, between, List.drop_eq_nil_iff, List.length_take]
    omega
  rw [hempty]
  refine or_congr_left ?_
  rcases h with ⟨-, k, hk, hp⟩ | ⟨hp, -⟩
  · have hm : (meant picked content p).character = k := by
      unfold meant
      rw [hp, CodeUnits.elements_units (columnWidth_pos picked) _ k hk]
    have hiff := CodeUnits.units_eq_length_iff (columnWidth_pos picked)
      ((lineText (lineOf content p)).take k)
    have hle' := CodeUnits.length_le_units (columnWidth_pos picked)
      ((lineText (lineOf content p)).take k)
    rw [List.length_take, Nat.min_eq_left hk, ← hp] at hiff hle'
    rw [hm]
    refine (show p.character ≤ k ↔ p.character = k by omega).trans (hiff.trans ?_)
    refine forall₂_congr fun c _ => ?_
    rw [columnWidth_eq]
    split_ifs <;> omega
  · rw [lineOf_past (by rw [hp]), hp]
    simp [lineText]

/-- One edit between two positions of lines that exist, the end no line above the start. -/
theorem editLines_existing {content : Text} (hlf : LfOnly content) (e : AnyTextEdit)
    (hs : Existing content e.range.start) (ht : Existing content e.range.stop)
    (hle : e.range.start.line ≤ e.range.stop.line) : (editLines (splitlines content) e).flatten =
      content.take (offsetAt content e.range.start) ++ getEditText e ++
        content.drop (offsetAt content e.range.stop) := by
  have hafter : linesAfter (splitlines content) e.range.start.line e.range.stop.line =
      (splitlines content).drop (e.range.stop.line + 1) := by
    unfold linesAfter
    congr 2
    split_ifs with h
    · rfl
    · have := ht.1
      omega
  rw [editLines_flatten _ e hs.1, hafter, ← before_splitlines hlf hs.onLine,
    ← after_splitlines hlf ht.onLine, Lines.before, Lines.after]
  simp only [List.append_assoc]

/-- **Columns of UTF-16 code units are taken right just if** what is passed
over at the start and at the end is the same, seen past the new text; nothing
is where only characters of one unit stand before both columns
(`passedOver_eq_nil_iff`). An edit that reaches the end must besides start on
the last line. -/
theorem apply_text_edits_utf16 (picked : PositionEncodingKind) (content : Text) (e : AnyTextEdit)
    (hlf : LfOnly content) (hs : OnBoundary picked content e.range.start)
    (ht : OnBoundary picked content e.range.stop) (hle : e.range.start.le e.range.stop) :
    applyTextEdits content [e] =
        content.take (offsetAt content (meant picked content e.range.start)) ++ getEditText e ++
          content.drop (offsetAt content (meant picked content e.range.stop)) ↔
      if e.range.stop.line < (splitlines content).length then
        passedOver picked content e.range.start ++ getEditText e =
          getEditText e ++ passedOver picked content e.range.stop
      else passedOver picked content e.range.start = [] ∧
        (splitlines content).length ≤ e.range.start.line + 1 := by
  rw [applyTextEdits_singleton]
  have hlines : e.range.start.line ≤ e.range.stop.line := by
    unfold Position.le Lines.NoLater at hle
    omega
  have hends : ∀ p : Position, OnBoundary picked content p → (splitlines content).length ≤ p.line →
      AtEnd content p ∧ content.drop (offsetAt content (meant picked content p)) = [] ∧
        passedOver picked content p = [] := fun p hp hn => by
    have hin := (hp.inside).resolve_left fun h => Nat.not_lt.mpr hn h.1
    have hend : AtEnd content p := hp.resolve_left fun h => Nat.not_lt.mpr hn h.1
    refine ⟨hend, by rw [hin.offsetAt_eq hlf, List.drop_length], ?_⟩
    rw [passedOver, lineOf_past hn, between, List.take_nil, List.drop_nil]
  have hon : ∀ p : Position, OnBoundary picked content p → p.line < (splitlines content).length →
      Existing content (meant picked content p) := fun p hp hn =>
    hp.inside.resolve_right fun h => by
      have := congrArg Position.line h.1
      simp only [meant] at this
      omega
  rcases Nat.lt_or_ge e.range.start.line (splitlines content).length with hsn | hsn
  · have hsl := hon _ hs hsn
    by_cases htn : e.range.stop.line < (splitlines content).length
    · rw [if_pos htn]
      have hmeant := editLines_existing hlf (e.withRange ⟨meant picked content e.range.start,
        meant picked content e.range.stop⟩) (by simpa using hsl) (by simpa using hon _ ht htn)
        (by simpa [meant] using hlines)
      simp only [AnyTextEdit.range_withRange, getEditText_withRange] at hmeant
      rw [← hmeant]
      exact editLines_columns (splitlines content) e hsn hs.le ht.le
    · rw [if_neg htn]
      obtain ⟨-, hdrop, -⟩ := hends _ ht (Nat.le_of_not_lt htn)
      have hbefore : Lines.before (splitlines content) e.range.start.line e.range.start.character =
          content.take (offsetAt content (meant picked content e.range.start)) ++
            passedOver picked content e.range.start := by
        rw [← before_splitlines hlf hsl.onLine, Lines.before, Lines.before, List.append_assoc]
        exact congrArg _ (take_eq_between _ hs.le)
      rw [editLines_past_end_flatten _ e hsn (Nat.le_of_not_lt htn), hbefore, hdrop,
        ← drop_splitlines_eq_nil]
      simp only [List.append_assoc, List.append_nil, List.append_cancel_left_eq]
      constructor
      · intro h
        have hlen := congrArg List.length h
        simp only [List.length_append] at hlen
        exact ⟨List.length_eq_zero_iff.mp (by omega), List.length_eq_zero_iff.mp (by omega)⟩
      · rintro ⟨h1, h2⟩
        rw [h1, h2, List.nil_append, List.append_nil]
  · obtain ⟨hsend, -, hpass⟩ := hends _ hs hsn
    obtain ⟨-, hdrop, -⟩ := hends _ ht (le_trans hsn hlines)
    have hline : e.range.start.line = (splitlines content).length := by rw [hsend.1]
    have hin := hs.inside.resolve_left fun h => Nat.not_lt.mpr hsn h.1
    rw [if_neg (Nat.not_lt.mpr (le_trans hsn hlines)), editLines_at_end _ e hline, splitlines_flatten,
      hin.offsetAt_eq hlf, List.take_length, hdrop, List.append_nil]
    exact ⟨fun _ => ⟨hpass, by omega⟩, fun _ => rfl⟩

end Meant

/-- An edit below a character of two units. -/
theorem apply_text_edits_utf16_below :
    applyTextEdits "😀\nab".toList [.textEdit ⟨⟨1, 0⟩, ⟨1, 1⟩⟩ "X".toList] = "😀\nXb".toList := by
  rw [(apply_text_edits_utf16 .utf16 "😀\nab".toList (.textEdit ⟨⟨1, 0⟩, ⟨1, 1⟩⟩ "X".toList) (by decide)
    (Or.inl ⟨by decide, 0, by decide, by decide⟩) (Or.inl ⟨by decide, 1, by decide, by decide⟩)
    (by decide)).mpr (by decide)]
  decide

/-- **A character of two units moves the rest of its line.** -/
theorem apply_text_edits_astral :
    LfOnly "😀b".toList ∧ OnBoundary .utf16 "😀b".toList ⟨0, 2⟩ ∧ OnBoundary .utf16 "😀b".toList ⟨0, 3⟩ ∧
      applyTextEdits "😀b".toList [.textEdit ⟨⟨0, 2⟩, ⟨0, 3⟩⟩ "X".toList] = "😀bX".toList ∧
      "😀b".toList.take (offsetAt "😀b".toList (meant .utf16 "😀b".toList ⟨0, 2⟩)) ++ "X".toList ++
        "😀b".toList.drop (offsetAt "😀b".toList (meant .utf16 "😀b".toList ⟨0, 3⟩)) = "😀X".toList := by
  refine ⟨by decide, Or.inl ⟨by decide, 1, by decide, by decide⟩,
    Or.inl ⟨by decide, 2, by decide, by decide⟩, ?_, by decide⟩
  rw [applyTextEdits_singleton]
  decide

end LspClient
