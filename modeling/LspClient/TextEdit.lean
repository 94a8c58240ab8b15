/-
# `apply_text_edits`

`apply_text_edits` of `utils/workspace_edit.py` splits the content into
lines, sorts the edits by their start from last to first and works each off
on the list of lines (`editLines`, the body of its loop). On a position that
exists, one round of the loop is `Lines.replace` (`editLines_eq_replace`), and
the rounds that follow lie further to the left, where it changed nothing: so
the loop, from the first edit it reaches to the last, computes
`Splice.splice` of the original text (`editAll_splice`). The batch therefore
means what a batch of edits means, `Splice.simultaneous`
(`apply_text_edits_simultaneous`), in whatever order it is listed.

An edit whose end is past the last line is worked off by a branch of its own,
which keeps the lines after the edit's first one (`apply_text_edits_to_end`).

Key definitions: `editLines`, `applyTextEdits`, `Existing`, `spanOf`.
Key theorems: `editAll_splice`, `apply_text_edits_simultaneous`,
`apply_text_edits_to_end`.
-/
import LspClient.Lib.Lines
import LspClient.Lib.Splice
import LspClient.Text
import Mathlib.Data.List.Sort

namespace LspClient

/-- `lsp_type.Position`. -/
structure Position where
  line : ℕ
  character : ℕ
  deriving DecidableEq, Repr

/-- The order of positions, `(line, character)` as Python tuples. -/
def Position.le (p q : Position) : Prop := Lines.NoLater p.line p.character q.line q.character

instance (p q : Position) : Decidable (p.le q) := by
  unfold Position.le Lines.NoLater; infer_instance

theorem Position.le_trans {p q r : Position} (h : p.le q) (h' : q.le r) : p.le r := by
  unfold Position.le Lines.NoLater at *; omega

theorem Position.le_total (p q : Position) : p.le q ∨ q.le p := by
  unfold Position.le Lines.NoLater; omega

theorem Position.le_antisymm {p q : Position} (h : p.le q) (h' : q.le p) : p = q := by
  obtain ⟨l, c⟩ := p
  obtain ⟨l', c'⟩ := q
  simp only [Position.le, Lines.NoLater] at h h'
  simp only [Position.mk.injEq]
  omega

/-- `lsp_type.Range`; the field `end` is `stop`. -/
structure Range where
  start : Position
  stop : Position
  deriving DecidableEq, Repr

/-- `AnyTextEdit`: `TextEdit`, `AnnotatedTextEdit` or `SnippetTextEdit`. -/
inductive AnyTextEdit where
  | textEdit (range : Range) (newText : Text)
  | annotatedTextEdit (range : Range) (newText : Text) (annotationId : Text)
  | snippetTextEdit (range : Range) (snippet : Text) (annotationId : Option Text)
  deriving DecidableEq, Repr

/-- `edit.range`. -/
def AnyTextEdit.range : AnyTextEdit → Range
  | .textEdit r _ => r
  | .annotatedTextEdit r _ _ => r
  | .snippetTextEdit r _ _ => r

/-- `get_edit_text`: a snippet is taken as plain text. -/
def getEditText : AnyTextEdit → Text
  | .snippetTextEdit _ snippet _ => snippet
  | .textEdit _ newText => newText
  | .annotatedTextEdit _ newText _ => newText

/-- `while len(lines) <= start_line: lines.append("\n")`. -/
def padLines (lines : List Text) (startLine : ℕ) : List Text :=
  lines ++ List.replicate (startLine + 1 - lines.length) ['\n']

/-- `del lines[a:b]`. -/
def delLines (lines : List Text) (a b : ℕ) : List Text := lines.take a ++ lines.drop (max a b)

/-- One round of the loop of `apply_text_edits`. -/
def editLines (lines : List Text) (edit : AnyTextEdit) : List Text :=
  let newText := getEditText edit
  let startLine := edit.range.start.line
  let startChar := edit.range.start.character
  let endLine := edit.range.stop.line
  let endChar := edit.range.stop.character
  if startLine ≥ lines.length then
    -- beyond the end of the file
    (padLines lines startLine).set startLine newText
  else
    let startLineContent := lines.getD startLine []
    let endLineContent := if endLine ≥ lines.length then [] else lines.getD endLine []
    if startLine = endLine then
      lines.set startLine (startLineContent.take startChar ++ newText ++ startLineContent.drop endChar)
    else
      let lines := lines.set startLine
        (startLineContent.take startChar ++ newText ++ endLineContent.drop endChar)
      if endLine < lines.length then delLines lines (startLine + 1) (endLine + 1) else lines

/-- `sorted(edits, key=.., reverse=True)`: from last start to first, edits with
equal starts staying in their order. -/
def sortEdits (edits : List AnyTextEdit) : List AnyTextEdit :=
  edits.mergeSort fun a b => b.range.start.le a.range.start

/-- `apply_text_edits`. -/
def applyTextEdits (content : Text) (edits : List AnyTextEdit) : Text :=
  ((sortEdits edits).foldl editLines (splitlines content)).flatten

/-! ### Positions that exist -/

/-- The position is on a line of the list, at a column of it. -/
def OnLine (lines : List Text) (p : Position) : Prop :=
  p.line < lines.length ∧ p.character ≤ (lines.getD p.line []).length

/-- The position is on an existing line of the content, at a column not past
the line's text. -/
def Existing (content : Text) (p : Position) : Prop :=
  p.line < (splitlines content).length ∧
    p.character ≤ (lineText ((splitlines content).getD p.line [])).length

instance (content : Text) (p : Position) : Decidable (Existing content p) := by
  unfold Existing; infer_instance

theorem Existing.onLine {content : Text} {p : Position} (h : Existing content p) :
    OnLine (splitlines content) p :=
  ⟨h.1, le_trans h.2 (List.takeWhile_sublist _).length_le⟩

/-- The offset of a position in the content. -/
def offsetAt (content : Text) (p : Position) : ℕ := lineStart content p.line + p.character

/-- The text that an edit puts in its range, a snippet as it is written. -/
def AnyTextEdit.newText : AnyTextEdit → Text
  | .textEdit _ newText => newText
  | .annotatedTextEdit _ newText _ => newText
  | .snippetTextEdit _ snippet _ => snippet

theorem getEditText_eq (e : AnyTextEdit) : getEditText e = e.newText := by
  cases e <;> rfl

/-- The piece of the content an edit replaces, and its new text. -/
def spanOf (content : Text) (e : AnyTextEdit) : Splice.Span Char :=
  ⟨offsetAt content e.range.start, offsetAt content e.range.stop, e.newText⟩

theorem offset_splitlines {content : Text} (h : LfOnly content) {p : Position}
    (hp : OnLine (splitlines content) p) :
    Lines.offset (splitlines content) p.line p.character = offsetAt content p := by
  rw [Lines.offset_eq _ hp.2, take_splitlines_length content p.line h, offsetAt]

theorem before_splitlines {content : Text} (h : LfOnly content) {p : Position}
    (hp : OnLine (splitlines content) p) :
    Lines.before (splitlines content) p.line p.character = content.take (offsetAt content p) := by
  rw [Lines.before_eq_take _ _ hp.1, splitlines_flatten, offset_splitlines h hp]

theorem after_splitlines {content : Text} (h : LfOnly content) {p : Position}
    (hp : OnLine (splitlines content) p) :
    Lines.after (splitlines content) p.line p.character = content.drop (offsetAt content p) := by
  rw [Lines.after_eq_drop _ _ hp.1, splitlines_flatten, offset_splitlines h hp]

/-- The ranges of two edits do not overlap; touching ends are allowed. -/
def Disjoint (a b : AnyTextEdit) : Prop :=
  a.range.stop.le b.range.start ∨ b.range.stop.le a.range.start

instance (a b : AnyTextEdit) : Decidable (Disjoint a b) := by unfold Disjoint; infer_instance

/-! ### One round of the loop -/

/-- On positions that exist, a round replaces what stands between them. -/
theorem editLines_eq_replace (lines : List Text) (e : AnyTextEdit)
    (hs : e.range.start.line < lines.length) (he : e.range.stop.line < lines.length)
    (hle : e.range.start.le e.range.stop) :
    editLines lines e = Lines.replace lines e.range.start.line e.range.start.character
      e.range.stop.line e.range.stop.character (getEditText e) := by
  have hs' : ¬ e.range.start.line ≥ lines.length := by omega
  have he' : ¬ e.range.stop.line ≥ lines.length := by omega
  unfold editLines Lines.replace
  simp only [hs', he', ↓reduceIte, List.length_set, he]
  by_cases heq : e.range.start.line = e.range.stop.line
  · rw [if_pos heq, List.set_eq_take_append_cons_drop, if_pos hs, heq]
  · have hlt : e.range.start.line < e.range.stop.line := by
      unfold Position.le Lines.NoLater at hle; omega
    have hlen : (lines.take e.range.start.line).length = e.range.start.line := by
      rw [List.length_take]; omega
    rw [if_neg heq, delLines, List.set_eq_take_append_cons_drop, if_pos hs,
      Nat.max_eq_right (by omega), List.take_append, List.drop_append, hlen]
    have h1 : e.range.start.line + 1 - e.range.start.line = 1 := by omega
    obtain ⟨k, hk⟩ : ∃ k, e.range.stop.line + 1 - e.range.start.line = k + 1 :=
      ⟨e.range.stop.line - e.range.start.line, by omega⟩
    have hdrop : (lines.take e.range.start.line).drop (e.range.stop.line + 1) = [] :=
      List.drop_of_length_le (by rw [hlen]; omega)
    have h2 : e.range.start.line + 1 + k = e.range.stop.line + 1 := by omega
    rw [h1, hk, List.take_of_length_le (by rw [hlen]; omega), hdrop, List.drop_succ_cons,
      List.drop_drop, h2, List.take_succ_cons, List.take_zero, List.nil_append,
      List.append_assoc, List.singleton_append]

/-! ### The loop -/

/-- The edits are worked off from the last of `asc` to its first. -/
def editAll (lines : List Text) (asc : List AnyTextEdit) : List Text :=
  asc.foldr (fun e ls => editLines ls e) lines

/-- Every edit is a piece of the lines, and the pieces are in ascending order. -/
def InOrder (lines : List Text) (asc : List AnyTextEdit) : Prop :=
  (∀ e ∈ asc, OnLine lines e.range.start ∧ OnLine lines e.range.stop ∧
    e.range.start.le e.range.stop) ∧
  asc.Pairwise fun a b => a.range.stop.le b.range.start

/-- The piece of the lines an edit replaces. -/
def lineSpan (lines : List Text) (e : AnyTextEdit) : Splice.Span Char :=
  ⟨Lines.offset lines e.range.start.line e.range.start.character,
    Lines.offset lines e.range.stop.line e.range.stop.character, getEditText e⟩

/-- **The loop, from the last edit to the first.** Up to any position `p` no
later than the edits, the lines are the original ones; from `p` on they hold
the original text with the pieces replaced. -/
theorem editAll_splice (lines : List Text) : ∀ (asc : List AnyTextEdit) (p : Position),
    InOrder lines asc → OnLine lines p → (∀ e ∈ asc, p.le e.range.start) →
    Lines.Edited (editAll lines asc) lines p.line p.character
      (Splice.splice lines.flatten (Lines.offset lines p.line p.character) (asc.map (lineSpan lines)))
  | [], p, _, hp, _ => Lines.Edited.refl lines p.character hp.1
  | e :: es, p, h, hp, hpe => by
    obtain ⟨hs, ht, hle⟩ := h.1 e List.mem_cons_self
    obtain ⟨hnext, hes⟩ := List.pairwise_cons.mp h.2
    -- the edits after `e` are done: the lines are still the original ones up to the end of `e`
    have hdone := editAll_splice lines es e.range.stop
      ⟨fun a ha => h.1 a (List.mem_cons_of_mem _ ha), hes⟩ ht hnext
    have hround : editAll lines (e :: es) = Lines.replace (editAll lines es) e.range.start.line
        e.range.start.character e.range.stop.line e.range.stop.character (getEditText e) :=
      editLines_eq_replace (editAll lines es) e (hdone.agree.mono hle).lt hdone.agree.lt hle
    rw [hround]
    exact (hdone.replace hs.2 hle (getEditText e)).back hs.1 hp.2 hs.2 (hpe e List.mem_cons_self)

/-! ### Sorting -/

theorem sortEdits_perm (edits : List AnyTextEdit) : (sortEdits edits).Perm edits :=
  List.mergeSort_perm _ _

/-- The edits come out from last start to first. -/
theorem sortEdits_sorted (edits : List AnyTextEdit) :
    (sortEdits edits).Pairwise fun a b => b.range.start.le a.range.start := by
  let le (a b : AnyTextEdit) : Bool := decide (b.range.start.le a.range.start)
  have htrans : ∀ a b c, le a b → le b c → le a c := fun a b c hab hbc => by
    simp only [le, decide_eq_true_eq] at *
    exact Position.le_trans hbc hab
  have htotal : ∀ a b, le a b || le b a := fun a b => by
    simp only [le, Bool.or_eq_true, decide_eq_true_eq]
    exact Position.le_total _ _
  exact (List.pairwise_mergeSort htrans htotal edits).imp fun h => by
    simpa only [le, decide_eq_true_eq] using h

/-- Edits from last start to first stay as they are. -/
theorem sortEdits_of_sorted {edits : List AnyTextEdit}
    (h : edits.Pairwise fun a b => b.range.start.le a.range.start) : sortEdits edits = edits :=
  List.mergeSort_of_pairwise (h.imp fun h => decide_eq_true h)

/-- Disjoint edits with distinct starts, sorted, end before the next one begins. -/
theorem sortEdits_inOrder {content : Text} {edits : List AnyTextEdit}
    (hin : ∀ e ∈ edits, Existing content e.range.start ∧ Existing content e.range.stop ∧
      e.range.start.le e.range.stop)
    (hdis : edits.Pairwise Disjoint)
    (hne : edits.Pairwise fun a b => a.range.start ≠ b.range.start) :
    InOrder (splitlines content) (sortEdits edits).reverse := by
  refine ⟨fun e he => ?_, ?_⟩
  · rw [List.mem_reverse, (sortEdits_perm edits).mem_iff] at he
    exact ⟨(hin e he).1.onLine, (hin e he).2.1.onLine, (hin e he).2.2⟩
  · rw [List.pairwise_reverse]
    have hsort := sortEdits_sorted edits
    have hdis' := ((sortEdits_perm edits).pairwise_iff (fun h => Or.symm h)).mpr hdis
    have hne' := ((sortEdits_perm edits).pairwise_iff (fun h => Ne.symm h)).mpr hne
    refine (((hsort.and hdis').and hne').imp_of_mem ?_)
    rintro a b ha hb ⟨⟨hle, hd⟩, hne⟩
    rw [(sortEdits_perm edits).mem_iff] at ha hb
    rcases hd with hd | hd
    · -- `a` ends before `b` begins and begins no earlier than `b`: both begin there
      exact absurd (Position.le_antisymm (Position.le_trans (hin a ha).2.2 hd) hle) hne
    · exact hd

theorem lineSpan_eq_spanOf {content : Text} (hlf : LfOnly content) {e : AnyTextEdit}
    (hs : OnLine (splitlines content) e.range.start) (ht : OnLine (splitlines content) e.range.stop) :
    lineSpan (splitlines content) e = spanOf content e := by
  rw [lineSpan, spanOf, offset_splitlines hlf hs, offset_splitlines hlf ht, getEditText_eq]

/-- On a later line the offset is greater: a column not past a line's text
stands before the line's terminator. -/
theorem offsetAt_lt {content : Text} (hlf : LfOnly content) {p q : Position}
    (hp : Existing content p) (hq : Existing content q) (h : p.line < q.line) :
    offsetAt content p < offsetAt content q := by
  rw [← offset_splitlines hlf hp.onLine, ← offset_splitlines hlf hq.onLine]
  have hlf' := lf_mem_splitlines content p.line hlf (by have := hq.1; omega)
  exact Lines.offset_lt _ hq.1 (lt_of_le_of_lt hp.2 (lineText_length_lt hlf')) hq.onLine.2 h

/-- Existing positions with the same offset are the same. -/
theorem offsetAt_inj {content : Text} (hlf : LfOnly content) {p q : Position}
    (hp : Existing content p) (hq : Existing content q)
    (h : offsetAt content p = offsetAt content q) : p = q := by
  rcases Nat.lt_trichotomy p.line q.line with hlt | heq | hlt
  · have := offsetAt_lt hlf hp hq hlt; omega
  · obtain ⟨l, c⟩ := p
    obtain ⟨l', c'⟩ := q
    simp only [offsetAt] at h heq
    subst heq
    simp only [Position.mk.injEq, true_and]
    omega
  · have := offsetAt_lt hlf hq hp hlt; omega

theorem InOrder.ascending {lines : List Text} {asc : List AnyTextEdit} (h : InOrder lines asc) :
    Splice.Ascending (asc.map (lineSpan lines)) := by
  refine ⟨fun e he => ?_, ?_⟩
  · obtain ⟨a, ha, rfl⟩ := List.mem_map.mp he
    obtain ⟨hs, ht, hle⟩ := h.1 a ha
    exact Lines.offset_mono lines ht.1 hs.2 ht.2 hle
  · rw [List.pairwise_map]
    refine h.2.imp_of_mem fun {a b} ha hb hab => ?_
    obtain ⟨-, hat, -⟩ := h.1 a ha
    obtain ⟨hbs, -, -⟩ := h.1 b hb
    exact Lines.offset_mono lines hbs.1 hat.2 hbs.2 hab

/-- The loop over edits in order replaces all of them at once. -/
theorem editAll_simultaneous (lines : List Text) (asc : List AnyTextEdit) (h : InOrder lines asc) :
    (editAll lines asc).flatten =
      Splice.simultaneous lines.flatten (asc.map (lineSpan lines)) := by
  cases asc with
  | nil =>
    rw [List.map_nil, Splice.simultaneous_eq_splice _ _ ⟨by simp, by simp⟩ (by simp)]
    rfl
  | cons e es =>
    have hpos : 0 < lines.length := lt_of_le_of_lt (Nat.zero_le _) (h.1 e List.mem_cons_self).1.1
    have hzero : ∀ a ∈ e :: es, Position.le ⟨0, 0⟩ a.range.start := by
      intro a _
      unfold Position.le Lines.NoLater
      simp only
      omega
    have hdone := editAll_splice lines (e :: es) ⟨0, 0⟩ h ⟨hpos, Nat.zero_le _⟩ hzero
    rw [hdone.flatten, Splice.simultaneous_eq_splice _ _ h.ascending]
    · simp [Lines.offset, Lines.before]
    · intro s hs
      obtain ⟨a, ha, rfl⟩ := List.mem_map.mp hs
      exact Lines.offset_le_length lines _ (h.1 a ha).2.1.1

/-! ### The batch -/

/-- **`apply_text_edits` replaces all its edits at once.** On a text whose only
line terminator is `\n`, edits with existing ends that do not overlap and have
distinct starts are replaced simultaneously at their offsets in the original
text, and the order of the list does not matter. -/
theorem apply_text_edits_simultaneous (content : Text) (edits : List AnyTextEdit)
    (hlf : LfOnly content)
    (hin : ∀ e ∈ edits, Existing content e.range.start ∧ Existing content e.range.stop ∧
      e.range.start.le e.range.stop)
    (hdis : edits.Pairwise Disjoint)
    (hne : edits.Pairwise fun a b => a.range.start ≠ b.range.start) :
    applyTextEdits content edits = Splice.simultaneous content (edits.map (spanOf content)) ∧
      ∀ edits', edits'.Perm edits → applyTextEdits content edits' = applyTextEdits content edits := by
  -- what the theorem says of one order, for any order of the list
  have key : ∀ es : List AnyTextEdit, es.Perm edits →
      applyTextEdits content es = Splice.simultaneous content (edits.map (spanOf content)) := by
    intro es hp
    have hin' : ∀ e ∈ es, Existing content e.range.start ∧ Existing content e.range.stop ∧
        e.range.start.le e.range.stop := fun e he => hin e (hp.mem_iff.mp he)
    have hord := sortEdits_inOrder hin' ((hp.pairwise_iff fun h => Or.symm h).mpr hdis)
      ((hp.pairwise_iff fun h => Ne.symm h).mpr hne)
    have hspans : (sortEdits es).reverse.map (lineSpan (splitlines content)) =
        (sortEdits es).reverse.map (spanOf content) :=
      List.map_congr_left fun e he =>
        lineSpan_eq_spanOf hlf (hord.1 e he).1 (hord.1 e he).2.1
    have hperm : (edits.map (spanOf content)).Perm
        ((sortEdits es).reverse.map (spanOf content)) :=
      (hp.symm.trans ((sortEdits_perm es).symm.trans (List.reverse_perm _).symm)).map _
    have hlo : (edits.map (spanOf content)).Pairwise fun a b => a.lo ≠ b.lo := by
      rw [List.pairwise_map]
      exact hne.imp_of_mem fun {a b} ha hb hab heq =>
        hab (offsetAt_inj hlf (hin a ha).1 (hin b hb).1 heq)
    calc applyTextEdits content es
        = (editAll (splitlines content) (sortEdits es).reverse).flatten := by
          rw [applyTextEdits, editAll, List.foldr_reverse]
      _ = Splice.simultaneous content ((sortEdits es).reverse.map (spanOf content)) := by
          rw [editAll_simultaneous _ _ hord, splitlines_flatten, hspans]
      _ = Splice.simultaneous content (edits.map (spanOf content)) :=
          (Splice.simultaneous_perm content hperm hlo).symm
  exact ⟨key edits (List.Perm.refl _), fun edits' hp =>
    (key edits' hp).trans (key edits (List.Perm.refl _)).symm⟩

/-- An edit of each kind: two share a line and touch, the later one first in the list. -/
theorem apply_text_edits_simultaneous_touching :
    applyTextEdits "ab\ncd\nef".toList
        [.snippetTextEdit ⟨⟨1, 1⟩, ⟨2, 1⟩⟩ "Y".toList none, .textEdit ⟨⟨0, 1⟩, ⟨1, 1⟩⟩ "X\nx".toList,
          .annotatedTextEdit ⟨⟨0, 0⟩, ⟨0, 1⟩⟩ "A".toList "id".toList] =
      "AX\nxYf".toList := by
  rw [(apply_text_edits_simultaneous "ab\ncd\nef".toList
    [.snippetTextEdit ⟨⟨1, 1⟩, ⟨2, 1⟩⟩ "Y".toList none, .textEdit ⟨⟨0, 1⟩, ⟨1, 1⟩⟩ "X\nx".toList,
      .annotatedTextEdit ⟨⟨0, 0⟩, ⟨0, 1⟩⟩ "A".toList "id".toList]
    (by decide) (by decide) (by decide) (by decide)).1]
  decide

/-! ### An edit that reaches the end -/

/-- The end of the content, as a position: the start of the line after its last `\n`. -/
def AtEnd (content : Text) (p : Position) : Prop :=
  p = ⟨(splitlines content).length, 0⟩ ∧ (content = [] ∨ content.getLast? = some '\n')

/-- The position is on an existing line, at a column not past its text, or it is the end. -/
def Inside (content : Text) (p : Position) : Prop := Existing content p ∨ AtEnd content p

instance (content : Text) (p : Position) : Decidable (AtEnd content p) := by
  unfold AtEnd; infer_instance

instance (content : Text) (p : Position) : Decidable (Inside content p) := by
  unfold Inside; infer_instance

theorem AtEnd.offsetAt_eq {content : Text} (hlf : LfOnly content) {p : Position}
    (h : AtEnd content p) : offsetAt content p = content.length := by
  rw [offsetAt, h.1, ← take_splitlines_length content _ hlf, List.take_length, splitlines_flatten,
    Nat.add_zero]

/-- Every line ends with `\n` if the text does. -/
theorem lf_mem_splitlines_of_end {content : Text} {l : ℕ} (hlf : LfOnly content)
    (hend : content.getLast? = some '\n') (hl : l < (splitlines content).length) :
    '\n' ∈ (splitlines content).getD l [] := by
  by_cases hlast : l + 1 < (splitlines content).length
  · exact lf_mem_splitlines content l hlf hlast
  · have hne : (splitlines content).getD l [] ≠ [] := by
      rw [List.getD_eq_getElem _ _ hl]
      exact ne_nil_of_mem_splitlines (List.getElem_mem hl)
    have hsplit := Lines.before_append_after (splitlines content) 0 hl
    rw [splitlines_flatten, Lines.after, List.drop_zero, List.drop_of_length_le (Nat.le_of_not_lt hlast),
      List.flatten_nil, List.append_nil] at hsplit
    rw [← hsplit, List.getLast?_append_of_ne_nil _ hne] at hend
    exact List.mem_of_getLast? hend

theorem drop_splitlines_eq_nil {content : Text} {k : ℕ} :
    ((splitlines content).drop k).flatten = [] ↔ (splitlines content).length ≤ k := by
  rw [List.flatten_eq_nil_iff]
  constructor
  · -- a line that is left would be empty
    intro h
    by_contra hlt
    have hmem := List.getElem_mem (List.length_drop ▸ Nat.sub_pos_of_lt (Nat.lt_of_not_le hlt) :
      0 < ((splitlines content).drop k).length)
    exact ne_nil_of_mem_splitlines (List.mem_of_mem_drop hmem) (h _ hmem)
  · intro h line hline
    rw [List.drop_of_length_le h] at hline
    cases hline

/-- One edit alone. -/
theorem applyTextEdits_singleton (content : Text) (e : AnyTextEdit) :
    applyTextEdits content [e] = (editLines (splitlines content) e).flatten := by
  rw [applyTextEdits, sortEdits, List.mergeSort_singleton]
  rfl

/-- A round whose end is past the last line reaches to the end of its first line. -/
theorem editLines_past_end (lines : List Text) (e : AnyTextEdit)
    (hs : e.range.start.line < lines.length) (he : lines.length ≤ e.range.stop.line) :
    editLines lines e = Lines.replace lines e.range.start.line e.range.start.character
      e.range.start.line (lines.getD e.range.start.line []).length (getEditText e) := by
  have hs' : ¬ e.range.start.line ≥ lines.length := by omega
  have hne : e.range.start.line ≠ e.range.stop.line := by omega
  have he' : ¬ e.range.stop.line < lines.length := by omega
  unfold editLines Lines.replace
  simp only [hs', hne, he, he', if_false, if_true, List.length_set, List.drop_nil, List.drop_length]
  rw [List.set_eq_take_append_cons_drop, if_pos hs]

/-- It drops no line: the lines after the start line stay. -/
theorem editLines_past_end_flatten (lines : List Text) (e : AnyTextEdit)
    (hs : e.range.start.line < lines.length) (he : lines.length ≤ e.range.stop.line) :
    (editLines lines e).flatten =
      Lines.before lines e.range.start.line e.range.start.character ++ getEditText e ++
        (lines.drop (e.range.start.line + 1)).flatten := by
  rw [editLines_past_end lines e hs he, Lines.replace_flatten, Lines.after, List.drop_length,
    List.nil_append, List.append_assoc]

/-- An edit that starts after the last line is appended. -/
theorem editLines_at_end (lines : List Text) (e : AnyTextEdit)
    (hs : e.range.start.line = lines.length) :
    (editLines lines e).flatten = lines.flatten ++ getEditText e := by
  unfold editLines padLines
  simp [hs]

/-- **An edit that ends past the last line keeps the lines after its first
one.** It replaces everything up to the end of the text just if its start is on
the last line, or at the end. -/
theorem apply_text_edits_to_end (content : Text) (e : AnyTextEdit) (hlf : LfOnly content)
    (hs : Inside content e.range.start) (he : (splitlines content).length ≤ e.range.stop.line) :
    applyTextEdits content [e] =
        content.take (offsetAt content e.range.start) ++ getEditText e ↔
      (splitlines content).length ≤ e.range.start.line + 1 := by
  rw [applyTextEdits_singleton]
  rcases hs with hs | hs
  · rw [editLines_past_end_flatten _ _ hs.1 he, before_splitlines hlf hs.onLine,
      List.append_right_eq_self, drop_splitlines_eq_nil]
  · have hline : e.range.start.line = (splitlines content).length := by rw [hs.1]
    rw [editLines_at_end _ _ hline, splitlines_flatten, hs.offsetAt_eq hlf, List.take_length, hline]
    exact ⟨fun _ => Nat.le_succ _, fun _ => rfl⟩

/-- An edit from the last line on. -/
theorem apply_text_edits_to_end_last :
    applyTextEdits "a\nbc\n".toList [.textEdit ⟨⟨1, 1⟩, ⟨2, 0⟩⟩ "X".toList] = "a\nbX".toList :=
  (apply_text_edits_to_end "a\nbc\n".toList (.textEdit ⟨⟨1, 1⟩, ⟨2, 0⟩⟩ "X".toList) (by decide)
    (Or.inl (by decide)) (by decide)).mpr (by decide)

/-- **A replacement of the whole document leaves its tail.** -/
theorem apply_text_edits_whole :
    LfOnly "a\nb\nc\n".toList ∧ Inside "a\nb\nc\n".toList ⟨0, 0⟩ ∧
      (splitlines "a\nb\nc\n".toList).length = 3 ∧
      applyTextEdits "a\nb\nc\n".toList [.textEdit ⟨⟨0, 0⟩, ⟨3, 0⟩⟩ "X".toList] =
        "Xb\nc\n".toList ∧
      "Xb\nc\n".toList ≠
        "a\nb\nc\n".toList.take (offsetAt "a\nb\nc\n".toList ⟨0, 0⟩) ++ "X".toList := by
  refine ⟨by decide, Or.inl (by decide), by decide, ?_, by decide⟩
  rw [applyTextEdits_singleton]
  decide

end LspClient
