/-
# Editing an open and a closed document

The content of a tracked document is what detection decodes from the bytes of
its file; that of any other is what `Path.read_text` makes of them, with
universal newlines. The same text edits then leave different files if a `\r`
of the file stays (`edit_open_closed`).

Universal newlines work line by line (`splitlines_universalNewlines`) and only
on the ends of lines, so a position in the text is the same cut of both texts
(`cut_universalNewlines`). Between the pieces the edits replace, the closed
document keeps the universal newlines of what the open one keeps
(`gaps_universalNewlines`).

Key definitions: `InText`, `reach`, `CrTaken`, `OnlyInside`.
Key theorems: `splitlines_universalNewlines`, `gaps_universalNewlines`,
`applied_universalNewlines_iff`, `edit_open_closed`.
-/
import LspClient.SharedStarts
import LspClient.WorkspaceEdit

namespace LspClient

open Actions ByteStream

/-! ### Universal newlines -/

/-- The cut is not one between `\r` and `\n`. -/
def Apart (a b : Text) : Prop := a.getLast? = some '\r' → b.head? ≠ some '\n'

theorem Apart.cons {c : Char} {a b : Text} (hc : a = [] → Apart [c] b) (h : Apart a b) :
    Apart (c :: a) b := by
  cases a with
  | nil => exact hc rfl
  | cons d a => exact h

theorem Apart.left {a b d : Text} (h : Apart a (b ++ d)) : Apart a b := by
  cases b with
  | nil => exact fun _ => by simp
  | cons c b => exact h

theorem universalNewlines_append {a b : Text} (h : Apart a b) :
    universalNewlines (a ++ b) = universalNewlines a ++ universalNewlines b := by
  induction a using newline_induction with
  | nil => rfl
  | crlf cs ih =>
    have hcs : Apart cs b := by
      cases cs with
      | nil => exact fun hnone => by cases hnone
      | cons c cs => exact h
    rw [List.cons_append, List.cons_append, universalNewlines_crlf, universalNewlines_crlf, ih hcs,
      List.cons_append]
  | cr cs hne ih =>
    cases cs with
    | nil =>
      have hb : b.head? ≠ some '\n' := h rfl
      rw [List.singleton_append, universalNewlines_cr hb, universalNewlines_cr hne]
      rfl
    | cons c cs =>
      have hcs : (c :: cs ++ b).head? ≠ some '\n' := hne
      rw [List.cons_append, universalNewlines_cr hcs, universalNewlines_cr hne, ih h, List.cons_append]
  | char c cs hc ih =>
    have hcs : Apart cs b := by
      cases cs with
      | nil => exact fun hnone => by cases hnone
      | cons d cs => exact h
    rw [List.cons_append, universalNewlines_cons hc, universalNewlines_cons hc, ih hcs,
      List.cons_append]

theorem universalNewlines_plain {a : Text} (h : '\r' ∉ a) : universalNewlines a = a := by
  induction a with
  | nil => rfl
  | cons c cs ih =>
    rw [universalNewlines_cons fun hc => h (hc ▸ List.mem_cons_self),
      ih fun hm => h (List.mem_cons_of_mem _ hm)]

theorem length_universalNewlines (a : Text) : (universalNewlines a).length ≤ a.length := by
  induction a using newline_induction with
  | nil => exact Nat.le_refl _
  | crlf cs ih =>
    rw [universalNewlines_crlf, List.length_cons, List.length_cons, List.length_cons]
    omega
  | cr cs hne ih =>
    rw [universalNewlines_cr hne, List.length_cons, List.length_cons]
    omega
  | char c cs hc ih =>
    rw [universalNewlines_cons hc, List.length_cons, List.length_cons]
    omega

theorem cr_notMem_universalNewlines (a : Text) : '\r' ∉ universalNewlines a := by
  induction a using newline_induction with
  | nil => exact List.not_mem_nil
  | crlf cs ih =>
    rw [universalNewlines_crlf]
    exact List.not_mem_cons_of_ne_of_not_mem (by decide) ih
  | cr cs hne ih =>
    rw [universalNewlines_cr hne]
    exact List.not_mem_cons_of_ne_of_not_mem (by decide) ih
  | char c cs hc ih =>
    rw [universalNewlines_cons hc]
    exact List.not_mem_cons_of_ne_of_not_mem (Ne.symm hc) ih

theorem universalNewlines_eq_self_iff {a : Text} : universalNewlines a = a ↔ '\r' ∉ a :=
  ⟨fun h => h ▸ cr_notMem_universalNewlines a, universalNewlines_plain⟩

/-! ### Line by line -/

/-- The lines of the text with universal newlines. -/
theorem splitlines_universalNewlines (s : Text) :
    splitlines (universalNewlines s) = (splitlines s).map universalNewlines := by
  induction s using newline_induction with
  | nil => rfl
  | crlf cs ih =>
    have hlines : splitlines ('\r' :: '\n' :: cs) = ['\r', '\n'] :: splitlines cs := rfl
    rw [universalNewlines_crlf, hlines, List.map_cons, ← ih]
    rfl
  | cr cs hne ih =>
    have hends : endsLine '\r' cs = true := by
      simp only [endsLine, hne, decide_true, decide_false, Bool.and_false, Bool.not_false]
      rfl
    rw [universalNewlines_cr hne, splitlines_ends hends, List.map_cons, ← ih]
    rfl
  | char c cs hc ih =>
    have hends : ∀ cs', endsLine c cs' = isLineBreak c := fun cs' => by
      simp only [endsLine, hc, decide_false, Bool.false_and, Bool.not_false, Bool.and_true]
    rw [universalNewlines_cons hc, splitlines, splitlines, hends, hends, ih]
    split_ifs
    · rw [List.map_cons, universalNewlines_plain (by simpa using Ne.symm hc)]
    · cases splitlines cs with
      | nil =>
        simp only [List.map_nil, List.map_cons]
        rw [universalNewlines_plain (by simpa using Ne.symm hc)]
      | cons l ls => simp only [List.map_cons, universalNewlines_cons hc]

theorem getD_universalNewlines {s : Text} {l : ℕ} (h : l < (splitlines s).length) :
    ((splitlines s).map universalNewlines).getD l [] = universalNewlines ((splitlines s).getD l []) := by
  rw [List.getD_eq_getElem _ _ (by rwa [List.length_map]), List.getElem_map, List.getD_eq_getElem _ _ h]

/-- No line end is cut by the end of a line. -/
theorem apart_splitlines : ∀ (s : Text) (l : ℕ),
    Apart ((splitlines s).take l).flatten ((splitlines s).drop l).flatten
  | _, 0 => fun h => by cases h
  | [], _ + 1 => fun h => by cases h
  | c :: cs, l + 1 => by
    have ih := apart_splitlines cs
    by_cases he : endsLine c cs = true
    · rw [splitlines_ends he, List.take_succ_cons, List.drop_succ_cons, List.flatten_cons]
      refine Apart.cons (fun hnil => ?_) (ih l)
      have hcs : cs = ((splitlines cs).drop l).flatten := by
        conv_lhs => rw [← splitlines_flatten cs, ← List.take_append_drop l (splitlines cs)]
        rw [List.flatten_append, show ((splitlines cs).take l).flatten = [] from hnil,
          List.nil_append]
      rw [← hcs]
      intro hlast hhead
      simp only [endsLine, Bool.and_eq_true, hhead] at he
      simp only [List.getLast?_singleton, Option.some.injEq] at hlast
      simp [hlast] at he
    · rw [splitlines, if_neg he]
      cases hs : splitlines cs with
      | nil => exact fun _ => by simp
      | cons x xs =>
        have ihx := ih (l + 1)
        rw [hs] at ihx
        have hx : x ≠ [] := ne_nil_of_mem_splitlines (hs ▸ List.mem_cons_self)
        refine Apart.cons (fun hnil => ?_) ihx
        exact absurd (List.append_eq_nil_iff.mp hnil).1 hx

theorem universalNewlines_lines (s : Text) : ∀ l : ℕ,
    universalNewlines ((splitlines s).take l).flatten =
      (((splitlines s).map universalNewlines).take l).flatten
  | 0 => rfl
  | l + 1 => by
    have ih := universalNewlines_lines s l
    by_cases hl : l < (splitlines s).length
    · have hapart := apart_splitlines s l
      rw [List.drop_eq_getElem_cons hl, List.flatten_cons] at hapart
      have hl' : l < ((splitlines s).map universalNewlines).length := by rwa [List.length_map]
      calc universalNewlines ((splitlines s).take (l + 1)).flatten
          = universalNewlines (((splitlines s).take l).flatten ++ (splitlines s)[l]) := by
            rw [List.take_succ_eq_append_getElem hl, List.flatten_append, List.flatten_singleton]
        _ = (((splitlines s).map universalNewlines).take l).flatten ++
              universalNewlines (splitlines s)[l] := by
            rw [universalNewlines_append hapart.left, ih]
        _ = (((splitlines s).map universalNewlines).take (l + 1)).flatten := by
            rw [List.take_succ_eq_append_getElem hl', List.flatten_append, List.flatten_singleton,
              List.getElem_map]
    · have hle := Nat.le_of_not_lt hl
      rw [List.take_of_length_le hle] at ih
      rw [List.take_of_length_le (Nat.le_succ_of_le hle), ih, List.take_of_length_le (by simpa using hle),
        List.take_of_length_le (by simpa using Nat.le_succ_of_le hle)]

/-- The text of a line holds no `\r`. -/
theorem cr_notMem_take {line : Text} {k : ℕ} (h : k ≤ (lineText line).length) : '\r' ∉ line.take k := by
  have hpre : line.take k = (lineText line).take k := by
    have hline : line = lineText line ++ line.dropWhile (!isLineBreak ·) :=
      List.takeWhile_append_dropWhile.symm
    conv_lhs => rw [hline]
    exact List.take_append_of_le_length h
  intro hmem
  rw [hpre] at hmem
  have := List.mem_takeWhile_imp (List.mem_of_mem_take hmem)
  cases this

/-- The text of a line is as it was. -/
theorem take_universalNewlines {line : Text} {k : ℕ} (h : k ≤ (lineText line).length) :
    (universalNewlines line).take k = line.take k ∧ k ≤ (universalNewlines line).length := by
  have hcr := cr_notMem_take h
  have hlen : (line.take k).length = k := by
    have := (List.takeWhile_sublist (!isLineBreak ·) (l := line)).length_le
    rw [List.length_take]
    exact Nat.min_eq_left (le_trans h this)
  have hcut : universalNewlines line = line.take k ++ universalNewlines (line.drop k) := by
    conv_lhs => rw [← List.take_append_drop k line]
    rw [universalNewlines_append, universalNewlines_plain hcr]
    intro hlast
    exact absurd (List.mem_of_getLast? hlast) hcr
  rw [hcut]
  refine ⟨List.take_left' hlen, ?_⟩
  rw [List.length_append, hlen]
  exact Nat.le_add_right _ _

/-! ### Positions in the text -/

/-- The position is on a line, at a column not past its text, or it is after the last line. -/
def InText (content : Text) (p : Position) : Prop :=
  Existing content p ∨ p = ⟨(splitlines content).length, 0⟩

instance (content : Text) (p : Position) : Decidable (InText content p) := by
  unfold InText; infer_instance

/-- The offset of a position, or of the position closest to it. -/
abbrev offsetIn (content : Text) (p : Position) : ℕ :=
  Lines.offset (splitlines content) p.line p.character

section Positions

variable {s : Text} {p q : Position}

theorem InText.placed (h : InText s p) : Placed (splitlines s) p := h.imp_left Existing.onLine

theorem InText.universalNewlines (h : InText s p) :
    Placed (splitlines (LspClient.universalNewlines s)) p := by
  rw [splitlines_universalNewlines]
  refine h.imp (fun h => ⟨by rw [List.length_map]; exact h.1, ?_⟩) (fun h => by
    rw [List.length_map, h])
  rw [getD_universalNewlines h.1]
  exact (take_universalNewlines h.2).2

/-- **A position is the same cut of both texts.** -/
theorem cut_universalNewlines (h : InText s p) : ∃ a b, s = a ++ b ∧ Apart a b ∧
    a.length = offsetIn s p ∧
    (universalNewlines a).length = offsetIn (universalNewlines s) p := by
  have hlines := splitlines_universalNewlines s
  rcases h with h | rfl
  · have hline := List.drop_eq_getElem_cons h.1
    rw [← List.getD_eq_getElem _ [] h.1] at hline
    have hrest : ((splitlines s).drop p.line).flatten =
        ((splitlines s).getD p.line []).take p.character ++
          Lines.after (splitlines s) p.line p.character := by
      rw [hline, List.flatten_cons, Lines.after, ← List.append_assoc, List.take_append_drop]
    have hapart := apart_splitlines s p.line
    rw [hrest] at hapart
    obtain ⟨htake, hlen⟩ := take_universalNewlines h.2
    refine ⟨Lines.before (splitlines s) p.line p.character,
      Lines.after (splitlines s) p.line p.character, ?_, ?_, rfl, ?_⟩
    · rw [Lines.before_append_after _ _ h.1, splitlines_flatten]
    · rcases Nat.eq_zero_or_pos p.character with hzero | hpos
      · rw [hzero] at hapart ⊢
        rw [Lines.before, List.take_zero, List.append_nil]
        exact hapart
      · -- a column after the start of a line: the character before it is one of the line's text
        intro hlast
        have hne : ((splitlines s).getD p.line []).take p.character ≠ [] := by
          intro hnil
          have := congrArg List.length hnil
          rw [List.length_take, Nat.min_eq_left h.onLine.2] at this
          exact absurd this (Nat.ne_of_gt hpos)
        rw [Lines.before, List.getLast?_append_of_ne_nil _ hne] at hlast
        exact absurd (List.mem_of_getLast? hlast) (cr_notMem_take h.2)
    · rw [Lines.before, universalNewlines_append hapart.left, universalNewlines_lines,
        universalNewlines_plain (cr_notMem_take h.2), offsetIn, hlines,
        Lines.offset_eq _ (by rw [getD_universalNewlines h.1]; exact hlen), List.length_append,
        List.length_take, Nat.min_eq_left h.onLine.2]
  · refine ⟨s, [], (List.append_nil s).symm, fun _ => by simp, ?_, ?_⟩
    · rw [offsetIn, Lines.offset_end, splitlines_flatten]
    · have hlen : (splitlines s).length = (splitlines (universalNewlines s)).length := by
        rw [hlines, List.length_map]
      rw [offsetIn, hlen, Lines.offset_end, splitlines_flatten]

/-- What stands between two positions. -/
theorem between_universalNewlines (hp : InText s p) (hq : InText s q)
    (hle : offsetIn s p ≤ offsetIn s q) :
    ((universalNewlines s).take (offsetIn (universalNewlines s) q)).drop
        (offsetIn (universalNewlines s) p) =
      universalNewlines ((s.take (offsetIn s q)).drop (offsetIn s p)) := by
  obtain ⟨a, b, hab, hapart, ha, ha'⟩ := cut_universalNewlines hp
  obtain ⟨a₂, b₂, hab₂, hapart₂, ha₂, ha₂'⟩ := cut_universalNewlines hq
  obtain ⟨g, rfl⟩ : ∃ g, a₂ = a ++ g := by
    have hpre : a <+: a₂ := List.prefix_of_prefix_length_le (hab ▸ List.prefix_append a b)
      (hab₂ ▸ List.prefix_append a₂ b₂) (by omega)
    obtain ⟨g, hg⟩ := hpre
    exact ⟨g, hg.symm⟩
  have hb : b = g ++ b₂ := List.append_cancel_left (by rw [← hab, hab₂, List.append_assoc])
  have hg : Apart a g := (hb ▸ hapart).left
  -- `g` is what stands between them
  calc ((universalNewlines s).take (offsetIn (universalNewlines s) q)).drop
        (offsetIn (universalNewlines s) p)
      = (universalNewlines (a ++ g)).drop (universalNewlines a).length := by
        rw [← ha', ← ha₂', hab₂, universalNewlines_append hapart₂, List.take_left]
    _ = universalNewlines g := by rw [universalNewlines_append hg, List.drop_left]
    _ = universalNewlines ((s.take (offsetIn s q)).drop (offsetIn s p)) := by
        rw [← ha, ← ha₂, hab₂, List.take_left, List.drop_left]

theorem after_universalNewlines (hp : InText s p) :
    (universalNewlines s).drop (offsetIn (universalNewlines s) p) =
      universalNewlines (s.drop (offsetIn s p)) := by
  obtain ⟨a, b, hab, hapart, ha, ha'⟩ := cut_universalNewlines hp
  rw [← ha', ← ha, hab, List.drop_left, universalNewlines_append hapart, List.drop_left]

end Positions

/-! ### What the edits take away -/

section Reach

variable (lines : List Text)

/-- Up to where an edit takes away its range: one that ends after the last line
takes the rest of its first line only, unless an edit begins there (`grown`). -/
def reach (grown : Bool) (e : AnyTextEdit) : Position :=
  if e.range.stop.line < lines.length ∨ grown then e.range.stop else ⟨e.range.start.line + 1, 0⟩

/-- What a group takes away, and what it leaves there. -/
def Group.taken (grown : Bool) (g : Group) : Splice.Span Char :=
  ⟨Lines.offset lines g.start.line g.start.character,
    Lines.offset lines (reach lines grown g.last).line (reach lines grown g.last).character,
    landed lines true g.earlier g.last⟩

variable {lines}

theorem drop_offset_line (l : ℕ) : lines.flatten.drop (Lines.offset lines l 0) = (lines.drop l).flatten := by
  have hsplit : lines.flatten = (lines.take l).flatten ++ (lines.drop l).flatten := by
    rw [← List.flatten_append, List.take_append_drop]
  have hoff : Lines.offset lines l 0 = (lines.take l).flatten.length := by
    rw [Lines.offset, Lines.before, List.take_zero, List.append_nil]
  rw [hoff, hsplit, List.drop_left]

/-- What an edit past the last line leaves of its range counts as not taken. -/
theorem splice_taken {grown : Bool} : ∀ (gs : List Group) (i : ℕ), Ordered lines gs →
    (∀ g ∈ gs, lines.length ≤ g.start.line → grown = true) →
    Splice.splice lines.flatten i (gs.map (Group.span lines grown)) =
      Splice.splice lines.flatten i (gs.map (Group.taken lines grown))
  | [], _, _, _ => rfl
  | g :: rest, i, h, hgrown => by
    have ih := splice_taken rest (Lines.offset lines g.stop.line g.stop.character) h.tail
      fun a ha => hgrown a (List.mem_cons_of_mem _ ha)
    by_cases hend : g.stop.line < lines.length ∨ grown = true
    · have hreach : reach lines grown g.last = g.stop := if_pos hend
      have htail : tailOf lines grown g.last = [] := if_pos hend
      have hland : landed lines grown g.earlier g.last = landed lines true g.earlier g.last := by
        unfold landed
        rw [htail, show tailOf lines true g.last = [] from if_pos (Or.inr rfl)]
      simp only [List.map_cons, Splice.splice, Group.span, Group.taken, hreach, hland]
      exact congrArg (fun t => _ ++ (_ ++ t)) ih
    · obtain ⟨hpast, hng⟩ := not_or.mp hend
      obtain ⟨hs, ht, hle⟩ := h.placed g List.mem_cons_self
      have hline : g.start.line < lines.length :=
        Nat.lt_of_not_le fun hn => hng (hgrown g List.mem_cons_self hn)
      have hte : g.stop = ⟨lines.length, 0⟩ := ht.resolve_left fun hon => hpast hon.1
      have hnil : rest = [] := by
        rw [List.eq_nil_iff_forall_not_mem]
        intro a ha
        have hae := h.start_eq_end ha (Nat.le_of_not_lt hpast)
        exact hng (hgrown a (List.mem_cons_of_mem _ ha) (by rw [hae]))
      have hreach : reach lines grown g.last = ⟨g.start.line + 1, 0⟩ := if_neg hend
      have htail : tailOf lines grown g.last = (lines.drop (g.start.line + 1)).flatten := if_neg hend
      have hne : ¬ g.last.range.start.line = g.last.range.stop.line := by
        have hstop : g.last.range.stop.line = lines.length := congrArg Position.line hte
        have hstart : g.last.range.start.line < lines.length := hline
        omega
      have hrest : lines.flatten.drop (Lines.offset lines g.stop.line g.stop.character) = [] := by
        rw [hte, Lines.offset_end, List.drop_length]
      subst hnil
      simp only [List.map_cons, List.map_nil, Splice.splice, Group.span, Group.taken, hreach,
        drop_offset_line, hrest, landed, if_neg hne, htail,
        show tailOf lines true g.last = [] from if_pos (Or.inr rfl), List.append_nil]

theorem reach_le {grown : Bool} {e : AnyTextEdit}
    (hgrown : lines.length ≤ e.range.start.line → grown = true) (hle : e.range.start.le e.range.stop) :
    e.range.start.le (reach lines grown e) ∧ (reach lines grown e).le e.range.stop := by
  unfold reach
  split_ifs with hend
  · exact ⟨hle, Or.inr ⟨rfl, Nat.le_refl _⟩⟩
  · obtain ⟨hpast, hng⟩ := not_or.mp hend
    have hline : e.range.start.line < lines.length := Nat.lt_of_not_le fun hn => hng (hgrown hn)
    unfold Position.le Lines.NoLater
    simp only
    omega

end Reach

section Compare

variable {s : Text}

theorem InText.reach {grown : Bool} {e : AnyTextEdit} (ht : InText s e.range.stop)
    (hgrown : (splitlines s).length ≤ e.range.start.line → grown = true) :
    InText s (reach (splitlines s) grown e) := by
  unfold LspClient.reach
  split_ifs with hend
  · exact ht
  · obtain ⟨-, hng⟩ := not_or.mp hend
    have hline : e.range.start.line < (splitlines s).length :=
      Nat.lt_of_not_le fun hn => hng (hgrown hn)
    rcases Nat.lt_or_ge (e.range.start.line + 1) (splitlines s).length with hlt | hge
    · exact Or.inl ⟨hlt, Nat.zero_le _⟩
    · exact Or.inr (congrArg (Position.mk · 0) (Nat.le_antisymm hline hge))

/-- **Between the pieces** the closed document keeps the universal newlines of
what the open one keeps. -/
theorem gaps_universalNewlines {grown : Bool} : ∀ (gs : List Group) (p : Position),
    (∀ g ∈ gs, InText s g.start ∧ InText s (reach (splitlines s) grown g.last) ∧
      offsetIn s p ≤ offsetIn s g.start) → InText s p →
    Splice.Ascending (gs.map (Group.taken (splitlines s) grown)) →
    Splice.gaps (universalNewlines s) (offsetIn (universalNewlines s) p)
        (gs.map (Group.taken (splitlines (universalNewlines s)) grown)) =
      (Splice.gaps s (offsetIn s p) (gs.map (Group.taken (splitlines s) grown))).map
        universalNewlines
  | [], p, _, hp, _ => congrArg (· :: []) (after_universalNewlines hp)
  | g :: rest, p, h, hp, hasc => by
    obtain ⟨hs, ht, hle⟩ := h g List.mem_cons_self
    have hrest : ∀ a ∈ rest, InText s a.start ∧ InText s (reach (splitlines s) grown a.last) ∧
        offsetIn s (reach (splitlines s) grown g.last) ≤ offsetIn s a.start := fun a ha =>
      have hin := h a (List.mem_cons_of_mem _ ha)
      ⟨hin.1, hin.2.1, hasc.head_le _ (List.mem_map_of_mem ha)⟩
    have ih := gaps_universalNewlines rest (reach (splitlines s) grown g.last) hrest ht hasc.tail
    have hreach : reach (splitlines (universalNewlines s)) grown g.last =
        reach (splitlines s) grown g.last := by
      rw [reach, reach, splitlines_universalNewlines, List.length_map]
    simp only [List.map_cons, Splice.gaps]
    refine congrArg₂ List.cons (between_universalNewlines hp hs hle) ?_
    have hhi : (Group.taken (splitlines (universalNewlines s)) grown g).hi =
        offsetIn (universalNewlines s) (reach (splitlines s) grown g.last) := by
      rw [Group.taken, hreach]
    rw [hhi]
    exact ih

theorem landed_universalNewlines {g : Group} (hs : InText s g.start) (ht : InText s g.stop)
    (hle : g.start.le g.stop) :
    landed (splitlines (universalNewlines s)) true g.earlier g.last =
      landed (splitlines s) true g.earlier g.last := by
  have htail : ∀ lines : List Text, tailOf lines true g.last = [] := fun _ => if_pos (Or.inr rfl)
  unfold landed
  rw [htail, htail]
  split_ifs with hline
  · -- a range on one line: its text holds no `\r`
    have hcr : '\r' ∉ replacedOf (splitlines s) g.last := by
      rcases ht with ht | ht
      · have hon : OnLine (splitlines s) g.start := by
          rcases hs with hs | hs
          · exact hs.onLine
          · have : (splitlines s).length = g.last.range.start.line := (congrArg Position.line hs).symm
            have := ht.1
            simp only [Group.stop] at this
            omega
        rw [replacedOf_line hon ht.onLine hline, hline]
        exact fun hmem => cr_notMem_take ht.2 (List.mem_of_mem_drop hmem)
      · have hstart : g.start = g.stop := by
          rcases hs with hs | hs
          · have : (splitlines s).length = g.last.range.stop.line := (congrArg Position.line ht).symm
            have := hs.1
            simp only [Group.start] at this
            omega
          · rw [hs, ht]
        rw [replacedOf, show g.last.range.start = g.last.range.stop from hstart]
        rw [List.drop_of_length_le (by rw [List.length_take]; exact Nat.min_le_left _ _)]
        exact List.not_mem_nil
    have hbetween := between_universalNewlines hs ht (hs.placed.offset_mono ht.placed hle)
    have hrep : replacedOf (splitlines (universalNewlines s)) g.last = replacedOf (splitlines s) g.last := by
      unfold replacedOf at hcr ⊢
      rw [splitlines_flatten] at hcr ⊢
      rw [splitlines_flatten, ← universalNewlines_plain hcr]
      exact hbetween
    rw [hrep]
  · rfl

end Compare

/-! ### The two results -/

/-- Edits as the protocol has them: positions in the text, ranges that do not
overlap, and where several begin, all but the last of the list insert. -/
structure WellFormed (content : Text) (edits : List AnyTextEdit) : Prop where
  inText : ∀ e ∈ edits, InText content e.range.start ∧ InText content e.range.stop ∧
    e.range.start.le e.range.stop
  disjoint : edits.Pairwise Disjoint
  followed : edits.Pairwise fun a b => a.range.start = b.range.start → a.range.stop = a.range.start

/-- Every `\r` of the text is in a range, and is taken away with it. -/
def CrTaken (content : Text) (edits : List AnyTextEdit) : Prop :=
  ∀ k < content.length, content[k]? = some '\r' → ∃ e ∈ edits, offsetIn content e.range.start ≤ k ∧
    k < offsetIn content (reach (splitlines content) (grownBy (splitlines content) edits) e)

instance (content : Text) (edits : List AnyTextEdit) : Decidable (CrTaken content edits) := by
  unfold CrTaken; infer_instance

/-- The result is the content with other text in place of pieces that lie in
the ranges of the edits. -/
def OnlyInside (content : Text) (edits : List AnyTextEdit) (result : Text) : Prop :=
  ∃ spans, Splice.Ascending spans ∧ (∀ a ∈ spans, ∃ e ∈ edits,
    offsetIn content e.range.start ≤ a.lo ∧ a.hi ≤ offsetIn content e.range.stop) ∧
    result = Splice.splice content 0 spans

theorem WellFormed.batch {s : Text} {edits : List AnyTextEdit} (h : WellFormed s edits) :
    Batch (splitlines s) edits :=
  ⟨fun e he => ⟨(h.inText e he).1.placed, (h.inText e he).2.1.placed, (h.inText e he).2.2⟩,
    h.disjoint, h.followed⟩

/-- What the loop leaves, with `reach` for the ends of the pieces. -/
theorem applyTextEdits_taken {s : Text} {edits : List AnyTextEdit} {gs : List Group}
    (hgs : Ordered (splitlines s) gs) (hgroups : GroupsOf edits gs) :
    applyTextEdits s edits = Splice.splice s 0
      (gs.map (Group.taken (splitlines s) (grownBy (splitlines s) edits))) := by
  have hgrown : grownBy (splitlines s) edits = true ↔ _ := hgroups.grownBy_iff
  rw [applyTextEdits, hgroups.sorted, foldl_groups, runGroups_flatten hgs hgrown,
    splice_taken gs 0 hgs fun g hg hn => hgrown.mpr ⟨g, hg, hn⟩, splitlines_flatten]

/-- The pieces of an ordered batch, up to where they are taken away. -/
theorem Ordered.taken {s : Text} {gs : List Group} {grown : Bool} (h : Ordered (splitlines s) gs)
    (hin : ∀ g ∈ gs, InText s g.start ∧ InText s g.stop)
    (hgrown : ∀ g ∈ gs, (splitlines s).length ≤ g.start.line → grown = true) :
    Splice.Ascending (gs.map (Group.taken (splitlines s) grown)) := by
  refine ⟨fun a ha => ?_, ?_⟩
  · obtain ⟨g, hg, rfl⟩ := List.mem_map.mp ha
    exact (hin g hg).1.placed.offset_mono ((hin g hg).2.reach (hgrown g hg)).placed
      (reach_le (hgrown g hg) (h.placed g hg).2.2).1
  · rw [List.pairwise_map]
    refine h.ascending.imp_of_mem fun {a b} ha hb hab => ?_
    exact ((hin a ha).2.reach (hgrown a ha)).placed.offset_mono (hin b hb).1.placed
      (Position.le_trans (reach_le (hgrown a ha) (h.placed a ha).2.2).2 hab)

/-- A `\r` stands between the pieces just if no edit takes it away. -/
theorem crTaken_iff {s : Text} {edits : List AnyTextEdit} {gs : List Group}
    (htaken : Splice.Ascending (gs.map (Group.taken (splitlines s) (grownBy (splitlines s) edits))))
    (hgroups : GroupsOf edits gs) :
    (∀ gap ∈ Splice.gaps s 0 (gs.map (Group.taken (splitlines s) (grownBy (splitlines s) edits))),
      '\r' ∉ gap) ↔ CrTaken s edits := by
  have hmem := Splice.mem_gaps s '\r' _ 0 htaken fun _ _ => Nat.zero_le _
  have hcovered : ∀ k, (∃ a ∈ gs.map (Group.taken (splitlines s) (grownBy (splitlines s) edits)),
        a.lo ≤ k ∧ k < a.hi) ↔ ∃ e ∈ edits, offsetIn s e.range.start ≤ k ∧
          k < offsetIn s (reach (splitlines s) (grownBy (splitlines s) edits) e) := by
    intro k
    constructor
    · rintro ⟨_, ha, hk⟩
      obtain ⟨g, hg, rfl⟩ := List.mem_map.mp ha
      exact ⟨g.last, hgroups.last_mem hg, hk⟩
    · rintro ⟨e, he, hk⟩
      obtain ⟨g, hg, heg, -⟩ := hgroups.exists_of_mem he
      rcases List.mem_append.mp heg with hearlier | hlast
      · -- an insertion takes nothing away
        have hrange := g.inserts e hearlier
        have hreach : reach (splitlines s) (grownBy (splitlines s) edits) e = e.range.start := by
          unfold reach
          rw [hrange, if_pos]
          by_contra hend
          obtain ⟨hpast, hng⟩ := not_or.mp hend
          exact hng (hgroups.grownBy_iff.mpr ⟨g, hg, Nat.le_of_not_lt hpast⟩)
        rw [hreach] at hk
        omega
      · rw [List.mem_singleton.mp hlast] at hk
        exact ⟨_, List.mem_map_of_mem hg, hk⟩
  constructor
  · intro hgaps k _ hk
    by_contra hno
    obtain ⟨gap, hgap, hcr⟩ := hmem.mpr ⟨k, hk, Nat.zero_le _, fun a ha hak =>
      hno ((hcovered k).mp ⟨a, ha, hak⟩)⟩
    exact hgaps gap hgap hcr
  · intro hcr gap hgap hmemgap
    obtain ⟨k, hk, -, hnone⟩ := hmem.mp ⟨gap, hgap, hmemgap⟩
    obtain ⟨a, ha, hak⟩ := (hcovered k).mpr (hcr k (List.getElem?_eq_some_iff.mp hk).1 hk)
    exact hnone a ha hak

/-- **The edits leave the same of both texts** just if they take away every
`\r`. They change the text in their ranges only. -/
theorem applied_universalNewlines_iff {s : Text} {edits : List AnyTextEdit} (h : WellFormed s edits) :
    (applyTextEdits s edits = applyTextEdits (universalNewlines s) edits ↔ CrTaken s edits) ∧
      OnlyInside s edits (applyTextEdits s edits) := by
  obtain ⟨gs, hgs, hgroups⟩ := h.batch.exists_ordered
  have hin : ∀ g ∈ gs, InText s g.start ∧ InText s g.stop := fun g hg =>
    have he := h.inText _ (hgroups.last_mem hg)
    ⟨he.1, he.2.1⟩
  have hgrown : ∀ g ∈ gs, (splitlines s).length ≤ g.start.line → grownBy (splitlines s) edits = true :=
    fun g hg hn => hgroups.grownBy_iff.mpr ⟨g, hg, hn⟩
  have hgs' : Ordered (splitlines (universalNewlines s)) gs :=
    ⟨fun g hg => ⟨(hin g hg).1.universalNewlines, (hin g hg).2.universalNewlines, (hgs.placed g hg).2.2⟩,
      hgs.ascending, hgs.distinct⟩
  have hgrown' : grownBy (splitlines (universalNewlines s)) edits = grownBy (splitlines s) edits := by
    rw [grownBy, grownBy, splitlines_universalNewlines, List.length_map]
  have hopen := applyTextEdits_taken hgs hgroups
  have hclosed := applyTextEdits_taken hgs' hgroups
  have htaken := hgs.taken hin hgrown
  rw [hgrown'] at hclosed
  have hcr := crTaken_iff htaken hgroups
  generalize grownBy (splitlines s) edits = grown at hopen hclosed htaken hgrown hcr
  have hstart : InText s ⟨0, 0⟩ := by
    rcases Nat.eq_zero_or_pos (splitlines s).length with hzero | hpos
    · exact Or.inr (by rw [hzero])
    · exact Or.inl ⟨hpos, Nat.zero_le _⟩
  have hgaps : Splice.gaps (universalNewlines s) 0
        (gs.map (Group.taken (splitlines (universalNewlines s)) grown)) =
      (Splice.gaps s 0 (gs.map (Group.taken (splitlines s) grown))).map universalNewlines :=
    gaps_universalNewlines gs ⟨0, 0⟩ (fun g hg => ⟨(hin g hg).1, (hin g hg).2.reach (hgrown g hg),
      Nat.zero_le _⟩) hstart htaken
  have hnew : ∀ g ∈ gs, (Group.taken (splitlines (universalNewlines s)) grown g).new =
      (Group.taken (splitlines s) grown g).new := fun g hg =>
    landed_universalNewlines (hin g hg).1 (hin g hg).2 (hgs.placed g hg).2.2
  constructor
  · have hlen : List.Forall₂ (fun a b : Text => b.length ≤ a.length)
        (Splice.gaps s 0 (gs.map (Group.taken (splitlines s) grown)))
        (Splice.gaps (universalNewlines s) 0
          (gs.map (Group.taken (splitlines (universalNewlines s)) grown))) := by
      rw [hgaps, List.forall₂_map_right_iff]
      exact List.forall₂_same.mpr fun gap _ => length_universalNewlines gap
    rw [hopen, hclosed, Splice.splice_eq_iff _ _ _ _ gs 0 0 hlen fun g hg => by rw [hnew g hg], hgaps,
      and_iff_left fun g hg => (hnew g hg).symm, ← hcr]
    conv_lhs => rw [← List.map_id (Splice.gaps s 0 _), List.map_map, List.map_inj_left]
    exact forall₂_congr fun gap _ => eq_comm.trans universalNewlines_eq_self_iff
  · refine ⟨_, htaken, fun a ha => ?_, hopen⟩
    obtain ⟨g, hgmem, rfl⟩ := List.mem_map.mp ha
    exact ⟨g.last, hgroups.last_mem hgmem, Nat.le_refl _, ((hin g hgmem).2.reach (hgrown g hgmem)).placed.offset_mono
      (hin g hgmem).2.placed (reach_le (hgrown g hgmem) (hgs.placed g hgmem).2.2).2⟩

/-! ### The two files -/

/-- The UTF-8 of the runtime. -/
structure Codecs.Utf8 (cs : Codecs) : Prop where
  encode : ∀ t, cs.encode utf8 t = some (encodeUtf8 t)
  decode : ∀ t, cs.decode utf8 (encodeUtf8 t) = some t

namespace Client

variable {c : Client} {w w' : World} {p : Path} {u v : Uri} {t : Text} {edits : List AnyTextEdit}

/-- The document is tracked with what detection makes of the bytes of its file. -/
def Detected (c : Client) (w : World) (p : Path) (v : Uri) : Prop :=
  ∃ d bytes, w.doc.states v = some d ∧ FileTree.fileAt (c.route p) w.fs = some bytes ∧
    c.codecs.best bytes = some (d.content, d.encoding)

theorem applyTextDocumentEdit_read {content : Text} (hu : c.fromLocalUri u = .ok p)
    (hread : c.readFile p utf8 w = .ok content w) :
    c.applyTextDocumentEdit ⟨u, none, edits⟩ w = c.writeFile u (applyTextEdits content edits) w := by
  have hedited : c.editedContent u edits w = .ok (applyTextEdits content edits) w := by
    unfold editedContent
    rw [fromUri_eq, hu]
    exact bind_eq_ok hread
  exact bind_eq_ok hedited

/-- An unversioned edit: the file holds the edited content. -/
theorem applyTextDocumentEdit_file (hu : c.fromLocalUri u = .ok p)
    (h : c.applyTextDocumentEdit ⟨u, none, edits⟩ w = .ok () w') :
    ∃ content, c.readFile p utf8 w = .ok content w ∧
      c.codecs.encode (w.doc.getEncoding u) (applyTextEdits content edits) =
        FileTree.fileAt (c.route p) w'.fs := by
  obtain ⟨_, -, h⟩ := (reads_checkVersion _ _).bind_ok h
  obtain ⟨newContent, hedited, hwrite⟩ := (reads_editedContent _ _).bind_ok h
  obtain ⟨q, hq, hedited⟩ := convert_bind_ok hedited
  cases hu.symm.trans ((fromUri_eq u).symm.trans hq)
  obtain ⟨content, hread, hedited⟩ := (c.reads_readFile p utf8).bind_ok hedited
  cases hedited
  obtain ⟨q, bytes, hq, hbytes, hfile, -⟩ := writeFile_ok hwrite
  cases hu.symm.trans hq
  exact ⟨content, hread, hbytes.trans hfile.symm⟩

theorem readDocument_detected {d : DocumentState} (hback : c.fromLocalUri v = .ok p)
    (h : c.readDocument v w = .ok d w') : ∃ bytes,
      FileTree.fileAt (c.route p) w.fs = some bytes ∧
      c.codecs.best bytes = some (d.content, d.encoding) := by
  obtain ⟨q, hq, h⟩ := convert_bind_ok h
  cases hback.symm.trans hq
  obtain ⟨bytes, hread, h⟩ := (reads_os (FileTree.read_changes _)).bind_ok h
  refine ⟨bytes, FileTree.read_ok (os_ok hread).1, ?_⟩
  cases hb : c.codecs.best bytes with
  | none =>
    simp only [hb] at h
    cases h
  | some r =>
    simp only [hb] at h
    cases h
    rfl

/-- A document that is opened is tracked with what detection makes of its file. -/
theorem detected_of_open {new : NewStates} (hnone : w.doc.states v = none)
    (hback : c.fromLocalUri v = .ok p) (h : c.openDocuments [v] w = .ok new w') :
    c.Detected w' p v := by
  have hbegin : (w.doc.openBegin [v]).1 = [v] := by simp [DocumentStateManager.openBegin, hnone]
  obtain ⟨newUris, w₁, hdoc, h⟩ := bind_ok_elim h
  obtain ⟨rfl, rfl⟩ := doc_ok hdoc
  rw [hbegin, if_neg (List.cons_ne_nil _ _)] at h
  obtain ⟨read, w₂, hread, h⟩ := bind_ok_elim h
  obtain ⟨d, hd, hread⟩ := (c.reads_readDocument v).bind_ok hread
  cases hread
  cases h
  obtain ⟨bytes, hfile, hbest⟩ := readDocument_detected hback hd
  refine ⟨d, bytes, ?_, hfile, hbest⟩
  show (((∅ : NewStates).insert v d).lookup v).or _ = some d
  rw [AList.lookup_insert]
  rfl

theorem getEncoding_untracked (h : w.doc.states u = none) : w.doc.getEncoding u = utf8 := by
  rw [DocumentStateManager.getEncoding, h]
  rfl

/-- The file of a closed document after an edit. -/
theorem edited_closed (hutf8 : c.codecs.Utf8) (hu : c.fromLocalUri u = .ok p)
    (hv : c.asUri p = .ok v) (hback : c.fromLocalUri v = .ok p)
    (hfile : FileTree.fileAt (c.route p) w.fs = some (encodeUtf8 t))
    (huntracked : w.doc.states v = none) (hother : u ≠ v → w.doc.states u = none)
    (h : c.applyTextDocumentEdit ⟨u, none, edits⟩ w = .ok () w') :
    FileTree.fileAt (c.route p) w'.fs =
      some (encodeUtf8 (applyTextEdits (universalNewlines t) edits)) := by
  obtain ⟨content, hread, hwritten⟩ := applyTextDocumentEdit_file hu h
  rw [readFile_untracked hv huntracked hback] at hread
  obtain ⟨bytes, t', hbytes, hdec, rfl⟩ := readText_ok hread
  cases hfile.symm.trans hbytes
  cases (hutf8.decode t).symm.trans hdec
  have hutf : w.doc.getEncoding u = utf8 := by
    by_cases huv : u = v
    · exact getEncoding_untracked (huv ▸ huntracked)
    · exact getEncoding_untracked (hother huv)
  rw [← hwritten, hutf, hutf8.encode]

/-- The file of an open document after an edit. -/
theorem edited_open (hutf8 : c.codecs.Utf8) (hbest : c.codecs.best (encodeUtf8 t) = some (t, utf8))
    (hu : c.fromLocalUri u = .ok p) (hv : c.asUri p = .ok v)
    (hfile : FileTree.fileAt (c.route p) w.fs = some (encodeUtf8 t)) (hdetected : c.Detected w p v)
    (hother : u ≠ v → w.doc.states u = none)
    (h : c.applyTextDocumentEdit ⟨u, none, edits⟩ w = .ok () w') :
    FileTree.fileAt (c.route p) w'.fs = some (encodeUtf8 (applyTextEdits t edits)) := by
  obtain ⟨d, bytes, hd, hbytes, hdet⟩ := hdetected
  cases hfile.symm.trans hbytes
  rw [hbest] at hdet
  obtain ⟨rfl, henc⟩ := Prod.mk.inj (Option.some.inj hdet)
  have hutf : w.doc.getEncoding u = utf8 := by
    by_cases huv : u = v
    · rw [huv, DocumentStateManager.getEncoding, hd, henc]
      rfl
    · exact getEncoding_untracked (hother huv)
  obtain ⟨content, hread, hwritten⟩ := applyTextDocumentEdit_file hu h
  rw [readFile_tracked hv hd utf8] at hread
  cases hread
  rw [← hwritten, hutf, hutf8.encode]

/-- **An edit of an open document and of a closed one** leave the same file, if
there is no `\r` in it. If the edits are as the protocol has them, they do, and
change the file in their ranges only, just if they take away every `\r`. -/
theorem edit_open_closed (c : Client) (hutf8 : c.codecs.Utf8) (p : Path) (u v : Uri) (t : Text)
    (edits : List AnyTextEdit) (closed closed' opened opened' : World)
    (hbest : c.codecs.best (encodeUtf8 t) = some (t, utf8))
    (hu : c.fromLocalUri u = .ok p) (hv : c.asUri p = .ok v) (hback : c.fromLocalUri v = .ok p)
    (hfile : FileTree.fileAt (c.route p) closed.fs = some (encodeUtf8 t))
    (hfile' : FileTree.fileAt (c.route p) opened.fs = some (encodeUtf8 t))
    (huntracked : closed.doc.states v = none) (hdetected : c.Detected opened p v)
    (hother : u ≠ v → closed.doc.states u = none ∧ opened.doc.states u = none)
    (hclosed : c.applyTextDocumentEdit ⟨u, none, edits⟩ closed = .ok () closed')
    (hopened : c.applyTextDocumentEdit ⟨u, none, edits⟩ opened = .ok () opened') :
    ('\r' ∉ t → FileTree.fileAt (c.route p) opened'.fs = FileTree.fileAt (c.route p) closed'.fs) ∧
    (WellFormed t edits →
      ((FileTree.fileAt (c.route p) opened'.fs = FileTree.fileAt (c.route p) closed'.fs ∧
        ∃ result, FileTree.fileAt (c.route p) opened'.fs = some (encodeUtf8 result) ∧
          OnlyInside t edits result) ↔ CrTaken t edits)) := by
  rw [edited_closed hutf8 hu hv hback hfile huntracked (fun huv => (hother huv).1) hclosed,
    edited_open hutf8 hbest hu hv hfile' hdetected (fun huv => (hother huv).2) hopened]
  have hinj : ∀ a b : Text, some (encodeUtf8 a) = some (encodeUtf8 b) ↔ a = b := by
    intro a b
    refine ⟨fun h => ?_, fun h => h ▸ rfl⟩
    have hdec := congrArg decodeUtf8 (Option.some.inj h)
    rw [decodeUtf8_encodeUtf8, decodeUtf8_encodeUtf8] at hdec
    exact Option.some.inj hdec
  refine ⟨fun hcr => by rw [universalNewlines_plain hcr], fun hwf => ?_⟩
  obtain ⟨hsame, hinside⟩ := applied_universalNewlines_iff hwf
  rw [hinj, hsame]
  exact and_iff_left ⟨_, rfl, hinside⟩

end Client

/-! ### A small file -/

namespace Small

/-- The client, of a runtime that takes every file for UTF-8. -/
def utf8Client : Client :=
  { client with
    codecs :=
      { best := fun b => some (Percent.unquote (Percent.quoteFromBytes b), utf8)
        encode := fun _ t => some (encodeUtf8 t)
        decode := fun _ b => some (Percent.unquote (Percent.quoteFromBytes b)) } }

theorem utf8Client_utf8 : utf8Client.codecs.Utf8 :=
  ⟨fun _ => rfl, fun t => congrArg some (Percent.unquote_quote t)⟩

/-- A file with both line ends. -/
def mixed : World := world [("a".toList, "a\r\nb\n".toList)]

/-- The same file, open. -/
def mixedOpen : World :=
  { mixed with
    doc := ⟨fun u => if u = uriA then some ⟨"a\r\nb\n".toList, 0, utf8⟩ else none,
      fun u => if u = uriA then some 1 else none⟩ }

/-- The edited text is written. -/
theorem edit_mixed (e : AnyTextEdit) :
    utf8Client.applyTextDocumentEdit ⟨uriA, none, [e]⟩ mixed =
      utf8Client.writeFile uriA (editLines (splitlines "a\nb\n".toList) e).flatten mixed := by
  rw [← applyTextEdits_singleton]
  exact Client.applyTextDocumentEdit_read (p := Path.ofText "/ws/a".toList) (by decide) rfl

theorem edit_mixedOpen (e : AnyTextEdit) :
    utf8Client.applyTextDocumentEdit ⟨uriA, none, [e]⟩ mixedOpen =
      utf8Client.writeFile uriA (editLines (splitlines "a\r\nb\n".toList) e).flatten mixedOpen := by
  rw [← applyTextEdits_singleton]
  exact Client.applyTextDocumentEdit_read (p := Path.ofText "/ws/a".toList) (by decide) rfl

end Small

/-- An edit that takes away the only `\r`. -/
theorem edit_open_closed_taken : ∃ closed opened,
    Small.utf8Client.applyTextDocumentEdit
      ⟨Small.uriA, none, [.textEdit ⟨⟨0, 0⟩, ⟨1, 0⟩⟩ "x\n".toList]⟩ Small.mixed = .ok () closed ∧
    Small.utf8Client.applyTextDocumentEdit
      ⟨Small.uriA, none, [.textEdit ⟨⟨0, 0⟩, ⟨1, 0⟩⟩ "x\n".toList]⟩ Small.mixedOpen = .ok () opened ∧
    FileTree.fileAt (Small.utf8Client.route (Path.ofText "/ws/a".toList)) opened.fs =
      FileTree.fileAt (Small.utf8Client.route (Path.ofText "/ws/a".toList)) closed.fs := by
  have hclosed := Small.edit_mixed (.textEdit ⟨⟨0, 0⟩, ⟨1, 0⟩⟩ "x\n".toList)
  have hopened := Small.edit_mixedOpen (.textEdit ⟨⟨0, 0⟩, ⟨1, 0⟩⟩ "x\n".toList)
  refine ⟨_, _, hclosed.trans rfl, hopened.trans rfl, ?_⟩
  refine ((Client.edit_open_closed Small.utf8Client Small.utf8Client_utf8 (Path.ofText "/ws/a".toList)
    Small.uriA Small.uriA "a\r\nb\n".toList [.textEdit ⟨⟨0, 0⟩, ⟨1, 0⟩⟩ "x\n".toList]
    Small.mixed _ Small.mixedOpen _ (by decide) (by decide) (by decide) (by decide) (by decide)
    (by decide) rfl ⟨_, _, rfl, rfl, by decide⟩ (fun h => absurd rfl h) (hclosed.trans rfl)
    (hopened.trans rfl)).2 ⟨by decide, by decide, by decide⟩).mpr (by decide) |>.1

/-- **An edit of the second line** leaves the `\r` if the document is open, and
takes it away, outside of its range, if it is closed. -/
theorem edit_open_closed_mixed : ∃ closed opened,
    Small.utf8Client.applyTextDocumentEdit
      ⟨Small.uriA, none, [.textEdit ⟨⟨1, 0⟩, ⟨1, 1⟩⟩ "c".toList]⟩ Small.mixed = .ok () closed ∧
    Small.utf8Client.applyTextDocumentEdit
      ⟨Small.uriA, none, [.textEdit ⟨⟨1, 0⟩, ⟨1, 1⟩⟩ "c".toList]⟩ Small.mixedOpen = .ok () opened ∧
    FileTree.fileAt (Small.utf8Client.route (Path.ofText "/ws/a".toList)) opened.fs =
      some (encodeUtf8 "a\r\nc\n".toList) ∧
    FileTree.fileAt (Small.utf8Client.route (Path.ofText "/ws/a".toList)) closed.fs =
      some (encodeUtf8 "a\nc\n".toList) :=
  ⟨_, _, (Small.edit_mixed _).trans rfl, (Small.edit_mixedOpen _).trans rfl, by decide, by decide⟩

end LspClient
