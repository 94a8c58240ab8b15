/-
# Edits that begin at one position

Edits of one list may share a start: insertions, and after them one edit that
replaces something. `sorted` is stable, so the loop of `apply_text_edits`
works such edits off in list order, each of them where the one before has
inserted its text: the insertions come out the other way round, and the last
edit, if its range is not empty, takes away what has just been inserted.

Such edits together are a `Group`. On the lines a group does what one
replacement by `landed` does (`Group.round`), so the loop over groups in
ascending order is `Splice.splice` again (`groups_edited`). It leaves what the
edits mean exactly if every group keeps its order (`apply_text_edits_shared_starts`).

Key definitions: `Group`, `landed`, `KeepsOrder`.
Key theorems: `groups_edited`, `apply_text_edits_shared_starts`.
-/
import LspClient.Lib.StableSort
import LspClient.TextEdit

namespace LspClient

/-- The texts of some edits, one after the other. -/
def textOf (es : List AnyTextEdit) : Text := es.flatMap getEditText

/-- Edits that share a start, in list order: all but the last insert there. -/
structure Group where
  earlier : List AnyTextEdit
  last : AnyTextEdit
  inserts : ∀ e ∈ earlier, e.range = ⟨last.range.start, last.range.start⟩

namespace Group

def edits (g : Group) : List AnyTextEdit := g.earlier ++ [g.last]

abbrev start (g : Group) : Position := g.last.range.start

abbrev stop (g : Group) : Position := g.last.range.stop

end Group

section Lines

variable (lines : List Text)

/-- On a line at a column of it, or at the end. -/
def Placed (p : Position) : Prop := OnLine lines p ∨ p = ⟨lines.length, 0⟩

/-- What stands in the range of an edit. -/
def replacedOf (e : AnyTextEdit) : Text :=
  (lines.flatten.take (Lines.offset lines e.range.stop.line e.range.stop.character)).drop
    (Lines.offset lines e.range.start.line e.range.start.character)

/-- What an edit that ends past the last line leaves of its range, unless an
insertion at the end has put a line there (`grown`). -/
def tailOf (grown : Bool) (e : AnyTextEdit) : Text :=
  if e.range.stop.line < lines.length ∨ grown then []
  else (lines.drop (e.range.start.line + 1)).flatten

/-- What the loop leaves between the ends of the range of the last edit of a group. -/
def landed (grown : Bool) (earlier : List AnyTextEdit) (last : AnyTextEdit) : Text :=
  if last.range.start.line = last.range.stop.line then
    getEditText last ++
      (textOf earlier.reverse ++ replacedOf lines last).drop (replacedOf lines last).length
  else getEditText last ++ tailOf lines grown last

/-- What the loop makes of a group. -/
def Group.span (grown : Bool) (g : Group) : Splice.Span Char :=
  ⟨Lines.offset lines g.start.line g.start.character,
    Lines.offset lines g.stop.line g.stop.character, landed lines grown g.earlier g.last⟩

/-- Groups in ascending order, with their ranges on the lines. -/
structure Ordered (gs : List Group) : Prop where
  placed : ∀ g ∈ gs, Placed lines g.start ∧ Placed lines g.stop ∧ g.start.le g.stop
  ascending : gs.Pairwise fun a b => a.stop.le b.start
  distinct : gs.Pairwise fun a b => a.start ≠ b.start

end Lines

/-! ### A group -/

/-- Insertions at one place: the last one comes first. -/
theorem foldl_insertions {p : Position} : ∀ (es : List AnyTextEdit) (X : List Text),
    (∀ e ∈ es, e.range = ⟨p, p⟩) → OnLine X p → es.foldl editLines X =
      Lines.replace X p.line p.character p.line p.character (textOf es.reverse)
  | [], X, _, hp => (Lines.insert_nil X p.character hp.1).symm
  | e :: es, X, h, hp => by
    have he := h e List.mem_cons_self
    have hround : editLines X e =
        Lines.replace X p.line p.character p.line p.character (getEditText e) := by
      rw [editLines_eq_replace X e (by rw [he]; exact hp.1) (by rw [he]; exact hp.1)
        (by rw [he]; exact Or.inr ⟨rfl, Nat.le_refl _⟩), he]
    have hp' : OnLine (Lines.replace X p.line p.character p.line p.character (getEditText e)) p := by
      refine ⟨by rw [Lines.insert_length X _ _ hp.1]; exact hp.1, ?_⟩
      rw [Lines.replace_getD X _ _ _ _ hp.1, List.append_assoc, List.length_append, List.length_take]
      have := hp.2
      omega
    rw [List.foldl_cons, hround, foldl_insertions es _ (fun a ha => h a (List.mem_cons_of_mem _ ha)) hp',
      Lines.insert_insert X _ _ hp.1 hp.2]
    simp [textOf, List.flatMap_append]

/-- A group on lines that reach to its end. -/
theorem Group.foldl_edits (g : Group) (X : List Text) (hs : OnLine X g.start)
    (ht : g.stop.line < X.length) (hcol : g.start.line = g.stop.line →
      g.stop.character ≤ (X.getD g.start.line []).length) (hle : g.start.le g.stop) :
    g.edits.foldl editLines X = Lines.replace X g.start.line g.start.character g.stop.line g.stop.character
      (if g.start.line = g.stop.line then
        getEditText g.last ++ (textOf g.earlier.reverse ++
          ((X.getD g.start.line []).take g.stop.character).drop g.start.character).drop
            (g.stop.character - g.start.character)
      else getEditText g.last) := by
  have hins := foldl_insertions g.earlier X g.inserts hs
  have hlen := Lines.insert_length X g.start.character (textOf g.earlier.reverse) hs.1
  rw [Group.edits, List.foldl_append, List.foldl_cons, List.foldl_nil]
  rw [hins, editLines_eq_replace _ g.last (by rw [hlen]; exact hs.1) (by rw [hlen]; exact ht) hle]
  by_cases heq : g.start.line = g.stop.line
  · have hchar : g.start.character ≤ g.stop.character := by
      rcases hle with h | h
      · omega
      · exact h.2
    rw [if_pos heq, ← heq, Lines.replace_insert_line X _ _ hs.1 hchar (hcol heq)]
  · have hlt : g.start.line < g.stop.line := by
      unfold Position.le Lines.NoLater at hle
      omega
    rw [if_neg heq, Lines.replace_insert_lines X _ _ hs.1 hs.2 hlt]

section Lines

variable {lines : List Text}

/-- What stands in a range on one line. -/
theorem replacedOf_line {e : AnyTextEdit} (hs : OnLine lines e.range.start)
    (ht : OnLine lines e.range.stop) (heq : e.range.start.line = e.range.stop.line) :
    replacedOf lines e = ((lines.getD e.range.start.line []).take e.range.stop.character).drop
      e.range.start.character := by
  rw [replacedOf, ← Lines.before_eq_take lines _ ht.1, Lines.offset_eq lines hs.2, Lines.before, ← heq,
    ← List.drop_drop, List.drop_left]

/-- The lines are the original ones up to the end of a group: after its round
they are up to its start. -/
theorem Group.round (g : Group) {X : List Text} {rest : Text} {grown : Bool}
    (h : Lines.Edited X lines g.stop.line g.stop.character rest) (hs : OnLine lines g.start)
    (ht : Placed lines g.stop) (hle : g.start.le g.stop)
    (hend : g.stop.line < lines.length ∨ grown = true) :
    Lines.Edited (g.edits.foldl editLines X) lines g.start.line g.start.character
      (landed lines grown g.earlier g.last ++ rest) := by
  have hstart := h.agree.mono hle
  have honline : g.start.line = g.stop.line → OnLine lines g.stop := by
    intro heq
    rcases ht with ht | ht
    · exact ht
    · have := hs.1
      rw [heq, ht] at this
      exact absurd this (Nat.lt_irrefl _)
  have hcol : g.start.line = g.stop.line → g.stop.character ≤ (X.getD g.start.line []).length :=
    fun heq => heq ▸ h.agree.le_length (honline heq).2
  rw [Group.foldl_edits g X ⟨hstart.lt, hstart.le_length hs.2⟩ h.agree.lt hcol hle]
  have hnew : (if g.start.line = g.stop.line then
        getEditText g.last ++ (textOf g.earlier.reverse ++
          ((X.getD g.start.line []).take g.stop.character).drop g.start.character).drop
            (g.stop.character - g.start.character)
      else getEditText g.last) = landed lines grown g.earlier g.last := by
    unfold landed
    by_cases heq : g.start.line = g.stop.line
    · have hline : (X.getD g.start.line []).take g.stop.character =
          (lines.getD g.start.line []).take g.stop.character := heq ▸ h.agree.line
      have hrep := replacedOf_line (e := g.last) hs (honline heq) heq
      have hlen : (replacedOf lines g.last).length = g.stop.character - g.start.character := by
        have := (honline heq).2
        rw [← heq] at this
        rw [hrep, List.length_drop, List.length_take, Nat.min_eq_left this]
      have hcond : g.last.range.start.line = g.last.range.stop.line := heq
      rw [if_pos heq, if_pos hcond, hline, hlen, hrep]
    · have hcond : ¬ g.last.range.start.line = g.last.range.stop.line := heq
      have htail : tailOf lines grown g.last = [] := if_pos hend
      rw [if_neg heq, if_neg hcond, htail, List.append_nil]
  rw [hnew]
  exact h.replace hs.2 hle _

/-- A group that reaches the end, where no line has been put. -/
theorem Group.round_past_end (g : Group) (hs : OnLine lines g.start)
    (ht : lines.length ≤ g.stop.line) :
    Lines.Edited (g.edits.foldl editLines lines) lines g.start.line g.start.character
      (landed lines false g.earlier g.last) := by
  have hins := foldl_insertions g.earlier lines g.inserts hs
  have hagree := Lines.agree_replace lines g.start.line g.start.character
    (textOf g.earlier.reverse) hs.1 hs.2
  have hne : ¬ g.last.range.start.line = g.last.range.stop.line :=
    Nat.ne_of_lt (Nat.lt_of_lt_of_le hs.1 ht)
  have hstop : ¬ (g.last.range.stop.line < lines.length ∨ false = true) := by
    have : lines.length ≤ g.last.range.stop.line := ht
    simp only [Bool.false_eq_true, or_false]
    omega
  rw [Group.edits, List.foldl_append, List.foldl_cons, List.foldl_nil, hins,
    editLines_past_end _ g.last hagree.lt (by rw [Lines.insert_length _ _ _ hs.1]; exact ht)]
  refine ⟨(Lines.agree_replace _ _ _ _ hagree.lt (hagree.le_length hs.2)).trans hagree, ?_⟩
  have hdrop := Lines.insert_drop lines g.start.character (textOf g.earlier.reverse) hs.1
    (Nat.lt_succ_self g.start.line)
  have hland : landed lines false g.earlier g.last =
      getEditText g.last ++ (lines.drop (g.last.range.start.line + 1)).flatten := by
    rw [landed, if_neg hne, tailOf, if_neg hstop]
  rw [Lines.replace_flatten, hagree.before_eq, Lines.after, List.drop_length, List.nil_append, hdrop, hland]

/-- The edits at the end put one line there. -/
theorem Group.foldl_at_end (g : Group) {grown : Bool} (hs : g.start = ⟨lines.length, 0⟩)
    (ht : g.stop = ⟨lines.length, 0⟩) :
    g.edits.foldl editLines lines = lines ++ [landed lines grown g.earlier g.last] := by
  have hlast : g.last.range = ⟨⟨lines.length, 0⟩, ⟨lines.length, 0⟩⟩ :=
    congrArg₂ Range.mk hs ht
  have hall : ∀ e ∈ g.edits, e.range = ⟨⟨lines.length, 0⟩, ⟨lines.length, 0⟩⟩ := by
    intro e he
    rcases List.mem_append.mp he with he | he
    · exact (g.inserts e he).trans (congrArg₂ Range.mk hs hs)
    · rw [List.mem_singleton.mp he, hlast]
  have hland : landed lines grown g.earlier g.last = textOf g.edits.reverse := by
    have hrep : replacedOf lines g.last = [] := by
      rw [replacedOf, hlast]
      exact List.drop_of_length_le (by rw [List.length_take]; exact Nat.min_le_left _ _)
    rw [landed, hlast, if_pos rfl, hrep]
    simp [Group.edits, textOf]
  rw [hland]
  cases hes : g.edits with
  | nil => simp [Group.edits] at hes
  | cons e es =>
    rw [hes] at hall
    have hfirst : editLines lines e = lines ++ [getEditText e] := by
      unfold editLines padLines
      simp [hall e List.mem_cons_self]
    have hend : OnLine (lines ++ [getEditText e]) ⟨lines.length, 0⟩ := ⟨by simp, Nat.zero_le _⟩
    rw [List.foldl_cons, hfirst, foldl_insertions (p := ⟨lines.length, 0⟩) es _
      (fun a ha => hall a (List.mem_cons_of_mem _ ha)) hend, Lines.replace]
    simp [textOf, List.flatMap_append]

/-! ### The loop over groups -/

/-- The groups are worked off from the last to the first. -/
def runGroups (lines : List Text) (gs : List Group) : List Text :=
  gs.foldr (fun g X => g.edits.foldl editLines X) lines

theorem Ordered.tail {g : Group} {gs : List Group} (h : Ordered lines (g :: gs)) : Ordered lines gs :=
  ⟨fun a ha => h.placed a (List.mem_cons_of_mem _ ha), (List.pairwise_cons.mp h.ascending).2,
    (List.pairwise_cons.mp h.distinct).2⟩

/-- A position that is no earlier than the end is the end. -/
theorem Placed.eq_end {p q : Position} (hq : Placed lines q) (hle : p.le q)
    (hp : lines.length ≤ p.line) : q = ⟨lines.length, 0⟩ := by
  rcases hq with hq | hq
  · have := hq.1
    unfold Position.le Lines.NoLater at hle
    omega
  · exact hq

/-- After a group that reaches the end, groups begin there. -/
theorem Ordered.start_eq_end {g a : Group} {gs : List Group} (h : Ordered lines (g :: gs)) (ha : a ∈ gs)
    (hstop : lines.length ≤ g.stop.line) : a.start = ⟨lines.length, 0⟩ :=
  (h.placed a (List.mem_cons_of_mem _ ha)).1.eq_end ((List.pairwise_cons.mp h.ascending).1 a ha) hstop

/-- **The loop, group by group.** `grown` says whether a group begins at the
end. Up to any position `p` no later than the groups, the lines are the
original ones; from `p` on they hold the original text with the groups' ranges
replaced. -/
theorem groups_edited {grown : Bool} : ∀ (gs : List Group) (p : Position), Ordered lines gs →
    (∀ g ∈ gs, lines.length ≤ g.start.line → grown = true) →
    (grown = true → gs = [] ∨ ∃ g ∈ gs, lines.length ≤ g.start.line) →
    (OnLine lines p ∨ p = ⟨lines.length, 0⟩ ∧ gs ≠ []) → (∀ g ∈ gs, p.le g.start) →
    Lines.Edited (runGroups lines gs) lines p.line p.character
      (Splice.splice lines.flatten (Lines.offset lines p.line p.character)
        (gs.map (Group.span lines grown)))
  | [], p, _, _, _, hp, _ => by
    rcases hp with hp | ⟨-, hne⟩
    · exact Lines.Edited.refl lines p.character hp.1
    · exact absurd rfl hne
  | g :: rest, p, h, hgrown, hends, hp, hpe => by
    obtain ⟨hs, ht, hle⟩ := h.placed g List.mem_cons_self
    have hnext := (List.pairwise_cons.mp h.ascending).1
    have hpg := hpe g List.mem_cons_self
    have hoffend := Lines.offset_end lines
    by_cases hline : g.start.line < lines.length
    · have hson : OnLine lines g.start := by
        rcases hs with hs | hs
        · exact hs
        · rw [hs] at hline
          exact absurd hline (Nat.lt_irrefl _)
      have hpon : OnLine lines p := by
        rcases hp with hp | ⟨hp, -⟩
        · exact hp
        · rw [hp] at hpg
          unfold Position.le Lines.NoLater at hpg
          simp only at hpg
          omega
      by_cases hstop : g.stop.line < lines.length ∨ rest ≠ []
      · -- the lines are the original ones up to the end of `g`, whether this is on a line or the end
        have hstopp : OnLine lines g.stop ∨ g.stop = ⟨lines.length, 0⟩ ∧ rest ≠ [] := by
          rcases ht with ht | ht
          · exact Or.inl ht
          · refine Or.inr ⟨ht, hstop.resolve_left ?_⟩
            rw [ht]
            exact Nat.lt_irrefl _
        have hend : g.stop.line < lines.length ∨ grown = true := by
          rcases hstopp with hon | ⟨heq, hne⟩
          · exact Or.inl hon.1
          · obtain ⟨a, as, hrest⟩ := List.exists_cons_of_ne_nil hne
            have ha : a ∈ rest := hrest ▸ List.mem_cons_self
            have hae := h.start_eq_end ha (by rw [heq])
            exact Or.inr (hgrown a (List.mem_cons_of_mem _ ha) (by rw [hae]))
        have hends' : grown = true → rest = [] ∨ ∃ a ∈ rest, lines.length ≤ a.start.line := by
          intro hg
          rcases hends hg with hnil | ⟨a, ha, hal⟩
          · cases hnil
          · rcases List.mem_cons.mp ha with rfl | ha
            · omega
            · exact Or.inr ⟨a, ha, hal⟩
        have ih := groups_edited rest g.stop h.tail
          (fun a ha => hgrown a (List.mem_cons_of_mem _ ha)) hends' hstopp hnext
        exact (g.round ih hson ht hle hend).back hline hpon.2 hson.2 hpg
      · obtain ⟨hpast, hrest⟩ := not_or.mp hstop
        obtain rfl : rest = [] := not_not.mp hrest
        have hfalse : grown = false := by
          by_contra hg
          rcases hends (by simpa using hg) with hnil | ⟨a, ha, hal⟩
          · cases hnil
          · rw [List.mem_singleton.mp ha] at hal
            omega
        have hte : g.stop = ⟨lines.length, 0⟩ := ht.resolve_left fun hon => hpast hon.1
        have hround := (g.round_past_end hson (Nat.le_of_not_lt hpast)).back hline hpon.2 hson.2 hpg
        have hnone : lines.flatten.drop (Lines.offset lines g.stop.line g.stop.character) = [] := by
          rw [hte, hoffend, List.drop_length]
        rw [hfalse]
        simp only [List.map_cons, List.map_nil, Splice.splice, Group.span, hnone, List.append_nil]
        exact hround
    · -- the group at the end is the last one
      have hse : g.start = ⟨lines.length, 0⟩ := hs.resolve_left fun hon => hline hon.1
      have hte : g.stop = ⟨lines.length, 0⟩ := ht.eq_end hle (by rw [hse])
      have hnil : rest = [] := by
        rw [List.eq_nil_iff_forall_not_mem]
        intro a ha
        have hae := h.start_eq_end ha (by rw [hte])
        exact (List.pairwise_cons.mp h.distinct).1 a ha (hse.trans hae.symm)
      subst hnil
      have hsnoc := Lines.Edited.snoc lines (l := p.line) (c := p.character)
        (landed lines grown g.earlier g.last) (by
          rcases hp with hp | ⟨hp, -⟩
          · exact Or.inl hp.1
          · rw [hp]
            exact Or.inr ⟨rfl, rfl⟩)
      have hrun : runGroups lines [g] = lines ++ [landed lines grown g.earlier g.last] :=
        g.foldl_at_end hse hte
      rw [hrun]
      simp only [List.map_cons, List.map_nil, Splice.splice, Group.span, hse, hte, hoffend,
        List.take_length, List.drop_length, List.append_nil]
      exact hsnoc

/-- What the loop leaves of the text. -/
theorem runGroups_flatten {grown : Bool} {gs : List Group} (h : Ordered lines gs)
    (hgrown : grown = true ↔ ∃ g ∈ gs, lines.length ≤ g.start.line) :
    (runGroups lines gs).flatten =
      Splice.splice lines.flatten 0 (gs.map (Group.span lines grown)) := by
  have hoff : Lines.offset lines 0 0 = 0 := rfl
  have hbefore : Lines.before lines 0 0 = [] := rfl
  cases gs with
  | nil => rfl
  | cons g rest =>
    have hp : OnLine lines ⟨0, 0⟩ ∨ (⟨0, 0⟩ : Position) = ⟨lines.length, 0⟩ ∧ g :: rest ≠ [] := by
      by_cases hn : 0 < lines.length
      · exact Or.inl ⟨hn, Nat.zero_le _⟩
      · exact Or.inr ⟨by rw [Nat.eq_zero_of_not_pos hn], List.cons_ne_nil _ _⟩
    have hrun := @groups_edited lines grown (g :: rest) ⟨0, 0⟩ h
      (fun a ha hal => hgrown.mpr ⟨a, ha, hal⟩) (fun hg => Or.inr (hgrown.mp hg)) hp (fun a _ => by
        unfold Position.le Lines.NoLater
        simp only
        omega)
    rw [hrun.flatten, hbefore, List.nil_append, hoff]

/-! ### The groups of a list -/

variable (lines) in
/-- Edits with their ranges on the lines that do not overlap; where several
begin, all but the last of the list insert. -/
structure Batch (edits : List AnyTextEdit) : Prop where
  placed : ∀ e ∈ edits, Placed lines e.range.start ∧ Placed lines e.range.stop ∧
    e.range.start.le e.range.stop
  disjoint : edits.Pairwise Disjoint
  followed : edits.Pairwise fun a b => a.range.start = b.range.start → a.range.stop = a.range.start

theorem exists_group {edits : List AnyTextEdit} {e : AnyTextEdit} (h : edits.Pairwise fun a b =>
    a.range.start = b.range.start → a.range.stop = a.range.start) (he : e ∈ edits) :
    ∃ g : Group, g.start = e.range.start ∧ g.edits = edits.filter (·.range.start = e.range.start) := by
  have hne : edits.filter (·.range.start = e.range.start) ≠ [] :=
    List.ne_nil_of_mem (List.mem_filter.mpr ⟨he, by simp⟩)
  obtain ⟨earlier, last, hes⟩ := (List.eq_nil_or_concat _).resolve_left hne
  rw [List.concat_eq_append] at hes
  have hstart : ∀ a ∈ earlier ++ [last], a.range.start = e.range.start := fun a ha => by
    rw [← hes] at ha
    simpa using (List.mem_filter.mp ha).2
  have hpair := h.filter (·.range.start = e.range.start)
  rw [hes, List.pairwise_append] at hpair
  have hlast := hstart last (List.mem_append_right _ List.mem_cons_self)
  refine ⟨⟨earlier, last, fun a ha => ?_⟩, hlast, hes.symm⟩
  have hal := (hstart a (List.mem_append_left _ ha)).trans hlast.symm
  exact congrArg₂ Range.mk hal ((hpair.2.2 a ha last List.mem_cons_self hal).trans hal)

theorem exists_groups {edits : List AnyTextEdit} (h : edits.Pairwise fun a b =>
    a.range.start = b.range.start → a.range.stop = a.range.start) : ∀ ks : List Position,
    (∀ p ∈ ks, ∃ e ∈ edits, e.range.start = p) → ∃ gs : List Group, gs.map Group.start = ks ∧
      ∀ g ∈ gs, g.edits = edits.filter (·.range.start = g.start)
  | [], _ => ⟨[], rfl, fun g hg => by cases hg⟩
  | p :: ks, hks => by
    obtain ⟨e, he, rfl⟩ := hks _ List.mem_cons_self
    obtain ⟨g, hgs, hg⟩ := exists_group h he
    obtain ⟨gs, hmap, hgs'⟩ := exists_groups h ks fun q hq => hks q (List.mem_cons_of_mem _ hq)
    refine ⟨g :: gs, by rw [List.map_cons, hgs, hmap], fun a ha => ?_⟩
    rcases List.mem_cons.mp ha with rfl | ha
    · rw [hg, hgs]
    · exact hgs' a ha

theorem Group.last_mem {edits : List AnyTextEdit} {g : Group}
    (h : g.edits = edits.filter (·.range.start = g.start)) : g.last ∈ edits := by
  have hg : g.last ∈ g.edits := List.mem_append_right _ List.mem_cons_self
  rw [h] at hg
  exact (List.mem_filter.mp hg).1

/-- The groups of a list: the edits with one start are one group, and the loop
takes the groups from the last to the first. -/
structure GroupsOf (edits : List AnyTextEdit) (gs : List Group) : Prop where
  edits_eq : ∀ g ∈ gs, g.edits = edits.filter (·.range.start = g.start)
  sorted : sortEdits edits = gs.reverse.flatMap Group.edits
  merged : (edits.mergeSort fun a b => a.range.start.le b.range.start) = gs.flatMap Group.edits

/-- **A batch is made of groups in ascending order.** -/
theorem Batch.exists_ordered {edits : List AnyTextEdit} (h : Batch lines edits) :
    ∃ gs : List Group, Ordered lines gs ∧ GroupsOf edits gs := by
  let ks := ((sortEdits edits).map (·.range.start)).dedup
  have hmem : ∀ p, p ∈ ks ↔ ∃ e ∈ edits, e.range.start = p := fun p => by
    simp only [ks, List.mem_dedup, List.mem_map, (sortEdits_perm edits).mem_iff]
  have hks : ks.Pairwise fun k m => m.le k :=
    (List.pairwise_map.mpr (sortEdits_sorted edits)).sublist (List.dedup_sublist _)
  have hnd : ks.Nodup := List.nodup_dedup _
  obtain ⟨gs, hgs, hedits⟩ := exists_groups h.followed ks.reverse fun p hp =>
    (hmem p).mp (List.mem_reverse.mp hp)
  have hflat : ∀ gs' : List Group, (∀ g ∈ gs', g ∈ gs) → (gs'.map Group.start).flatMap (fun k =>
      edits.filter (·.range.start = k)) = gs'.flatMap Group.edits := fun gs' hsub => by
    rw [List.flatMap_map]
    exact List.flatMap_congr fun g hg => (hedits g (hsub g hg)).symm
  have hdesc : sortEdits edits = ks.flatMap fun k => edits.filter (·.range.start = k) :=
    StableSort.mergeSort_eq_flatMap (r := fun k m : Position => m.le k) (fun a b => by simp)
      (fun hkm hmn => Position.le_trans hmn hkm) (fun k m => Position.le_total m k)
      (fun hkm hmk => Position.le_antisymm hmk hkm) hks hnd fun e he => (hmem _).mpr ⟨e, he, rfl⟩
  have hasc : (edits.mergeSort fun a b => a.range.start.le b.range.start) =
      ks.reverse.flatMap fun k => edits.filter (·.range.start = k) :=
    StableSort.mergeSort_eq_flatMap (r := Position.le) (fun a b => by simp) Position.le_trans
      Position.le_total Position.le_antisymm (List.pairwise_reverse.mpr hks)
      (List.nodup_reverse.mpr hnd) fun e he => List.mem_reverse.mpr ((hmem _).mpr ⟨e, he, rfl⟩)
  have hlast : ∀ g ∈ gs, g.last ∈ edits := fun g hg => g.last_mem (hedits g hg)
  have hstarts : gs.Pairwise fun a b => a.start.le b.start ∧ a.start ≠ b.start := by
    have hrev := (List.pairwise_reverse.mpr (hks.and hnd))
    rw [← hgs, List.pairwise_map] at hrev
    exact hrev.imp fun hab => ⟨hab.1, fun heq => hab.2 heq.symm⟩
  refine ⟨gs, ⟨fun g hg => h.placed _ (hlast g hg), ?_, hstarts.imp fun hab => hab.2⟩, hedits, ?_, ?_⟩
  · refine hstarts.imp_of_mem fun {a b} ha hb ⟨hle, hne⟩ => ?_
    have hab : a.last ≠ b.last := fun heq => hne (congrArg (·.range.start) heq)
    have : Std.Symm Disjoint := ⟨fun _ _ => Or.symm⟩
    have hdis := h.disjoint.forall (hlast a ha) (hlast b hb) hab
    rcases hdis with hd | hd
    · exact hd
    · -- `b` would end, and so begin, no later than `a` begins
      exact absurd (Position.le_antisymm hle
        (Position.le_trans (h.placed _ (hlast b hb)).2.2 hd)) hne
  · have hrev : gs.reverse.map Group.start = ks := by rw [List.map_reverse, hgs, List.reverse_reverse]
    rw [hdesc, ← hrev, hflat gs.reverse fun g hg => List.mem_reverse.mp hg]
  · rw [hasc, ← hgs, hflat gs fun g hg => hg]

/-- The loop over the sorted edits is the loop over their groups. -/
theorem foldl_groups (lines : List Text) (gs : List Group) :
    (gs.reverse.flatMap Group.edits).foldl editLines lines = runGroups lines gs := by
  rw [List.foldl_flatMap, List.foldl_reverse, runGroups]

/-! ### What the edits mean -/

variable (lines) in
/-- What a group means: all its texts in list order, in place of the range of the last edit. -/
def Group.meant (g : Group) : Splice.Span Char :=
  ⟨Lines.offset lines g.start.line g.start.character,
    Lines.offset lines g.stop.line g.stop.character, textOf g.edits⟩

theorem Placed.offset_mono {p q : Position} (hp : Placed lines p) (hq : Placed lines q) (hle : p.le q) :
    Lines.offset lines p.line p.character ≤ Lines.offset lines q.line q.character := by
  rcases hq with hq | rfl
  · rcases hp with hp | rfl
    · exact Lines.offset_mono lines hq.1 hp.2 hq.2 hle
    · have := hq.1
      unfold Position.le Lines.NoLater at hle
      simp only at hle
      omega
  · rw [Lines.offset_end]
    rcases hp with hp | rfl
    · exact Lines.offset_le_length lines _ hp.1
    · rw [Lines.offset_end]

theorem Placed.offset_le {p : Position} (hp : Placed lines p) :
    Lines.offset lines p.line p.character ≤ lines.flatten.length := by
  rcases hp with hp | rfl
  · exact Lines.offset_le_length lines _ hp.1
  · rw [Lines.offset_end]

/-- The pieces of the groups' edits, in the order of the groups and the list. -/
theorem Ordered.pieces {gs : List Group} (h : Ordered lines gs) :
    Splice.Ascending ((gs.flatMap Group.edits).map (lineSpan lines)) ∧
      ∀ s ∈ (gs.flatMap Group.edits).map (lineSpan lines), s.hi ≤ lines.flatten.length := by
  have hedit : ∀ g ∈ gs, ∀ e ∈ g.edits, e.range.start = g.start ∧ Placed lines e.range.stop ∧
      e.range.start.le e.range.stop ∧ e.range.stop.le g.stop := by
    intro g hg e he
    obtain ⟨hs, ht, hle⟩ := h.placed g hg
    rcases List.mem_append.mp he with he | he
    · rw [g.inserts e he]
      exact ⟨rfl, hs, Or.inr ⟨rfl, Nat.le_refl _⟩, hle⟩
    · rw [List.mem_singleton.mp he]
      exact ⟨rfl, ht, hle, Or.inr ⟨rfl, Nat.le_refl _⟩⟩
  refine ⟨⟨fun s hs => ?_, ?_⟩, fun s hs => ?_⟩
  · obtain ⟨e, he, rfl⟩ := List.mem_map.mp hs
    obtain ⟨g, hg, he⟩ := List.mem_flatMap.mp he
    obtain ⟨heq, ht, hle, -⟩ := hedit g hg e he
    exact (heq ▸ (h.placed g hg).1).offset_mono ht hle
  · rw [List.pairwise_map, List.pairwise_flatMap]
    constructor
    · intro g hg
      -- inside a group: all but the last insert at its start
      rw [Group.edits, List.pairwise_append]
      have hins : ∀ a ∈ g.earlier, (lineSpan lines a).hi =
          Lines.offset lines g.start.line g.start.character := fun a ha => by
        rw [lineSpan, g.inserts a ha]
      have hlo : ∀ a ∈ g.edits, (lineSpan lines a).lo =
          Lines.offset lines g.start.line g.start.character := fun a ha => by
        rw [lineSpan, (hedit g hg a ha).1]
      refine ⟨List.pairwise_of_forall_mem_list fun a ha b hb => ?_, List.pairwise_singleton _ _,
        fun a ha b hb => ?_⟩
      · rw [hins a ha, hlo b (List.mem_append_left _ hb)]
      · rw [hins a ha, hlo b (List.mem_append_right _ hb)]
    · refine h.ascending.imp_of_mem fun {a b} ha hb hab x hx y hy => ?_
      obtain ⟨-, ht, -, hle⟩ := hedit a ha x hx
      exact ht.offset_mono ((hedit b hb y hy).1 ▸ (h.placed b hb).1)
        (Position.le_trans hle ((hedit b hb y hy).1 ▸ hab))
  · obtain ⟨e, he, rfl⟩ := List.mem_map.mp hs
    obtain ⟨g, hg, he⟩ := List.mem_flatMap.mp he
    exact (hedit g hg e he).2.1.offset_le

/-- The edits of the groups, one by one, are the groups' texts. -/
theorem splice_groups (lines : List Text) : ∀ (gs : List Group) (i : ℕ),
    Splice.splice lines.flatten i ((gs.flatMap Group.edits).map (lineSpan lines)) =
      Splice.splice lines.flatten i (gs.map (Group.meant lines))
  | [], _ => rfl
  | g :: gs, i => by
    have ih := splice_groups lines gs (Lines.offset lines g.stop.line g.stop.character)
    have hspans : ((g :: gs).flatMap Group.edits).map (lineSpan lines) =
        g.earlier.map (lineSpan lines) ++ lineSpan lines g.last ::
          (gs.flatMap Group.edits).map (lineSpan lines) := by
      simp [Group.edits]
    have hinserts : ∀ a ∈ g.earlier.map (lineSpan lines),
        a.lo = (lineSpan lines g.last).lo ∧ a.hi = (lineSpan lines g.last).lo := by
      intro a ha
      obtain ⟨e, he, rfl⟩ := List.mem_map.mp ha
      rw [lineSpan, g.inserts e he]
      exact ⟨rfl, rfl⟩
    have hmeant : (⟨(lineSpan lines g.last).lo, (lineSpan lines g.last).hi,
        (g.earlier.map (lineSpan lines)).flatMap (·.new) ++ (lineSpan lines g.last).new⟩ :
          Splice.Span Char) = Group.meant lines g := by
      simp [Group.meant, textOf, Group.edits, lineSpan, List.flatMap_map]
    calc Splice.splice lines.flatten i (((g :: gs).flatMap Group.edits).map (lineSpan lines))
        = Splice.splice lines.flatten i (Group.meant lines g ::
            (gs.flatMap Group.edits).map (lineSpan lines)) := by
          rw [hspans, Splice.splice_insertions _ _ _ _ _ hinserts, hmeant]
      _ = Splice.splice lines.flatten i ((g :: gs).map (Group.meant lines)) := by
          rw [List.map_cons, Splice.splice, Splice.splice]
          exact congrArg (fun t => _ ++ (_ ++ t)) ih

/-- **The edits at once are the groups' texts.** Positions at one offset must be the same. -/
theorem Ordered.simultaneous_eq {gs : List Group} (hgs : Ordered lines gs) {edits : List AnyTextEdit}
    (hinj : ∀ a ∈ edits, ∀ b ∈ edits, (lineSpan lines a).lo = (lineSpan lines b).lo →
      a.range.start = b.range.start) (hgroups : GroupsOf edits gs) :
    Splice.simultaneous lines.flatten (edits.map (lineSpan lines)) =
      Splice.splice lines.flatten 0 (gs.map (Group.meant lines)) := by
  obtain ⟨hpieces, hbound⟩ := hgs.pieces
  rw [← splice_groups, ← Splice.simultaneous_eq_splice _ _ hpieces hbound,
    ← hgroups.merged]
  refine Splice.simultaneous_congr _ ((List.mergeSort_perm _ _).symm.map _) fun i => ?_
  rw [List.filter_map, List.filter_map]
  refine congrArg _ (StableSort.filter_mergeSort (fun a b c hab hbc => ?_) (fun a b => ?_) ?_).symm
  · simp only [decide_eq_true_eq] at *
    exact Position.le_trans hab hbc
  · simp only [Bool.or_eq_true, decide_eq_true_eq]
    exact Position.le_total _ _
  · refine List.pairwise_of_forall_mem_list fun a ha b hb => ?_
    obtain ⟨ha, hai⟩ := List.mem_filter.mp ha
    obtain ⟨hb, hbi⟩ := List.mem_filter.mp hb
    simp only [Function.comp, decide_eq_true_eq] at hai hbi ⊢
    rw [hinj a ha b hb (hai.trans hbi.symm)]
    exact Or.inr ⟨rfl, Nat.le_refl _⟩

/-! ### The result, compared with the meaning -/

/-- An edit begins at the end. -/
def grownBy (lines : List Text) (edits : List AnyTextEdit) : Bool :=
  edits.any fun e => lines.length ≤ e.range.start.line

theorem landed_length {grown : Bool} {g : Group} (h : tailOf lines grown g.last = []) :
    (landed lines grown g.earlier g.last).length ≤ (textOf g.edits).length := by
  have hrev : (textOf g.earlier.reverse).length = (textOf g.earlier).length := by
    rw [textOf, textOf, List.flatMap, List.flatMap, List.map_reverse]
    exact ((List.reverse_perm _).flatten).length_eq
  have hedits : textOf g.edits = textOf g.earlier ++ getEditText g.last := by simp [textOf, Group.edits]
  rw [hedits, landed]
  split_ifs
  · simp only [List.length_append, List.length_drop]
    omega
  · simp only [h, List.length_append, List.length_nil]
    omega

namespace GroupsOf

variable {edits : List AnyTextEdit} {gs : List Group}

theorem last_mem (h : GroupsOf edits gs) {g : Group} (hg : g ∈ gs) : g.last ∈ edits :=
  g.last_mem (h.edits_eq g hg)

/-- An edit is in the group that has its start. -/
theorem exists_of_mem (h : GroupsOf edits gs) {e : AnyTextEdit} (he : e ∈ edits) :
    ∃ g ∈ gs, e ∈ g.edits ∧ e.range.start = g.start := by
  have hsorted : e ∈ edits.mergeSort fun a b => a.range.start.le b.range.start :=
    List.mem_mergeSort.mpr he
  rw [h.merged] at hsorted
  obtain ⟨g, hg, heg⟩ := List.mem_flatMap.mp hsorted
  refine ⟨g, hg, heg, ?_⟩
  rw [h.edits_eq g hg] at heg
  simpa using (List.mem_filter.mp heg).2

theorem grownBy_iff (h : GroupsOf edits gs) :
    grownBy lines edits = true ↔ ∃ g ∈ gs, lines.length ≤ g.start.line := by
  simp only [grownBy, List.any_eq_true, decide_eq_true_eq]
  constructor
  · rintro ⟨e, he, hle⟩
    obtain ⟨g, hg, -, hstart⟩ := h.exists_of_mem he
    exact ⟨g, hg, hstart ▸ hle⟩
  · rintro ⟨g, hg, hle⟩
    exact ⟨g.last, h.last_mem hg, hle⟩

end GroupsOf

/-- **What `apply_text_edits` leaves.** Group by group, it is `landed`. -/
theorem Batch.applied {edits : List AnyTextEdit} (h : Batch lines edits) : ∃ gs : List Group,
    Ordered lines gs ∧ GroupsOf edits gs ∧
      ((sortEdits edits).foldl editLines lines).flatten =
        Splice.splice lines.flatten 0 (gs.map (Group.span lines (grownBy lines edits))) := by
  obtain ⟨gs, hgs, hgroups⟩ := h.exists_ordered
  refine ⟨gs, hgs, hgroups, ?_⟩
  rw [hgroups.sorted, foldl_groups]
  exact runGroups_flatten hgs hgroups.grownBy_iff

end Lines

/-- What the edits that begin at `p` leave there is their texts in list order:
the text of the last one, with what it does to the text inserted before it. -/
def KeepsOrder (content : Text) (edits : List AnyTextEdit) (p : Position) : Prop :=
  let starting := edits.filter (·.range.start = p)
  match starting.getLast? with
  | none => True
  | some last =>
    let inserted := starting.dropLast
    let old := replacedOf (splitlines content) last
    if last.range.start.line = last.range.stop.line then
      getEditText last ++ (textOf inserted.reverse ++ old).drop old.length =
        textOf inserted ++ getEditText last
    else
      getEditText last ++ tailOf (splitlines content) (grownBy (splitlines content) edits) last =
        textOf inserted ++ getEditText last

instance (content : Text) (edits : List AnyTextEdit) (p : Position) :
    Decidable (KeepsOrder content edits p) := by
  unfold KeepsOrder
  dsimp only
  split <;> infer_instance

theorem keepsOrder_iff {content : Text} {edits : List AnyTextEdit} {g : Group}
    (h : g.edits = edits.filter (·.range.start = g.start)) : KeepsOrder content edits g.start ↔
      landed (splitlines content) (grownBy (splitlines content) edits) g.earlier g.last =
        textOf g.edits := by
  have hedits : textOf g.edits = textOf g.earlier ++ getEditText g.last := by simp [textOf, Group.edits]
  have hlast : (edits.filter (·.range.start = g.start)).getLast? = some g.last := by
    rw [← h, Group.edits, List.getLast?_concat]
  have hinit : (edits.filter (·.range.start = g.start)).dropLast = g.earlier := by
    rw [← h, Group.edits, List.dropLast_concat]
  unfold KeepsOrder landed
  simp only [hlast, hinit, hedits]
  split_ifs <;> rfl

/-! ### Positions in the document -/

theorem Inside.placed {content : Text} {p : Position} (h : Inside content p) :
    Placed (splitlines content) p :=
  h.imp Existing.onLine fun h => h.1

theorem Inside.offset_eq {content : Text} (hlf : LfOnly content) {p : Position} (h : Inside content p) :
    Lines.offset (splitlines content) p.line p.character = offsetAt content p := by
  rcases h with h | h
  · exact offset_splitlines hlf h.onLine
  · rw [h.offsetAt_eq hlf, h.1, Lines.offset_end, splitlines_flatten]

/-- No position on a line has the offset of the end after it. -/
theorem Existing.offsetAt_lt_end {content : Text} (hlf : LfOnly content) {p q : Position}
    (hp : Existing content p) (hq : AtEnd content q) : offsetAt content p < offsetAt content q := by
  have hend : content.getLast? = some '\n' := by
    rcases hq.2 with rfl | hend
    · exact absurd hp.1 (Nat.not_lt_zero _)
    · exact hend
  have hlt := lt_of_le_of_lt hp.2 (lineText_length_lt (lf_mem_splitlines_of_end hlf hend hp.1))
  have hle := Lines.offset_le_length (splitlines content)
    ((splitlines content).getD p.line []).length hp.1
  rw [Lines.offset_eq _ (le_refl _), splitlines_flatten] at hle
  rw [hq.offsetAt_eq hlf, ← offset_splitlines hlf hp.onLine, Lines.offset_eq _ hp.onLine.2]
  omega

/-- Positions with the same offset are the same. -/
theorem Inside.offsetAt_inj {content : Text} (hlf : LfOnly content) {p q : Position}
    (hp : Inside content p) (hq : Inside content q) (h : offsetAt content p = offsetAt content q) :
    p = q := by
  rcases hp with hp | hp <;> rcases hq with hq | hq
  · exact LspClient.offsetAt_inj hlf hp hq h
  · exact absurd h (Nat.ne_of_lt (hp.offsetAt_lt_end hlf hq))
  · exact absurd h.symm (Nat.ne_of_lt (hq.offsetAt_lt_end hlf hp))
  · rw [hp.1, hq.1]

/-- **Edits that share a start follow list order exactly if each group keeps
its order.** The list may put any number of insertions at a position and after
them one replacement that begins there. Where an edit reaches the end and
leaves the lines after its first one (`tailOf`), the condition is still enough. -/
theorem apply_text_edits_shared_starts (content : Text) (edits : List AnyTextEdit)
    (hlf : LfOnly content)
    (hin : ∀ e ∈ edits, Inside content e.range.start ∧ Inside content e.range.stop ∧
      e.range.start.le e.range.stop)
    (hdis : edits.Pairwise Disjoint)
    (hlast : edits.Pairwise fun a b => a.range.start = b.range.start →
      a.range.stop = a.range.start) :
    ((∀ e ∈ edits, tailOf (splitlines content) (grownBy (splitlines content) edits) e = []) →
      (applyTextEdits content edits = Splice.simultaneous content (edits.map (spanOf content)) ↔
        ∀ e ∈ edits, KeepsOrder content edits e.range.start)) ∧
    ((∀ e ∈ edits, KeepsOrder content edits e.range.start) →
      applyTextEdits content edits = Splice.simultaneous content (edits.map (spanOf content))) := by
  have hbatch : Batch (splitlines content) edits :=
    ⟨fun e he => ⟨(hin e he).1.placed, (hin e he).2.1.placed, (hin e he).2.2⟩, hdis, hlast⟩
  obtain ⟨gs, hgs, hgroups, happlied⟩ := hbatch.applied
  have hspans : edits.map (lineSpan (splitlines content)) = edits.map (spanOf content) :=
    List.map_congr_left fun e he => by
      rw [lineSpan, spanOf, (hin e he).1.offset_eq hlf, (hin e he).2.1.offset_eq hlf, getEditText_eq]
  have hmeant := hgs.simultaneous_eq (fun a ha b hb heq => by
    simp only [lineSpan, (hin a ha).1.offset_eq hlf, (hin b hb).1.offset_eq hlf] at heq
    exact (hin a ha).1.offsetAt_inj hlf (hin b hb).1 heq) hgroups
  rw [hspans, splitlines_flatten] at hmeant
  rw [splitlines_flatten] at happlied
  -- the edits keep their order just if what each group leaves is what it means
  have hkeeps : (∀ e ∈ edits, KeepsOrder content edits e.range.start) ↔ ∀ g ∈ gs,
      (Group.span (splitlines content) (grownBy (splitlines content) edits) g).new =
        (Group.meant (splitlines content) g).new := by
    constructor
    · intro h g hg
      exact (keepsOrder_iff (hgroups.edits_eq g hg)).mp (h g.last (hgroups.last_mem hg))
    · intro h e he
      obtain ⟨g, hg, -, hstart⟩ := hgroups.exists_of_mem he
      rw [hstart]
      exact (keepsOrder_iff (hgroups.edits_eq g hg)).mpr (h g hg)
  refine ⟨fun htail => ?_, fun h => ?_⟩
  · rw [applyTextEdits, happlied, hmeant, hkeeps]
    exact Splice.splice_map_eq_iff content _ _ gs 0 fun g hg =>
      ⟨rfl, rfl, landed_length (htail g.last (hgroups.last_mem hg))⟩
  · rw [applyTextEdits, happlied, hmeant]
    refine congrArg _ (List.map_congr_left fun g hg => ?_)
    exact congrArg (Splice.Span.mk _ _) (hkeeps.mp h g hg)

/-- The same text inserted twice, and a replacement elsewhere. -/
theorem apply_text_edits_shared_starts_twice :
    applyTextEdits "ab\ncd\n".toList
        [.textEdit ⟨⟨0, 1⟩, ⟨0, 1⟩⟩ "x".toList, .textEdit ⟨⟨0, 1⟩, ⟨0, 1⟩⟩ "x".toList,
          .textEdit ⟨⟨1, 0⟩, ⟨1, 2⟩⟩ "Y".toList] = "axxb\nY\n".toList := by
  rw [((apply_text_edits_shared_starts "ab\ncd\n".toList
    [.textEdit ⟨⟨0, 1⟩, ⟨0, 1⟩⟩ "x".toList, .textEdit ⟨⟨0, 1⟩, ⟨0, 1⟩⟩ "x".toList,
      .textEdit ⟨⟨1, 0⟩, ⟨1, 2⟩⟩ "Y".toList]
    (by decide) (by decide) (by decide) (by decide)).1 (by decide)).mpr (by decide)]
  decide

/-- **Insertions come out the other way round**, and a replacement takes away
what was inserted before it instead of what it names. -/
theorem apply_text_edits_reversed :
    let a := AnyTextEdit.textEdit ⟨⟨0, 0⟩, ⟨0, 0⟩⟩ "a".toList
    let b := AnyTextEdit.textEdit ⟨⟨0, 0⟩, ⟨0, 0⟩⟩ "b".toList
    let replacement := AnyTextEdit.textEdit ⟨⟨0, 0⟩, ⟨0, 1⟩⟩ "Y".toList
    (∀ e ∈ [a, b, replacement], Inside "x".toList e.range.start ∧ Inside "x".toList e.range.stop ∧
      e.range.start.le e.range.stop) ∧
    [a, b, replacement].Pairwise Disjoint ∧
    applyTextEdits "x".toList [a, b] = "bax".toList ∧
    Splice.simultaneous "x".toList ([a, b].map (spanOf "x".toList)) = "abx".toList ∧
    applyTextEdits "x".toList [a, replacement] = "Yx".toList ∧
    Splice.simultaneous "x".toList ([a, replacement].map (spanOf "x".toList)) = "aY".toList := by
  refine ⟨by decide, by decide, ?_, by decide, ?_, by decide⟩
  · rw [applyTextEdits, sortEdits_of_sorted (by decide)]
    decide
  · rw [applyTextEdits, sortEdits_of_sorted (by decide)]
    decide

end LspClient
