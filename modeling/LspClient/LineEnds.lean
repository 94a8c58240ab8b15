/-
# What ends a line

In LSP a line ends at `\n`, `\r\n` or `\r`; `str.splitlines` ends lines at
other characters as well. A position of an LSP line (`InLspLine`) is therefore
resolved further to the left, if anywhere else (`resolved_le`): it is resolved
to its LSP offset just if none of the other characters stands before it, the
one right before it excepted (`apply_text_edits_lsp_lines`). Columns count
characters here.

Key definitions: `lspLines`, `lspOffset`, `resolved`, `OnlyLspEnds`.
Key theorems: `resolved_eq_iff`, `apply_text_edits_lsp_lines`.
-/
import LspClient.TextEdit

namespace LspClient

/-- An LSP line ends after `c` when `cs` follows. -/
def endsLspLine (c : Char) (cs : Text) : Bool :=
  c = '\n' || c = '\r' && !(cs.head? = some '\n')

/-- The lines of LSP, with their ends; the last one has none. -/
def lspLines : Text → List Text
  | [] => [[]]
  | c :: cs =>
    if endsLspLine c cs then [c] :: lspLines cs
    else match lspLines cs with
      | [] => [[c]]
      | l :: ls => (c :: l) :: ls

/-- An LSP line without its end. -/
def lspLineText (line : Text) : Text := line.takeWhile fun c => !(c = '\n' || c = '\r')

/-- The line is one of LSP, and the column is inside it. -/
def InLspLine (s : Text) (p : Position) : Prop :=
  p.line < (lspLines s).length ∧ p.character ≤ (lspLineText ((lspLines s).getD p.line [])).length

instance (s : Text) (p : Position) : Decidable (InLspLine s p) := by unfold InLspLine; infer_instance

/-- The LSP offset of a position. -/
def lspOffset (s : Text) (p : Position) : ℕ := Lines.offset (lspLines s) p.line p.character

/-- The offset at which the code takes a position. -/
def resolved (s : Text) (p : Position) : ℕ := Lines.offset (splitlines s) p.line p.character

/-- Of the characters at which `splitlines` breaks lines, the text has only those of LSP. -/
def OnlyLspEnds (s : Text) : Prop := ∀ c ∈ s, isLineBreak c = true → c = '\n' ∨ c = '\r'

instance (s : Text) : Decidable (OnlyLspEnds s) :=
  List.decidableBAll (fun c => isLineBreak c = true → c = '\n' ∨ c = '\r') s

theorem onlyLspEnds_nil : OnlyLspEnds [] := fun _ hc => absurd hc List.not_mem_nil

/-! ### Character by character -/

section Cons

variable {c : Char} {cs : Text}

theorem endsLine_of_endsLspLine (h : endsLspLine c cs = true) : endsLine c cs = true := by
  simp only [endsLspLine, Bool.or_eq_true, decide_eq_true_eq, Bool.and_eq_true] at h
  rcases h with rfl | ⟨rfl, h⟩
  · rfl
  · simp only [endsLine, decide_true, Bool.true_and, Bool.and_eq_true]
    exact ⟨rfl, h⟩

theorem lspLines_ne_nil : ∀ s : Text, lspLines s ≠ []
  | [] => List.cons_ne_nil _ _
  | c :: cs => by
    rw [lspLines]
    split_ifs
    · exact List.cons_ne_nil _ _
    · split <;> exact List.cons_ne_nil _ _

theorem lspLines_ends (h : endsLspLine c cs = true) : lspLines (c :: cs) = [c] :: lspLines cs := by
  rw [lspLines, if_pos h]

theorem lspLines_inside (h : ¬ endsLspLine c cs = true) :
    ∃ l ls, lspLines cs = l :: ls ∧ lspLines (c :: cs) = (c :: l) :: ls := by
  obtain ⟨l, ls, hls⟩ := List.exists_cons_of_ne_nil (lspLines_ne_nil cs)
  exact ⟨l, ls, hls, by rw [lspLines, if_neg h, hls]⟩

/-- Inside a line a character counts one more column, or one more character of the lines before. -/
theorem resolved_inside (h : ¬ endsLine c cs = true) (l k : ℕ) :
    resolved (c :: cs) ⟨0, k + 1⟩ = 1 + resolved cs ⟨0, k⟩ ∧
      resolved (c :: cs) ⟨l + 1, k⟩ = 1 + resolved cs ⟨l + 1, k⟩ := by
  unfold resolved
  rw [splitlines, if_neg h]
  cases splitlines cs with
  | nil => simp
  | cons x xs =>
    simp only [Lines.offset_cons_zero, Lines.offset_cons_succ, List.length_cons]
    omega

theorem resolved_zero (s : Text) : resolved s ⟨0, 0⟩ = 0 := by
  unfold resolved
  cases splitlines s <;> simp

theorem lspOffset_inside (h : ¬ endsLspLine c cs = true) (l k : ℕ) :
    lspOffset (c :: cs) ⟨0, k + 1⟩ = 1 + lspOffset cs ⟨0, k⟩ ∧
      lspOffset (c :: cs) ⟨l + 1, k⟩ = 1 + lspOffset cs ⟨l + 1, k⟩ := by
  obtain ⟨x, xs, hcs, hc⟩ := lspLines_inside h
  unfold lspOffset
  rw [hcs, hc]
  simp only [Lines.offset_cons_zero, Lines.offset_cons_succ, List.length_cons]
  omega

theorem lspOffset_zero (s : Text) : lspOffset s ⟨0, 0⟩ = 0 := by
  unfold lspOffset
  cases lspLines s <;> simp

theorem resolved_ends (h : endsLine c cs = true) (l k : ℕ) :
    resolved (c :: cs) ⟨0, k⟩ = min k 1 ∧ resolved (c :: cs) ⟨l + 1, k⟩ = 1 + resolved cs ⟨l, k⟩ := by
  unfold resolved
  rw [splitlines_ends h]
  simp

theorem lspOffset_ends (h : endsLspLine c cs = true) (l k : ℕ) :
    lspOffset (c :: cs) ⟨l + 1, k⟩ = 1 + lspOffset cs ⟨l, k⟩ := by
  unfold lspOffset
  rw [lspLines_ends h]
  simp

/-- A column after a character: the character is no line end, and the column before is inside. -/
theorem InLspLine.column {k : ℕ} (h : InLspLine (c :: cs) ⟨0, k + 1⟩) :
    (c ≠ '\n' ∧ c ≠ '\r') ∧ InLspLine cs ⟨0, k⟩ := by
  have hcol : k + 1 ≤ (lspLineText ((lspLines (c :: cs)).getD 0 [])).length := h.2
  have hhead : ∀ x : Text, k + 1 ≤ (lspLineText (c :: x)).length →
      (c ≠ '\n' ∧ c ≠ '\r') ∧ k ≤ (lspLineText x).length := by
    intro x hx
    unfold lspLineText at hx ⊢
    rw [List.takeWhile_cons] at hx
    split_ifs at hx with hc
    · simp only [Bool.not_eq_true', Bool.or_eq_false_iff, decide_eq_false_iff_not] at hc
      exact ⟨hc, Nat.le_of_succ_le_succ hx⟩
    · exact absurd hx (Nat.not_succ_le_zero k)
  by_cases he : endsLspLine c cs = true
  · rw [lspLines_ends he, List.getD_cons_zero] at hcol
    obtain ⟨hc, -⟩ := hhead [] hcol
    simp [endsLspLine, hc.1, hc.2] at he
  · obtain ⟨x, xs, hcs, hx⟩ := lspLines_inside he
    rw [hx, List.getD_cons_zero] at hcol
    obtain ⟨hc, hk⟩ := hhead x hcol
    exact ⟨hc, by unfold InLspLine; rw [hcs]; exact ⟨Nat.succ_pos _, hk⟩⟩

theorem InLspLine.line {l k : ℕ} (h : InLspLine (c :: cs) ⟨l + 1, k⟩) :
    InLspLine cs ⟨if endsLspLine c cs then l else l + 1, k⟩ := by
  unfold InLspLine at h ⊢
  by_cases he : endsLspLine c cs = true
  · rw [if_pos he]
    rw [lspLines_ends he] at h
    exact ⟨Nat.lt_of_succ_lt_succ h.1, h.2⟩
  · rw [if_neg he]
    obtain ⟨x, xs, hcs, hx⟩ := lspLines_inside he
    rw [hx] at h
    rw [hcs]
    exact h

end Cons

/-! ### The two offsets of a position -/

/-- A column inside its line is counted in full. -/
theorem le_lspOffset {s : Text} {p : Position} (h : InLspLine s p) : p.character ≤ lspOffset s p := by
  have hcol := le_trans h.2 (List.takeWhile_sublist _).length_le
  rw [lspOffset, Lines.offset_eq _ hcol]
  exact Nat.le_add_left _ _

theorem lspOffset_le {s : Text} {p : Position} (h : InLspLine s p) :
    lspOffset s p ≤ (lspLines s).flatten.length :=
  Lines.offset_le_length _ _ h.1

theorem lspLines_flatten : ∀ s : Text, (lspLines s).flatten = s
  | [] => rfl
  | c :: cs => by
    have ih := lspLines_flatten cs
    by_cases he : endsLspLine c cs = true
    · rw [lspLines_ends he, List.flatten_cons, ih]
      rfl
    · obtain ⟨x, xs, hcs, hx⟩ := lspLines_inside he
      rw [hcs] at ih
      rw [hx, ← ih]
      simp

/-- The code takes a position of a later LSP line, one line up, before its place. -/
theorem resolved_lt : ∀ (s : Text) (l k : ℕ), InLspLine s ⟨l + 1, k⟩ →
    resolved s ⟨l, k⟩ < lspOffset s ⟨l + 1, k⟩
  | [], l, k, h => absurd h.1 (by simp [lspLines])
  | c :: cs, l, k, h => by
    have hline := h.line
    by_cases he : endsLspLine c cs = true
    · rw [if_pos he] at hline
      have hends := resolved_ends (endsLine_of_endsLspLine he)
      rw [lspOffset_ends he]
      cases l with
      | zero =>
        have hle : k ≤ lspOffset cs ⟨0, k⟩ := le_lspOffset hline
        rw [(hends 0 k).1]
        omega
      | succ l =>
        rw [(hends l k).2]
        exact Nat.add_lt_add_left (resolved_lt cs l k hline) 1
    · rw [if_neg he] at hline
      have ih := resolved_lt cs l k hline
      rw [(lspOffset_inside he l k).2]
      by_cases hs : endsLine c cs = true
      · cases l with
        | zero =>
          rw [(resolved_ends hs 0 k).1]
          omega
        | succ l =>
          have hnext : resolved cs ⟨l, k⟩ ≤ resolved cs ⟨l + 1, k⟩ := Lines.offset_le_next k k _ l
          rw [(resolved_ends hs l k).2]
          omega
      · cases l with
        | zero =>
          cases k with
          | zero =>
            rw [resolved_zero]
            omega
          | succ k =>
            have hcol : resolved cs ⟨0, k⟩ ≤ resolved cs ⟨0, k + 1⟩ :=
              Lines.offset_le_column _ 0 (Nat.le_succ k)
            rw [(resolved_inside hs 0 k).1]
            omega
        | succ l =>
          rw [(resolved_inside hs l k).2]
          omega

section Kinds

variable {c : Char} {cs : Text}

/-- A line that ends where no LSP line does ends at another character. -/
theorem other_of_endsLine (h : endsLine c cs = true) (hl : ¬ endsLspLine c cs = true) :
    isLineBreak c = true ∧ c ≠ '\n' ∧ c ≠ '\r' := by
  simp only [endsLine, Bool.and_eq_true, Bool.not_eq_true', Bool.and_eq_false_iff,
    decide_eq_false_iff_not] at h
  simp only [endsLspLine, Bool.or_eq_true, decide_eq_true_eq, Bool.and_eq_true, Bool.not_eq_true',
    decide_eq_false_iff_not, not_or, not_and, not_not] at hl
  refine ⟨h.1, hl.1, fun hr => ?_⟩
  exact h.2.elim (fun hn => hn hr) fun hn => hn (hl.2 hr)

/-- A character that breaks lines but ends none here is the `\r` of `\r\n`. -/
theorem cr_of_not_endsLine (h : ¬ endsLine c cs = true) (hb : isLineBreak c = true) : c = '\r' := by
  simp only [endsLine, hb, Bool.true_and, Bool.not_eq_true', Bool.not_eq_false, Bool.and_eq_true,
    decide_eq_true_eq] at h
  exact h.1

theorem lsp_of_endsLspLine (h : endsLspLine c cs = true) : c = '\n' ∨ c = '\r' := by
  simp only [endsLspLine, Bool.or_eq_true, decide_eq_true_eq, Bool.and_eq_true] at h
  exact h.imp_right And.left

/-- One more character of LSP, or of no kind, in front. -/
theorem onlyLspEnds_cons (hc : isLineBreak c = true → c = '\n' ∨ c = '\r') (n : ℕ) :
    OnlyLspEnds ((c :: cs).take n) ↔ OnlyLspEnds (cs.take (n - 1)) := by
  cases n with
  | zero => rfl
  | succ n =>
    unfold OnlyLspEnds
    rw [List.take_succ_cons, List.forall_mem_cons, Nat.add_sub_cancel]
    exact ⟨fun h => h.2, fun h => ⟨hc, h⟩⟩

theorem not_onlyLspEnds_cons (hb : isLineBreak c = true) (hc : c ≠ '\n' ∧ c ≠ '\r') {n : ℕ}
    (hn : 0 < n) : ¬ OnlyLspEnds ((c :: cs).take n) := by
  obtain ⟨m, rfl⟩ := Nat.exists_eq_succ_of_ne_zero (Nat.ne_of_gt hn)
  intro h
  rcases h c (by rw [List.take_succ_cons]; exact List.mem_cons_self) hb with h | h
  · exact hc.1 h
  · exact hc.2 h

end Kinds

/-- **Where the code takes a position of LSP.** Never after its place, and at
its place just if no other character that breaks lines stands before it, the
one right before it excepted. -/
theorem resolved_eq_iff : ∀ (s : Text) (p : Position), InLspLine s p →
    resolved s p ≤ lspOffset s p ∧
      (resolved s p = lspOffset s p ↔ OnlyLspEnds (s.take (lspOffset s p - 1)))
  | [], p, _ => by
    have hr : resolved [] p = 0 := Lines.offset_nil _ _
    rw [hr, List.take_nil]
    have hl : lspOffset [] p = 0 := by
      unfold lspOffset Lines.offset Lines.before lspLines
      cases p.line <;> simp
    rw [hl]
    exact ⟨Nat.le_refl 0, fun _ => onlyLspEnds_nil, fun _ => rfl⟩
  | c :: cs, ⟨0, 0⟩, _ => by
    rw [resolved_zero, lspOffset_zero]
    exact ⟨Nat.le_refl 0, fun _ => onlyLspEnds_nil, fun _ => rfl⟩
  | c :: cs, ⟨0, k + 1⟩, h => by
    obtain ⟨hc, hcol⟩ := h.column
    obtain ⟨hle, hiff⟩ := resolved_eq_iff cs ⟨0, k⟩ hcol
    have hnl : ¬ endsLspLine c cs = true := fun he => by
      rcases lsp_of_endsLspLine he with h | h
      · exact hc.1 h
      · exact hc.2 h
    rw [(lspOffset_inside hnl 0 k).1, Nat.add_sub_cancel_left]
    by_cases hs : endsLine c cs = true
    · have hb := (other_of_endsLine hs hnl).1
      rw [(resolved_ends hs 0 (k + 1)).1, Nat.min_eq_right (by omega)]
      refine ⟨by omega, fun heq => ?_, fun ho => ?_⟩
      · rw [show lspOffset cs ⟨0, k⟩ = 0 by omega]
        exact onlyLspEnds_nil
      · by_contra hne
        exact not_onlyLspEnds_cons hb hc (by omega) ho
    · have hb : isLineBreak c = true → c = '\n' ∨ c = '\r' := fun hb =>
        Or.inr (cr_of_not_endsLine hs hb)
      rw [(resolved_inside hs 0 k).1, onlyLspEnds_cons hb, ← hiff]
      omega
  | c :: cs, ⟨l + 1, k⟩, h => by
    have hline := h.line
    by_cases he : endsLspLine c cs = true
    · rw [if_pos he] at hline
      obtain ⟨hle, hiff⟩ := resolved_eq_iff cs ⟨l, k⟩ hline
      rw [lspOffset_ends he, (resolved_ends (endsLine_of_endsLspLine he) l k).2,
        Nat.add_sub_cancel_left, onlyLspEnds_cons fun _ => lsp_of_endsLspLine he, ← hiff]
      omega
    · rw [if_neg he] at hline
      rw [(lspOffset_inside he l k).2, Nat.add_sub_cancel_left]
      by_cases hs : endsLine c cs = true
      · -- the line breaks where no LSP line ends: from here on the code is a line ahead
        obtain ⟨hb, hc⟩ := other_of_endsLine hs he
        have hlt := resolved_lt cs l k hline
        rw [(resolved_ends hs l k).2]
        refine ⟨by omega, fun heq => by omega, fun ho => ?_⟩
        exact absurd ho (not_onlyLspEnds_cons hb hc (by omega))
      · obtain ⟨hle, hiff⟩ := resolved_eq_iff cs ⟨l + 1, k⟩ hline
        have hb : isLineBreak c = true → c = '\n' ∨ c = '\r' := fun hb =>
          Or.inr (cr_of_not_endsLine hs hb)
        rw [(resolved_inside hs l k).2, onlyLspEnds_cons hb, ← hiff]
        omega

/-! ### Insertions -/

/-- The lines of LSP are no more than those the code has, and one after them. -/
theorem InLspLine.le_length : ∀ (s : Text) (l k : ℕ), InLspLine s ⟨l, k⟩ →
    l ≤ (splitlines s).length
  | _, 0, _, _ => Nat.zero_le _
  | [], l + 1, k, h => absurd h.1 (by simp [lspLines])
  | c :: cs, l + 1, k, h => by
    have hline := h.line
    have ih := le_length cs _ k hline
    by_cases hs : endsLine c cs = true
    · rw [splitlines_ends hs, List.length_cons]
      split_ifs at ih <;> omega
    · have he : ¬ endsLspLine c cs = true := fun he => hs (endsLine_of_endsLspLine he)
      rw [if_neg he] at ih
      rw [splitlines, if_neg hs]
      cases hcs : splitlines cs with
      | nil =>
        rw [hcs] at ih
        exact absurd ih (Nat.not_succ_le_zero l)
      | cons x xs =>
        rw [hcs] at ih
        exact ih

/-- An insertion goes where its position is resolved. -/
theorem apply_text_edits_insertion {s : Text} {p : Position} (hp : p.line ≤ (splitlines s).length)
    (e : AnyTextEdit) (he : e.range = ⟨p, p⟩) :
    applyTextEdits s [e] = s.take (resolved s p) ++ getEditText e ++ s.drop (resolved s p) := by
  have hrefl : p.le p := Or.inr ⟨rfl, Nat.le_refl _⟩
  rw [applyTextEdits_singleton]
  rcases Nat.lt_or_eq_of_le hp with hlt | heq
  · have hround := editLines_eq_replace (splitlines s) e (by rw [he]; exact hlt) (by rw [he]; exact hlt)
      (by rw [he]; exact hrefl)
    rw [he] at hround
    rw [hround, Lines.replace_flatten, Lines.before_eq_take _ _ hlt, Lines.after_eq_drop _ _ hlt,
      splitlines_flatten, List.append_assoc]
    rfl
  · have hres : resolved s p = s.length := by
      have hend : (splitlines s).getD (splitlines s).length [] = [] :=
        List.getD_eq_default _ _ (Nat.le_refl _)
      calc resolved s p = (Lines.before (splitlines s) (splitlines s).length p.character).length := by
            rw [resolved, Lines.offset, heq]
        _ = (splitlines s).flatten.length := by
            rw [Lines.before, List.take_length, hend, List.take_nil, List.append_nil]
        _ = s.length := by rw [splitlines_flatten]
    rw [editLines_at_end _ e (by rw [he]; exact heq), splitlines_flatten, hres, List.take_length,
      List.drop_length, List.append_nil]

/-- Where something has been inserted can be seen, if it may be anything. -/
theorem insertion_inj {s : Text} {a b : ℕ} (ha : a ≤ b) (hb : b ≤ s.length)
    (h : ∀ c : Char, s.take a ++ [c] ++ s.drop a = s.take b ++ [c] ++ s.drop b) : a = b := by
  by_contra hne
  have hlt : a < b := Nat.lt_of_le_of_ne ha hne
  have hsee : ∀ c : Char, some c = s[a]? := fun c => by
    have hc := congrArg (·[a]?) (h c)
    have hleft : (s.take a ++ [c] ++ s.drop a)[a]? = some c := by
      rw [List.append_assoc, List.getElem?_append_right (by rw [List.length_take]; omega),
        List.length_take, Nat.min_eq_left (by omega), Nat.sub_self]
      rfl
    have hright : (s.take b ++ [c] ++ s.drop b)[a]? = s[a]? := by
      rw [List.append_assoc, List.getElem?_append_left (by rw [List.length_take]; omega),
        List.getElem?_take_of_lt hlt]
    exact hleft.symm.trans (hc.trans hright)
  exact absurd ((hsee 'x').trans (hsee 'y').symm) (by decide)

/-- **Insertions go to their LSP offset just if** no character at which
`splitlines` breaks lines, other than `\n` and `\r`, stands before the
position, the one right before it excepted. -/
theorem apply_text_edits_lsp_lines (s : Text) (p : Position) (h : InLspLine s p) :
    (∀ e : AnyTextEdit, e.range = ⟨p, p⟩ → applyTextEdits s [e] =
      s.take (lspOffset s p) ++ getEditText e ++ s.drop (lspOffset s p)) ↔
    OnlyLspEnds (s.take (lspOffset s p - 1)) := by
  obtain ⟨hle, hiff⟩ := resolved_eq_iff s p h
  have hline : p.line ≤ (splitlines s).length := InLspLine.le_length s p.line p.character h
  rw [← hiff]
  constructor
  · intro hall
    have hbound := lspOffset_le h
    rw [lspLines_flatten] at hbound
    refine insertion_inj hle hbound fun c => ?_
    have hc := hall (.textEdit ⟨p, p⟩ [c]) rfl
    rw [apply_text_edits_insertion hline _ rfl] at hc
    exact hc
  · intro heq e he
    rw [apply_text_edits_insertion hline e he, heq]

/-- A form feed right before the position, and a line end of two characters. -/
theorem apply_text_edits_lsp_lines_feed :
    applyTextEdits "a\r\nb\x0cc".toList [.textEdit ⟨⟨1, 2⟩, ⟨1, 2⟩⟩ "X".toList] =
      "a\r\nb\x0cXc".toList :=
  (apply_text_edits_lsp_lines "a\r\nb\x0cc".toList ⟨1, 2⟩ (by decide)).mpr (by decide) _ rfl

/-- **A form feed shifts the lines after it.** -/
theorem apply_text_edits_form_feed :
    InLspLine "a\x0cb\nc".toList ⟨1, 0⟩ ∧ lspOffset "a\x0cb\nc".toList ⟨1, 0⟩ = 4 ∧
      applyTextEdits "a\x0cb\nc".toList [.textEdit ⟨⟨1, 0⟩, ⟨1, 0⟩⟩ "X".toList] =
        "a\x0cXb\nc".toList ∧
      "a\x0cb\nc".toList.take 4 ++ "X".toList ++ "a\x0cb\nc".toList.drop 4 =
        "a\x0cb\nXc".toList := by
  rw [applyTextEdits_singleton]
  decide

end LspClient
