/-
# What brackets leave behind

`open_files` counts its documents on entry and gives them back in a `finally`,
under the URIs it had on entry. Runs here are of the whole client: brackets
are entered and left in any order, also when entering fails, and in between
files are written and workspace edits change, rename and delete what is open
(`applyDocumentChanges_acts`). What is left behind once all brackets are left is
decided by one comparison, of the reference counts with what the brackets
hold (`released_iff`). Two steps can break it: an entry that fails after it has
counted, for the `try` begins after it, and a rename of an open document to a
name that no bracket holds (`brackets_release_iff`).

Key definitions: `Act`, `step`, `Released`, `Covered`, `cutShort`, `Clean`.
Key theorems: `released_iff`, `counted_step`, `covered_step`, `brackets_release_iff`.
-/
import LspClient.Resources

namespace LspClient
namespace Release

open ByteStream Actions Client Run Resources
open Mirror (Session)

/-! ### Runs -/

/-- A step of the client, and `other` for what other programs and the
connection do meanwhile. A bracket is left however its body has ended. -/
inductive Act where
  | enter (order : Order) (filePaths : List Path)
  | leave (i : ℕ) (order : Order)
  | change (change : DocumentChange)
  | write (uri : Uri) (content : Text)
  | other (fs : FileSystem) (conn : Connection)

variable (c : Client)

/-- One step, whether it returns or raises. -/
def step (s : Session) : Act → Option Session
  | .enter order filePaths =>
    match c.openFilesEnter order filePaths s.world with
    | .ok uris w => some ⟨w, uris :: s.brackets⟩
    | .error _ w => some ⟨w, s.brackets⟩
  | .leave i order =>
    s.brackets[i]?.map fun uris =>
      ⟨final (c.openFilesExit order uris) s.world, s.brackets.eraseIdx i⟩
  | .change change => some ⟨final (c.applyChange change) s.world, s.brackets⟩
  | .write uri content => some ⟨final (c.writeFile uri content) s.world, s.brackets⟩
  | .other fs conn => some ⟨⟨fs, s.world.doc, conn⟩, s.brackets⟩

/-- However the brackets are left, nothing is tracked or counted afterwards. -/
def Released (s : Session) : Prop :=
  ∀ (leaves : List (ℕ × Order)) t,
    exec (step c) s (leaves.map fun l => .leave l.1 l.2) = some t → t.brackets = [] →
    t.world.doc = .empty

/-- How often the brackets hold a URI. -/
def held (s : Session) (u : Uri) : ℕ := s.brackets.flatten.count u

/-- Nothing is counted that no bracket holds. -/
def Covered (s : Session) : Prop := ∀ u, s.world.doc.refCounts.get u ≤ held s u

/-- The URIs that a bracket asks for: none if `sync_file` is off or a path has no URI. -/
def requested (filePaths : List Path) : List Uri :=
  if c.syncFile then
    match filePaths.mapM c.asUri with
    | .ok uris => uris
    | .error _ => []
  else []

/-- A file cannot be read, or a `didOpen` is not sent. -/
def cutShort (order : Order) (uris : List Uri) (w : World) : Bool :=
  match c.openDocuments uris w with
  | .error _ _ => true
  | .ok new w =>
    match c.sendOpened (order.arrange new.contents) w with
    | .error _ _ => true
    | .ok _ _ => false

/-- The rename of a tracked document is carried out. -/
def Moves (change : RenameFile) (w : World) : Prop :=
  (∃ w', c.applyRenameFile change w = .ok () w') ∧ ¬ RenameSkipped c change w ∧
    (w.doc.states change.oldUri).isSome

/-- What a step takes is covered by what the brackets hold: an entry that is
cut short, and a rename of an open document. -/
def Clean (s : Session) : Act → Prop
  | .enter order filePaths =>
    cutShort c order (requested c filePaths) s.world = true →
      ∀ u, s.world.doc.refCounts.get u + (requested c filePaths).count u ≤ held s u
  | .change (.renameFile change) => Moves c change s.world → 0 < held s change.newUri
  | _ => True

/-! ### Reference counts -/

/-- Every count is positive, and every tracked document is counted. -/
structure Counted (m : DocumentStateManager) : Prop where
  pos : ∀ u n, m.refCounts u = some n → 0 < n
  tracked : ∀ u, (m.states u).isSome = true → (m.refCounts u).isSome = true

/-- The same documents are tracked, as often. -/
structure SameTracked (m m' : DocumentStateManager) : Prop where
  refCounts : m'.refCounts = m.refCounts
  states : ∀ u, (m'.states u).isSome = (m.states u).isSome

theorem SameTracked.refl (m : DocumentStateManager) : SameTracked m m := ⟨rfl, fun _ => rfl⟩

theorem SameTracked.untracked {m m' : DocumentStateManager} (h : SameTracked m m') {u : Uri}
    (hu : m.states u = none) : m'.states u = none := by
  have hs := h.states u
  rw [hu] at hs
  exact Option.isNone_iff_eq_none.mp (by simpa using hs)

theorem sameTracked_updateContent (m : DocumentStateManager) (u : Uri) (content : Text) :
    SameTracked m (m.updateContent u content).2 := by
  refine ⟨m.updateContent_refCounts u content, fun v => ?_⟩
  rw [m.updateContent_states]
  split_ifs with hv
  · rw [hv, Option.isSome_map]
  · rfl

namespace Counted

variable {m m' : DocumentStateManager}

theorem empty : Counted .empty := ⟨nofun, nofun⟩

theorem get_nonneg (h : Counted m) (u : Uri) : 0 ≤ m.refCounts.get u := by
  unfold Counter.get
  cases hu : m.refCounts u with
  | none => exact le_refl _
  | some n => exact (h.pos u n hu).le

/-- Nothing is counted, so nothing is there. -/
theorem eq_empty (h : Counted m) (hget : ∀ u, m.refCounts.get u ≤ 0) : m = .empty := by
  have hcount : ∀ u, m.refCounts u = none := by
    intro u
    cases hu : m.refCounts u with
    | none => rfl
    | some n =>
      have hle := hget u
      rw [Counter.get, hu, Option.getD_some] at hle
      exact absurd (h.pos u n hu) (not_lt.mpr hle)
  have hstate : ∀ u, m.states u = none := by
    intro u
    cases hu : m.states u with
    | none => rfl
    | some d =>
      have hsome := h.tracked u (by rw [hu]; rfl)
      rw [hcount u] at hsome
      cases hsome
  obtain ⟨states, refCounts⟩ := m
  rw [DocumentStateManager.empty, DocumentStateManager.mk.injEq]
  exact ⟨funext hstate, funext hcount⟩

theorem of_sameTracked (h : Counted m) (hs : SameTracked m m') : Counted m' where
  pos u n hu := h.pos u n (by rwa [hs.refCounts] at hu)
  tracked u hu := by
    rw [hs.refCounts]
    exact h.tracked u (by rwa [hs.states] at hu)

/-- Documents are counted, and what was read of them is tracked. -/
theorem opens (h : Counted m) {uris : List Uri} {new : NewStates}
    (hnew : ∀ u d, new.lookup u = some d → u ∈ uris) :
    Counted ((m.openBegin uris).2.openCommit new) := by
  constructor
  · intro u n hu
    have hcount : m.refCounts.update uris u = some n := hu
    rw [Counter.update_apply] at hcount
    split_ifs at hcount with hmem
    · have hpos := List.count_pos_iff.mpr hmem
      have hge := h.get_nonneg u
      cases hcount
      omega
    · exact h.pos u n hcount
  · intro u hu
    show (m.refCounts.update uris u).isSome = true
    rw [Counter.update_apply]
    split_ifs with hmem
    · rfl
    · refine h.tracked u ?_
      have hstates : ((new.lookup u).or (m.states u)).isSome = true := hu
      cases hl : new.lookup u with
      | none => rwa [hl] at hstates
      | some d => exact absurd (hnew u d hl) hmem

theorem closes (h : Counted m) (uris : List Uri) : Counted (m.close uris).2 := by
  have hcases : ∀ u, ((m.close uris).2.refCounts u = none ∧ (m.close uris).2.states u = none) ∨
      (∃ n, 0 < n ∧ (m.close uris).2.refCounts u = some n) ∨
      ((m.close uris).2.refCounts u = m.refCounts u ∧ (m.close uris).2.states u = m.states u) := by
    intro u
    by_cases hu : u ∈ uris
    · by_cases hn : m.refCounts.get u ≤ uris.count u
      · obtain ⟨hr, hs, -⟩ := m.close_released hu hn
        exact Or.inl ⟨hr, hs⟩
      · obtain ⟨hr, -, -⟩ := m.close_held hu (by omega)
        exact Or.inr (Or.inl ⟨_, by omega, hr⟩)
    · obtain ⟨hr, hs, -⟩ := m.close_untouched hu
      exact Or.inr (Or.inr ⟨hr, hs⟩)
  constructor
  · intro u n hu
    obtain ⟨hr, -⟩ | ⟨k, hk, hr⟩ | ⟨hr, -⟩ := hcases u
    · rw [hr] at hu
      cases hu
    · cases hr.symm.trans hu
      exact hk
    · exact h.pos u n (hr ▸ hu)
  · intro u hu
    obtain ⟨-, hs⟩ | ⟨k, -, hr⟩ | ⟨hr, hs⟩ := hcases u
    · rw [hs] at hu
      cases hu
    · rw [hr]
      rfl
    · rw [hr]
      exact h.tracked u (hs ▸ hu)

/-- What closing leaves of a count. -/
theorem close_get (h : Counted m) (uris : List Uri) (u : Uri) :
    (m.close uris).2.refCounts.get u = max 0 (m.refCounts.get u - uris.count u) := by
  have hge := h.get_nonneg u
  by_cases hu : u ∈ uris
  · by_cases hn : m.refCounts.get u ≤ uris.count u
    · obtain ⟨hr, -, -⟩ := m.close_released hu hn
      rw [Counter.get, hr, Option.getD_none]
      omega
    · obtain ⟨hr, -, -⟩ := m.close_held hu (by omega)
      rw [Counter.get, hr, Option.getD_some]
      omega
  · obtain ⟨hr, -, -⟩ := m.close_untouched hu
    rw [Counter.get, hr, List.count_eq_zero_of_not_mem hu]
    change 0 ≤ (m.refCounts u).getD 0 at hge
    change _ = max 0 ((m.refCounts u).getD 0 - _)
    omega

/-- A document is no longer tracked. -/
theorem untracks (h : Counted m) (u : Uri) :
    Counted ⟨Function.update m.states u none, m.refCounts.del u⟩ := by
  constructor
  · intro v n hv
    by_cases hvu : v = u
    · simp [Counter.del, hvu] at hv
    · exact h.pos v n (by simpa [Counter.del, hvu] using hv)
  · intro v hv
    by_cases hvu : v = u
    · simp [hvu] at hv
    · simpa [Counter.del, hvu] using h.tracked v (by simpa [hvu] using hv)

theorem unregister (h : Counted m) (u : Uri) : Counted (m.unregister u).2 := by
  rw [DocumentStateManager.unregister]
  cases m.states u with
  | none => exact h
  | some d => exact h.untracks u

/-- A document is tracked, and counted once. -/
theorem tracks (h : Counted m) (u : Uri) (d : DocumentState) :
    Counted ⟨Function.update m.states u (some d), m.refCounts.set u 1⟩ := by
  constructor
  · intro v n hv
    by_cases hvu : v = u
    · simp only [Counter.get_set, if_pos hvu, Option.some.injEq] at hv
      omega
    · exact h.pos v n (by simpa [Counter.get_set, hvu] using hv)
  · intro v hv
    by_cases hvu : v = u
    · simp [Counter.get_set, hvu]
    · simpa [Counter.get_set, hvu] using h.tracked v (by simpa [hvu] using hv)

theorem moves (h : Counted m) (oldUri newUri : Uri) : Counted (moveTracked oldUri newUri m).2 := by
  cases hold : m.states oldUri with
  | none => rwa [moveTracked_untracked hold]
  | some d =>
    rw [moveTracked_tracked hold]
    split_ifs
    · exact h.untracks oldUri
    · exact (h.untracks oldUri).tracks newUri _

end Counted

/-! ### What the operations do to the tracked documents -/

section Operations

variable {c} {w w' : World}

/-- However it ends, the operation leaves the same documents tracked, as often. -/
abbrev KeepsTracked {α : Type} (x : Op α) : Prop := Within (fun w w' => SameTracked w.doc w'.doc) x

theorem keepsTracked_bind {α β : Type} {x : Op α} {k : α → Op β} (hx : KeepsTracked x)
    (hk : ∀ a, KeepsTracked (k a)) : KeepsTracked (x >>= k) :=
  Within.bind (fun _ _ _ h h' => ⟨h'.refCounts.trans h.refCounts,
    fun u => (h'.states u).trans (h.states u)⟩) hx hk

theorem keepsTracked_of_doc {α : Type} {x : Op α} (hx : SameDoc x) :
    KeepsTracked x :=
  hx.mono fun _ _ h => h ▸ SameTracked.refl _

theorem keepsTracked_reads {α : Type} {x : Op α} (hx : Reads x) : KeepsTracked x :=
  keepsTracked_of_doc (sameDoc_reads hx)

theorem keepsTracked_writeFile (u : Uri) (content : Text) : KeepsTracked (c.writeFile u content) := by
  refine keepsTracked_bind (keepsTracked_reads (c.reads_writeBegin u)) fun r => ?_
  refine keepsTracked_bind (keepsTracked_of_doc (c.writeText_doc _ _ _)) fun _ w => ?_
  show SameTracked w.doc (final (c.writeFinish u content) w).doc
  rw [c.writeFinish_doc]
  exact sameTracked_updateContent _ u content

theorem keepsTracked_textDocumentEdit (edit : TextDocumentEdit) :
    KeepsTracked (c.applyTextDocumentEdit edit) :=
  keepsTracked_bind (keepsTracked_reads (reads_checkVersion _ _)) fun _ =>
    keepsTracked_bind (keepsTracked_reads (reads_editedContent _ _)) fun _ =>
      keepsTracked_writeFile _ _

theorem keepsTracked_createFile (change : CreateFile) : KeepsTracked (c.applyCreateFile change) := by
  have hcreate : ∀ path, KeepsTracked (c.createParents path >>= fun _ => c.writeFile change.uri []) :=
    fun path => keepsTracked_bind
      (keepsTracked_of_doc ((filesOnly_createParents path).mono fun _ _ h => h.1))
      fun _ => keepsTracked_writeFile _ _
  refine keepsTracked_bind (keepsTracked_reads (reads_convert _)) fun path => ?_
  refine keepsTracked_bind (keepsTracked_of_doc (os_doc _)) fun there => ?_
  split_ifs
  · exact hcreate path
  · exact keepsTracked_reads reads_pure
  · exact keepsTracked_reads reads_throw
  · exact hcreate path

/-- What entering does up to the notifications: documents are counted, and
those that could be read are tracked. -/
theorem openDocuments_final (uris : List Uri) (w : World) :
    ∃ new : NewStates, (∀ u d, new.lookup u = some d → u ∈ uris) ∧
      (final (c.openDocuments uris) w).doc = (w.doc.openBegin uris).2.openCommit new := by
  have hbegin : doc (fun m => m.openBegin uris) w =
      .ok (w.doc.openBegin uris).1 { w with doc := (w.doc.openBegin uris).2 } := rfl
  have hempty : ∀ m : DocumentStateManager, m.openCommit ∅ = m := fun m => rfl
  unfold final openDocuments
  rw [bind_eq_ok hbegin]
  by_cases hnil : (w.doc.openBegin uris).1 = []
  · rw [if_pos hnil]
    exact ⟨∅, nofun, (hempty _).symm⟩
  · rw [if_neg hnil]
    have hmem : ∀ u ∈ (w.doc.openBegin uris).1, u ∈ uris := fun u hu => List.mem_of_mem_filter hu
    cases hread : c.readDocuments ∅ (w.doc.openBegin uris).1
        { w with doc := (w.doc.openBegin uris).2 } with
    | ok new w₁ =>
      obtain ⟨rfl, hlook⟩ := readDocuments_ok hread
      rw [bind_eq_ok hread]
      refine ⟨new, fun u d hd => ?_, rfl⟩
      have hu := hlook u
      split_ifs at hu with hin
      · exact hmem u hin
      · rw [hu] at hd
        cases hd
    | error e w₁ =>
      obtain rfl := (c.reads_readDocuments _ _).of_error hread
      rw [bind_eq_error hread]
      exact ⟨∅, nofun, (hempty _).symm⟩

theorem openDocuments_nil (w : World) : c.openDocuments [] w = .ok ∅ w := rfl

theorem cutShort_nil (order : Order) (w : World) : cutShort c order [] w = false := by
  have hnil : order.arrange (NewStates.contents ∅) = [] := (order.perm _).eq_nil
  unfold cutShort
  rw [openDocuments_nil]
  simp only [hnil]
  rfl

theorem mapM_convert : ∀ ps : List Path,
    (ps.mapM fun p => convert (c.asUri p)) = (convert (ps.mapM c.asUri) : Op (List Uri))
  | [] => rfl
  | p :: ps => by
    rw [List.mapM_cons, List.mapM_cons, mapM_convert ps]
    cases c.asUri p with
    | error e => rfl
    | ok u => cases ps.mapM c.asUri <;> rfl

/-- Entering counts and tracks what the bracket asks for, and raises after
that just if it is cut short. -/
theorem openFilesEnter_cases (order : Order) (ps : List Path) (w : World) :
    (∃ w', c.openFilesEnter order ps w = .ok (requested c ps) w' ∧
      w'.doc = (final (c.openDocuments (requested c ps)) w).doc ∧
      cutShort c order (requested c ps) w = false) ∨
    ∃ e w', c.openFilesEnter order ps w = .error e w' ∧
      w'.doc = (final (c.openDocuments (requested c ps)) w).doc ∧
      (cutShort c order (requested c ps) w = true ∨ requested c ps = []) := by
  have hnothing : w.doc = (final (c.openDocuments []) w).doc := rfl
  unfold requested openFilesEnter
  cases c.syncFile with
  | false => exact Or.inl ⟨w, rfl, hnothing, cutShort_nil order w⟩
  | true =>
    simp only [Bool.not_true, Bool.false_eq_true, if_false, if_true, mapM_convert]
    cases ps.mapM c.asUri with
    | error e => exact Or.inr ⟨.uriError e, w, rfl, hnothing, Or.inr rfl⟩
    | ok uris =>
      show (∃ w', (if uris = [] then pure [] else c.openDocuments uris >>= fun newDocs =>
        c.sendOpened (order.arrange newDocs.contents) >>= fun _ => pure uris : Op (List Uri)) w = _ ∧ _) ∨
        ∃ e w', (if uris = [] then pure [] else c.openDocuments uris >>= fun newDocs =>
          c.sendOpened (order.arrange newDocs.contents) >>= fun _ => pure uris : Op (List Uri)) w = _ ∧ _
      by_cases hnil : uris = []
      · subst hnil
        exact Or.inl ⟨w, rfl, hnothing, cutShort_nil order w⟩
      · rw [if_neg hnil]
        unfold cutShort
        cases hopen : c.openDocuments uris w with
        | error e w₁ =>
          rw [bind_eq_error hopen]
          exact Or.inr ⟨e, w₁, rfl, by rw [final, hopen], Or.inl rfl⟩
        | ok new w₁ =>
          rw [bind_eq_ok hopen]
          have hsent := c.sendOpened_doc (order.arrange new.contents)
          cases hsend : c.sendOpened (order.arrange new.contents) w₁ with
          | error e w₂ =>
            rw [bind_eq_error hsend]
            exact Or.inr ⟨e, w₂, rfl, by rw [final, hopen, hsent.of_error hsend], Or.inl (by simp [hsend])⟩
          | ok _ w₂ =>
            rw [bind_eq_ok hsend]
            exact Or.inl ⟨w₂, rfl, by rw [final, hopen, hsent.of_ok hsend], by simp [hsend]⟩

/-- Leaving closes what the bracket holds, whether or not the server is told. -/
theorem openFilesExit_final (order : Order) (uris : List Uri) (w : World) :
    (final (c.openFilesExit order uris) w).doc = (w.doc.close uris).2 := by
  unfold openFilesExit
  by_cases hnil : uris = []
  · subst hnil
    rfl
  · rw [if_neg hnil]
    have hclose : doc (fun m => m.close uris) w =
        .ok (w.doc.close uris).1 { w with doc := (w.doc.close uris).2 } := rfl
    have hsent := c.sendClosed_doc (order.arrange (w.doc.close uris).1)
      { w with doc := (w.doc.close uris).2 }
    rw [final, bind_eq_ok hclose]
    exact hsent

/-- A rename moves the tracked document just if it is carried out. -/
theorem applyRenameFile_final (change : RenameFile) (w : World) :
    (Moves c change w ∧ (final (c.applyRenameFile change) w).doc =
      (moveTracked change.oldUri change.newUri w.doc).2) ∨
    (¬ Moves c change w ∧ (final (c.applyRenameFile change) w).doc = w.doc) := by
  have htouch := applyRenameFile_touches (c := c) change w
  unfold Touches at htouch
  unfold final Moves
  cases h : c.applyRenameFile change w with
  | error e w' =>
    rw [h] at htouch
    refine Or.inr ⟨?_, htouch.1⟩
    rintro ⟨⟨w₁, hok⟩, -⟩
    cases hok
  | ok _ w' =>
    rw [h] at htouch
    by_cases hskip : RenameSkipped c change w
    · simp only [if_pos hskip] at htouch
      exact Or.inr ⟨fun hm => hm.2.1 hskip, htouch.1⟩
    · simp only [if_neg hskip] at htouch
      cases hold : w.doc.states change.oldUri with
      | none =>
        rw [moveTracked_untracked hold] at htouch
        exact Or.inr ⟨fun hm => by simp at hm, htouch.1⟩
      | some d => exact Or.inl ⟨⟨⟨w', rfl⟩, hskip, rfl⟩, htouch.1⟩

theorem applyDeleteFile_final (change : DeleteFile) (w : World) :
    (final (c.applyDeleteFile change) w).doc = w.doc ∨
      (final (c.applyDeleteFile change) w).doc = (w.doc.unregister change.uri).2 := by
  have htouch := applyDeleteFile_touches (c := c) change w
  unfold Touches at htouch
  unfold final
  cases h : c.applyDeleteFile change w with
  | error e w' =>
    rw [h] at htouch
    exact Or.inl htouch.1
  | ok _ w' =>
    rw [h] at htouch
    by_cases hskip : DeleteSkipped c change w
    · simp only [if_pos hskip] at htouch
      exact Or.inl htouch.1
    · simp only [if_neg hskip] at htouch
      exact Or.inr htouch.1

end Operations

/-! ### One step -/

section Steps

variable {c} {s t : Session} {a : Act}

theorem opened_counted {w : World} (h : Counted w.doc) (uris : List Uri) :
    Counted (final (c.openDocuments uris) w).doc := by
  obtain ⟨new, hnew, hdoc⟩ := openDocuments_final (c := c) uris w
  rw [hdoc]
  exact h.opens hnew

theorem opened_get (uris : List Uri) (w : World) (u : Uri) :
    (final (c.openDocuments uris) w).doc.refCounts.get u = w.doc.refCounts.get u + uris.count u := by
  obtain ⟨new, -, hdoc⟩ := openDocuments_final (c := c) uris w
  rw [hdoc]
  exact w.doc.refCounts.get_update uris u

/-- **Every count stays positive, and every tracked document counted.** -/
theorem counted_step (h : Counted s.world.doc) (ht : step c s a = some t) : Counted t.world.doc := by
  cases a with
  | enter order ps =>
    unfold step at ht
    obtain ⟨w, hrun, hdoc, -⟩ | ⟨e, w, hrun, hdoc, -⟩ := openFilesEnter_cases (c := c) order ps s.world
    all_goals
      simp only [hrun] at ht
      cases ht
      rw [hdoc]
      exact opened_counted h _
  | leave i order =>
    obtain ⟨uris, -, rfl⟩ := Option.map_eq_some_iff.mp ht
    rw [openFilesExit_final]
    exact h.closes uris
  | write uri content =>
    cases ht
    exact h.of_sameTracked (keepsTracked_writeFile uri content s.world)
  | other fs conn =>
    cases ht
    exact h
  | change change =>
    cases ht
    cases change with
    | textDocumentEdit edit => exact h.of_sameTracked (keepsTracked_textDocumentEdit edit s.world)
    | createFile change => exact h.of_sameTracked (keepsTracked_createFile change s.world)
    | renameFile change =>
      obtain ⟨-, hdoc⟩ | ⟨-, hdoc⟩ := applyRenameFile_final (c := c) change s.world
      · exact hdoc.symm ▸ h.moves change.oldUri change.newUri
      · exact hdoc.symm ▸ h
    | deleteFile change =>
      obtain hdoc | hdoc := applyDeleteFile_final (c := c) change s.world
      · exact hdoc.symm ▸ h
      · exact hdoc.symm ▸ h.unregister change.uri

/-- Leaving a bracket takes away what it holds, so nothing becomes covered by it. -/
theorem covered_leave (h : Counted s.world.doc) {i : ℕ} {order : Order}
    (ht : step c s (.leave i order) = some t) : Covered t ↔ Covered s := by
  obtain ⟨uris, hi, rfl⟩ := Option.map_eq_some_iff.mp ht
  obtain ⟨hlt, rfl⟩ := List.getElem?_eq_some_iff.mp hi
  refine forall_congr' fun u => ?_
  have hperm := (List.getElem_cons_eraseIdx_perm hlt).flatten.count_eq u
  rw [List.flatten_cons, List.count_append] at hperm
  rw [openFilesExit_final, h.close_get]
  unfold held
  simp only
  omega

theorem covered_untrack {m : DocumentStateManager} {b : Uri → ℕ} (hc : ∀ u, m.refCounts.get u ≤ b u)
    (uri u : Uri) : (m.refCounts.del uri).get u ≤ b u := by
  by_cases hu : u = uri
  · simp [Counter.get, Counter.del, hu]
  · simpa [Counter.get, Counter.del, hu] using hc u

/-- A moved document is counted once, under its new URI. -/
theorem covered_move {m : DocumentStateManager} {b : Uri → ℕ} (h : Counted m)
    (hc : ∀ u, m.refCounts.get u ≤ b u) {oldUri newUri : Uri} (hold : (m.states oldUri).isSome = true) :
    (∀ u, (moveTracked oldUri newUri m).2.refCounts.get u ≤ b u) ↔ 0 < b newUri := by
  obtain ⟨d, hd⟩ := Option.isSome_iff_exists.mp hold
  have hdel := covered_untrack hc oldUri
  rw [moveTracked_tracked hd]
  split_ifs with htaken
  · -- the document tracked at the target is counted, and so held
    refine iff_of_true hdel ?_
    obtain ⟨n, hn⟩ := Option.isSome_iff_exists.mp (h.tracked newUri htaken.2)
    have hle := hc newUri
    rw [Counter.get, hn, Option.getD_some] at hle
    have hpos := h.pos newUri n hn
    omega
  · constructor
    · intro hall
      have hnew := hall newUri
      simp only [Counter.get, Counter.get_set, if_pos, Option.getD_some] at hnew
      omega
    · intro hpos u
      by_cases hu : u = newUri
      · simp only [Counter.get, Counter.get_set, hu, if_true, Option.getD_some]
        omega
      · simpa [Counter.get, Counter.get_set, hu] using hdel u

theorem Covered.keep (hc : Covered s) {w : World} (hw : w.doc.refCounts = s.world.doc.refCounts) :
    Covered ⟨w, s.brackets⟩ := by
  intro u
  show w.doc.refCounts.get u ≤ _
  rw [hw]
  exact hc u

/-- Entering covers what it counts, unless it is cut short. -/
theorem covered_enter (hc : Covered s) {order : Order} {ps : List Path}
    (ht : step c s (.enter order ps) = some t) : Covered t ↔ Clean c s (.enter order ps) := by
  unfold step at ht
  obtain ⟨w, hrun, hdoc, hcut⟩ | ⟨e, w, hrun, hdoc, hcut⟩ :=
    openFilesEnter_cases (c := c) order ps s.world
  · simp only [hrun] at ht
    cases ht
    refine iff_of_true (fun u => ?_) fun hshort => by simp [hcut] at hshort
    have hu := hc u
    unfold held at hu ⊢
    rw [hdoc, opened_get, List.flatten_cons, List.count_append]
    omega
  · simp only [hrun] at ht
    cases ht
    have hget : ∀ u, (w.doc.refCounts.get u ≤ (s.brackets.flatten.count u : ℕ)) ↔
        s.world.doc.refCounts.get u + (requested c ps).count u ≤ held s u := fun u => by
      rw [hdoc, opened_get, held]
    refine (forall_congr' hget).trans ⟨fun hall _ => hall, fun hclean => ?_⟩
    obtain hcut | hnil := hcut
    · exact hclean hcut
    · intro u
      rw [hnil]
      exact (Int.add_zero _).le.trans (hc u)

/-- Of the document changes, only a rename may take what nothing covers. -/
theorem covered_change (h : Counted s.world.doc) (hc : Covered s) (change : DocumentChange) :
    Covered ⟨final (c.applyChange change) s.world, s.brackets⟩ ↔ Clean c s (.change change) := by
  cases change with
  | textDocumentEdit edit =>
    exact iff_of_true (hc.keep (keepsTracked_textDocumentEdit edit s.world).refCounts) trivial
  | createFile change =>
    exact iff_of_true (hc.keep (keepsTracked_createFile change s.world).refCounts) trivial
  | renameFile change =>
    obtain ⟨hmoves, hdoc⟩ | ⟨hmoves, hdoc⟩ := applyRenameFile_final (c := c) change s.world
    · refine Iff.trans ?_ ⟨fun hpos _ => hpos, fun hclean => hclean hmoves⟩
      rw [← covered_move h hc hmoves.2.2, ← hdoc]
      exact Iff.rfl
    · refine iff_of_true (hc.keep ?_) fun hm => absurd hm hmoves
      exact congrArg DocumentStateManager.refCounts hdoc
  | deleteFile change =>
    refine iff_of_true ?_ trivial
    obtain hdoc | hdoc := applyDeleteFile_final (c := c) change s.world
    · exact hc.keep (congrArg DocumentStateManager.refCounts hdoc)
    · intro u
      show (final (c.applyDeleteFile change) s.world).doc.refCounts.get u ≤ _
      rw [hdoc, DocumentStateManager.unregister]
      cases s.world.doc.states change.uri with
      | none => exact hc u
      | some d => exact covered_untrack hc change.uri u

/-- **The steps that cover what they take.** -/
theorem covered_step (h : Counted s.world.doc) (hc : Covered s) (ht : step c s a = some t) :
    Covered t ↔ Clean c s a := by
  cases a with
  | enter order ps => exact covered_enter hc ht
  | leave i order => exact iff_of_true ((covered_leave h ht).mpr hc) trivial
  | change change =>
    cases ht
    exact covered_change h hc change
  | write uri content =>
    cases ht
    exact iff_of_true (hc.keep (keepsTracked_writeFile uri content s.world).refCounts) trivial
  | other fs conn =>
    cases ht
    exact iff_of_true hc trivial

end Steps

/-! ### Runs -/

section Runs

variable {c} {s t : Session}

theorem leaves_covered (h : Counted s.world.doc) (leaves : List (ℕ × Order))
    (ht : exec (step c) s (leaves.map fun l => .leave l.1 l.2) = some t) :
    Counted t.world.doc ∧ (Covered t ↔ Covered s) := by
  induction leaves generalizing s with
  | nil =>
    cases ht
    exact ⟨h, Iff.rfl⟩
  | cons l leaves ih =>
    obtain ⟨u, hu, hrest⟩ := exec_cons_elim ht
    obtain ⟨hcounted, hcovered⟩ := ih (counted_step h hu) hrest
    exact ⟨hcounted, hcovered.trans (covered_leave h hu)⟩

/-- The brackets can be left, one after the other. -/
theorem exists_leaves : ∀ (brackets : List (List Uri)) (w : World), ∃ (leaves : List (ℕ × Order)) (t : Session),
    exec (step c) ⟨w, brackets⟩ (leaves.map fun l => .leave l.1 l.2) = some t ∧ t.brackets = []
  | [], w => ⟨[], _, rfl, rfl⟩
  | uris :: brackets, w => by
    obtain ⟨leaves, t, ht, hnil⟩ := exists_leaves brackets (final (c.openFilesExit .inOrder uris) w)
    exact ⟨(0, .inOrder) :: leaves, t, ht, hnil⟩

theorem empty_iff_covered (h : Counted s.world.doc) (hnil : s.brackets = []) :
    s.world.doc = .empty ↔ Covered s := by
  have hheld : ∀ u, (held s u : ℤ) = 0 := fun u => by rw [held, hnil]; rfl
  constructor
  · intro hempty u
    rw [hempty, hheld]
    exact le_refl _
  · exact fun hc => h.eq_empty fun u => hheld u ▸ hc u

/-- **What is left behind is what no bracket covers.** -/
theorem released_iff (h : Counted s.world.doc) : Released c s ↔ Covered s := by
  constructor
  · intro hrel
    obtain ⟨leaves, t, ht, hnil⟩ := exists_leaves (c := c) s.brackets s.world
    obtain ⟨hcounted, hcovered⟩ := leaves_covered h leaves ht
    exact hcovered.mp ((empty_iff_covered hcounted hnil).mp (hrel leaves t ht hnil))
  · intro hc leaves t ht hnil
    obtain ⟨hcounted, hcovered⟩ := leaves_covered h leaves ht
    exact (empty_iff_covered hcounted hnil).mpr (hcovered.mpr hc)

/-- **Exactly the runs whose steps are clean leave nothing behind.** -/
theorem brackets_release_iff {as : List Act} (hdoc : s.world.doc = .empty) (hnil : s.brackets = [])
    (hrun : exec (step c) s as = some t) :
    Always (step c) (Released c) s as ↔ Along (step c) (Clean c) s as := by
  have hs : Counted s.world.doc := hdoc ▸ Counted.empty
  refine always_iff_along (I := fun s => Counted s.world.doc ∧ Covered s) ?_ ?_ ?_ as
    ⟨hs, (empty_iff_covered hs hnil).mp hdoc⟩ hrun
  · exact fun s hI => (released_iff hI.1).mpr hI.2
  · exact fun s a t hI ha ht => ⟨counted_step hI.1 ht, (covered_step hI.1 hI.2 ht).mpr ha⟩
  · intro s a t hI ha ht hrel
    exact ha ((covered_step hI.1 hI.2 ht).mp ((released_iff (counted_step hI.1 ht)).mp hrel))

end Runs

/-! ### Workspace edits in a run -/

section Edits

variable {c}

/-- **Applying document changes is a run of them**, up to the one it is refused at. -/
theorem applyDocumentChanges_acts (brackets : List (List Uri)) : ∀ (changes : List DocumentChange) (w : World),
    ∃ applied, applied <+: changes ∧ exec (step c) ⟨w, brackets⟩ (applied.map .change) =
        some ⟨final (c.applyDocumentChanges changes) w, brackets⟩ ∧
      ((∃ w', c.applyDocumentChanges changes w = .ok () w') → applied = changes)
  | [], _ => ⟨[], List.nil_prefix, rfl, fun _ => rfl⟩
  | change :: rest, w => by
    have hstep : step c ⟨w, brackets⟩ (.change change) =
        some ⟨final (c.applyChange change) w, brackets⟩ := rfl
    rw [applyDocumentChanges]
    cases h : c.applyChange change w with
    | ok _ w' =>
      obtain ⟨applied, hprefix, happlied, hall⟩ := applyDocumentChanges_acts brackets rest w'
      rw [final, h] at hstep
      refine ⟨change :: applied, List.cons_prefix_cons.mpr ⟨rfl, hprefix⟩, ?_, fun hok => ?_⟩
      · rw [final, bind_eq_ok h]
        exact (exec_cons hstep).mpr happlied
      · rw [bind_eq_ok h] at hok
        rw [hall hok]
    | error e w' =>
      -- the changes after the one that is refused are not applied
      rw [final, h] at hstep
      refine ⟨[change], List.cons_prefix_cons.mpr ⟨rfl, List.nil_prefix⟩, ?_, fun hok => ?_⟩
      · rw [final, bind_eq_error h]
        exact (exec_cons hstep).mpr rfl
      · rw [bind_eq_error h] at hok
        obtain ⟨_, hok⟩ := hok
        cases hok

/-- The edits of a `changes` map are text edits that expect no version. -/
theorem applyChanges_eq : ∀ entries : List (Σ _ : Uri, List AnyTextEdit), c.applyChanges entries =
    c.applyDocumentChanges (entries.map fun e => .textDocumentEdit ⟨e.1, none, e.2⟩)
  | [] => rfl
  | ⟨uri, edits⟩ :: rest => by
    rw [applyChanges, applyChanges_eq rest, List.map_cons, applyDocumentChanges]
    simp only [applyChange, applyTextDocumentEdit, checkVersion, bind_assoc, pure_bind]

end Edits

/-! ### A rename in a bracket, and an entry that fails -/

/-- A file is opened, written and closed. -/
def openWriteClose : List Act :=
  [.enter .inOrder [Path.ofText "a".toList], .write Small.uriA "y".toList, .leave 0 .inOrder]

/-- A file is renamed while it is open. -/
def renameInside : List Act :=
  [.enter .inOrder [Path.ofText "a".toList], .change (.renameFile ⟨Small.uriA, uriB, none⟩),
    .leave 0 .inOrder]

/-- A session of a client with the file `/ws/a`, before anything was opened. -/
def start : Session := ⟨Small.world [("a".toList, "x".toList)], []⟩

/-- The same, with a connection that times out on every `didOpen`. -/
def startDeaf : Session :=
  ⟨{ start.world with conn := ⟨[], fun _ msg =>
    match msg with
    | .didOpen .. => some .timeout
    | _ => none⟩ }, []⟩

/-- A run that leaves nothing behind. -/
theorem brackets_release_iff_written :
    (∃ t, exec (step Small.client) start openWriteClose = some t ∧ t.brackets = []) ∧
      Always (step Small.client) (Released Small.client) start openWriteClose := by
  have hend : (exec (step Small.client) start openWriteClose).map (·.brackets) = some [] := by
    decide +kernel
  obtain ⟨t, ht, hnil⟩ := Option.map_eq_some_iff.mp hend
  refine ⟨⟨t, ht, hnil⟩, (brackets_release_iff rfl rfl ht).mpr ⟨fun hcut => ?_, fun _ _ =>
    ⟨trivial, fun _ _ => ⟨trivial, fun _ _ => trivial⟩⟩⟩⟩
  have hentered : cutShort Small.client .inOrder
      (requested Small.client [Path.ofText "a".toList]) start.world = false := by decide +kernel
  cases hentered.symm.trans hcut

/-- How many brackets are open, and whether and how often the document is. -/
def leftOf (u : Uri) (s : Session) : ℕ × Bool × Option ℤ :=
  (s.brackets.length, (s.world.doc.states u).isSome, s.world.doc.refCounts u)

/-- **Two runs after which a document stays tracked although no bracket is
open**: one that renames an open file, and one that cannot tell the server. -/
theorem brackets_leave_behind :
    ((exec (step Small.client) start renameInside).map (leftOf uriB) = some (0, true, some 1)) ∧
    ((exec (step Small.client) startDeaf [.enter .inOrder [Path.ofText "a".toList]]).map
      (leftOf Small.uriA) = some (0, true, some 1)) ∧
    ¬ Always (step Small.client) (Released Small.client) start renameInside ∧
    ¬ Always (step Small.client) (Released Small.client) startDeaf
      [.enter .inOrder [Path.ofText "a".toList]] := by
  have hkept : ∀ {s : Session} {as : List Act} {u : Uri},
      (exec (step Small.client) s as).map (leftOf u) = some (0, true, some 1) →
      ¬ Always (step Small.client) (Released Small.client) s as := by
    intro s as u h halways
    obtain ⟨t, ht, hleft⟩ := Option.map_eq_some_iff.mp h
    simp only [leftOf, Prod.mk.injEq] at hleft
    obtain ⟨hlen, -, hcount⟩ := hleft
    -- no bracket is left to leave
    have hempty := always_last as halways ht [] t rfl (List.length_eq_zero_iff.mp hlen)
    rw [hempty] at hcount
    cases hcount
  have hrename : (exec (step Small.client) start renameInside).map (leftOf uriB) =
      some (0, true, some 1) := by decide +kernel
  have hdeaf : (exec (step Small.client) startDeaf [.enter .inOrder [Path.ofText "a".toList]]).map
      (leftOf Small.uriA) = some (0, true, some 1) := by decide +kernel
  exact ⟨hrename, hdeaf, hkept hrename, hkept hdeaf⟩

end Release
end LspClient
