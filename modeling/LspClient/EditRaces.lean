/-
# Workspace edits that race

Any number of `apply_workspace_edit` calls, each suspended in its disk writes
and in its reads of untracked files, where the others go on: the version check,
the read and the new text of a text edit come before the disk write (`begin`),
the new state and version after it (`finish`). Between these steps anything
else may happen that leaves the document alone (`other`): the changes of other
documents and files, in these applications or elsewhere. Without anything else
the parts are the whole of `_apply_text_document_edit` (`exec_alone`).

`applied` records each update of a tracked document: the version its edit
names, the text it was computed from, the version it made. That no update is
lost (`NoneLost`) is kept by each update that still finds the version its edit
has checked and the text it has read, and broken by any other
(`none_lost_iff`); nothing keeps the version from changing during the disk
write (`edits_race`). The text is right whenever the version is, if the
document is tracked under the URI its path converts to (`Inv.text_current`).

Key definitions: `step`, `Applied`, `textAt`, `NoneLost`, `StillCurrent`, `Inv`.
Key theorems: `exec_alone`, `inv_step`, `none_lost_iff`, `edits_race`.
-/
import LspClient.Lib.Run
import LspClient.WorkspaceEdit

namespace LspClient
namespace EditRaces

open Run Client

/-! ### The applications -/

/-- Where an application is. -/
inductive Phase where
  | idle
  | reading (edit : TextDocumentEdit) (path : Path)
  | writing (edit : TextDocumentEdit) (p : Prepared)
  | written (edit : TextDocumentEdit) (p : Prepared)
  | failed (e : Exc)

/-- The phase after `editBegin`. -/
def Phase.begun (edit : TextDocumentEdit) : Prepared ⊕ Path → Phase
  | .inl p => .writing edit p
  | .inr path => .reading edit path

/-- One application: the edits to come, and where it is. -/
structure Application where
  todo : List TextDocumentEdit
  phase : Phase

/-- Its edits are all applied. -/
def Application.succeeded (x : Application) : Bool :=
  x.todo.isEmpty && match x.phase with
    | .idle => true
    | _ => false

/-- An update of a tracked document. It counts from the step that stores it, also
if its application fails later. -/
structure Applied where
  uri : Uri
  /-- The version the edit names. -/
  named : Option ℤ
  /-- The text the new text was computed from. -/
  base : Text
  /-- The version the update made, and its text. -/
  made : ℤ
  text : Text
  deriving DecidableEq, Repr

structure State where
  world : World
  applications : List Application
  applied : List Applied

/-- A step of one application, or of anything else that leaves the world `w`. -/
inductive Act where
  | begin (i : ℕ)
  | read (i : ℕ)
  | disk (i : ℕ)
  | finish (i : ℕ)
  | other (w : World)

/-- Application `i` does a part of its edit: it comes to the next phase, or fails. -/
def State.after {α : Type} (s : State) (i : ℕ) (todo : List TextDocumentEdit) (part : Op α)
    (next : α → Phase) : State :=
  match part s.world with
  | .ok a w => { s with world := w, applications := s.applications.set i ⟨todo, next a⟩ }
  | .error e w => { s with world := w, applications := s.applications.set i ⟨todo, .failed e⟩ }

/-- The record of an update, if the document is tracked. -/
def record (m : DocumentStateManager) (edit : TextDocumentEdit) (p : Prepared) : List Applied :=
  match m.states edit.uri with
  | some d => [⟨edit.uri, edit.version, p.content, d.version + 1, p.newContent⟩]
  | none => []

variable (c : Client) (u : Uri)

/-- One step, in which nothing but a text edit changes what is tracked of `u`. -/
def step (s : State) : Act → Option State
  | .begin i =>
    match s.applications[i]? with
    | some ⟨edit :: todo, .idle⟩ =>
      some (s.after i todo (c.editBegin edit) (.begun edit))
    | _ => none
  | .read i =>
    match s.applications[i]? with
    | some ⟨todo, .reading edit path⟩ =>
      some (s.after i todo (c.editRead edit path) fun p => .writing edit p)
    | _ => none
  | .disk i =>
    match s.applications[i]? with
    | some ⟨todo, .writing edit p⟩ =>
      some (s.after i todo (c.writeText p.path p.newContent p.encoding) fun _ => .written edit p)
    | _ => none
  | .finish i =>
    match s.applications[i]? with
    | some ⟨todo, .written edit p⟩ =>
      some ({ s with applied := s.applied ++ record s.world.doc edit p }.after i todo
        (c.writeFinish edit.uri p.newContent) fun _ => .idle)
    | _ => none
  | .other w => if w.doc.states u = s.world.doc.states u then some { s with world := w } else none

/-- The applications before any of them has begun. -/
structure State.Fresh (s : State) : Prop where
  idle : ∀ x ∈ s.applications, x.phase = .idle
  applied : s.applied = []

/-! ### Lost updates -/

/-- The text that had the version, in a run from `s₀` with these updates. -/
def textAt (s₀ : State) (applied : List Applied) (n : ℤ) : Option Text :=
  match applied.find? fun r => r.uri = u ∧ r.made = n with
  | some r => some r.text
  | none => match s₀.world.doc.states u with
    | some d => if d.version = n then some d.content else none
    | none => none

/-- No update of `u` is lost: each was computed from exactly the text that had
the version its edit names; no two of their edits name the same version; and
none was overwritten by a later one computed from an older text. -/
structure NoneLost (s₀ s : State) : Prop where
  base : ∀ r ∈ s.applied, r.uri = u → ∃ n, r.named = some n ∧ textAt u s₀ s.applied n = some r.base
  once : s.applied.Pairwise fun r r' => r.uri = u → r'.uri = u → r.named ≠ r'.named
  newer : s.applied.Pairwise fun r r' => r.uri = u → r'.uri = u → ∀ n, r'.named = some n → r.made ≤ n

/-- If the step is an update of `u`, the document still has the version that its
edit has checked and the text that it has read. -/
def StillCurrent (s : State) : Act → Prop
  | .finish i => ∀ todo edit p, s.applications[i]? = some ⟨todo, .written edit p⟩ → edit.uri = u →
      s.world.doc.getVersion u = edit.version ∧ s.world.doc.getContent u = some p.content
  | _ => True

/-! ### What the runs keep -/

/-- An edit whose version has been checked: it was current once. -/
def Checked (s₀ s : State) (edit : TextDocumentEdit) : Prop :=
  edit.uri = u → ∃ d n, s.world.doc.states u = some d ∧ edit.version = some n ∧ n ≤ d.version ∧
    ∀ d₀, s₀.world.doc.states u = some d₀ → d₀.version ≤ n

/-- An edit that has read its document: the text is the one that had the version. -/
def ReadRight (s₀ s : State) (edit : TextDocumentEdit) (p : Prepared) : Prop :=
  c.Canonical u → edit.uri = u → ∃ n, edit.version = some n ∧
    textAt u s₀ s.applied n = some p.content

def PhaseOk (s₀ s : State) : Phase → Prop
  | .reading edit _ => Checked u s₀ s edit ∧ (c.Canonical u → edit.uri ≠ u)
  | .writing edit p | .written edit p => Checked u s₀ s edit ∧ ReadRight c u s₀ s edit p
  | _ => True

structure Inv (s₀ s : State) : Prop extends NoneLost u s₀ s where
  versioned : ∀ x ∈ s.applications, ∀ e ∈ x.todo, e.uri = u → e.version ≠ none
  phases : ∀ x ∈ s.applications, PhaseOk c u s₀ s x.phase
  named : ∀ r ∈ s.applied, r.uri = u → r.named = some (r.made - 1)
  made_le : ∀ r ∈ s.applied, r.uri = u → ∃ d, s.world.doc.states u = some d ∧ r.made ≤ d.version
  current : ∀ d, s.world.doc.states u = some d → textAt u s₀ s.applied d.version = some d.content ∧
    (∃ d₀, s₀.world.doc.states u = some d₀ ∧ d₀.version ≤ d.version ∧
      (d₀.version = d.version ∨ ∃ r ∈ s.applied, r.uri = u ∧ r.made = d.version))

variable {c u} {s₀ s t : State}

section After

variable {α : Type} (i : ℕ) (todo : List TextDocumentEdit) (part : Op α) (next : α → Phase)

theorem after_world : (s.after i todo part next).world = Actions.final part s.world := by
  unfold State.after Actions.final
  cases part s.world <;> rfl

theorem after_applied : (s.after i todo part next).applied = s.applied := by
  unfold State.after
  split <;> rfl

/-- The applications after a part of an edit. -/
theorem mem_after {x : Application} (hx : x ∈ (s.after i todo part next).applications) :
    x ∈ s.applications ∨ x.todo = todo ∧
      ((∃ e, x.phase = .failed e) ∨ ∃ a w, part s.world = .ok a w ∧ x.phase = next a) := by
  unfold State.after at hx
  split at hx
  · rename_i a w hok
    rcases List.mem_or_eq_of_mem_set hx with hx | rfl
    · exact .inl hx
    · exact .inr ⟨rfl, .inr ⟨a, w, hok, rfl⟩⟩
  · rcases List.mem_or_eq_of_mem_set hx with hx | rfl
    · exact .inl hx
    · exact .inr ⟨rfl, .inl ⟨_, rfl⟩⟩

end After

/-- An edit that is applied alone does what `_apply_text_document_edit` does. -/
theorem exec_alone {edit : TextDocumentEdit} {w w' : World}
    (h : c.applyTextDocumentEdit edit w = .ok () w') :
    ∃ acts t, exec (step c u) ⟨w, [⟨[edit], .idle⟩], []⟩ acts = some t ∧ t.world = w' ∧
      t.applications = [⟨[], .idle⟩] := by
  rw [applyTextDocumentEdit_eq] at h
  obtain ⟨r, w₁, hbegin, h⟩ := Actions.bind_ok_elim h
  obtain ⟨p, w₂, hread, h⟩ := Actions.bind_ok_elim h
  obtain ⟨_, w₃, hdisk, hfinish⟩ := Actions.bind_ok_elim h
  have hwrite : exec (step c u) ⟨w₂, [⟨[], .writing edit p⟩], []⟩ [.disk 0, .finish 0] =
      some ⟨w', [⟨[], .idle⟩], record w₃.doc edit p⟩ := by
    simp [exec, step, State.after, hdisk, hfinish]
  have hstart : step c u ⟨w, [⟨[edit], .idle⟩], []⟩ (.begin 0) =
      some ⟨w₁, [⟨[], .begun edit r⟩], []⟩ := by
    simp [step, State.after, hbegin]
  cases r with
  | inl content =>
    cases hread
    exact ⟨_, _, (exec_cons hstart).mpr hwrite, rfl, rfl⟩
  | inr path =>
    have hnext : step c u ⟨w₁, [⟨[], .reading edit path⟩], []⟩ (.read 0) =
        some ⟨w₂, [⟨[], .writing edit p⟩], []⟩ := by
      simp only [step, List.getElem?_cons_zero, State.after, hread]
      rfl
    exact ⟨_, _, (exec_cons hstart).mpr ((exec_cons hnext).mpr hwrite), rfl, rfl⟩

/-- The text of a version does not change when other versions are made, or other documents'. -/
theorem textAt_append {applied rs : List Applied} {n : ℤ} (h : ∀ r ∈ rs, r.uri = u → r.made ≠ n) :
    textAt u s₀ (applied ++ rs) n = textAt u s₀ applied n := by
  have hrs : rs.find? (fun r => r.uri = u ∧ r.made = n) = none := by
    rw [List.find?_eq_none]
    intro r hr
    simpa using h r hr
  rw [textAt, List.find?_append, hrs, Option.or_none]
  rfl

theorem textAt_before {applied : List Applied} {r : Applied} {n : ℤ} (h : n < r.made) :
    textAt u s₀ (applied ++ [r]) n = textAt u s₀ applied n := by
  refine textAt_append fun x hx _ => ?_
  rw [List.mem_singleton.mp hx]
  exact (Int.ne_of_lt h).symm

/-- The text of the version that an update makes. -/
theorem textAt_made {applied : List Applied} {r : Applied} (hu : r.uri = u)
    (h : ∀ x ∈ applied, x.uri = u → x.made ≠ r.made) :
    textAt u s₀ (applied ++ [r]) r.made = some r.text := by
  have hnone : applied.find? (fun x => x.uri = u ∧ x.made = r.made) = none := by
    rw [List.find?_eq_none]
    intro x hx
    simpa using h x hx
  rw [textAt, List.find?_append, hnone, Option.none_or]
  simp [hu]

/-- A part of an edit that updates no document. -/
theorem Inv.keep (hs : Inv c u s₀ s) (hstates : t.world.doc.states u = s.world.doc.states u)
    (happlied : t.applied = s.applied)
    (happs : ∀ x ∈ t.applications, (∀ e ∈ x.todo, e.uri = u → e.version ≠ none) ∧
      PhaseOk c u s₀ s x.phase) : Inv c u s₀ t := by
  have hphase : ∀ phase, PhaseOk c u s₀ s phase → PhaseOk c u s₀ t phase := by
    intro phase h
    cases phase with
    | reading edit path => simpa only [PhaseOk, Checked, hstates] using h
    | writing edit p => simpa only [PhaseOk, Checked, ReadRight, hstates, happlied] using h
    | written edit p => simpa only [PhaseOk, Checked, ReadRight, hstates, happlied] using h
    | _ => exact h
  constructor
  · exact ⟨happlied ▸ hs.base, happlied ▸ hs.once, happlied ▸ hs.newer⟩
  · exact fun x hx => (happs x hx).1
  · exact fun x hx => hphase _ (happs x hx).2
  · rw [happlied]
    exact hs.named
  · rw [happlied, hstates]
    exact hs.made_le
  · rw [happlied, hstates]
    exact hs.current

/-- An edit that begins: if it is of `u`, its version is current. -/
theorem checked_begin (hs : Inv c u s₀ s) {edit : TextDocumentEdit} {r : Prepared ⊕ Path} {w : World}
    (hversion : edit.uri = u → edit.version ≠ none) (h : c.editBegin edit s.world = .ok r w)
    (hedit : edit.uri = u) : ∃ d, s.world.doc.states u = some d ∧ edit.version = some d.version ∧
      ∀ d₀, s₀.world.doc.states u = some d₀ → d₀.version ≤ d.version := by
  subst hedit
  obtain ⟨n, hn⟩ := Option.ne_none_iff_exists'.mp (hversion rfl)
  obtain ⟨d, hd, rfl⟩ := Option.map_eq_some_iff.mp (editBegin_version h n hn)
  obtain ⟨-, d₀, hd₀, hle, -⟩ := hs.current d hd
  refine ⟨d, hd, hn, fun d' hd' => ?_⟩
  cases hd₀.symm.trans hd'
  exact hle

theorem phaseOk_begin (hs : Inv c u s₀ s) {edit : TextDocumentEdit} {r : Prepared ⊕ Path} {w : World}
    (hversion : edit.uri = u → edit.version ≠ none) (h : c.editBegin edit s.world = .ok r w) :
    PhaseOk c u s₀ s (.begun edit r) := by
  have hchecked : Checked u s₀ s edit := fun hedit =>
    have ⟨d, hd, hn, hfrom⟩ := checked_begin hs hversion h hedit
    ⟨d, d.version, hd, hn, Int.le_refl _, hfrom⟩
  cases r with
  | inr path =>
    refine ⟨hchecked, fun hu hedit => ?_⟩
    obtain ⟨d, hd, -, -⟩ := checked_begin hs hversion h hedit
    have hread := editBegin_content (hedit ▸ hu) h
    rw [hedit, DocumentStateManager.getContent, hd] at hread
    cases hread
  | inl p =>
    refine ⟨hchecked, fun hu hedit => ?_⟩
    obtain ⟨d, hd, hn, -⟩ := checked_begin hs hversion h hedit
    have hread := editBegin_content (hedit ▸ hu) h
    rw [hedit, DocumentStateManager.getContent, hd] at hread
    exact ⟨d.version, hn, Option.some.inj hread ▸ (hs.current d hd).1⟩

/-- More updates leave an edit under way as it is, if its document gets no older
and the texts so far stay. -/
theorem PhaseOk.mono {phase : Phase} (h : PhaseOk c u s₀ s phase)
    (hdoc : ∀ d, s.world.doc.states u = some d → ∃ d', t.world.doc.states u = some d' ∧
      d.version ≤ d'.version ∧ ∀ n ≤ d.version, textAt u s₀ t.applied n = textAt u s₀ s.applied n) :
    PhaseOk c u s₀ t phase := by
  have hchecked : ∀ edit, Checked u s₀ s edit → Checked u s₀ t edit := by
    intro edit hc hedit
    obtain ⟨d, n, hd, hn, hle, hfrom⟩ := hc hedit
    obtain ⟨d', hd', hle', -⟩ := hdoc d hd
    exact ⟨d', n, hd', hn, hle.trans hle', hfrom⟩
  have hright : ∀ edit p, Checked u s₀ s edit → ReadRight c u s₀ s edit p →
      ReadRight c u s₀ t edit p := by
    intro edit p hc hp hu hedit
    obtain ⟨d, n, hd, hn, hle, -⟩ := hc hedit
    obtain ⟨m, hm, htext⟩ := hp hu hedit
    obtain ⟨d', -, -, hsame⟩ := hdoc d hd
    cases hn.symm.trans hm
    exact ⟨n, hn, (hsame n hle).trans htext⟩
  cases phase with
  | reading edit path => exact ⟨hchecked edit h.1, h.2⟩
  | writing edit p => exact ⟨hchecked edit h.1, hright edit p h.1 h.2⟩
  | written edit p => exact ⟨hchecked edit h.1, hright edit p h.1 h.2⟩
  | _ => exact h

/-- The update of a document other than `u`. -/
theorem Inv.finish_other (hs : Inv c u s₀ s) {edit : TextDocumentEdit} {p : Prepared}
    (hedit : edit.uri ≠ u) {w : World}
    (hw : w.doc = (s.world.doc.updateContent edit.uri p.newContent).2) :
    Inv c u s₀ { s with world := w, applied := s.applied ++ record s.world.doc edit p } := by
  have hrecord : ∀ r ∈ record s.world.doc edit p, r.uri ≠ u := by
    intro r hr
    unfold record at hr
    split at hr
    · rw [List.mem_singleton] at hr
      exact hr ▸ hedit
    · cases hr
  have hold : ∀ {r}, r ∈ s.applied ++ record s.world.doc edit p → r.uri = u → r ∈ s.applied := by
    intro r hr hru
    exact (List.mem_append.mp hr).resolve_right fun h => hrecord r h hru
  have htext : ∀ n, textAt u s₀ (s.applied ++ record s.world.doc edit p) n =
      textAt u s₀ s.applied n := fun n => textAt_append fun r hr hru => absurd hru (hrecord r hr)
  have hstates : w.doc.states u = s.world.doc.states u := by
    rw [hw, DocumentStateManager.updateContent_states, if_neg fun h => hedit h.symm]
  have hpairs : ∀ R : Applied → Applied → Prop,
      s.applied.Pairwise (fun r r' => r.uri = u → r'.uri = u → R r r') →
      (s.applied ++ record s.world.doc edit p).Pairwise fun r r' => r.uri = u → r'.uri = u → R r r' := by
    intro R h
    refine List.pairwise_append.mpr ⟨h, ?_, fun r _ r' hr' _ hru' => absurd hru' (hrecord r' hr')⟩
    exact List.pairwise_of_forall_mem_list fun r hr r' _ hru _ => absurd hru (hrecord r hr)
  refine ⟨⟨?_, hpairs _ hs.once, hpairs _ hs.newer⟩, hs.versioned, ?_, ?_, ?_, ?_⟩
  · intro r hr hru
    simp only [htext]
    exact hs.base r (hold hr hru) hru
  · intro x hx
    refine (hs.phases x hx).mono fun d hd => ⟨d, hstates.trans hd, Int.le_refl _, fun n _ => htext n⟩
  · exact fun r hr hru => hs.named r (hold hr hru) hru
  · intro r hr hru
    simp only [hstates]
    exact hs.made_le r (hold hr hru) hru
  · intro d hd
    rw [hstates] at hd
    obtain ⟨hd', d₀, hd₀, hle, hor⟩ := hs.current d hd
    exact ⟨(htext _).trans hd', d₀, hd₀, hle, hor.imp_right fun ⟨r, hr, h⟩ =>
      ⟨r, List.mem_append_left _ hr, h⟩⟩

/-- One more update loses none, if it comes from the text of the version it names
and no update so far has made a later one. -/
theorem Inv.noneLost_snoc (hs : Inv c u s₀ s) {n : ℤ} {base : Text} (text : Text) (w : World)
    (hbase : textAt u s₀ s.applied n = some base)
    (hmade : ∀ r ∈ s.applied, r.uri = u → r.made ≤ n) :
    NoneLost u s₀ { s with world := w, applied := s.applied ++ [⟨u, some n, base, n + 1, text⟩] } := by
  constructor
  · intro r hr hru
    rcases List.mem_append.mp hr with hr | hr
    · obtain ⟨m, hm, hr'⟩ := hs.base r hr hru
      have hle := hmade r hr hru
      have hnamed := hm.symm.trans (hs.named r hr hru)
      cases hnamed
      exact ⟨_, hm, (textAt_before (by simp only; omega)).trans hr'⟩
    · rw [List.mem_singleton.mp hr]
      exact ⟨n, rfl, (textAt_before (Int.lt_succ n)).trans hbase⟩
  · refine List.pairwise_append.mpr ⟨hs.once, List.pairwise_singleton _ _, ?_⟩
    intro r hr r' hr' hru _ heq
    rw [List.mem_singleton.mp hr', hs.named r hr hru] at heq
    have hle := hmade r hr hru
    have hpred := Option.some.inj heq
    omega
  · refine List.pairwise_append.mpr ⟨hs.newer, List.pairwise_singleton _ _, ?_⟩
    intro r hr r' hr' hru _ m hm
    rw [List.mem_singleton.mp hr'] at hm
    exact Option.some.inj hm ▸ hmade r hr hru

/-- **The update of `u`** that finds the version its edit has checked. -/
theorem Inv.finish_current (hs : Inv c u s₀ s) {edit : TextDocumentEdit} {p : Prepared}
    (hedit : edit.uri = u) (hchecked : Checked u s₀ s edit)
    (hversion : s.world.doc.getVersion u = edit.version)
    (hcontent : s.world.doc.getContent u = some p.content) {w : World}
    (hw : w.doc = (s.world.doc.updateContent u p.newContent).2) :
    Inv c u s₀ { s with world := w, applied := s.applied ++ record s.world.doc edit p } := by
  obtain ⟨d, n, hd, hn, -, hfrom⟩ := hchecked hedit
  have hdn : d.version = n := by
    rw [DocumentStateManager.getVersion, hd, hn] at hversion
    exact Option.some.inj hversion
  subst hdn
  have htext : textAt u s₀ s.applied d.version = some p.content := by
    rw [DocumentStateManager.getContent, hd] at hcontent
    exact hcontent ▸ (hs.current d hd).1
  have hrecord : record s.world.doc edit p =
      [⟨u, some d.version, p.content, d.version + 1, p.newContent⟩] := by
    rw [record, hedit, hd, hn]
  have hstates : w.doc.states u = some ⟨p.newContent, d.version + 1, d.encoding⟩ := by
    rw [hw, DocumentStateManager.updateContent_states, if_pos rfl, hd]
    rfl
  have hmade : ∀ r ∈ s.applied, r.uri = u → r.made ≤ d.version := by
    intro r hr hru
    obtain ⟨d', hd', hle⟩ := hs.made_le r hr hru
    cases hd.symm.trans hd'
    exact hle
  rw [hrecord]
  refine ⟨hs.noneLost_snoc p.newContent w htext hmade, hs.versioned, ?_, ?_, ?_, ?_⟩
  · intro x hx
    refine (hs.phases x hx).mono fun d' hd' => ⟨_, hstates, ?_, ?_⟩
    · cases hd.symm.trans hd'
      simp only
      omega
    · cases hd.symm.trans hd'
      exact fun n hn => textAt_before (Int.lt_add_one_of_le hn)
  · intro r hr hru
    rcases List.mem_append.mp hr with hr | hr
    · exact hs.named r hr hru
    · rw [List.mem_singleton.mp hr]
      simp
  · intro r hr hru
    refine ⟨_, hstates, ?_⟩
    rcases List.mem_append.mp hr with hr | hr
    · have := hmade r hr hru
      simp only
      omega
    · rw [List.mem_singleton.mp hr]
  · intro d' hd'
    rw [hstates] at hd'
    cases hd'
    obtain ⟨-, d₀, hd₀, hle, -⟩ := hs.current d hd
    have hnew : textAt u s₀
        (s.applied ++ [⟨u, some d.version, p.content, d.version + 1, p.newContent⟩]) (d.version + 1) =
        some p.newContent :=
      textAt_made rfl fun x hx hxu => (Int.lt_add_one_of_le (hmade x hx hxu)).ne
    exact ⟨hnew, d₀, hd₀, by simp only; omega, .inr ⟨_, List.mem_append_right _
      (List.mem_singleton_self _), rfl, rfl⟩⟩

/-- The applications after a part that leaves its application in a phase that is right. -/
theorem apps_after (hs : Inv c u s₀ s) {α : Type} {i : ℕ} {x : Application}
    {todo : List TextDocumentEdit} {part : Op α} {next : α → Phase}
    (hi : s.applications[i]? = some x) (htodo : ∀ e ∈ todo, e ∈ x.todo)
    (hnext : ∀ a w, part s.world = .ok a w → PhaseOk c u s₀ s (next a)) :
    ∀ y ∈ (s.after i todo part next).applications,
      (∀ e ∈ y.todo, e.uri = u → e.version ≠ none) ∧ PhaseOk c u s₀ s y.phase := by
  intro y hy
  rcases mem_after i todo part next hy with hy | ⟨hytodo, hphase⟩
  · exact ⟨hs.versioned y hy, hs.phases y hy⟩
  · refine ⟨fun e he => hs.versioned x (List.mem_of_getElem? hi) e (htodo e (hytodo ▸ he)), ?_⟩
    rcases hphase with ⟨e, he⟩ | ⟨a, w, hok, ha⟩
    · rw [he]
      trivial
    · rw [ha]
      exact hnext a w hok

/-- **One step.** -/
theorem inv_step (s : State) (a : Act) (t : State) (hs : Inv c u s₀ s)
    (ha : StillCurrent u s a) (h : step c u s a = some t) : Inv c u s₀ t := by
  cases a with
  | begin i =>
    simp only [step] at h
    split at h
    · rename_i edit todo hi
      cases h
      have hx := List.mem_of_getElem? hi
      refine hs.keep ?_ (after_applied _ _ _ _) (apps_after hs hi
        (fun e he => List.mem_cons_of_mem _ he) fun r w hok => ?_)
      · rw [after_world, ← reads_editBegin]
      · exact phaseOk_begin hs (hs.versioned _ hx edit List.mem_cons_self) hok
    · cases h
  | read i =>
    simp only [step] at h
    split at h
    · rename_i todo edit path hi
      cases h
      have hphase : Checked u s₀ s edit ∧ (c.Canonical u → edit.uri ≠ u) :=
        hs.phases _ (List.mem_of_getElem? hi)
      refine hs.keep ?_ (after_applied _ _ _ _) (apps_after hs hi (fun e he => he)
        fun p w _ => ⟨hphase.1, fun hu hedit => absurd hedit (hphase.2 hu)⟩)
      rw [after_world, ← reads_editRead]
    · cases h
  | disk i =>
    simp only [step] at h
    split at h
    · rename_i todo edit p hi
      cases h
      have hphase : Checked u s₀ s edit ∧ ReadRight c u s₀ s edit p :=
        hs.phases _ (List.mem_of_getElem? hi)
      refine hs.keep ?_ (after_applied _ _ _ _) (apps_after hs hi (fun e he => he)
        fun _ _ _ => hphase)
      rw [after_world, show (Actions.final _ s.world).doc = s.world.doc from c.writeText_doc _ _ _ _]
    · cases h
  | finish i =>
    simp only [step] at h
    split at h
    · rename_i todo edit p hi
      cases h
      have hphase : Checked u s₀ s edit ∧ ReadRight c u s₀ s edit p :=
        hs.phases _ (List.mem_of_getElem? hi)
      have hdoc := c.writeFinish_doc edit.uri p.newContent s.world
      -- the update first, then the application that made it
      have hupdate : Inv c u s₀ { s with
          world := Actions.final (c.writeFinish edit.uri p.newContent) s.world
          applied := s.applied ++ record s.world.doc edit p } := by
        by_cases hedit : edit.uri = u
        · subst hedit
          obtain ⟨hversion, hcontent⟩ := ha todo edit p hi rfl
          exact hs.finish_current rfl hphase.1 hversion hcontent hdoc
        · exact hs.finish_other hedit hdoc
      refine hupdate.keep ?_ (after_applied _ _ _ _) ?_
      · rw [after_world]
      · intro y hy
        rcases mem_after _ _ _ _ hy with hy | ⟨hytodo, hend⟩
        · exact ⟨hupdate.versioned y hy, hupdate.phases y hy⟩
        · refine ⟨fun e he => hs.versioned _ (List.mem_of_getElem? hi) e (hytodo ▸ he), ?_⟩
          rcases hend with ⟨e, he⟩ | ⟨_, _, _, he⟩
          · rw [he]
            trivial
          · rw [he]
            trivial
    · cases h
  | other w =>
    simp only [step] at h
    split_ifs at h with hw
    cases h
    exact hs.keep hw rfl fun x hx => ⟨hs.versioned x hx, hs.phases x hx⟩

/-- For a document tracked under the URI of its path, the text is right whenever the version is. -/
theorem Inv.text_current (hs : Inv c u s₀ s) (hu : c.Canonical u) {i : ℕ} {todo : List TextDocumentEdit}
    {edit : TextDocumentEdit} {p : Prepared} (hi : s.applications[i]? = some ⟨todo, .written edit p⟩)
    (hedit : edit.uri = u) (hversion : s.world.doc.getVersion u = edit.version) :
    s.world.doc.getContent u = some p.content := by
  obtain ⟨hchecked, hright⟩ : Checked u s₀ s edit ∧ ReadRight c u s₀ s edit p :=
    hs.phases _ (List.mem_of_getElem? hi)
  obtain ⟨d, -, hd, -⟩ := hchecked hedit
  obtain ⟨n, hn, htext⟩ := hright hu hedit
  have hdn : d.version = n := by
    rw [DocumentStateManager.getVersion, hd, hn] at hversion
    exact Option.some.inj hversion
  have hcurrent := (hs.current d hd).1
  rw [hdn, htext] at hcurrent
  rw [DocumentStateManager.getContent, hd]
  exact hcurrent.symm

/-- An update that does not find the version its edit has checked overwrites a
newer text, and one that does not find the text it has read was not computed
from the text of its version. -/
theorem lost_of_not_current (s : State) (a : Act) (t : State) (hs : Inv c u s₀ s)
    (ha : ¬ StillCurrent u s a) (h : step c u s a = some t) : ¬ NoneLost u s₀ t := by
  cases a with
  | begin i => exact absurd trivial ha
  | read i => exact absurd trivial ha
  | disk i => exact absurd trivial ha
  | other w => exact absurd trivial ha
  | finish i =>
    simp only [StillCurrent, not_forall] at ha
    obtain ⟨todo, edit, p, hi, hedit, hne⟩ := ha
    simp only [step, hi] at h
    cases h
    obtain ⟨hchecked, -⟩ : Checked u s₀ s edit ∧ ReadRight c u s₀ s edit p :=
      hs.phases _ (List.mem_of_getElem? hi)
    obtain ⟨d, n, hd, hn, hle, hfrom⟩ := hchecked hedit
    obtain ⟨hcurrent, d₀, hd₀, -, hmade⟩ := hs.current d hd
    have hrecord : record s.world.doc edit p =
        [⟨u, some n, p.content, d.version + 1, p.newContent⟩] := by
      rw [record, hedit, hd, hn]
    intro hnone
    by_cases hdn : d.version = n
    · -- the version is current, so the text is not
      subst hdn
      have hbase := hnone.base
      rw [after_applied, hrecord] at hbase
      obtain ⟨m, hm, htext⟩ := hbase _ (List.mem_append_right _ (List.mem_singleton_self _)) rfl
      cases hm
      have hold : ∀ r ∈ [Applied.mk u (some d.version) p.content (d.version + 1) p.newContent],
          r.uri = u → r.made ≠ d.version := by
        intro r hr _
        rw [List.mem_singleton.mp hr]
        simp only
        omega
      rw [textAt_append hold, hcurrent] at htext
      refine hne ⟨?_, ?_⟩
      · rw [DocumentStateManager.getVersion, hd, hn]
        rfl
      · rw [DocumentStateManager.getContent, hd]
        exact htext
    · -- some update has made the version that is current now, after the check
      obtain ⟨r, hr, hru, hrd⟩ := hmade.resolve_left fun h => by have := hfrom d₀ hd₀; omega
      have hnewer := hnone.newer
      rw [after_applied, hrecord] at hnewer
      have := (List.pairwise_append.mp hnewer).2.2 r hr _ (List.mem_singleton_self _) hru rfl n rfl
      omega

theorem inv_begin (hs : s₀.Fresh)
    (hversioned : ∀ x ∈ s₀.applications, ∀ e ∈ x.todo, e.uri = u → e.version ≠ none) :
    Inv c u s₀ s₀ := by
  have hnil : ∀ r, r ∉ s₀.applied := fun r hr => by rw [hs.applied] at hr; cases hr
  refine ⟨⟨fun r hr => absurd hr (hnil r), ?_, ?_⟩, hversioned, fun x hx => ?_,
    fun r hr => absurd hr (hnil r), fun r hr => absurd hr (hnil r), fun d hd => ?_⟩
  · rw [hs.applied]
    exact List.Pairwise.nil
  · rw [hs.applied]
    exact List.Pairwise.nil
  · rw [hs.idle x hx]
    trivial
  · refine ⟨?_, d, hd, Int.le_refl _, .inl rfl⟩
    rw [hs.applied, textAt, hd]
    simp

/-- **When no update is lost.** Along every run of applications whose edits of
`u` name a version, no update of `u` is ever lost exactly if each of them finds,
when its disk write is over, the version that its edit has checked and the text
that it has read. -/
theorem none_lost_iff (hs : s₀.Fresh)
    (hversioned : ∀ x ∈ s₀.applications, ∀ e ∈ x.todo, e.uri = u → e.version ≠ none)
    {as : List Act} (hrun : exec (step c u) s₀ as = some s) :
    Always (step c u) (NoneLost u s₀) s₀ as ↔ Along (step c u) (StillCurrent u) s₀ as :=
  always_iff_along (fun _ h => h.toNoneLost) inv_step lost_of_not_current as
    (inv_begin hs hversioned) hrun

/-- Two applications that name version 0 of one document. -/
def twoEdits : State where
  world := Small.opened "o".toList
  applications := [⟨[⟨Small.uriA, some 0, [.textEdit ⟨⟨0, 0⟩, ⟨0, 1⟩⟩ "x".toList]⟩], .idle⟩,
    ⟨[⟨Small.uriA, some 0, [.textEdit ⟨⟨0, 0⟩, ⟨0, 1⟩⟩ "y".toList]⟩], .idle⟩]
  applied := []

theorem twoEdits_fresh : twoEdits.Fresh := ⟨by simp [twoEdits], rfl⟩

theorem twoEdits_versioned :
    ∀ x ∈ twoEdits.applications, ∀ e ∈ x.todo, e.uri = Small.uriA → e.version ≠ none := by
  simp [twoEdits]

/-- One application after the other: the second is refused. -/
theorem none_lost_iff_refused :
    Always (step Small.client Small.uriA) (NoneLost Small.uriA twoEdits) twoEdits
      [.begin 0, .disk 0, .finish 0, .begin 1] := by
  obtain ⟨s, hs⟩ : ∃ s, exec (step Small.client Small.uriA) twoEdits
      [.begin 0, .disk 0, .finish 0, .begin 1] = some s :=
    Option.isSome_iff_exists.mp (by decide +kernel)
  have hversion : (exec (step Small.client Small.uriA) twoEdits [.begin 0, .disk 0]).map
      (fun s : State => (s.world.doc.getVersion Small.uriA, s.world.doc.getContent Small.uriA,
        match (s.applications[0]? : Option Application) with
        | some ⟨_, .written edit p⟩ => (edit.version, some p.content)
        | _ => (none, none))) =
      some (some 0, some "o".toList, some 0, some "o".toList) := by decide +kernel
  refine (none_lost_iff twoEdits_fresh twoEdits_versioned hs).mpr
    ⟨trivial, fun s₁ h₁ => ⟨trivial, fun s₂ h₂ => ⟨?_, fun _ _ => ⟨trivial, fun _ _ => trivial⟩⟩⟩⟩
  rw [(exec_cons h₁).mpr ((exec_cons h₂).mpr rfl)] at hversion
  intro todo edit p hi _
  simp only [hi, Option.map_some, Option.some.injEq, Prod.mk.injEq] at hversion
  exact ⟨hversion.1.trans hversion.2.2.1.symm,
    hversion.2.1.trans (congrArg some hversion.2.2.2.symm)⟩

/-- **Both applications can succeed**: each passes its check before the other's
disk write is over, and the second overwrites the text of the first. -/
theorem edits_race : ∃ s, exec (step Small.client Small.uriA) twoEdits
      [.begin 0, .begin 1, .disk 0, .finish 0, .disk 1, .finish 1] = some s ∧
    (∀ x ∈ s.applications, x.succeeded = true) ∧ ¬ NoneLost Small.uriA twoEdits s := by
  obtain ⟨s, hs⟩ : ∃ s, exec (step Small.client Small.uriA) twoEdits
      [.begin 0, .begin 1, .disk 0, .finish 0, .disk 1, .finish 1] = some s :=
    Option.isSome_iff_exists.mp (by decide +kernel)
  have hend : (exec (step Small.client Small.uriA) twoEdits
      [.begin 0, .begin 1, .disk 0, .finish 0, .disk 1, .finish 1]).map
        (fun s : State => (s.applications.all (·.succeeded), s.applied)) =
      some (true, [⟨Small.uriA, some 0, "o".toList, 1, "x".toList⟩,
        ⟨Small.uriA, some 0, "o".toList, 2, "y".toList⟩]) := by decide +kernel
  rw [hs] at hend
  simp only [Option.map_some, Option.some.injEq, Prod.mk.injEq, List.all_eq_true] at hend
  refine ⟨s, hs, hend.1, fun h => ?_⟩
  have honce := h.once
  rw [hend.2] at honce
  exact (List.pairwise_cons.mp honce).1 _ (List.mem_singleton_self _) rfl rfl rfl

end EditRaces
end LspClient
