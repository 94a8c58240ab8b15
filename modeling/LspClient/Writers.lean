/-
# Concurrent writes of one document

Any number of `write_file` calls on one tracked document. Each call looks up
the path and the encoding (`start`), is suspended in its disk write (`disk`),
and then updates the state and sends `didChange` (`finish`); between these
steps the calls interleave.

The file holds the text of the call whose disk write came last, the tracked
state and the last `didChange` have the text of the call that finished last
(`Inv`). So they agree exactly if these two calls write the same bytes
(`writes_agree_iff`), which nothing makes them do (`writes_cross`).

Key definitions: `step`, `lastOf`, `Agree`, `SameLast`, `Inv`.
Key theorems: `inv_step`, `writes_agree_iff`, `writes_cross`.
-/
import LspClient.Lib.Run
import LspClient.Client

namespace LspClient
namespace Writers

open Run

/-! ### The calls -/

/-- How far a call of `write_file` has come. -/
inductive Phase where
  | waiting
  | writing (path : Path) (encoding : Encoding)
  | written
  | finished
  deriving DecidableEq, Repr

structure Call where
  content : Text
  phase : Phase
  deriving DecidableEq, Repr

structure State where
  world : World
  calls : List Call

/-- A step of one call. -/
inductive Act where
  | start (i : ℕ)
  | disk (i : ℕ)
  | finish (i : ℕ)
  deriving DecidableEq, Repr

variable (c : Client) (u : Uri)

/-- One step, if nothing fails in it. -/
def step (s : State) : Act → Option State
  | .start i =>
    match s.calls[i]? with
    | some ⟨content, .waiting⟩ => returned (c.writeBegin u s.world) fun r w =>
        ⟨w, s.calls.set i ⟨content, .writing r.1 r.2⟩⟩
    | _ => none
  | .disk i =>
    match s.calls[i]? with
    | some ⟨content, .writing path encoding⟩ =>
      returned (c.writeText path content encoding s.world) fun _ w =>
        ⟨w, s.calls.set i ⟨content, .written⟩⟩
    | _ => none
  | .finish i =>
    match s.calls[i]? with
    | some ⟨content, .written⟩ => returned (c.writeFinish u content s.world) fun _ w =>
        ⟨w, s.calls.set i ⟨content, .finished⟩⟩
    | _ => none

/-- The text call `i` writes. -/
def State.text (s : State) (i : ℕ) : Option Text := s.calls[i]?.map (·.content)

/-! ### Who comes last -/

def Act.disk? : Act → Option ℕ
  | .disk i => some i
  | _ => none

def Act.finish? : Act → Option ℕ
  | .finish i => some i
  | _ => none

/-- The last action of a kind in a schedule: the call it belongs to. -/
def lastOf (kind : Act → Option ℕ) (as : List Act) : Option ℕ :=
  as.foldl (fun last a => (kind a).or last) none

theorem lastOf_snoc (kind : Act → Option ℕ) (as : List Act) (a : Act) :
    lastOf kind (as ++ [a]) = (kind a).or (lastOf kind as) := by
  rw [lastOf, List.foldl_append]
  rfl

/-- The call that wrote the disk last and the call that finished last write the same bytes. -/
def SameLast (encoding : Encoding) (s : State) (as : List Act) : Prop :=
  ∃ i j t t', lastOf Act.disk? as = some i ∧ lastOf Act.finish? as = some j ∧
    s.text i = some t ∧ s.text j = some t' ∧
    c.codecs.encode encoding t = c.codecs.encode encoding t'

/-! ### Agreement -/

/-- Among these notifications the change of `v` with the highest version has the text. -/
def LatestChange (msgs : List Notification) (v : Uri) (text : Text) : Prop :=
  ∃ n, .didChange v n text ∈ msgs ∧ ∀ n' text', .didChange v n' text' ∈ msgs →
    n' ≤ n ∧ (n' = n → text' = text)

/-- The file holds this text. -/
def FileHolds (encoding : Encoding) (w : World) (text : Text) : Prop :=
  ∃ p bytes, c.fromLocalUri u = .ok p ∧ c.codecs.encode encoding text = some bytes ∧
    FileTree.fileAt (c.route p) w.fs = some bytes

/-- The last change told to the server since `s₀` has this text. -/
def ServerTold (s₀ s : State) (text : Text) : Prop :=
  ∃ p v msgs, c.fromLocalUri u = .ok p ∧ c.asUri p = .ok v ∧
    s.world.conn.sent = s₀.world.conn.sent ++ msgs ∧ LatestChange msgs v text

/-- The file, the tracked content and the last `didChange` have the text of one call. -/
def Agree (s₀ s : State) : Prop :=
  ∃ i t, s₀.text i = some t ∧ FileHolds c u (s.world.doc.getEncoding u) s.world t ∧
    s.world.doc.getContent u = some t ∧ ServerTold c u s₀ s t

/-! ### What the runs keep -/

/-- What the phase of a call says about the actions so far. -/
def PhaseOk (encoding : Encoding) (as : List Act) : Phase → Prop
  | .waiting => True
  | .writing path e => c.fromLocalUri u = .ok path ∧ e = encoding
  | .written => lastOf Act.disk? as ≠ none
  | .finished => lastOf Act.disk? as ≠ none ∧ lastOf Act.finish? as ≠ none

/-- What holds after the actions `as`, begun in `s₀` with the document at `d₀`. -/
structure Inv (s₀ : State) (d₀ : DocumentState) (as : List Act) (s : State) : Prop where
  texts : s.calls.map (·.content) = s₀.calls.map (·.content)
  phases : ∀ call ∈ s.calls, PhaseOk c u d₀.encoding as call.phase
  tracked : ∃ d msgs, s.world.doc.states u = some d ∧ d.encoding = d₀.encoding ∧
    s.world.conn.sent = s₀.world.conn.sent ++ msgs ∧
    (∀ v n t, .didChange v n t ∈ msgs → n ≤ d.version) ∧
    ∀ j, lastOf Act.finish? as = some j → s₀.text j = some d.content ∧ ServerTold c u s₀ s d.content
  disk : ∀ i, lastOf Act.disk? as = some i → ∃ t, s₀.text i = some t ∧
    FileHolds c u d₀.encoding s.world t

variable {c u} {s₀ s t : State} {a : Act} {as : List Act} {d₀ : DocumentState}

/-- What a step can do. -/
theorem step_cases (h : step c u s a = some t) :
    (∃ i content p, a = .start i ∧ s.calls[i]? = some ⟨content, .waiting⟩ ∧
      c.fromLocalUri u = .ok p ∧
      t = ⟨s.world, s.calls.set i ⟨content, .writing p (s.world.doc.getEncoding u)⟩⟩) ∨
    (∃ i content p encoding bytes fs, a = .disk i ∧
      s.calls[i]? = some ⟨content, .writing p encoding⟩ ∧
      c.codecs.encode encoding content = some bytes ∧ FileTree.fileAt (c.route p) fs = some bytes ∧
      t = ⟨{ s.world with fs := fs }, s.calls.set i ⟨content, .written⟩⟩) ∨
    ∃ i content w, a = .finish i ∧ s.calls[i]? = some ⟨content, .written⟩ ∧
      c.writeFinish u content s.world = .ok () w ∧ t = ⟨w, s.calls.set i ⟨content, .finished⟩⟩ := by
  cases a with
  | start i =>
    simp only [step] at h
    split at h
    · rename_i content hi
      obtain ⟨⟨p, encoding⟩, w, hok, rfl⟩ := returned_some h
      obtain ⟨hp, henc, rfl⟩ := Client.writeBegin_ok hok
      simp only at hp henc
      exact .inl ⟨i, content, p, rfl, hi, hp, by rw [henc]⟩
    · cases h
  | disk i =>
    simp only [step] at h
    split at h
    · rename_i content p encoding hi
      obtain ⟨_, w, hok, rfl⟩ := returned_some h
      obtain ⟨bytes, hbytes, hfile, hw⟩ := Client.writeText_ok hok
      exact .inr (.inl ⟨i, content, p, encoding, bytes, w.fs, rfl, hi, hbytes, hfile, by rw [← hw]⟩)
    · cases h
  | finish i =>
    simp only [step] at h
    split at h
    · rename_i content hi
      obtain ⟨_, w, hok, rfl⟩ := returned_some h
      exact .inr (.inr ⟨i, content, w, rfl, hi, hok, rfl⟩)
    · cases h

/-- A call that changes its phase keeps its text. -/
theorem map_content_set {calls : List Call} {i : ℕ} {content : Text} {phase phase' : Phase}
    (h : calls[i]? = some ⟨content, phase⟩) :
    (calls.set i ⟨content, phase'⟩).map (·.content) = calls.map (·.content) := by
  rw [List.map_set]
  refine List.ext_getElem? fun j => ?_
  rw [List.getElem?_set]
  split_ifs with hij hlt
  · subst hij
    simp [h]
  · subst hij
    simp only [List.length_map, not_lt] at hlt
    simp [hlt]
  · rfl

theorem Inv.text (hs : Inv c u s₀ d₀ as s) {i : ℕ} {content : Text} {phase : Phase}
    (h : s.calls[i]? = some ⟨content, phase⟩) : s₀.text i = some content := by
  have hi := congrArg (·[i]?) hs.texts
  simp only [List.getElem?_map, h, Option.map_some] at hi
  exact hi.symm

theorem lastOf_snoc_ne_none {kind : Act → Option ℕ} (h : lastOf kind as ≠ none) :
    lastOf kind (as ++ [a]) ≠ none := by
  rw [lastOf_snoc]
  cases kind a with
  | none => exact h
  | some i => simp

theorem PhaseOk.snoc {encoding : Encoding} {phase : Phase} (h : PhaseOk c u encoding as phase) :
    PhaseOk c u encoding (as ++ [a]) phase := by
  cases phase with
  | waiting => trivial
  | writing path e => exact h
  | written => exact lastOf_snoc_ne_none h
  | finished => exact ⟨lastOf_snoc_ne_none h.1, lastOf_snoc_ne_none h.2⟩

/-- One call goes to its next phase. -/
theorem phases_set {encoding : Encoding} {calls : List Call} {i : ℕ} {call : Call}
    (h : ∀ x ∈ calls, PhaseOk c u encoding as x.phase)
    (hcall : PhaseOk c u encoding (as ++ [a]) call.phase) :
    ∀ x ∈ calls.set i call, PhaseOk c u encoding (as ++ [a]) x.phase := by
  intro x hx
  rcases List.mem_or_eq_of_mem_set hx with hx | rfl
  · exact (h x hx).snoc
  · exact hcall

/-- **One step.** -/
theorem inv_step (as : List Act) (s : State) (a : Act) (t : State) (hs : Inv c u s₀ d₀ as s)
    (h : step c u s a = some t) : Inv c u s₀ d₀ (as ++ [a]) t := by
  obtain ⟨d, msgs, hd, henc, hsent, hle, hlast⟩ := hs.tracked
  rcases step_cases h with ⟨i, content, p, rfl, hi, hp, rfl⟩ |
      ⟨i, content, p, encoding, bytes, fs, rfl, hi, hbytes, hfile, rfl⟩ |
      ⟨i, content, w, rfl, hi, hfinish, rfl⟩
  · have hdisk : lastOf Act.disk? (as ++ [.start i]) = lastOf Act.disk? as := lastOf_snoc _ _ _
    have hfin : lastOf Act.finish? (as ++ [.start i]) = lastOf Act.finish? as := lastOf_snoc _ _ _
    refine ⟨(map_content_set hi).trans hs.texts, phases_set hs.phases ⟨hp, ?_⟩, ?_, ?_⟩
    · simp [DocumentStateManager.getEncoding, hd, henc]
    · rw [hfin]
      exact ⟨d, msgs, hd, henc, hsent, hle, hlast⟩
    · rw [hdisk]
      exact hs.disk
  · have hdisk : lastOf Act.disk? (as ++ [.disk i]) = some i := lastOf_snoc _ _ _
    have hfin : lastOf Act.finish? (as ++ [.disk i]) = lastOf Act.finish? as := lastOf_snoc _ _ _
    obtain ⟨hp, rfl⟩ := hs.phases _ (List.mem_of_getElem? hi)
    refine ⟨(map_content_set hi).trans hs.texts, phases_set hs.phases ?_, ?_, ?_⟩
    · show lastOf Act.disk? (as ++ [.disk i]) ≠ none
      simp [hdisk]
    · rw [hfin]
      exact ⟨d, msgs, hd, henc, hsent, hle, hlast⟩
    · intro j hj
      rw [hdisk] at hj
      cases hj
      exact ⟨content, hs.text hi, p, bytes, hp, hbytes, hfile⟩
  · have hdisk : lastOf Act.disk? (as ++ [.finish i]) = lastOf Act.disk? as := lastOf_snoc _ _ _
    have hfin : lastOf Act.finish? (as ++ [.finish i]) = some i := lastOf_snoc _ _ _
    have hwritten : lastOf Act.disk? as ≠ none := hs.phases _ (List.mem_of_getElem? hi)
    have hend := Client.writeFinish_ok hfinish
    rw [hd] at hend
    obtain ⟨p, v, hp, hv, rfl⟩ := hend
    -- every change since `s₀`, the new one with the highest version
    have hhigh : ∀ v' n t', Notification.didChange v' n t' ∈
        msgs ++ [.didChange v (d.version + 1) content] →
        n ≤ d.version + 1 ∧ (n = d.version + 1 → t' = content) := by
      intro v' n t' hmem
      rcases List.mem_append.mp hmem with hmem | hmem
      · have := hle v' n t' hmem
        exact ⟨by omega, fun h => by omega⟩
      · rw [List.mem_singleton] at hmem
        cases hmem
        exact ⟨Int.le_refl _, fun _ => rfl⟩
    have hsent' : s.world.conn.sent ++ [.didChange v (d.version + 1) content] =
        s₀.world.conn.sent ++ (msgs ++ [.didChange v (d.version + 1) content]) := by
      rw [hsent, List.append_assoc]
    refine ⟨(map_content_set hi).trans hs.texts, phases_set hs.phases ⟨?_, ?_⟩, ?_, ?_⟩
    · rwa [hdisk]
    · simp [hfin]
    · refine ⟨⟨content, d.version + 1, d.encoding⟩, _, ?_, henc, hsent', ?_, ?_⟩
      · rw [World.sendAll_doc, DocumentStateManager.updateContent_states, if_pos rfl, hd]
        rfl
      · exact fun v' n t' hmem => (hhigh v' n t' hmem).1
      · intro j hj
        rw [hfin] at hj
        cases hj
        exact ⟨hs.text hi, p, v, _, hp, hv, hsent', d.version + 1, by simp, hhigh v⟩
    · rw [hdisk]
      exact hs.disk

theorem inv_begin (hd : s₀.world.doc.states u = some d₀)
    (hwaiting : ∀ call ∈ s₀.calls, call.phase = .waiting) : Inv c u s₀ d₀ [] s₀ where
  texts := rfl
  phases call hcall := by rw [hwaiting call hcall]; trivial
  tracked := ⟨d₀, [], hd, rfl, (List.append_nil _).symm, fun _ _ _ h => absurd h List.not_mem_nil,
    fun _ h => nomatch h⟩
  disk _ h := nomatch h

/-- **When the writes agree.** When all calls have finished, the file, the
tracked content and the last `didChange` have the text of one and the same call
exactly if the call that wrote the disk last and the call that finished last
write the same bytes. -/
theorem writes_agree_iff (hd : s₀.world.doc.states u = some d₀)
    (hwaiting : ∀ call ∈ s₀.calls, call.phase = .waiting) (hne : s₀.calls ≠ [])
    (hrun : exec (step c u) s₀ as = some s) (hdone : ∀ call ∈ s.calls, call.phase = .finished) :
    Agree c u s₀ s ↔ SameLast c d₀.encoding s₀ as := by
  have hinv : Inv c u s₀ d₀ as s := exec_inv_history inv_step as (inv_begin hd hwaiting) hrun
  obtain ⟨d, msgs, hds, henc, -, -, hlast⟩ := hinv.tracked
  have hcalls : s.calls ≠ [] := fun h => hne (List.map_eq_nil_iff.mp (by rw [← hinv.texts, h]; rfl))
  obtain ⟨call, hcall⟩ := List.exists_mem_of_ne_nil _ hcalls
  obtain ⟨hdisk, hfinish⟩ : PhaseOk c u d₀.encoding as .finished :=
    hdone call hcall ▸ hinv.phases call hcall
  obtain ⟨i, hi⟩ := Option.ne_none_iff_exists'.mp hdisk
  obtain ⟨j, hj⟩ := Option.ne_none_iff_exists'.mp hfinish
  obtain ⟨t, hti, p, bytes, hp, hbytes, hfile⟩ := hinv.disk i hi
  obtain ⟨htj, htold⟩ := hlast j hj
  have hencoding : s.world.doc.getEncoding u = d₀.encoding := by
    simp [DocumentStateManager.getEncoding, hds, henc]
  have hcontent : s.world.doc.getContent u = some d.content := by
    simp [DocumentStateManager.getContent, hds]
  constructor
  · rintro ⟨k, text, -, ⟨q, bytes', hq, hbytes', hfile'⟩, htext, -⟩
    cases hp.symm.trans hq
    cases hfile.symm.trans hfile'
    cases hcontent.symm.trans htext
    exact ⟨i, j, t, d.content, hi, hj, hti, htj, by rw [hbytes, ← hencoding, hbytes']⟩
  · rintro ⟨i', j', t', t'', hi', hj', hti', htj', hsame⟩
    cases hi.symm.trans hi'
    cases hj.symm.trans hj'
    cases hti.symm.trans hti'
    cases htj.symm.trans htj'
    exact ⟨j, d.content, htj, ⟨p, bytes, hp, by rw [hencoding, ← hsame, hbytes], hfile⟩, hcontent, htold⟩

/-- Two calls on a tracked document. -/
def twoCalls : State := ⟨Small.opened "o".toList, [⟨"x".toList, .waiting⟩, ⟨"y".toList, .waiting⟩]⟩

theorem writes_agree_iff_overlap : ∃ s, exec (step Small.client Small.uriA) twoCalls
      [.start 0, .start 1, .disk 0, .finish 0, .disk 1, .finish 1] = some s ∧
    Agree Small.client Small.uriA twoCalls s := by
  obtain ⟨s, hs⟩ : ∃ s, exec (step Small.client Small.uriA) twoCalls
      [.start 0, .start 1, .disk 0, .finish 0, .disk 1, .finish 1] = some s :=
    Option.isSome_iff_exists.mp (by decide +kernel)
  have hphases : (exec (step Small.client Small.uriA) twoCalls
      [.start 0, .start 1, .disk 0, .finish 0, .disk 1, .finish 1]).map
        (fun s => s.calls.all (·.phase = .finished)) = some true := by decide +kernel
  rw [hs] at hphases
  have hd : twoCalls.world.doc.states Small.uriA = some ⟨"o".toList, 0, Small.ascii⟩ := rfl
  refine ⟨s, hs, (writes_agree_iff hd (by decide) (by decide) hs ?_).mpr
    ⟨1, 1, "y".toList, "y".toList, rfl, rfl, rfl, rfl, rfl⟩⟩
  simpa using hphases

/-- **The writes of two calls can cross**: the first call writes the disk first
and finishes last, so the file has the text of the second call while the state
and the server have the text of the first. -/
theorem writes_cross : ∃ s, exec (step Small.client Small.uriA) twoCalls
      [.start 0, .start 1, .disk 0, .disk 1, .finish 1, .finish 0] = some s ∧
    (∀ call ∈ s.calls, call.phase = .finished) ∧ ¬ Agree Small.client Small.uriA twoCalls s := by
  obtain ⟨s, hs⟩ : ∃ s, exec (step Small.client Small.uriA) twoCalls
      [.start 0, .start 1, .disk 0, .disk 1, .finish 1, .finish 0] = some s :=
    Option.isSome_iff_exists.mp (by decide +kernel)
  have hend : (exec (step Small.client Small.uriA) twoCalls
      [.start 0, .start 1, .disk 0, .disk 1, .finish 1, .finish 0]).map
        (fun s => (s.calls.all (·.phase = .finished),
          FileTree.fileAt (Small.client.route (Path.ofText "/ws/a".toList)) s.world.fs,
          s.world.doc.getContent Small.uriA)) =
      some (true, Small.codecs.encode Small.ascii "y".toList, some "x".toList) := by decide +kernel
  rw [hs] at hend
  simp only [Option.map_some, Option.some.injEq, Prod.mk.injEq] at hend
  obtain ⟨hphases, hfile, hcontent⟩ := hend
  refine ⟨s, hs, by simpa using hphases, ?_⟩
  rintro ⟨i, t, -, ⟨p, bytes, hp, hbytes, hholds⟩, htext, -⟩
  have hpath : Small.client.fromLocalUri Small.uriA = .ok (Path.ofText "/ws/a".toList) := by decide
  cases hpath.symm.trans hp
  rw [hcontent] at htext
  cases htext
  -- the file would have to hold both texts
  have hboth : Small.codecs.encode Small.ascii "x".toList = Small.codecs.encode Small.ascii "y".toList :=
    hbytes.trans (hholds.symm.trans hfile)
  exact absurd hboth (by decide)

end Writers
end LspClient
