/-
# What an edit makes of a document

`iter_text_document_edits` yields the text edits of a `WorkspaceEdit`, of either
format, with the URIs of their documents. A document that nothing else in the
edit concerns comes out with the edits that are yielded for it applied to its
tracked content, in their order and with a version for each: all of them if the
edit is applied, and those before some point if it is refused or fails on its
way (`edit_lands`). Where nothing is yielded for a document it stays as it is.

Key definitions: `iterTextDocumentEdits`, `landed`, `Lands`, `InStepAt`.
Key theorems: `iterTextDocumentEdits_eq`, `change_lands`, `edit_lands`.
-/
import LspClient.Versions

namespace LspClient

/-- A text edit yields its URI and its edits. -/
def DocumentChange.textEdits : DocumentChange → Option (Uri × List AnyTextEdit)
  | .textDocumentEdit edit => some (edit.uri, edit.edits)
  | _ => none

/-- `iter_text_document_edits`. -/
def iterTextDocumentEdits (edit : WorkspaceEdit) : List (Uri × List AnyTextEdit) :=
  match edit.documentChanges, edit.changes with
  | some (change :: rest), _ => (change :: rest).filterMap DocumentChange.textEdits
  | _, some changes => changes.entries.map fun e => (e.1, e.2)
  | _, none => []

namespace Contents

open ByteStream Actions Client Rename Resources Mirror Versions

/-- The document with an edit, if it is one of this document. -/
def landed (u : Uri) (d : DocumentState) (e : Uri × List AnyTextEdit) : DocumentState :=
  if e.1 = u then ⟨applyTextEdits d.content e.2, d.version + 1, d.encoding⟩ else d

/-- The tracked document has the edits, and is held as often. -/
structure Lands (u : Uri) (es : List (Uri × List AnyTextEdit)) (w w' : World) : Prop where
  state : w'.doc.states u = (w.doc.states u).map fun d => es.foldl (landed u) d
  count : w'.doc.refCounts u = w.doc.refCounts u

/-- The server has the document that the client tracks, or neither has one. -/
def InStepAt (u : Uri) (w : World) : Prop := serverMap w.conn.sent u = tracked w.doc u

/-- The conversion between URIs and paths is exact on a document that is written. -/
def ExactChange (c : Client) : DocumentChange → Prop
  | .textDocumentEdit edit => c.Canonical edit.uri
  | .createFile change => c.Canonical change.uri
  | .renameFile _ => True
  | .deleteFile _ => True

variable {c : Client} {u v : Uri} {w w' w'' : World} {es es' : List (Uri × List AnyTextEdit)}

/-! ### What is yielded -/

/-- **The yielded edits are the text edits of what is applied.** -/
theorem iterTextDocumentEdits_eq (edit : WorkspaceEdit) :
    iterTextDocumentEdits edit = (changesOf edit).filterMap DocumentChange.textEdits := by
  obtain ⟨documentChanges, changes⟩ := edit
  have hmap : ∀ entries : List (Σ _ : Uri, List AnyTextEdit),
      (entries.map fun e => (e.1, e.2)) = (entries.map fun e =>
        DocumentChange.textDocumentEdit ⟨e.1, none, e.2⟩).filterMap DocumentChange.textEdits := by
    intro entries
    rw [List.filterMap_map]
    exact (List.filterMap_eq_map).symm ▸ rfl
  match documentChanges, changes with
  | some (_ :: _), _ => rfl
  | some [], some changes => exact hmap _
  | none, some changes => exact hmap _
  | some [], none => rfl
  | none, none => rfl

/-! ### One change -/

section Change

theorem lands_nil (hstate : w'.doc.states u = w.doc.states u)
    (hcount : w'.doc.refCounts u = w.doc.refCounts u) : Lands u [] w w' := by
  refine ⟨?_, hcount⟩
  rw [hstate]
  exact Option.map_id'.symm

theorem lands_same (hdoc : w'.doc = w.doc) : Lands u [] w w' := by
  apply lands_nil
  · rw [hdoc]
  · rw [hdoc]

theorem Lands.append (h : Lands u es w w') (h' : Lands u es' w' w'') : Lands u (es ++ es') w w'' := by
  refine ⟨?_, h'.count.trans h.count⟩
  rw [h'.state, h.state, Option.map_map]
  exact Option.map_congr fun d _ => List.foldl_append.symm

/-- The write raises before it updates the document, or it updates it. -/
theorem writeFile_final (v : Uri) (content : Text) (w : World) :
    ((final (c.writeFile v content) w).doc = w.doc ∧ ∃ e w', c.writeFile v content w = .error e w') ∨
      (final (c.writeFile v content) w).doc = (w.doc.updateContent v content).2 := by
  have hraises : ∀ e w', c.writeFile v content w = .error e w' → w'.doc = w.doc →
      (final (c.writeFile v content) w).doc = w.doc ∧ ∃ e w', c.writeFile v content w = .error e w' := by
    intro e w' h hdoc
    rw [final, h]
    exact ⟨hdoc, e, w', rfl⟩
  cases hbegin : c.writeBegin v w with
  | error e w₁ =>
    obtain rfl := (c.reads_writeBegin v).of_error hbegin
    exact Or.inl (hraises e w (bind_eq_error hbegin) rfl)
  | ok r w₁ =>
    obtain rfl := (c.reads_writeBegin v).of_ok hbegin
    cases hwrite : c.writeText r.1 content r.2 w with
    | error e w₂ =>
      refine Or.inl (hraises e w₂ ?_ ((c.writeText_doc _ _ _).of_error hwrite))
      rw [writeFile, bind_eq_ok hbegin]
      exact bind_eq_error hwrite
    | ok _ w₂ =>
      have hdoc : w₂.doc = w.doc := (c.writeText_doc _ _ _).of_ok hwrite
      have hrun : c.writeFile v content w = c.writeFinish v content w₂ := by
        rw [writeFile, bind_eq_ok hbegin]
        exact bind_eq_ok hwrite
      refine Or.inr ?_
      rw [final, hrun, ← hdoc]
      exact c.writeFinish_doc v content w₂

/-- What a write of another document leaves. -/
theorem lands_update_other {content : Text} (hvu : v ≠ u)
    (hdoc : w'.doc = (w.doc.updateContent v content).2) : Lands u [] w w' := by
  apply lands_nil
  · rw [hdoc, DocumentStateManager.updateContent_states, if_neg hvu.symm]
  · rw [hdoc, DocumentStateManager.updateContent_refCounts]

/-- What a text edit of the document leaves, once it has updated it. -/
theorem lands_update {edits : List AnyTextEdit} {content : Text}
    (hcontent : ∀ d, w.doc.states u = some d → content = applyTextEdits d.content edits)
    (hdoc : w'.doc = (w.doc.updateContent u content).2) : Lands u [(u, edits)] w w' := by
  constructor
  · rw [hdoc, DocumentStateManager.updateContent_states, if_pos rfl]
    refine Option.map_congr fun d hd => ?_
    rw [hcontent d hd]
    exact (if_pos rfl).symm
  · rw [hdoc, DocumentStateManager.updateContent_refCounts]

/-- However a text edit ends, it lands or it leaves all documents. -/
theorem textDocumentEdit_lands (hu : c.Canonical u) (edit : TextDocumentEdit) (w : World) :
    (Lands u [] w (final (c.applyTextDocumentEdit edit) w) ∧
      ∃ e w', c.applyTextDocumentEdit edit w = .error e w') ∨
    Lands u [(edit.uri, edit.edits)] w (final (c.applyTextDocumentEdit edit) w) := by
  have hraises : ∀ e w', c.applyTextDocumentEdit edit w = .error e w' → w'.doc = w.doc →
      Lands u [] w (final (c.applyTextDocumentEdit edit) w) ∧
        ∃ e w', c.applyTextDocumentEdit edit w = .error e w' := by
    intro e w' h hdoc
    rw [final, h]
    exact ⟨lands_same hdoc, e, w', rfl⟩
  cases hcheck : checkVersion edit.uri edit.version w with
  | error e w₁ =>
    obtain rfl := (reads_checkVersion _ _).of_error hcheck
    exact Or.inl (hraises e w (bind_eq_error hcheck) rfl)
  | ok _ w₁ =>
    obtain rfl := (reads_checkVersion _ _).of_ok hcheck
    cases hedited : c.editedContent edit.uri edit.edits w with
    | error e w₂ =>
      obtain rfl := (reads_editedContent _ _).of_error hedited
      refine Or.inl (hraises e w ?_ rfl)
      rw [applyTextDocumentEdit, bind_eq_ok hcheck]
      exact bind_eq_error hedited
    | ok content w₂ =>
      obtain rfl := (reads_editedContent _ _).of_ok hedited
      have hrun : c.applyTextDocumentEdit edit w = c.writeFile edit.uri content w := by
        rw [applyTextDocumentEdit, bind_eq_ok hcheck]
        exact bind_eq_ok hedited
      obtain ⟨hdoc, e, w', herror⟩ | hdoc := writeFile_final (c := c) edit.uri content w
      · rw [final, herror] at hdoc
        exact Or.inl (hraises e w' (hrun.trans herror) hdoc)
      · refine Or.inr ?_
        unfold final at hdoc ⊢
        rw [hrun]
        by_cases heu : edit.uri = u
        · subst heu
          exact lands_update (fun d hd => editedContent_ok hu hd hedited) hdoc
        · have hother := lands_update_other heu hdoc
          refine ⟨?_, hother.count⟩
          rw [hother.state]
          exact Option.map_congr fun d _ => (if_neg heu).symm

theorem moveTracked_refCounts {m : DocumentStateManager} {oldUri newUri : Uri} (hold : oldUri ≠ u)
    (hnew : newUri ≠ u) : (moveTracked oldUri newUri m).2.refCounts u = m.refCounts u := by
  have hdel : (m.refCounts.del oldUri) u = m.refCounts u := Function.update_of_ne hold.symm ..
  cases hd : m.states oldUri with
  | none => rw [moveTracked_untracked hd]
  | some d =>
    rw [moveTracked_tracked hd]
    split_ifs
    · exact hdel
    · exact (Function.update_of_ne hnew.symm ..).trans hdel

theorem unregister_refCounts {m : DocumentStateManager} (hvu : v ≠ u) :
    (m.unregister v).2.refCounts u = m.refCounts u := by
  unfold DocumentStateManager.unregister
  cases m.states v with
  | none => rfl
  | some d => exact Function.update_of_ne hvu.symm ..

theorem createFile_lands {change : CreateFile} (hu : change.uri ≠ u) :
    Within (fun w w' => Lands u [] w w') (c.applyCreateFile change) := by
  have hsame : ∀ {α : Type} {x : Op α}, SameDoc x → Within (fun w w' => Lands u [] w w') x :=
    fun hx => hx.mono fun _ _ h => lands_same h
  have htrans : ∀ s t w : World, Lands u [] s t → Lands u [] t w → Lands u [] s w :=
    fun _ _ _ h h' => h.append h'
  have hwrite : Within (fun w w' => Lands u [] w w') (c.writeFile change.uri []) := by
    intro w
    obtain ⟨hdoc, -⟩ | hdoc := writeFile_final (c := c) change.uri [] w
    · exact lands_same hdoc
    · exact lands_update_other hu hdoc
  have hcreate : ∀ path, Within (fun w w' => Lands u [] w w')
      (c.createParents path >>= fun _ => c.writeFile change.uri []) := fun path =>
    Within.bind htrans (hsame ((filesOnly_createParents path).mono fun _ _ h => h.1)) fun _ => hwrite
  refine Within.bind htrans (hsame (sameDoc_reads (reads_convert _))) fun path => ?_
  refine Within.bind htrans (hsame (os_doc _)) fun there => ?_
  split_ifs
  · exact hcreate path
  · exact hsame (sameDoc_reads reads_pure)
  · exact hsame (sameDoc_reads reads_throw)
  · exact hcreate path

/-- **What a change makes of a document**, however it ends: its text edit, if it is one,
lands, or it leaves the document and raises. -/
theorem change_lands (hu : c.Canonical u) {change : DocumentChange} (halone : Alone u change) (w : World) :
    (Lands u [] w (final (c.applyChange change) w) ∧ ∃ e w', c.applyChange change w = .error e w') ∨
      Lands u change.textEdits.toList w (final (c.applyChange change) w) := by
  cases change with
  | textDocumentEdit edit => exact textDocumentEdit_lands hu edit w
  | createFile change => exact Or.inr (createFile_lands halone w)
  | renameFile change =>
    refine Or.inr ?_
    obtain ⟨-, hdoc⟩ | ⟨-, hdoc⟩ := Release.applyRenameFile_final (c := c) change w
    · apply lands_nil
      · exact hdoc ▸ (moveTracked_states halone.2).trans (if_neg halone.1.symm)
      · exact hdoc ▸ moveTracked_refCounts halone.1 halone.2
    · exact lands_same hdoc
  | deleteFile change =>
    refine Or.inr ?_
    obtain hdoc | hdoc := Release.applyDeleteFile_final (c := c) change w
    · exact lands_same hdoc
    · apply lands_nil
      · exact hdoc ▸ (w.doc.unregister_states change.uri u).trans (if_neg (Ne.symm halone))
      · exact hdoc ▸ unregister_refCounts halone

end Change

/-! ### The edit -/

section Edit

/-- **The changes one after the other**: those that land are the first ones. -/
theorem changes_land (hu : c.Canonical u) : ∀ {changes : List DocumentChange} (w : World),
    (∀ change ∈ changes, Alone u change) → ∃ es, es <+: changes.filterMap DocumentChange.textEdits ∧
      Lands u es w (final (c.applyDocumentChanges changes) w) ∧
      ((∃ w', c.applyDocumentChanges changes w = .ok () w') →
        es = changes.filterMap DocumentChange.textEdits)
  | [], w, _ => ⟨[], List.prefix_rfl, lands_same rfl, fun _ => rfl⟩
  | change :: rest, w, halone => by
    have hcons : (change :: rest).filterMap DocumentChange.textEdits =
        change.textEdits.toList ++ rest.filterMap DocumentChange.textEdits := by
      rw [List.filterMap_cons]
      cases change.textEdits <;> rfl
    have hfirst := change_lands hu (halone change List.mem_cons_self) w
    rw [hcons]
    cases hchange : c.applyChange change w with
    | error e w₁ =>
      have hrun : c.applyDocumentChanges (change :: rest) w = .error e w₁ := bind_eq_error hchange
      unfold final at hfirst
      rw [hchange] at hfirst
      obtain ⟨hnone, -⟩ | hlands := hfirst
      · refine ⟨[], List.nil_prefix, ?_, ?_⟩
        · rw [final, hrun]
          exact hnone
        · rintro ⟨w', hok⟩
          cases hrun.symm.trans hok
      · refine ⟨change.textEdits.toList, List.prefix_append .., ?_, ?_⟩
        · rw [final, hrun]
          exact hlands
        · rintro ⟨w', hok⟩
          cases hrun.symm.trans hok
    | ok _ w₁ =>
      have hrun : c.applyDocumentChanges (change :: rest) w = c.applyDocumentChanges rest w₁ :=
        bind_eq_ok hchange
      unfold final at hfirst
      rw [hchange] at hfirst
      obtain ⟨-, e, w', herror⟩ | hlands := hfirst
      · cases herror
      obtain ⟨es, hprefix, hrest, hall⟩ :=
        changes_land hu w₁ fun change hm => halone change (List.mem_cons_of_mem _ hm)
      refine ⟨change.textEdits.toList ++ es, (List.prefix_append_right_inj _).mpr hprefix, ?_, ?_⟩
      · rw [final, hrun]
        exact hlands.append hrest
      · rw [hrun]
        exact fun hok => congrArg _ (hall hok)

end Edit

/-! ### The server's copy -/

section Server

theorem inStepAt_congr (hstate : w'.doc.states u = w.doc.states u) (hconn : w'.conn = w.conn)
    (h : InStepAt u w) : InStepAt u w' := by
  unfold InStepAt tracked at *
  rw [hconn, hstate]
  exact h

/-- A write of a document of which the server is told under its own URI. -/
theorem writeFile_in_step {content : Text} (hv : c.Canonical v) (hwrite : c.writeFile v content w = .ok () w')
    (h : InStepAt u w) : InStepAt u w' := by
  obtain ⟨p, bytes, hp, -, -, hend⟩ := writeFile_ok hwrite
  cases hs : w.doc.states v with
  | none =>
    rw [hs] at hend
    rw [hend]
    exact h
  | some d =>
    rw [hs] at hend
    obtain ⟨v', hv', hw'⟩ := hend
    obtain rfl := hv.eq_of_ok hp hv'
    unfold InStepAt tracked at h ⊢
    have hsent : w'.conn.sent = w.conn.sent ++ [.didChange v' (d.version + 1) content] := by
      rw [hw']
      rfl
    have hstate : w'.doc.states u = if u = v' then some ⟨content, d.version + 1, d.encoding⟩
        else w.doc.states u := by
      rw [hw', World.sendAll_doc, DocumentStateManager.updateContent_states, hs]
      rfl
    rw [hsent, serverMap_append, hstate, List.foldl_cons, List.foldl_nil, Mirror.receive]
    by_cases huv : u = v'
    · subst huv
      rw [h, hs]
      simp
    · rw [if_neg huv]
      split_ifs
      · exact (Function.update_of_ne huv ..).trans h
      · exact h

theorem createFile_in_step {change : CreateFile} (hexact : c.Canonical change.uri)
    (hcreate : c.applyCreateFile change w = .ok () w') (h : InStepAt u w) : InStepAt u w' := by
  have hwrite : ∀ {path w₁}, (c.createParents path >>= fun _ => c.writeFile change.uri []) w₁ = .ok () w' →
      InStepAt u w₁ → InStepAt u w' := by
    intro path w₁ hrun h₁
    obtain ⟨_, w₂, hparents, hwrite⟩ := bind_ok_elim hrun
    obtain ⟨hdoc, hconn⟩ := (filesOnly_createParents path).of_ok hparents
    exact writeFile_in_step hexact hwrite (inStepAt_congr (congrArg (·.states u) hdoc) hconn h₁)
  obtain ⟨path, -, hrest⟩ := convert_bind_ok hcreate
  obtain ⟨there, w₁, hthere, hrest⟩ := bind_ok_elim hrest
  obtain ⟨hdoc, hconn⟩ := (filesOnly_os _).of_ok hthere
  have h₁ : InStepAt u w₁ := inStepAt_congr (congrArg (·.states u) hdoc) hconn h
  split_ifs at hrest
  · exact hwrite hrest h₁
  · cases hrest
    exact h₁
  · cases hrest
  · exact hwrite hrest h₁

theorem change_in_step {change : DocumentChange} (halone : Alone u change) (hexact : ExactChange c change)
    (hchange : c.applyChange change w = .ok () w') (h : InStepAt u w) : InStepAt u w' := by
  cases change with
  | textDocumentEdit edit =>
    obtain ⟨content, -, hwrite⟩ := applyTextDocumentEdit_ok hchange
    exact writeFile_in_step hexact hwrite h
  | createFile change => exact createFile_in_step hexact hchange h
  | renameFile change =>
    obtain ⟨hdoc, hconn⟩ := touches_ok (applyRenameFile_touches change w) hchange
    refine inStepAt_congr ?_ hconn h
    rw [hdoc]
    split_ifs
    · rfl
    · rw [moveTracked_states halone.2, if_neg halone.1.symm]
  | deleteFile change =>
    obtain ⟨hdoc, hconn⟩ := touches_ok (applyDeleteFile_touches change w) hchange
    refine inStepAt_congr ?_ hconn h
    rw [hdoc]
    split_ifs
    · rfl
    · rw [DocumentStateManager.unregister_states, if_neg (Ne.symm halone)]

theorem changes_in_step : ∀ {changes : List DocumentChange} {w : World},
    (∀ change ∈ changes, Alone u change) → (∀ change ∈ changes, ExactChange c change) →
      c.applyDocumentChanges changes w = .ok () w' → InStepAt u w → InStepAt u w'
  | [], _, _, _, h, hstep => by
    cases h
    exact hstep
  | change :: rest, w, halone, hexact, h, hstep => by
    obtain ⟨_, w₁, hchange, hrest⟩ := bind_ok_elim h
    have hfirst := change_in_step (halone change List.mem_cons_self) (hexact change List.mem_cons_self)
      hchange hstep
    exact changes_in_step (fun r hr => halone r (List.mem_cons_of_mem _ hr))
      (fun r hr => hexact r (List.mem_cons_of_mem _ hr)) hrest hfirst

end Server

/-- **A document that nothing else in an edit concerns has the first of the yielded edits,
however the edit ends, and all of them if it is applied**; then the server has it as the
client does, if it had before and the edited URIs lead back to themselves. -/
theorem edit_lands {edit : WorkspaceEdit} (hu : c.Canonical u)
    (halone : ∀ change ∈ changesOf edit, Alone u change) (w : World) :
    (∃ es, es <+: iterTextDocumentEdits edit ∧ Lands u es w (final (c.applyWorkspaceEdit edit) w)) ∧
    ∀ w', c.applyWorkspaceEdit edit w = .ok () w' → Lands u (iterTextDocumentEdits edit) w w' ∧
      ((∀ change ∈ changesOf edit, ExactChange c change) → InStepAt u w → InStepAt u w') := by
  rw [iterTextDocumentEdits_eq, applyWorkspaceEdit_eq]
  obtain ⟨es, hprefix, hlands, hall⟩ := changes_land hu w halone
  refine ⟨⟨es, hprefix, hlands⟩, fun w' h => ⟨?_, fun hexact => changes_in_step halone hexact h⟩⟩
  obtain rfl := hall ⟨w', h⟩
  rw [final, h] at hlands
  exact hlands

/-! ### Two edits of one document, and a new file between them -/

def twoEdits : WorkspaceEdit :=
  ⟨some [.textDocumentEdit ⟨Small.uriA, some 0, [.textEdit ⟨⟨0, 0⟩, ⟨0, 1⟩⟩ "y".toList]⟩,
    .createFile ⟨uriB, none⟩,
    .textDocumentEdit ⟨Small.uriA, none, [.textEdit ⟨⟨0, 0⟩, ⟨0, 0⟩⟩ "z".toList]⟩], none⟩

theorem edit_lands_twice : ∃ w', Small.client.applyWorkspaceEdit twoEdits openA = .ok () w' ∧
    Lands Small.uriA (iterTextDocumentEdits twoEdits) openA w' ∧ InStepAt Small.uriA w' := by
  have hrun : returned (Small.client.applyWorkspaceEdit twoEdits openA) (fun _ _ => ()) = some () := by
    decide +kernel
  obtain ⟨_, w', h, -⟩ := returned_some hrun
  have hne : uriB ≠ Small.uriA := by decide
  have hb : Small.client.Canonical uriB := ⟨Path.ofText "/ws/b".toList, by decide, by decide⟩
  have halone : ∀ change ∈ changesOf twoEdits, Alone Small.uriA change := by
    simp only [changesOf, twoEdits, List.forall_mem_cons]
    exact ⟨trivial, hne, trivial, List.forall_mem_nil _⟩
  have hexact : ∀ change ∈ changesOf twoEdits, ExactChange Small.client change := by
    simp only [changesOf, twoEdits, List.forall_mem_cons]
    exact ⟨Small.uriA_canonical, hb, Small.uriA_canonical, List.forall_mem_nil _⟩
  have hopen : InStepAt Small.uriA openA := by
    unfold InStepAt
    decide
  obtain ⟨hlands, hstep⟩ := (edit_lands Small.uriA_canonical halone openA).2 w' h
  exact ⟨w', h, hlands, hstep hexact hopen⟩

end Contents
end LspClient
