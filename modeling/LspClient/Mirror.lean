/-
# The server's copy of the open documents

A server that keeps the documents it is told of: `receive` is what one
notification does to its map, and `serverMap` the map it has after all of
them. Along a sequential run of brackets, writes and text edits it holds what
the `DocumentStateManager` holds, and the changes of a document are numbered
from 1 since it was opened. What carries the induction is `Follows`: a tracked
document's version is the number of changes sent since it was opened.

A file that was written, decoded, is the tracked content exactly where the text
comes back from the encoding of the document (`mirror_follows`); that of a file
in `cp932` need not (`wave_dash_lost`).

Key definitions: `serverMap`, `Consecutive`, `Session`, `step`, `Follows`, `ComesBack`.
Key theorems: `follows_step`, `saved_iff`, `mirror_follows`, `wave_dash_lost`.
-/
import LspClient.Lib.Run
import LspClient.WorkspaceEdit

namespace LspClient
namespace Mirror

open ByteStream Run

/-! ### The server -/

/-- The documents a server has open: their version and text. -/
abbrev ServerMap := Uri → Option (ℤ × Text)

/-- What a notification does to the server's map. -/
def receive (m : ServerMap) : Notification → ServerMap
  | .didOpen u _ version text => Function.update m u (some (version, text))
  | .didChange u version text =>
    if (m u).isSome then Function.update m u (some (version, text)) else m
  | .didClose u => Function.update m u none

/-- The map a server has built from the notifications sent to it. -/
def serverMap (sent : List Notification) : ServerMap := sent.foldl receive fun _ => none

/-- What the client tracks. -/
def tracked (m : DocumentStateManager) : ServerMap :=
  fun u => (m.states u).map fun d => (d.version, d.content)

/-- One more notification, in the number of changes of a document since it was opened. -/
def countChange (u : Uri) (n : ℤ) : Notification → ℤ
  | .didOpen v _ _ _ => if v = u then 0 else n
  | .didChange v _ _ => if v = u then n + 1 else n
  | .didClose _ => n

/-- The number of changes of a document since it was opened last. -/
def changesSince (u : Uri) (sent : List Notification) : ℤ := sent.foldl (countChange u) 0

/-- Every change is to a document the server has open, and its version is its
number since the document was opened. -/
def Consecutive (sent : List Notification) : Prop :=
  ∀ pre u version text post, sent = pre ++ .didChange u version text :: post →
    (serverMap pre u).isSome = true ∧ version = changesSince u pre + 1

theorem serverMap_append (sent msgs : List Notification) :
    serverMap (sent ++ msgs) = msgs.foldl receive (serverMap sent) := List.foldl_append

theorem changesSince_append (u : Uri) (sent msgs : List Notification) :
    changesSince u (sent ++ msgs) = msgs.foldl (countChange u) (changesSince u sent) :=
  List.foldl_append

theorem consecutive_nil : Consecutive [] := fun pre u version text post h => by
  cases pre <;> cases h

/-- One more notification. -/
theorem consecutive_snoc {sent : List Notification} {msg : Notification} (h : Consecutive sent)
    (hmsg : ∀ u version text, msg = .didChange u version text →
      (serverMap sent u).isSome = true ∧ version = changesSince u sent + 1) :
    Consecutive (sent ++ [msg]) := by
  intro pre u version text post hsplit
  rcases List.eq_nil_or_concat post with rfl | ⟨post, last, rfl⟩
  · -- the change is the last notification
    obtain ⟨rfl, hlast⟩ := List.append_inj' hsplit rfl
    exact hmsg u version text (List.cons.inj hlast).1
  · refine h pre u version text post ?_
    have hsplit' : sent ++ [msg] = (pre ++ .didChange u version text :: post) ++ [last] := by
      rw [hsplit, List.append_assoc, List.cons_append, List.concat_eq_append]
    exact (List.append_inj' hsplit' rfl).1

/-- Messages that are no changes leave the versions consecutive. -/
theorem consecutive_append_map {α : Type} {sent : List Notification} {message : α → Notification}
    (hmsg : ∀ a u version text, message a ≠ .didChange u version text) (h : Consecutive sent)
    (l : List α) : Consecutive (sent ++ l.map message) := by
  induction l generalizing sent with
  | nil => rwa [List.map_nil, List.append_nil]
  | cons a l ih =>
    have hsnoc := consecutive_snoc h fun u version text hm => absurd hm (hmsg a u version text)
    have hrest := ih hsnoc
    rwa [List.append_assoc] at hrest

/-- A group of documents is opened. -/
theorem receive_opened (languageId : Text) (u : Uri) : ∀ (l : List (Uri × Text)) (m : ServerMap),
    (l.map Prod.fst).Nodup →
    (∀ t, (u, t) ∈ l →
      (l.map fun e => Notification.didOpen e.1 languageId 0 e.2).foldl receive m u = some (0, t)) ∧
    ((∀ t, (u, t) ∉ l) →
      (l.map fun e => Notification.didOpen e.1 languageId 0 e.2).foldl receive m u = m u)
  | [], _, _ => ⟨fun t ht => by (cases ht), fun _ => rfl⟩
  | (v, t) :: l, m, hnd => by
    rw [List.map_cons, List.nodup_cons] at hnd
    obtain ⟨hin, hout⟩ := receive_opened languageId u l (receive m (.didOpen v languageId 0 t)) hnd.2
    rw [List.map_cons, List.foldl_cons]
    constructor
    · intro t' ht'
      rcases List.mem_cons.mp ht' with h | h
      · cases h
        -- no other document of the group has this URI
        rw [hout fun s hs => hnd.1 (List.mem_map.mpr ⟨_, hs, rfl⟩)]
        exact Function.update_self _ _ _
      · exact hin t' h
    · intro hno
      rw [hout fun s hs => hno s (List.mem_cons_of_mem _ hs)]
      refine Function.update_of_ne (fun huv => ?_) _ _
      subst huv
      exact hno t List.mem_cons_self

theorem countChange_opened (languageId : Text) (u : Uri) : ∀ (l : List (Uri × Text)) (n : ℤ),
    (l.map fun e => Notification.didOpen e.1 languageId 0 e.2).foldl (countChange u) n =
      if u ∈ l.map Prod.fst then 0 else n
  | [], _ => rfl
  | (v, t) :: l, n => by
    rw [List.map_cons, List.foldl_cons, countChange_opened languageId u l, countChange]
    by_cases hl : u ∈ l.map Prod.fst
    · simp [hl]
    · by_cases hv : v = u
      · simp [hv]
      · have hu : u ≠ v := fun h => hv h.symm
        simp [hl, hv, hu]

/-- A group of documents is closed. -/
theorem receive_closed (u : Uri) : ∀ (us : List Uri) (m : ServerMap),
    (us.map Notification.didClose).foldl receive m u = if u ∈ us then none else m u
  | [], _ => rfl
  | v :: us, m => by
    rw [List.map_cons, List.foldl_cons, receive_closed u us, receive]
    by_cases hus : u ∈ us
    · simp [hus]
    · by_cases hv : u = v
      · simp [hv]
      · simp [hus, hv]

theorem countChange_closed (u : Uri) : ∀ (us : List Uri) (n : ℤ),
    (us.map Notification.didClose).foldl (countChange u) n = n
  | [], _ => rfl
  | _ :: us, n => countChange_closed u us n

/-! ### Sequential runs -/

/-- The world, and the URIs held by the brackets that are open. -/
structure Session where
  world : World
  brackets : List (List Uri)

/-- An operation. -/
inductive Act where
  | enter (order : Order) (filePaths : List Path)
  | leave (i : ℕ) (order : Order)
  | write (uri : Uri) (content : Text)
  | edit (edit : TextDocumentEdit)

variable (c : Client)

/-- One operation, if it does not fail. -/
def step (s : Session) : Act → Option Session
  | .enter order filePaths =>
    returned (c.openFilesEnter order filePaths s.world) fun uris w => ⟨w, uris :: s.brackets⟩
  | .leave i order =>
    match s.brackets[i]? with
    | some uris =>
      returned (c.openFilesExit order uris s.world) fun _ w => ⟨w, s.brackets.eraseIdx i⟩
    | none => none
  | .write uri content => returned (c.writeFile uri content s.world) fun _ w => ⟨w, s.brackets⟩
  | .edit edit => returned (c.applyTextDocumentEdit edit s.world) fun _ w => ⟨w, s.brackets⟩

/-- A session before anything was opened or sent. -/
def Session.Fresh (s : Session) : Prop :=
  s.world.doc = .empty ∧ s.world.conn.sent = [] ∧ s.brackets = []

/-- The conversion between URIs and paths is exact on what the operation names. -/
def Exact : Act → Prop
  | .enter _ filePaths => ∀ p ∈ filePaths, ∀ u, c.asUri p = .ok u → c.Canonical u
  | .leave _ _ => True
  | .write uri _ => c.Canonical uri
  | .edit edit => c.Canonical edit.uri

/-- The server has what the client tracks, and every change had the next number. -/
structure InStep (w : World) : Prop where
  map : serverMap w.conn.sent = tracked w.doc
  consecutive : Consecutive w.conn.sent

/-- If the document is tracked, its file, decoded, is the tracked content. -/
def Saved (w : World) (u : Uri) : Prop :=
  ∀ d, w.doc.states u = some d → ∃ p bytes, c.fromLocalUri u = .ok p ∧
    FileTree.fileAt (c.route p) w.fs = some bytes ∧
    c.codecs.decode d.encoding bytes = some d.content

/-- The document that an operation writes. -/
def Act.written : Act → Option Uri
  | .write uri _ => some uri
  | .edit e => some e.uri
  | _ => none

/-- The text that an operation writes to the tracked document. -/
def Act.text (d : DocumentState) : Act → Text
  | .write _ content => content
  | .edit e => applyTextEdits d.content e.edits
  | _ => d.content

/-- What an operation writes to a tracked document is what is read from the bytes it is
written as, in the encoding that was found when the document was opened. -/
def ComesBack (s : Session) (a : Act) : Prop :=
  ∀ u d b, a.written = some u → s.world.doc.states u = some d →
    c.codecs.encode d.encoding (a.text d) = some b → c.codecs.decode d.encoding b = some (a.text d)

/-- The server is in step, and the file that was written is what is tracked. -/
structure Mirrors (a : Act) (t : Session) : Prop where
  inStep : InStep t.world
  saved : ∀ u, a.written = some u → Saved c t.world u

/-- What carries the induction. -/
structure Follows (w : World) : Prop extends InStep w where
  version : ∀ u d, w.doc.states u = some d → d.version = changesSince u w.conn.sent
  canonical : ∀ u, (w.doc.states u).isSome = true → c.Canonical u

variable {c} {w w' : World}

/-- Entering a bracket. -/
theorem Follows.opens (hw : Follows c w) {new : NewStates} {l : List (Uri × Text)}
    (ho : c.Opens w w' new l) : Follows c w' := by
  have hmem : ∀ u t, (u, t) ∈ l ↔ ∃ d, new.lookup u = some d ∧ d.content = t := fun u t =>
    ho.perm.mem_iff.trans NewStates.mem_contents
  have hnodup : (l.map Prod.fst).Nodup :=
    (ho.perm.map Prod.fst).nodup_iff.mpr new.contents_nodup
  have hsent : w'.conn.sent =
      w.conn.sent ++ l.map fun e : Uri × Text => .didOpen e.1 c.languageId 0 e.2 := by
    rw [ho.world]
    rfl
  have hdoc := ho.states
  constructor
  · constructor
    · funext u
      obtain ⟨hin, hout⟩ := receive_opened c.languageId u l (serverMap w.conn.sent) hnodup
      rw [hsent, serverMap_append, tracked, hdoc]
      cases hu : new.lookup u with
      | none =>
        have hno : ∀ t, (u, t) ∉ l := fun t ht => by
          obtain ⟨d, hd, -⟩ := (hmem u t).mp ht
          rw [hu] at hd
          cases hd
        rw [hout hno, hw.map]
        rfl
      | some d =>
        rw [hin d.content ((hmem u _).mpr ⟨d, hu, rfl⟩)]
        simp [(ho.fresh u d hu).1]
    · rw [hsent]
      exact consecutive_append_map (by simp) hw.consecutive _
  · intro u d hd
    rw [hsent, changesSince_append, countChange_opened]
    rw [hdoc] at hd
    cases hu : new.lookup u with
    | none =>
      rw [hu, Option.none_or] at hd
      rw [if_neg, hw.version u d hd]
      intro hmap
      obtain ⟨⟨v, t⟩, he, rfl⟩ := List.mem_map.mp hmap
      obtain ⟨d', hd', -⟩ := (hmem _ _).mp he
      rw [hu] at hd'
      cases hd'
    | some d' =>
      rw [hu] at hd
      cases hd
      rw [if_pos (List.mem_map.mpr ⟨(u, d.content), (hmem u _).mpr ⟨d, hu, rfl⟩, rfl⟩)]
      exact (ho.fresh u d hu).1
  · intro u hu
    rw [hdoc] at hu
    cases hn : new.lookup u with
    | none => exact hw.canonical u (by rwa [hn] at hu)
    | some d => exact (ho.fresh u d hn).2.2

/-- Leaving a bracket. -/
theorem Follows.closes (hw : Follows c w) {closed : List Uri}
    (hw' : w' = ({ w with doc := w'.doc }).sendAll (closed.map .didClose))
    (hdoc : ∀ u, w'.doc.states u = if u ∈ closed then none else w.doc.states u) :
    Follows c w' := by
  have hsent : w'.conn.sent = w.conn.sent ++ closed.map .didClose := by
    rw [hw']
    rfl
  have hheld : ∀ {u}, (w'.doc.states u).isSome = true → w'.doc.states u = w.doc.states u := by
    intro u hu
    rw [hdoc] at hu ⊢
    split_ifs at hu ⊢ with hc
    · cases hu
    · rfl
  constructor
  · constructor
    · funext u
      rw [hsent, serverMap_append, receive_closed, tracked, hdoc, hw.map]
      split_ifs <;> rfl
    · rw [hsent]
      exact consecutive_append_map (by simp) hw.consecutive _
  · intro u d hd
    rw [hsent, changesSince_append, countChange_closed]
    rw [hheld (by rw [hd]; rfl)] at hd
    exact hw.version u d hd
  · intro u hu
    exact hw.canonical u (hheld hu ▸ hu)

/-- The server is told of the next version of a tracked document. -/
theorem Follows.changes (hw : Follows c w) {u : Uri} {d : DocumentState} {content : Text}
    (hs : w.doc.states u = some d)
    (hdoc : ∀ v, w'.doc.states v =
      if v = u then some ⟨content, d.version + 1, d.encoding⟩ else w.doc.states v)
    (hsent : w'.conn.sent = w.conn.sent ++ [.didChange u (d.version + 1) content]) : Follows c w' := by
  have hopen : serverMap w.conn.sent u = some (d.version, d.content) := by
    rw [hw.map, tracked, hs]
    rfl
  refine ⟨⟨?_, ?_⟩, ?_, ?_⟩
  · funext v
    rw [hsent, serverMap_append, tracked, hdoc]
    by_cases hvu : v = u
    · subst hvu
      simp [receive, hopen]
    · rw [if_neg hvu, List.foldl_cons, List.foldl_nil, receive, hopen, Option.isSome_some, if_pos rfl,
        Function.update_of_ne hvu, hw.map]
      rfl
  · rw [hsent]
    refine consecutive_snoc hw.consecutive fun v version text hmsg => ?_
    cases hmsg
    rw [hopen, hw.version u d hs]
    exact ⟨rfl, rfl⟩
  · intro v d' hd'
    rw [hsent, changesSince_append]
    rw [hdoc] at hd'
    simp only [List.foldl_cons, List.foldl_nil, countChange]
    by_cases hvu : v = u
    · subst hvu
      rw [if_pos rfl] at hd' ⊢
      cases hd'
      rw [hw.version v d hs]
    · rw [if_neg hvu] at hd'
      rw [if_neg fun h => hvu h.symm]
      exact hw.version v d' hd'
  · intro v hv
    rw [hdoc] at hv
    by_cases hvu : v = u
    · exact hvu ▸ hw.canonical u (by rw [hs]; rfl)
    · rw [if_neg hvu] at hv
      exact hw.canonical v hv

/-- Writing a document. -/
theorem Follows.writes (hw : Follows c w) {u : Uri} {content : Text} (hu : c.Canonical u)
    (h : c.writeFile u content w = .ok () w') : Follows c w' := by
  obtain ⟨p, bytes, hp, -, -, hrest⟩ := Client.writeFile_ok h
  cases hs : w.doc.states u with
  | none =>
    rw [hs] at hrest
    simp only at hrest
    rw [hrest]
    exact ⟨⟨hw.map, hw.consecutive⟩, hw.version, hw.canonical⟩
  | some d =>
    rw [hs] at hrest
    obtain ⟨v, hv, hw'⟩ := hrest
    obtain rfl := hu.eq_of_ok hp hv
    have hdoc : ∀ u, w'.doc.states u =
        if u = v then some ⟨content, d.version + 1, d.encoding⟩ else w.doc.states u := by
      intro u
      rw [hw', World.sendAll_doc, DocumentStateManager.updateContent_states, hs]
      rfl
    have hsent : w'.conn.sent = w.conn.sent ++ [.didChange v (d.version + 1) content] := by
      rw [hw']
      rfl
    exact hw.changes hs hdoc hsent

/-- **One operation.** -/
theorem follows_step {s t : Session} {a : Act} (hs : Follows c s.world) (ha : Exact c a)
    (h : step c s a = some t) : Follows c t.world := by
  cases a with
  | enter order filePaths =>
    obtain ⟨uris, w, hok, rfl⟩ := returned_some h
    obtain ⟨new, l, ho⟩ := Client.openFilesEnter_ok ha hok
    exact hs.opens ho
  | leave i order =>
    simp only [step] at h
    cases hb : s.brackets[i]? with
    | none => rw [hb] at h; cases h
    | some uris =>
      rw [hb] at h
      obtain ⟨_, w, hok, rfl⟩ := returned_some h
      obtain ⟨closed, hw, hdoc⟩ := Client.openFilesExit_ok hs.canonical hok
      exact hs.closes hw hdoc
  | write uri content =>
    obtain ⟨_, w, hok, rfl⟩ := returned_some h
    exact hs.writes ha hok
  | edit e =>
    obtain ⟨_, w, hok, rfl⟩ := returned_some h
    obtain ⟨content, -, hwrite⟩ := Client.applyTextDocumentEdit_ok hok
    exact hs.writes ha hwrite

/-! ### What is in the file -/

/-- The file that was written is read as what is tracked exactly if the text comes back. -/
theorem saved_write_iff {u : Uri} {content : Text} (h : c.writeFile u content w = .ok () w') :
    Saved c w' u ↔ ∀ d b, w.doc.states u = some d → c.codecs.encode d.encoding content = some b →
      c.codecs.decode d.encoding b = some content := by
  obtain ⟨p, bytes, hp, hbytes, hfile, hrest⟩ := Client.writeFile_ok h
  cases hs : w.doc.states u with
  | none =>
    rw [hs] at hrest
    simp only at hrest
    refine iff_of_true (fun d hd => ?_) (fun d b hd => by cases hd)
    rw [hrest, hs] at hd
    cases hd
  | some d =>
    rw [hs] at hrest
    obtain ⟨v, -, hw'⟩ := hrest
    have henc : c.codecs.encode d.encoding content = some bytes := by
      simpa [DocumentStateManager.getEncoding, hs] using hbytes
    have hstate : w'.doc.states u = some ⟨content, d.version + 1, d.encoding⟩ := by
      rw [hw', World.sendAll_doc, DocumentStateManager.updateContent_states, if_pos rfl, hs]
      rfl
    constructor
    · intro hsaved d' b hd hb
      cases hd
      obtain ⟨p', bytes', hp', hfile', hdec⟩ := hsaved _ hstate
      cases hp.symm.trans hp'
      cases hfile.symm.trans hfile'
      cases henc.symm.trans hb
      exact hdec
    · intro hback d' hd'
      cases hstate.symm.trans hd'
      exact ⟨p, bytes, hp, hfile, hback d bytes rfl henc⟩

/-- **What an operation has written is what is tracked exactly if its text comes back.** -/
theorem saved_iff {s t : Session} {a : Act} (ha : Exact c a) (h : step c s a = some t) :
    (∀ u, a.written = some u → Saved c t.world u) ↔ ComesBack c s a := by
  cases a with
  | enter order filePaths => exact iff_of_true (fun u hu => by cases hu) fun u d b hu => by cases hu
  | leave i order => exact iff_of_true (fun u hu => by cases hu) fun u d b hu => by cases hu
  | write uri content =>
    obtain ⟨_, w, hok, rfl⟩ := returned_some h
    have hiff := saved_write_iff hok
    constructor
    · rintro hsaved u d b ⟨⟩
      exact hiff.mp (hsaved uri rfl) d b
    · rintro hback u ⟨⟩
      exact hiff.mpr fun d b => hback uri d b rfl
  | edit e =>
    obtain ⟨_, w, hok, rfl⟩ := returned_some h
    obtain ⟨content, hedited, hwrite⟩ := Client.applyTextDocumentEdit_ok hok
    -- the edits start from the tracked content
    have hcontent : ∀ d, s.world.doc.states e.uri = some d → content = applyTextEdits d.content e.edits :=
      fun d hd => Client.editedContent_ok ha hd hedited
    have hiff := saved_write_iff hwrite
    constructor
    · rintro hsaved u d b ⟨⟩ hd
      have hback := hiff.mp (hsaved e.uri rfl) d b hd
      rwa [hcontent d hd] at hback
    · rintro hback u ⟨⟩
      refine hiff.mpr fun d b hd => ?_
      have hd' := hback e.uri d b rfl hd
      rwa [hcontent d hd]

theorem fresh_follows {s : Session} (h : s.Fresh) : Follows c s.world := by
  obtain ⟨hdoc, hsent, -⟩ := h
  have hnone : ∀ u, s.world.doc.states u = none := fun u => by rw [hdoc]; rfl
  constructor
  · constructor
    · funext u
      rw [hsent, tracked, hnone]
      rfl
    · rw [hsent]
      exact consecutive_nil
  · intro u d hd
    rw [hnone] at hd
    cases hd
  · intro u hu
    rw [hnone] at hu
    cases hu

/-- **The server's copy of the open documents follows the client's.** Along
every sequential run, after each operation the server has the versions and the
contents that the client tracks, and every change sent had the next version
since its document was opened. Each file that is written then holds the tracked
content exactly if every text that is written comes back from its encoding. -/
theorem mirror_follows {s : Session} (hs : s.Fresh) {as : List Act} (has : ∀ a ∈ as, Exact c a) :
    Each (step c) (fun _ _ t => InStep t.world) s as ∧
      (Each (step c) (fun _ a t => Mirrors c a t) s as ↔
        Each (step c) (fun s a _ => ComesBack c s a) s as) := by
  have hall : Each (step c) (fun s a t => InStep t.world ∧ (Mirrors c a t ↔ ComesBack c s a)) s as := by
    refine each_of_along (I := fun s => Follows c s.world) (C := fun _ a => Exact c a) ?_ as
      (fresh_follows hs) (along_of_forall as s has)
    intro s a t hI ha ht
    have hnext := follows_step hI ha ht
    have hsaved := saved_iff ha ht
    exact ⟨hnext, hnext.toInStep, fun h => hsaved.mp h.saved, fun h => ⟨hnext.toInStep, hsaved.mpr h⟩⟩
  exact ⟨each_mono (fun _ _ _ h => h.1) as hall, each_congr as (each_mono (fun _ _ _ h => h.2) as hall)⟩

/-- A file that two brackets hold, one of them twice, while it is written and edited. -/
def nested : List Act :=
  let a := Path.ofText "a".toList
  [.enter .inOrder [a], .enter .inOrder [a, a], .write Small.uriA "y".toList, .leave 0 .inOrder,
    .edit ⟨Small.uriA, some 1, [.textEdit ⟨⟨0, 0⟩, ⟨0, 1⟩⟩ "z".toList]⟩, .leave 0 .inOrder]

theorem mirror_follows_nested :
    ((exec (step Small.client) ⟨Small.world [("a".toList, "x".toList)], []⟩ nested).map
      (·.world.conn.sent) = some [.didOpen Small.uriA "python".toList 0 "x".toList,
        .didChange Small.uriA 1 "y".toList, .didChange Small.uriA 2 "z".toList,
        .didClose Small.uriA]) ∧
    Each (step Small.client) (fun _ a t => Mirrors Small.client a t)
      ⟨Small.world [("a".toList, "x".toList)], []⟩ nested := by
  have ha : Small.client.asUri (Path.ofText "a".toList) = .ok Small.uriA := by decide
  have hexact : ∀ p, p = Path.ofText "a".toList → ∀ u, Small.client.asUri p = .ok u →
      Small.client.Canonical u := by
    rintro p rfl u hu
    cases ha.symm.trans hu
    exact Small.uriA_canonical
  have hnested : ∀ a ∈ nested, Exact Small.client a := by
    intro a hmem
    simp only [nested, List.mem_cons, List.not_mem_nil, or_false] at hmem
    rcases hmem with rfl | rfl | rfl | rfl | rfl | rfl
    · intro p hp
      exact hexact p (by simpa using hp)
    · intro p hp
      exact hexact p (by simpa using hp)
    · exact Small.uriA_canonical
    · trivial
    · exact Small.uriA_canonical
    · trivial
  obtain ⟨hstep, hiff⟩ := mirror_follows (c := Small.client)
    (s := ⟨Small.world [("a".toList, "x".toList)], []⟩) ⟨rfl, rfl, rfl⟩ hnested
  refine ⟨by decide +kernel, hiff.mpr (each_mono (fun s a t _ => ?_) nested hstep)⟩
  exact fun _ d _ _ _ hb => Small.decode_encode d.encoding hb

/-! ### A file in `cp932` -/

/-- The two-byte characters of a small text; `cp932` encodes the wave dash as the
fullwidth tilde. -/
def cp932Pairs : List (Char × Bytes) :=
  [('日', [0x93, 0xfa]), ('本', [0x96, 0x7b]), ('語', [0x8c, 0xea]), ('～', [0x81, 0x60]),
    ('〜', [0x81, 0x60])]

def decodeCp932 : Bytes → Option Text
  | [] => some []
  | b :: rest =>
    if b.toNat < 0x80 then (decodeCp932 rest).map (Char.ofNat b.toNat :: ·)
    else match rest with
      | [] => none
      | b' :: rest => do
        let e ← cp932Pairs.find? (·.2 == [b, b'])
        let t ← decodeCp932 rest
        return e.1 :: t

def encodeCp932 (t : Text) : Option Bytes :=
  (t.mapM fun c => if c.toNat < 0x80 then some [c.toNat.toUInt8] else cp932Pairs.lookup c).map
    List.flatten

/-- The client, of a runtime that takes every file for `cp932`. -/
def cp932Client : Client :=
  { Small.client with
    codecs :=
      { best := fun b => (decodeCp932 b).map fun t => (t, "cp932".toList)
        encode := fun _ => encodeCp932
        decode := fun _ => decodeCp932 } }

/-- A world whose file `/ws/a` holds these bytes. -/
def worldOf (bytes : Bytes) : World :=
  let w := Small.world []
  { w with fs := w.fs.apply [(["ws".toList, "a".toList], some (.file bytes))] }

/-- A client whose file is Japanese text. -/
def japanese : Session := ⟨worldOf [0x93, 0xfa, 0x96, 0x7b, 0x8c, 0xea], []⟩

/-- The file is opened, and written with a wave dash at its end. -/
def waveDash : List Act := [.enter .inOrder [Path.ofText "a".toList], .write Small.uriA "日本語〜".toList]

/-- **A text that does not come back**: the file has a fullwidth tilde where the
tracked content has a wave dash. -/
theorem wave_dash_lost : japanese.Fresh ∧ (∀ a ∈ waveDash, Exact cp932Client a) ∧
    ¬ Each (step cp932Client) (fun _ a t => Mirrors cp932Client a t) japanese waveDash := by
  have ha : cp932Client.asUri (Path.ofText "a".toList) = .ok Small.uriA := by decide
  refine ⟨⟨rfl, rfl, rfl⟩, ?_, fun hall => ?_⟩
  · simp only [waveDash, List.forall_mem_cons]
    refine ⟨fun p hp u hu => ?_, Small.uriA_canonical, List.forall_mem_nil _⟩
    obtain rfl := List.mem_singleton.mp hp
    cases ha.symm.trans hu
    exact Small.uriA_canonical
  · have hend : (exec (step cp932Client) japanese waveDash).map (fun t =>
        ((t.world.doc.states Small.uriA).map fun d => (d.content, d.encoding),
          FileTree.fileAt (cp932Client.route (Path.ofText "/ws/a".toList)) t.world.fs)) =
        some (some ("日本語〜".toList, "cp932".toList),
          some [0x93, 0xfa, 0x96, 0x7b, 0x8c, 0xea, 0x81, 0x60]) := by decide +kernel
    obtain ⟨t, hrun, ht⟩ := Option.map_eq_some_iff.mp hend
    obtain ⟨s, hopen, hrest⟩ := exec_cons_elim hrun
    obtain ⟨t', hwrite, hnil⟩ := exec_cons_elim hrest
    cases hnil
    obtain ⟨hstate, hfile⟩ := Prod.mk.inj ht
    obtain ⟨d, hd, hcontent⟩ := Option.map_eq_some_iff.mp hstate
    obtain ⟨hcontent, hencoding⟩ := Prod.mk.inj hcontent
    have hmirrors : Mirrors cp932Client (.write Small.uriA "日本語〜".toList) t :=
      (hall.2 s hopen).1 t hwrite
    obtain ⟨p, bytes, hp, hbytes, hdec⟩ := hmirrors.saved Small.uriA rfl d hd
    have hpath : cp932Client.fromLocalUri Small.uriA = .ok (Path.ofText "/ws/a".toList) := by decide
    cases hpath.symm.trans hp
    cases hfile.symm.trans hbytes
    rw [hcontent, hencoding] at hdec
    exact absurd hdec (by decide)

end Mirror
end LspClient
