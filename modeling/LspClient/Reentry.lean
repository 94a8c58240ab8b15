/-
# One client, one session after another

A client object may be entered again after it was left: the next session has a
server of its own, which knows nothing, and the `DocumentStateManager` that the
client was made with. So a document that is still tracked would not be
announced to the next server. Along runs whose operations return there is none:
what is counted and tracked is what the brackets hold (`balanced_step`), so a
session that has left its brackets leaves nothing behind, and in every session
the server has open exactly what the brackets hold, as the client tracks it
(`sessions_follow`).

Steps that fail are those of `LspClient.Release`. What they leave tracked stays
so: a new server is in step with the client, in the runs of its session, just
if the client tracks nothing when the session starts (`new_server_iff`).

Key definitions: `Act`, `step`, `Balanced`.
Key theorems: `balanced_step`, `sessions_follow`, `new_server_iff`.
-/
import LspClient.Mirror
import LspClient.Release

namespace LspClient
namespace Reentry

open Actions Client Run
open Mirror (Session InStep Follows serverMap)
open Release (Counted SameTracked held)

/-! ### Sessions -/

/-- A step of a client: an operation that returns, what other programs do to
the files, and the end of a session with the start of the next one. -/
inductive Act where
  | op (a : Mirror.Act)
  | other (fs : FileSystem)
  | restart (fails : List Notification → Notification → Option SendError)

variable (c : Client)

/-- One step. The body of a session has left its brackets when it ends. -/
def step (s : Session) : Act → Option Session
  | .op a => Mirror.step c s a
  | .other fs => some ⟨⟨fs, s.world.doc, s.world.conn⟩, s.brackets⟩
  | .restart fails =>
    if s.brackets.isEmpty then some ⟨⟨s.world.fs, s.world.doc, ⟨[], fails⟩⟩, []⟩ else none

/-- The conversion between URIs and paths is exact on what the operation names. -/
def Exact : Act → Prop
  | .op a => Mirror.Exact c a
  | _ => True

/-- What is counted, and what is tracked, is what the brackets hold. -/
structure Balanced (s : Session) : Prop where
  counted : Counted s.world.doc
  count : ∀ u, s.world.doc.refCounts.get u = held s u
  tracked : ∀ u, (s.world.doc.states u).isSome = true ↔ 0 < held s u

variable {c} {s t : Session} {w : World}

theorem held_cons (s : Session) (w : World) (uris : List Uri) (u : Uri) :
    held ⟨w, uris :: s.brackets⟩ u = uris.count u + held s u := by
  simp only [held, List.flatten_cons, List.count_append]

theorem held_eraseIdx {i : ℕ} {uris : List Uri} (hi : s.brackets[i]? = some uris) (w : World) (u : Uri) :
    held s u = uris.count u + held ⟨w, s.brackets.eraseIdx i⟩ u := by
  obtain ⟨hlt, rfl⟩ := List.getElem?_eq_some_iff.mp hi
  have hperm := (List.getElem_cons_eraseIdx_perm hlt).flatten.count_eq u
  rw [List.flatten_cons, List.count_append] at hperm
  exact hperm.symm

namespace Balanced

/-- Entering counts and tracks what it asks for. -/
theorem enter (h : Balanced s) {order : Order} {ps : List Path} {uris : List Uri}
    (hrun : c.openFilesEnter order ps s.world = .ok uris w) : Balanced ⟨w, uris :: s.brackets⟩ := by
  obtain ⟨w', hok, hdoc, hcut⟩ | ⟨e, w', herror, -⟩ := Release.openFilesEnter_cases (c := c) order ps s.world
  swap
  · rw [hrun] at herror
    cases herror
  rw [hrun] at hok
  cases hok
  -- the documents could be read
  obtain ⟨new, w₁, hopen⟩ : ∃ new w₁, c.openDocuments (Release.requested c ps) s.world = .ok new w₁ := by
    unfold Release.cutShort at hcut
    cases hopen : c.openDocuments (Release.requested c ps) s.world with
    | ok new w₁ => exact ⟨new, w₁, rfl⟩
    | error e w₁ =>
      rw [hopen] at hcut
      cases hcut
  have hfinal : final (c.openDocuments (Release.requested c ps)) s.world = w₁ := by
    unfold final
    rw [hopen]
  refine ⟨hdoc ▸ Release.opened_counted h.counted _, fun u => ?_, fun u => ?_⟩
  · change w.doc.refCounts.get u = _
    rw [hdoc, Release.opened_get, h.count, held_cons]
    omega
  · obtain ⟨-, hstates⟩ := openDocuments_ok hopen
    obtain ⟨hstate, hnew⟩ := hstates u
    have hold := h.tracked u
    have hmem : u ∈ Release.requested c ps ↔ 0 < (Release.requested c ps).count u :=
      List.count_pos_iff.symm
    change (w.doc.states u).isSome = true ↔ _
    rw [hdoc, hfinal, hstate, held_cons]
    split_ifs at hnew with hfresh
    · obtain ⟨d, hd, -⟩ := hnew
      have hpos := hmem.mp hfresh.1
      rw [hd]
      exact iff_of_true rfl (by omega)
    · rw [hnew, Option.none_or, hold]
      refine ⟨fun hpos => by omega, fun hpos => ?_⟩
      by_contra hzero
      have hin : u ∈ Release.requested c ps := hmem.mpr (by omega)
      refine hfresh ⟨hin, Option.not_isSome_iff_eq_none.mp fun hsome => hzero (hold.mp hsome)⟩

/-- Leaving takes away what the bracket holds. -/
theorem leave (h : Balanced s) {i : ℕ} {uris : List Uri} (hi : s.brackets[i]? = some uris)
    (hdoc : w.doc = (s.world.doc.close uris).2) : Balanced ⟨w, s.brackets.eraseIdx i⟩ := by
  refine ⟨hdoc ▸ h.counted.closes uris, fun u => ?_, fun u => ?_⟩
  · have hheld := held_eraseIdx hi w u
    have hcount := h.count u
    change w.doc.refCounts.get u = _
    rw [hdoc, h.counted.close_get]
    omega
  · have hheld := held_eraseIdx hi w u
    have hcount := h.count u
    have htracked := h.tracked u
    change (w.doc.states u).isSome = true ↔ _
    rw [hdoc]
    by_cases hu : u ∈ uris
    · have hpos := List.count_pos_iff.mpr hu
      by_cases hlast : s.world.doc.refCounts.get u ≤ uris.count u
      · obtain ⟨-, hstates, -⟩ := s.world.doc.close_released hu hlast
        rw [hstates]
        exact iff_of_false (by simp) (by omega)
      · obtain ⟨-, hstates, -⟩ := s.world.doc.close_held hu (by omega)
        rw [hstates, htracked]
        omega
    · obtain ⟨-, hstates, -⟩ := s.world.doc.close_untouched hu
      have hzero := List.count_eq_zero_of_not_mem hu
      rw [hstates, htracked]
      omega

theorem keep (h : Balanced s) (hsame : SameTracked s.world.doc w.doc) : Balanced ⟨w, s.brackets⟩ where
  counted := h.counted.of_sameTracked hsame
  count u := (congrArg (fun r => Counter.get r u) hsame.refCounts).trans (h.count u)
  tracked u := by
    rw [hsame.states u]
    exact h.tracked u

/-- A session that has left its brackets leaves nothing behind. -/
theorem eq_empty (h : Balanced s) (hnil : s.brackets = []) : s.world.doc = .empty := by
  refine h.counted.eq_empty fun u => ?_
  rw [h.count u, held, hnil]
  exact le_refl _

end Balanced

/-- **One operation.** -/
theorem balanced_op (h : Balanced s) {a : Mirror.Act} (ht : Mirror.step c s a = some t) : Balanced t := by
  cases a with
  | enter order ps =>
    obtain ⟨uris, w, hrun, rfl⟩ := returned_some ht
    exact h.enter hrun
  | leave i order =>
    simp only [Mirror.step] at ht
    cases hi : s.brackets[i]? with
    | none => rw [hi] at ht; cases ht
    | some uris =>
      rw [hi] at ht
      obtain ⟨_, w, hrun, rfl⟩ := returned_some ht
      have hdoc := Release.openFilesExit_final (c := c) order uris s.world
      unfold final at hdoc
      rw [hrun] at hdoc
      exact h.leave hi hdoc
  | write uri content =>
    obtain ⟨_, w, hrun, rfl⟩ := returned_some ht
    exact h.keep ((Release.keepsTracked_writeFile uri content).of_ok hrun)
  | edit e =>
    obtain ⟨_, w, hrun, rfl⟩ := returned_some ht
    exact h.keep ((Release.keepsTracked_textDocumentEdit e).of_ok hrun)

/-- **One step**, also from one session to the next. -/
theorem balanced_step (h : Balanced s) {a : Act} (ht : step c s a = some t) : Balanced t := by
  cases a with
  | op a => exact balanced_op h ht
  | other fs =>
    cases ht
    exact ⟨h.counted, h.count, h.tracked⟩
  | restart fails =>
    simp only [step] at ht
    split_ifs at ht with hnil
    cases ht
    have hempty := h.eq_empty (List.isEmpty_iff.mp hnil)
    refine ⟨h.counted, fun u => ?_, fun u => ?_⟩
    · change s.world.doc.refCounts.get u = _
      rw [hempty]
      rfl
    · change (s.world.doc.states u).isSome = true ↔ _
      rw [hempty]
      exact iff_of_false (by simp [DocumentStateManager.empty]) (by simp [held])

/-- A session that starts with nothing tracked is in step. -/
theorem follows_untracked {w : World} (hnone : ∀ u, w.doc.states u = none) (hsent : w.conn.sent = []) :
    Follows c w where
  map := by
    funext u
    rw [hsent, Mirror.tracked, hnone]
    rfl
  consecutive := hsent ▸ Mirror.consecutive_nil
  version u d hd := by
    rw [hnone] at hd
    cases hd
  canonical u hu := by
    rw [hnone] at hu
    cases hu

/-- The server has open what the brackets hold, as the client tracks it. -/
structure Holds (t : Session) : Prop where
  inStep : InStep t.world
  held : ∀ u, (serverMap t.world.conn.sent u).isSome = true ↔ 0 < held t u

theorem holds_of (hfollows : Follows c t.world) (h : Balanced t) : Holds t where
  inStep := hfollows.toInStep
  held u := by
    rw [hfollows.map, Mirror.tracked, Option.isSome_map]
    exact h.tracked u

/-- **Each session of a client is like its first one.** However many sessions
there are, after each operation the server of the session has open exactly the
documents that the brackets hold, with the versions and contents that the client
tracks. -/
theorem sessions_follow {s : Session} (hs : s.Fresh) {as : List Act} (has : ∀ a ∈ as, Exact c a) :
    Each (step c) (fun _ _ t => Holds t) s as := by
  refine each_of_along (I := fun s => Follows c s.world ∧ Balanced s) (C := fun _ a => Exact c a) ?_ as
    ⟨Mirror.fresh_follows hs, ?_⟩ (along_of_forall as s has)
  · intro s a t ⟨hfollows, hbalanced⟩ ha ht
    have hnext := balanced_step hbalanced ht
    suffices h : Follows c t.world from ⟨⟨h, hnext⟩, holds_of h hnext⟩
    cases a with
    | op a => exact Mirror.follows_step hfollows ha ht
    | other fs =>
      cases ht
      exact ⟨⟨hfollows.map, hfollows.consecutive⟩, hfollows.version, hfollows.canonical⟩
    | restart fails =>
      simp only [step] at ht
      split_ifs at ht with hnil
      cases ht
      -- the manager that the next session gets is empty
      have hempty := hbalanced.eq_empty (List.isEmpty_iff.mp hnil)
      exact follows_untracked (fun u => by rw [hempty]; rfl) rfl
  · obtain ⟨hdoc, -, hnil⟩ := hs
    have hheld : ∀ u, held s u = 0 := fun u => by rw [held, hnil]; rfl
    exact ⟨hdoc ▸ Counted.empty, fun u => by rw [hdoc, hheld]; rfl,
      fun u => by simp [hdoc, hheld, DocumentStateManager.empty]⟩

/-- A file that is written in one session and in the next, where it is opened anew. -/
theorem sessions_follow_two :
    let a := Path.ofText "a".toList
    let acts : List Act := [.op (.enter .inOrder [a]), .op (.write Small.uriA "y".toList),
      .op (.leave 0 .inOrder), .restart fun _ _ => none, .op (.enter .inOrder [a]),
      .op (.write Small.uriA "z".toList)]
    ((exec (step Small.client) ⟨Small.world [("a".toList, "x".toList)], []⟩ acts).map
      (·.world.conn.sent) = some [.didOpen Small.uriA "python".toList 0 "y".toList,
        .didChange Small.uriA 1 "z".toList]) ∧
    Each (step Small.client) (fun _ _ t => Holds t) ⟨Small.world [("a".toList, "x".toList)], []⟩ acts := by
  refine ⟨by decide +kernel, sessions_follow ⟨rfl, rfl, rfl⟩ ?_⟩
  have ha : Small.client.asUri (Path.ofText "a".toList) = .ok Small.uriA := by decide
  have hexact : ∀ p, p = Path.ofText "a".toList → ∀ u, Small.client.asUri p = .ok u →
      Small.client.Canonical u := by
    rintro p rfl u hu
    cases ha.symm.trans hu
    exact Small.uriA_canonical
  intro a hmem
  simp only [List.mem_cons, List.not_mem_nil, or_false] at hmem
  rcases hmem with rfl | rfl | rfl | rfl | rfl | rfl
  · intro p hp
    exact hexact p (by simpa using hp)
  · exact Small.uriA_canonical
  · trivial
  · trivial
  · intro p hp
    exact hexact p (by simpa using hp)
  · exact Small.uriA_canonical

/-- **A new server**: in the runs of its session it has what the client tracks,
just if the client tracks nothing at the start. -/
theorem new_server_iff (hsent : w.conn.sent = []) :
    (∀ as : List Mirror.Act, (∀ a ∈ as, Mirror.Exact c a) →
      Always (Mirror.step c) (fun s => InStep s.world) ⟨w, []⟩ as) ↔ ∀ u, w.doc.states u = none := by
  constructor
  · intro hall u
    have hmap := (hall [] (by simp)).map
    rw [hsent] at hmap
    have hu : none = Mirror.tracked w.doc u := congrFun hmap u
    rw [Mirror.tracked] at hu
    exact Option.map_eq_none_iff.mp hu.symm
  · intro hnone as has
    have hfollows := follows_untracked (c := c) hnone hsent
    refine (always_iff_each as _).mpr ⟨hfollows.toInStep, ?_⟩
    refine each_of_along (I := fun s => Follows c s.world) (C := fun _ a => Mirror.Exact c a)
      (fun s a t hI ha ht => ?_) as hfollows (along_of_forall as _ has)
    have hnext := Mirror.follows_step hI ha ht
    exact ⟨hnext, hnext.toInStep⟩

end Reentry
end LspClient
