/-
# Brackets of open documents

`Client.open_files` as a bracket: entering it runs `DocumentStateManager.open`,
whose file reads suspend, and sends `didOpen` for the new documents; leaving it
runs `close` and sends `didClose` for those that nobody holds any more. `step`
interleaves any number of brackets and the updates of tracked documents.

A document's fate is in five numbers (`Tally`): is it tracked, how many
brackets are reading it, how many `didOpen` and `didClose` are still to be
sent, and is it open at the server. A step changes them by what `step_tally`
says, and the reference counts are those of the brackets that hold the
document (`counted_step`). The server is told of a document under the URI of the
path that its own URI leads to (`told`); but for that the runs are the same,
whatever it is told (`step_under`).

* `brackets_release`: in every run the counts are exact, what a bracket has
  opened stays tracked while it holds it, and in the end nothing is left.
* `brackets_alternate`: in the runs in which no bracket asks for a file that
  another one is reading or has not stored yet, no `didOpen` is sent while a
  `didClose` of the document is still to be sent, and no two documents are told
  to the server under one URI, the notifications under a URI alternate and a
  tracked document that is held changes by an update only.
* `brackets_race`: two brackets on one file, neither of them failing, that send
  `didOpen` twice and take the document back to version 0.

A bracket of the client that is entered, or left, without anything in between
is a run of this system (`openFilesEnter_run`, `openFilesExit_run`).

Key definitions: `Bracket`, `step`, `Steps`, `Tally`, `Apart`.
Key theorems: `step_cases`, `counted_step`, `brackets_release`, `inv_step`,
`brackets_alternate`, `openFilesEnter_run`, `openFilesExit_run`.
-/
import LspClient.Client
import LspClient.Lib.Run
import Mathlib

namespace LspClient
namespace Brackets

/-- Where a bracket stands. -/
inductive Phase where
  /-- In the task group of `open`: the files still to be read, and what has been read. -/
  | reading (todo : List Uri) (got : NewStates)
  /-- `didOpen` is still to be sent for these. -/
  | opening (unsent : NewStates)
  | body
  /-- `didClose` is still to be sent for these. -/
  | closing (unsent : List Uri)

/-- One use of `open_files`, with the URIs of its files. -/
structure Bracket where
  uris : List Uri
  phase : Phase

/-- What the server is told about which documents are open. -/
inductive Note where
  | didOpen (u : Uri) (content : Text)
  | didClose (u : Uri)
  deriving DecidableEq, Repr

structure State where
  doc : DocumentStateManager
  brackets : List Bracket
  log : List Note

inductive Action where
  /-- `open_files` is entered, up to the reads. -/
  | begin (uris : List Uri)
  /-- A file of bracket `b` is read and decoded. -/
  | read (b : ℕ) (u : Uri) (content : Text) (encoding : Encoding)
  /-- All files of bracket `b` are read: `open` stores them. -/
  | store (b : ℕ)
  | sendOpen (b : ℕ) (u : Uri)
  /-- Every `didOpen` is sent: the body of the bracket begins. -/
  | enter (b : ℕ)
  /-- The body ends: `close`. -/
  | exit (b : ℕ)
  | sendClose (b : ℕ) (u : Uri)
  /-- `update_content`, as `write_file` calls it. -/
  | update (u : Uri) (content : Text)

def State.init : State := ⟨.empty, [], []⟩

/-- Bracket `b` goes to another phase. -/
def State.setPhase (s : State) (b : ℕ) (br : Bracket) (phase : Phase) : State :=
  { s with brackets := s.brackets.set b { br with phase := phase } }

/-- One step; `told u` is the URI under which the server is told of the document `u`, that
of the path `u` leads to. -/
def step (told : Uri → Uri) (s : State) : Action → Option State
  | .begin uris =>
    if uris = [] then some s
    else
      let (new, doc) := s.doc.openBegin uris
      let phase := if new = [] then .opening ∅ else .reading new ∅
      some { s with doc := doc, brackets := s.brackets ++ [⟨uris, phase⟩] }
  | .read b u content encoding =>
    match s.brackets[b]? with
    | some ⟨uris, .reading todo got⟩ =>
      if u ∈ todo then
        some (s.setPhase b ⟨uris, .reading todo got⟩
          (.reading (todo.erase u) (got.insert u ⟨content, 0, encoding⟩)))
      else none
    | _ => none
  | .store b =>
    match s.brackets[b]? with
    | some ⟨uris, .reading [] got⟩ =>
      some { s.setPhase b ⟨uris, .reading [] got⟩ (.opening got) with doc := s.doc.openCommit got }
    | _ => none
  | .sendOpen b u =>
    match s.brackets[b]? with
    | some ⟨uris, .opening unsent⟩ =>
      match unsent.lookup u with
      | some state =>
        some { s.setPhase b ⟨uris, .opening unsent⟩ (.opening (unsent.erase u)) with
          log := s.log ++ [.didOpen (told u) state.content] }
      | none => none
    | _ => none
  | .enter b =>
    match s.brackets[b]? with
    | some ⟨uris, .opening unsent⟩ =>
      if unsent.entries = [] then some (s.setPhase b ⟨uris, .opening unsent⟩ .body) else none
    | _ => none
  | .exit b =>
    match s.brackets[b]? with
    | some ⟨uris, .body⟩ =>
      let (closed, doc) := s.doc.close uris
      some { s.setPhase b ⟨uris, .body⟩ (.closing closed) with doc := doc }
    | _ => none
  | .sendClose b u =>
    match s.brackets[b]? with
    | some ⟨uris, .closing unsent⟩ =>
      if u ∈ unsent then
        some { s.setPhase b ⟨uris, .closing unsent⟩ (.closing (unsent.erase u)) with
          log := s.log ++ [.didClose (told u)] }
      else none
    | _ => none
  | .update u content => some { s with doc := (s.doc.updateContent u content).2 }

/-- What each action does, and when. -/
inductive Steps (told : Uri → Uri) (s : State) : Action → State → Prop where
  | nothing : Steps told s (.begin []) s
  | begin {uris : List Uri} (h : uris ≠ []) : Steps told s (.begin uris)
      ⟨(s.doc.openBegin uris).2, s.brackets ++ [⟨uris, if (s.doc.openBegin uris).1 = [] then
        .opening ∅ else .reading (s.doc.openBegin uris).1 ∅⟩], s.log⟩
  | read {b : ℕ} {u : Uri} {content : Text} {encoding : Encoding} {uris todo : List Uri}
      {got : NewStates} (hb : s.brackets[b]? = some ⟨uris, .reading todo got⟩) (hu : u ∈ todo) :
      Steps told s (.read b u content encoding) (s.setPhase b ⟨uris, .reading todo got⟩
        (.reading (todo.erase u) (got.insert u ⟨content, 0, encoding⟩)))
  | store {b : ℕ} {uris : List Uri} {got : NewStates}
      (hb : s.brackets[b]? = some ⟨uris, .reading [] got⟩) : Steps told s (.store b)
      { s.setPhase b ⟨uris, .reading [] got⟩ (.opening got) with doc := s.doc.openCommit got }
  | sendOpen {b : ℕ} {u : Uri} {uris : List Uri} {unsent : NewStates} {state : DocumentState}
      (hb : s.brackets[b]? = some ⟨uris, .opening unsent⟩) (hu : unsent.lookup u = some state) :
      Steps told s (.sendOpen b u) { s.setPhase b ⟨uris, .opening unsent⟩ (.opening (unsent.erase u)) with
        log := s.log ++ [.didOpen (told u) state.content] }
  | enter {b : ℕ} {uris : List Uri} {unsent : NewStates}
      (hb : s.brackets[b]? = some ⟨uris, .opening unsent⟩) (hempty : unsent.entries = []) :
      Steps told s (.enter b) (s.setPhase b ⟨uris, .opening unsent⟩ .body)
  | exit {b : ℕ} {uris : List Uri} (hb : s.brackets[b]? = some ⟨uris, .body⟩) : Steps told s (.exit b)
      { s.setPhase b ⟨uris, .body⟩ (.closing (s.doc.close uris).1) with doc := (s.doc.close uris).2 }
  | sendClose {b : ℕ} {u : Uri} {uris unsent : List Uri}
      (hb : s.brackets[b]? = some ⟨uris, .closing unsent⟩) (hu : u ∈ unsent) : Steps told s (.sendClose b u)
      { s.setPhase b ⟨uris, .closing unsent⟩ (.closing (unsent.erase u)) with
        log := s.log ++ [.didClose (told u)] }
  | update {u : Uri} {content : Text} :
      Steps told s (.update u content) { s with doc := (s.doc.updateContent u content).2 }

variable {told : Uri → Uri}

theorem step_cases {s t : State} {a : Action} (h : step told s a = some t) : Steps told s a t := by
  cases a with
  | begin uris =>
    simp only [step] at h
    by_cases hnil : uris = []
    · rw [if_pos hnil] at h
      cases h
      exact hnil ▸ .nothing
    · rw [if_neg hnil] at h
      cases h
      exact .begin hnil
  | read b u content encoding =>
    simp only [step] at h
    split at h
    · rename_i hb
      split_ifs at h with hu
      cases h
      exact .read hb hu
    · cases h
  | store b =>
    simp only [step] at h
    split at h
    · rename_i hb
      cases h
      exact .store hb
    · cases h
  | sendOpen b u =>
    simp only [step] at h
    split at h
    · rename_i hb
      split at h
      · rename_i hu
        cases h
        exact .sendOpen hb hu
      · cases h
    · cases h
  | enter b =>
    simp only [step] at h
    split at h
    · rename_i hb
      split_ifs at h with hempty
      cases h
      exact .enter hb hempty
    · cases h
  | exit b =>
    simp only [step] at h
    split at h
    · rename_i hb
      cases h
      exact .exit hb
    · cases h
  | sendClose b u =>
    simp only [step] at h
    split at h
    · rename_i hb
      split_ifs at h with hu
      cases h
      exact .sendClose hb hu
    · cases h
  | update u content =>
    cases h
    exact .update

/-! ### Counting over the brackets -/

/-- Is the document among those the bracket is reading? -/
def Bracket.reads (u : Uri) (b : Bracket) : ℕ :=
  match b.phase with
  | .reading todo got => if u ∈ todo ∨ u ∈ got then 1 else 0
  | _ => 0

/-- Has the bracket still to send `didOpen` for it? -/
def Bracket.opens (u : Uri) (b : Bracket) : ℕ :=
  match b.phase with
  | .opening unsent => if u ∈ unsent then 1 else 0
  | _ => 0

/-- How many `didClose` has the bracket still to send for it? -/
def Bracket.closes (u : Uri) (b : Bracket) : ℕ :=
  match b.phase with
  | .closing unsent => unsent.count u
  | _ => 0

/-- How often does the bracket hold it? -/
def Bracket.holds (u : Uri) (b : Bracket) : ℕ :=
  match b.phase with
  | .closing _ => 0
  | _ => b.uris.count u

/-- The sum of a quantity over all brackets. -/
def total (f : Bracket → ℕ) (s : State) : ℕ := (s.brackets.map f).sum

theorem sum_set (f : Bracket → ℕ) : ∀ (bs : List Bracket) (k : ℕ) (b b' : Bracket), bs[k]? = some b →
    ((bs.set k b').map f).sum + f b = (bs.map f).sum + f b'
  | [], _, _, _, h => by simp at h
  | c :: bs, 0, b, b', h => by
    have hc : c = b := by simpa using h
    subst hc
    simp only [List.set_cons_zero, List.map_cons, List.sum_cons]
    omega
  | c :: bs, k + 1, b, b', h => by
    have hk : bs[k]? = some b := by simpa using h
    have ih := sum_set f bs k b b' hk
    simp only [List.set_cons_succ, List.map_cons, List.sum_cons]
    omega

theorem le_total (f : Bracket → ℕ) {s : State} {b : Bracket} (h : b ∈ s.brackets) :
    f b ≤ total f s :=
  List.single_le_sum (fun _ _ => Nat.zero_le _) _ (List.mem_map_of_mem h)

/-- Changing one bracket's phase changes a total by the difference at that bracket. -/
theorem total_setPhase (f : Bracket → ℕ) {s : State} {k : ℕ} {b : Bracket} (phase : Phase)
    (h : s.brackets[k]? = some b) :
    total f (s.setPhase k b phase) + f b = total f s + f { b with phase := phase } :=
  sum_set f _ _ _ _ h

theorem total_append (f : Bracket → ℕ) (s : State) (b : Bracket) (doc : DocumentStateManager) :
    total f ⟨doc, s.brackets ++ [b], s.log⟩ = total f s + f b := by
  simp [total]

/-! ### Reference counts -/

/-- What a bracket knows of its documents at this phase. -/
def Ready (doc : DocumentStateManager) (b : Bracket) : Prop :=
  match b.phase with
  | .reading todo got => (∀ u ∈ b.uris, u ∈ todo ∨ u ∈ got ∨ (doc.states u).isSome = true) ∧
      (∀ u ∈ todo, u ∈ b.uris) ∧ ∀ u ∈ got, u ∈ b.uris
  | .opening unsent => (∀ u ∈ b.uris, (doc.states u).isSome = true) ∧ ∀ u ∈ unsent, u ∈ b.uris
  | .body => ∀ u ∈ b.uris, (doc.states u).isSome = true
  | .closing _ => True

/-- The reference counts are those of the brackets that hold the documents, and
what a bracket holds and has opened is tracked. -/
structure Counted (s : State) : Prop where
  count : ∀ u, s.doc.refCounts u =
    if total (Bracket.holds u) s = 0 then none else some (total (Bracket.holds u) s : ℤ)
  ready : ∀ b ∈ s.brackets, Ready s.doc b

theorem Counted.get {s : State} (h : Counted s) (u : Uri) :
    s.doc.refCounts.get u = total (Bracket.holds u) s := by
  rw [Counter.get, h.count]
  split
  · rename_i h0
    rw [h0]
    rfl
  · rfl

/-- Documents that stay tracked while they are held keep a bracket ready. -/
theorem Ready.mono {doc doc' : DocumentStateManager} {b : Bracket} (h : Ready doc b)
    (hs : ∀ u, 0 < b.holds u → (doc.states u).isSome = true → (doc'.states u).isSome = true) :
    Ready doc' b := by
  obtain ⟨uris, phase⟩ := b
  cases phase with
  | reading todo got =>
    refine ⟨fun u hu => ?_, h.2⟩
    rcases h.1 u hu with ht | hg | ht
    · exact Or.inl ht
    · exact Or.inr (Or.inl hg)
    · exact Or.inr (Or.inr (hs u (List.count_pos_iff.mpr hu) ht))
  | opening unsent => exact ⟨fun u hu => hs u (List.count_pos_iff.mpr hu) (h.1 u hu), h.2⟩
  | body => exact fun u hu => hs u (List.count_pos_iff.mpr hu) (h u hu)
  | closing _ => trivial

/-- A bracket goes on without letting go of anything, and what is held stays tracked. -/
theorem Counted.setPhase {s : State} (h : Counted s) {k : ℕ} {b : Bracket}
    (hb : s.brackets[k]? = some b) {phase : Phase} {doc : DocumentStateManager} {log : List Note}
    (hhold : ∀ u, Bracket.holds u { b with phase := phase } = b.holds u)
    (hcount : doc.refCounts = s.doc.refCounts)
    (hs : ∀ u, (s.doc.states u).isSome = true → (doc.states u).isSome = true)
    (hready : Ready doc { b with phase := phase }) :
    Counted { s.setPhase k b phase with doc := doc, log := log } := by
  refine ⟨fun u => ?_, fun b' hb' => ?_⟩
  · have htotal := total_setPhase (Bracket.holds u) phase hb
    rw [hhold] at htotal
    have heq : total (Bracket.holds u) { s.setPhase k b phase with doc := doc, log := log } =
        total (Bracket.holds u) s := Nat.add_right_cancel htotal
    rw [hcount, h.count, heq]
  · rcases List.mem_or_eq_of_mem_set hb' with hm | rfl
    · exact (h.ready b' hm).mono fun u _ => hs u
    · exact hready

/-- What `close` does at the end of a bracket's body. -/
theorem Counted.close {s : State} (h : Counted s) {k : ℕ} {uris : List Uri}
    (hb : s.brackets[k]? = some ⟨uris, .body⟩) (u : Uri) :
    (s.doc.close uris).2.refCounts u =
      (if total (Bracket.holds u) s - uris.count u = 0 then none
        else some ((total (Bracket.holds u) s - uris.count u : ℕ) : ℤ)) ∧
    ((s.doc.close uris).2.states u = s.doc.states u ∧ (s.doc.close uris).1.count u = 0 ∨
      total (Bracket.holds u) s - uris.count u = 0 ∧ (s.doc.states u).isSome = true ∧
        (s.doc.close uris).2.states u = none ∧ (s.doc.close uris).1.count u = 1) := by
  have hmem : (⟨uris, .body⟩ : Bracket) ∈ s.brackets := List.mem_of_getElem? hb
  have hle : uris.count u ≤ total (Bracket.holds u) s := le_total (Bracket.holds u) hmem
  have hget := h.get u
  by_cases hu : u ∈ uris
  · have hpos : 0 < uris.count u := List.count_pos_iff.mpr hu
    by_cases hn : total (Bracket.holds u) s - uris.count u = 0
    · have hrel := DocumentStateManager.close_released s.doc hu (by omega)
      have ht : (s.doc.states u).isSome = true := h.ready _ hmem u hu
      rw [if_pos ht] at hrel
      rw [if_pos hn]
      exact ⟨hrel.1, Or.inr ⟨hn, ht, hrel.2⟩⟩
    · have hheld := DocumentStateManager.close_held s.doc hu (by omega)
      rw [if_neg hn]
      refine ⟨?_, Or.inl hheld.2⟩
      rw [hheld.1, hget]
      congr 1
      omega
  · have hun := DocumentStateManager.close_untouched s.doc hu
    have h0 : uris.count u = 0 := List.count_eq_zero_of_not_mem hu
    rw [hun.1, h.count, h0, Nat.sub_zero]
    exact ⟨rfl, Or.inl hun.2⟩

theorem counted_exit {s : State} (h : Counted s) {k : ℕ} {uris : List Uri}
    (hb : s.brackets[k]? = some ⟨uris, .body⟩) :
    Counted { s.setPhase k ⟨uris, .body⟩ (.closing (s.doc.close uris).1) with
      doc := (s.doc.close uris).2 } := by
  have htotal : ∀ u, total (Bracket.holds u)
      { s.setPhase k ⟨uris, .body⟩ (.closing (s.doc.close uris).1) with
        doc := (s.doc.close uris).2 } = total (Bracket.holds u) s - uris.count u := fun u => by
    have := total_setPhase (Bracket.holds u) (.closing (s.doc.close uris).1) hb
    have h1 : Bracket.holds u ⟨uris, .closing (s.doc.close uris).1⟩ = 0 := rfl
    have h2 : Bracket.holds u ⟨uris, .body⟩ = uris.count u := rfl
    rw [h1, h2] at this
    exact Nat.eq_sub_of_add_eq this
  refine ⟨fun u => ?_, fun b' hb' => ?_⟩
  · rw [htotal]
    exact (h.close hb u).1
  · rcases List.mem_or_eq_of_mem_set hb' with hm | rfl
    · refine (h.ready b' hm).mono fun u hu hs => ?_
      -- the bracket is there after the step: what it holds has not been let go
      have hle := le_total (Bracket.holds u) hb'
      rw [htotal] at hle
      rcases (h.close hb u).2 with ⟨hst, -⟩ | ⟨hn, -⟩
      · rw [hst]
        exact hs
      · omega
    · trivial

theorem counted_begin {s : State} (h : Counted s) (uris : List Uri) :
    Counted ⟨(s.doc.openBegin uris).2, s.brackets ++ [⟨uris, if (s.doc.openBegin uris).1 = [] then
      .opening ∅ else .reading (s.doc.openBegin uris).1 ∅⟩], s.log⟩ := by
  have hhold : ∀ u, Bracket.holds u ⟨uris, if (s.doc.openBegin uris).1 = [] then
      .opening ∅ else .reading (s.doc.openBegin uris).1 ∅⟩ = uris.count u := fun u => by
    split <;> rfl
  refine ⟨fun u => ?_, fun b' hb' => ?_⟩
  · rw [total_append, hhold, DocumentStateManager.openBegin]
    simp only [Counter.update_apply, h.get, h.count]
    by_cases hu : u ∈ uris
    · have hpos : 0 < uris.count u := List.count_pos_iff.mpr hu
      rw [if_pos hu, if_neg (by omega)]
      congr 1
    · rw [if_neg hu, List.count_eq_zero_of_not_mem hu, Nat.add_zero]
  · rcases List.mem_append.mp hb' with hm | hm
    · exact h.ready b' hm
    · rw [List.mem_singleton.mp hm]
      have hnew : ∀ u ∈ uris, u ∈ (s.doc.openBegin uris).1 ∨ (s.doc.states u).isSome = true :=
        fun u hu => by
          rw [DocumentStateManager.openBegin, List.mem_filter]
          cases hs : s.doc.states u with
          | none => exact Or.inl ⟨hu, rfl⟩
          | some d => exact Or.inr rfl
      by_cases hn : (s.doc.openBegin uris).1 = []
      · rw [if_pos hn]
        refine ⟨fun u hu => ?_, fun u hu => absurd hu (AList.notMem_empty u)⟩
        rcases hnew u hu with hm | hs
        · rw [hn] at hm
          cases hm
        · exact hs
      · rw [if_neg hn]
        refine ⟨fun u hu => ?_, fun u hu => (List.mem_filter.mp hu).1,
          fun u hu => absurd hu (AList.notMem_empty u)⟩
        rcases hnew u hu with hm | hs
        · exact Or.inl hm
        · exact Or.inr (Or.inr hs)

theorem counted_init : Counted State.init := ⟨fun _ => rfl, nofun⟩

/-- **Every step keeps the counts.** -/
theorem counted_step {s t : State} {a : Action} (h : Counted s) (hstep : step told s a = some t) :
    Counted t := by
  cases step_cases hstep with
  | nothing => exact h
  | @begin uris _ => exact counted_begin h uris
  | @read b u content encoding uris todo got hb hu =>
    obtain ⟨hall, htodo, hgot⟩ := h.ready _ (List.mem_of_getElem? hb)
    refine h.setPhase hb (fun _ => rfl) rfl (fun _ => id)
      ⟨fun v hv => ?_, fun v hv => ?_, fun v hv => ?_⟩
    · by_cases huv : v = u
      · exact Or.inr (Or.inl ((AList.mem_insert _).mpr (Or.inl huv)))
      · rcases hall v hv with hm | hm | hm
        · exact Or.inl ((List.mem_erase_of_ne huv).mpr hm)
        · exact Or.inr (Or.inl ((AList.mem_insert _).mpr (Or.inr hm)))
        · exact Or.inr (Or.inr hm)
    · exact htodo v (List.mem_of_mem_erase hv)
    · rcases (AList.mem_insert _).mp hv with rfl | hm
      · exact htodo v hu
      · exact hgot v hm
  | @store b uris got hb =>
    obtain ⟨hall, -, hgot⟩ := h.ready _ (List.mem_of_getElem? hb)
    have hcommit : ∀ v, v ∈ got ∨ (s.doc.states v).isSome = true →
        ((s.doc.openCommit got).states v).isSome = true := fun v hv => by
      rw [DocumentStateManager.openCommit, Option.isSome_or, Bool.or_eq_true, AList.lookup_isSome]
      exact hv
    refine h.setPhase hb (fun _ => rfl) rfl (fun v hv => hcommit v (Or.inr hv)) ⟨fun v hv => ?_, hgot⟩
    rcases hall v hv with hm | hm
    · cases hm
    · exact hcommit v hm
  | sendOpen hb hu =>
    obtain ⟨hall, hunsent⟩ := h.ready _ (List.mem_of_getElem? hb)
    exact h.setPhase hb (fun _ => rfl) rfl (fun _ => id)
      ⟨hall, fun v hv => hunsent v (AList.mem_erase.mp hv).2⟩
  | enter hb _ =>
    exact h.setPhase hb (fun _ => rfl) rfl (fun _ => id) (h.ready _ (List.mem_of_getElem? hb)).1
  | exit hb => exact counted_exit h hb
  | sendClose hb hu => exact h.setPhase hb (fun _ => rfl) rfl (fun _ => id) trivial
  | @update u content =>
    refine ⟨fun v => ?_, fun b hb => (h.ready b hb).mono fun v _ hs => ?_⟩
    · rw [DocumentStateManager.updateContent_refCounts]
      exact h.count v
    · rw [DocumentStateManager.updateContent_states]
      split
      · rename_i hv
        rw [Option.isSome_map, ← hv]
        exact hs
      · exact hs

/-! ### Nobody holds it, nothing is left of it -/

/-- Whatever is tracked is held by a bracket. -/
def Owned (s : State) : Prop :=
  ∀ u, (s.doc.states u).isSome = true → 0 < total (Bracket.holds u) s

/-- A bracket goes on without letting go of anything, and nothing else is tracked. -/
theorem Owned.setPhase {s : State} (h : Owned s) {k : ℕ} {b : Bracket}
    (hb : s.brackets[k]? = some b) {phase : Phase} {doc : DocumentStateManager} {log : List Note}
    (hhold : ∀ u, Bracket.holds u { b with phase := phase } = b.holds u)
    (hs : ∀ u, (doc.states u).isSome = true → (s.doc.states u).isSome = true ∨ 0 < b.holds u) :
    Owned { s.setPhase k b phase with doc := doc, log := log } := by
  intro u hu
  have htotal := total_setPhase (Bracket.holds u) phase hb
  rw [hhold] at htotal
  have heq : total (Bracket.holds u) { s.setPhase k b phase with doc := doc, log := log } =
      total (Bracket.holds u) s := Nat.add_right_cancel htotal
  rw [heq]
  rcases hs u hu with hs | hpos
  · exact h u hs
  · exact lt_of_lt_of_le hpos (le_total (Bracket.holds u) (List.mem_of_getElem? hb))

theorem owned_step {s t : State} {a : Action} (h : Counted s) (ho : Owned s)
    (hstep : step told s a = some t) : Owned t := by
  cases step_cases hstep with
  | nothing => exact ho
  | @begin uris _ =>
    intro u hu
    have htotal := total_append (Bracket.holds u) s ⟨uris, if (s.doc.openBegin uris).1 = [] then
      .opening ∅ else .reading (s.doc.openBegin uris).1 ∅⟩ (s.doc.openBegin uris).2
    rw [htotal]
    exact lt_of_lt_of_le (ho u hu) (Nat.le_add_right _ _)
  | read hb hu => exact ho.setPhase hb (fun _ => rfl) fun _ => Or.inl
  | @store b uris got hb =>
    obtain ⟨-, -, hgot⟩ := h.ready _ (List.mem_of_getElem? hb)
    refine ho.setPhase hb (fun _ => rfl) fun u hu => ?_
    rw [DocumentStateManager.openCommit, Option.isSome_or, Bool.or_eq_true, AList.lookup_isSome] at hu
    exact hu.symm.imp_right fun hm => List.count_pos_iff.mpr (hgot u hm)
  | sendOpen hb hu => exact ho.setPhase hb (fun _ => rfl) fun _ => Or.inl
  | enter hb _ => exact ho.setPhase hb (fun _ => rfl) fun _ => Or.inl
  | @exit b uris hb =>
    intro u hu
    have htotal : total (Bracket.holds u) (s.setPhase b ⟨uris, .body⟩ (.closing (s.doc.close uris).1))
        + uris.count u = total (Bracket.holds u) s + 0 := total_setPhase (Bracket.holds u) _ hb
    show 0 < total (Bracket.holds u) (s.setPhase b ⟨uris, .body⟩ (.closing (s.doc.close uris).1))
    rcases (h.close hb u).2 with ⟨hst, -⟩ | ⟨-, -, hnone, -⟩
    · by_contra hzero
      -- the bracket that is left was the only one to hold it
      have hheld := ho u (hst ▸ hu)
      have hin : u ∈ uris := List.count_pos_iff.mp (by omega)
      have hget := h.get u
      have hnone := (s.doc.close_released hin (by omega)).2.1
      rw [hnone] at hu
      cases hu
    · rw [hnone] at hu
      cases hu
  | sendClose hb hu => exact ho.setPhase hb (fun _ => rfl) fun _ => Or.inl
  | @update v content =>
    intro u hu
    rw [DocumentStateManager.updateContent_states] at hu
    split at hu
    · rename_i huv
      rw [Option.isSome_map] at hu
      exact ho u (huv ▸ hu)
    · exact ho u hu

/-- The bracket has opened its files and is not closed. -/
def Bracket.opened (b : Bracket) : Bool :=
  match b.phase with
  | .opening _ | .body => true
  | _ => false

/-- The bracket has closed its files. -/
def Bracket.closed (b : Bracket) : Bool :=
  match b.phase with
  | .closing _ => true
  | _ => false

/-- **The reference counts are exact, whatever the interleaving.** In every
state that is reached, a document is counted as often as it occurs in the
brackets that have begun and not closed, those that have opened it find it
tracked, and once every bracket has closed nothing is left. -/
theorem brackets_release {as : List Action} {s : State}
    (hrun : Run.exec (step told) State.init as = some s) :
    (∀ u, s.doc.refCounts.get u = total (Bracket.holds u) s) ∧
      (∀ b ∈ s.brackets, b.opened = true → ∀ u ∈ b.uris, (s.doc.states u).isSome = true) ∧
      ((∀ b ∈ s.brackets, b.closed = true) → s.doc = .empty) := by
  obtain ⟨hcounted, howned⟩ : Counted s ∧ Owned s :=
    Run.exec_inv_history (I := fun _ s => Counted s ∧ Owned s)
      (fun _ _ _ _ h hstep => ⟨counted_step h.1 hstep, owned_step h.1 h.2 hstep⟩) as
      ⟨counted_init, nofun⟩ hrun
  refine ⟨hcounted.get, fun b hb hopened => ?_, fun hclosed => ?_⟩
  · have hready := hcounted.ready b hb
    obtain ⟨uris, phase⟩ := b
    cases phase with
    | opening unsent => exact hready.1
    | body => exact hready
    | reading _ _ | closing _ => cases hopened
  · have hzero : ∀ u, total (Bracket.holds u) s = 0 := fun u => by
      refine List.sum_eq_zero fun n hn => ?_
      obtain ⟨b, hb, rfl⟩ := List.mem_map.mp hn
      have hphase := hclosed b hb
      obtain ⟨uris, phase⟩ := b
      cases phase with
      | closing _ => rfl
      | _ => cases hphase
    have hstates : s.doc.states = fun _ => none := funext fun u => by
      by_contra hu
      exact absurd (howned u (Option.isSome_iff_ne_none.mpr hu)) (by rw [hzero u]; exact Nat.lt_irrefl 0)
    have hcounts : s.doc.refCounts = fun _ => none := funext fun u => by
      rw [hcounted.count, hzero u, if_pos rfl]
    exact congrArg₂ DocumentStateManager.mk hstates hcounts

/-- Two brackets that overlap, one of which names its file twice. -/
def overlapping : List Action :=
  [.begin ["a".toList, "a".toList], .begin ["a".toList], .read 0 "a".toList "x".toList utf8,
    .read 1 "a".toList "x".toList utf8, .store 1, .sendOpen 1 "a".toList, .enter 1, .exit 1,
    .read 0 "a".toList "x".toList utf8, .store 0, .sendOpen 0 "a".toList, .enter 0, .exit 0,
    .sendClose 0 "a".toList]

theorem brackets_release_overlap :
    ∃ s, Run.exec (step id) State.init overlapping = some s ∧ s.brackets.length = 2 ∧ s.doc = .empty := by
  obtain ⟨s, hs⟩ : ∃ s, Run.exec (step id) State.init overlapping = some s :=
    Option.isSome_iff_exists.mp (by decide +kernel)
  have hend : (Run.exec (step id) State.init overlapping).map (fun s =>
      (s.brackets.length, s.brackets.all Bracket.closed)) = some (2, true) := by decide +kernel
  rw [hs] at hend
  simp only [Option.map_some, Option.some.injEq, Prod.mk.injEq, List.all_eq_true] at hend
  exact ⟨s, hs, hend.1, (brackets_release hs).2.2 hend.2⟩

/-! ### What a step does to one document -/

/-- The notifications for one document: is each of them a `didOpen`? -/
def kinds (u : Uri) (log : List Note) : List Bool :=
  log.filterMap fun n => match n with
    | .didOpen v _ => if v = u then some true else none
    | .didClose v => if v = u then some false else none

/-- The fate of one document. -/
structure Tally where
  tracked : ℕ
  reading : ℕ
  unsentOpen : ℕ
  unsentClose : ℕ
  wire : List Bool

def tally (s : State) (u : Uri) : Tally where
  tracked := if (s.doc.states u).isSome then 1 else 0
  reading := total (Bracket.reads u) s
  unsentOpen := total (Bracket.opens u) s
  unsentClose := total (Bracket.closes u) s
  wire := kinds u s.log

/-- What an action can do to the tally of a document. -/
inductive Change (u : Uri) : Action → Tally → Tally → Prop where
  | same {a : Action} {v w : Tally} (ht : w.tracked = v.tracked) (hr : w.reading = v.reading)
      (ho : w.unsentOpen = v.unsentOpen) (hc : w.unsentClose = v.unsentClose)
      (hw : w.wire = v.wire) : Change u a v w
  /-- A bracket asks for it, and it is not tracked. -/
  | ask {uris : List Uri} {v w : Tally} (hu : u ∈ uris) (h : v.tracked = 0)
      (ht : w.tracked = v.tracked) (hr : w.reading = v.reading + 1)
      (ho : w.unsentOpen = v.unsentOpen) (hc : w.unsentClose = v.unsentClose)
      (hw : w.wire = v.wire) : Change u (.begin uris) v w
  | store {b : ℕ} {v w : Tally} (ht : w.tracked = 1) (hr : w.reading + 1 = v.reading)
      (ho : w.unsentOpen = v.unsentOpen + 1) (hc : w.unsentClose = v.unsentClose)
      (hw : w.wire = v.wire) : Change u (.store b) v w
  | sendOpen {b : ℕ} {v w : Tally} (ht : w.tracked = v.tracked) (hr : w.reading = v.reading)
      (ho : w.unsentOpen + 1 = v.unsentOpen) (hc : w.unsentClose = v.unsentClose)
      (hw : w.wire = v.wire ++ [true]) : Change u (.sendOpen b u) v w
  /-- The last bracket that holds it is left. -/
  | close {b : ℕ} {v w : Tally} (h : v.tracked = 1) (ht : w.tracked = 0)
      (hr : w.reading = v.reading) (h0 : v.unsentOpen = 0) (ho : w.unsentOpen = v.unsentOpen)
      (hc : w.unsentClose = v.unsentClose + 1) (hw : w.wire = v.wire) : Change u (.exit b) v w
  | sendClose {b : ℕ} {v w : Tally} (ht : w.tracked = v.tracked) (hr : w.reading = v.reading)
      (ho : w.unsentOpen = v.unsentOpen) (hc : w.unsentClose + 1 = v.unsentClose)
      (hw : w.wire = v.wire ++ [false]) : Change u (.sendClose b u) v w

theorem kinds_append (u : Uri) (log : List Note) (n : Note) :
    kinds u (log ++ [n]) = kinds u log ++ kinds u [n] :=
  List.filterMap_append

/-- How the tally differs after a bracket has gone to another phase. -/
theorem tally_setPhase {s : State} {k : ℕ} {b : Bracket} (phase : Phase)
    (hb : s.brackets[k]? = some b) (doc : DocumentStateManager) (log : List Note) (u : Uri) :
    let t : State := ⟨doc, s.brackets.set k { b with phase := phase }, log⟩
    (tally t u).reading + b.reads u =
        (tally s u).reading + Bracket.reads u { b with phase := phase } ∧
      (tally t u).unsentOpen + b.opens u =
        (tally s u).unsentOpen + Bracket.opens u { b with phase := phase } ∧
      (tally t u).unsentClose + b.closes u =
        (tally s u).unsentClose + Bracket.closes u { b with phase := phase } :=
  ⟨total_setPhase (Bracket.reads u) phase hb, total_setPhase (Bracket.opens u) phase hb,
    total_setPhase (Bracket.closes u) phase hb⟩

theorem tally_begin (s : State) (uris : List Uri) (u : Uri) :
    let t : State := ⟨(s.doc.openBegin uris).2, s.brackets ++ [⟨uris,
      if (s.doc.openBegin uris).1 = [] then .opening ∅ else .reading (s.doc.openBegin uris).1 ∅⟩],
      s.log⟩
    (tally t u).reading = (tally s u).reading +
        (if u ∈ uris ∧ (tally s u).tracked = 0 then 1 else 0) ∧
      (tally t u).unsentOpen = (tally s u).unsentOpen ∧
      (tally t u).unsentClose = (tally s u).unsentClose := by
  have hnew : u ∈ (s.doc.openBegin uris).1 ↔ u ∈ uris ∧ (tally s u).tracked = 0 := by
    rw [DocumentStateManager.openBegin, List.mem_filter, tally]
    cases s.doc.states u <;> simp
  refine ⟨?_, ?_, ?_⟩
  · refine (total_append _ _ _ _).trans (congrArg _ ?_)
    by_cases hn : (s.doc.openBegin uris).1 = []
    · rw [if_pos hn, if_neg (fun hu => ?_)]
      · rfl
      · rw [← hnew, hn] at hu
        cases hu
    · rw [if_neg hn]
      simp only [Bracket.reads, AList.notMem_empty, or_false, hnew]
  · refine (total_append _ _ _ _).trans ?_
    split <;> simp [Bracket.opens, AList.notMem_empty, tally]
  · refine (total_append _ _ _ _).trans ?_
    split <;> simp [Bracket.closes, tally]

/-- A bracket that has still to send `didOpen` holds the document. -/
theorem Counted.unsentOpen_eq_zero {s : State} (h : Counted s) {u : Uri} (hu : s.doc.states u = none) :
    (tally s u).unsentOpen = 0 := by
  refine List.sum_eq_zero fun n hn => ?_
  obtain ⟨b, hb, rfl⟩ := List.mem_map.mp hn
  have hready := h.ready b hb
  obtain ⟨uris, phase⟩ := b
  cases phase with
  | opening unsent =>
    simp only [Bracket.opens]
    refine if_neg fun hm => ?_
    have htracked := hready.1 u (hready.2 u hm)
    simp only [hu] at htracked
    cases htracked
  | _ => rfl

/-- **A step changes the tally of a document in one of the ways of `Change`.** -/
theorem step_tally {s t : State} {a : Action} (h : Counted s) (hstep : step id s a = some t) (u : Uri) :
    Change u a (tally s u) (tally t u) := by
  cases step_cases hstep with
  | nothing => exact .same rfl rfl rfl rfl rfl
  | @begin uris _ =>
    obtain ⟨hr, ho, hc⟩ := tally_begin s uris u
    by_cases hu : u ∈ uris ∧ (tally s u).tracked = 0
    · rw [if_pos hu] at hr
      exact .ask hu.1 hu.2 rfl hr ho hc rfl
    · rw [if_neg hu] at hr
      exact .same rfl hr ho hc rfl
  | @read b v content encoding uris todo got hb hv =>
    have hreads : (u ∈ todo.erase v ∨ u ∈ got.insert v ⟨content, 0, encoding⟩) ↔
        (u ∈ todo ∨ u ∈ got) := by
      rw [AList.mem_insert]
      by_cases huv : u = v
      · simp [huv, hv]
      · simp [huv, List.mem_erase_of_ne huv]
    obtain ⟨hr, ho, hc⟩ := tally_setPhase (.reading (todo.erase v)
      (got.insert v ⟨content, 0, encoding⟩)) hb s.doc s.log u
    simp only [Bracket.reads, Bracket.opens, Bracket.closes, hreads] at hr ho hc
    exact .same rfl (Nat.add_right_cancel hr) ho hc rfl
  | @store b uris got hb =>
    obtain ⟨hr, ho, hc⟩ := tally_setPhase (.opening got) hb (s.doc.openCommit got) s.log u
    simp only [Bracket.reads, Bracket.opens, Bracket.closes, List.not_mem_nil, false_or] at hr ho hc
    by_cases hu : u ∈ got
    · have hs : ((s.doc.openCommit got).states u).isSome = true := by
        rw [DocumentStateManager.openCommit, Option.isSome_or, AList.lookup_isSome.mpr hu]
        rfl
      rw [if_pos hu] at hr ho
      exact .store (if_pos hs) hr ho hc rfl
    · have hs : (s.doc.openCommit got).states u = s.doc.states u := by
        simp only [DocumentStateManager.openCommit, AList.lookup_eq_none.mpr hu, Option.none_or]
      rw [if_neg hu] at hr ho
      refine .same ?_ hr ho hc rfl
      simp only [tally, hs]
  | @sendOpen b v uris unsent state hb hlookup =>
    have hmem : v ∈ unsent := AList.lookup_isSome.mp (by rw [hlookup]; rfl)
    obtain ⟨hr, ho, hc⟩ := tally_setPhase (.opening (unsent.erase v)) hb s.doc
      (s.log ++ [.didOpen v state.content]) u
    simp only [Bracket.reads, Bracket.opens, Bracket.closes, AList.mem_erase] at hr ho hc
    by_cases huv : u = v
    · subst huv
      simp only [hmem, ne_eq, not_true_eq_false, false_and, if_false, if_true] at ho
      refine .sendOpen rfl hr ho hc ?_
      exact (kinds_append u s.log _).trans (by simp [kinds, tally])
    · simp only [huv, ne_eq, not_false_eq_true, true_and] at ho
      refine .same rfl hr (Nat.add_right_cancel ho) hc ?_
      exact (kinds_append u s.log _).trans (by simp [kinds, tally, Ne.symm huv])
  | @enter b uris unsent hb hempty =>
    have hu : u ∉ unsent := fun hm => by
      have : u ∈ unsent.keys := hm
      rw [AList.keys, hempty] at this
      cases this
    obtain ⟨hr, ho, hc⟩ := tally_setPhase .body hb s.doc s.log u
    simp only [Bracket.reads, Bracket.opens, Bracket.closes, hu, if_false] at hr ho hc
    exact .same rfl hr ho hc rfl
  | @exit b uris hb =>
    have hcounted := counted_exit h hb
    obtain ⟨hr, ho, hc⟩ := tally_setPhase (.closing (s.doc.close uris).1) hb
      (s.doc.close uris).2 s.log u
    simp only [Bracket.reads, Bracket.opens, Bracket.closes] at hr ho hc
    rcases (h.close hb u).2 with ⟨hst, hcount⟩ | ⟨-, hs, hnone, hcount⟩
    · rw [hcount] at hc
      refine .same ?_ hr ho hc rfl
      simp only [tally, hst]
    · rw [hcount] at hc
      have hopen : (tally s u).unsentOpen = 0 :=
        (Nat.add_right_cancel ho).symm.trans (hcounted.unsentOpen_eq_zero hnone)
      have ht : (if ((s.doc.close uris).2.states u).isSome then 1 else 0) = 0 := by rw [hnone]; rfl
      exact .close (if_pos hs) ht hr hopen ho hc rfl
  | @sendClose b v uris unsent hb hv =>
    obtain ⟨hr, ho, hc⟩ := tally_setPhase (.closing (unsent.erase v)) hb s.doc
      (s.log ++ [.didClose v]) u
    simp only [Bracket.reads, Bracket.opens, Bracket.closes] at hr ho hc
    by_cases huv : u = v
    · subst huv
      obtain ⟨n, hn⟩ := Nat.exists_eq_succ_of_ne_zero (List.count_pos_iff.mpr hv).ne'
      rw [List.count_erase_self, hn, Nat.succ_eq_add_one, Nat.add_sub_cancel] at hc
      have hsucc : ∀ {x y : ℕ}, x + (n + 1) = y + n → x + 1 = y := by omega
      refine .sendClose rfl hr ho (hsucc hc) ?_
      exact (kinds_append u s.log _).trans (by simp [kinds, tally])
    · rw [List.count_erase_of_ne huv] at hc
      refine .same rfl hr ho (Nat.add_right_cancel hc) ?_
      exact (kinds_append u s.log _).trans (by simp [kinds, tally, Ne.symm huv])
  | @update v content =>
    refine .same ?_ rfl rfl rfl rfl
    have hs : ((s.doc.updateContent v content).2.states u).isSome = (s.doc.states u).isSome := by
      rw [DocumentStateManager.updateContent_states]
      split
      · rename_i huv
        rw [Option.isSome_map, huv]
      · rfl
    simp only [tally, hs]

/-! ### Brackets that keep apart -/

/-- The notifications start with `didOpen` and alternate. -/
def Alternates (wire : List Bool) : Prop := ∀ (k : ℕ) (h : k < wire.length), wire[k] = (k % 2 == 0)

theorem Alternates.append {wire : List Bool} (h : Alternates wire) {b : Bool}
    (hb : b = (wire.length % 2 == 0)) : Alternates (wire ++ [b]) := by
  intro k hk
  rw [List.getElem_append]
  split
  · rename_i hlt
    exact h k hlt
  · have hk' : k = wire.length := by
      rw [List.length_append, List.length_singleton] at hk
      omega
    simp [hk', hb]

/-- What holds of a document's tally: a document that is being read is not
tracked and is read by one bracket, and the server is one notification behind
at most. -/
structure Sound (v : Tally) : Prop where
  wire : Alternates v.wire
  opening : v.unsentOpen ≤ v.tracked
  reading : v.reading + v.tracked ≤ 1
  closing : v.unsentClose ≤ 1
  server : v.tracked + v.unsentClose = v.wire.length % 2 + v.unsentOpen

/-- No bracket asks for an untracked file that another one is reading, or has read and
not stored, and no `didOpen` is sent while a `didClose` of the document is still to be sent. -/
def Apart (s : State) : Action → Prop
  | .begin uris => ∀ u ∈ uris, s.doc.states u = none → ∀ b ∈ s.brackets, b.reads u = 0
  | .sendOpen _ u => ∀ b ∈ s.brackets, b.closes u = 0
  | _ => True

theorem Sound.change {u : Uri} {a : Action} {v w : Tally} (h : Sound v) (hc : Change u a v w)
    (hask : ∀ uris, a = .begin uris → u ∈ uris → v.tracked = 0 → v.reading = 0)
    (hopen : ∀ b, a = .sendOpen b u → v.unsentClose = 0) : Sound w := by
  obtain ⟨h1, h2, h3, h4, h5⟩ := h
  cases hc with
  | same ht hr ho hc hw =>
    exact ⟨hw ▸ h1, by omega, by omega, by omega, by rw [hw]; omega⟩
  | ask hu h0 ht hr ho hc hw =>
    have := hask _ rfl hu h0
    exact ⟨hw ▸ h1, by omega, by omega, by omega, by rw [hw]; omega⟩
  | store ht hr ho hc hw =>
    exact ⟨hw ▸ h1, by omega, by omega, by omega, by rw [hw]; omega⟩
  | @sendOpen b _ _ ht hr ho hc hw =>
    -- tracked, nothing else to be sent: the server has it closed
    have h0 := hopen b rfl
    have hlen : w.wire.length = v.wire.length + 1 := by rw [hw, List.length_append]; rfl
    refine ⟨hw ▸ h1.append ?_, by omega, by omega, by omega, by omega⟩
    have : v.wire.length % 2 = 0 := by omega
    simp [this]
  | close h ht hr h0 ho hc hw =>
    exact ⟨hw ▸ h1, by omega, by omega, by omega, by rw [hw]; omega⟩
  | sendClose ht hr ho hc hw =>
    -- there is a `didClose` to be sent: the server has it open
    have hlen : w.wire.length = v.wire.length + 1 := by rw [hw, List.length_append]; rfl
    refine ⟨hw ▸ h1.append ?_, by omega, by omega, by omega, by omega⟩
    have : v.wire.length % 2 = 1 := by omega
    simp [this]

structure Inv (s : State) : Prop extends Counted s where
  sound : ∀ u, Sound (tally s u)

theorem inv_init : Inv State.init :=
  ⟨counted_init, fun _ => ⟨nofun, le_refl _, Nat.zero_le _, Nat.zero_le _, rfl⟩⟩

theorem inv_step {s t : State} {a : Action} (h : Inv s) (ha : Apart s a) (hstep : step id s a = some t) :
    Inv t := by
  refine ⟨counted_step h.toCounted hstep, fun u => ?_⟩
  refine (h.sound u).change (step_tally h.toCounted hstep u) (fun uris he hu h0 => ?_) fun b he => ?_
  · subst he
    have hnone : s.doc.states u = none := by
      simp only [tally] at h0
      split at h0
      · cases h0
      · rename_i hn
        simpa using hn
    refine List.sum_eq_zero fun n hn => ?_
    obtain ⟨b, hb, rfl⟩ := List.mem_map.mp hn
    exact ha u hu hnone b hb
  · subst he
    refine List.sum_eq_zero fun n hn => ?_
    obtain ⟨b, hb, rfl⟩ := List.mem_map.mp hn
    exact ha b hb

/-- Some bracket holds the document. -/
def Held (s : State) (u : Uri) : Prop := ∃ b ∈ s.brackets, 0 < b.holds u

/-- A tracked document that is held stays as it is, or is updated. -/
def Kept (s : State) (a : Action) (t : State) : Prop :=
  ∀ u d, s.doc.states u = some d → Held t u → t.doc.states u = some d ∨
    ∃ content, a = .update u content ∧
      t.doc.states u = some ⟨content, d.version + 1, d.encoding⟩

theorem kept_step {s t : State} {a : Action} (h : Inv s) (hstep : step id s a = some t) : Kept s a t := by
  intro u d hd hheld
  cases step_cases hstep with
  | nothing => exact Or.inl hd
  | begin _ => exact Or.inl hd
  | read _ _ => exact Or.inl hd
  | @store b uris got hb =>
    -- what is tracked is not being read
    have hu : u ∉ got := fun hu => by
      have hle := le_total (Bracket.reads u) (List.mem_of_getElem? hb)
      have hr := (h.sound u).reading
      simp only [Bracket.reads, hu, or_true, if_true] at hle
      simp only [tally, hd, Option.isSome_some, if_true] at hr
      omega
    refine Or.inl ?_
    simp only [DocumentStateManager.openCommit, AList.lookup_eq_none.mpr hu, Option.none_or, hd]
  | sendOpen _ _ => exact Or.inl hd
  | enter _ _ => exact Or.inl hd
  | @exit b uris hb =>
    have htotal := total_setPhase (Bracket.holds u) (.closing (s.doc.close uris).1) hb
    obtain ⟨b', hb', hpos⟩ := hheld
    have hle := le_total (Bracket.holds u) hb'
    refine Or.inl ?_
    rcases (h.close hb u).2 with ⟨hst, -⟩ | ⟨h0, -⟩
    · exact hst.trans hd
    · -- nobody would hold it
      simp only [Bracket.holds] at htotal
      have : total (Bracket.holds u) (s.setPhase b ⟨uris, .body⟩ (.closing (s.doc.close uris).1)) =
          0 := by omega
      exact absurd (lt_of_lt_of_le hpos hle) (by
        show ¬ 0 < total (Bracket.holds u) (s.setPhase b ⟨uris, .body⟩ _)
        omega)
  | sendClose _ _ => exact Or.inl hd
  | @update v content =>
    simp only [DocumentStateManager.updateContent_states]
    by_cases huv : u = v
    · subst huv
      exact Or.inr ⟨content, rfl, by rw [if_pos rfl, hd]; rfl⟩
    · exact Or.inl (by rw [if_neg huv, hd])

/-! ### The URIs the server is told of -/

def Note.uri : Note → Uri
  | .didOpen u _ => u
  | .didClose u => u

/-- The notification, under the URI that is sent. -/
def Note.under (told : Uri → Uri) : Note → Note
  | .didOpen u content => .didOpen (told u) content
  | .didClose u => .didClose (told u)

/-- The state, with the notifications as they are sent. -/
def State.under (told : Uri → Uri) (s : State) : State := { s with log := s.log.map (Note.under told) }

/-- The document of which an action tells the server. -/
def Action.announces : Action → Option Uri
  | .sendOpen _ u => some u
  | .sendClose _ u => some u
  | _ => none

/-- The brackets do the same, whatever the server is told. -/
theorem step_under (s : State) (a : Action) :
    step told (s.under told) a = (step id s a).map (State.under told) := by
  have hbrackets : (s.under told).brackets = s.brackets := rfl
  cases a with
  | begin uris =>
    by_cases huris : uris = []
    · rw [step, step, if_pos huris, if_pos huris]
      rfl
    · rw [step, step, if_neg huris, if_neg huris]
      rfl
  | read b u content encoding =>
    simp only [step, hbrackets]
    cases s.brackets[b]? with
    | none => rfl
    | some br =>
      obtain ⟨uris, phase⟩ := br
      cases phase with
      | reading todo got =>
        simp only
        split_ifs
        · rfl
        · rfl
      | _ => rfl
  | store b =>
    simp only [step, hbrackets]
    split
    · rfl
    · rfl
  | sendOpen b u =>
    simp only [step, hbrackets]
    cases s.brackets[b]? with
    | none => rfl
    | some br =>
      obtain ⟨uris, phase⟩ := br
      cases phase with
      | opening unsent =>
        simp only
        cases unsent.lookup u with
        | none => rfl
        | some state => simp [State.under, State.setPhase, Note.under]
      | _ => rfl
  | enter b =>
    simp only [step, hbrackets]
    split
    · split_ifs
      · rfl
      · rfl
    · rfl
  | exit b =>
    simp only [step, hbrackets]
    split
    · rfl
    · rfl
  | sendClose b u =>
    simp only [step, hbrackets]
    split
    · split_ifs
      · simp [State.under, State.setPhase, Note.under]
      · rfl
    · rfl
  | update u content => rfl

/-- What is sent is about a document that was announced. -/
theorem step_log {s t : State} {a : Action} (h : step id s a = some t) {n : Note} (hn : n ∈ t.log) :
    n ∈ s.log ∨ a.announces = some n.uri := by
  cases step_cases h with
  | sendOpen _ _ | sendClose _ _ =>
    obtain hn | hn := List.mem_append.mp hn
    · exact Or.inl hn
    · rw [List.mem_singleton.mp hn]
      exact Or.inr rfl
  | _ => exact Or.inl hn

/-- Where the server is told of a document under its own URI. -/
theorem step_exact {a : Action} (h : ∀ u, a.announces = some u → told u = u) (s : State) :
    step told s a = step id s a := by
  cases a with
  | sendOpen b u => simp only [step, h u rfl, id]
  | sendClose b u => simp only [step, h u rfl, id]
  | _ => rfl

/-- Where no two documents have one URI, what is sent under a URI is about one document. -/
theorem alternates_under {D : Set Uri} (hinj : Set.InjOn told D) {log : List Note}
    (hlog : ∀ n ∈ log, n.uri ∈ D) (h : ∀ u, Alternates (kinds u log)) (v : Uri) :
    Alternates (kinds v (log.map (Note.under told))) := by
  by_cases hv : ∃ u ∈ D, told u = v
  · obtain ⟨u, hu, rfl⟩ := hv
    have hsame : kinds (told u) (log.map (Note.under told)) = kinds u log := by
      unfold kinds
      rw [List.filterMap_map]
      refine List.filterMap_congr fun n hn => ?_
      have hiff : told n.uri = told u ↔ n.uri = u := hinj.eq_iff (hlog n hn) hu
      cases n <;> simp_all [Note.under, Note.uri]
    rw [hsame]
    exact h u
  · have hnone : kinds v (log.map (Note.under told)) = [] := by
      unfold kinds
      rw [List.filterMap_map, List.filterMap_eq_nil_iff]
      intro n hn
      have hne : told n.uri ≠ v := fun hu => hv ⟨n.uri, hlog n hn, hu⟩
      cases n <;> simp_all [Note.under, Note.uri]
    rw [hnone]
    exact nofun

/-- **Brackets that keep apart.** In every run in which no bracket asks for a
file that another one is reading or has not stored, no `didOpen` is sent while a
`didClose` of the document is still to be sent, and no two documents are told to
the server under one URI: in every state the notifications under each URI start
with `didOpen` and alternate, and no step but an update touches a tracked
document that is held. -/
theorem brackets_alternate {as : List Action} (hapart : Run.Along (step told) Apart State.init as)
    (hclash : Set.InjOn told {u | ∃ a ∈ as, a.announces = some u}) :
    Run.Always (step told) (fun s => ∀ u, Alternates (kinds u s.log)) State.init as ∧
      Run.Each (step told) Kept State.init as := by
  set D := {u | ∃ a ∈ as, a.announces = some u} with hD
  have happart : Run.Along (step id) Apart State.init as := (Run.along_map step_under as State.init).mp hapart
  have hannounced : Run.Along (step id) (fun _ a => ∀ u, a.announces = some u → u ∈ D) State.init as :=
    Run.along_of_forall as _ fun a ha u hu => ⟨a, ha, hu⟩
  have hall : Run.Each (step id) (fun s a t => (∀ u, Alternates (kinds u (t.under told).log)) ∧ Kept s a t)
      State.init as := by
    refine Run.each_of_along (I := fun s => Inv s ∧ ∀ n ∈ s.log, n.uri ∈ D) (fun s a t hs hC ht => ?_)
      as ⟨inv_init, nofun⟩ (Run.along_and as happart hannounced)
    have hinv := inv_step hs.1 hC.1 ht
    have hlog : ∀ n ∈ t.log, n.uri ∈ D := fun n hn =>
      (step_log ht hn).elim (hs.2 n) (hC.2 n.uri)
    exact ⟨⟨hinv, hlog⟩, alternates_under hclash hlog fun u => (hinv.sound u).wire, kept_step hs.1 ht⟩
  constructor
  · refine (Run.always_iff_each as _).mpr ⟨fun u => nofun, ?_⟩
    exact (Run.each_map step_under as State.init).mpr (Run.each_mono (fun _ _ _ h => h.1) as hall)
  · exact (Run.each_map step_under as State.init).mpr (Run.each_mono (fun _ _ _ h => h.2) as hall)

/-- One bracket, entered and left. -/
theorem brackets_alternate_one :
    Run.Always (step id) (fun s => ∀ u, Alternates (kinds u s.log)) State.init
      [.begin ["a".toList], .read 0 "a".toList "x".toList utf8, .store 0, .sendOpen 0 "a".toList,
        .enter 0, .update "a".toList "y".toList, .exit 0, .sendClose 0 "a".toList] := by
  refine (brackets_alternate ?_ Function.injective_id.injOn).1
  refine (Run.along_cons rfl).mpr ⟨nofun, (Run.along_cons rfl).mpr ⟨trivial,
    (Run.along_cons rfl).mpr ⟨trivial, (Run.along_cons rfl).mpr ⟨fun b hb => ?_,
    (Run.along_cons rfl).mpr ⟨trivial, (Run.along_cons rfl).mpr ⟨trivial,
    (Run.along_cons rfl).mpr ⟨trivial, (Run.along_cons rfl).mpr ⟨trivial, trivial⟩⟩⟩⟩⟩⟩⟩⟩
  rw [List.mem_singleton.mp hb]
  rfl

-- two files whose documents are one to the server
example : Small.client.told "file:///ws/a%2541".toList = "file:///ws/aA".toList ∧
    Small.client.told "file:///ws/aA".toList = "file:///ws/aA".toList := by decide

/-- Two brackets on one file: the second one asks for it while the first one is
reading it, stores what it has read over the first one's edit, and sends
`didOpen` once more. -/
theorem brackets_race :
    ∃ s t u, Run.exec (step id) State.init [.begin ["a".toList], .begin ["a".toList],
        .read 0 "a".toList "x".toList utf8, .read 1 "a".toList "x".toList utf8, .store 0,
        .sendOpen 0 "a".toList, .enter 0, .update "a".toList "y".toList] = some s ∧
      step id s (.store 1) = some t ∧ Run.exec (step id) t [.sendOpen 1 "a".toList] = some u ∧
      s.doc.states "a".toList = some ⟨"y".toList, 1, utf8⟩ ∧
      t.doc.states "a".toList = some ⟨"x".toList, 0, utf8⟩ ∧ ¬ Kept s (.store 1) t ∧
      kinds "a".toList u.log = [true, true] ∧ ¬ Alternates (kinds "a".toList u.log) := by
  refine ⟨_, _, _, rfl, rfl, rfl, rfl, rfl, fun h => ?_, rfl, fun h => ?_⟩
  · obtain he | ⟨_, ha, -⟩ := h "a".toList ⟨"y".toList, 1, utf8⟩ rfl
      ⟨⟨["a".toList], .body⟩, List.mem_cons_self, by decide⟩
    · cases he
    · cases ha
  · exact absurd (h 1 (by decide)) (by decide)

/-! ### Brackets of the client -/

/-- What a notification says of which documents are open. -/
def noted : Notification → List Note
  | .didOpen u _ _ content => [.didOpen u content]
  | .didChange _ _ _ => []
  | .didClose u => [.didClose u]

section Client

open Client Actions

variable {c : Client} {bs : List Bracket} {b : ℕ} {uris : List Uri} {log : List Note}

theorem readDocument_run {u : Uri} {d : DocumentState} {w w' : World}
    (h : c.readDocument u w = .ok d w') : d = ⟨d.content, 0, d.encoding⟩ := by
  have hversion := readDocument_ok h
  obtain ⟨content, version, encoding⟩ := d
  simp only at hversion
  rw [hversion]

/-- The reads of `open`, one after the other. -/
theorem readDocuments_run (hb : b < bs.length) :
    ∀ {todo : List Uri} {got got' : NewStates} {w w' : World},
    c.readDocuments got todo w = .ok got' w' → ∃ as,
      Run.exec (step c.told) ⟨w.doc, bs.set b ⟨uris, .reading todo got⟩, log⟩ as =
        some ⟨w.doc, bs.set b ⟨uris, .reading [] got'⟩, log⟩
  | [], got, got', w, w', h => by
    cases h
    exact ⟨[], rfl⟩
  | u :: todo, got, got', w, w', h => by
    obtain ⟨d, hd, hrest⟩ := (c.reads_readDocument u).bind_ok h
    obtain ⟨as, has⟩ := readDocuments_run hb hrest
    refine ⟨.read b u d.content d.encoding :: as, (Run.exec_cons ?_).mpr has⟩
    have hget : (bs.set b ⟨uris, .reading (u :: todo) got⟩)[b]? =
        some ⟨uris, .reading (u :: todo) got⟩ := by
      rw [List.getElem?_set_self hb]
    simp only [step, hget, List.mem_cons_self, if_true, State.setPhase, List.erase_cons_head,
      List.set_set]
    rw [← readDocument_run hd]

/-- The group of tasks that send `didOpen`. -/
theorem sendOpened_run (uris : List Uri) (hb : b < bs.length) (doc : DocumentStateManager) :
    ∀ (l : List (Uri × Text)) (unsent : NewStates) (log : List Note), (l.map Prod.fst).Nodup →
      (∀ u t, (u, t) ∈ l ↔ ∃ d, unsent.lookup u = some d ∧ d.content = t) → ∃ as rest,
        rest.entries = [] ∧ Run.exec (step c.told) ⟨doc, bs.set b ⟨uris, .opening unsent⟩, log⟩ as =
          some ⟨doc, bs.set b ⟨uris, .opening rest⟩, log ++ l.map fun e => .didOpen (c.told e.1) e.2⟩
  | [], unsent, log, _, hl => by
    refine ⟨[], unsent, ?_, by simp [Run.exec]⟩
    rw [List.eq_nil_iff_forall_not_mem]
    rintro ⟨u, d⟩ hd
    exact absurd ((hl u d.content).mpr ⟨d, AList.mem_lookup_iff.mpr hd, rfl⟩) List.not_mem_nil
  | (u, t) :: l, unsent, log, hnd, hl => by
    rw [List.map_cons, List.nodup_cons] at hnd
    obtain ⟨d, hd, hdt⟩ := (hl u t).mp List.mem_cons_self
    -- what is left to be sent is the rest of the list
    have hrest : ∀ v s, (v, s) ∈ l ↔ ∃ d, (unsent.erase u).lookup v = some d ∧ d.content = s := by
      intro v s
      by_cases hv : v = u
      · subst hv
        rw [AList.lookup_erase]
        constructor
        · intro h
          exact absurd (List.mem_map.mpr ⟨_, h, rfl⟩) hnd.1
        · rintro ⟨d', hd', -⟩
          cases hd'
      · rw [AList.lookup_erase_ne hv, ← hl v s, List.mem_cons]
        refine ⟨Or.inr, fun h => h.resolve_left fun he => hv (congrArg Prod.fst he)⟩
    obtain ⟨as, rest, hempty, has⟩ := sendOpened_run uris hb doc l _ (log ++ [.didOpen (c.told u) t]) hnd.2 hrest
    refine ⟨.sendOpen b u :: as, rest, hempty, (Run.exec_cons ?_).mpr (has.trans ?_)⟩
    · have hget : (bs.set b ⟨uris, .opening unsent⟩)[b]? = some ⟨uris, .opening unsent⟩ := by
        rw [List.getElem?_set_self hb]
      simp only [step, hget, hd, State.setPhase, List.set_set, hdt]
    · simp

/-- The group of tasks that send `didClose`. -/
theorem sendClosed_run (uris : List Uri) (hb : b < bs.length) (doc : DocumentStateManager) :
    ∀ (l unsent : List Uri) (log : List Note), l.Perm unsent → ∃ as,
      Run.exec (step c.told) ⟨doc, bs.set b ⟨uris, .closing unsent⟩, log⟩ as =
        some ⟨doc, bs.set b ⟨uris, .closing []⟩, log ++ l.map fun u => .didClose (c.told u)⟩
  | [], unsent, log, hl => by
    obtain rfl := hl.nil_eq
    exact ⟨[], by simp [Run.exec]⟩
  | u :: l, unsent, log, hl => by
    have hu : u ∈ unsent := hl.mem_iff.mp List.mem_cons_self
    have hrest : l.Perm (unsent.erase u) := by simpa using hl.erase u
    obtain ⟨as, has⟩ := sendClosed_run uris hb doc l _ (log ++ [.didClose (c.told u)]) hrest
    refine ⟨.sendClose b u :: as, (Run.exec_cons ?_).mpr (has.trans ?_)⟩
    · have hget : (bs.set b ⟨uris, .closing unsent⟩)[b]? = some ⟨uris, .closing unsent⟩ := by
        rw [List.getElem?_set_self hb]
      simp only [step, hget, hu, if_true, State.setPhase, List.set_set]
    · simp

theorem set_last (bs : List Bracket) (x y : Bracket) : (bs ++ [x]).set bs.length y = bs ++ [y] := by
  simp

/-- `open`: its reads, and then what they have found is stored. -/
theorem openDocuments_run (bs : List Bracket) (log : List Note) {w w' : World} {new : NewStates}
    (h : c.openDocuments uris w = .ok new w') (hne : uris ≠ []) :
    ∃ as, Run.exec (step c.told) ⟨w.doc, bs, log⟩ (.begin uris :: as) =
      some ⟨w'.doc, bs ++ [⟨uris, .opening new⟩], log⟩ := by
  obtain ⟨newUris, w₁, hbegin, hrest⟩ := bind_ok_elim h
  obtain ⟨hnew, rfl⟩ := doc_ok hbegin
  have hstep : step c.told ⟨w.doc, bs, log⟩ (.begin uris) = some ⟨(w.doc.openBegin uris).2,
      bs ++ [⟨uris, if newUris = [] then .opening ∅ else .reading newUris ∅⟩], log⟩ := by
    rw [hnew]
    simp only [step, hne, if_false]
  by_cases hnil : newUris = []
  · rw [if_pos hnil] at hrest hstep
    cases hrest
    exact ⟨[], (Run.exec_cons hstep).mpr rfl⟩
  · rw [if_neg hnil] at hrest hstep
    obtain ⟨got, w₂, hread, hrest⟩ := bind_ok_elim hrest
    obtain ⟨rfl, -⟩ := readDocuments_ok hread
    cases hrest
    let begun : Bracket := ⟨uris, .reading newUris ∅⟩
    have hb : bs.length < (bs ++ [begun]).length := by simp
    obtain ⟨as, has⟩ : ∃ as, Run.exec (step c.told) ⟨(w.doc.openBegin uris).2,
        (bs ++ [begun]).set bs.length ⟨uris, .reading newUris ∅⟩, log⟩ as =
          some ⟨(w.doc.openBegin uris).2, (bs ++ [begun]).set bs.length ⟨uris, .reading [] new⟩, log⟩ :=
      readDocuments_run hb hread
    rw [set_last, set_last] at has
    refine ⟨as ++ [.store bs.length], (Run.exec_cons hstep).mpr ?_⟩
    rw [Run.exec_append, has, Option.bind_some]
    refine (Run.exec_cons ?_).mpr rfl
    simp only [step, List.getElem?_concat_length, State.setPhase, set_last]

/-- **Entering a bracket of the client is a run of this system**: its reads and
`didOpen`s in the order its tasks got through. -/
theorem openFilesEnter_run {order : Order} {ps : List Path} {w w' : World}
    (h : c.openFilesEnter order ps w = .ok uris w') (hne : uris ≠ []) :
    ∃ as msgs, w'.conn.sent = w.conn.sent ++ msgs ∧
      Run.exec (step c.told) ⟨w.doc, bs, log⟩ (.begin uris :: as) =
        some ⟨w'.doc, bs ++ [⟨uris, .body⟩], log ++ msgs.flatMap noted⟩ := by
  unfold openFilesEnter at h
  split at h
  · cases h
    exact absurd rfl hne
  · obtain ⟨us, w₁, hmap, hrest⟩ := bind_ok_elim h
    obtain ⟨rfl, -⟩ := asUris_ok hmap
    split at hrest
    · cases hrest
      exact absurd rfl hne
    · obtain ⟨new, w₂, hopen, hrest⟩ := bind_ok_elim hrest
      obtain ⟨_, w₃, hsend, hrest⟩ := bind_ok_elim hrest
      cases hrest
      obtain ⟨as, has⟩ := openDocuments_run bs log hopen hne
      have hperm := order.perm new.contents
      have hmem : ∀ u t, (u, t) ∈ order.arrange new.contents ↔
          ∃ d, new.lookup u = some d ∧ d.content = t := fun u t =>
        hperm.mem_iff.trans NewStates.mem_contents
      have hsent := sendOpened_told hsend
      let opened : Bracket := ⟨uris, .opening new⟩
      have hb : bs.length < (bs ++ [opened]).length := by simp
      obtain ⟨sends, rest, hempty, hsends⟩ := sendOpened_run uris hb w₂.doc _ new log
        ((hperm.map Prod.fst).nodup_iff.mpr new.contents_nodup) hmem
      rw [set_last, set_last] at hsends
      refine ⟨as ++ (sends ++ [.enter bs.length]), (order.arrange new.contents).map fun e =>
        .didOpen (c.told e.1) c.languageId 0 e.2, ?_, ?_⟩
      · rw [hsent, (openDocuments_ok hopen).1]
        rfl
      · have hlog : ((order.arrange new.contents).map fun e =>
            Notification.didOpen (c.told e.1) c.languageId 0 e.2).flatMap noted =
              (order.arrange new.contents).map fun e => .didOpen (c.told e.1) e.2 := by
          rw [List.flatMap_map, List.map_eq_flatMap]
          rfl
        rw [← List.cons_append, Run.exec_append, has, Option.bind_some, Run.exec_append, hsends,
          Option.bind_some, hlog, hsent]
        refine (Run.exec_cons ?_).mpr rfl
        simp only [step, List.getElem?_concat_length, hempty, if_true, State.setPhase, set_last,
          World.sendAll_doc]

/-- **Leaving a bracket of the client is a run of this system.** -/
theorem openFilesExit_run {order : Order} {w w' : World}
    (h : c.openFilesExit order uris w = .ok () w') (hne : uris ≠ [])
    (hb : bs[b]? = some ⟨uris, .body⟩) : ∃ as msgs, w'.conn.sent = w.conn.sent ++ msgs ∧
      Run.exec (step c.told) ⟨w.doc, bs, log⟩ (.exit b :: as) =
        some ⟨w'.doc, bs.set b ⟨uris, .closing []⟩, log ++ msgs.flatMap noted⟩ := by
  unfold openFilesExit at h
  rw [if_neg hne] at h
  obtain ⟨closed, w₁, hclose, hsend⟩ := bind_ok_elim h
  obtain ⟨rfl, rfl⟩ := doc_ok hclose
  have hperm := order.perm (w.doc.close uris).1
  have hsent := sendClosed_told hsend
  have hlt : b < bs.length := (List.getElem?_eq_some_iff.mp hb).1
  obtain ⟨as, has⟩ := sendClosed_run uris hlt (w.doc.close uris).2 _ _ log hperm
  refine ⟨as, (order.arrange (w.doc.close uris).1).map fun u => .didClose (c.told u), ?_,
    (Run.exec_cons ?_).mpr (has.trans ?_)⟩
  · rw [hsent]
    rfl
  · simp only [step, hb, State.setPhase]
  · have hlog : ((order.arrange (w.doc.close uris).1).map fun u =>
        Notification.didClose (c.told u)).flatMap noted =
          (order.arrange (w.doc.close uris).1).map fun u => .didClose (c.told u) := by
      rw [List.flatMap_map, List.map_eq_flatMap]
      rfl
    rw [hlog, hsent]
    rfl

end Client

end Brackets
end LspClient
