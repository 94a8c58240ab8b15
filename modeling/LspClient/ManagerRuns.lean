/-
# Runs of the document manager

The six methods of `DocumentStateManager` that change it, called one after the
other with any arguments, from the empty manager on. `open` gets through here:
all its reads succeed, in some order, and what they find is part of the call.

* `manager_runs`: the keys of `_states` and `_ref_counts` agree and every
  count is positive; what `open` and `close` return is what they have changed;
  and while a document stays tracked, its version grows by one an update.
* `open_raises`: where a read fails, the counts of all the requested URIs have
  been raised already and are not taken back, so a document that is opened and
  closed afterwards stays tracked.

Key definitions: `Call`, `call`, `step`, `Agree`, `updates`.
Key theorems: `agree_step`, `version_step`, `manager_runs`, `open_raises`.
-/
import LspClient.Release

namespace LspClient
namespace ManagerRuns

open Actions Client Run
open Release (Counted SameTracked)

/-- What `read_file` of `open` has found for a URI. -/
structure Found where
  uri : Uri
  content : Text
  encoding : Encoding
  deriving DecidableEq, Repr

/-- A call. Of `open`, what its reads have found, in the order they ended in. -/
inductive Call where
  | openUris (uris : List Uri) (reads : List Found)
  | close (uris : List Uri)
  | register (u : Uri) (content : Text) (version : ℤ) (encoding : Encoding)
  | unregister (u : Uri)
  | incrementVersion (u : Uri)
  | updateContent (u : Uri) (content : Text)
  deriving DecidableEq, Repr

/-- What a call returns. -/
inductive Answer where
  | opened (new : NewStates)
  | closed (uris : List Uri)
  | state (d : Option DocumentState)
  | version (n : Option ℤ)

/-- The last line of `read_file`. -/
def store (new : NewStates) (r : Found) : NewStates := new.insert r.uri ⟨r.content, 0, r.encoding⟩

/-- `new_states` after the reads. -/
def newStates (reads : List Found) : NewStates := reads.foldl store ∅

/-- `open` with its reads, of which there is one for each new URI. -/
def openUris (m : DocumentStateManager) (uris : List Uri) (reads : List Found) :
    Option (NewStates × DocumentStateManager) :=
  let (newUris, m) := m.openBegin uris
  if (reads.map (·.uri)).Perm newUris then
    if newUris = [] then some (∅, m)
    else some (newStates reads, m.openCommit (newStates reads))
  else none

/-- A call: what it returns, and the manager after it. -/
def call (m : DocumentStateManager) : Call → Option (Answer × DocumentStateManager)
  | .openUris uris reads => (openUris m uris reads).map fun r => (.opened r.1, r.2)
  | .close uris => some (.closed (m.close uris).1, (m.close uris).2)
  | .register u content version encoding =>
    some (.state (m.register u content version encoding).1, (m.register u content version encoding).2)
  | .unregister u => some (.state (m.unregister u).1, (m.unregister u).2)
  | .incrementVersion u => some (.version (m.incrementVersion u).1, (m.incrementVersion u).2)
  | .updateContent u content =>
    some (.version (m.updateContent u content).1, (m.updateContent u content).2)

def step (m : DocumentStateManager) (c : Call) : Option DocumentStateManager :=
  (call m c).map Prod.snd

/-- `_states` and `_ref_counts` have the same keys, and every count is positive. -/
structure Agree (m : DocumentStateManager) : Prop where
  keys : ∀ u, (m.states u).isSome = (m.refCounts u).isSome
  pos : ∀ u n, m.refCounts u = some n → 1 ≤ n

/-- The URI is tracked. -/
def Tracked (u : Uri) (m : DocumentStateManager) : Prop := (m.states u).isSome = true

/-- Does the call update the document of the URI? -/
def Call.updates (u : Uri) : Call → Bool
  | .incrementVersion v => v = u
  | .updateContent v _ => v = u
  | _ => false

/-- How many calls update the document of the URI. -/
def updates (u : Uri) (cs : List Call) : ℕ := cs.countP (Call.updates u)

variable {m m' : DocumentStateManager} {u : Uri}

/-! ### Opening -/

theorem foldl_store_lookup (reads : List Found) (new : NewStates) (u : Uri) :
    if u ∈ reads.map (·.uri) then ∃ d, (reads.foldl store new).lookup u = some d ∧ d.version = 0
    else (reads.foldl store new).lookup u = new.lookup u := by
  induction reads generalizing new with
  | nil => simp
  | cons r rs ih =>
    rw [List.foldl_cons, List.map_cons]
    have hu := ih (store new r)
    by_cases hrs : u ∈ rs.map (·.uri)
    · rw [if_pos hrs] at hu
      rwa [if_pos (List.mem_cons_of_mem _ hrs)]
    · rw [if_neg hrs] at hu
      rw [hu]
      by_cases hr : u = r.uri
      · subst hr
        rw [if_pos List.mem_cons_self]
        exact ⟨_, AList.lookup_insert new, rfl⟩
      · rw [if_neg (by simp [hr, hrs])]
        exact AList.lookup_insert_ne hr

theorem openBegin_mem {uris : List Uri} :
    u ∈ (m.openBegin uris).1 ↔ u ∈ uris ∧ m.states u = none := by
  simp [DocumentStateManager.openBegin]

/-- **What `open` returns is what was requested and not tracked**, and this is stored. -/
theorem openUris_some {uris : List Uri} {reads : List Found} {new : NewStates}
    (h : openUris m uris reads = some (new, m')) :
    m' = (m.openBegin uris).2.openCommit new ∧ ∀ u,
      if u ∈ uris ∧ m.states u = none then ∃ d, new.lookup u = some d ∧ d.version = 0
      else new.lookup u = none := by
  unfold openUris at h
  simp only at h
  split_ifs at h with hperm hnil
  · cases h
    refine ⟨rfl, fun u => ?_⟩
    have hu : ¬ (u ∈ uris ∧ m.states u = none) := by
      rw [← openBegin_mem, hnil]
      exact List.not_mem_nil
    rw [if_neg hu]
    rfl
  · cases h
    refine ⟨rfl, fun u => ?_⟩
    have hlook := foldl_store_lookup reads ∅ u
    simp only [hperm.mem_iff, openBegin_mem] at hlook
    exact hlook

theorem openUris_mem {uris : List Uri} {reads : List Found} {new : NewStates}
    (h : openUris m uris reads = some (new, m')) (u : Uri) :
    u ∈ new ↔ u ∈ uris ∧ m.states u = none := by
  have hu := (openUris_some h).2 u
  rw [← AList.lookup_isSome]
  split_ifs at hu with hin
  · obtain ⟨d, hd, -⟩ := hu
    simp [hd, hin]
  · simp [hu, hin]

/-! ### Updating -/

theorem incrementVersion_states (m : DocumentStateManager) (u v : Uri) :
    (m.incrementVersion u).2.states v =
      if v = u then (m.states u).map fun d => { d with version := d.version + 1 } else m.states v := by
  rw [DocumentStateManager.incrementVersion]
  cases hs : m.states u with
  | none => exact DocumentStateManager.states_of_none hs v
  | some d => simp [Function.update_apply]

theorem sameTracked_incrementVersion (m : DocumentStateManager) (u : Uri) :
    SameTracked m (m.incrementVersion u).2 := by
  refine ⟨?_, fun v => ?_⟩
  · rw [DocumentStateManager.incrementVersion]
    split <;> rfl
  · rw [incrementVersion_states]
    split_ifs with hv
    · rw [hv, Option.isSome_map]
    · rfl

/-! ### The keys agree -/

namespace Agree

theorem empty : Agree .empty := ⟨fun _ => rfl, nofun⟩

theorem counted (h : Agree m) : Counted m :=
  ⟨fun u n hu => h.pos u n hu, fun u hu => (h.keys u).symm.trans hu⟩

theorem of_counted (h : Counted m) (hkeys : ∀ u, (m.refCounts u).isSome = true → (m.states u).isSome = true) :
    Agree m := by
  refine ⟨fun u => ?_, fun u n hu => h.pos u n hu⟩
  rw [Bool.eq_iff_iff]
  exact ⟨h.tracked u, hkeys u⟩

theorem untracked_get (h : Agree m) (hu : m.states u = none) : m.refCounts.get u = 0 := by
  have hnone : m.refCounts u = none := Option.not_isSome_iff_eq_none.mp (by rw [← h.keys, hu]; simp)
  rw [Counter.get, hnone, Option.getD_none]

theorem of_sameTracked (h : Agree m) (hs : SameTracked m m') : Agree m' :=
  ⟨fun u => by rw [hs.states, hs.refCounts, h.keys], fun u n hu => h.pos u n (by rwa [hs.refCounts] at hu)⟩

/-- Everything requested is counted, and tracked by now. -/
theorem opens (h : Agree m) {uris : List Uri} {reads : List Found} {new : NewStates}
    (hopen : openUris m uris reads = some (new, m')) : Agree m' := by
  obtain ⟨rfl, hnew⟩ := openUris_some hopen
  refine of_counted (h.counted.opens fun u d hd => ?_) fun u hu => ?_
  · exact ((openUris_mem hopen u).mp (AList.lookup_isSome.mp (by rw [hd]; rfl))).1
  · have hcount : (m.refCounts.update uris u).isSome = true := hu
    show ((new.lookup u).or (m.states u)).isSome = true
    rw [Counter.update_apply] at hcount
    cases hs : m.states u with
    | some d => cases new.lookup u <;> rfl
    | none =>
      by_cases hin : u ∈ uris
      · have hl := hnew u
        rw [if_pos ⟨hin, hs⟩] at hl
        obtain ⟨d, hd, -⟩ := hl
        rw [hd]
        rfl
      · rw [if_neg hin, ← h.keys, hs] at hcount
        cases hcount

theorem closes (h : Agree m) (uris : List Uri) : Agree (m.close uris).2 := by
  refine of_counted (h.counted.closes uris) fun u hu => ?_
  by_cases hin : u ∈ uris
  · by_cases hn : m.refCounts.get u ≤ uris.count u
    · obtain ⟨hr, -, -⟩ := m.close_released hin hn
      rw [hr] at hu
      cases hu
    · -- it is held still, so it was tracked
      obtain ⟨-, hs, -⟩ := m.close_held hin (by omega)
      rw [hs]
      by_contra hnone
      have hget := h.untracked_get (Option.not_isSome_iff_eq_none.mp hnone)
      omega
  · obtain ⟨hr, hs, -⟩ := m.close_untouched hin
    rw [hs, h.keys, ← hr]
    exact hu

theorem register (h : Agree m) (u : Uri) (content : Text) (version : ℤ) (encoding : Encoding) :
    Agree (m.register u content version encoding).2 := by
  unfold DocumentStateManager.register
  split_ifs
  · exact h
  · refine of_counted (h.counted.tracks u _) fun v hv => ?_
    by_cases hvu : v = u
    · simp [hvu]
    · simpa [hvu, h.keys, Counter.get_set] using hv

theorem unregister (h : Agree m) (u : Uri) : Agree (m.unregister u).2 := by
  unfold DocumentStateManager.unregister
  cases m.states u with
  | none => exact h
  | some d =>
    refine of_counted (h.counted.untracks u) fun v hv => ?_
    by_cases hvu : v = u
    · simp [hvu, Counter.del] at hv
    · simpa [hvu, h.keys, Counter.del] using hv

end Agree

theorem agree_step {c : Call} (h : Agree m) (hstep : step m c = some m') : Agree m' := by
  obtain ⟨⟨answer, _⟩, hcall, rfl⟩ := Option.map_eq_some_iff.mp hstep
  cases c with
  | openUris uris reads =>
    obtain ⟨⟨new, _⟩, hopen, hanswer⟩ := Option.map_eq_some_iff.mp hcall
    cases hanswer
    exact h.opens hopen
  | close uris => cases hcall; exact h.closes uris
  | register u content version encoding => cases hcall; exact h.register u content version encoding
  | unregister u => cases hcall; exact h.unregister u
  | incrementVersion u => cases hcall; exact h.of_sameTracked (sameTracked_incrementVersion m u)
  | updateContent u content =>
    cases hcall
    exact h.of_sameTracked (Release.sameTracked_updateContent m u content)

/-! ### Closing -/

theorem close_nodup (m : DocumentStateManager) (uris : List Uri) : (m.close uris).1.Nodup := by
  rw [List.nodup_iff_count_le_one]
  intro u
  by_cases hin : u ∈ uris
  · by_cases hn : m.refCounts.get u ≤ uris.count u
    · obtain ⟨-, -, hc⟩ := m.close_released hin hn
      rw [hc]
      split_ifs <;> omega
    · obtain ⟨-, -, hc⟩ := m.close_held hin (by omega)
      omega
  · obtain ⟨-, -, hc⟩ := m.close_untouched hin
    omega

/-- **What `close` returns was tracked before it and is not after it.** -/
theorem mem_close_iff (m : DocumentStateManager) (uris : List Uri) (u : Uri) :
    u ∈ (m.close uris).1 ↔ Tracked u m ∧ ¬ Tracked u (m.close uris).2 := by
  obtain ⟨hbefore, hafter⟩ := m.close_states uris u
  unfold Tracked
  rw [hafter]
  by_cases hu : u ∈ (m.close uris).1
  · simp [hu, hbefore hu]
  · rw [if_neg hu]
    exact ⟨fun h => absurd h hu, fun h => absurd h.1 h.2⟩

/-! ### Versions -/

/-- A document that stays tracked goes to the next version just if the call updates it. -/
theorem version_step {c : Call} {d : DocumentState} (hd : m.states u = some d)
    (hstep : step m c = some m') : m'.states u = none ∨
      ∃ d', m'.states u = some d' ∧ d'.version = d.version + if c.updates u then 1 else 0 := by
  obtain ⟨⟨answer, _⟩, hcall, rfl⟩ := Option.map_eq_some_iff.mp hstep
  have hkept : ∀ m' : DocumentStateManager, m'.states u = m.states u →
      ∃ d', m'.states u = some d' ∧ d'.version = d.version + if false = true then 1 else 0 :=
    fun m' h => ⟨d, h.trans hd, by simp⟩
  cases c with
  | openUris uris reads =>
    obtain ⟨⟨new, _⟩, hopen, hanswer⟩ := Option.map_eq_some_iff.mp hcall
    cases hanswer
    obtain ⟨rfl, hnew⟩ := openUris_some hopen
    have hl := hnew u
    rw [if_neg (by simp [hd])] at hl
    refine Or.inr (hkept _ ?_)
    show (new.lookup u).or (m.states u) = m.states u
    rw [hl, Option.none_or]
  | close uris =>
    cases hcall
    by_cases hu : u ∈ (m.close uris).1
    · exact Or.inl (by rw [(m.close_states uris u).2, if_pos hu])
    · exact Or.inr (hkept _ (by rw [(m.close_states uris u).2, if_neg hu]))
  | register v content version encoding =>
    cases hcall
    refine Or.inr (hkept _ ?_)
    unfold DocumentStateManager.register
    split_ifs with hv
    · rfl
    · refine Function.update_of_ne (fun huv => hv ?_) ..
      rw [← huv, hd]
      rfl
  | unregister v =>
    cases hcall
    by_cases huv : u = v
    · exact Or.inl (by rw [DocumentStateManager.unregister_states, if_pos huv])
    · exact Or.inr (hkept _ (by rw [DocumentStateManager.unregister_states, if_neg huv]))
  | incrementVersion v =>
    cases hcall
    right
    by_cases huv : v = u
    · subst huv
      exact ⟨{ d with version := d.version + 1 }, by simp [incrementVersion_states, hd], by simp [Call.updates]⟩
    · exact ⟨d, by simp [incrementVersion_states, hd, Ne.symm huv], by simp [Call.updates, huv]⟩
  | updateContent v content =>
    cases hcall
    right
    by_cases huv : v = u
    · subst huv
      exact ⟨⟨content, d.version + 1, d.encoding⟩,
        by simp [DocumentStateManager.updateContent_states, hd], by simp [Call.updates]⟩
    · exact ⟨d, by simp [DocumentStateManager.updateContent_states, hd, Ne.symm huv],
        by simp [Call.updates, huv]⟩

theorem version_run : ∀ (cs : List Call) {m m' : DocumentStateManager} {d : DocumentState},
    m.states u = some d → Always step (Tracked u) m cs → exec step m cs = some m' →
      ∃ d', m'.states u = some d' ∧ d'.version = d.version + updates u cs
  | [], _, _, d, hd, _, h => by
    cases h
    exact ⟨d, hd, by simp [updates]⟩
  | c :: cs, m, m', d, hd, htracked, h => by
    obtain ⟨m₁, hstep, hrest⟩ := exec_cons_elim h
    have htail := htracked.2 m₁ hstep
    obtain hnone | ⟨d₁, hd₁, hversion⟩ := version_step hd hstep
    · have hhead := always_head htail
      rw [Tracked, hnone] at hhead
      cases hhead
    · obtain ⟨d', hd', hversion'⟩ := version_run cs hd₁ htail hrest
      refine ⟨d', hd', ?_⟩
      rw [hversion', hversion, updates, updates, List.countP_cons]
      split_ifs <;> push_cast <;> omega

/-- **Every run of the manager.** The keys agree and every count is positive; `close`
returns, each once, the URIs that it has made untracked, and `open` those it has found
untracked; and in as many calls as a document stays tracked its version grows by the
number of its updates. -/
theorem manager_runs {cs : List Call} (h : exec step .empty cs = some m) :
    Agree m ∧
    (∀ uris, (m.close uris).1.Nodup ∧
      ∀ u, u ∈ (m.close uris).1 ↔ Tracked u m ∧ ¬ Tracked u (m.close uris).2) ∧
    (∀ uris reads new m', openUris m uris reads = some (new, m') →
      ∀ u, u ∈ new ↔ u ∈ uris ∧ ¬ Tracked u m) ∧
    ∀ u d more m', m.states u = some d → Always step (Tracked u) m more →
      exec step m more = some m' →
      ∃ d', m'.states u = some d' ∧ d'.version = d.version + updates u more := by
  refine ⟨exec_inv_history (I := fun _ => Agree) (fun _ _ _ _ hs ht => agree_step hs ht) cs Agree.empty h,
    fun uris => ⟨close_nodup m uris, mem_close_iff m uris⟩, fun uris reads new m' hopen u => ?_,
    fun u d more m' hd htracked hmore => version_run more hd htracked hmore⟩
  rw [openUris_mem hopen, Tracked, Option.not_isSome_iff_eq_none]

/-- A file is requested twice, read twice, and closed more often than it was opened. -/
def repeated : List Call :=
  [.openUris [Small.uriA, Small.uriA] [⟨Small.uriA, "x".toList, utf8⟩, ⟨Small.uriA, "y".toList, utf8⟩],
    .updateContent Small.uriA "z".toList, .close [Small.uriA],
    .close [Small.uriA, Small.uriA, Small.uriA], .register Small.uriA [] 7 utf8]

theorem manager_runs_repeated : ∃ m, exec step .empty repeated = some m ∧ Agree m ∧
    (m.close [Small.uriA, Small.uriA]).1.Nodup := by
  have hrun : (exec step .empty repeated).isSome = true := by decide
  obtain ⟨m, hm⟩ := Option.isSome_iff_exists.mp hrun
  have hruns := manager_runs hm
  exact ⟨m, hm, hruns.1, (hruns.2.1 _).1⟩

/-! ### `open` of the client -/

section OpenDocuments

variable {c : Client} {w w' : World}

theorem readDocuments_newStates : ∀ {us : List Uri} {new new' : NewStates} {w w' : World},
    c.readDocuments new us w = .ok new' w' →
      ∃ reads : List Found, reads.map (·.uri) = us ∧ reads.foldl store new = new'
  | [], _, _, _, _, h => by
    cases h
    exact ⟨[], rfl, rfl⟩
  | u :: us, new, new', w, w', h => by
    obtain ⟨d, hd, hrest⟩ := (c.reads_readDocument u).bind_ok h
    obtain ⟨reads, hus, hnew⟩ := readDocuments_newStates hrest
    refine ⟨⟨u, d.content, d.encoding⟩ :: reads, by rw [List.map_cons, hus], ?_⟩
    have hstate : d = ⟨d.content, 0, d.encoding⟩ := by rw [← readDocument_ok hd]
    rw [List.foldl_cons, store, ← hstate]
    exact hnew

/-- `open` of the client, where it returns, is a call of the manager with what its reads have found. -/
theorem openDocuments_openUris {uris : List Uri} {new : NewStates}
    (h : c.openDocuments uris w = .ok new w') :
    ∃ reads, openUris w.doc uris reads = some (new, w'.doc) := by
  obtain ⟨newUris, w₁, hbegin, hrest⟩ := bind_ok_elim h
  obtain ⟨rfl, rfl⟩ := doc_ok hbegin
  by_cases hnil : (w.doc.openBegin uris).1 = []
  · rw [if_pos hnil] at hrest
    cases hrest
    exact ⟨[], by simp [openUris, hnil]⟩
  · rw [if_neg hnil] at hrest
    obtain ⟨read, w₂, hread, hrest⟩ := bind_ok_elim hrest
    obtain ⟨reads, hus, rfl⟩ := readDocuments_newStates hread
    obtain ⟨rfl, -⟩ := readDocuments_ok hread
    cases hrest
    exact ⟨reads, by simp [openUris, hnil, hus, newStates]⟩

/-- The file of the URI can be read and decoded. -/
def Readable (c : Client) (u : Uri) (w : World) : Prop := ∃ d, asked (c.readDocument u) w = .ok d

theorem alike_readDocument (u : Uri) : Alike (fun w w' : World => w.fs = w'.fs) (c.readDocument u) := by
  have hconvert : ∀ x : Except UriError Path, Alike (fun w w' : World => w.fs = w'.fs) (convert x) :=
    fun x => by
      cases x with
      | ok p => exact alike_pure
      | error e => exact alike_throw
  refine (hconvert _).bind fun path => Alike.bind (fun w w' hfs => ?_) fun bytes => ?_
  · unfold os
    simp only [hfs]
    cases (FileTree.read (c.route path) w'.fs).result with
    | ok a => exact ⟨rfl, rfl⟩
    | error e => exact ⟨rfl, rfl⟩
  · split
    · exact alike_pure
    · exact alike_throw

/-- Whether a file can be read depends on the file system alone. -/
theorem readable_congr {u : Uri} (hfs : w.fs = w'.fs) : Readable c u w ↔ Readable c u w' := by
  have h := alike_readDocument (c := c) u w w' hfs
  unfold Readable asked
  cases hw : c.readDocument u w <;> cases hw' : c.readDocument u w' <;> rw [hw, hw'] at h
  · simp [h.1]
  · exact h.elim
  · exact h.elim
  · simp

theorem readDocuments_error_iff (us : List Uri) (new : NewStates) (w : World) :
    (∃ e w', c.readDocuments new us w = .error e w') ↔ ∃ u ∈ us, ¬ Readable c u w := by
  induction us generalizing new w with
  | nil =>
    refine iff_of_false (fun h => ?_) (by simp)
    obtain ⟨e, w', h⟩ := h
    cases h
  | cons u us ih =>
    cases hu : c.readDocument u w with
    | ok d w₁ =>
      obtain rfl := (c.reads_readDocument u).of_ok hu
      have hreadable : Readable c u w := ⟨d, by rw [asked, hu]⟩
      rw [readDocuments, bind_eq_ok hu, ih]
      simp [hreadable]
    | error e w₁ =>
      have hnot : ¬ Readable c u w := by
        rintro ⟨d, hd⟩
        rw [asked, hu] at hd
        cases hd
      rw [readDocuments, bind_eq_error hu]
      simp [hnot]

/-- `open` raises just if a file that is not tracked yet cannot be read; the counts
are raised then, and nothing else is done. -/
theorem openDocuments_error_iff (uris : List Uri) (w : World) :
    (∃ e w', c.openDocuments uris w = .error e w') ↔
      ∃ u ∈ uris, w.doc.states u = none ∧ ¬ Readable c u w := by
  have hbegin : doc (fun m => m.openBegin uris) w =
      .ok (w.doc.openBegin uris).1 { w with doc := (w.doc.openBegin uris).2 } := rfl
  have hmem : (∃ u ∈ (w.doc.openBegin uris).1, ¬ Readable c u w) ↔
      ∃ u ∈ uris, w.doc.states u = none ∧ ¬ Readable c u w := by
    simp only [openBegin_mem, and_assoc]
  rw [openDocuments, bind_eq_ok hbegin, ← hmem]
  by_cases hnil : (w.doc.openBegin uris).1 = []
  · rw [if_pos hnil, hnil]
    exact ⟨fun ⟨_, _, h⟩ => (nomatch h), fun ⟨_, h, _⟩ => (nomatch h)⟩
  · rw [if_neg hnil]
    have hreads := readDocuments_error_iff (c := c) (w.doc.openBegin uris).1 ∅
      { w with doc := (w.doc.openBegin uris).2 }
    simp only [fun u => readable_congr (c := c) (u := u)
      (show ({ w with doc := (w.doc.openBegin uris).2 } : World).fs = w.fs from rfl)] at hreads
    rw [← hreads]
    constructor
    · rintro ⟨e, w', h⟩
      obtain hread | ⟨new, w₂, -, h⟩ := bind_error_elim h
      · exact ⟨e, w', hread⟩
      · cases h
    · rintro ⟨e, w', h⟩
      exact ⟨e, w', bind_eq_error h⟩

theorem openDocuments_error {uris : List Uri} {e : Exc} (h : c.openDocuments uris w = .error e w') :
    w'.doc = (w.doc.openBegin uris).2 := by
  obtain hbegin | ⟨newUris, w₁, hbegin, h⟩ := bind_error_elim h
  · cases hbegin
  · obtain ⟨rfl, rfl⟩ := doc_ok hbegin
    split_ifs at h
    · cases h
    · obtain hread | ⟨new, w₂, -, h⟩ := bind_error_elim h
      · rw [← (c.reads_readDocuments _ _).of_error hread]
      · cases h

/-- A URI that is counted already is tracked after it is opened and closed once. -/
theorem open_close_tracked {u : Uri} {new : NewStates} (hcount : 1 ≤ w.doc.refCounts.get u)
    (h : c.openDocuments [u] w = .ok new w') : Tracked u (w'.doc.close [u]).2 := by
  obtain ⟨reads, hopen⟩ := openDocuments_openUris h
  obtain ⟨hdoc, hnew⟩ := openUris_some hopen
  have hget : w'.doc.refCounts.get u = w.doc.refCounts.get u + 1 := by
    rw [hdoc]
    exact (w.doc.refCounts.get_update [u] u).trans (by simp)
  obtain ⟨-, hs, -⟩ := w'.doc.close_held (List.mem_cons_self : u ∈ [u])
    (by rw [hget, List.count_singleton_self]; omega)
  have hstates : w'.doc.states u = (new.lookup u).or (w.doc.states u) := by rw [hdoc]; rfl
  unfold Tracked
  rw [hs, hstates]
  cases hu : w.doc.states u with
  | some d => cases new.lookup u <;> rfl
  | none =>
    have hl := hnew u
    rw [if_pos ⟨List.mem_cons_self, hu⟩] at hl
    obtain ⟨d, hd, -⟩ := hl
    rw [hd]
    rfl

/-- **A failed `open` has counted.** It leaves the manager as it was just if it cannot
fail, all the files it would read being readable. If it fails, the states are as before
and every requested URI is counted once more for each time it was requested; so after
a later `open` and `close` of one of them that succeed, it is tracked. -/
theorem open_raises (uris : List Uri) (w : World) :
    ((∀ e w', c.openDocuments uris w = .error e w' → w'.doc = w.doc) ↔
      ∀ u ∈ uris, w.doc.states u = none → Readable c u w) ∧
    ∀ e w', c.openDocuments uris w = .error e w' → w'.doc.states = w.doc.states ∧
      (∀ u, w'.doc.refCounts.get u = w.doc.refCounts.get u + uris.count u) ∧
      ∀ u ∈ uris, 0 ≤ w.doc.refCounts.get u → ∀ w₁ new w₂, w₁.doc = w'.doc →
        c.openDocuments [u] w₁ = .ok new w₂ → Tracked u (w₂.doc.close [u]).2 := by
  have hraised := openDocuments_error_iff (c := c) uris w
  refine ⟨⟨fun h u hu hnone => ?_, fun h e w' hopen => ?_⟩, fun e w' hopen => ?_⟩
  · by_contra hnot
    obtain ⟨e, w', hopen⟩ := hraised.mpr ⟨u, hu, hnone, hnot⟩
    have hget : (w.doc.openBegin uris).2.refCounts.get u = w.doc.refCounts.get u + uris.count u :=
      w.doc.refCounts.get_update uris u
    rw [← openDocuments_error hopen, h e w' hopen] at hget
    have hpos := List.count_pos_iff.mpr hu
    omega
  · obtain ⟨u, hu, hnone, hnot⟩ := hraised.mp ⟨e, w', hopen⟩
    exact absurd (h u hu hnone) hnot
  · have hdoc := openDocuments_error hopen
    have hget : ∀ u, w'.doc.refCounts.get u = w.doc.refCounts.get u + uris.count u := fun u => by
      rw [hdoc]
      exact w.doc.refCounts.get_update uris u
    refine ⟨by rw [hdoc]; rfl, hget, fun u hu hge w₁ new w₂ hw₁ hlater => ?_⟩
    refine open_close_tracked ?_ hlater
    have hpos := List.count_pos_iff.mpr hu
    rw [hw₁, hget]
    omega

end OpenDocuments

/-- **A missing file is requested, appears, is opened and is closed**, and stays tracked. -/
theorem open_missing : ∃ e w', Small.client.openDocuments [Small.uriA] (Small.world []) = .error e w' ∧
    w'.doc.refCounts.get Small.uriA = 1 ∧ w'.doc ≠ (Small.world []).doc ∧
    ∃ new w₂, Small.client.openDocuments [Small.uriA]
        { Small.world [("a".toList, "x".toList)] with doc := w'.doc } = .ok new w₂ ∧
      Tracked Small.uriA (w₂.doc.close [Small.uriA]).2 := by
  cases hopen : Small.client.openDocuments [Small.uriA] (Small.world []) with
  | ok new w' =>
    have hrun : returned (Small.client.openDocuments [Small.uriA] (Small.world [])) (fun _ _ => ()) =
        none := by decide +kernel
    rw [hopen] at hrun
    cases hrun
  | error e w' =>
    have hdoc := openDocuments_error hopen
    have hget : w'.doc.refCounts.get Small.uriA = 1 := by rw [hdoc]; rfl
    refine ⟨e, w', rfl, hget, fun h => ?_, ?_⟩
    · rw [h] at hget
      cases hget
    · have hrun : returned (Small.client.openDocuments [Small.uriA]
          { Small.world [("a".toList, "x".toList)] with
            doc := (DocumentStateManager.empty.openBegin [Small.uriA]).2 }) (fun _ _ => ()) =
              some () := by decide +kernel
      obtain ⟨new, w₂, hlater, -⟩ := returned_some hrun
      have hworld : ({ Small.world [("a".toList, "x".toList)] with doc := w'.doc } : World) =
          { Small.world [("a".toList, "x".toList)] with
            doc := (DocumentStateManager.empty.openBegin [Small.uriA]).2 } := by rw [hdoc]; rfl
      rw [hworld]
      exact ⟨new, w₂, hlater, open_close_tracked (by decide) hlater⟩

end ManagerRuns
end LspClient
