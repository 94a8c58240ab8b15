/-
# Open documents

`DocumentStateManager` of `client/document_state.py`: the tracked documents
and how often each is open. `open` runs in three parts, between which it is
suspended: `openBegin` counts and finds what is new, the new files are read,
and `openCommit` stores what was read. `close` runs at once; what it does to
each URI is `close_untouched`, `close_released` and `close_held`.

Key definitions: `DocumentState`, `DocumentStateManager`, `openBegin`,
`openCommit`, `close`, `updateContent`.
Key theorems: `close_released`, `close_held`.
-/
import LspClient.Uri
import Mathlib.Data.List.AList
import Mathlib.Logic.Function.Basic

namespace LspClient

/-- The name of an encoding, a `str`. -/
abbrev Encoding := Text

/-- The `default="utf-8"` of the manager's methods. -/
def utf8 : Encoding := "utf-8".toList

/-- `DocumentState`. -/
structure DocumentState where
  content : Text
  version : ℤ
  encoding : Encoding
  deriving DecidableEq, Repr

/-- A `Counter`: a missing key counts 0. -/
abbrev Counter := Uri → Option ℤ

namespace Counter

/-- `counter[u]`. -/
def get (c : Counter) (u : Uri) : ℤ := (c u).getD 0

/-- `counter[u] = n`. -/
def set (c : Counter) (u : Uri) (n : ℤ) : Counter := Function.update c u (some n)

/-- `del counter[u]`, which a missing key does not mind. -/
def del (c : Counter) (u : Uri) : Counter := Function.update c u none

/-- `counter.update(uris)`. -/
def update (c : Counter) (uris : List Uri) : Counter :=
  uris.foldl (fun c u => c.set u (c.get u + 1)) c

/-- `counter.subtract(uris)`. -/
def subtract (c : Counter) (uris : List Uri) : Counter :=
  uris.foldl (fun c u => c.set u (c.get u - 1)) c

end Counter

/-- `DocumentStateManager`: `_states` and `_ref_counts`. -/
structure DocumentStateManager where
  states : Uri → Option DocumentState
  refCounts : Counter

/-- What one call of `open` has read: `new_states`. -/
abbrev NewStates := AList fun _ : Uri => DocumentState

/-- The URIs and the contents of `new_docs.items()`. -/
def NewStates.contents (new : NewStates) : List (Uri × Text) :=
  new.entries.map fun e => (e.1, e.2.content)

namespace DocumentStateManager

def empty : DocumentStateManager := ⟨fun _ => none, fun _ => none⟩

/-- `open` up to the reads: the URIs that are not tracked, and everything counted. -/
def openBegin (m : DocumentStateManager) (uris : List Uri) : List Uri × DocumentStateManager :=
  (uris.filter fun u => (m.states u).isNone, { m with refCounts := m.refCounts.update uris })

/-- `open` after the reads: `self._states.update(new_states)`. -/
def openCommit (m : DocumentStateManager) (new : NewStates) : DocumentStateManager :=
  { m with states := fun u => (new.lookup u).or (m.states u) }

/-- The loop of `close`. -/
def closeLoop : DocumentStateManager → List Uri → List Uri × DocumentStateManager
  | m, [] => ([], m)
  | m, u :: us =>
    if m.refCounts.get u ≤ 0 then
      let m := { m with refCounts := m.refCounts.del u }
      if (m.states u).isSome then
        let r := closeLoop { m with states := Function.update m.states u none } us
        (u :: r.1, r.2)
      else closeLoop m us
    else closeLoop m us

/-- `close`: the URIs that are really closed. -/
def close (m : DocumentStateManager) (uris : List Uri) : List Uri × DocumentStateManager :=
  closeLoop { m with refCounts := m.refCounts.subtract uris } uris

/-- `register`. -/
def register (m : DocumentStateManager) (u : Uri) (content : Text) (version : ℤ)
    (encoding : Encoding) : Option DocumentState × DocumentStateManager :=
  if (m.states u).isSome then (none, m)
  else
    let state := ⟨content, version, encoding⟩
    (some state, ⟨Function.update m.states u (some state), m.refCounts.set u 1⟩)

/-- `unregister`. -/
def unregister (m : DocumentStateManager) (u : Uri) : Option DocumentState × DocumentStateManager :=
  match m.states u with
  | some state => (some state, ⟨Function.update m.states u none, m.refCounts.del u⟩)
  | none => (none, m)

def getVersion (m : DocumentStateManager) (u : Uri) : Option ℤ := (m.states u).map (·.version)

def getContent (m : DocumentStateManager) (u : Uri) : Option Text := (m.states u).map (·.content)

def getEncoding (m : DocumentStateManager) (u : Uri) : Encoding :=
  ((m.states u).map (·.encoding)).getD utf8

/-- `increment_version`. -/
def incrementVersion (m : DocumentStateManager) (u : Uri) : Option ℤ × DocumentStateManager :=
  match m.states u with
  | some state =>
    (some (state.version + 1),
      { m with states := Function.update m.states u (some { state with version := state.version + 1 }) })
  | none => (none, m)

/-- `update_content`. -/
def updateContent (m : DocumentStateManager) (u : Uri) (content : Text) :
    Option ℤ × DocumentStateManager :=
  match m.states u with
  | some state =>
    (some (state.version + 1),
      { m with states :=
          Function.update m.states u (some ⟨content, state.version + 1, state.encoding⟩) })
  | none => (none, m)

end DocumentStateManager

theorem NewStates.mem_contents {new : NewStates} {u : Uri} {t : Text} :
    (u, t) ∈ new.contents ↔ ∃ d, new.lookup u = some d ∧ d.content = t := by
  constructor
  · intro h
    obtain ⟨⟨v, d⟩, hd, he⟩ := List.mem_map.mp h
    cases he
    exact ⟨d, AList.mem_lookup_iff.mpr hd, rfl⟩
  · rintro ⟨d, hd, rfl⟩
    exact List.mem_map.mpr ⟨⟨u, d⟩, AList.mem_lookup_iff.mp hd, rfl⟩

theorem NewStates.contents_nodup (new : NewStates) : (new.contents.map Prod.fst).Nodup := by
  rw [contents, List.map_map]
  exact new.nodupKeys

/-! ### Counting -/

namespace Counter

theorem get_set (c : Counter) (u v : Uri) (n : ℤ) :
    (c.set u n) v = if v = u then some n else c v := by
  rw [set, Function.update_apply]

/-- Counting by `k` for each URI of a list. -/
theorem foldl_add_apply (k : ℤ) (uris : List Uri) (c : Counter) (u : Uri) :
    (uris.foldl (fun c v => c.set v (c.get v + k)) c) u =
      if u ∈ uris then some (c.get u + k * uris.count u) else c u := by
  induction uris generalizing c with
  | nil => simp
  | cons v vs ih =>
    rw [List.foldl_cons, ih]
    by_cases hu : u = v
    · subst hu
      by_cases hm : u ∈ vs
      · simp only [hm, get, get_set, ↓reduceIte, Option.getD_some, List.mem_cons, true_or,
          List.count_cons_self, Int.natCast_add, Int.natCast_one, Int.mul_add, Int.mul_one]
        exact congrArg some (by omega)
      · simp [hm, get_set, List.count_eq_zero_of_not_mem hm]
    · have hcount : (v :: vs).count u = vs.count u := List.count_cons_of_ne (Ne.symm hu)
      by_cases hm : u ∈ vs
      · simp [hm, get, get_set, hu, hcount]
      · simp [hm, get_set, hu]

theorem update_apply (c : Counter) (uris : List Uri) (u : Uri) :
    c.update uris u = if u ∈ uris then some (c.get u + uris.count u) else c u := by
  rw [update, foldl_add_apply 1, Int.one_mul]

theorem get_update (c : Counter) (uris : List Uri) (u : Uri) :
    (c.update uris).get u = c.get u + uris.count u := by
  unfold get
  rw [update_apply]
  split_ifs with hu
  · rfl
  · rw [List.count_eq_zero_of_not_mem hu]
    exact (Int.add_zero _).symm

theorem subtract_apply (c : Counter) (uris : List Uri) (u : Uri) :
    c.subtract uris u = if u ∈ uris then some (c.get u - uris.count u) else c u := by
  show uris.foldl (fun c v => c.set v (c.get v + -1)) c u = _
  rw [foldl_add_apply (-1), Int.neg_mul, Int.one_mul, ← Int.sub_eq_add_neg]

end Counter

namespace DocumentStateManager

/-! ### Closing -/

/-- What the loop does to one URI. -/
theorem closeLoop_apply : ∀ (us : List Uri) (m : DocumentStateManager) (u : Uri),
    let r := closeLoop m us
    if u ∈ us ∧ m.refCounts.get u ≤ 0 then
      r.2.refCounts u = none ∧ r.2.states u = none ∧
        r.1.count u = if (m.states u).isSome then 1 else 0
    else r.2.refCounts u = m.refCounts u ∧ r.2.states u = m.states u ∧ r.1.count u = 0
  | [], m, u => by simp [closeLoop]
  | v :: vs, m, u => by
    simp only [closeLoop]
    by_cases hv : m.refCounts.get v ≤ 0
    · rw [if_pos hv]
      by_cases hs : (m.states v).isSome = true
      · rw [if_pos hs]
        have ih := closeLoop_apply vs
          ⟨Function.update m.states v none, m.refCounts.del v⟩ u
        by_cases hu : u = v
        · -- its entry is gone already: the rest of the loop does not find it
          subst hu
          simp only [Counter.del, Function.update_self, Option.isSome_none, Bool.false_eq_true,
            if_false, ite_self] at ih
          rw [if_pos ⟨List.mem_cons_self, hv⟩, if_pos hs, List.count_cons_self]
          exact ⟨ih.1, ih.2.1, by rw [Counter.del, ih.2.2]⟩
        · simpa [Counter.get, Counter.del, hu, List.count_cons_of_ne (Ne.symm hu)] using ih
      · rw [if_neg hs]
        have hnone : m.states v = none := by simpa using hs
        have ih := closeLoop_apply vs ⟨m.states, m.refCounts.del v⟩ u
        by_cases hu : u = v
        · subst hu
          simp only [Counter.del, Function.update_self, hnone, Option.isSome_none,
            Bool.false_eq_true, if_false, ite_self] at ih
          rw [if_pos ⟨List.mem_cons_self, hv⟩, if_neg hs]
          exact ih
        · simpa [Counter.get, Counter.del, hu] using ih
    · rw [if_neg hv]
      have ih := closeLoop_apply vs m u
      by_cases hu : u = v
      · subst hu
        simpa [hv] using ih
      · simpa [hu] using ih

/-- A URI that is not in the list is left alone. -/
theorem close_untouched (m : DocumentStateManager) {uris : List Uri} {u : Uri} (h : u ∉ uris) :
    (m.close uris).2.refCounts u = m.refCounts u ∧ (m.close uris).2.states u = m.states u ∧
      (m.close uris).1.count u = 0 := by
  have := closeLoop_apply uris { m with refCounts := m.refCounts.subtract uris } u
  simpa [close, h, Counter.subtract_apply] using this

/-- A URI that nobody holds any more is dropped, and reported if it was tracked. -/
theorem close_released (m : DocumentStateManager) {uris : List Uri} {u : Uri} (h : u ∈ uris)
    (hn : m.refCounts.get u ≤ uris.count u) :
    (m.close uris).2.refCounts u = none ∧ (m.close uris).2.states u = none ∧
      (m.close uris).1.count u = if (m.states u).isSome then 1 else 0 := by
  have hr := closeLoop_apply uris { m with refCounts := m.refCounts.subtract uris } u
  have hget : (m.refCounts.subtract uris).get u ≤ 0 := by
    rw [Counter.get, Counter.subtract_apply, if_pos h, Option.getD_some]
    omega
  simpa [close, h, hget] using hr

/-- A URI that is still held stays tracked. -/
theorem close_held (m : DocumentStateManager) {uris : List Uri} {u : Uri} (h : u ∈ uris)
    (hn : (uris.count u : ℤ) < m.refCounts.get u) :
    (m.close uris).2.refCounts u = some (m.refCounts.get u - uris.count u) ∧
      (m.close uris).2.states u = m.states u ∧ (m.close uris).1.count u = 0 := by
  have hr := closeLoop_apply uris { m with refCounts := m.refCounts.subtract uris } u
  have hget : ¬ (m.refCounts.subtract uris).get u ≤ 0 := by
    rw [Counter.get, Counter.subtract_apply, if_pos h, Option.getD_some]
    omega
  simpa [close, h, hget, Counter.subtract_apply] using hr

/-- What is reported is no longer tracked, and the rest as it was. -/
theorem close_states (m : DocumentStateManager) (uris : List Uri) (u : Uri) :
    (u ∈ (m.close uris).1 → (m.states u).isSome = true) ∧
      (m.close uris).2.states u = if u ∈ (m.close uris).1 then none else m.states u := by
  by_cases hu : u ∈ uris
  · by_cases hn : m.refCounts.get u ≤ uris.count u
    · obtain ⟨-, hs, hc⟩ := m.close_released hu hn
      cases hm : m.states u with
      | none =>
        rw [hm] at hc
        simp [List.count_eq_zero.mp hc, hs]
      | some d =>
        rw [hm] at hc
        have hin : u ∈ (m.close uris).1 := List.count_pos_iff.mp (by simp [hc])
        simp [hin, hs]
    · obtain ⟨-, hs, hc⟩ := m.close_held hu (by omega)
      simp [List.count_eq_zero.mp hc, hs]
  · obtain ⟨-, hs, hc⟩ := m.close_untouched hu
    simp [List.count_eq_zero.mp hc, hs]

/-! ### Updating -/

theorem states_of_none {m : DocumentStateManager} {u : Uri} (hs : m.states u = none) (v : Uri) :
    m.states v = if v = u then none else m.states v := by
  split_ifs with hv
  · rw [hv, hs]
  · rfl

theorem updateContent_states (m : DocumentStateManager) (u v : Uri) (content : Text) :
    (m.updateContent u content).2.states v =
      if v = u then (m.states u).map fun d => ⟨content, d.version + 1, d.encoding⟩
      else m.states v := by
  rw [updateContent]
  cases hs : m.states u with
  | none => exact states_of_none hs v
  | some d => simp [Function.update_apply]

theorem unregister_states (m : DocumentStateManager) (u v : Uri) :
    (m.unregister u).2.states v = if v = u then none else m.states v := by
  rw [unregister]
  cases hs : m.states u with
  | none => exact states_of_none hs v
  | some d => simp [Function.update_apply]

theorem updateContent_refCounts (m : DocumentStateManager) (u : Uri) (content : Text) :
    (m.updateContent u content).2.refCounts = m.refCounts := by
  rw [updateContent]
  split <;> rfl

end DocumentStateManager

end LspClient
