/-
# Call and type hierarchies

`capability/request/call_hierarchy.py` and `type_hierarchy.py`. A query asks
the server to prepare the items at a position, and then, for all of them at
once, for what belongs to each item. One task an item extends one list when its
response is there.

So the list is put together in the order in which the responses arrive. It is
the items' order for every arrival just if what belongs to any two items is the
same list put together either way (`hierarchy_query_iff`); in any case nothing
is lost or comes twice, and the answer is `None` just if all responses are empty
(`hierarchy_query_perm`).

Key definitions: `HierarchyQuery`, `HierarchyQuery.request`, `inOrder`.
Key theorems: `hierarchy_query_iff`, `hierarchy_query_perm`, `hierarchy_query_failed`.
-/
import LspClient.Lib.Gather
import LspClient.Text
import Mathlib.Data.List.Basic

namespace LspClient
namespace Hierarchy

open Gather

/-- The queries for what belongs to each of the prepared items. -/
inductive HierarchyQuery where
  | incomingCall
  | outgoingCall
  | supertypes
  | subtypes
  deriving DecidableEq

/-- The request that prepares the items. -/
def HierarchyQuery.prepareMethod : HierarchyQuery → Text
  | incomingCall | outgoingCall => "textDocument/prepareCallHierarchy".toList
  | supertypes | subtypes => "textDocument/prepareTypeHierarchy".toList

/-- The request that is made for each item. -/
def HierarchyQuery.itemMethod : HierarchyQuery → Text
  | incomingCall => "callHierarchy/incomingCalls".toList
  | outgoingCall => "callHierarchy/outgoingCalls".toList
  | supertypes => "typeHierarchy/supertypes".toList
  | subtypes => "typeHierarchy/subtypes".toList

variable {ε Item α : Type}

/-- What comes back of the requests: of the one that prepares, by its method, and of the one for the
item at a place, by its method. -/
structure Responses (ε Item α : Type) where
  prepare : Text → Except ε (Option (List Item))
  item : Text → ℕ → Item → Except ε (Option (List α))

/-- `if calls: return calls`, and `None` else. -/
def unlessEmpty (calls : List α) : Option (List α) := if calls = [] then none else some calls

/-- What the task of an item extends the list with: `if resp := await request(..): calls.extend(resp)`. -/
def extension (reply : Except ε (Option (List α))) : Except ε (List α) :=
  match reply with
  | .ok resp => .ok (resp.getD [])
  | .error e => .error e

/-- What the task at a place comes to. -/
def taskResult (responses : Responses ε Item α) (method : Text) (items : List Item) (k : ℕ) :
    Except ε (List α) :=
  match items[k]? with
  | some item => extension (responses.item method k item)
  | none => .ok []

/-- The four methods, with the tasks going on in this order as their responses arrive; `none` if that
leaves a task waiting. -/
def HierarchyQuery.request (query : HierarchyQuery) (responses : Responses ε Item α) (order : List ℕ) :
    Option (Except ε (Option (List α))) :=
  match responses.prepare query.prepareMethod with
  | .error e => some (.error e)
  | .ok prepared =>
    let items := prepared.getD []
    if items.isEmpty then some (.ok none)
    else (gather (taskResult responses query.itemMethod items) (List.range items.length) order).map
      fun calls => calls.map unlessEmpty

/-- `request_call_hierarchy_incoming_call`. -/
def requestCallHierarchyIncomingCall (responses : Responses ε Item α) (order : List ℕ) :
    Option (Except ε (Option (List α))) := HierarchyQuery.incomingCall.request responses order

/-- `request_call_hierarchy_outgoing_call`. -/
def requestCallHierarchyOutgoingCall (responses : Responses ε Item α) (order : List ℕ) :
    Option (Except ε (Option (List α))) := HierarchyQuery.outgoingCall.request responses order

/-- `request_type_hierarchy_supertypes`. -/
def requestTypeHierarchySupertypes (responses : Responses ε Item α) (order : List ℕ) :
    Option (Except ε (Option (List α))) := HierarchyQuery.supertypes.request responses order

/-- `request_type_hierarchy_subtypes`. -/
def requestTypeHierarchySubtypes (responses : Responses ε Item α) (order : List ℕ) :
    Option (Except ε (Option (List α))) := HierarchyQuery.subtypes.request responses order

/-! ### The order of the items -/

/-- What belongs to each item, in the order of the items. -/
def perItem (responses : Responses ε Item α) (method : Text) (items : List Item) : List (List α) :=
  items.mapIdx fun k item => found (extension (responses.item method k item))

theorem unlessEmpty_inj {a b : List α} (h : unlessEmpty a = unlessEmpty b) : a = b := by
  unfold unlessEmpty at h
  split at h <;> split at h <;> simp_all

theorem unlessEmpty_getD (calls : List α) : (unlessEmpty calls).getD [] = calls := by
  unfold unlessEmpty
  split <;> simp_all

theorem unlessEmpty_eq_none {calls : List α} : unlessEmpty calls = none ↔ calls = [] := by
  unfold unlessEmpty
  split <;> simp_all

variable {responses : Responses ε Item α} {method : Text} {items : List Item}

theorem perItem_eq : perItem responses method items =
    (List.range items.length).map fun k => found (taskResult responses method items k) := by
  refine List.ext_getElem (by simp [perItem]) fun k hk _ => ?_
  have hlt : k < items.length := by simpa [perItem] using hk
  simp [perItem, taskResult, hlt]

theorem perItem_flatten : (perItem responses method items).flatten =
    (List.range items.length).flatMap fun k => found (taskResult responses method items k) := by
  rw [perItem_eq, ← List.flatMap_def]

/-- The tasks find something just if no response is an error. -/
theorem taskResult_ok_iff : (∀ k ∈ List.range items.length, ∃ as, taskResult responses method items k = .ok as) ↔
    ¬∃ k item e, items[k]? = some item ∧ responses.item method k item = .error e := by
  constructor
  · rintro h ⟨k, item, e, hk, he⟩
    have hlt : k < items.length := (List.getElem?_eq_some_iff.mp hk).1
    obtain ⟨as, has⟩ := h k (List.mem_range.mpr hlt)
    rw [taskResult, hk] at has
    simp only [he, extension] at has
    cases has
  · intro h k hk
    obtain ⟨item, hitem⟩ : ∃ item, items[k]? = some item :=
      ⟨_, List.getElem?_eq_getElem (List.mem_range.mp hk)⟩
    rw [taskResult, hitem]
    cases hreply : responses.item method k item with
    | ok resp => exact ⟨resp.getD [], by simp only [hreply, extension]⟩
    | error e => exact absurd ⟨k, item, e, hitem, hreply⟩ h

section Query

variable (query : HierarchyQuery) (prepared : Option (List Item))
  (item : Text → ℕ → Item → Except ε (Option (List α)))

/-- The responses to a query whose items have been prepared. -/
def answering : Responses ε Item α := ⟨fun _ => .ok prepared, item⟩

variable {query prepared item}

/-- **What a query returns**: what belongs to the items, in the order in which the responses arrived. -/
theorem request_ok_iff {order : List ℕ} {r : Option (List α)}
    (hne : prepared.getD [] ≠ []) :
    query.request (answering prepared item) order = some (.ok r) ↔
      order.Perm (List.range (prepared.getD []).length) ∧
      (¬∃ k i e, (prepared.getD [])[k]? = some i ∧ item query.itemMethod k i = .error e) ∧
      r = unlessEmpty (order.flatMap fun k =>
        found (taskResult (answering prepared item) query.itemMethod (prepared.getD []) k)) := by
  have hempty : (prepared.getD []).isEmpty = false := by simpa using hne
  have hrequest : query.request (answering prepared item) order =
      (gather (taskResult (answering prepared item) query.itemMethod (prepared.getD []))
        (List.range (prepared.getD []).length) order).map fun calls => calls.map unlessEmpty := by
    unfold HierarchyQuery.request
    show (if (prepared.getD []).isEmpty then _ else _) = _
    rw [hempty, if_neg Bool.false_ne_true]
  rw [hrequest, Option.map_eq_some_iff]
  constructor
  · rintro ⟨calls, hcalls, hr⟩
    cases calls with
    | error e => cases hr
    | ok calls =>
      obtain ⟨hperm, hall, rfl⟩ := gather_ok_iff.mp hcalls
      exact ⟨hperm, taskResult_ok_iff.mp hall, (Except.ok.inj hr).symm⟩
  · rintro ⟨hperm, hall, rfl⟩
    exact ⟨_, gather_ok_iff.mpr ⟨hperm, taskResult_ok_iff.mpr hall, rfl⟩, rfl⟩

/-- Without items the answer is `None`. -/
theorem request_nothing {order : List ℕ} (h : prepared.getD [] = []) :
    query.request (answering prepared item) order = some (.ok none) := by
  unfold HierarchyQuery.request
  show (if (prepared.getD []).isEmpty then _ else _) = _
  rw [h]
  rfl

end Query

/-- **When a query does not depend on the timing.** Every list it returns is what belongs to the items in
their order, `None` if that is empty, just if a request for an item fails, so that it returns none, or
of any two items what belongs to them is the same list put together either way. -/
theorem hierarchy_query_iff (query : HierarchyQuery) (prepared : Option (List Item))
    (item : Text → ℕ → Item → Except ε (Option (List α))) :
    (∀ order r, query.request (answering prepared item) order = some (.ok r) →
      r = unlessEmpty (perItem (answering prepared item) query.itemMethod (prepared.getD [])).flatten) ↔
    (∃ k i e, (prepared.getD [])[k]? = some i ∧ item query.itemMethod k i = .error e) ∨
      (perItem (answering prepared item) query.itemMethod (prepared.getD [])).Pairwise
        fun a b => a ++ b = b ++ a := by
  by_cases hne : prepared.getD [] = []
  · have hper : perItem (answering prepared item) query.itemMethod (prepared.getD []) = [] := by
      rw [hne]
      rfl
    rw [hper]
    refine iff_of_true (fun order r h => ?_) (.inr .nil)
    rw [request_nothing hne] at h
    exact (Except.ok.inj (Option.some.inj h)).symm
  · by_cases herror : ∃ k i e, (prepared.getD [])[k]? = some i ∧ item query.itemMethod k i = .error e
    · refine iff_of_true (fun order r h => ?_) (.inl herror)
      exact absurd herror ((request_ok_iff hne).mp h).2.1
    · rw [or_iff_right herror, perItem_flatten, perItem_eq, List.pairwise_map, ← flatMap_perm_iff]
      constructor
      · intro h order hperm
        exact unlessEmpty_inj (h order _ ((request_ok_iff hne).mpr ⟨hperm, herror, rfl⟩))
      · intro h order r hr
        obtain ⟨hperm, -, rfl⟩ := (request_ok_iff hne).mp hr
        rw [h order hperm]

/-- The response for the second of two items arrives first. -/
theorem incoming_calls_swapped :
    ¬∀ order r, requestCallHierarchyIncomingCall (ε := Empty)
        (answering (some [0, 1]) fun _ k _ => .ok (some [k])) order = some (.ok r) →
      r = unlessEmpty (perItem (ε := Empty) (answering (some [0, 1]) fun _ k _ => .ok (some [k]))
        "callHierarchy/incomingCalls".toList [0, 1]).flatten := by
  intro h
  have hswapped := h [1, 0] (some [1, 0]) (by decide)
  exact absurd hswapped (by decide)

/-- When all requests succeed, the query returns, in whatever order the responses arrive. -/
theorem request_returns {query : HierarchyQuery} {prepared : Option (List Item)}
    {item : Text → ℕ → Item → Except ε (Option (List α))} {order : List ℕ}
    (horder : order.Perm (List.range (prepared.getD []).length))
    (hok : ∀ k i, (prepared.getD [])[k]? = some i → ∃ resp, item query.itemMethod k i = .ok resp) :
    ∃ r, query.request (answering prepared item) order = some (.ok r) := by
  by_cases hne : prepared.getD [] = []
  · exact ⟨none, request_nothing hne⟩
  · refine ⟨_, (request_ok_iff hne).mpr ⟨horder, ?_, rfl⟩⟩
    rintro ⟨k, i, e, hk, herror⟩
    obtain ⟨resp, hresp⟩ := hok k i hk
    rw [hresp] at herror
    cases herror

/-- **Nothing is lost, and nothing comes twice.** If the requests succeed, the query returns in
whatever order their responses arrive. The list it returns is what belongs to the items, put together
in some order, and the answer is `None` just if it is empty. -/
theorem hierarchy_query_perm (query : HierarchyQuery) (prepared : Option (List Item))
    (item : Text → ℕ → Item → Except ε (Option (List α))) (order : List ℕ) :
    (order.Perm (List.range (prepared.getD []).length) →
      (∀ k i, (prepared.getD [])[k]? = some i → ∃ resp, item query.itemMethod k i = .ok resp) →
        ∃ r, query.request (answering prepared item) order = some (.ok r)) ∧
    ∀ r, query.request (answering prepared item) order = some (.ok r) →
      (r.getD []).Perm (perItem (answering prepared item) query.itemMethod (prepared.getD [])).flatten ∧
      (r = none ↔ ∀ calls ∈ perItem (answering prepared item) query.itemMethod (prepared.getD []),
        calls = []) := by
  refine ⟨request_returns, fun r h => ?_⟩
  by_cases hne : prepared.getD [] = []
  · rw [request_nothing hne] at h
    obtain rfl := Except.ok.inj (Option.some.inj h)
    rw [hne]
    exact ⟨.nil, by simp [perItem]⟩
  · obtain ⟨hperm, -, rfl⟩ := (request_ok_iff hne).mp h
    have hcalls := hperm.flatMap_right fun k =>
      found (taskResult (answering prepared item) query.itemMethod (prepared.getD []) k)
    rw [← perItem_flatten] at hcalls
    refine ⟨by rwa [unlessEmpty_getD], ?_⟩
    rw [unlessEmpty_eq_none, ← List.flatten_eq_nil_iff]
    exact ⟨fun hnil => (hnil ▸ hcalls).symm.eq_nil, fun hnil => (hnil ▸ hcalls).eq_nil⟩

/-- The two items again: their calls come the other way round, and all of them. -/
theorem hierarchy_query_perm_swapped :
    ([1, 0] : List ℕ).Perm (perItem (ε := Empty) (answering (some [0, 1]) fun _ k _ => .ok (some [k]))
      "callHierarchy/incomingCalls".toList [0, 1]).flatten := by
  have hquery : HierarchyQuery.incomingCall.request (ε := Empty)
      (answering (some [0, 1]) fun _ k _ => .ok (some [k])) [1, 0] = some (.ok (some [1, 0])) := by decide
  exact ((hierarchy_query_perm _ _ _ _).2 _ hquery).1

/-- What a query raises, one of its requests has raised. -/
theorem hierarchy_query_failed {query : HierarchyQuery} {responses : Responses ε Item α}
    {order : List ℕ} {e : ε} (h : query.request responses order = some (.error e)) :
    responses.prepare query.prepareMethod = .error e ∨
      ∃ prepared k i, responses.prepare query.prepareMethod = .ok prepared ∧
        (prepared.getD [])[k]? = some i ∧ responses.item query.itemMethod k i = .error e := by
  unfold HierarchyQuery.request at h
  cases hprepare : responses.prepare query.prepareMethod with
  | error e' =>
    rw [hprepare] at h
    exact .inl (congrArg _ (Except.error.inj (Option.some.inj h)))
  | ok prepared =>
    rw [hprepare] at h
    simp only at h
    split at h
    · cases Option.some.inj h
    · obtain ⟨calls, hcalls, hr⟩ := Option.map_eq_some_iff.mp h
      cases calls with
      | ok calls => cases hr
      | error e' =>
        obtain rfl := Except.error.inj hr
        obtain ⟨k, -, hk⟩ := gather_error hcalls
        unfold taskResult at hk
        split at hk
        · rename_i i hi
          unfold extension at hk
          split at hk
          · cases hk
          · rename_i e hreply
            obtain rfl := Except.error.inj hk
            exact .inr ⟨prepared, k, i, rfl, hi, hreply⟩
        · cases hk

end Hierarchy
end LspClient
