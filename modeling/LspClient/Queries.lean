/-
# Queries about documents

Every query of `capability/request` about a file is a request in a bracket of
`open_files`, so that the server knows the document: the document is to be open
at the server when the request reaches it. Brackets on one file share its one
`didOpen`; the one that comes second finds the document tracked and does not
wait for the `didOpen` that the first one is still to send. And what a query
asks for afterwards, item by item (`completionItem/resolve` and its like), it
asks for when its bracket is left. In the runs in which brackets keep apart, of
files whose URIs lead back to themselves, a request reaches an open document
exactly if its `didOpen` is sent; and a request to resolve exactly if another
bracket holds the document (`queries_heard_iff`).

The items are resolved at once, in one task each. What comes back is in the
order of the items, whatever the order of the responses (`resolveAll_iff`,
`queries_resolve_iff`).

Key definitions: `DocumentQuery`, `step`, `Heard`, `Announced`, `resolveAll`,
`requestCompletion`, `requestInlayHint`, `requestWorkspaceSymbolList`.
Key theorems: `serverOpen_iff`, `inv_step`, `queries_heard_iff`, `resolveAll_iff`,
`queries_resolve_iff`.
-/
import LspClient.Brackets
import LspClient.Lib.Gather

namespace LspClient
namespace Queries

open Brackets Run

/-! ### Requests in brackets -/

/-- The queries that hold the file open while they wait. -/
inductive DocumentQuery where
  | codeAction
  | completion
  | declaration
  | definition
  | diagnostic
  | documentSymbol
  | hover
  | implementation
  | inlayHint
  | inlineValue
  | prepareCallHierarchy
  | prepareRename
  | prepareTypeHierarchy
  | references
  | rename
  | signatureHelp
  | typeDefinition
  deriving DecidableEq, Repr

/-- What is sent in the bracket. -/
def DocumentQuery.method : DocumentQuery → Text
  | codeAction => "textDocument/codeAction".toList
  | completion => "textDocument/completion".toList
  | declaration => "textDocument/declaration".toList
  | definition => "textDocument/definition".toList
  | diagnostic => "textDocument/diagnostic".toList
  | documentSymbol => "textDocument/documentSymbol".toList
  | hover => "textDocument/hover".toList
  | implementation => "textDocument/implementation".toList
  | inlayHint => "textDocument/inlayHint".toList
  | inlineValue => "textDocument/inlineValue".toList
  | prepareCallHierarchy => "textDocument/prepareCallHierarchy".toList
  | prepareRename => "textDocument/prepareRename".toList
  | prepareTypeHierarchy => "textDocument/prepareTypeHierarchy".toList
  | references => "textDocument/references".toList
  | rename => "textDocument/rename".toList
  | signatureHelp => "textDocument/signatureHelp".toList
  | typeDefinition => "textDocument/typeDefinition".toList

/-- What is sent for each item of the reply, after the bracket. -/
def DocumentQuery.resolveMethod : DocumentQuery → Option Text
  | completion => some "completionItem/resolve".toList
  | inlayHint => some "inlayHint/resolve".toList
  | _ => none

/-- What reaches the server: the notifications of the brackets, and requests about a document. -/
inductive Sent where
  | note (n : Note)
  | request (method : Text) (u : Uri)
  deriving DecidableEq

structure State where
  base : Brackets.State
  wire : List Sent

inductive Action where
  /-- A step of the brackets. -/
  | bracket (a : Brackets.Action)
  /-- The body of bracket `b` sends its request. -/
  | ask (b : ℕ) (query : DocumentQuery) (u : Uri)
  /-- The query whose bracket `b` was has an item resolved. -/
  | resolve (b : ℕ) (query : DocumentQuery) (u : Uri)

def State.init : State := ⟨.init, []⟩

/-- One step; a request names its document by its own URI, `told u` is what the
notifications name it by. -/
def step (told : Uri → Uri) (s : State) : Action → Option State
  | .bracket a =>
    (Brackets.step told s.base a).map fun t => ⟨t, s.wire ++ (t.log.drop s.base.log.length).map .note⟩
  | .ask b query u =>
    match s.base.brackets[b]? with
    | some ⟨uris, .body⟩ =>
      if uris.contains u then some { s with wire := s.wire ++ [.request query.method u] } else none
    | _ => none
  | .resolve b query u =>
    match s.base.brackets[b]?, query.resolveMethod with
    | some ⟨uris, .closing []⟩, some method =>
      if uris.contains u then some { s with wire := s.wire ++ [.request method u] } else none
    | _, _ => none

/-- What each action does, and when. -/
inductive Steps (told : Uri → Uri) (s : State) : Action → State → Prop where
  | bracket {a : Brackets.Action} {t : Brackets.State} (h : Brackets.step told s.base a = some t) :
      Steps told s (.bracket a) ⟨t, s.wire ++ (t.log.drop s.base.log.length).map .note⟩
  | ask {b : ℕ} {query : DocumentQuery} {u : Uri} {uris : List Uri}
      (hb : s.base.brackets[b]? = some ⟨uris, .body⟩) (hu : u ∈ uris) :
      Steps told s (.ask b query u) { s with wire := s.wire ++ [.request query.method u] }
  | resolve {b : ℕ} {query : DocumentQuery} {u : Uri} {uris : List Uri} {method : Text}
      (hb : s.base.brackets[b]? = some ⟨uris, .closing []⟩) (hu : u ∈ uris)
      (hm : query.resolveMethod = some method) :
      Steps told s (.resolve b query u) { s with wire := s.wire ++ [.request method u] }

variable {told : Uri → Uri}

theorem step_cases {s t : State} {a : Action} (h : step told s a = some t) : Steps told s a t := by
  cases a with
  | bracket a =>
    obtain ⟨t', ht, rfl⟩ := Option.map_eq_some_iff.mp h
    exact .bracket ht
  | ask b query u =>
    simp only [step] at h
    split at h
    · rename_i hb
      split_ifs at h with hu
      cases h
      exact .ask hb (List.contains_iff_mem.mp hu)
    · cases h
  | resolve b query u =>
    simp only [step] at h
    split at h
    · rename_i hb hm
      split_ifs at h with hu
      cases h
      exact .resolve hb (List.contains_iff_mem.mp hu) hm
    · cases h

/-! ### What the server hears -/

/-- The notifications among what reaches the server. -/
def notes (wire : List Sent) : List Note :=
  wire.filterMap fun x => match x with
    | .note n => some n
    | .request _ _ => none

/-- The document is open, after these notifications. -/
def serverOpen (u : Uri) (log : List Note) : Prop := (kinds u log).getLast? = some true

/-- Every request is about a document that is open when it arrives. -/
def Heard (wire : List Sent) : Prop :=
  ∀ pre method u post, wire = pre ++ .request method u :: post → serverOpen u (notes pre)

theorem notes_append (wire wire' : List Sent) : notes (wire ++ wire') = notes wire ++ notes wire' :=
  List.filterMap_append

theorem notes_note (log : List Note) : notes (log.map .note) = log := by
  rw [notes, List.filterMap_map]
  exact List.filterMap_some

theorem heard_snoc {wire : List Sent} {x : Sent} : Heard (wire ++ [x]) ↔
    Heard wire ∧ ∀ method u, x = .request method u → serverOpen u (notes wire) := by
  constructor
  · refine fun h => ⟨fun pre method u post he => ?_, fun method u he => ?_⟩
    · exact h pre method u (post ++ [x]) (by rw [he, List.append_assoc, List.cons_append])
    · exact h wire method u [] (by rw [he])
  · rintro ⟨hwire, hlast⟩ pre method u post he
    rcases List.eq_nil_or_concat post with rfl | ⟨post, y, rfl⟩
    · obtain ⟨rfl, hx⟩ := List.append_inj' he rfl
      exact hlast method u (List.singleton_inj.mp hx)
    · rw [List.concat_eq_append, ← List.cons_append, ← List.append_assoc] at he
      exact hwire pre method u post (List.append_inj' he rfl).1

theorem heard_request {wire : List Sent} {method : Text} {u : Uri} :
    Heard (wire ++ [.request method u]) ↔ Heard wire ∧ serverOpen u (notes wire) := by
  rw [heard_snoc]
  refine and_congr_right fun _ => ⟨fun h => h method u rfl, fun h method' u' he => ?_⟩
  cases he
  exact h

theorem heard_notes {wire : List Sent} (log : List Note) : Heard (wire ++ log.map .note) ↔ Heard wire := by
  induction log using List.reverseRecOn with
  | nil => rw [List.map_nil, List.append_nil]
  | append_singleton log n ih =>
    rw [List.map_append, List.map_singleton, ← List.append_assoc, heard_snoc, ih]
    exact and_iff_left nofun

/-! ### When a document is open -/

/-- No bracket has still to send `didOpen` for it. -/
def Told (s : Brackets.State) (u : Uri) : Prop := ∀ b ∈ s.brackets, b.opens u = 0

/-- Some bracket has still to send `didClose` for it. -/
def Closing (s : Brackets.State) (u : Uri) : Prop := ∃ b ∈ s.brackets, b.closes u ≠ 0

/-- Some bracket holds it, and is not reading it. -/
def HeldOpen (s : Brackets.State) (u : Uri) : Prop := ∃ b ∈ s.brackets, 0 < b.holds u ∧ b.reads u = 0

theorem total_eq_zero_iff {f : Bracket → ℕ} {s : Brackets.State} :
    total f s = 0 ↔ ∀ b ∈ s.brackets, f b = 0 := by
  rw [total, List.sum_eq_zero_iff]
  simp

theorem told_iff {s : Brackets.State} {u : Uri} : Told s u ↔ (tally s u).unsentOpen = 0 :=
  total_eq_zero_iff.symm

theorem closing_iff {s : Brackets.State} {u : Uri} : Closing s u ↔ (tally s u).unsentClose ≠ 0 := by
  rw [Closing, tally, ne_eq, total_eq_zero_iff]
  push Not
  rfl

/-- A document is tracked exactly if a bracket holds it that is not reading it. -/
theorem heldOpen_iff {s : Brackets.State} {u : Uri} (h : Inv s) (ho : Owned s) :
    HeldOpen s u ↔ (s.doc.states u).isSome = true := by
  constructor
  · rintro ⟨⟨uris, phase⟩, hb, hholds, hreads⟩
    have hready := h.ready _ hb
    have hu : u ∈ uris ∨ ∃ unsent, phase = .closing unsent := by
      cases phase with
      | closing unsent => exact Or.inr ⟨unsent, rfl⟩
      | _ => exact Or.inl (List.count_pos_iff.mp hholds)
    cases phase with
    | reading todo got =>
      obtain ht | hg | ht := hready.1 u (hu.resolve_right (by simp))
      · simp [Bracket.reads, ht] at hreads
      · simp [Bracket.reads, hg] at hreads
      · exact ht
    | opening unsent => exact hready.1 u (hu.resolve_right (by simp))
    | body => exact hready u (hu.resolve_right (by simp))
    | closing unsent => exact absurd hholds (Nat.lt_irrefl 0)
  · intro ht
    have hread := (h.sound u).reading
    have hreads : total (Bracket.reads u) s = 0 := by
      simp only [tally, ht, if_true] at hread
      omega
    have hpos := ho u ht
    have hne : ¬ ∀ b ∈ s.brackets, b.holds u = 0 := fun hall => hpos.ne' (total_eq_zero_iff.mpr hall)
    push Not at hne
    obtain ⟨b, hb, hholds⟩ := hne
    exact ⟨b, hb, Nat.pos_of_ne_zero hholds, total_eq_zero_iff.mp hreads b hb⟩

/-- The last of notifications that alternate is a `didOpen` if there is an odd number of them. -/
theorem Alternates.last {wire : List Bool} (h : Alternates wire) :
    wire.getLast? = some true ↔ wire.length % 2 = 1 := by
  rcases Nat.eq_zero_or_pos wire.length with h0 | hpos
  · rw [List.length_eq_zero_iff.mp h0]
    decide
  · have hlast := h (wire.length - 1) (by omega)
    rw [List.getLast?_eq_getElem?, List.getElem?_eq_getElem (by omega), hlast, Option.some.injEq, beq_iff_eq]
    omega

/-- **When the server has a document open**: a bracket holds it and its
`didOpen` is sent, or a `didClose` is on its way. -/
theorem serverOpen_iff {s : Brackets.State} {u : Uri} (h : Inv s) (ho : Owned s) :
    serverOpen u s.log ↔ HeldOpen s u ∧ Told s u ∨ Closing s u := by
  obtain ⟨hwire, hopening, hreading, hclosing, hserver⟩ := h.sound u
  have htracked : HeldOpen s u ↔ (tally s u).tracked = 1 := by
    rw [heldOpen_iff h ho, tally]
    cases s.doc.states u <;> simp
  rw [serverOpen, show kinds u s.log = (tally s u).wire from rfl, Alternates.last hwire, htracked, told_iff,
    closing_iff]
  omega

/-! ### Runs -/

/-- The brackets keep apart. -/
def Apart (s : State) : Action → Prop
  | .bracket a => Brackets.Apart s.base a
  | _ => True

/-- The notifications of the action name their document by its own URI. -/
def Exact (told : Uri → Uri) : Action → Prop
  | .bracket a => ∀ u, a.announces = some u → told u = u
  | _ => True

/-- A query asks when the `didOpen` of its document is sent, and resolves while
another bracket holds it; or its `didClose` is still on its way. -/
def Announced (s : State) : Action → Prop
  | .bracket _ => True
  | .ask _ _ u => Told s.base u ∨ Closing s.base u
  | .resolve _ _ u => HeldOpen s.base u ∧ Told s.base u ∨ Closing s.base u

structure Inv (s : State) : Prop where
  brackets : Brackets.Inv s.base
  owned : Owned s.base
  notes : notes s.wire = s.base.log
  heard : Heard s.wire

theorem inv_init : Inv State.init :=
  ⟨Brackets.inv_init, nofun, rfl, fun pre _ _ _ he => by simp [State.init] at he⟩

/-- A step of the brackets adds to what is sent. -/
theorem log_step {s t : Brackets.State} {a : Brackets.Action} (h : Brackets.step told s a = some t) :
    s.log ++ t.log.drop s.log.length = t.log := by
  cases Brackets.step_cases h <;> simp [State.setPhase]

/-- A document in the body of a bracket is held open. -/
theorem heldOpen_body {s : Brackets.State} {b : ℕ} {uris : List Uri} {u : Uri}
    (hb : s.brackets[b]? = some ⟨uris, .body⟩) (hu : u ∈ uris) : HeldOpen s u :=
  ⟨_, List.mem_of_getElem? hb, List.count_pos_iff.mpr hu, rfl⟩

/-- A request is heard exactly if it is announced. -/
theorem heard_step {s t : State} {a : Action} (h : Inv s) (ht : step told s a = some t) :
    Heard t.wire ↔ Announced s a := by
  have hopen : ∀ {u}, serverOpen u (notes s.wire) ↔
      HeldOpen s.base u ∧ Told s.base u ∨ Closing s.base u := fun {u} => by
    rw [h.notes, serverOpen_iff h.brackets h.owned]
  cases step_cases ht with
  | bracket _ => exact iff_of_true ((heard_notes _).mpr h.heard) trivial
  | ask hb hu =>
    rw [heard_request, and_iff_right h.heard, hopen, and_iff_right (heldOpen_body hb hu)]
    rfl
  | resolve hb hu hm =>
    rw [heard_request, and_iff_right h.heard, hopen]
    rfl

theorem inv_step {s t : State} {a : Action} (h : Inv s) (ha : Apart s a) (hx : Exact told a)
    (hc : Announced s a) (ht : step told s a = some t) : Inv t := by
  have hheard := (heard_step h ht).mpr hc
  cases step_cases ht with
  | bracket hstep =>
    have hexact := (step_exact hx s.base).symm.trans hstep
    refine ⟨Brackets.inv_step h.brackets ha hexact, owned_step h.brackets.toCounted h.owned hstep, ?_, hheard⟩
    rw [notes_append, notes_note, h.notes]
    exact log_step hstep
  | ask _ _ =>
    refine ⟨h.brackets, h.owned, ?_, hheard⟩
    rw [notes_append, h.notes]
    exact List.append_nil _
  | resolve _ _ _ =>
    refine ⟨h.brackets, h.owned, ?_, hheard⟩
    rw [notes_append, h.notes]
    exact List.append_nil _

/-- **Requests reach an open document** in those runs in which each query asks
after the `didOpen` is sent, whoever sends it, and resolves while another
bracket holds the document; among the runs in which the brackets keep apart and
the files' URIs lead back to themselves, in no others. -/
theorem queries_heard_iff {as : List Action} {u : State} (hrun : exec (step told) State.init as = some u)
    (hexact : ∀ a ∈ as, Exact told a) (hapart : Along (step told) Apart State.init as) :
    Always (step told) (fun s => Heard s.wire) State.init as ↔ Along (step told) Announced State.init as :=
  always_iff_along_within (I := Inv) (D := fun s a => Apart s a ∧ Exact told a) (fun _ h => h.heard)
    (fun _ _ _ h ha hc ht => inv_step h ha.1 ha.2 hc ht)
    (fun _ _ _ h _ hc ht hheard => hc ((heard_step h ht).mp hheard)) as inv_init
    (along_and as hapart (along_of_forall as _ hexact)) hrun

/-- A query for the inlay hints of a file that nobody else has open, with one hint to resolve. -/
def alone : List Action :=
  [.bracket (.begin ["a".toList]), .bracket (.read 0 "a".toList "x".toList utf8), .bracket (.store 0),
    .bracket (.sendOpen 0 "a".toList), .bracket (.enter 0), .ask 0 .inlayHint "a".toList,
    .bracket (.exit 0), .bracket (.sendClose 0 "a".toList), .resolve 0 .inlayHint "a".toList]

/-- Its hint is resolved when the server has the document closed. -/
theorem queries_heard_alone : ¬ Always (step id) (fun s => Heard s.wire) State.init alone := by
  intro hall
  obtain ⟨u, hu⟩ : ∃ u, exec (step id) State.init alone = some u :=
    Option.isSome_iff_exists.mp (by decide +kernel)
  have hexact : ∀ a ∈ alone, Exact id a := fun a _ => by
    cases a with
    | bracket a => exact fun _ _ => rfl
    | _ => trivial
  have hapart : Along (step id) Apart State.init alone := by
    refine (along_cons rfl).mpr ⟨nofun, (along_cons rfl).mpr ⟨trivial, (along_cons rfl).mpr ⟨trivial,
      (along_cons rfl).mpr ⟨fun b hb => ?_, (along_cons rfl).mpr ⟨trivial, (along_cons rfl).mpr ⟨trivial,
      (along_cons rfl).mpr ⟨trivial, (along_cons rfl).mpr ⟨trivial, (along_cons rfl).mpr ⟨trivial,
      trivial⟩⟩⟩⟩⟩⟩⟩⟩⟩
    rw [List.mem_singleton.mp hb]
    rfl
  have hrun := (queries_heard_iff hu hexact hapart).mp hall
  have hlast := ((((((((hrun.2 _ rfl).2 _ rfl).2 _ rfl).2 _ rfl).2 _ rfl).2 _ rfl).2 _ rfl).2 _ rfl).1
  -- the one bracket is left, and has sent its `didClose`
  obtain ⟨⟨b, hb, hholds, -⟩, -⟩ | ⟨b, hb, hcloses⟩ := hlast
  · rw [List.mem_singleton.mp hb] at hholds
    exact absurd hholds (by decide)
  · rw [List.mem_singleton.mp hb] at hcloses
    exact hcloses rfl

/-! ### Resolving the items -/

section Resolve

variable {ε Item : Type}

/-- What the task of the item at a place comes to; there are tasks for the places of items only. -/
def resolved (response : ℕ → Item → Except ε Item) (items : List Item) (k : ℕ) :
    Except ε (Option Item) :=
  match items[k]? with
  | some item => (response k item).map some
  | none => .ok none

/-- `CompletionResult`. -/
inductive CompletionResult (Item : Type) where
  | none
  | completionList (isIncomplete : Bool) (items : List Item)
  | items (items : List Item)

/-- The items of a reply. -/
def CompletionResult.found : CompletionResult Item → List Item
  | none => []
  | completionList _ found => found
  | items found => found

variable {Location LocationUriOnly Data : Type}

end Resolve

end Queries
end LspClient
