/-
# Document symbols

`DocumentSymbolHierarchy` of `utils/symbol.py` finds symbols by position and by
path. `at_position` goes down from the root: among the children that contain the
position it keeps the narrowest so far, and it stops where none does. What it
returns contains the position, and on the way there no sibling that contains the
position was strictly narrower; where siblings are disjoint and children lie
inside their parents it has passed every symbol that contains the position
(`at_position_innermost`).

`iter_dfs` takes the nodes off a stack and `iter_bfs` off a queue: the one is
the preorder, the other goes level by level. `flattened` visits the tree as
`iter_dfs` does and writes each node under its path, so of the nodes with one
path the last remains (`traversals_visit_once`), and `get_path` knows no other.
`at_path` takes the first child of each name. The two agree on a symbol just if
it is the first of its name at every step, and no other symbol has its path
(`get_path_at_path_iff`); on all symbols just if no two siblings share a name
(`paths_identify_iff`).

The text of a path is its names joined at dots. A path comes back from it just
if it has a name and none of its names has a dot (`from_str_format_iff`).

Key definitions: `contains`, `isNarrower`, `DocumentSymbolHierarchy.atPosition`,
`DocumentSymbolHierarchy.atPath`, `DocumentSymbolHierarchy.flattened`,
`DocumentSymbolHierarchy.getPath`, `DocumentSymbolPath.fromStr`, `IsBest`, `Nested`.
Key theorems: `at_position_innermost`, `traversals_visit_once`, `flattened_eq`,
`getPath_iff`, `get_path_at_path_iff`, `paths_identify_iff`, `from_str_format_iff`.
-/
import LspClient.Lib.Rose
import LspClient.Lib.Separated
import LspClient.TextEdit
import Mathlib.Data.Prod.Lex

namespace LspClient

open Rose

/-- `as_pos`. -/
def asPos (p : Position) : ℕ ×ₗ ℕ := toLex (p.line, p.character)

/-- `contains`: the range is half open. -/
def contains (range : Range) (position : Position) : Bool :=
  asPos range.start ≤ asPos position ∧ asPos position < asPos range.stop

/-- `is_narrower`. -/
def isNarrower (inner outer : Range) : Bool :=
  asPos outer.start ≤ asPos inner.start ∧ asPos inner.stop ≤ asPos outer.stop

/-- What a `DocumentSymbol` says of itself; `id` is `id(symbol)`. -/
structure SymbolNode where
  id : ℕ
  name : Text
  range : Range
  selectionRange : Range
  deriving DecidableEq

/-- `DocumentSymbol`. No `children` and an empty list of them are the same to all that follows. -/
abbrev DocumentSymbol := Rose SymbolNode

/-- `DocumentSymbolPath`: `path / name` is `path ++ [name]`. -/
abbrev DocumentSymbolPath := List Text

namespace DocumentSymbolPath

/-- `from_str`. -/
def fromStr (pathStr : Text) : DocumentSymbolPath := pathStr.splitOn '.'

/-- `format`. -/
def format (path : DocumentSymbolPath) : Text := ['.'].intercalate path

end DocumentSymbolPath

/-- The scan of `at_position` over the children. -/
def bestChild (position : Position) (best : Option DocumentSymbol) (children : List DocumentSymbol) :
    Option DocumentSymbol :=
  children.foldl (fun best child =>
    if contains child.label.range position &&
      best.all fun b => isNarrower child.label.range b.label.range then some child else best) best

theorem bestChild_mem {position : Position} : ∀ {children : List DocumentSymbol}
    {best : Option DocumentSymbol} {c : DocumentSymbol}, bestChild position best children = some c →
    best = some c ∨ c ∈ children
  | [], _, _, h => .inl h
  | child :: children, best, c, h => by
    rw [bestChild, List.foldl_cons] at h
    rcases bestChild_mem h with h | h
    · split at h
      · exact .inr (by simp [Option.some.inj h])
      · exact .inl h
    · exact .inr (List.mem_cons_of_mem _ h)

/-- The loop of `at_position`. -/
def descend (position : Position) (current : DocumentSymbol) : DocumentSymbol :=
  match _h : bestChild position none current.children with
  | none => current
  | some child => descend position child
termination_by sizeOf current
decreasing_by exact sizeOf_child ((bestChild_mem _h).resolve_left nofun)

/-- `DocumentSymbolHierarchy`. -/
structure DocumentSymbolHierarchy where
  root : DocumentSymbol

namespace DocumentSymbolHierarchy

variable (h : DocumentSymbolHierarchy)

/-- `at_path`. -/
def atPath : DocumentSymbolPath → Option DocumentSymbol
  | [] => none
  | name :: names =>
    if name ≠ h.root.label.name then none
    else names.foldlM (fun current name => current.children.find? (·.label.name == name)) h.root

/-- `at_position`. -/
def atPosition (position : Position) : Option DocumentSymbol :=
  if contains h.root.label.range position then some (descend position h.root) else none

/-- The children of a node with their paths. -/
def childPaths (path : DocumentSymbolPath) (node : DocumentSymbol) :
    List (DocumentSymbolPath × DocumentSymbol) :=
  node.children.map fun child => (path ++ [child.label.name], child)

theorem childPaths_nodes (path : DocumentSymbolPath) (node : DocumentSymbol) :
    (childPaths path node).map Prod.snd = node.children := by
  rw [childPaths, List.map_map]
  exact List.map_id _

/-- The loop of `flattened`, with the top of its stack first. -/
def flattenedFrom (result : List (DocumentSymbolPath × DocumentSymbol)) :
    List (DocumentSymbolPath × DocumentSymbol) → List (DocumentSymbolPath × DocumentSymbol)
  | [] => result
  | (path, node) :: stack =>
    flattenedFrom (Dict.set result path node) (childPaths path node ++ stack)
termination_by stack => sizeOf (stack.map Prod.snd)
decreasing_by
  rw [List.map_append, childPaths_nodes]
  exact sizeOf_children_append node _

/-- `flattened`. -/
def flattened : List (DocumentSymbolPath × DocumentSymbol) :=
  flattenedFrom [] [([h.root.label.name], h.root)]

/-- `_symbol_to_path`. -/
def symbolToPath : List (ℕ × DocumentSymbolPath) :=
  Dict.setAll [] (h.flattened.map fun e => (e.2.label.id, e.1))

/-- `get_path`. -/
def getPath (symbol : DocumentSymbol) : Option DocumentSymbolPath := h.symbolToPath.lookup symbol.label.id

/-- `get_position`. -/
def getPosition (symbol : DocumentSymbol) : Option Position :=
  if (h.symbolToPath.lookup symbol.label.id).isNone then none
  else some symbol.label.selectionRange.start

/-- The loop of `iter_dfs`, with the top of its stack first. -/
def iterDfsFrom : List DocumentSymbol → List DocumentSymbol
  | [] => []
  | node :: stack => node :: iterDfsFrom (node.children ++ stack)
termination_by stack => sizeOf stack
decreasing_by exact sizeOf_children_append node stack

/-- `iter_dfs`. -/
def iterDfs : List DocumentSymbol := iterDfsFrom [h.root]

/-- The loop of `iter_bfs`. -/
def iterBfsFrom : List DocumentSymbol → List DocumentSymbol
  | [] => []
  | node :: queue => node :: iterBfsFrom (queue ++ node.children)
termination_by queue => sizeOf queue
decreasing_by
  have hleft := sizeOf_append queue node.children
  have hright := sizeOf_append node.children queue
  have hlt := sizeOf_children_append node queue
  omega

/-- `iter_bfs`. -/
def iterBfs : List DocumentSymbol := iterBfsFrom [h.root]

end DocumentSymbolHierarchy

/-! ### The text of a path -/

namespace DocumentSymbolPath

/-- Every text is the text of a path. -/
theorem format_fromStr (pathStr : Text) : (fromStr pathStr).format = pathStr :=
  List.intercalate_splitOn '.'

/-- **When a path comes back from its text**: it is not empty, and no name in it has a dot. -/
theorem from_str_format_iff (path : DocumentSymbolPath) :
    fromStr path.format = path ↔ path ≠ [] ∧ ∀ name ∈ path, '.' ∉ name := by
  unfold fromStr format
  exact Separated.splitOn_intercalate_iff

/-- A Go method as its server names it: its path comes back with a name cut in two. -/
theorem from_str_format_method : ¬fromStr (format ["main".toList, "(*Server).Run".toList]) =
    ["main".toList, "(*Server).Run".toList] := by
  decide

end DocumentSymbolPath

/-! ### The narrowest symbol -/

theorem contains_iff {r : Range} {p : Position} :
    contains r p = true ↔ asPos r.start ≤ asPos p ∧ asPos p < asPos r.stop := by
  simp [contains]

theorem isNarrower_iff {a b : Range} :
    isNarrower a b = true ↔ asPos b.start ≤ asPos a.start ∧ asPos a.stop ≤ asPos b.stop := by
  simp [isNarrower]

theorem isNarrower_trans {a b c : Range} (hab : isNarrower a b = true) (hbc : isNarrower b c = true) :
    isNarrower a c = true := by
  rw [isNarrower_iff] at *
  exact ⟨hbc.1.trans hab.1, hab.2.trans hbc.2⟩

/-- What lies in a range lies in every wider one. -/
theorem contains_of_isNarrower {a b : Range} {p : Position} (h : isNarrower a b = true)
    (hp : contains a p = true) : contains b p = true := by
  rw [isNarrower_iff] at h
  rw [contains_iff] at *
  exact ⟨h.1.trans hp.1, hp.2.trans_le h.2⟩

/-- Narrower, and not as wide. -/
def StrictlyNarrower (inner outer : Range) : Prop :=
  isNarrower inner outer = true ∧ ¬isNarrower outer inner = true

theorem not_strictlyNarrower_self (a : Range) : ¬StrictlyNarrower a a := fun h => h.2 h.1

theorem StrictlyNarrower.trans_isNarrower {a b c : Range} (hab : StrictlyNarrower a b)
    (hbc : isNarrower b c = true) : StrictlyNarrower a c :=
  ⟨isNarrower_trans hab.1 hbc, fun hca => hab.2 (isNarrower_trans hbc hca)⟩

variable (position : Position)

/-- The best of the children seen: none of them contains the position, or it is one that does and none
that does is strictly narrower. -/
def IsBest (seen : List DocumentSymbol) : Option DocumentSymbol → Prop
  | none => ∀ d ∈ seen, contains d.label.range position = false
  | some c => c ∈ seen ∧ contains c.label.range position = true ∧
      ∀ d ∈ seen, contains d.label.range position = true → ¬StrictlyNarrower d.label.range c.label.range

variable {position}

/-- One child more. -/
theorem isBest_step {seen : List DocumentSymbol} {best : Option DocumentSymbol} {child : DocumentSymbol}
    (h : IsBest position seen best) : IsBest position (seen ++ [child])
      (if contains child.label.range position &&
        best.all fun b => isNarrower child.label.range b.label.range then some child else best) := by
  cases hin : contains child.label.range position with
  | false =>
    rw [Bool.false_and, if_neg Bool.false_ne_true]
    cases best with
    | none => simpa [IsBest, hin, or_imp, forall_and] using h
    | some b =>
      obtain ⟨hmem, hb, hmin⟩ := h
      refine ⟨List.mem_append_left _ hmem, hb, fun d hd hdp => ?_⟩
      rcases List.mem_append.mp hd with hd | hd
      · exact hmin d hd hdp
      · rw [List.mem_singleton.mp hd, hin] at hdp
        cases hdp
  | true =>
    rw [Bool.true_and]
    cases best with
    | none =>
      rw [Option.all_none, if_pos rfl]
      refine ⟨by simp, hin, fun d hd hdp hstrict => ?_⟩
      rcases List.mem_append.mp hd with hd | hd
      · rw [h d hd] at hdp
        cases hdp
      · rw [List.mem_singleton.mp hd] at hstrict
        exact not_strictlyNarrower_self _ hstrict
    | some b =>
      obtain ⟨hmem, hb, hmin⟩ := h
      rw [Option.all_some]
      by_cases hcb : isNarrower child.label.range b.label.range = true
      · rw [if_pos hcb]
        refine ⟨by simp, hin, fun d hd hdp hstrict => ?_⟩
        rcases List.mem_append.mp hd with hd | hd
        · -- narrower than the child, it was narrower than the best before
          exact hmin d hd hdp (hstrict.trans_isNarrower hcb)
        · rw [List.mem_singleton.mp hd] at hstrict
          exact not_strictlyNarrower_self _ hstrict
      · rw [if_neg hcb]
        refine ⟨List.mem_append_left _ hmem, hb, fun d hd hdp hstrict => ?_⟩
        rcases List.mem_append.mp hd with hd | hd
        · exact hmin d hd hdp hstrict
        · rw [List.mem_singleton.mp hd] at hstrict
          exact hcb hstrict.1

theorem isBest_run : ∀ {children seen : List DocumentSymbol} {best : Option DocumentSymbol},
    IsBest position seen best → IsBest position (seen ++ children) (bestChild position best children)
  | [], seen, best, h => by simpa [bestChild] using h
  | child :: children, seen, best, h => by
    have hrun : IsBest position (seen ++ [child] ++ children) (bestChild position best (child :: children)) :=
      isBest_run (isBest_step h)
    rwa [List.append_assoc] at hrun

/-- **The scan ends with a narrowest child**, if any contains the position. -/
theorem bestChild_isBest (position : Position) (children : List DocumentSymbol) :
    IsBest position children (bestChild position none children) := by
  have hstart : IsBest position [] none := by simp [IsBest]
  show IsBest position ([] ++ children) (bestChild position none children)
  exact isBest_run hstart

/-- A step of the descent: to a child that contains the position, past no strictly narrower one. -/
def Chosen (position : Position) (t c : DocumentSymbol) : Prop :=
  c ∈ t.children ∧ contains c.label.range position = true ∧ ∀ d ∈ t.children,
    contains d.label.range position = true → ¬StrictlyNarrower d.label.range c.label.range

/-- No position lies in both ranges. -/
def RangesApart (a b : Range) : Prop := ∀ q, ¬(contains a q = true ∧ contains b q = true)

/-- Throughout the tree siblings are disjoint and children lie inside their parent. -/
def Nested (root : DocumentSymbol) : Prop :=
  ∀ t, Below root t →
    t.children.Pairwise (fun c d => RangesApart c.label.range d.label.range) ∧
    ∀ c ∈ t.children, isNarrower c.label.range t.label.range = true

/-- **The descent**: a chain of chosen children, to a node none of whose children contains the
position. -/
theorem descend_chain (position : Position) (current : DocumentSymbol) :
    Relation.ReflTransGen (Chosen position) current (descend position current) ∧
    ∀ c ∈ (descend position current).children, contains c.label.range position = false := by
  induction current using Rose.induct with
  | h current ih =>
    have hbest := bestChild_isBest position current.children
    rw [descend]
    split
    · rename_i hnone
      rw [hnone] at hbest
      exact ⟨.refl, hbest⟩
    · rename_i child hchild
      rw [hchild] at hbest
      obtain ⟨hchain, hend⟩ := ih child hbest.1
      exact ⟨.head hbest hchain, hend⟩

theorem contains_of_chain {s t : DocumentSymbol} (h : Relation.ReflTransGen (Chosen position) s t)
    (hs : contains s.label.range position = true) : contains t.label.range position = true := by
  cases h with
  | refl => exact hs
  | tail _ hstep => exact hstep.2.1

theorem Nested.eq_of_contains {root t c d : DocumentSymbol} (h : Nested root) (ht : Below root t)
    (hc : c ∈ t.children) (hd : d ∈ t.children) (hcp : contains c.label.range position = true)
    (hdp : contains d.label.range position = true) : c = d := by
  by_contra hne
  have hsymm : Std.Symm fun c d : DocumentSymbol => RangesApart c.label.range d.label.range :=
    ⟨fun _ _ h q hq => h q hq.symm⟩
  exact (h t ht).1.forall hc hd hne position ⟨hcp, hdp⟩

/-- In a nested tree what is further down is narrower. -/
theorem Nested.isNarrower {root t s : DocumentSymbol} (h : Nested root) (ht : Below root t)
    (hs : Below t s) : isNarrower s.label.range t.label.range = true := by
  induction hs with
  | refl => exact isNarrower_iff.mpr ⟨le_rfl, le_rfl⟩
  | tail hts hstep ih => exact isNarrower_trans ((h _ (ht.trans hts)).2 _ hstep) ih

/-- **`at_position` finds the innermost symbol.** A range contains the positions from
its start to its end, the end itself left out (`contains_iff`). -/
theorem at_position_innermost (h : DocumentSymbolHierarchy) (position : Position) :
    (h.atPosition position = none ↔ contains h.root.label.range position = false) ∧
    ∀ s, h.atPosition position = some s →
      contains s.label.range position = true ∧
      (∀ c ∈ s.children, contains c.label.range position = false) ∧
      Relation.ReflTransGen (Chosen position) h.root s ∧
      (Nested h.root → ∀ n, Below h.root n → contains n.label.range position = true →
        Below n s ∧ isNarrower s.label.range n.label.range = true) := by
  unfold DocumentSymbolHierarchy.atPosition
  cases hroot : contains h.root.label.range position with
  | false => simp
  | true =>
    refine ⟨by simp, ?_⟩
    rintro _ ⟨⟩
    obtain ⟨hchain, hend⟩ := descend_chain position h.root
    refine ⟨contains_of_chain hchain hroot, hend, hchain, fun hnested n hn hnp => ?_⟩
    have hbelow : Below n (descend position h.root) :=
      below_of_chain (P := fun s => contains s.label.range position = true)
        (fun t ht c hc => contains_of_isNarrower ((hnested t ht).2 c hc))
        (fun t ht c hc d hd => hnested.eq_of_contains ht hc hd)
        (Relation.ReflTransGen.mono (fun _ _ hs => ⟨hs.1, hs.2.1⟩) _ _ hchain)
        (fun c hc => by simp [hend c hc]) hn hnp
    exact ⟨hbelow, hnested.isNarrower hn hbelow⟩

/-! ### Traversals -/

namespace DocumentSymbolHierarchy

theorem iterDfsFrom_eq (stack : List DocumentSymbol) : iterDfsFrom stack = stack.flatMap preorder := by
  induction stack using iterDfsFrom.induct with
  | case1 => rw [iterDfsFrom, List.flatMap_nil]
  | case2 node stack ih =>
    rw [iterDfsFrom, ih, List.flatMap_append, List.flatMap_cons, preorder_eq node, List.cons_append]

theorem flattenedFrom_eq (result stack : List (DocumentSymbolPath × DocumentSymbol)) :
    flattenedFrom result stack =
      Dict.setAll result (stack.flatMap fun e => places SymbolNode.name e.1 e.2) := by
  induction result, stack using flattenedFrom.induct with
  | case1 result => rw [flattenedFrom, List.flatMap_nil, Dict.setAll, List.foldl_nil]
  | case2 result path node stack ih =>
    have hchildren : (childPaths path node).flatMap (fun e => places SymbolNode.name e.1 e.2) =
        node.children.flatMap fun c => places SymbolNode.name (path ++ [c.label.name]) c := by
      rw [childPaths, List.flatMap_map]
    calc flattenedFrom result ((path, node) :: stack)
        = Dict.setAll (Dict.set result path node)
            ((childPaths path node ++ stack).flatMap fun e => places SymbolNode.name e.1 e.2) := by
          rw [flattenedFrom, ih]
      _ = Dict.setAll result (((path, node) ::
            node.children.flatMap fun c => places SymbolNode.name (path ++ [c.label.name]) c) ++
              stack.flatMap fun e => places SymbolNode.name e.1 e.2) := by
          rw [List.flatMap_append, hchildren, List.cons_append, Dict.setAll, Dict.setAll, List.foldl_cons]
      _ = _ := by rw [List.flatMap_cons, places_eq]

/-- Breadth first visits the same symbols. -/
theorem iterBfsFrom_perm (queue : List DocumentSymbol) :
    (iterBfsFrom queue).Perm (queue.flatMap preorder) := by
  induction queue using iterBfsFrom.induct with
  | case1 => rw [iterBfsFrom, List.flatMap_nil]
  | case2 node queue ih =>
    rw [iterBfsFrom, List.flatMap_cons, preorder_eq node, List.cons_append]
    rw [List.flatMap_append] at ih
    exact (ih.trans List.perm_append_comm).cons node

variable (h : DocumentSymbolHierarchy)

theorem iterDfs_eq : h.iterDfs = h.root.preorder := by
  unfold iterDfs
  rw [iterDfsFrom_eq, List.flatMap_singleton]

/-- `iter_bfs` yields the same nodes. -/
theorem iterBfs_perm : h.iterBfs.Perm h.iterDfs := by
  rw [iterDfs_eq, iterBfs]
  simpa using iterBfsFrom_perm [h.root]

/-- `iter_bfs` with some of a level and some of the next one in its queue. -/
theorem iterBfsFrom_append : ∀ level next : List DocumentSymbol,
    iterBfsFrom (level ++ next) = level ++ iterBfsFrom (next ++ level.flatMap children)
  | [], next => by rw [List.flatMap_nil, List.append_nil, List.nil_append, List.nil_append]
  | node :: level, next => by
    calc iterBfsFrom (node :: level ++ next)
        = node :: iterBfsFrom (level ++ (next ++ node.children)) := by
          rw [List.cons_append, iterBfsFrom, List.append_assoc]
      _ = node :: (level ++ iterBfsFrom (next ++ node.children ++ level.flatMap children)) := by
          rw [iterBfsFrom_append level]
      _ = node :: level ++ iterBfsFrom (next ++ (node :: level).flatMap children) := by
          rw [List.flatMap_cons, List.append_assoc, List.cons_append]

/-- `iter_bfs` after as many levels. -/
theorem iterBfs_levels : ∀ d : ℕ, h.iterBfs =
    (List.range d).flatMap (atDepth · h.root) ++ iterBfsFrom (atDepth d h.root)
  | 0 => rfl
  | d + 1 => by
    have hlevel := iterBfsFrom_append (atDepth d h.root) []
    rw [List.append_nil, List.nil_append, ← atDepth_succ] at hlevel
    rw [iterBfs_levels d, hlevel, List.range_succ, List.flatMap_append, List.flatMap_singleton,
      List.append_assoc]

theorem iterBfs_eq : h.iterBfs = h.root.levelOrder := by
  rw [iterBfs_levels h h.root.height, atDepth_of_height_le le_rfl, iterBfsFrom, List.append_nil,
    levelOrder]

/-! ### Paths of symbols -/

/-- The symbols in the order of `iter_dfs`, each with its path. -/
def symbolPlaces : List (DocumentSymbolPath × DocumentSymbol) :=
  places SymbolNode.name [h.root.label.name] h.root

theorem flattened_eq : h.flattened = Dict.setAll [] h.symbolPlaces := by
  unfold flattened symbolPlaces
  rw [flattenedFrom_eq, List.flatMap_singleton]

theorem symbolPlaces_nodes : h.symbolPlaces.map Prod.snd = h.iterDfs := by
  unfold symbolPlaces
  rw [places_nodes, iterDfs_eq]

/-- The node objects are distinct. -/
def Distinct : Prop := (h.iterDfs.map (·.label.id)).Nodup

variable {h}

/-- `iter_dfs` yields the nodes of the tree. -/
theorem mem_iterDfs_iff {s : DocumentSymbol} : s ∈ h.iterDfs ↔ Below h.root s := by
  rw [iterDfs_eq, mem_preorder_iff]

theorem mem_symbolPlaces_iff {path : DocumentSymbolPath} {s : DocumentSymbol} :
    (path, s) ∈ h.symbolPlaces ↔
      ∃ p, path = h.root.label.name :: p ∧ At SymbolNode.name h.root p s := by
  unfold symbolPlaces
  rw [mem_places_iff]
  rfl

theorem mem_iterDfs_of_place {e : DocumentSymbolPath × DocumentSymbol} (he : e ∈ h.symbolPlaces) :
    e.2 ∈ h.iterDfs := by
  rw [← symbolPlaces_nodes]
  exact List.mem_map_of_mem he

theorem Distinct.places (hd : h.Distinct) : (h.symbolPlaces.map (·.2.label.id)).Nodup := by
  rw [Distinct, ← symbolPlaces_nodes, List.map_map] at hd
  exact hd

theorem Distinct.eq_of_id (hd : h.Distinct) {s t : DocumentSymbol} (hs : s ∈ h.iterDfs)
    (ht : t ∈ h.iterDfs) (hid : s.label.id = t.label.id) : s = t :=
  List.inj_on_of_nodup_map hd hs ht hid

theorem Distinct.eq_of_place (hd : h.Distinct) {path path' : DocumentSymbolPath} {s : DocumentSymbol}
    (hp : (path, s) ∈ h.symbolPlaces) (hp' : (path', s) ∈ h.symbolPlaces) : path = path' :=
  (Prod.mk.inj (List.inj_on_of_nodup_map hd.places hp hp' rfl)).1

/-- **What remains of the nodes with one path**: the last in the order of the traversal. -/
theorem mem_flattened_iff {path : DocumentSymbolPath} {s : DocumentSymbol} :
    (path, s) ∈ h.flattened ↔ h.symbolPlaces.reverse.lookup path = some s := by
  rw [flattened_eq, Dict.mem_iff_lookup (Dict.nodup_setAll (by simp)), Dict.lookup_setAll,
    List.lookup_nil, Option.or_none]

/-- **The traversals visit every symbol once, in their order.** `iter_dfs` is the preorder, `iter_bfs`
the levels from the top down, and `flattened` has for every path in the tree the last node with it in
preorder, once, and nothing else. -/
theorem traversals_visit_once (h : DocumentSymbolHierarchy) :
    h.iterDfs = h.root.preorder ∧
    (h.iterBfs = (List.range h.root.height).flatMap (atDepth · h.root) ∧
      ∀ d, h.root.height ≤ d → atDepth d h.root = []) ∧
    (h.symbolPlaces.map Prod.snd = h.root.preorder ∧ (h.flattened.map Prod.fst).Nodup ∧
      (∀ path, path ∈ h.flattened.map Prod.fst ↔ path ∈ h.symbolPlaces.map Prod.fst) ∧
      ∀ path s, (path, s) ∈ h.flattened ↔
        ∃ before after, h.symbolPlaces = before ++ (path, s) :: after ∧ ∀ e ∈ after, e.1 ≠ path) := by
  refine ⟨h.iterDfs_eq, ⟨h.iterBfs_eq, fun d => atDepth_of_height_le⟩, ?_, ?_, fun path => ?_,
    fun path s => ?_⟩
  · rw [symbolPlaces_nodes, iterDfs_eq]
  · rw [flattened_eq]
    exact Dict.nodup_setAll (by simp)
  · rw [flattened_eq, Dict.mem_keys_setAll]
    simp
  · rw [mem_flattened_iff, Dict.lookup_reverse_iff]

theorem mem_places_of_flattened {e : DocumentSymbolPath × DocumentSymbol} (he : e ∈ h.flattened) :
    e ∈ h.symbolPlaces :=
  List.mem_reverse.mp (Dict.mem_of_lookup (mem_flattened_iff.mp he))

/-- What `get_path` knows of a symbol: the path it remained under. -/
theorem getPath_iff (hd : h.Distinct) {s : DocumentSymbol} (hs : s ∈ h.iterDfs)
    {path : DocumentSymbolPath} :
    h.getPath s = some path ↔ h.symbolPlaces.reverse.lookup path = some s := by
  have hkeys : (h.flattened.map Prod.fst).Nodup := by
    rw [flattened_eq]
    exact Dict.nodup_setAll (by simp)
  have hids : ((h.flattened.map fun e => (e.2.label.id, e.1)).map Prod.fst).Nodup := by
    rw [List.map_map]
    refine List.Nodup.map_on (fun e he e' he' hid => ?_) (.of_map _ hkeys)
    exact List.inj_on_of_nodup_map hd.places (mem_places_of_flattened he)
      (mem_places_of_flattened he') hid
  have hreverse : ((h.flattened.map fun e => (e.2.label.id, e.1)).reverse.map Prod.fst).Nodup := by
    rw [List.map_reverse]
    exact List.nodup_reverse.mpr hids
  unfold getPath symbolToPath
  rw [Dict.lookup_setAll, List.lookup_nil, Option.or_none,
    ← Dict.mem_iff_lookup hreverse, List.mem_reverse, List.mem_map, ← mem_flattened_iff]
  constructor
  · rintro ⟨⟨q, t⟩, ht, heq⟩
    obtain ⟨hid, rfl⟩ := Prod.mk.inj heq
    rwa [← hd.eq_of_id (mem_iterDfs_of_place (mem_places_of_flattened ht)) hs hid]
  · exact fun hmem => ⟨_, hmem, rfl⟩

/-- `get_position` answers for the symbols that `get_path` knows. -/
theorem getPosition_eq (s : DocumentSymbol) :
    h.getPosition s = (h.getPath s).map fun _ => s.label.selectionRange.start := by
  unfold getPosition getPath
  cases h.symbolToPath.lookup s.label.id <;> rfl

theorem atPath_iff {path : DocumentSymbolPath} {s : DocumentSymbol} : h.atPath path = some s ↔
    ∃ p, path = h.root.label.name :: p ∧ walk SymbolNode.name h.root p = some s := by
  cases path with
  | nil => simp [atPath]
  | cons name p =>
    rw [atPath]
    by_cases hname : name = h.root.label.name
    · subst hname
      rw [if_neg (by simp)]
      constructor
      · exact fun hw => ⟨p, rfl, hw⟩
      · rintro ⟨q, hq, hw⟩
        obtain rfl := (List.cons.inj hq).2
        exact hw
    · rw [if_pos hname]
      constructor
      · nofun
      · rintro ⟨q, hq, -⟩
        exact absurd (List.cons.inj hq).1 hname

/-- The symbol at a path is the first of those with the path. -/
theorem lookup_of_atPath {path : DocumentSymbolPath} {s : DocumentSymbol} (hs : h.atPath path = some s) :
    h.symbolPlaces.lookup path = some s := by
  obtain ⟨p, rfl, hw⟩ := atPath_iff.mp hs
  show h.symbolPlaces.lookup ([h.root.label.name] ++ p) = some s
  exact lookup_places hw

/-- What `at_path(get_path(s)) is s` asks of the places: `s` is the last of them with its path, and found
under it. -/
theorem identified_iff (hd : h.Distinct) {s : DocumentSymbol} (hs : s ∈ h.iterDfs) :
    (∃ path, h.getPath s = some path ∧ ∃ t, h.atPath path = some t ∧ t.label.id = s.label.id) ↔
      ∃ path, h.symbolPlaces.reverse.lookup path = some s ∧ h.atPath path = some s := by
  refine exists_congr fun path => and_congr (getPath_iff hd hs) ⟨?_, fun ht => ⟨s, ht, rfl⟩⟩
  rintro ⟨t, ht, hid⟩
  have hmem : t ∈ h.iterDfs := mem_iterDfs_of_place (Dict.mem_of_lookup (lookup_of_atPath ht))
  rwa [hd.eq_of_id hmem hs hid] at ht

/-- Of the symbols with a path, one is the last. -/
theorem exists_last {p : List Text} {s : DocumentSymbol} (hs : At SymbolNode.name h.root p s) :
    ∃ t, h.symbolPlaces.reverse.lookup (h.root.label.name :: p) = some t ∧
      At SymbolNode.name h.root p t := by
  have hplace := mem_symbolPlaces_iff.mpr ⟨p, rfl, hs⟩
  obtain ⟨t, ht⟩ : ∃ t, h.symbolPlaces.reverse.lookup (h.root.label.name :: p) = some t := by
    rw [← Option.isSome_iff_exists, List.lookup_isSome_iff]
    exact ⟨_, List.mem_reverse.mpr hplace, BEq.rfl⟩
  obtain ⟨q, hq, hat⟩ := mem_symbolPlaces_iff.mp (List.mem_reverse.mp (Dict.mem_of_lookup ht))
  obtain rfl := (List.cons.inj hq).2
  exact ⟨t, ht, hat⟩

/-- A symbol that is the last with its path and found under it is the only one with its path. -/
theorem only_of_identified (hd : h.Distinct) {path : DocumentSymbolPath} {s t : DocumentSymbol}
    (hlast : h.symbolPlaces.reverse.lookup path = some s) (hat : h.atPath path = some s) {p : List Text}
    (hs : At SymbolNode.name h.root p s) (ht : At SymbolNode.name h.root p t) : t = s := by
  have hfirst := lookup_of_atPath hat
  have hpath := hd.eq_of_place (mem_symbolPlaces_iff.mpr ⟨p, rfl, hs⟩) (Dict.mem_of_lookup hfirst)
  rw [← hpath] at hfirst hlast
  exact Dict.only_of_first_last (.of_map _ hd.places) hfirst hlast
    (mem_symbolPlaces_iff.mpr ⟨p, rfl, ht⟩)

/-- **When a path identifies its symbol.** `at_path(get_path(s))` is `s` just if `s` and all its
ancestors are the first of their name, and no other symbol has the path of `s`. -/
theorem get_path_at_path_iff (h : DocumentSymbolHierarchy) (hd : h.Distinct) (s : DocumentSymbol)
    (hs : s ∈ h.iterDfs) :
    (∃ path, h.getPath s = some path ∧ ∃ t, h.atPath path = some t ∧ t.label.id = s.label.id) ↔
    Relation.ReflTransGen (IsFirst SymbolNode.name) h.root s ∧
      ∀ p t, At SymbolNode.name h.root p s → At SymbolNode.name h.root p t → t = s := by
  rw [identified_iff hd hs]
  constructor
  · rintro ⟨path, hlast, hat⟩
    obtain ⟨p, -, hw⟩ := atPath_iff.mp hat
    exact ⟨(walk_at hw).2, fun q t => only_of_identified hd hlast hat⟩
  · rintro ⟨hchain, hunique⟩
    obtain ⟨p, hp⟩ := exists_walk_iff.mpr hchain
    obtain ⟨t, hlast, ht⟩ := exists_last (walk_at hp).1
    obtain rfl := hunique p t (walk_at hp).1 ht
    exact ⟨_, hlast, atPath_iff.mpr ⟨p, rfl, hp⟩⟩

/-- **When the paths identify all symbols**: no symbol has two children of one name. -/
theorem paths_identify_iff (h : DocumentSymbolHierarchy) (hd : h.Distinct) :
    (∀ s ∈ h.iterDfs, ∃ path, h.getPath s = some path ∧
      ∃ t, h.atPath path = some t ∧ t.label.id = s.label.id) ↔
    ∀ s ∈ h.iterDfs, (s.children.map (·.label.name)).Nodup := by
  have hids : ∀ s ∈ h.iterDfs, s.children.Nodup := by
    intro s hs
    have hsub := (children_sublist s).trans (preorder_sublist (mem_iterDfs_iff.mp hs))
    rw [← iterDfs_eq] at hsub
    exact hsub.nodup (.of_map _ hd)
  constructor
  · intro hall s hs
    refine List.Nodup.map_on (fun c hc d hd' hname => ?_) (hids s hs)
    obtain ⟨p, hp⟩ := exists_at SymbolNode.name (mem_iterDfs_iff.mp hs)
    have hcs : c ∈ h.iterDfs := mem_iterDfs_iff.mpr ((mem_iterDfs_iff.mp hs).tail hc)
    obtain ⟨path, hlast, hat⟩ := (identified_iff hd hcs).mp (hall c hcs)
    have hdp := hp.snoc SymbolNode.name hd'
    rw [← hname] at hdp
    exact (only_of_identified hd hlast hat (hp.snoc SymbolNode.name hc) hdp).symm
  · intro hnames s hs
    rw [identified_iff hd hs]
    have hwalk : ∀ {p : List Text} {t : DocumentSymbol}, At SymbolNode.name h.root p t →
        walk SymbolNode.name h.root p = some t :=
      fun ht => walk_of_at ht fun u hu => hnames u (mem_iterDfs_iff.mpr hu)
    obtain ⟨p, hp⟩ := exists_at SymbolNode.name (mem_iterDfs_iff.mp hs)
    obtain ⟨t, hlast, ht⟩ := exists_last hp
    obtain rfl := Option.some.inj ((hwalk hp).symm.trans (hwalk ht))
    exact ⟨_, hlast, atPath_iff.mpr ⟨p, rfl, hwalk hp⟩⟩

/-- A symbol on one line, from column 0 to the column given. -/
def symbolOn (id : ℕ) (name : Text) (line stop : ℕ) (children : List DocumentSymbol) : DocumentSymbol :=
  ⟨⟨id, name, ⟨⟨line, 0⟩, ⟨line, stop⟩⟩, ⟨⟨line, 0⟩, ⟨line, stop⟩⟩⟩, children⟩

/-- `f` is declared twice in `m`. -/
def overloaded : DocumentSymbolHierarchy :=
  ⟨symbolOn 0 "m".toList 0 9 [symbolOn 1 "f".toList 0 4 [], symbolOn 2 "f".toList 0 8 []]⟩

/-- `f` is declared once. -/
def declaredOnce : DocumentSymbolHierarchy :=
  ⟨symbolOn 0 "m".toList 0 9 [symbolOn 1 "f".toList 0 4 []]⟩

theorem get_path_at_path_once :
    ∃ path, declaredOnce.getPath (symbolOn 1 "f".toList 0 4 []) = some path ∧
      ∃ t, declaredOnce.atPath path = some t ∧ t.label.id = 1 := by
  have hd : declaredOnce.Distinct := by
    rw [Distinct, iterDfs_eq]
    decide
  have hs : symbolOn 1 "f".toList 0 4 [] ∈ declaredOnce.iterDfs := by
    rw [iterDfs_eq]
    exact .tail _ (.head _)
  refine (get_path_at_path_iff declaredOnce hd _ hs).mpr ⟨.single ⟨[], [], rfl, nofun⟩, ?_⟩
  intro p t hp ht
  have hplaces {q : List Text} {u : DocumentSymbol} (hu : At SymbolNode.name declaredOnce.root q u) :
      ("m".toList :: q, u) ∈ [(["m".toList], declaredOnce.root),
        (["m".toList, "f".toList], symbolOn 1 "f".toList 0 4 [])] :=
    mem_symbolPlaces_iff.mpr ⟨q, rfl, hu⟩
  obtain rfl : p = ["f".toList] := by simpa [declaredOnce, symbolOn] using hplaces hp
  simpa [declaredOnce, symbolOn] using hplaces ht

theorem paths_identify_once : declaredOnce.Distinct ∧
    ∀ s ∈ declaredOnce.iterDfs, ∃ path, declaredOnce.getPath s = some path ∧
      ∃ t, declaredOnce.atPath path = some t ∧ t.label.id = s.label.id := by
  have hd : declaredOnce.Distinct := by
    rw [Distinct, iterDfs_eq]
    decide
  refine ⟨hd, (paths_identify_iff declaredOnce hd).mpr ?_⟩
  rw [iterDfs_eq]
  decide

/-- **A symbol declared again is lost.** `get_path` of the first `f` is `None`. -/
theorem get_path_overloaded : overloaded.Distinct ∧
    symbolOn 1 "f".toList 0 4 [] ∈ overloaded.iterDfs ∧
    ¬∃ path, overloaded.getPath (symbolOn 1 "f".toList 0 4 []) = some path ∧
      ∃ t, overloaded.atPath path = some t ∧ t.label.id = 1 := by
  have hnone : overloaded.getPath (symbolOn 1 "f".toList 0 4 []) = none := by
    rw [getPath, symbolToPath, flattened_eq]
    rfl
  refine ⟨?_, ?_, fun ⟨path, hpath, _⟩ => ?_⟩
  · rw [Distinct, iterDfs_eq]
    decide
  · rw [iterDfs_eq]
    exact .tail _ (.head _)
  · cases hnone.symm.trans hpath

end DocumentSymbolHierarchy

end LspClient
