/-
# Trees with their children in order

A node has a label and any number of children. Where the children have names, a
node has an address: the names on the way down to it (`At`). A walk down an
address takes the first child of each name, so it ends at the node whose place
below every ancestor is the first of its name (`exists_walk_iff`).

`places` lists the nodes with their addresses in preorder: a stack that takes a
node off and puts its children on top visits them in this order. Of the nodes
at an address a walk can only find the one that comes first (`lookup_places`),
and it finds every node where no two siblings share a name (`walk_of_at`).
`levelOrder` lists the nodes level by level: each level is the children of the
one before (`atDepth_succ`), until there are none (`atDepth_of_height_le`).

A choice of a child at every node leads down a chain. Where only one child can
have a property, and a node has it if a child does, a chain of nodes with the
property that cannot go on has passed every node with it (`below_of_chain`).

Key definitions: `Rose`, `Below`, `preorder`, `levelOrder`, `places`, `At`, `walk`, `IsFirst`.
Key theorems: `mem_places_iff`, `exists_walk_iff`, `lookup_places`,
`below_of_chain`.
-/
import LspClient.Lib.Dict
import Mathlib.Logic.Relation

namespace LspClient

/-- A node with its children, in order. -/
structure Rose (α : Type*) where
  label : α
  children : List (Rose α)

namespace Rose

variable {α κ : Type*}

/-- The second node is a child of the first. -/
def IsChild (t c : Rose α) : Prop := c ∈ t.children

/-- The second node is the first, or further down. -/
def Below : Rose α → Rose α → Prop := Relation.ReflTransGen IsChild

section Size

variable [SizeOf α]

theorem sizeOf_child {t c : Rose α} (h : c ∈ t.children) : sizeOf c < sizeOf t := by
  obtain ⟨a, cs⟩ := t
  have : sizeOf c < sizeOf cs := List.sizeOf_lt_of_mem h
  simp only [Rose.mk.sizeOf_spec]
  omega

theorem sizeOf_append (xs ys : List (Rose α)) : sizeOf (xs ++ ys) + 1 = sizeOf xs + sizeOf ys := by
  induction xs with
  | nil => simp [Nat.add_comm]
  | cons x xs ih =>
    simp only [List.cons_append, List.cons.sizeOf_spec]
    omega

/-- A list gets smaller when the children of a node come in its place. -/
theorem sizeOf_children_append (t : Rose α) (ts : List (Rose α)) :
    sizeOf (t.children ++ ts) < sizeOf (t :: ts) := by
  obtain ⟨a, cs⟩ := t
  have happend := sizeOf_append cs ts
  simp only [List.cons.sizeOf_spec, Rose.mk.sizeOf_spec]
  omega

end Size

/-- To show it of every node, show it of a node whose children have it. -/
@[elab_as_elim]
theorem induct {motive : Rose α → Prop} (h : ∀ t, (∀ c ∈ t.children, motive c) → motive t)
    (t : Rose α) : motive t :=
  h t fun c _ => induct h c
termination_by sizeOf t
decreasing_by exact sizeOf_child ‹_›

/-! ### Preorder and addresses -/

mutual

/-- The node, then what is below each child in turn. -/
def preorder : Rose α → List (Rose α)
  | ⟨a, cs⟩ => ⟨a, cs⟩ :: preorders cs

/-- The preorders of the nodes, one after the other. -/
def preorders : List (Rose α) → List (Rose α)
  | [] => []
  | c :: cs => preorder c ++ preorders cs

end

theorem preorders_eq : ∀ cs : List (Rose α), preorders cs = cs.flatMap preorder
  | [] => rfl
  | c :: cs => by rw [preorders, preorders_eq cs, List.flatMap_cons]

theorem preorder_eq (t : Rose α) : t.preorder = t :: t.children.flatMap preorder := by
  obtain ⟨a, cs⟩ := t
  rw [preorder, preorders_eq]

theorem mem_preorder_iff {t s : Rose α} : s ∈ t.preorder ↔ Below t s := by
  induction t using induct with
  | h t ih =>
    rw [preorder_eq, List.mem_cons, List.mem_flatMap, Below, Relation.ReflTransGen.cases_head_iff]
    refine or_congr eq_comm ⟨?_, ?_⟩
    · rintro ⟨c, hc, hs⟩
      exact ⟨c, hc, (ih c hc).mp hs⟩
    · rintro ⟨c, hc, hs⟩
      exact ⟨c, hc, (ih c hc).mpr hs⟩

/-- What is below a child comes in one piece. -/
theorem preorder_sublist_child {t c : Rose α} (hc : c ∈ t.children) : c.preorder.Sublist t.preorder := by
  obtain ⟨l, r, hl⟩ := List.append_of_mem hc
  rw [preorder_eq t, hl, List.flatMap_append, List.flatMap_cons]
  exact .cons _ ((List.sublist_append_left _ _).trans (List.sublist_append_right _ _))

theorem preorder_sublist {t s : Rose α} (h : Below t s) : s.preorder.Sublist t.preorder := by
  induction h with
  | refl => exact List.Sublist.refl _
  | tail _ hc ih => exact (preorder_sublist_child hc).trans ih

theorem children_sublist (t : Rose α) : t.children.Sublist t.preorder := by
  have hlist : ∀ cs : List (Rose α), cs.Sublist (cs.flatMap preorder) := by
    intro cs
    induction cs with
    | nil => exact List.Sublist.refl _
    | cons c cs ih =>
      rw [List.flatMap_cons, preorder_eq c, List.cons_append]
      exact (ih.trans (List.sublist_append_right _ _)).cons_cons c
  rw [preorder_eq]
  exact .cons t (hlist t.children)

/-! ### Levels -/

/-- The nodes so far down, from left to right. -/
def atDepth : ℕ → Rose α → List (Rose α)
  | 0, t => [t]
  | d + 1, t => t.children.flatMap (atDepth d)

mutual

/-- How many levels there are. -/
def height : Rose α → ℕ
  | ⟨_, cs⟩ => heights cs + 1

/-- The levels of the highest. -/
def heights : List (Rose α) → ℕ
  | [] => 0
  | c :: cs => max (height c) (heights cs)

end

/-- The levels one after the other, from the top down. -/
def levelOrder (t : Rose α) : List (Rose α) := (List.range t.height).flatMap (atDepth · t)

/-- The next level is the children of a level. -/
theorem atDepth_succ : ∀ (d : ℕ) (t : Rose α), atDepth (d + 1) t = (atDepth d t).flatMap children
  | 0, t => by rw [atDepth, atDepth, List.flatMap_singleton]; exact List.flatMap_singleton' _
  | d + 1, t => by
    rw [atDepth, atDepth, List.flatMap_assoc]
    exact List.flatMap_congr fun c _ => atDepth_succ d c

theorem height_le_heights {c : Rose α} : ∀ {cs : List (Rose α)}, c ∈ cs → height c ≤ heights cs
  | _ :: cs, h => by
    rw [heights]
    rcases List.mem_cons.mp h with rfl | h
    · exact Nat.le_max_left _ _
    · exact Nat.le_trans (height_le_heights h) (Nat.le_max_right _ _)

theorem height_child {t c : Rose α} (h : c ∈ t.children) : height c < height t := by
  obtain ⟨a, cs⟩ := t
  rw [height]
  exact Nat.lt_succ_of_le (height_le_heights h)

/-- Below the last level there is nothing. -/
theorem atDepth_of_height_le : ∀ {d : ℕ} {t : Rose α}, height t ≤ d → atDepth d t = []
  | 0, ⟨_, _⟩, h => by rw [height] at h; omega
  | d + 1, t, h => by
    rw [atDepth, List.flatMap_eq_nil_iff]
    intro c hc
    have hlt := height_child hc
    exact atDepth_of_height_le (by omega)

section Address

variable (name : α → κ)

mutual

/-- The nodes in preorder, each with its address below `path`. -/
def places (path : List κ) : Rose α → List (List κ × Rose α)
  | ⟨a, cs⟩ => (path, ⟨a, cs⟩) :: placesBelow path cs

/-- The places of the children of a node at `path`. -/
def placesBelow (path : List κ) : List (Rose α) → List (List κ × Rose α)
  | [] => []
  | c :: cs => places (path ++ [name c.label]) c ++ placesBelow path cs

end

/-- The node at an address below another: at each step a child of that name. -/
inductive At : Rose α → List κ → Rose α → Prop
  | here (t : Rose α) : At t [] t
  | child {t c s : Rose α} {p : List κ} : c ∈ t.children → At c p s → At t (name c.label :: p) s

/-- The child is the first of its name. -/
def IsFirst (t c : Rose α) : Prop :=
  ∃ l r, t.children = l ++ c :: r ∧ ∀ d ∈ l, name d.label ≠ name c.label

theorem placesBelow_eq (path : List κ) : ∀ cs : List (Rose α),
    placesBelow name path cs = cs.flatMap fun c => places name (path ++ [name c.label]) c
  | [] => rfl
  | c :: cs => by rw [placesBelow, placesBelow_eq path cs, List.flatMap_cons]

theorem places_eq (path : List κ) (t : Rose α) : places name path t =
    (path, t) :: t.children.flatMap fun c => places name (path ++ [name c.label]) c := by
  obtain ⟨a, cs⟩ := t
  rw [places, placesBelow_eq]

theorem places_nodes (path : List κ) (t : Rose α) :
    (places name path t).map Prod.snd = t.preorder := by
  induction t using induct generalizing path with
  | h t ih =>
    rw [places_eq, preorder_eq, List.map_cons, List.map_flatMap]
    congr 1
    exact List.flatMap_congr fun c hc => ih c hc _

theorem mem_places_iff {path q : List κ} {t s : Rose α} :
    (q, s) ∈ places name path t ↔ ∃ p, q = path ++ p ∧ At name t p s := by
  induction t using induct generalizing path with
  | h t ih =>
    rw [places_eq, List.mem_cons, List.mem_flatMap]
    constructor
    · rintro (h | ⟨c, hc, hs⟩)
      · cases h
        exact ⟨[], (List.append_nil _).symm, .here _⟩
      · obtain ⟨p, rfl, hp⟩ := (ih c hc).mp hs
        exact ⟨_, List.append_assoc _ _ _, .child hc hp⟩
    · rintro ⟨p, rfl, h⟩
      cases h with
      | here => exact .inl (by rw [List.append_nil])
      | @child _ c _ p hc h =>
        exact .inr ⟨c, hc, (ih c hc).mpr ⟨p, (List.append_assoc _ [name c.label] p).symm, h⟩⟩

theorem exists_at {t s : Rose α} (h : Below t s) : ∃ p, At name t p s := by
  induction h using Relation.ReflTransGen.head_induction_on with
  | refl => exact ⟨[], .here s⟩
  | head hc _ ih =>
    obtain ⟨p, hp⟩ := ih
    exact ⟨_, .child hc hp⟩

theorem At.snoc {t u c : Rose α} {p : List κ} (h : At name t p u) (hc : c ∈ u.children) :
    At name t (p ++ [name c.label]) c := by
  induction h with
  | here => exact .child hc (.here c)
  | child hd _ ih => exact .child hd (ih hc)

theorem IsFirst.mem {t c : Rose α} (h : IsFirst name t c) : c ∈ t.children := by
  obtain ⟨l, r, hl, -⟩ := h
  simp [hl]

/-! ### A walk finds the first node at an address -/

variable [BEq κ]

/-- Down an address, at each step to the first child of the name. -/
def walk (t : Rose α) (p : List κ) : Option (Rose α) :=
  p.foldlM (fun t k => t.children.find? (name ·.label == k)) t

theorem walk_cons (t : Rose α) (k : κ) (p : List κ) : walk name t (k :: p) =
    (t.children.find? (name ·.label == k)).bind (walk name · p) := rfl

variable [LawfulBEq κ] {name}

theorem find_child_iff {t c : Rose α} {k : κ} :
    t.children.find? (name ·.label == k) = some c ↔ IsFirst name t c ∧ name c.label = k := by
  rw [List.find?_eq_some_iff_append, IsFirst]
  constructor
  · rintro ⟨hk, l, r, hl, hno⟩
    obtain rfl := eq_of_beq hk
    exact ⟨⟨l, r, hl, fun d hd => by simpa using hno d hd⟩, rfl⟩
  · rintro ⟨⟨l, r, hl, hno⟩, rfl⟩
    exact ⟨BEq.rfl, l, r, hl, fun d hd => by simpa using hno d hd⟩

theorem walk_at : ∀ {p : List κ} {t s : Rose α}, walk name t p = some s →
    At name t p s ∧ Relation.ReflTransGen (IsFirst name) t s
  | [], t, _, h => by
    obtain rfl := Option.some.inj h
    exact ⟨.here _, .refl⟩
  | k :: p, t, s, h => by
    rw [walk_cons, Option.bind_eq_some_iff] at h
    obtain ⟨c, hc, h⟩ := h
    obtain ⟨hfirst, rfl⟩ := find_child_iff.mp hc
    obtain ⟨hat, hchain⟩ := walk_at h
    exact ⟨.child hfirst.mem hat, .head hfirst hchain⟩

/-- **What a walk can reach**: the nodes that are, with all their ancestors, the first of their name. -/
theorem exists_walk_iff {t s : Rose α} :
    (∃ p, walk name t p = some s) ↔ Relation.ReflTransGen (IsFirst name) t s := by
  refine ⟨fun ⟨p, h⟩ => (walk_at h).2, fun h => ?_⟩
  induction h using Relation.ReflTransGen.head_induction_on with
  | refl => exact ⟨[], rfl⟩
  | head hfirst _ ih =>
    obtain ⟨p, hp⟩ := ih
    exact ⟨_ :: p, by rw [walk_cons, find_child_iff.mpr ⟨hfirst, rfl⟩, Option.bind_some, hp]⟩

/-- Where no two siblings share a name, a walk finds every node at its address. -/
theorem walk_of_at {t s : Rose α} {p : List κ} (h : At name t p s)
    (hnames : ∀ u, Below t u → (u.children.map (name ·.label)).Nodup) : walk name t p = some s := by
  induction h with
  | here => rfl
  | @child t c s p hc _ ih =>
    obtain ⟨l, r, hl⟩ := List.append_of_mem hc
    have hnodup := hnames t .refl
    rw [hl, List.map_append, List.map_cons, List.nodup_middle, List.nodup_cons] at hnodup
    have hfirst : IsFirst name t c :=
      ⟨l, r, hl, fun d hd heq => hnodup.1 (List.mem_append_left _ (heq ▸ List.mem_map_of_mem hd))⟩
    rw [walk_cons, find_child_iff.mpr ⟨hfirst, rfl⟩, Option.bind_some]
    exact ih fun u hu => hnames u (.head hc hu)

/-- **The node a walk finds is the first at its address**, in preorder. -/
theorem lookup_places : ∀ {p path : List κ} {t s : Rose α}, walk name t p = some s →
    (places name path t).lookup (path ++ p) = some s
  | [], path, t, s, h => by
    obtain rfl := Option.some.inj h
    rw [places_eq, List.append_nil, List.lookup_cons_self]
  | k :: p, path, t, s, h => by
    rw [walk_cons, Option.bind_eq_some_iff] at h
    obtain ⟨c, hc, h⟩ := h
    obtain ⟨⟨l, r, hl, hno⟩, rfl⟩ := find_child_iff.mp hc
    -- the children before it have other names, so their places have other addresses
    have hbefore : (l.flatMap fun c => places name (path ++ [name c.label]) c).lookup
        (path ++ name c.label :: p) = none := by
      rw [List.lookup_eq_none_iff]
      intro e he
      obtain ⟨d, hd, he⟩ := List.mem_flatMap.mp he
      obtain ⟨q, hq, -⟩ := (mem_places_iff name (q := e.1) (s := e.2)).mp he
      have hne := hno d hd
      simp [hq, Ne.symm hne]
    have hself : (path ++ name c.label :: p == path) = false := by simp
    have hfound : (places name (path ++ [name c.label]) c).lookup (path ++ [name c.label] ++ p) =
        some s := lookup_places h
    rw [List.append_assoc, List.singleton_append] at hfound
    calc (places name path t).lookup (path ++ name c.label :: p)
        = (t.children.flatMap fun c => places name (path ++ [name c.label]) c).lookup
            (path ++ name c.label :: p) := by
          rw [places_eq, Dict.lookup_cons, hself, if_neg Bool.false_ne_true]
      _ = ((places name (path ++ [name c.label]) c).lookup (path ++ name c.label :: p)).or
            ((r.flatMap fun c => places name (path ++ [name c.label]) c).lookup
              (path ++ name c.label :: p)) := by
          rw [hl, List.flatMap_append, List.flatMap_cons, List.lookup_append, List.lookup_append, hbefore,
            Option.none_or]
      _ = some s := by rw [hfound, Option.some_or]

end Address

/-! ### A chain of nodes with a property -/

/-- A property that goes up from the children goes up all the way. -/
theorem of_below {P : Rose α → Prop} {t n : Rose α}
    (hup : ∀ s, Below t s → ∀ c ∈ s.children, P c → P s) (hn : Below t n) (hp : P n) : P t := by
  induction hn using Relation.ReflTransGen.head_induction_on with
  | refl => exact hp
  | head hstep _ ih => exact hup _ .refl _ hstep (ih fun s hs => hup s (.head hstep hs))

/-- **A chain that cannot go on has passed every node with the property.** -/
theorem below_of_chain {P : Rose α → Prop} {root s n : Rose α}
    (hup : ∀ t, Below root t → ∀ c ∈ t.children, P c → P t)
    (hone : ∀ t, Below root t → ∀ c ∈ t.children, ∀ d ∈ t.children, P c → P d → c = d)
    (hchain : Relation.ReflTransGen (fun t c => IsChild t c ∧ P c) root s)
    (hend : ∀ c ∈ s.children, ¬P c) (hn : Below root n) (hp : P n) : Below n s := by
  induction hchain using Relation.ReflTransGen.head_induction_on with
  | refl =>
    rcases hn.cases_head with rfl | ⟨d, hd, hdn⟩
    · exact .refl
    · exact absurd (of_below (fun t ht => hup t (.head hd ht)) hdn hp) (hend d hd)
  | @head root c hstep hrest ih =>
    obtain ⟨hc, hpc⟩ := hstep
    rcases hn.cases_head with rfl | ⟨d, hd, hdn⟩
    · exact .head hc (Relation.ReflTransGen.mono (fun _ _ h => h.1) _ _ hrest)
    · have hpd := of_below (fun t ht => hup t (.head hd ht)) hdn hp
      obtain rfl := hone root .refl d hd c hc hpd hpc
      exact ih (fun t ht => hup t (.head hd ht)) (fun t ht => hone t (.head hd ht)) hdn

end Rose
end LspClient
