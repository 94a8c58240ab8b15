/-
# The configuration map

A configuration is a nested dictionary. `deep_merge` lays one over another,
`deep_get` walks down a key path, and `ConfigurationMap.get` merges the scopes
whose pattern matches over the global configuration, in the order they were
added, and looks the section up, split at its dots.

A nested dictionary touches a key path if the path is in it or is cut off in it
by a value that is no dictionary. At one path a merge is easy to say: if the
update does not touch the path the base's value stays, if it cuts the path off
nothing is left, and if it holds a value there that value is merged over the
base's (`lookup_mergeValue`). So a merge made twice is the merge made once
(`deep_merge_exact`), and only the last scope that touches the section decides:
what came before matters just where it holds a dictionary (`get_last_touch`).

An update stores a key as it is, dots and all, and a lookup splits it: what
`update_global` sets under a dotted name is not found under that name
(`update_global_visible_iff`).

Key definitions: `Value`, `deepMerge`, `deepGet`, `ConfigurationMap.get`,
`Value.Touches`.
Key theorems: `lookup_mergeValue`, `deep_merge_exact`,
`ConfigurationMap.get_last_touch`, `ConfigurationMap.update_global_visible_iff`.
-/
import LspClient.Lib.Dict
import LspClient.Uri

namespace LspClient

variable {α : Type}

/-- A configuration value: a dictionary, by its items, or something else. `leaf none` is `None`. -/
inductive Value (α : Type) where
  | leaf (a : Option α)
  | dict (items : List (Text × Value α))

namespace Value

/-- Every dictionary in it has distinct keys. -/
inductive DistinctKeys : Value α → Prop
  | leaf (a : Option α) : DistinctKeys (.leaf a)
  | dict {items : List (Text × Value α)} : (items.map Prod.fst).Nodup →
      (∀ e ∈ items, DistinctKeys e.2) → DistinctKeys (.dict items)

/-- `getitem`, `none` where it raises: a `KeyError`, or a `TypeError` of what is no dictionary. -/
def getitem : Value α → Text → Option (Value α)
  | .leaf _, _ => none
  | .dict items, key => items.lookup key

/-- The value at a key path: `reduce(getitem, keys, v)`. -/
def lookup (v : Value α) (keys : List Text) : Option (Value α) := keys.foldlM getitem v

end Value

mutual

/-- `deep_merge`, the loop from `result` on over the items still to come. -/
def deepMerge (result : List (Text × Value α)) : List (Text × Value α) → List (Text × Value α)
  | [] => result
  | (key, value) :: update =>
    deepMerge (Dict.set result key (mergeValue (result.lookup key) value)) update

/-- What `deep_merge` sets under a key, given what `result` has there. -/
def mergeValue : Option (Value α) → Value α → Value α
  | some (.dict result), .dict value => .dict (deepMerge result value)
  | _, value => value

end

/-- `deep_get`. -/
def deepGet (d : List (Text × Value α)) (keys : List Text) : Value α :=
  ((Value.dict d).lookup keys).getD (.leaf none)

/-! ### A merge keeps the keys distinct -/

section Distinct

open Value

theorem nodup_deepMerge : ∀ (update : List (Text × Value α)) {result : List (Text × Value α)},
    (result.map Prod.fst).Nodup → ((deepMerge result update).map Prod.fst).Nodup
  | [], _, h => h
  | (_, _) :: update, _, h => nodup_deepMerge update (Dict.nodup_set h)

/-- **Lookup in a merge**, a key at a time. -/
theorem lookup_deepMerge_key (key : Text) : ∀ {update : List (Text × Value α)},
    (update.map Prod.fst).Nodup → ∀ result : List (Text × Value α),
    (deepMerge result update).lookup key =
      ((update.lookup key).map (mergeValue (result.lookup key))).or (result.lookup key)
  | [], _, result => rfl
  | (k, value) :: update, h, result => by
    rw [List.map_cons, List.nodup_cons] at h
    rw [deepMerge, lookup_deepMerge_key key h.2, Dict.lookup_set, Dict.lookup_cons]
    cases hk : key == k with
    | false => rfl
    | true =>
      obtain rfl := eq_of_beq hk
      rw [Dict.lookup_of_notMem h.1]
      rfl

theorem Value.DistinctKeys.nodup {items : List (Text × Value α)} (h : DistinctKeys (.dict items)) :
    (items.map Prod.fst).Nodup := by
  cases h
  assumption

theorem Value.DistinctKeys.of_mem {items : List (Text × Value α)} (h : DistinctKeys (.dict items))
    {e : Text × Value α} (he : e ∈ items) : e.2.DistinctKeys := by
  cases h with
  | dict _ hall => exact hall e he

theorem Value.DistinctKeys.of_lookup {items : List (Text × Value α)} (h : DistinctKeys (.dict items))
    {key : Text} {v : Value α} (hv : items.lookup key = some v) : v.DistinctKeys :=
  h.of_mem (Dict.mem_of_lookup hv)

theorem Value.DistinctKeys.lookup : ∀ {p : List Text} {v w : Value α}, v.DistinctKeys →
    v.lookup p = some w → w.DistinctKeys
  | [], _, _, h, hw => Option.some.inj hw ▸ h
  | _ :: _, .dict _, _, h, hw => by
    obtain ⟨v, hv, hw⟩ := Option.bind_eq_some_iff.mp hw
    exact (h.of_lookup hv).lookup hw

theorem distinctKeys_dict_iff {items : List (Text × Value α)} : DistinctKeys (.dict items) ↔
    (items.map Prod.fst).Nodup ∧ ∀ key v, items.lookup key = some v → v.DistinctKeys := by
  refine ⟨fun h => ⟨h.nodup, fun _ _ => h.of_lookup⟩, fun h => .dict h.1 fun e he => ?_⟩
  exact h.2 e.1 e.2 ((Dict.mem_iff_lookup h.1).mp he)

/-- A merge of two values with distinct keys has distinct keys. -/
theorem distinctKeys_mergeValue {v : Value α} (hv : v.DistinctKeys) : ∀ {o : Option (Value α)},
    (∀ w, o = some w → w.DistinctKeys) → (mergeValue o v).DistinctKeys := by
  induction hv with
  | leaf a =>
    intro o _
    rw [mergeValue]
    · exact .leaf a
    · simp
  | @dict update hup hall ih =>
    intro o ho
    match o, ho with
    | none, _ => exact .dict hup hall
    | some (.leaf _), _ => exact .dict hup hall
    | some (.dict result), ho =>
      have hr := distinctKeys_dict_iff.mp (ho _ rfl)
      rw [mergeValue, distinctKeys_dict_iff]
      refine ⟨nodup_deepMerge update hr.1, fun key v hkey => ?_⟩
      rw [lookup_deepMerge_key key hup] at hkey
      cases hu : update.lookup key with
      | none =>
        rw [hu] at hkey
        exact hr.2 key v hkey
      | some value =>
        rw [hu] at hkey
        obtain rfl := Option.some.inj hkey
        exact ih _ (Dict.mem_of_lookup hu) (hr.2 key)

theorem distinctKeys_deepMerge {result update : List (Text × Value α)}
    (hr : DistinctKeys (.dict result)) (hu : DistinctKeys (.dict update)) :
    DistinctKeys (.dict (deepMerge result update)) :=
  distinctKeys_mergeValue hu (o := some (.dict result)) fun _ h => Option.some.inj h ▸ hr

end Distinct

/-! ### The map -/

/-- A value as Python has it: its dictionaries have distinct keys. -/
abbrev Object (α : Type) := { v : Value α // v.DistinctKeys }

/-- `Config`, a dictionary. -/
abbrev Config (α : Type) := { items : List (Text × Value α) // (Value.dict items).DistinctKeys }

/-- `{key: v}`. -/
def Config.single (key : Text) (v : Object α) : Config α :=
  ⟨[(key, v.1)], .dict (by simp) (by simpa using v.2)⟩

/-- `deep_merge`, of configurations. -/
def Config.merge (base update : Config α) : Config α :=
  ⟨deepMerge base.1 update.1, distinctKeys_deepMerge base.2 update.2⟩

/-- The configuration as a value. -/
abbrev Config.value (config : Config α) : Value α := .dict config.1

/-- `ScopeConfig`. -/
structure ScopeConfig (α : Type) where
  pattern : Text
  config : Config α

/-- `ConfigurationMap`. -/
structure ConfigurationMap (α : Type) where
  globalConfig : Config α := ⟨[], .dict (by simp) (by simp)⟩
  scopedConfigs : List (ScopeConfig α) := []

namespace ConfigurationMap

/-- `update_global`. -/
def updateGlobal (map : ConfigurationMap α) (config : Config α) (merge : Bool := true) :
    ConfigurationMap α :=
  { map with globalConfig := if merge then map.globalConfig.merge config else config }

/-- `add_scope`. -/
def addScope (map : ConfigurationMap α) (pattern : Text) (config : Config α) : ConfigurationMap α :=
  { map with scopedConfigs := map.scopedConfigs ++ [⟨pattern, config⟩] }

/-- `_get_section`. -/
def getSection (config : Value α) : Option Text → Value α
  | none => config
  | some sect =>
    if sect = [] then config
    else match config with
      | .leaf _ => .leaf none
      | .dict d => deepGet d (sect.splitOn '.')

/-- The loop of `get` over the scopes, for a file's path. -/
def finalConfig (fnmatch : Text → Text → Bool) (map : ConfigurationMap α) (path : Text) : Config α :=
  map.scopedConfigs.foldl
    (fun final s => if fnmatch path s.pattern then final.merge s.config else final) map.globalConfig

/-- `get`. -/
def get (netlocError : Text → Option Text) (fnmatch : Text → Text → Bool) (map : ConfigurationMap α)
    (scopeUri sect : Option Text) : Except UriError (Value α) := do
  if scopeUri.getD [] = [] then return getSection (.dict map.globalConfig.1) sect
  let path ← fromLocalUri netlocError (scopeUri.getD [])
  return getSection (.dict (finalConfig fnmatch map path.toText).1) sect

end ConfigurationMap

/-! ### Key paths -/

namespace Value

/-- A value that is no dictionary stands at a proper prefix of the path. -/
def CutOff (v : Value α) (p : List Text) : Prop :=
  ∃ q, q <+: p ∧ q ≠ p ∧ ∃ a, v.lookup q = some (.leaf a)

/-- The path is in the dictionary, or it is cut off there. -/
def Touches (v : Value α) (p : List Text) : Prop := (v.lookup p).isSome ∨ v.CutOff p

/-- The items of a dictionary; none of anything else. -/
def items : Option (Value α) → List (Text × Value α)
  | some (.dict d) => d
  | _ => []

@[simp] theorem lookup_nil (v : Value α) : v.lookup [] = some v := rfl

theorem lookup_dict_cons (d : List (Text × Value α)) (key : Text) (p : List Text) :
    lookup (.dict d) (key :: p) = (d.lookup key).bind (·.lookup p) := rfl

theorem not_cutOff_nil (v : Value α) : ¬v.CutOff [] := by
  rintro ⟨q, hq, hne, -⟩
  exact hne (List.prefix_nil.mp hq)

theorem cutOff_leaf (a : Option α) {p : List Text} : CutOff (.leaf a) p ↔ p ≠ [] := by
  refine ⟨?_, fun h => ⟨[], List.nil_prefix, Ne.symm h, a, rfl⟩⟩
  rintro h rfl
  exact not_cutOff_nil _ h

theorem cutOff_dict_cons {d : List (Text × Value α)} {key : Text} {p : List Text} :
    CutOff (.dict d) (key :: p) ↔ ∃ v, d.lookup key = some v ∧ v.CutOff p := by
  constructor
  · rintro ⟨q, hq, hne, a, hl⟩
    cases q with
    | nil => cases hl
    | cons k q =>
      obtain ⟨rfl, hqp⟩ := List.cons_prefix_cons.mp hq
      obtain ⟨v, hv, hl⟩ := Option.bind_eq_some_iff.mp hl
      exact ⟨v, hv, q, hqp, fun h => hne (congrArg _ h), a, hl⟩
  · rintro ⟨v, hv, q, hq, hne, a, hl⟩
    refine ⟨key :: q, List.cons_prefix_cons.mpr ⟨rfl, hq⟩, fun h => hne (List.cons.inj h).2, a, ?_⟩
    rw [lookup_dict_cons, hv, Option.bind_some, hl]

/-- Past what cuts a path off there is nothing. -/
theorem CutOff.lookup {v : Value α} {p : List Text} (h : v.CutOff p) : v.lookup p = none := by
  induction p generalizing v with
  | nil => exact absurd h (not_cutOff_nil v)
  | cons key p ih =>
    cases v with
    | leaf a => rfl
    | dict d =>
      obtain ⟨w, hw, h⟩ := cutOff_dict_cons.mp h
      rw [lookup_dict_cons, hw, Option.bind_some, ih h]

end Value

/-! ### A merge at one key path -/

section Merge

open Value

theorem mergeValue_leaf (o : Option (Value α)) (a : Option α) : mergeValue o (.leaf a) = .leaf a := by
  rw [mergeValue]
  simp

theorem deepMerge_of_disjoint : ∀ {update result : List (Text × Value α)},
    (update.map Prod.fst).Nodup → (∀ key ∈ update.map Prod.fst, key ∉ result.map Prod.fst) →
    deepMerge result update = result ++ update
  | [], result, _, _ => by rw [deepMerge, List.append_nil]
  | (key, value) :: update, result, hn, hd => by
    rw [List.map_cons, List.nodup_cons] at hn
    rw [List.map_cons, List.forall_mem_cons] at hd
    rw [deepMerge, Dict.lookup_of_notMem hd.1, mergeValue, Dict.set_of_notMem hd.1,
      deepMerge_of_disjoint hn.2, List.append_assoc, List.singleton_append]
    · intro k hk
      rw [List.map_append, List.mem_append, not_or]
      refine ⟨hd.2 k hk, ?_⟩
      simpa using fun heq : k = key => hn.1 (heq ▸ hk)
    · simp

theorem mergeValue_dict {update : List (Text × Value α)} (hu : (update.map Prod.fst).Nodup)
    (o : Option (Value α)) : mergeValue o (.dict update) = .dict (deepMerge (items o) update) := by
  have hnil : deepMerge [] update = update := deepMerge_of_disjoint hu (by simp)
  match o with
  | none => simp [mergeValue, items, hnil]
  | some (.leaf _) => simp [mergeValue, items, hnil]
  | some (.dict _) => rw [mergeValue, items]

theorem lookup_items (o : Option (Value α)) {p : List Text} (hp : p ≠ []) :
    lookup (.dict (items o)) p = o.bind (·.lookup p) := by
  cases p with
  | nil => exact absurd rfl hp
  | cons key p =>
    match o with
    | none => rfl
    | some (.leaf _) => rfl
    | some (.dict _) => rfl

/-- **A merge at one key path**: a path the update does not touch keeps what the base has there, a path
it cuts off has nothing left, and a value it has is merged over what the base has. -/
theorem lookup_mergeValue : ∀ {p : List Text} {v : Value α} {o : Option (Value α)}, v.DistinctKeys →
    (¬v.Touches p → (mergeValue o v).lookup p = o.bind (·.lookup p)) ∧
    (v.CutOff p → (mergeValue o v).lookup p = none) ∧
    ∀ w, v.lookup p = some w →
      (mergeValue o v).lookup p = some (mergeValue (o.bind (·.lookup p)) w)
  | [], v, o, _ => by
    refine ⟨fun h => absurd (.inl rfl) h, fun h => absurd h (not_cutOff_nil v), ?_⟩
    rintro _ ⟨⟩
    simp
  | key :: p, .leaf a, o, _ => by
    have hcut : CutOff (.leaf a) (key :: p) := (cutOff_leaf a).mpr (by simp)
    rw [mergeValue_leaf]
    refine ⟨fun h => absurd (.inr hcut) h, fun _ => rfl, ?_⟩
    rintro _ ⟨⟩
  | key :: p, .dict update, o, hd => by
    have hbase := lookup_items o (List.cons_ne_nil key p)
    rw [lookup_dict_cons] at hbase
    rw [Touches, cutOff_dict_cons, lookup_dict_cons, mergeValue_dict hd.nodup, lookup_dict_cons,
      lookup_deepMerge_key key hd.nodup, ← hbase]
    cases hk : update.lookup key with
    | none => simp
    | some w =>
      obtain ⟨huntouched, hcut, hvalue⟩ :=
        lookup_mergeValue (p := p) (o := (items o).lookup key) (hd.of_lookup hk)
      simp only [Option.map_some, Option.some_or, Option.bind_some, Option.some.injEq,
        exists_eq_left']
      exact ⟨huntouched, hcut, hvalue⟩

theorem Config.lookup_merge_untouched {base update : Config α} {p : List Text}
    (h : ¬update.value.Touches p) : (base.merge update).value.lookup p = base.value.lookup p :=
  (lookup_mergeValue (o := some base.value) update.2).1 h

theorem Config.lookup_merge_cutOff {base update : Config α} {p : List Text}
    (h : update.value.CutOff p) : (base.merge update).value.lookup p = none :=
  (lookup_mergeValue (o := some base.value) update.2).2.1 h

theorem Config.lookup_merge {base update : Config α} {p : List Text} {v : Value α}
    (h : update.value.lookup p = some v) :
    (base.merge update).value.lookup p = some (mergeValue (base.value.lookup p) v) :=
  (lookup_mergeValue (o := some base.value) update.2).2.2 v h

/-! ### A merge made twice -/

/-- An update that has come through already changes nothing. -/
theorem deepMerge_eq_self : ∀ {update result : List (Text × Value α)},
    (∀ e ∈ update, ∃ w, result.lookup e.1 = some w ∧ mergeValue (some w) e.2 = w) →
    deepMerge result update = result
  | [], _, _ => by rw [deepMerge]
  | (key, value) :: update, result, h => by
    rw [List.forall_mem_cons] at h
    obtain ⟨⟨w, hw, hmerge⟩, hrest⟩ := h
    rw [deepMerge, hw, hmerge, Dict.set_of_lookup hw, deepMerge_eq_self hrest]

/-- A value merged over what it has been merged into. -/
theorem mergeValue_twice {v : Value α} (hv : v.DistinctKeys) : ∀ o : Option (Value α),
    mergeValue (some (mergeValue o v)) v = mergeValue o v := by
  induction hv with
  | leaf a =>
    intro o
    rw [mergeValue_leaf, mergeValue_leaf]
  | @dict update hn hall ih =>
    intro o
    rw [mergeValue_dict hn o, mergeValue]
    congr 1
    refine deepMerge_eq_self fun e he => ⟨mergeValue ((items o).lookup e.1) e.2, ?_, ih e he _⟩
    rw [lookup_deepMerge_key e.1 hn, (Dict.mem_iff_lookup hn).mp he]
    rfl

/-- A path is not touched if nothing is at it or past it, and no value that is no dictionary before it. -/
theorem not_touches_iff {v : Value α} {p : List Text} : ¬v.Touches p ↔
    (∀ q, p <+: q → v.lookup q = none) ∧ ∀ q, q <+: p → q ≠ p → ∀ a, v.lookup q ≠ some (.leaf a) := by
  constructor
  · intro h
    have hnone : v.lookup p = none := Option.not_isSome_iff_eq_none.mp fun hs => h (.inl hs)
    refine ⟨?_, fun q hq hne a ha => h (.inr ⟨q, hq, hne, a, ha⟩)⟩
    rintro _ ⟨q, rfl⟩
    rw [Value.lookup, List.foldlM_append, ← Value.lookup, hnone]
    rfl
  · rintro ⟨hnone, hleaf⟩ (hs | ⟨q, hq, hne, a, ha⟩)
    · rw [hnone p (List.prefix_refl p)] at hs
      cases hs
    · exact hleaf q hq hne a ha

/-- **`deep_merge` is idempotent and exact at the leaves.** -/
theorem deep_merge_exact (base update : Config α) :
    (base.merge update).merge update = base.merge update ∧
    (∀ p a, update.value.lookup p = some (.leaf a) →
      (base.merge update).value.lookup p = some (.leaf a)) ∧
    ∀ p, (∀ q, p <+: q → update.value.lookup q = none) →
      (∀ q, q <+: p → q ≠ p → ∀ a, update.value.lookup q ≠ some (.leaf a)) →
      (base.merge update).value.lookup p = base.value.lookup p := by
  refine ⟨Subtype.ext ?_, fun p a h => ?_, fun p hnone hleaf => ?_⟩
  · have htwice := mergeValue_twice update.2 (some base.value)
    rw [mergeValue, mergeValue] at htwice
    exact Value.dict.inj htwice
  · rw [Config.lookup_merge h, mergeValue_leaf]
  · exact Config.lookup_merge_untouched (not_touches_iff.mpr ⟨hnone, hleaf⟩)

end Merge

/-! ### The last scope that touches the section -/

namespace ConfigurationMap

/-- The configurations of the scopes whose pattern matches the path, in order. -/
def matching (fnmatch : Text → Text → Bool) (map : ConfigurationMap α) (path : Text) : List (Config α) :=
  (map.scopedConfigs.filter (fnmatch path ·.pattern)).map (·.config)

theorem finalConfig_eq (fnmatch : Text → Text → Bool) (map : ConfigurationMap α) (path : Text) :
    finalConfig fnmatch map path = (map.matching fnmatch path).foldl Config.merge map.globalConfig := by
  unfold finalConfig matching
  rw [List.foldl_map, List.foldl_filter]

/-- A scope that is added is merged last. -/
theorem matching_addScope (fnmatch : Text → Text → Bool) (map : ConfigurationMap α)
    (pattern path : Text) (config : Config α) : (map.addScope pattern config).matching fnmatch path =
      map.matching fnmatch path ++ if fnmatch path pattern then [config] else [] := by
  unfold matching addScope
  rw [List.filter_append, List.map_append]
  cases hm : fnmatch path pattern <;> simp [hm]

theorem getSection_value (config : Config α) {sect : Text} (hs : sect ≠ []) :
    getSection config.value (some sect) = deepGet config.1 (sect.splitOn '.') := by
  rw [getSection, if_neg hs]

theorem get_ok {netlocError : Text → Option Text} {fnmatch : Text → Text → Bool}
    {map : ConfigurationMap α} {uri sect : Text} {path : Path} (hu : uri ≠ []) (hs : sect ≠ [])
    (hp : fromLocalUri netlocError uri = .ok path) :
    map.get netlocError fnmatch (some uri) (some sect) =
      .ok (deepGet ((map.matching fnmatch path.toText).foldl Config.merge map.globalConfig).1
        (sect.splitOn '.')) := by
  unfold get
  rw [Option.getD_some, if_neg hu, hp]
  show Except.ok (getSection (finalConfig fnmatch map path.toText).value (some sect)) = _
  rw [getSection_value _ hs, finalConfig_eq]

/-- Configurations that do not touch a path change nothing there. -/
theorem lookup_foldl_untouched {p : List Text} : ∀ {configs : List (Config α)} {base : Config α},
    (∀ c ∈ configs, ¬c.value.Touches p) →
    (configs.foldl Config.merge base).value.lookup p = base.value.lookup p
  | [], _, _ => rfl
  | c :: configs, base, h => by
    rw [List.forall_mem_cons] at h
    rw [List.foldl_cons, lookup_foldl_untouched h.2]
    exact Config.lookup_merge_untouched h.1

/-- **The last match wins.** Of the scopes that match the URI's path the last one that touches the
section decides; where none does, the global configuration. -/
theorem get_last_touch (netlocError : Text → Option Text) (fnmatch : Text → Text → Bool)
    (map : ConfigurationMap α) (uri sect : Text) (hu : uri ≠ []) (hs : sect ≠ []) :
    (∀ e, fromLocalUri netlocError uri = .error e →
      map.get netlocError fnmatch (some uri) (some sect) = .error e) ∧
    ∀ path, fromLocalUri netlocError uri = .ok path →
      ((∀ c ∈ map.matching fnmatch path.toText, ¬c.value.Touches (sect.splitOn '.')) →
        map.get netlocError fnmatch (some uri) (some sect) =
          .ok ((map.globalConfig.value.lookup (sect.splitOn '.')).getD (.leaf none))) ∧
      ∀ pre c post, map.matching fnmatch path.toText = pre ++ c :: post →
        c.value.Touches (sect.splitOn '.') → (∀ d ∈ post, ¬d.value.Touches (sect.splitOn '.')) →
        (∀ a, c.value.lookup (sect.splitOn '.') = some (.leaf a) →
          map.get netlocError fnmatch (some uri) (some sect) = .ok (.leaf a)) ∧
        (c.value.CutOff (sect.splitOn '.') →
          map.get netlocError fnmatch (some uri) (some sect) = .ok (.leaf none)) ∧
        ∀ u, c.value.lookup (sect.splitOn '.') = some (.dict u) →
          map.get netlocError fnmatch (some uri) (some sect) = .ok (.dict (deepMerge
            (Value.items ((pre.foldl Config.merge map.globalConfig).value.lookup (sect.splitOn '.')))
            u)) := by
  refine ⟨fun e he => ?_, fun path hp => ?_⟩
  · unfold get
    rw [Option.getD_some, if_neg hu, he]
    rfl
  rw [get_ok hu hs hp, deepGet]
  refine ⟨fun h => by rw [lookup_foldl_untouched h], fun pre c post hm _ hpost => ?_⟩
  -- what comes after the scope leaves the path alone; the scope itself is one merge
  have hlast : ((map.matching fnmatch path.toText).foldl Config.merge map.globalConfig).value.lookup
      (sect.splitOn '.') =
      ((pre.foldl Config.merge map.globalConfig).merge c).value.lookup (sect.splitOn '.') := by
    rw [hm, List.foldl_append, List.foldl_cons, lookup_foldl_untouched hpost]
  rw [hlast]
  refine ⟨fun a ha => ?_, fun hcut => ?_, fun u hu => ?_⟩
  · rw [Config.lookup_merge ha, mergeValue_leaf, Option.getD_some]
  · rw [Config.lookup_merge_cutOff hcut, Option.getD_none]
  · rw [Config.lookup_merge hu, mergeValue_dict (c.2.lookup hu).nodup, Option.getD_some]

/-- One setting below `python.analysis`. -/
def setting (name value : Text) : Config Text :=
  .single "python".toList ⟨.dict [("analysis".toList, .dict [(name, .leaf (some value))])],
    .dict (by simp) (by simpa using .dict (by simp) (by simpa using .leaf _))⟩

/-- A global setting, and another for the Python files. -/
def settings : ConfigurationMap Text :=
  ⟨setting "extraPaths".toList "lib".toList, [⟨"*.py".toList, setting "mode".toList "off".toList⟩]⟩

/-- The scope's mode is laid over what the global configuration has beside it. -/
theorem get_last_touch_merged : settings.get (fun _ => none) (fun _ _ => true)
    (some "file:///a.py".toList) (some "python.analysis".toList) =
      .ok (.dict [("extraPaths".toList, .leaf (some "lib".toList)),
        ("mode".toList, .leaf (some "off".toList))]) := by
  have h := (get_last_touch (fun _ => none) (fun _ _ => true) settings "file:///a.py".toList
    "python.analysis".toList (by decide) (by decide)).2 (Path.ofText "/a.py".toList) (by rfl)
  have hlast := h.2 [] (setting "mode".toList "off".toList) [] rfl (.inl rfl) (by simp)
  exact hlast.2.2 _ rfl

end ConfigurationMap

/-! ### What an update stores and a lookup finds -/

namespace Value

/-- What a lookup sees of a value at its own place. -/
def face : Value α → Option (Option α)
  | .leaf a => some a
  | .dict _ => none

/-- Equal as Python compares: the same at every path, the order of keys apart. -/
def Same (v w : Value α) : Prop := ∀ p, (v.lookup p).map face = (w.lookup p).map face

theorem Same.refl (v : Value α) : v.Same v := fun _ => rfl

theorem Same.isSome {v w : Value α} (h : v.Same w) (p : List Text) :
    (v.lookup p).isSome = (w.lookup p).isSome := by
  rw [← Option.isSome_map (f := face), h p, Option.isSome_map]

/-- A path in a value is no longer than the value is large. -/
theorem length_of_lookup : ∀ {p : List Text} {v w : Value α}, v.lookup p = some w →
    p.length ≤ sizeOf v
  | [], _, _, _ => Nat.zero_le _
  | key :: p, .dict d, w, h => by
    obtain ⟨u, hu, hw⟩ := Option.bind_eq_some_iff.mp h
    have hlt := List.sizeOf_lt_of_mem (Dict.mem_of_lookup hu)
    have hp := length_of_lookup hw
    simp only [List.length_cons, Value.dict.sizeOf_spec, Prod.mk.sizeOf_spec] at hlt ⊢
    omega

theorem face_mergeValue (o : Option (Value α)) (v : Value α) : (mergeValue o v).face = v.face := by
  cases v with
  | leaf a => rw [mergeValue_leaf]
  | dict d =>
    match o with
    | none => rfl
    | some (.leaf _) => rfl
    | some (.dict _) => rfl

end Value

/-- A merge leaves nothing of the base beside the update just if the update touches all of the base. -/
theorem Config.same_merge_iff (base update : Config α) : (base.merge update).value.Same update.value ↔
    ∀ p, (base.value.lookup p).isSome → update.value.Touches p := by
  constructor
  · intro h p hp
    by_contra hno
    have hseen := h.isSome p
    rw [Config.lookup_merge_untouched hno, hp] at hseen
    exact hno (.inl hseen.symm)
  · intro h p
    by_cases ht : update.value.Touches p
    · rcases ht with ht | hcut
      · obtain ⟨w, hw⟩ := Option.isSome_iff_exists.mp ht
        rw [Config.lookup_merge hw, hw, Option.map_some, Option.map_some, Value.face_mergeValue]
      · rw [Config.lookup_merge_cutOff hcut, hcut.lookup]
    · have hbase := Option.not_isSome_iff_eq_none.mp (mt (h p) ht)
      have hupdate := Option.not_isSome_iff_eq_none.mp fun hs => ht (.inl hs)
      rw [Config.lookup_merge_untouched ht, hbase, hupdate]

/-- The value merged in comes out as it was, but for a dictionary over one it does not cover. -/
theorem same_mergeValue_iff {o : Option (Value α)} {v : Value α} (ho : ∀ w, o = some w → w.DistinctKeys)
    (hv : v.DistinctKeys) : (mergeValue o v).Same v ↔ ∀ d u, o = some (.dict d) → v = .dict u →
      ∀ p, ((Value.dict d).lookup p).isSome → (Value.dict u).Touches p := by
  match o, v, ho, hv with
  | some (.dict d), .dict u, ho, hv =>
    have hiff : (mergeValue (some (.dict d)) (.dict u)).Same (.dict u) ↔
        ∀ p, ((Value.dict d).lookup p).isSome → (Value.dict u).Touches p :=
      Config.same_merge_iff ⟨d, ho _ rfl⟩ ⟨u, hv⟩
    refine ⟨?_, fun h => hiff.mpr (h d u rfl rfl)⟩
    rintro h _ _ ⟨⟩ ⟨⟩
    exact hiff.mp h
  | some (.dict d), .leaf a, _, _ => simpa [mergeValue_leaf] using Value.Same.refl _
  | some (.leaf a), v, _, _ => simpa [mergeValue] using Value.Same.refl _
  | none, v, _, _ => simpa [mergeValue] using Value.Same.refl _

namespace ConfigurationMap

variable (map : ConfigurationMap α) (sect : Text) (v : Object α)

/-- What an update stores under its key. -/
theorem lookup_updateGlobal (key : Text) (p : List Text) :
    (map.updateGlobal (.single sect v)).globalConfig.value.lookup (key :: p) =
      if key = sect then (mergeValue (map.globalConfig.1.lookup sect) v.1).lookup p
      else map.globalConfig.value.lookup (key :: p) := by
  have hset : (map.updateGlobal (.single sect v)).globalConfig.1 =
      Dict.set map.globalConfig.1 sect (mergeValue (map.globalConfig.1.lookup sect) v.1) := rfl
  rw [Config.value, hset, Value.lookup_dict_cons, Dict.lookup_set]
  by_cases h : key = sect
  · rw [if_pos (by simpa using h), if_pos h, Option.bind_some]
  · rw [if_neg (by simpa using h), if_neg h, Config.value, Value.lookup_dict_cons]

theorem get_none (netlocError : Text → Option Text) (fnmatch : Text → Text → Bool) :
    map.get netlocError fnmatch none (some sect) =
      .ok (getSection map.globalConfig.value (some sect)) := rfl

/-- The whole configuration is larger than what it holds under a key. -/
theorem not_same_updateGlobal : ¬(map.updateGlobal (.single [] v)).globalConfig.value.Same v.1 := by
  intro h
  -- a path as long as we like, all of empty keys
  have hlong (n : ℕ) : (v.1.lookup (List.replicate n [])).isSome := by
    induction n with
    | zero => rfl
    | succ n ih =>
      obtain ⟨w, hw⟩ := Option.isSome_iff_exists.mp ih
      rw [List.replicate_succ, ← h.isSome, lookup_updateGlobal, if_pos rfl,
        (lookup_mergeValue v.2).2.2 w hw]
      rfl
  obtain ⟨w, hw⟩ := Option.isSome_iff_exists.mp (hlong (sizeOf v.1 + 1))
  have := Value.length_of_lookup hw
  rw [List.length_replicate] at this
  omega

/-- A dotted name has more than one component, and the first is another name. -/
theorem splitOn_dotted {sect : Text} (h : '.' ∈ sect) :
    ∃ key p, sect.splitOn '.' = key :: p ∧ key ≠ sect := by
  obtain ⟨key, rest, hs, hkey⟩ := List.eq_append_cons_of_mem h
  refine ⟨key, rest.splitOn '.', ?_, fun heq => hkey (heq ▸ h)⟩
  rw [hs, List.splitOn_append_cons_self_of_not_mem hkey]

/-- **When an update is seen.** After `update_global({s: v})` a lookup of `s` gives `v` just if `s` is
not empty and either has a dot and the global configuration holds `v` at its components already, or has
no dot and `v` is not a dictionary that leaves something of the one it is merged over. -/
theorem update_global_visible_iff (netlocError : Text → Option Text) (fnmatch : Text → Text → Bool)
    (map : ConfigurationMap α) (sect : Text) (v : Object α) :
    (∃ w, (map.updateGlobal (.single sect v)).get netlocError fnmatch none (some sect) = .ok w ∧
      w.Same v.1) ↔
    sect ≠ [] ∧ if '.' ∈ sect then
      ((map.globalConfig.value.lookup (sect.splitOn '.')).getD (.leaf none)).Same v.1
    else ∀ d u, map.globalConfig.1.lookup sect = some (.dict d) → v.1 = .dict u →
      ∀ p, ((Value.dict d).lookup p).isSome → (Value.dict u).Touches p := by
  simp only [get_none, Except.ok.injEq, exists_eq_left']
  by_cases hs : sect = []
  · subst hs
    simpa [getSection] using not_same_updateGlobal map v
  rw [getSection_value _ hs, and_iff_right hs, deepGet]
  by_cases hdot : '.' ∈ sect
  · obtain ⟨key, p, hsplit, hkey⟩ := splitOn_dotted hdot
    rw [if_pos hdot, hsplit, lookup_updateGlobal, if_neg hkey]
  · rw [if_neg hdot, List.splitOn_eq_singleton hdot, lookup_updateGlobal, if_pos rfl,
      Value.lookup_nil, Option.getD_some]
    exact same_mergeValue_iff (fun _ => map.globalConfig.2.of_lookup) v.2

/-- The documentation's own update: the server asks for the mode just set and gets `None`. -/
theorem update_global_dotted_lost :
    ¬∃ w, ((({} : ConfigurationMap Text).updateGlobal
        (.single "python.analysis.typeCheckingMode".toList ⟨.leaf (some "strict".toList), .leaf _⟩)).get
        (fun _ => none) (fun _ _ => true) none (some "python.analysis.typeCheckingMode".toList)) =
          .ok w ∧
      w.Same (.leaf (some "strict".toList)) := by
  rintro ⟨w, hw, h⟩
  obtain rfl := Except.ok.inj hw
  exact absurd (h []) (by decide)

end ConfigurationMap

end LspClient
