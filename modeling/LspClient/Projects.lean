/-
# The client and the project of a path

`find_client` asks the languages in a fixed order for the project that a path
belongs to, and takes the first that has one. The project of a language is
looked for along `[path, *path.parents]`, that is along the text of the path: up
to the root if the path is absolute, and else up to the current directory. So
what is found is the nearest project above the path, and it is found unless that
is above the directory which a relative path starts from (`nearest_root_iff`). In
a path with `..` what comes before it is not above what it leads to, and so the
project found holds the path just if the rest never climbs out of it
(`root_holds_iff`).

For a file the suffix decides. Only two of the languages share suffixes, and of
them Deno, which is asked last, gets a file just if no TypeScript project is
above it, however much nearer its own is. For a directory no suffix decides, and
the languages asked before shut out the later ones (`find_client_iff`).

Key definitions: `fnmatch`, `LanguageConfig`, `isProjectRoot`, `findProjectRoot`,
`findClient`, `IsRoot`, `Searched`, `rivals`.
Key theorems: `isProjectRoot_iff`, `findProjectRoot_iff`, `nearest_root_iff`,
`root_holds_iff`, `isRoot_language`, `find_client_iff`.
-/
import LspClient.Client
import LspClient.Lib.Ancestors
import LspClient.Lib.Lexical

namespace LspClient
namespace Projects

open FileTree Ancestors

/-! ### Patterns -/

/-- Does the name match the pattern, in which `*` stands for any text and `?` for
any character? -/
def fnmatch : Text → Name → Bool
  | [], name => name.isEmpty
  | '*' :: pattern, name => name.tails.any (fnmatch pattern)
  | '?' :: pattern, name =>
    match name with
    | [] => false
    | _ :: name => fnmatch pattern name
  | c :: pattern, name =>
    match name with
    | [] => false
    | d :: name => c == d && fnmatch pattern name

/-- A pattern of one component, without `[` and `**`. -/
def isPattern (t : Text) : Bool :=
  isPart t && t ≠ ['.', '.'] && !t.contains '[' && !decide (['*', '*'] <:+: t)

abbrev Pattern := { t : Text // isPattern t = true }

/-- A pattern without wildcards. -/
def isPlain (t : Text) : Bool := !t.contains '*' && !t.contains '?'

theorem fnmatch_plain : ∀ {pattern : Text} {name : Name}, isPlain pattern = true →
    (fnmatch pattern name = true ↔ name = pattern)
  | [], name, _ => by rw [fnmatch, List.isEmpty_iff]
  | c :: pattern, name, h => by
    have hplain : c ≠ '*' ∧ c ≠ '?' ∧ isPlain pattern = true := by
      simp only [isPlain, List.contains_cons, Bool.not_or, Bool.and_eq_true, Bool.not_eq_true',
        beq_eq_false_iff_ne] at h ⊢
      exact ⟨h.1.1.symm, h.2.1.symm, h.1.2, h.2.2⟩
    cases name with
    | nil => simp [fnmatch, hplain.1, hplain.2.1]
    | cons d name =>
      rw [show fnmatch (c :: pattern) (d :: name) = (c == d && fnmatch pattern name) by
        simp [fnmatch, hplain.1, hplain.2.1], Bool.and_eq_true, beq_iff_eq, fnmatch_plain hplain.2.2,
        List.cons.injEq, @eq_comm _ c]

/-! ### The configuration of a language -/

structure LanguageConfig where
  kind : Text
  suffixes : List Text
  projectFiles : List Pattern
  excludeFiles : List Pattern

/-- `path.name`. -/
def name (p : Path) : Text := (p.parts.getLast?.map (·.1)).getD []

/-- `[path, *path.parents]`. -/
def selfAndParents (p : Path) : List Path := (ancestors p.parts).map fun parts => ⟨p.root, parts⟩

section Source

variable (fs : FileSystem) (cwd : Path)

/-- A path of the file system, of a process in the directory `cwd`. -/
def route (p : Path) : Route :=
  (if p.isAbsolute then p.parts else cwd.parts ++ p.parts).map fun x =>
    if x.1 = ['.', '.'] then .up else .down x.1

/-- `path.is_file()`. -/
def isFile (p : Path) : Bool :=
  match nodeAt (route cwd p) fs with
  | some (.file _) => true
  | _ => false

/-- `path.is_dir()`. -/
def isDir (p : Path) : Bool :=
  match nodeAt (route cwd p) fs with
  | some .dir => true
  | _ => false

/-- Is there an entry at the place whose name matches? -/
def hasEntry (l : Location Name) (pattern : Pattern) : Bool :=
  fs.tree.keys.any fun k => k.dropLast = l && k.getLast?.any (fnmatch pattern.1)

/-- `next(path.glob(pattern), None) is not None`. -/
def glob (p : Path) (pattern : Pattern) : Bool :=
  match walk fs.tree [] (route cwd p) with
  | .ok l => hasEntry fs l pattern
  | .error _ => false

namespace LanguageConfig

variable (config : LanguageConfig)

/-- `is_project_root`. -/
def isProjectRoot (path : Path) : Bool :=
  if !isDir fs cwd path then false
  else if config.excludeFiles.any (glob fs cwd path) then false
  else config.projectFiles.any (glob fs cwd path)

/-- `find_project_root` from the directory on. -/
def searchUp (path : Path) : Option Path := (selfAndParents path).find? (config.isProjectRoot fs cwd)

/-- `find_project_root`. -/
def findProjectRoot (path : Path) : Option Path :=
  if isFile fs cwd path then
    if !config.suffixes.any fun suffix => suffix.isSuffixOf (name path) then none
    else config.searchUp fs cwd path.parent
  else config.searchUp fs cwd path

end LanguageConfig

end Source

/-! ### The languages -/

/-- The client classes of `lang_clients`. -/
inductive ClientCls where
  | gopls
  | pyrefly
  | rustAnalyzer
  | typescript
  | deno
  | jdtls
  deriving DecidableEq, Repr

/-- `get_language_config`. -/
def ClientCls.getLanguageConfig : ClientCls → LanguageConfig
  | .gopls => ⟨"go".toList, [".go".toList], [⟨"go.mod".toList, by decide⟩], []⟩
  | .pyrefly => ⟨"python".toList, [".py".toList, ".pyi".toList],
      [⟨"pyproject.toml".toList, by decide⟩, ⟨"setup.py".toList, by decide⟩, ⟨"setup.cfg".toList, by decide⟩,
        ⟨"requirements.txt".toList, by decide⟩, ⟨".python-version".toList, by decide⟩], []⟩
  | .rustAnalyzer => ⟨"rust".toList, [".rs".toList], [⟨"Cargo.toml".toList, by decide⟩], []⟩
  | .typescript => ⟨"typescript".toList,
      [".ts".toList, ".tsx".toList, ".js".toList, ".jsx".toList, ".mjs".toList, ".cjs".toList],
      [⟨"package.json".toList, by decide⟩, ⟨"tsconfig.json".toList, by decide⟩,
        ⟨"jsconfig.json".toList, by decide⟩], []⟩
  | .deno => ⟨"typescript".toList,
      [".ts".toList, ".tsx".toList, ".js".toList, ".jsx".toList, ".mjs".toList],
      [⟨"deno.json".toList, by decide⟩, ⟨"deno.jsonc".toList, by decide⟩], []⟩
  | .jdtls => ⟨"java".toList, [".java".toList],
      [⟨"pom.xml".toList, by decide⟩, ⟨"build.gradle".toList, by decide⟩,
        ⟨"build.gradle.kts".toList, by decide⟩, ⟨".project".toList, by decide⟩,
        ⟨"settings.gradle".toList, by decide⟩, ⟨"settings.gradle.kts".toList, by decide⟩], []⟩

/-- `lang_clients`. -/
def langClients : List (Text × ClientCls) :=
  [("go".toList, .gopls), ("python".toList, .pyrefly), ("rust".toList, .rustAnalyzer),
    ("typescript".toList, .typescript), ("deno".toList, .deno), ("java".toList, .jdtls)]

structure ClientTarget where
  clientCls : ClientCls
  projectPath : Path
  deriving DecidableEq, Repr

/-- `find_client`. -/
def findClient (fs : FileSystem) (cwd path : Path) : Option ClientTarget :=
  (langClients.map (·.2)).findSome? fun cls =>
    (cls.getLanguageConfig.findProjectRoot fs cwd path).map fun root => ⟨cls, root⟩

/-! ### Places -/

section Places

variable {fs : FileSystem} {cwd p q r : Path} {config : LanguageConfig} {l : Location Name}

def names (parts : List Part) : Location Name := parts.map (·.1)

/-- The path has no `..`. -/
def NoDots (p : Path) : Prop := ∀ x ∈ p.parts, x.1 ≠ ['.', '.']

instance (p : Path) : Decidable (NoDots p) :=
  inferInstanceAs (Decidable (∀ x ∈ p.parts, x.1 ≠ ['.', '.']))

/-- The place that the parts of a path are followed from. -/
def base (cwd p : Path) : Location Name := if p.isAbsolute then [] else names cwd.parts

/-- Where a path without `..` leads. -/
def place (cwd p : Path) : Location Name := base cwd p ++ names p.parts

theorem route_client (c : Client) (p : Path) : c.route p = route c.cwd p := rfl

theorem route_noDots (hcwd : NoDots cwd) (hp : NoDots p) : route cwd p = (place cwd p).map .down := by
  have hdown : ∀ {parts : List Part}, (∀ x ∈ parts, x.1 ≠ ['.', '.']) →
      parts.map (fun x => if x.1 = ['.', '.'] then Step.up else Step.down x.1) =
        (names parts).map .down := by
    intro parts h
    rw [names, List.map_map]
    exact List.map_congr_left fun x hx => if_neg (h x hx)
  unfold route place base
  split_ifs
  · exact hdown hp
  · rw [hdown fun x hx => (List.mem_append.mp hx).elim (hcwd x) (hp x), names, List.map_append]
    rfl

/-- A walk down a list of names ends at this list. -/
theorem walk_down {t : Tree Name Bytes} : ∀ {l here there : Location Name},
    walk t here (l.map .down) = .ok there → there = here ++ l
  | [], here, there, h => by
    cases h
    rw [List.append_nil]
  | x :: l, here, there, h => by
    rw [List.map_cons, walk] at h
    split at h
    · rw [walk_down h]
      simp [Step.go]
    · cases h
    · cases h

/-- The directory at the place is a project root. -/
structure IsRoot (fs : FileSystem) (config : LanguageConfig) (l : Location Name) : Prop where
  isDir : nodeAt (l.map .down) fs = some .dir
  included : ∃ pattern ∈ config.projectFiles, hasEntry fs l pattern = true
  notExcluded : ∀ pattern ∈ config.excludeFiles, hasEntry fs l pattern = false

theorem isDir_iff (hcwd : NoDots cwd) (hp : NoDots p) :
    isDir fs cwd p = true ↔ nodeAt ((place cwd p).map .down) fs = some .dir := by
  unfold isDir
  rw [route_noDots hcwd hp]
  split <;> simp_all

theorem glob_eq (hcwd : NoDots cwd) (hp : NoDots p) (hdir : isDir fs cwd p = true) (pattern : Pattern) :
    glob fs cwd p pattern = hasEntry fs (place cwd p) pattern := by
  have hnode := (isDir_iff hcwd hp).mp hdir
  unfold nodeAt at hnode
  unfold glob
  rw [route_noDots hcwd hp]
  cases hwalk : walk fs.tree [] ((place cwd p).map .down) with
  | ok there =>
    rw [walk_down hwalk]
    rfl
  | error e =>
    rw [hwalk] at hnode
    cases hnode

/-- **`is_project_root`, of the place that the path leads to.** -/
theorem isProjectRoot_iff (hcwd : NoDots cwd) (hp : NoDots p) :
    config.isProjectRoot fs cwd p = true ↔ IsRoot fs config (place cwd p) := by
  unfold LanguageConfig.isProjectRoot
  cases hdir : isDir fs cwd p with
  | false =>
    refine iff_of_false nofun fun h => ?_
    rw [(isDir_iff hcwd hp).mpr h.isDir] at hdir
    cases hdir
  | true =>
    have hglob : glob fs cwd p = hasEntry fs (place cwd p) := funext (glob_eq hcwd hp hdir)
    rw [hglob]
    by_cases hexcluded : config.excludeFiles.any (hasEntry fs (place cwd p)) = true
    · simp only [hexcluded, Bool.not_true, Bool.false_eq_true, if_false, if_true, false_iff]
      intro h
      obtain ⟨pattern, hmem, hentry⟩ := List.any_eq_true.mp hexcluded
      rw [h.notExcluded pattern hmem] at hentry
      cases hentry
    · simp only [hexcluded, Bool.not_true, Bool.false_eq_true, if_false]
      rw [List.any_eq_true]
      rw [List.any_eq_true] at hexcluded
      push Not at hexcluded
      exact ⟨fun h => ⟨(isDir_iff hcwd hp).mp hdir, h, fun pattern hm => by simpa using hexcluded pattern hm⟩,
        fun h => h.included⟩

/-! ### The project of one language -/

/-- The directory of the path: of a file, that of the file. -/
def directory (fs : FileSystem) (cwd path : Path) : Path := if isFile fs cwd path then path.parent else path

/-- A file of the language, or not a file at all. -/
def Accepts (fs : FileSystem) (cwd : Path) (config : LanguageConfig) (path : Path) : Prop :=
  isFile fs cwd path = true → ∃ suffix ∈ config.suffixes, suffix <:+ name path

/-- The nearest root above the path that is not above where the path starts. -/
structure IsProject (fs : FileSystem) (cwd : Path) (config : LanguageConfig) (path root : Path) : Prop where
  accepts : Accepts fs cwd config path
  sameRoot : root.root = path.root
  above : root.parts <+: (directory fs cwd path).parts
  nearest : Nearest (fun l => base cwd path <+: l ∧ IsRoot fs config l)
    (place cwd (directory fs cwd path)) (place cwd root)

theorem directory_root : (directory fs cwd p).root = p.root := by
  unfold directory
  split_ifs <;> rfl

theorem directory_noDots (hp : NoDots p) : NoDots (directory fs cwd p) := by
  unfold directory
  split_ifs
  · exact fun x hx => hp x (List.dropLast_subset _ hx)
  · exact hp

theorem base_congr (h : q.root = p.root) : base cwd q = base cwd p := by
  unfold base Path.isAbsolute
  rw [h]

theorem names_prefix_iff {a b : List Part} : names a <+: names b ↔ a <+: b :=
  List.prefix_map_iff_of_injective Subtype.val_injective

/-- A place above the place of a path is that of a beginning of its parts. -/
theorem place_above (h : base cwd q <+: l) (hl : l <+: place cwd q) :
    ∃ parts, parts <+: q.parts ∧ l = place cwd ⟨q.root, parts⟩ := by
  obtain ⟨t, rfl⟩ := h
  have ht : t <+: names q.parts := (List.prefix_append_right_inj _).mp hl
  rw [List.prefix_iff_eq_take, names, ← List.map_take] at ht
  exact ⟨q.parts.take t.length, List.take_prefix _ _, congrArg (base cwd q ++ ·) ht⟩

theorem searchUp_iff (hcwd : NoDots cwd) (hq : NoDots q) : config.searchUp fs cwd q = some r ↔
    r.root = q.root ∧ r.parts <+: q.parts ∧
      Nearest (fun l => base cwd q <+: l ∧ IsRoot fs config l) (place cwd q) (place cwd r) := by
  -- a beginning of the parts, and its place
  have hplace : ∀ parts, place cwd ⟨q.root, parts⟩ = base cwd q ++ names parts := fun _ => rfl
  have hroot : ∀ {parts}, parts <+: q.parts → (config.isProjectRoot fs cwd ⟨q.root, parts⟩ = true ↔
      IsRoot fs config (place cwd ⟨q.root, parts⟩)) := fun h =>
    isProjectRoot_iff hcwd fun x hx => hq x (h.subset hx)
  have hsearch : config.searchUp fs cwd q = some r ↔ r.root = q.root ∧
      Nearest (fun parts => config.isProjectRoot fs cwd ⟨q.root, parts⟩ = true) q.parts r.parts := by
    rw [LanguageConfig.searchUp, selfAndParents, List.find?_map, Option.map_eq_some_iff]
    constructor
    · rintro ⟨parts, hfind, rfl⟩
      exact ⟨rfl, find?_ancestors.mp hfind⟩
    · rintro ⟨hr, hnearest⟩
      exact ⟨r.parts, find?_ancestors.mpr hnearest, by rw [← hr]⟩
  rw [hsearch]
  refine and_congr_right fun hr => ?_
  have hself : place cwd r = place cwd ⟨q.root, r.parts⟩ := by rw [← hr]
  rw [hself]
  constructor
  · intro h
    refine ⟨h.above, ?_, ⟨List.prefix_append _ _, (hroot h.above).mp h.holds⟩, ?_⟩
    · exact (List.prefix_append_right_inj _).mpr (names_prefix_iff.mpr h.above)
    · rintro b hb ⟨hbase, hisRoot⟩
      obtain ⟨parts, hparts, rfl⟩ := place_above hbase hb
      exact (List.prefix_append_right_inj _).mpr
        (names_prefix_iff.mpr (h.nearest parts hparts ((hroot hparts).mpr hisRoot)))
  · rintro ⟨habove, h⟩
    refine ⟨habove, (hroot habove).mpr h.holds.2, fun parts hparts hisRoot => ?_⟩
    refine names_prefix_iff.mp ((List.prefix_append_right_inj (base cwd q)).mp (h.nearest _ ?_
      ⟨List.prefix_append _ _, (hroot hparts).mp hisRoot⟩))
    exact (List.prefix_append_right_inj _).mpr (names_prefix_iff.mpr hparts)

theorem findProjectRoot_eq (haccepts : Accepts fs cwd config p) :
    config.findProjectRoot fs cwd p = config.searchUp fs cwd (directory fs cwd p) := by
  unfold LanguageConfig.findProjectRoot directory
  by_cases hfile : isFile fs cwd p = true
  · have hsuffix : (config.suffixes.any fun suffix => suffix.isSuffixOf (name p)) = true := by
      simpa [List.any_eq_true] using haccepts hfile
    rw [if_pos hfile, if_pos hfile, hsuffix]
    rfl
  · rw [if_neg hfile, if_neg hfile]

theorem findProjectRoot_refused (haccepts : ¬ Accepts fs cwd config p) :
    config.findProjectRoot fs cwd p = none := by
  unfold Accepts at haccepts
  push Not at haccepts
  have hsuffix : (config.suffixes.any fun suffix => suffix.isSuffixOf (name p)) = false := by
    simpa [List.any_eq_false] using haccepts.2
  rw [LanguageConfig.findProjectRoot, if_pos haccepts.1, hsuffix]
  rfl

/-- **`find_project_root` finds the nearest root along the path.** -/
theorem findProjectRoot_iff (hcwd : NoDots cwd) (hp : NoDots p) :
    config.findProjectRoot fs cwd p = some r ↔ IsProject fs cwd config p r := by
  by_cases haccepts : Accepts fs cwd config p
  · rw [findProjectRoot_eq haccepts, searchUp_iff hcwd (directory_noDots hp), directory_root,
      base_congr directory_root]
    exact ⟨fun h => ⟨haccepts, h.1, h.2.1, h.2.2⟩, fun h => ⟨h.sameRoot, h.above, h.nearest⟩⟩
  · rw [findProjectRoot_refused haccepts]
    exact iff_of_false nofun fun h => haccepts h.accepts

/-- A place where `find_project_root` looks for a root. -/
def Searched (fs : FileSystem) (cwd path : Path) (l : Location Name) : Prop :=
  base cwd path <+: l ∧ l <+: place cwd (directory fs cwd path)

theorem findProjectRoot_none (hcwd : NoDots cwd) (hp : NoDots p) (haccepts : Accepts fs cwd config p) :
    config.findProjectRoot fs cwd p = none ↔ ∀ l, Searched fs cwd p l → ¬ IsRoot fs config l := by
  rw [findProjectRoot_eq haccepts, LanguageConfig.searchUp, selfAndParents, List.find?_map,
    Option.map_eq_none_iff, find?_ancestors_none]
  have hroot : ∀ {parts}, parts <+: (directory fs cwd p).parts →
      (config.isProjectRoot fs cwd ⟨(directory fs cwd p).root, parts⟩ = true ↔
        IsRoot fs config (place cwd ⟨(directory fs cwd p).root, parts⟩)) := fun h =>
    isProjectRoot_iff hcwd fun x hx => directory_noDots hp x (h.subset hx)
  constructor
  · rintro hno l ⟨hbase, habove⟩ hl
    obtain ⟨parts, hparts, rfl⟩ := place_above (by rwa [base_congr directory_root]) habove
    have hfalse := hno parts hparts
    rw [Function.comp, (hroot hparts).mpr hl] at hfalse
    cases hfalse
  · intro hno parts hparts
    by_contra htrue
    have hbase : base cwd (directory fs cwd p) = base cwd p := base_congr directory_root
    refine hno _ ⟨?_, ?_⟩ ((hroot hparts).mp (by simpa using htrue))
    · rw [← hbase]
      exact List.prefix_append _ _
    · exact (List.prefix_append_right_inj _).mpr (names_prefix_iff.mpr hparts)

/-- **The nearest root above a path is found unless it is above the directory that
the path starts from.** -/
theorem nearest_root_iff (hcwd : NoDots cwd) (hp : NoDots p) (haccepts : Accepts fs cwd config p) :
    (∀ l, Nearest (IsRoot fs config) (place cwd (directory fs cwd p)) l ↔
      ∃ r, config.findProjectRoot fs cwd p = some r ∧ place cwd r = l) ↔
      p.isAbsolute = true ∨
        ∀ l, Nearest (IsRoot fs config) (place cwd (directory fs cwd p)) l → names cwd.parts <+: l := by
  have hbase : (p.isAbsolute = true ∨ ∀ l, Nearest (IsRoot fs config) (place cwd (directory fs cwd p)) l →
      names cwd.parts <+: l) ↔
        ∀ l, Nearest (IsRoot fs config) (place cwd (directory fs cwd p)) l → base cwd p <+: l := by
    unfold base
    cases p.isAbsolute with
    | true => simp
    | false => simp
  rw [hbase]
  constructor
  · intro hfinds l hl
    obtain ⟨r, hr, rfl⟩ := (hfinds l).mp hl
    exact ((findProjectRoot_iff hcwd hp).mp hr).nearest.holds.1
  · intro hstarts l
    constructor
    · intro hl
      obtain ⟨parts, hparts, rfl⟩ := place_above
        (by rw [base_congr directory_root]; exact hstarts l hl) hl.above
      refine ⟨⟨(directory fs cwd p).root, parts⟩, (findProjectRoot_iff hcwd hp).mpr ?_, rfl⟩
      exact ⟨haccepts, directory_root, hparts, hl.above, ⟨hstarts _ hl, hl.holds⟩,
        fun b hb hP => hl.nearest b hb hP.2⟩
    · rintro ⟨r, hr, rfl⟩
      obtain ⟨habove, ⟨hstart, hisRoot⟩, hnearest⟩ := ((findProjectRoot_iff hcwd hp).mp hr).nearest
      refine ⟨habove, hisRoot, fun b hb hb' => ?_⟩
      -- two places above one place are in line
      obtain hle | hle := List.prefix_or_prefix_of_prefix hb habove
      · exact hle
      · exact hnearest b hb ⟨hstart.trans hle, hb'⟩

/-! ### The client of a path -/

/-! ### Paths with `..` -/

/-- The way to the parent. -/
def isUp (x : Name) : Bool := x = ['.', '.']

/-- A component of a path, as a step. -/
def step (x : Name) : Step Name := if x = ['.', '.'] then .up else .down x

theorem route_eq (p : Path) :
    route cwd p = (names (if p.isAbsolute then p.parts else cwd.parts ++ p.parts)).map step := by
  rw [route, names, List.map_map]
  rfl

/-- A walk that comes to its end follows the text of the path. -/
theorem walk_resolve {t : Tree Name Bytes} : ∀ {path here there : Location Name},
    walk t here (path.map step) = .ok there → there = Lexical.resolveFrom isUp here path
  | [], here, there, h => by
    cases h
    rfl
  | x :: path, here, there, h => by
    rw [List.map_cons, walk] at h
    split at h
    · rw [walk_resolve h, Lexical.resolveFrom, step, isUp]
      by_cases hx : x = ['.', '.']
      · simp [hx, Step.go]
      · simp [hx, Step.go]
    · cases h
    · cases h

/-- What a walk has come through. -/
theorem walk_append {t : Tree Name Bytes} : ∀ {before after here there : Location Name},
    walk t here ((before ++ after).map step) = .ok there → ∃ l, walk t here (before.map step) = .ok l
  | [], _, here, _, _ => ⟨here, rfl⟩
  | x :: before, _, here, _, h => by
    rw [List.cons_append, List.map_cons, walk] at h
    rw [List.map_cons, walk]
    split at h
    · exact walk_append h
    · cases h
    · cases h

theorem isProjectRoot_congr (h : walk fs.tree [] (route cwd q) = walk fs.tree [] (route cwd r)) :
    config.isProjectRoot fs cwd q = config.isProjectRoot fs cwd r := by
  have hdir : isDir fs cwd q = isDir fs cwd r := by
    unfold isDir nodeAt
    rw [h]
  have hglob : glob fs cwd q = glob fs cwd r := by
    unfold glob
    rw [h]
  unfold LanguageConfig.isProjectRoot
  rw [hdir, hglob]

theorem isDir_of_isProjectRoot (h : config.isProjectRoot fs cwd p = true) : isDir fs cwd p = true := by
  unfold LanguageConfig.isProjectRoot at h
  split_ifs at h with hdir
  simpa using hdir

theorem walk_of_isDir (h : isDir fs cwd p = true) : ∃ l, walk fs.tree [] (route cwd p) = .ok l := by
  unfold isDir nodeAt at h
  cases hl : walk fs.tree [] (route cwd p) with
  | ok l => exact ⟨l, rfl⟩
  | error e =>
    rw [hl] at h
    cases h

/-- The way to the paths that begin with these parts. -/
theorem route_append (cwd : Path) (root : Root) (parts : List Part) : ∃ before : List Name,
    ∀ rest, route cwd ⟨root, parts ++ rest⟩ = (before ++ names rest).map step := by
  refine ⟨names (if Path.isAbsolute ⟨root, parts⟩ then parts else cwd.parts ++ parts), fun rest => ?_⟩
  rw [route_eq]
  show (names (if Path.isAbsolute ⟨root, parts⟩ then _ else _)).map step = _
  unfold names
  rw [← List.map_append]
  split_ifs
  · rfl
  · rw [List.append_assoc]

/-- The root that is found is a directory, and of the paths along the way the
longest that leads to its place. -/
theorem found_longest (hfound : config.findProjectRoot fs cwd p = some r) :
    ∃ l, walk fs.tree [] (route cwd r) = .ok l ∧ r.root = (directory fs cwd p).root ∧
      r.parts <+: (directory fs cwd p).parts ∧ ∀ parts, parts <+: (directory fs cwd p).parts →
        walk fs.tree [] (route cwd ⟨(directory fs cwd p).root, parts⟩) = .ok l →
          parts <+: r.parts := by
  have haccepts : Accepts fs cwd config p := by
    by_contra hrefused
    rw [findProjectRoot_refused hrefused] at hfound
    cases hfound
  rw [findProjectRoot_eq haccepts, LanguageConfig.searchUp, selfAndParents, List.find?_map,
    Option.map_eq_some_iff] at hfound
  obtain ⟨parts, hfind, rfl⟩ := hfound
  obtain ⟨habove, hroot, hnearest⟩ := find?_ancestors.mp hfind
  obtain ⟨l, hl⟩ := walk_of_isDir (isDir_of_isProjectRoot hroot)
  refine ⟨l, hl, rfl, habove, fun parts' habove' hl' => hnearest parts' habove' ?_⟩
  exact (isProjectRoot_congr (hl'.trans hl.symm)).trans hroot

/-- **A root that is found holds the path exactly if the rest of the path never
climbs out of it.** A rest that came back to the root would be a longer way to it. -/
theorem root_holds_iff {d : Location Name} (hfound : config.findProjectRoot fs cwd p = some r)
    (hd : walk fs.tree [] (route cwd (directory fs cwd p)) = .ok d) :
    ∃ l rest, walk fs.tree [] (route cwd r) = .ok l ∧ (directory fs cwd p).parts = r.parts ++ rest ∧
      (l <+: d ↔ (Lexical.climb isUp (names rest)).up = 0) := by
  obtain ⟨l, hl, hroot, ⟨rest, hrest⟩, hlongest⟩ := found_longest hfound
  obtain ⟨root, parts⟩ := r
  obtain rfl : root = _ := hroot
  obtain ⟨before, hroute⟩ := route_append cwd (directory fs cwd p).root parts
  have hway : walk fs.tree [] (before.map step) = .ok l := by
    have hnil := hroute []
    rw [names, List.map_nil, List.append_nil, List.append_nil] at hnil
    rw [← hnil]
    exact hl
  have hwhole : walk fs.tree [] ((before ++ names rest).map step) = .ok d := by
    rw [← hroute, hrest]
    exact hd
  have hleads {rest : List Name} {m : Location Name}
      (h : walk fs.tree [] ((before ++ rest).map step) = .ok m) :
      m = Lexical.resolveFrom isUp l rest := by
    rw [walk_resolve h, Lexical.resolveFrom_append, ← walk_resolve hway]
  refine ⟨l, rest, hl, hrest.symm, ?_⟩
  rw [hleads hwhole]
  constructor
  · intro hholds
    by_contra hup
    obtain ⟨back, hne, hle, hreturn⟩ := Lexical.exists_return hup hholds
    obtain ⟨n, rfl⟩ : ∃ n, back = names (rest.take n) :=
      ⟨back.length, by rw [names, List.map_take]; exact List.prefix_iff_eq_take.mp hle⟩
    -- the path up to the return leads to the root as well
    have hback : walk fs.tree [] (route cwd ⟨(directory fs cwd p).root, parts ++ rest.take n⟩) =
        .ok l := by
      have hsplit : names rest = names (rest.take n) ++ names (rest.drop n) := by
        rw [names, names, names, ← List.map_append, List.take_append_drop]
      rw [hsplit, ← List.append_assoc] at hwhole
      obtain ⟨m, hm⟩ := walk_append hwhole
      rw [hroute, hm, hleads hm, hreturn]
    have hlonger := hlongest (parts ++ rest.take n)
      (hrest ▸ (List.prefix_append_right_inj _).mpr (List.take_prefix _ _)) hback
    have hlen : (parts ++ rest.take n).length ≤ parts.length := hlonger.length_le
    rw [List.length_append] at hlen
    have htake : rest.take n = [] := List.eq_nil_of_length_eq_zero (by omega)
    exact hne (by rw [htake]; rfl)
  · intro hup
    rw [Lexical.prefix_resolveFrom]
    exact Lexical.Climb.reaches_self hup l

/-- A pattern without wildcards asks for the entry of its name. -/
theorem hasEntry_plain {pattern : Pattern} (h : isPlain pattern.1 = true) :
    hasEntry fs l pattern = true ↔ l ++ [pattern.1] ∈ fs.tree.keys := by
  simp only [hasEntry, List.any_eq_true, Bool.and_eq_true, decide_eq_true_eq, Option.any_eq_true,
    fnmatch_plain h]
  constructor
  · rintro ⟨k, hk, rfl, _, hlast, rfl⟩
    rwa [List.dropLast_append_getLast? _ hlast]
  · exact fun hk => ⟨_, hk, List.dropLast_concat, _, List.getLast?_concat, rfl⟩

/-- **The project roots of a language** are the directories with one of its files. -/
theorem isRoot_language {cls : ClientCls} : IsRoot fs cls.getLanguageConfig l ↔
    nodeAt (l.map .down) fs = some .dir ∧
      ∃ file ∈ cls.getLanguageConfig.projectFiles, l ++ [file.1] ∈ fs.tree.keys := by
  have hplain : ∀ file ∈ cls.getLanguageConfig.projectFiles, isPlain file.1 = true := by
    cases cls <;> decide
  have hexclude : cls.getLanguageConfig.excludeFiles = [] := by cases cls <;> rfl
  constructor
  · rintro ⟨hdir, ⟨file, hfile, hentry⟩, -⟩
    exact ⟨hdir, file, hfile, (hasEntry_plain (hplain file hfile)).mp hentry⟩
  · rintro ⟨hdir, file, hfile, hentry⟩
    refine ⟨hdir, ⟨file, hfile, (hasEntry_plain (hplain file hfile)).mpr hentry⟩, fun pattern hp => ?_⟩
    rw [hexclude] at hp
    cases hp

/-! ### The client of a path -/

/-- The languages that are asked before this one. -/
def before (cls : ClientCls) : List ClientCls := (langClients.map (·.2)).takeWhile (· ≠ cls)

/-- The languages that shut this one out if they have a root. -/
def rivals (fs : FileSystem) (cwd path : Path) (cls : ClientCls) : List ClientCls :=
  if isFile fs cwd path then (if cls = .deno then [.typescript] else []) else before cls

/-- What is before the first of an item in a list. -/
theorem takeWhile_ne_append {α : Type} [DecidableEq α] {l₁ l₂ : List α} {a : α} (ha : a ∉ l₁) :
    (l₁ ++ a :: l₂).takeWhile (· ≠ a) = l₁ := by
  rw [List.takeWhile_append_of_pos fun x hx => by simpa using fun h : x = a => ha (h ▸ hx)]
  simp

/-- Only TypeScript and Deno share suffixes. -/
theorem suffixes_apart : ∀ cls ∈ langClients.map (·.2), ∀ x ∈ before cls,
    (∃ s ∈ x.getLanguageConfig.suffixes, ∃ s' ∈ cls.getLanguageConfig.suffixes, s <:+ s' ∨ s' <:+ s) →
      x = .typescript ∧ cls = .deno := by decide +kernel

theorem langClients_split (cls : ClientCls) :
    ∃ after, langClients.map (·.2) = before cls ++ cls :: after := by
  cases cls <;> exact ⟨_, rfl⟩

/-- The first language with a root gets the path. -/
theorem findClient_iff {cls : ClientCls} : findClient fs cwd p = some ⟨cls, r⟩ ↔
    cls.getLanguageConfig.findProjectRoot fs cwd p = some r ∧
      ∀ x ∈ before cls, x.getLanguageConfig.findProjectRoot fs cwd p = none := by
  unfold findClient
  rw [List.findSome?_eq_some_iff]
  simp only [Option.map_eq_some_iff, Option.map_eq_none_iff, ClientTarget.mk.injEq]
  constructor
  · rintro ⟨l₁, _, l₂, hl, ⟨root, hroot, rfl, rfl⟩, hbefore⟩
    have hfirst : ∀ {a}, a.getLanguageConfig.findProjectRoot fs cwd p = some root → a ∉ l₁ :=
      fun ha hm => nomatch ha.symm.trans (hbefore _ hm)
    rw [before, hl, takeWhile_ne_append (hfirst hroot)]
    exact ⟨hroot, hbefore⟩
  · rintro ⟨hroot, hbefore⟩
    obtain ⟨after, hl⟩ := langClients_split cls
    exact ⟨before cls, cls, after, hl, ⟨r, hroot, rfl, rfl⟩, hbefore⟩

theorem directory_accepts (hdir : isFile fs cwd p = false) : Accepts fs cwd config p :=
  fun hfile => nomatch hdir.symm.trans hfile

/-- A file of Deno is one of TypeScript. -/
theorem deno_accepts (h : Accepts fs cwd ClientCls.deno.getLanguageConfig p) :
    Accepts fs cwd ClientCls.typescript.getLanguageConfig p := by
  intro hfile
  obtain ⟨suffix, hmem, hsuffix⟩ := h hfile
  have hsub : ClientCls.deno.getLanguageConfig.suffixes ⊆ ClientCls.typescript.getLanguageConfig.suffixes := by
    decide
  exact ⟨suffix, hsub hmem, hsuffix⟩

/-- **The client of a path.** It is that of a language with a root along the path
of which the nearest one is taken, and of a file that the language accepts; no
rival has a root along the path. The only rival for a file is TypeScript, of
Deno; for a directory every language asked before is one. -/
theorem find_client_iff (hcwd : NoDots cwd) (hp : NoDots p) {cls : ClientCls} :
    findClient fs cwd p = some ⟨cls, r⟩ ↔ IsProject fs cwd cls.getLanguageConfig p r ∧
      ∀ x ∈ rivals fs cwd p cls, ∀ l, Searched fs cwd p l → ¬ IsRoot fs x.getLanguageConfig l := by
  rw [findClient_iff, findProjectRoot_iff hcwd hp]
  refine and_congr_right fun hproject => ?_
  have hnone : ∀ x : ClientCls, Accepts fs cwd x.getLanguageConfig p →
      (x.getLanguageConfig.findProjectRoot fs cwd p = none ↔
        ∀ l, Searched fs cwd p l → ¬ IsRoot fs x.getLanguageConfig l) :=
    fun x => findProjectRoot_none hcwd hp
  unfold rivals
  cases hfile : isFile fs cwd p with
  | false =>
    exact forall₂_congr fun x _ => hnone x (directory_accepts hfile)
  | true =>
    -- a language that is asked before either refuses the file, or is TypeScript and this is Deno
    have hbefore : ∀ x ∈ before cls, Accepts fs cwd x.getLanguageConfig p → x = .typescript ∧ cls = .deno := by
      intro x hx haccepts
      obtain ⟨s, hs, hsuffix⟩ := haccepts hfile
      obtain ⟨s', hs', hsuffix'⟩ := hproject.accepts hfile
      have hcls : cls ∈ langClients.map (·.2) := by cases cls <;> decide
      exact suffixes_apart cls hcls x hx ⟨s, hs, s', hs', List.suffix_or_suffix_of_suffix hsuffix hsuffix'⟩
    by_cases hdeno : cls = .deno
    · subst hdeno
      simp only [if_true, List.mem_singleton, forall_eq]
      rw [← hnone .typescript (deno_accepts hproject.accepts)]
      refine ⟨fun h => h _ (by decide), fun h x hx => ?_⟩
      by_cases haccepts : Accepts fs cwd x.getLanguageConfig p
      · rw [(hbefore x hx haccepts).1]
        exact h
      · exact findProjectRoot_refused haccepts
    · simp only [hdeno, if_true, if_false, List.not_mem_nil, false_imp_iff, implies_true, iff_true]
      exact fun x hx => findProjectRoot_refused fun haccepts => hdeno (hbefore x hx haccepts).2

end Places

/-! ### A small tree -/

/-- `/ws` with a `go.mod` and a Python project in `/ws/py`, whose sources are in
`/ws/py/src`. -/
def small : FileSystem where
  tree := [⟨[], .dir⟩, ⟨["ws".toList], .dir⟩, ⟨["ws".toList, "go.mod".toList], .file []⟩,
    ⟨["ws".toList, "py".toList], .dir⟩, ⟨["ws".toList, "py".toList, "pyproject.toml".toList], .file []⟩,
    ⟨["ws".toList, "py".toList, "src".toList], .dir⟩,
    ⟨["ws".toList, "py".toList, "src".toList, "main.py".toList], .file []⟩].toAList
  deny _ _ := false
  torn _ _ b := b
  survivors _ _ _ := false

/-- **The project of `main.py`, in the directory of `main.py`.** It is found from
the absolute path alone. -/
theorem nearest_root_relative :
    ClientCls.pyrefly.getLanguageConfig.findProjectRoot small (Path.ofText "/ws/py/src".toList)
      (Path.ofText "/ws/py/src/main.py".toList) = some (Path.ofText "/ws/py".toList) ∧
    ¬ ∀ l, Nearest (IsRoot small ClientCls.pyrefly.getLanguageConfig)
        (place (Path.ofText "/ws/py/src".toList)
          (directory small (Path.ofText "/ws/py/src".toList) (Path.ofText "main.py".toList))) l ↔
      ∃ r, ClientCls.pyrefly.getLanguageConfig.findProjectRoot small (Path.ofText "/ws/py/src".toList)
        (Path.ofText "main.py".toList) = some r ∧ place (Path.ofText "/ws/py/src".toList) r = l := by
  have hcwd : NoDots (Path.ofText "/ws/py/src".toList) := by decide
  have habsolute : ClientCls.pyrefly.getLanguageConfig.findProjectRoot small
      (Path.ofText "/ws/py/src".toList) (Path.ofText "/ws/py/src/main.py".toList) =
        some (Path.ofText "/ws/py".toList) := by decide +kernel
  refine ⟨habsolute, fun hfinds => ?_⟩
  obtain hrelative | hbelow := (nearest_root_iff hcwd (by decide)
    fun _ => ⟨".py".toList, by decide, by decide⟩).mp hfinds
  · cases hrelative
  · -- the two paths are of one place, which the project is above of
    have hnearest := ((findProjectRoot_iff hcwd (by decide)).mp habsolute).nearest
    have hplace : place (Path.ofText "/ws/py/src".toList)
        (directory small (Path.ofText "/ws/py/src".toList) (Path.ofText "main.py".toList)) =
        place (Path.ofText "/ws/py/src".toList)
          (directory small (Path.ofText "/ws/py/src".toList) (Path.ofText "/ws/py/src/main.py".toList)) := by
      decide +kernel
    rw [hplace] at hbelow
    have hle := hbelow _ ⟨hnearest.above, hnearest.holds.2, fun b hb hroot =>
      hnearest.nearest b hb ⟨List.nil_prefix, hroot⟩⟩
    exact absurd hle (by decide)

/-- **A root that does not hold the path.** The text of `/ws/py/..` leads through a
project that the directory is not in. -/
theorem root_holds_beside : ∃ l d,
    ClientCls.pyrefly.getLanguageConfig.findProjectRoot small (Path.ofText "/".toList)
      (Path.ofText "/ws/py/..".toList) = some (Path.ofText "/ws/py".toList) ∧
    walk small.tree [] (route (Path.ofText "/".toList) (Path.ofText "/ws/py".toList)) = .ok l ∧
    walk small.tree [] (route (Path.ofText "/".toList) (Path.ofText "/ws/py/..".toList)) = .ok d ∧
      ¬ l <+: d := by
  have hfound : ClientCls.pyrefly.getLanguageConfig.findProjectRoot small (Path.ofText "/".toList)
      (Path.ofText "/ws/py/..".toList) = some (Path.ofText "/ws/py".toList) := by decide +kernel
  have hd : walk small.tree [] (route (Path.ofText "/".toList) (directory small (Path.ofText "/".toList)
      (Path.ofText "/ws/py/..".toList))) = .ok ["ws".toList] := by decide +kernel
  obtain ⟨l, rest, hl, hrest, hholds⟩ := root_holds_iff hfound hd
  have hwhole : (directory small (Path.ofText "/".toList) (Path.ofText "/ws/py/..".toList)).parts =
      (Path.ofText "/ws/py".toList).parts ++ (Path.ofText "..".toList).parts := by decide +kernel
  obtain rfl := List.append_cancel_left (hrest.symm.trans hwhole)
  have hplace : walk small.tree [] (route (Path.ofText "/".toList) (Path.ofText "/ws/py".toList)) =
      .ok ["ws".toList, "py".toList] := by decide +kernel
  obtain rfl := Except.ok.inj (hl.symm.trans hplace)
  exact ⟨_, ["ws".toList], hfound, hl, by decide +kernel,
    fun hle => absurd (hholds.mp hle) (by decide)⟩

/-- **A Python project inside a Go project** gets the Go client, unless it is
asked for through one of its files. -/
theorem find_client_nested :
    findClient small (Path.ofText "/".toList) (Path.ofText "/ws/py/src/main.py".toList) =
      some ⟨.pyrefly, Path.ofText "/ws/py".toList⟩ ∧
    IsProject small (Path.ofText "/".toList) ClientCls.pyrefly.getLanguageConfig
      (Path.ofText "/ws/py".toList) (Path.ofText "/ws/py".toList) ∧
    IsProject small (Path.ofText "/".toList) ClientCls.gopls.getLanguageConfig
      (Path.ofText "/ws/py".toList) (Path.ofText "/ws".toList) := by
  have hfile : findClient small (Path.ofText "/".toList) (Path.ofText "/ws/py/src/main.py".toList) =
      some ⟨.pyrefly, Path.ofText "/ws/py".toList⟩ := by decide +kernel
  have hdirectory : findClient small (Path.ofText "/".toList) (Path.ofText "/ws/py".toList) =
      some ⟨.gopls, Path.ofText "/ws".toList⟩ := by decide +kernel
  have hpython : ClientCls.pyrefly.getLanguageConfig.findProjectRoot small (Path.ofText "/".toList)
      (Path.ofText "/ws/py".toList) = some (Path.ofText "/ws/py".toList) := by decide +kernel
  exact ⟨hfile, (findProjectRoot_iff (by decide) (by decide)).mp hpython,
    ((find_client_iff (by decide) (by decide)).mp hdirectory).1⟩

end Projects
end LspClient
