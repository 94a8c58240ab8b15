/-
# The workspace, and the paths in it

`format_workspace` makes a `Workspace` of one directory or of a mapping of
folder names to directories. `from_uri` takes the URI of a path in one of the
folders to a path relative to the workspace, and `as_uri` takes that back to
the URI, unless the workspace is a mapping of one folder: `from_uri` puts the
name of the folder in front, but `as_uri` looks for a folder `__root__`
(`as_uri_from_uri`).

`as_uri` compares paths as they are given, and joins relative ones to a folder
without a look at them. Whether the path of the URI lies in a folder depends on
where its `..` lead (`as_uri_stays_inside`).

Key definitions: `formatWorkspace`, `Exact`, `StartsIn`, `InFolder`.
Key theorems: `as_uri_from_uri`, `as_uri_stays_inside`.
-/
import LspClient.Lib.Lexical
import LspClient.Uri

namespace LspClient

open Percent

/-! ### `format_workspace` -/

/-- `RawWorkspace`. -/
inductive RawWorkspace where
  | path (rootFolderPath : Path)
  | workspace (ws : Workspace)
  | mapping (m : AList fun _ : Text => Path)

/-- `format_workspace`. `resolve` is `Path.resolve`. -/
def formatWorkspace (resolve : Path → Path) : RawWorkspace → Except UriError Workspace
  | .path rootFolderPath => do
    let uri ← (resolve rootFolderPath).asUri
    return [⟨workspaceRootDir, ⟨uri, "root".toList⟩⟩].toAList
  | .workspace ws => return ws
  | .mapping m => do
    let folders ← m.entries.mapM fun e => do
      let uri ← (resolve e.2).asUri
      return (⟨e.1, ⟨uri, e.1⟩⟩ : Σ _ : Text, WorkspaceFolder)
    return folders.toAList

/-- The names and directories a workspace is built from. -/
def RawWorkspace.folders : RawWorkspace → List (Σ _ : Text, Path)
  | .path rootFolderPath => [⟨workspaceRootDir, rootFolderPath⟩]
  | .workspace _ => []
  | .mapping m => m.entries

theorem dedupKeys_eq_self {β : Text → Type*} : ∀ {l : List (Sigma β)}, l.NodupKeys → l.dedupKeys = l
  | [], _ => rfl
  | e :: l, h => by
    rw [List.nodupKeys_cons] at h
    rw [List.dedupKeys_cons, dedupKeys_eq_self h.2, List.kinsert_def, List.kerase_of_notMem_keys h.1]

theorem bind_ok {α β : Type} {x : Except UriError α} {f : α → Except UriError β} {b : β}
    (h : (x >>= f) = .ok b) : ∃ a, x = .ok a ∧ f a = .ok b := by
  cases x with
  | ok a => exact ⟨a, rfl, h⟩
  | error e => cases h

theorem mapM_ok {α β : Type} {f : α → Except UriError β} : ∀ {as : List α} {bs : List β},
    as.mapM f = .ok bs → List.Forall₂ (fun a b => f a = .ok b) as bs
  | [], _, h => by
    cases h
    exact List.Forall₂.nil
  | a :: as, _, h => by
    rw [List.mapM_cons] at h
    obtain ⟨b, hb, h⟩ := bind_ok h
    obtain ⟨bs, hbs, h⟩ := bind_ok h
    cases h
    exact List.Forall₂.cons hb (mapM_ok hbs)

theorem forall₂_mem {α β : Type*} {R : α → β → Prop} {as : List α} {bs : List β} {a : α}
    (h : List.Forall₂ R as bs) (ha : a ∈ as) : ∃ b ∈ bs, R a b := by
  induction h with
  | nil => cases ha
  | cons hab _ ih =>
    rcases List.mem_cons.mp ha with rfl | ha
    · exact ⟨_, List.mem_cons_self, hab⟩
    · obtain ⟨b, hb, hr⟩ := ih ha
      exact ⟨b, List.mem_cons_of_mem _ hb, hr⟩

/-- Each folder of a workspace is one it was built from, under its name, with the URI of its directory. -/
abbrev Builds (resolve : Path → Path) (d : Σ _ : Text, Path) (e : Σ _ : Text, WorkspaceFolder) : Prop :=
  e.1 = d.1 ∧ (resolve d.2).asUri = .ok e.2.uri

section Format

variable {resolve : Path → Path}

theorem keys_builds {ds : List (Σ _ : Text, Path)} {es : List (Σ _ : Text, WorkspaceFolder)}
    (h : List.Forall₂ (Builds resolve) ds es) : ds.keys = es.keys := by
  induction h with
  | nil => rfl
  | cons hd _ ih => rw [List.keys_cons, List.keys_cons, hd.1, ih]

theorem formatWorkspace_builds {raw : RawWorkspace} {ws : Workspace}
    (h : formatWorkspace resolve raw = .ok ws) (hraw : ∀ built, raw ≠ .workspace built) :
    List.Forall₂ (Builds resolve) raw.folders ws.entries := by
  cases raw with
  | path p =>
    obtain ⟨u, hu, h⟩ := bind_ok h
    cases h
    exact List.Forall₂.cons ⟨rfl, hu⟩ List.Forall₂.nil
  | workspace built => exact absurd rfl (hraw built)
  | mapping m =>
    obtain ⟨es, hes, h⟩ := bind_ok h
    cases h
    have hbuilds : List.Forall₂ (Builds resolve) m.entries es := by
      refine (mapM_ok hes).imp fun d e he => ?_
      obtain ⟨u, hu, he⟩ := bind_ok he
      cases he
      exact ⟨rfl, hu⟩
    have hkeys : es.NodupKeys := by
      rw [List.NodupKeys, ← keys_builds hbuilds]
      exact m.nodupKeys
    show List.Forall₂ _ m.entries es.dedupKeys
    rw [dedupKeys_eq_self hkeys]
    exact hbuilds

end Format

/-! ### Relative paths -/

namespace Path

theorem isRelativeTo_iff {p q : Path} :
    p.isRelativeTo q = true ↔ p.root = q.root ∧ q.parts <+: p.parts := by
  rw [isRelativeTo, Bool.and_eq_true, decide_eq_true_eq, List.isPrefixOf_iff_prefix]

theorem join_relative (p : Path) (parts : List Part) :
    p.join ⟨.none, parts⟩ = ⟨p.root, p.parts ++ parts⟩ := rfl

theorem join_relativeTo {p q : Path} (h : p.isRelativeTo q = true) : q.join (p.relativeTo q) = p := by
  obtain ⟨hroot, hparts⟩ := isRelativeTo_iff.mp h
  rw [relativeTo, join_relative, List.prefix_iff_eq_append.mp hparts, ← hroot]

theorem ofText_name {name : Text} (h : isPart name = true) : ofText name = ⟨.none, [⟨name, h⟩]⟩ := by
  have hread := ofText_toText ⟨.none, [⟨name, h⟩]⟩
  rwa [toText, if_neg fun hnil => List.cons_ne_nil _ _ hnil.2, List.map_singleton,
    List.intercalate_singleton] at hread

end Path

section RoundTrip

variable {netlocError : Text → Option Text} {ws : Workspace} {p : Path}

/-- The folder has the name of a path component, and a directory. -/
abbrev Located (netlocError : Text → Option Text) (e : Σ _ : Text, WorkspaceFolder) : Prop :=
  isPart e.1 = true ∧ ∃ q, e.2.path netlocError = .ok q

/-- `from_uri` finds a folder that the path is in. -/
theorem relativeToFolder_ok : ∀ {es : List (Σ _ : Text, WorkspaceFolder)},
    (∀ e ∈ es, Located netlocError e) →
    (∃ e ∈ es, ∃ q, e.2.path netlocError = .ok q ∧ p.isRelativeTo q = true) →
    ∃ e ∈ es, ∃ (h : isPart e.1 = true) (q : Path), e.2.path netlocError = .ok q ∧
      p.isRelativeTo q = true ∧
      relativeToFolder netlocError p es = .ok ⟨.none, ⟨e.1, h⟩ :: (p.relativeTo q).parts⟩
  | [], _, h => by
    obtain ⟨e, he, -⟩ := h
    cases he
  | e :: es, hloc, h => by
    obtain ⟨hname, q, hq⟩ := hloc e List.mem_cons_self
    by_cases hp : p.isRelativeTo q = true
    · refine ⟨e, List.mem_cons_self, hname, q, hq, hp, ?_⟩
      show (e.2.path netlocError >>= fun q => if p.isRelativeTo q then _ else _) = _
      rw [hq]
      show (if p.isRelativeTo q then _ else _) = _
      rw [if_pos hp, Path.ofText_name hname]
      exact congrArg Except.ok (Path.join_relative _ _)
    · have hrest : ∃ e ∈ es, ∃ q, e.2.path netlocError = .ok q ∧ p.isRelativeTo q = true := by
        obtain ⟨e', he', q', hq', hp'⟩ := h
        rcases List.mem_cons.mp he' with rfl | he'
        · cases hq.symm.trans hq'
          exact absurd hp' hp
        · exact ⟨e', he', q', hq', hp'⟩
      obtain ⟨e', he', hname', q', hq', hp', hfind⟩ :=
        relativeToFolder_ok (fun e he => hloc e (List.mem_cons_of_mem _ he)) hrest
      refine ⟨e', List.mem_cons_of_mem _ he', hname', q', hq', hp', ?_⟩
      rw [← hfind]
      show (e.2.path netlocError >>= fun q => if p.isRelativeTo q then _ else _) = _
      rw [hq]
      exact if_neg hp

theorem folderPath_mem {e : Σ _ : Text, WorkspaceFolder} (h : e ∈ ws.entries) :
    folderPath netlocError ws e.1 = e.2.path netlocError := by
  rw [folderPath, AList.mem_lookup_iff.mpr h]

/-- The URI of a path in a folder, from the path relative to the workspace. -/
theorem asUri_named {e : Σ _ : Text, WorkspaceFolder} {q : Path} {h : isPart e.1 = true}
    (he : e ∈ ws.entries) (hq : e.2.path netlocError = .ok q) (hp : p.isRelativeTo q = true)
    (hlen : ws.entries.length ≠ 1) :
    asUri netlocError ws ⟨.none, ⟨e.1, h⟩ :: (p.relativeTo q).parts⟩ = p.asUri := by
  have hfolder : folderPath netlocError ws e.1 = .ok q := (folderPath_mem he).trans hq
  unfold asUri
  rw [if_neg (show ¬(⟨.none, ⟨e.1, h⟩ :: (p.relativeTo q).parts⟩ : Path).isAbsolute = true from
    Bool.false_ne_true), if_neg hlen]
  show (if (ws.lookup e.1).isNone then _ else (folderPath netlocError ws e.1 >>= fun q' => _)) = _
  rw [AList.mem_lookup_iff.mpr he, Option.isNone_some, if_neg Bool.false_ne_true, hfolder]
  exact congrArg Path.asUri (Path.join_relativeTo hp)

theorem asUri_single {f : WorkspaceFolder} {q : Path} (hf : ws.lookup workspaceRootDir = some f)
    (hq : f.path netlocError = .ok q) (hp : p.isRelativeTo q = true) (hlen : ws.entries.length = 1) :
    asUri netlocError ws (p.relativeTo q) = p.asUri := by
  unfold asUri
  rw [if_neg (show ¬(p.relativeTo q).isAbsolute = true from Bool.false_ne_true), if_pos hlen,
    folderPath, hf]
  show (f.path netlocError >>= fun q' => (q'.join (p.relativeTo q)).asUri) = _
  rw [hq]
  exact congrArg Path.asUri (Path.join_relativeTo hp)

/-- A relative path in a workspace of one folder that is not `__root__`. -/
theorem asUri_unrooted (habs : p.isAbsolute = false) (hlen : ws.entries.length = 1)
    (hroot : ws.lookup workspaceRootDir = none) :
    asUri netlocError ws p = .error (.keyError workspaceRootDir) := by
  unfold asUri
  rw [if_neg (by rw [habs]; exact Bool.false_ne_true), if_pos hlen, folderPath, hroot]
  rfl

theorem fromUri_root {u : Uri} {f : WorkspaceFolder} {q : Path} (hback : fromLocalUri netlocError u = .ok p)
    (hlen : ws.entries.length = 1) (hf : ws.lookup workspaceRootDir = some f)
    (hq : f.path netlocError = .ok q) (hp : p.isRelativeTo q = true) :
    fromUri netlocError ws u = .ok (p.relativeTo q) := by
  unfold fromUri
  rw [hback, if_pos hlen, hf]
  show (f.path netlocError >>= fun q => _) = _
  rw [hq]
  exact congrArg Except.ok (if_pos hp)

theorem fromUri_folders {u : Uri} (hback : fromLocalUri netlocError u = .ok p)
    (hroot : ws.entries.length = 1 → ws.lookup workspaceRootDir = none) :
    fromUri netlocError ws u = relativeToFolder netlocError p ws.entries := by
  unfold fromUri
  rw [hback]
  by_cases hlen : ws.entries.length = 1
  · rw [if_pos hlen, hroot hlen]
    rfl
  · rw [if_neg hlen]
    rfl

/-- `from_uri`, and then `as_uri`, of a path in one of the folders. -/
theorem asUri_fromUri_iff {u : Uri} (hloc : ∀ e ∈ ws.entries, Located netlocError e)
    (hin : ∃ e ∈ ws.entries, ∃ q, e.2.path netlocError = .ok q ∧ p.isRelativeTo q = true)
    (hu : p.asUri = .ok u) (hback : fromLocalUri netlocError u = .ok p) :
    (fromUri netlocError ws u >>= asUri netlocError ws) = .ok u ↔
      (ws.entries.length = 1 → (ws.lookup workspaceRootDir).isSome = true) := by
  obtain ⟨e, he, hname, q, hq, hp, hfind⟩ := relativeToFolder_ok hloc hin
  by_cases hlen : ws.entries.length = 1
  · cases hroot : ws.lookup workspaceRootDir with
    | some f =>
      -- the only folder is `__root__`
      have hmem := AList.mem_lookup_iff.mp hroot
      obtain ⟨e', hes⟩ := List.length_eq_one_iff.mp hlen
      rw [hes, List.mem_singleton] at he hmem
      subst hmem he
      rw [fromUri_root hback hlen hroot hq hp]
      show asUri netlocError ws (p.relativeTo q) = .ok u ↔ _
      rw [asUri_single hroot hq hp hlen, hu]
      simp
    | none =>
      rw [fromUri_folders hback fun _ => hroot, hfind]
      show asUri netlocError ws ⟨.none, ⟨e.1, hname⟩ :: (p.relativeTo q).parts⟩ = .ok u ↔ _
      rw [asUri_unrooted rfl hlen hroot]
      simp [hlen]
  · rw [fromUri_folders hback fun h => absurd h hlen, hfind]
    show asUri netlocError ws ⟨.none, ⟨e.1, hname⟩ :: (p.relativeTo q).parts⟩ = .ok u ↔ _
    rw [asUri_named he hq hp hlen, hu]
    simp [hlen]

end RoundTrip

/-- The URI of the path leads back to it. -/
def Exact (netlocError : Text → Option Text) (p : Path) : Prop :=
  (p.asUri >>= fromLocalUri netlocError) = .ok p

instance (netlocError : Text → Option Text) (p : Path) : Decidable (Exact netlocError p) := by
  unfold Exact
  infer_instance

theorem Exact.fromLocalUri {netlocError : Text → Option Text} {p : Path} {u : Uri}
    (h : Exact netlocError p) (hu : p.asUri = .ok u) : fromLocalUri netlocError u = .ok p := by
  rw [Exact, hu] at h
  exact h

/-- **A path relative to the workspace leads back to the URI it was made
from**, unless the workspace is one folder with another name than `__root__`. -/
theorem as_uri_from_uri (netlocError : Text → Option Text) (resolve : Path → Path)
    (raw : RawWorkspace) (ws : Workspace) (p : Path)
    (hbuilt : formatWorkspace resolve raw = .ok ws)
    (hnames : ∀ d ∈ raw.folders, isPart d.1 = true)
    (hdirs : ∀ d ∈ raw.folders, Exact netlocError (resolve d.2)) (hp : Exact netlocError p)
    (hin : ∃ d ∈ raw.folders, p.isRelativeTo (resolve d.2) = true) :
    (p.asUri >>= fun u => fromUri netlocError ws u >>= asUri netlocError ws) = p.asUri ↔
      (raw.folders.length = 1 → ∃ d ∈ raw.folders, d.1 = workspaceRootDir) := by
  obtain ⟨u, hu, hback⟩ := bind_ok hp
  have hbuilds := formatWorkspace_builds hbuilt fun built heq => by
    obtain ⟨d, hd, -⟩ := hin
    rw [heq] at hd
    cases hd
  have hpath : ∀ d ∈ raw.folders, ∀ e, Builds resolve d e → e.2.path netlocError = .ok (resolve d.2) :=
    fun d hd e he => (hdirs d hd).fromLocalUri he.2
  have hloc : ∀ e ∈ ws.entries, Located netlocError e := by
    intro e he
    obtain ⟨d, hd, hde⟩ := forall₂_mem hbuilds.flip he
    exact ⟨hde.1 ▸ hnames d hd, _, hpath d hd e hde⟩
  have hinside : ∃ e ∈ ws.entries, ∃ q, e.2.path netlocError = .ok q ∧ p.isRelativeTo q = true := by
    obtain ⟨d, hd, hdp⟩ := hin
    obtain ⟨e, he, hde⟩ := forall₂_mem hbuilds hd
    exact ⟨e, he, _, hpath d hd e hde, hdp⟩
  have hroot : (ws.lookup workspaceRootDir).isSome = true ↔ ∃ d ∈ raw.folders, d.1 = workspaceRootDir := by
    rw [AList.lookup_isSome, AList.mem_keys, AList.keys, ← keys_builds hbuilds, List.keys, List.mem_map]
  rw [hu]
  show (fromUri netlocError ws u >>= asUri netlocError ws) = .ok u ↔ _
  rw [asUri_fromUri_iff hloc hinside hu hback, ← hbuilds.length_eq, hroot]

/-- Two folders, one in the other. -/
def nested : RawWorkspace :=
  .mapping [⟨"all".toList, Path.ofText "/ws".toList⟩, ⟨"lib".toList, Path.ofText "/ws/lib".toList⟩].toAList

/-- The path is taken relative to the outer folder, and leads back. -/
theorem as_uri_from_uri_nested : ∃ ws, formatWorkspace id nested = .ok ws ∧
    ((Path.ofText "/ws/lib/a".toList).asUri >>= fun u =>
      fromUri (fun _ => none) ws u >>= asUri (fun _ => none) ws) =
        (Path.ofText "/ws/lib/a".toList).asUri :=
  ⟨_, rfl, (as_uri_from_uri (fun _ => none) id nested _ (Path.ofText "/ws/lib/a".toList) rfl
    (by decide) (by decide) (by decide) (by decide)).mpr (by decide)⟩

/-- **One named folder**: the path `from_uri` returns is not one for `as_uri`. -/
theorem as_uri_unnamed_root : ∃ ws,
    formatWorkspace id (.mapping [⟨"all".toList, Path.ofText "/ws".toList⟩].toAList) = .ok ws ∧
    (Path.ofText "/ws/a".toList).asUri = .ok "file:///ws/a".toList ∧
    fromUri (fun _ => none) ws "file:///ws/a".toList = .ok (Path.ofText "all/a".toList) ∧
    asUri (fun _ => none) ws (Path.ofText "all/a".toList) = .error (.keyError workspaceRootDir) :=
  ⟨_, rfl, by decide, by decide, by decide⟩

/-! ### Where the path of a URI lies -/

/-- Is this the name of the parent? -/
def isUp (x : Part) : Bool := x.1 = ['.', '.']

/-- The path with its `..` resolved by its text. -/
def Path.normal (p : Path) : Path := ⟨p.root, Lexical.resolve isUp p.parts⟩

section Inside

variable (netlocError : Text → Option Text) (ws : Workspace)

/-- A folder of the workspace has this path. -/
def IsFolder (q : Path) : Prop := ∃ f ∈ ws.entries.map Sigma.snd, f.path netlocError = .ok q

/-- With every `..` resolved, the path lies in one of the folders. -/
def InFolder (p : Path) : Prop :=
  ∃ q, IsFolder netlocError ws q ∧ p.normal.isRelativeTo q.normal = true

/-- `as_uri` takes the path as that of `rest` in `folder`. -/
inductive StartsIn (p : Path) : Path → List Part → Prop
  | absolute {folder : Path} (habs : p.isAbsolute = true) (hfolder : IsFolder netlocError ws folder)
      (hp : p.isRelativeTo folder = true) : StartsIn p folder (p.relativeTo folder).parts
  | single {folder : Path} (habs : p.isAbsolute = false) (hlen : ws.entries.length = 1)
      (hfolder : folderPath netlocError ws workspaceRootDir = .ok folder) : StartsIn p folder p.parts
  | multi {folder : Path} {root : Part} {parts : List Part} (habs : p.isAbsolute = false)
      (hlen : ws.entries.length ≠ 1) (hparts : p.parts = root :: parts)
      (hfolder : folderPath netlocError ws root.1 = .ok folder) : StartsIn p folder parts

variable {netlocError : Text → Option Text} {ws : Workspace} {p q folder : Path} {rest : List Part} {u : Uri}

/-- A URI is the URI of one path. -/
theorem Path.asUri_injective (hp : p.asUri = .ok u) (hq : q.asUri = .ok u) : p = q := by
  obtain ⟨-, hpu⟩ := Path.asUri_ok hp
  obtain ⟨-, hqu⟩ := Path.asUri_ok hq
  have hquote := List.append_cancel_left (hpu.symm.trans hqu)
  have htext := congrArg unquote hquote
  rw [unquote_quote, unquote_quote] at htext
  have hread := congrArg Path.ofText htext
  rwa [Path.ofText_toText, Path.ofText_toText] at hread

theorem inWorkspace_ok (h : inWorkspace netlocError ws p = .ok true) :
    ∃ folder, IsFolder netlocError ws folder ∧ p.isRelativeTo folder = true := by
  unfold inWorkspace at h
  unfold IsFolder
  generalize ws.entries.map Sigma.snd = fs at h ⊢
  induction fs with
  | nil => cases h
  | cons f fs ih =>
    rw [List.anyM_cons] at h
    obtain ⟨b, hb, h⟩ := bind_ok h
    obtain ⟨q, hq, hb⟩ := bind_ok hb
    cases hb
    cases hrel : p.isRelativeTo q with
    | true => exact ⟨q, ⟨f, List.mem_cons_self, hq⟩, hrel⟩
    | false =>
      rw [hrel] at h
      obtain ⟨folder, ⟨f', hf', hpath⟩, hp⟩ := ih h
      exact ⟨folder, ⟨f', List.mem_cons_of_mem _ hf', hpath⟩, hp⟩

/-- What `as_uri` returns is the URI of the path that starts in the folder. -/
theorem asUri_startsIn (h : asUri netlocError ws p = .ok u) :
    ∃ folder rest, StartsIn netlocError ws p folder rest := by
  unfold asUri at h
  by_cases habs : p.isAbsolute = true
  · rw [if_pos habs] at h
    obtain ⟨b, hb, h⟩ := bind_ok h
    cases b with
    | true =>
      obtain ⟨folder, hfolder, hp⟩ := inWorkspace_ok hb
      exact ⟨folder, _, .absolute habs hfolder hp⟩
    | false => cases h
  · rw [if_neg habs] at h
    rw [Bool.not_eq_true] at habs
    by_cases hlen : ws.entries.length = 1
    · rw [if_pos hlen] at h
      obtain ⟨folder, hfolder, -⟩ := bind_ok h
      exact ⟨folder, _, .single habs hlen hfolder⟩
    · rw [if_neg hlen] at h
      cases hparts : p.parts with
      | nil =>
        rw [hparts] at h
        cases h
      | cons root parts =>
        rw [hparts] at h
        simp only at h
        split at h
        · cases h
        · obtain ⟨folder, hfolder, -⟩ := bind_ok h
          exact ⟨folder, _, .multi habs hlen hparts hfolder⟩

theorem StartsIn.asUri (hstart : StartsIn netlocError ws p folder rest)
    (h : LspClient.asUri netlocError ws p = .ok u) :
    (Path.mk folder.root (folder.parts ++ rest)).asUri = .ok u := by
  unfold LspClient.asUri at h
  cases hstart with
  | absolute habs hfolder hp =>
    rw [if_pos habs] at h
    obtain ⟨b, -, h⟩ := bind_ok h
    cases b with
    | true =>
      rw [← Path.join_relative folder (p.relativeTo folder).parts]
      exact (congrArg Path.asUri (Path.join_relativeTo hp)).trans h
    | false => cases h
  | single habs hlen hfolder =>
    have hp : ¬p.isAbsolute = true := by rw [habs]; exact Bool.false_ne_true
    rw [if_neg hp, if_pos hlen, hfolder] at h
    have hjoin : folder.join p = ⟨folder.root, folder.parts ++ p.parts⟩ := if_neg hp
    rw [← hjoin]
    exact h
  | multi habs hlen hparts hfolder =>
    rw [if_neg (by rw [habs]; exact Bool.false_ne_true), if_neg hlen, hparts] at h
    simp only at h
    split at h
    · cases h
    · rw [hfolder] at h
      exact h

theorem normal_parts (folder : Path) (rest : List Part) :
    (Path.mk folder.root (folder.parts ++ rest)).normal =
      ⟨folder.root, Lexical.resolveFrom isUp folder.normal.parts rest⟩ :=
  congrArg _ (Lexical.resolveFrom_append [] folder.parts rest)

/-- The path of the URI lies in the folders that the climb from the folder it starts in reaches. -/
theorem StartsIn.inFolder_iff (hstart : StartsIn netlocError ws p folder rest)
    (h : LspClient.asUri netlocError ws p = .ok u) :
    (∀ q, q.asUri = .ok u → InFolder netlocError ws q) ↔
      ∃ goal, IsFolder netlocError ws goal ∧ folder.root = goal.root ∧
        (Lexical.climb isUp rest).Reaches folder.normal.parts goal.normal.parts := by
  have hu := hstart.asUri h
  have hpath : (∀ q, q.asUri = .ok u → InFolder netlocError ws q) ↔
      InFolder netlocError ws ⟨folder.root, folder.parts ++ rest⟩ :=
    ⟨fun hall => hall _ hu, fun hin q hq => Path.asUri_injective hu hq ▸ hin⟩
  rw [hpath]
  refine exists_congr fun goal => and_congr_right fun _ => ?_
  rw [Path.isRelativeTo_iff, normal_parts, Lexical.prefix_resolveFrom]
  rfl

end Inside

/-- **Whether the URI of a path stays inside the workspace** is where the `..`
of the path lead from the folder it starts in. -/
theorem as_uri_stays_inside (netlocError : Text → Option Text) (ws : Workspace) (p : Path) (u : Uri)
    (h : asUri netlocError ws p = .ok u) :
    (∀ q, q.asUri = .ok u → InFolder netlocError ws q) ↔
      ∃ folder rest, StartsIn netlocError ws p folder rest ∧
        ∃ goal, IsFolder netlocError ws goal ∧ folder.root = goal.root ∧
          (Lexical.climb isUp rest).Reaches folder.normal.parts goal.normal.parts := by
  constructor
  · intro hall
    obtain ⟨folder, rest, hstart⟩ := asUri_startsIn h
    exact ⟨folder, rest, hstart, (hstart.inFolder_iff h).mp hall⟩
  · rintro ⟨folder, rest, hstart, hgoal⟩
    exact (hstart.inFolder_iff h).mpr hgoal

/-- The directory `/ws`. -/
def rooted : Workspace := [⟨workspaceRootDir, ⟨"file:///ws".toList, "root".toList⟩⟩].toAList

/-- A path that climbs as far as to its folder. -/
theorem as_uri_stays_inside_level :
    InFolder (fun _ => none) rooted (Path.ofText "/ws/lib/../a".toList) :=
  (as_uri_stays_inside (fun _ => none) rooted (Path.ofText "lib/../a".toList)
      "file:///ws/lib/../a".toList (by decide)).mpr
    ⟨Path.ofText "/ws".toList, (Path.ofText "lib/../a".toList).parts,
      .single (by decide) (by decide) (by decide), Path.ofText "/ws".toList,
      ⟨⟨"file:///ws".toList, "root".toList⟩, by decide, by decide⟩, by decide,
      Or.inl (by decide)⟩ _ (by decide)

/-- **A path that climbs above the workspace**, relative or absolute, has a URI. -/
theorem as_uri_escapes :
    asUri (fun _ => none) rooted (Path.ofText "../secret".toList) =
      .ok "file:///ws/../secret".toList ∧
    asUri (fun _ => none) rooted (Path.ofText "/ws/../secret".toList) =
      .ok "file:///ws/../secret".toList ∧
    (Path.ofText "/ws/../secret".toList).asUri = .ok "file:///ws/../secret".toList ∧
    ¬InFolder (fun _ => none) rooted (Path.ofText "/ws/../secret".toList) := by
  refine ⟨by decide, by decide, by decide, ?_⟩
  rintro ⟨folder, ⟨f, hf, hpath⟩, hin⟩
  cases List.mem_singleton.mp hf
  cases (show fromLocalUri (fun _ => none) "file:///ws".toList = .ok (Path.ofText "/ws".toList) by
    decide).symm.trans hpath
  exact absurd hin (by decide)

end LspClient
