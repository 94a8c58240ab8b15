/-
# The identifier of a workspace

`Workspace.id` hashes a text made of the names of the folders and their URIs,
in the order of the names. Its docstring promises one identifier for one set of
folders, whatever the order they were given in. The text keeps that, and where
no name holds `:` or `|` it says nothing else: two workspaces that the client has
built have the same text just if the same names stand for the same directories
(`workspace_id_iff`). What carries this is that a URI made of a path never
holds `|` (`notMem_quoteFromBytes`), so that the text can be read back.

Key definitions: `Workspace.sortedItems`, `Workspace.idText`, `Workspace.id`.
Key theorems: `options_eq_iff`, `idText_eq_iff`, `workspace_id_iff`.
-/
import LspClient.Workspace
import LspClient.Lib.Separated
import Mathlib.Data.Char
import Mathlib.Data.List.Lex

namespace LspClient

open Percent Separated ByteStream

/-- `sorted(self.items())`. The names are distinct, so no folder is compared. -/
def Workspace.sortedItems (ws : Workspace) : List (Σ _ : Text, WorkspaceFolder) :=
  ws.entries.mergeSort fun a b => decide (a.1 ≤ b.1)

/-- The text that is hashed. -/
def Workspace.idText (ws : Workspace) : Text :=
  ['|'].intercalate (sortedItems ws |>.map fun e => e.1 ++ ':' :: e.2.uri)

/-- `Workspace.id`; the hash function is a parameter. -/
def Workspace.id (xxh32Hexdigest : Bytes → Text) (ws : Workspace) : Text :=
  xxh32Hexdigest (encodeUtf8 ws.idText)

namespace WorkspaceId

/-! ### The items -/

/-- The names with their URIs, in the order of the names. -/
def options (ws : Workspace) : List (Text × Option Text) :=
  (Workspace.sortedItems ws).map fun e => (e.1, some e.2.uri)

variable {ws ws' : Workspace} {name : Text} {u : Uri}

theorem idText_eq (ws : Workspace) : Workspace.idText ws = formatOptions '|' ':' (options ws) := by
  unfold formatOptions options Workspace.idText
  rw [List.map_map]
  rfl

theorem mem_options_iff {o : Text × Option Text} :
    o ∈ options ws ↔ ∃ f, ws.lookup o.1 = some f ∧ o.2 = some f.uri := by
  have hsorted : ∀ e, e ∈ Workspace.sortedItems ws ↔ e ∈ ws.entries := fun e =>
    (List.mergeSort_perm _ _).mem_iff
  unfold options
  rw [List.mem_map]
  constructor
  · rintro ⟨⟨name, f⟩, he, rfl⟩
    exact ⟨f, AList.mem_lookup_iff.mpr ((hsorted _).mp he), rfl⟩
  · rintro ⟨f, hf, hu⟩
    refine ⟨⟨o.1, f⟩, (hsorted _).mpr (AList.mem_lookup_iff.mp hf), ?_⟩
    rw [← hu]

theorem lookup_uri_iff : (ws.lookup name).map WorkspaceFolder.uri = some u ↔ (name, some u) ∈ options ws := by
  rw [mem_options_iff, Option.map_eq_some_iff]
  exact exists_congr fun f => and_congr_right fun _ => ⟨fun h => h ▸ rfl, fun h => (Option.some.inj h).symm⟩

theorem options_nodup (ws : Workspace) : ((options ws).map Prod.fst).Nodup := by
  have hperm : ((options ws).map Prod.fst).Perm ws.keys := by
    unfold options
    rw [List.map_map]
    exact (List.mergeSort_perm _ _).map _
  exact hperm.nodup_iff.mpr ws.keys_nodup

theorem options_sorted (ws : Workspace) : (options ws).Pairwise fun a b => a.1 ≤ b.1 := by
  unfold options
  rw [List.pairwise_map]
  have hsorted := @List.pairwise_mergeSort _ (fun a b : Σ _ : Text, WorkspaceFolder => decide (a.1 ≤ b.1))
    (fun a b d hab hbd => by simpa using le_trans (of_decide_eq_true hab) (of_decide_eq_true hbd))
    (fun a b => by simpa using le_total a.1 b.1) ws.entries
  exact hsorted.imp fun h => of_decide_eq_true h

/-- The items are determined by what the names stand for. -/
theorem options_eq_iff : options ws = options ws' ↔
    ∀ name, (ws.lookup name).map WorkspaceFolder.uri = (ws'.lookup name).map WorkspaceFolder.uri := by
  constructor
  · intro h name
    refine Option.ext fun u => ?_
    rw [lookup_uri_iff, lookup_uri_iff, h]
  · intro h
    have hmem : ∀ o, o ∈ options ws ↔ o ∈ options ws' := by
      rintro ⟨name, _ | u⟩
      · simp [mem_options_iff]
      · rw [← lookup_uri_iff, ← lookup_uri_iff, h]
    have hperm : (options ws).Perm (options ws') :=
      (List.perm_ext_iff_of_nodup (.of_map _ (options_nodup ws)) (.of_map _ (options_nodup ws'))).mpr hmem
    refine hperm.eq_of_pairwise (fun a b ha hb hab hba => ?_) (options_sorted ws) (options_sorted ws')
    -- one name stands for one folder
    exact List.inj_on_of_nodup_map (options_nodup ws) ha ((hmem b).mpr hb) (le_antisymm hab hba)

/-! ### The text -/

/-- Names without the two separators, and URIs without the outer one. -/
def Plain (ws : Workspace) : Prop :=
  ∀ e ∈ ws.entries, ('|' ∉ e.1 ∧ ':' ∉ e.1) ∧ '|' ∉ e.2.uri

/-- The text of a workspace with folders is read back. -/
theorem readOptions_idText (h : Plain ws) (hne : options ws ≠ []) :
    readOptions '|' ':' ws.idText = options ws := by
  have hplain : ∀ o ∈ options ws, ('|' ∉ o.1 ∧ ':' ∉ o.1) ∧ ∀ value, o.2 = some value → '|' ∉ value := by
    intro o ho
    obtain ⟨f, hf, hu⟩ := mem_options_iff.mp ho
    obtain ⟨hname, huri⟩ := h ⟨o.1, f⟩ (AList.mem_lookup_iff.mp hf)
    refine ⟨hname, fun value hvalue => ?_⟩
    cases hu.symm.trans hvalue
    exact huri
  rw [idText_eq]
  exact (readOptions_formatOptions_iff (by decide) fun o ho => (hplain o ho).1).mpr
    ⟨hne, fun o ho => (hplain o ho).2⟩

/-- Without folders there is no text, and every text with folders is read as some. -/
theorem options_nil_of_idText (h : Plain ws) (hnil : ws.idText = []) : options ws = [] := by
  by_contra hne
  have hread := readOptions_idText h hne
  have hempty : readOptions '|' ':' ([] : Text) = [([], none)] := rfl
  rw [hnil, hempty] at hread
  have hnone : (([], none) : Text × Option Text) ∈ options ws := hread ▸ List.mem_singleton_self _
  simp [mem_options_iff] at hnone

theorem idText_eq_iff (h : Plain ws) (h' : Plain ws') : ws.idText = ws'.idText ↔ options ws = options ws' := by
  refine ⟨fun htext => ?_, fun hoptions => by rw [idText_eq, idText_eq, hoptions]⟩
  have hnil : ∀ {v : Workspace}, options v = [] → v.idText = [] := fun hv => by
    rw [idText_eq, hv]
    rfl
  by_cases hws : options ws = []
  · rw [hws, options_nil_of_idText h' (htext ▸ hnil hws)]
  · have hws' : options ws' ≠ [] := fun hv => hws (options_nil_of_idText h (htext.trans (hnil hv)))
    rw [← readOptions_idText h hws, htext, readOptions_idText h' hws']

/-! ### The workspaces of a client -/

theorem notMem_quoteByte (b : UInt8) : '|' ∉ quoteByte b := by
  have hhex : ∀ n < 16, '|' ≠ hexUpper n := by decide
  have hlt : b.toNat < 256 := b.toNat_lt
  rw [quoteByte]
  split_ifs with hsafe
  · intro hmem
    rw [← List.mem_singleton.mp hmem] at hsafe
    exact absurd hsafe (by decide)
  · simp only [List.mem_cons, List.not_mem_nil, or_false, not_or]
    exact ⟨by decide, hhex _ (by omega), hhex _ (by omega)⟩

/-- What is quoted does not hold `|`. -/
theorem notMem_quoteFromBytes (bs : Bytes) : '|' ∉ quoteFromBytes bs := by
  unfold quoteFromBytes
  rw [List.mem_flatMap]
  rintro ⟨b, -, hb⟩
  exact notMem_quoteByte b hb

theorem notMem_asUri {p : Path} (h : p.asUri = .ok u) : '|' ∉ u := by
  obtain ⟨-, rfl⟩ := Path.asUri_ok h
  rw [List.mem_append, not_or]
  exact ⟨by decide, notMem_quoteFromBytes _⟩

section Built

variable {resolve : Path → Path} {raw raw' : RawWorkspace}

/-- What a name stands for has the URI of its directory. -/
theorem dlookup_builds {ds : List (Σ _ : Text, Path)} {es : List (Σ _ : Text, WorkspaceFolder)}
    (h : List.Forall₂ (Builds resolve) ds es) (name : Text) :
    ((ds.dlookup name).map fun d => (resolve d).asUri) = (es.dlookup name).map fun f => .ok f.uri := by
  induction h with
  | nil => rfl
  | @cons d e ds es hd _ ih =>
    obtain ⟨n, p⟩ := d
    obtain ⟨n', f⟩ := e
    obtain ⟨hname, huri⟩ : n' = n ∧ (resolve p).asUri = .ok f.uri := hd
    subst hname
    by_cases hn : name = n'
    · subst hn
      rw [List.dlookup_cons_eq, List.dlookup_cons_eq]
      simp only [Option.map_some, huri]
    · rw [List.dlookup_cons_ne _ _ hn, List.dlookup_cons_ne _ _ hn, ih]

theorem plain_of_builds (h : List.Forall₂ (Builds resolve) raw.folders ws.entries)
    (hnames : ∀ d ∈ raw.folders, '|' ∉ d.1 ∧ ':' ∉ d.1) : Plain ws := by
  intro e he
  obtain ⟨d, hd, hname, huri⟩ := forall₂_mem h.flip he
  exact ⟨hname ▸ hnames d hd, notMem_asUri huri⟩

/-- Two directories with the URIs of two folders are the same just if the URIs are. -/
theorem map_uri_iff {d d' : Option Path} {f f' : Option WorkspaceFolder}
    (h : (d.map fun p => (resolve p).asUri) = f.map fun f => .ok f.uri)
    (h' : (d'.map fun p => (resolve p).asUri) = f'.map fun f => .ok f.uri) :
    f.map WorkspaceFolder.uri = f'.map WorkspaceFolder.uri ↔ d.map resolve = d'.map resolve := by
  have huris : f.map WorkspaceFolder.uri = f'.map WorkspaceFolder.uri ↔
      (d.map fun p => (resolve p).asUri) = d'.map fun p => (resolve p).asUri := by
    rw [h, h', ← (Option.map_injective fun _ _ => Except.ok.inj).eq_iff (a := f.map WorkspaceFolder.uri),
      Option.map_map, Option.map_map]
    rfl
  rw [huris]
  refine ⟨fun hd => ?_, fun hd => ?_⟩
  · cases d with
    | none => exact (Option.map_eq_none_iff.mp hd.symm).symm ▸ rfl
    | some p =>
      obtain ⟨p', rfl, hp'⟩ := Option.map_eq_some_iff.mp hd.symm
      -- the URI of one folder is that of both directories
      obtain ⟨f, -, hf⟩ := Option.map_eq_some_iff.mp h.symm
      exact congrArg some (Path.asUri_injective hf.symm (hp'.trans hf.symm))
  · have hboth := congrArg (Option.map Path.asUri) hd
    rwa [Option.map_map, Option.map_map] at hboth

end Built

/-- **One text for one set of folders.** -/
theorem workspace_id_iff (resolve : Path → Path) {raw raw' : RawWorkspace}
    (hws : formatWorkspace resolve raw = .ok ws) (hws' : formatWorkspace resolve raw' = .ok ws')
    (hraw : ∀ built, raw ≠ .workspace built) (hraw' : ∀ built, raw' ≠ .workspace built)
    (hnames : ∀ d ∈ raw.folders ++ raw'.folders, '|' ∉ d.1 ∧ ':' ∉ d.1) :
    ws.idText = ws'.idText ↔ ∀ name, (raw.folders.dlookup name).map resolve =
      (raw'.folders.dlookup name).map resolve := by
  have hbuilds := formatWorkspace_builds hws hraw
  have hbuilds' := formatWorkspace_builds hws' hraw'
  rw [List.forall_mem_append] at hnames
  rw [idText_eq_iff (plain_of_builds hbuilds hnames.1) (plain_of_builds hbuilds' hnames.2), options_eq_iff]
  exact forall_congr' fun name => map_uri_iff (dlookup_builds hbuilds name) (dlookup_builds hbuilds' name)

/-- Two folders, in one order. -/
def twoFolders : RawWorkspace :=
  .mapping [⟨"a".toList, Path.ofText "/x".toList⟩, ⟨"b".toList, Path.ofText "/y".toList⟩].toAList

/-- The same folders, in the other order. -/
def twoFoldersSwapped : RawWorkspace :=
  .mapping [⟨"b".toList, Path.ofText "/y".toList⟩, ⟨"a".toList, Path.ofText "/x".toList⟩].toAList

theorem workspace_id_swapped : ∃ ws ws', formatWorkspace id twoFolders = .ok ws ∧
    formatWorkspace id twoFoldersSwapped = .ok ws' ∧ ws.entries ≠ ws'.entries ∧ ws.idText = ws'.idText := by
  have hws : formatWorkspace id twoFolders = .ok _ := rfl
  have hws' : formatWorkspace id twoFoldersSwapped = .ok _ := rfl
  refine ⟨_, _, hws, hws', by decide,
    (workspace_id_iff id hws hws' nofun nofun (by decide)).mpr fun name => ?_⟩
  have hperm : twoFolders.folders.Perm twoFoldersSwapped.folders := .swap _ _ _
  exact congrArg _ (List.perm_dlookup name (AList.nodupKeys _) hperm)

/-- A name that holds both separators gives the text of two folders. -/
example : ∃ ws, formatWorkspace id (.mapping [⟨"a:file:///x|b".toList, Path.ofText "/y".toList⟩].toAList) =
    .ok ws ∧ ws.idText = "a:file:///x|b:file:///y".toList := ⟨_, rfl, by decide +kernel⟩

end WorkspaceId
end LspClient
