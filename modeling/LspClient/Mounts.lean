/-
# Mounts of a container

`server/container.py` writes a mount as the `--mount` option of a container
CLI: its fields as `key=value`, or a key alone, joined at commas. The CLI splits
the option at the commas and cuts each piece at its first `=`.

A value may hold a comma, and none is escaped. And the mode of a temporary file
system is written with Python's mark `0o`, which is no octal digit. So the CLI
reads exactly the fields that were set just if no string of the mount holds a
comma and no mode is set. Mounts without commas have one option just if they
write the same fields, and are one mount if nothing in them is set to an empty
value (`mount_decodes_iff`). The paths of a workspace's folders are mounted by
themselves, under the same condition (`folder_mount_decodes_iff`).

Key definitions: `MountPoint`, `MountPoint.str`, `BindMount.fromPath`, `formatMount`,
`MountPoint.fields`, `MountPoint.written`, `readMount`.
Key theorems: `mount_decodes_iff`, `folder_mount_decodes_iff`, `formatArgs_mounts`.
-/
import LspClient.Lib.Separated
import LspClient.Servers
import Mathlib.Data.Option.Basic

namespace LspClient
namespace Mounts

open Separated Servers Servers.ContainerServer

/-! ### Mounts and their options -/

/-- `MountBase`. -/
structure MountBase where
  type : Text
  target : Text
  source : Option Text := none
  readonly : Bool := false

/-- The values of `bind_propagation`. -/
inductive BindPropagation where
  | private_
  | rprivate
  | shared
  | rshared
  | slave
  | rslave
  deriving DecidableEq

def BindPropagation.text : BindPropagation → Text
  | .private_ => "private".toList
  | .rprivate => "rprivate".toList
  | .shared => "shared".toList
  | .rshared => "rshared".toList
  | .slave => "slave".toList
  | .rslave => "rslave".toList

/-- `BindMount`. -/
structure BindMount extends MountBase where
  type := "bind".toList
  bindPropagation : Option BindPropagation := none

/-- `VolumeMount`. -/
structure VolumeMount extends MountBase where
  type := "volume".toList
  volumeDriver : Option Text := none
  volumeSubpath : Option Text := none
  volumeNocopy : Bool := false
  volumeOpt : Option (List Text) := none

/-- `TmpfsMount`. -/
structure TmpfsMount extends MountBase where
  type := "tmpfs".toList
  tmpfsSize : Option ℤ := none
  tmpfsMode : Option ℤ := none

/-- `MountPoint`. -/
inductive MountPoint where
  | bind (m : BindMount)
  | volume (m : VolumeMount)
  | tmpfs (m : TmpfsMount)

/-- An integer to a base: its sign, the mark of the base, its digits. -/
def integerText (mark : Text) (base : ℕ) (n : ℤ) : Text :=
  (if n < 0 then ['-'] else []) ++ mark ++ Nat.toDigits base n.natAbs

/-- `str`, of an integer. -/
def intText : ℤ → Text := integerText [] 10

/-- `oct`. -/
def oct : ℤ → Text := integerText "0o".toList 8

/-- An integer in octal digits, as the CLI reads it. -/
def octal : ℤ → Text := integerText [] 8

/-- `MountBase._parts`. -/
def MountBase.parts (m : MountBase) : List Text :=
  ["type=".toList ++ m.type] ++ ((given m.source).map ("source=".toList ++ ·)).toList ++
    ["target=".toList ++ m.target] ++ if m.readonly then ["readonly".toList] else []

/-- `BindMount._parts`. -/
def BindMount.parts (m : BindMount) : List Text :=
  m.toMountBase.parts ++ (m.bindPropagation.map ("bind-propagation=".toList ++ ·.text)).toList

/-- `VolumeMount._parts`. -/
def VolumeMount.parts (m : VolumeMount) : List Text :=
  m.toMountBase.parts ++ ((given m.volumeDriver).map ("volume-driver=".toList ++ ·)).toList ++
    ((given m.volumeSubpath).map ("volume-subpath=".toList ++ ·)).toList ++
    (if m.volumeNocopy then ["volume-nocopy".toList] else []) ++
    (m.volumeOpt.getD []).map ("volume-opt=".toList ++ ·)

/-- `TmpfsMount._parts`. -/
def TmpfsMount.parts (m : TmpfsMount) : List Text :=
  m.toMountBase.parts ++ (m.tmpfsSize.map ("tmpfs-size=".toList ++ intText ·)).toList ++
    (m.tmpfsMode.map ("tmpfs-mode=".toList ++ oct ·)).toList

def MountPoint.type : MountPoint → Text
  | bind m => m.type
  | volume m => m.type
  | tmpfs m => m.type

/-- `_parts`. -/
def MountPoint.parts : MountPoint → List Text
  | bind m => m.parts
  | volume m => m.parts
  | tmpfs m => m.parts

/-- `__str__`. -/
def MountPoint.str (m : MountPoint) : Text := [','].intercalate m.parts

/-- `BindMount.from_path`, for the text of the path. -/
def BindMount.fromPath (resolve : Text → Text) (path : Text) (readonly : Bool := false)
    (target : Option Text := none) : BindMount :=
  { source := some (resolve path), target := target.getD (resolve path), readonly := readonly }

/-- `Mount`. -/
inductive Mount where
  | point (m : MountPoint)
  | text (t : Text)
  | path (p : Text)

/-- `_format_mount`. -/
def formatMount (resolve : Text → Text) : Mount → Text
  | .point m => m.str
  | .text t => t
  | .path p => (MountPoint.bind (.fromPath resolve p)).str

/-! ### What a mount says -/

/-- What the CLI reads in an option. -/
def readMount : Text → List (Text × Option Text) := readOptions ',' '='

/-- A field that may be unset. -/
def optional (key : Text) (value : Option Text) : List (Text × Option Text) :=
  value.toList.map fun v => (key, some v)

/-- A field that is there or not. -/
def flag (key : Text) (b : Bool) : List (Text × Option Text) := if b then [(key, none)] else []

/-- The fields that are set, with their values. An empty string is none. -/
def MountBase.fields (m : MountBase) : List (Text × Option Text) :=
  optional "type".toList (some m.type) ++ optional "source".toList (given m.source) ++
    optional "target".toList (some m.target) ++ flag "readonly".toList m.readonly

def BindMount.fields (m : BindMount) : List (Text × Option Text) :=
  m.toMountBase.fields ++ optional "bind-propagation".toList (m.bindPropagation.map (·.text))

/-- The fields a volume has besides. -/
def VolumeMount.volumeFields (m : VolumeMount) : List (Text × Option Text) :=
  optional "volume-driver".toList (given m.volumeDriver) ++
    optional "volume-subpath".toList (given m.volumeSubpath) ++
    flag "volume-nocopy".toList m.volumeNocopy ++
    (m.volumeOpt.getD []).map fun v => ("volume-opt".toList, some v)

def VolumeMount.fields (m : VolumeMount) : List (Text × Option Text) :=
  m.toMountBase.fields ++ m.volumeFields

/-- The fields a temporary file system has besides, for a text of its mode. -/
def TmpfsMount.tmpfsFields (mode : ℤ → Text) (m : TmpfsMount) : List (Text × Option Text) :=
  optional "tmpfs-size".toList (m.tmpfsSize.map intText) ++
    optional "tmpfs-mode".toList (m.tmpfsMode.map mode)

def TmpfsMount.fields (mode : ℤ → Text) (m : TmpfsMount) : List (Text × Option Text) :=
  m.toMountBase.fields ++ m.tmpfsFields mode

/-- The fields that are set: a mode is a number that the CLI reads in octal digits. -/
def MountPoint.fields : MountPoint → List (Text × Option Text)
  | bind m => m.fields
  | volume m => m.fields
  | tmpfs m => m.fields octal

/-- The fields as `_parts` writes them. -/
def MountPoint.written : MountPoint → List (Text × Option Text)
  | bind m => m.fields
  | volume m => m.fields
  | tmpfs m => m.fields oct

/-- The mode that is set. -/
def MountPoint.mode : MountPoint → Option ℤ
  | tmpfs m => m.tmpfsMode
  | _ => none

/-- The strings of a mount. -/
def MountBase.texts (m : MountBase) : List Text := m.type :: m.target :: m.source.toList

def MountPoint.texts : MountPoint → List Text
  | bind m => m.toMountBase.texts
  | volume m => m.toMountBase.texts ++ m.volumeDriver.toList ++ m.volumeSubpath.toList ++
      m.volumeOpt.getD []
  | tmpfs m => m.toMountBase.texts

/-- None of its strings holds a comma. -/
def MountPoint.Plain (m : MountPoint) : Prop := ∀ t ∈ m.texts, ',' ∉ t

/-! ### The parts are the fields -/

theorem map_optional (key : Text) (value : Option Text) :
    (optional key value).map (formatOption '=') = (value.map (key ++ '=' :: ·)).toList := by
  cases value <;> rfl

theorem map_flag (key : Text) (b : Bool) :
    (flag key b).map (formatOption '=') = if b then [key] else [] := by
  cases b <;> rfl

theorem MountBase.parts_eq (m : MountBase) : m.parts = m.fields.map (formatOption '=') := by
  unfold parts fields
  simp only [List.map_append, map_optional, map_flag]
  rfl

theorem MountPoint.parts_eq (m : MountPoint) : m.parts = m.written.map (formatOption '=') := by
  cases m with
  | bind m =>
    show m.parts = m.fields.map _
    rw [BindMount.parts, BindMount.fields, MountBase.parts_eq, List.map_append, map_optional,
      Option.map_map]
    rfl
  | volume m =>
    show m.parts = m.fields.map _
    rw [VolumeMount.parts, VolumeMount.fields, VolumeMount.volumeFields, MountBase.parts_eq]
    simp only [List.map_append, map_optional, map_flag, List.map_map, List.append_assoc]
    rfl
  | tmpfs m =>
    show m.parts = (m.fields oct).map _
    rw [TmpfsMount.parts, TmpfsMount.fields, TmpfsMount.tmpfsFields, MountBase.parts_eq]
    simp only [List.map_append, map_optional, Option.map_map, List.append_assoc]
    rfl

theorem MountPoint.str_eq (m : MountPoint) : m.str = formatOptions ',' '=' m.written := by
  unfold str formatOptions
  rw [parts_eq]

/-- A key of an option holds neither a comma nor a sign. -/
def IsKey (key : Text) : Prop := ',' ∉ key ∧ '=' ∉ key

instance (key : Text) : Decidable (IsKey key) := inferInstanceAs (Decidable (_ ∧ _))

theorem key_optional {P : Text → Prop} {key : Text} {value : Option Text} (h : P key) :
    ∀ o ∈ optional key value, P o.1 := by
  cases value <;> simp [optional, h]

theorem key_flag {P : Text → Prop} {key : Text} {b : Bool} (h : P key) : ∀ o ∈ flag key b, P o.1 := by
  cases b <;> simp [flag, h]

theorem key_each {P : Text → Prop} {key : Text} {values : List Text} (h : P key) :
    ∀ o ∈ values.map fun v => (key, some v), P o.1 := by
  intro o ho
  obtain ⟨v, -, rfl⟩ := List.mem_map.mp ho
  exact h

theorem MountBase.isKey (m : MountBase) : ∀ o ∈ m.fields, IsKey o.1 := by
  unfold fields
  simp only [List.forall_mem_append]
  exact ⟨⟨⟨key_optional (by decide), key_optional (by decide)⟩, key_optional (by decide)⟩,
    key_flag (by decide)⟩

theorem MountPoint.isKey (m : MountPoint) : ∀ o ∈ m.written, IsKey o.1 := by
  cases m with
  | bind m =>
    show ∀ o ∈ m.fields, _
    rw [BindMount.fields, List.forall_mem_append]
    exact ⟨m.isKey, key_optional (by decide)⟩
  | volume m =>
    show ∀ o ∈ m.fields, _
    simp only [VolumeMount.fields, VolumeMount.volumeFields, List.forall_mem_append]
    exact ⟨m.isKey, ⟨⟨key_optional (by decide), key_optional (by decide)⟩, key_flag (by decide)⟩,
      key_each (by decide)⟩
  | tmpfs m =>
    show ∀ o ∈ m.fields oct, _
    simp only [TmpfsMount.fields, TmpfsMount.tmpfsFields, List.forall_mem_append]
    exact ⟨m.isKey, key_optional (by decide), key_optional (by decide)⟩

theorem MountPoint.written_ne_nil (m : MountPoint) : m.written ≠ [] := by
  cases m <;> simp [written, BindMount.fields, VolumeMount.fields, TmpfsMount.fields, MountBase.fields,
    optional]

/-! ### Commas -/

/-- The value of an option holds no comma. -/
def NoComma (o : Text × Option Text) : Prop := ∀ v, o.2 = some v → ',' ∉ v

theorem noComma_optional {key : Text} {value : Option Text} :
    (∀ o ∈ optional key value, NoComma o) ↔ ∀ t ∈ value.toList, ',' ∉ t := by
  cases value <;> simp [optional, NoComma]

theorem noComma_flag (key : Text) (b : Bool) : ∀ o ∈ flag key b, NoComma o := by
  cases b <;> simp [flag, NoComma]

/-- The string that is taken for none holds no comma. -/
theorem noComma_given {value : Option Text} :
    (∀ t ∈ (given value).toList, ',' ∉ t) ↔ ∀ t ∈ value.toList, ',' ∉ t := by
  cases value with
  | none => rfl
  | some t =>
    by_cases ht : t = []
    · simp [given, ht]
    · simp [given, ht]

theorem noComma_digits {base : ℕ} (hpos : 0 < base) (hbase : base ≤ 10) (n : ℕ) :
    ',' ∉ Nat.toDigits base n := fun h =>
  absurd (Nat.isDigit_of_mem_toDigits hpos hbase h) (by decide)

theorem noComma_integerText {mark : Text} {base : ℕ} (hmark : ',' ∉ mark) (hpos : 0 < base)
    (hbase : base ≤ 10) (n : ℤ) : ',' ∉ integerText mark base n := by
  unfold integerText
  rw [List.mem_append, List.mem_append, not_or, not_or]
  refine ⟨⟨?_, hmark⟩, noComma_digits hpos hbase _⟩
  split <;> decide

theorem noComma_propagation (b : BindPropagation) : ',' ∉ b.text := by
  cases b <;> decide

theorem MountBase.noComma_iff (m : MountBase) :
    (∀ o ∈ m.fields, NoComma o) ↔ ∀ t ∈ m.texts, ',' ∉ t := by
  unfold fields texts
  simp only [List.forall_mem_append, noComma_optional, noComma_given, List.forall_mem_cons,
    Option.toList_some, List.not_mem_nil, false_imp_iff, forall_true_iff, and_true, and_assoc]
  have hflag := noComma_flag "readonly".toList m.readonly
  tauto

theorem MountPoint.noComma_iff (m : MountPoint) : (∀ o ∈ m.written, NoComma o) ↔ m.Plain := by
  unfold Plain
  cases m with
  | bind m =>
    show (∀ o ∈ m.fields, _) ↔ ∀ t ∈ m.toMountBase.texts, _
    rw [BindMount.fields, List.forall_mem_append, MountBase.noComma_iff, noComma_optional]
    refine and_iff_left fun t ht => ?_
    obtain ⟨b, -, rfl⟩ := Option.map_eq_some_iff.mp (Option.mem_toList.mp ht)
    exact noComma_propagation b
  | volume m =>
    show (∀ o ∈ m.fields, _) ↔ ∀ t ∈ m.toMountBase.texts ++ _ ++ _ ++ _, _
    have hflag := noComma_flag "volume-nocopy".toList m.volumeNocopy
    simp only [VolumeMount.fields, VolumeMount.volumeFields, List.forall_mem_append,
      MountBase.noComma_iff, noComma_optional, noComma_given, List.forall_mem_map]
    simp only [NoComma, Option.some.injEq, forall_eq', and_assoc]
    exact and_congr_right fun _ => and_congr_right fun _ => and_congr_right fun _ => and_iff_right hflag
  | tmpfs m =>
    show (∀ o ∈ m.fields oct, _) ↔ ∀ t ∈ m.toMountBase.texts, _
    simp only [TmpfsMount.fields, TmpfsMount.tmpfsFields, List.forall_mem_append,
      MountBase.noComma_iff, noComma_optional]
    refine and_iff_left ⟨fun t ht => ?_, fun t ht => ?_⟩
    · obtain ⟨n, -, rfl⟩ := Option.map_eq_some_iff.mp (Option.mem_toList.mp ht)
      exact noComma_integerText (by decide) (by decide) (by decide) n
    · obtain ⟨n, -, rfl⟩ := Option.map_eq_some_iff.mp (Option.mem_toList.mp ht)
      exact noComma_integerText (by decide) (by decide) (by decide) n

/-! ### The fields determine the mount -/

theorem valuesOf_optional (key k : Text) (value : Option Text) :
    valuesOf key (optional k value) = if k == key then (value.map some).toList else [] := by
  have hmap : optional k value = (value.map some).toList.map (k, ·) := by cases value <;> rfl
  rw [hmap, valuesOf_map]

theorem valuesOf_flag (key k : Text) (b : Bool) :
    valuesOf key (flag k b) = if k == key then (if b then [none] else []) else [] := by
  have hmap : flag k b = (if b then [none] else []).map (k, ·) := by cases b <;> rfl
  rw [hmap, valuesOf_map]

theorem valuesOf_each (key k : Text) (values : List Text) :
    valuesOf key (values.map fun v => (k, some v)) = if k == key then values.map some else [] := by
  have hmap : (values.map fun v => (k, some v)) = (values.map some).map (k, ·) := by
    rw [List.map_map]
    rfl
  rw [hmap, valuesOf_map]

theorem toList_map_some_inj {a b : Option Text}
    (h : (a.map some).toList = (b.map some).toList) : a = b := by
  cases a <;> cases b <;> simp_all

theorem flag_inj {a b : Bool}
    (h : (if a then [none] else [] : List (Option Text)) = if b then [none] else []) : a = b := by
  cases a <;> cases b <;> simp_all

theorem digits_inj {base n k : ℕ} (hlt : 1 < base) (hle : base ≤ 10)
    (h : Nat.toDigits base n = Nat.toDigits base k) : n = k := by
  rw [← Nat.ofDigitChars_toDigits hlt hle (n := n), h, Nat.ofDigitChars_toDigits hlt hle]

/-- An integer's text is its own. -/
theorem integerText_inj {mark : Text} {base : ℕ} (hmark : '-' ∉ mark) (hlt : 1 < base)
    (hle : base ≤ 10) {n k : ℤ} (h : integerText mark base n = integerText mark base k) : n = k := by
  have hsign {i : ℤ} : '-' ∈ integerText mark base i ↔ i < 0 := by
    have hdigits : '-' ∉ Nat.toDigits base i.natAbs := fun hd =>
      absurd (Nat.isDigit_of_mem_toDigits (by omega) hle hd) (by decide)
    unfold integerText
    rw [List.mem_append, List.mem_append, or_iff_left hdigits, or_iff_left hmark]
    split <;> simp_all
  have hneg : n < 0 ↔ k < 0 := by rw [← hsign, h, hsign]
  unfold integerText at h
  simp only [hneg, List.append_assoc, List.append_cancel_left_eq] at h
  have habs := digits_inj hlt hle h
  omega

/-- A mount with the type of its class, none of whose optional strings is empty and whose options, if
there is a list of them, are some. -/
def MountPoint.Explicit : MountPoint → Prop
  | bind m => m.type = "bind".toList ∧ m.source ≠ some []
  | volume m => m.type = "volume".toList ∧ m.source ≠ some [] ∧ m.volumeDriver ≠ some [] ∧
      m.volumeSubpath ≠ some [] ∧ m.volumeOpt ≠ some []
  | tmpfs m => m.type = "tmpfs".toList ∧ m.source ≠ some []

theorem given_of_ne {value : Option Text} (h : value ≠ some []) : given value = value := by
  cases value with
  | none => rfl
  | some t =>
    have ht : t ≠ [] := fun heq => h (by rw [heq])
    simp [given, ht]

/-- The keys every mount may have. -/
def baseKeys : List Text :=
  ["type".toList, "source".toList, "target".toList, "readonly".toList]

/-- What is common to mounts is determined by the values of its keys. -/
theorem MountBase.eq_of_values {m k : MountBase} (hm : m.source ≠ some []) (hk : k.source ≠ some [])
    (h : ∀ key ∈ baseKeys, valuesOf key m.fields = valuesOf key k.fields) : m = k := by
  have htype := h "type".toList (by decide)
  have hsource := h "source".toList (by decide)
  have htarget := h "target".toList (by decide)
  have hreadonly := h "readonly".toList (by decide)
  simp +decide only [fields, valuesOf_append, valuesOf_optional, valuesOf_flag, ↓reduceIte,
    List.append_nil, List.nil_append] at htype hsource htarget hreadonly
  have hs := toList_map_some_inj hsource
  rw [given_of_ne hm, given_of_ne hk] at hs
  have ht := Option.some.inj (toList_map_some_inj htype)
  have hg := Option.some.inj (toList_map_some_inj htarget)
  obtain ⟨mtype, mtarget, msource, mreadonly⟩ := m
  obtain rfl : _ = _ := ht
  obtain rfl : _ = _ := hs
  obtain rfl : _ = _ := hg
  obtain rfl : _ = _ := flag_inj hreadonly
  rfl

/-- Two mounts with the same fields have the same in common, and the same besides. -/
theorem MountBase.eq_of_fields {m k : MountBase} {more more' : List (Text × Option Text)}
    (hm : m.source ≠ some []) (hk : k.source ≠ some []) (hmore : ∀ o ∈ more, o.1 ∉ baseKeys)
    (hmore' : ∀ o ∈ more', o.1 ∉ baseKeys) (h : m.fields ++ more = k.fields ++ more') :
    m = k ∧ more = more' := by
  have hvalues {m : MountBase} {more : List (Text × Option Text)} (hmore : ∀ o ∈ more, o.1 ∉ baseKeys) :
      ∀ key ∈ baseKeys, valuesOf key (m.fields ++ more) = valuesOf key m.fields := by
    intro key hkey
    have hnone : valuesOf key more = [] := valuesOf_of_ne fun o ho =>
      beq_false_of_ne fun heq => hmore o ho (heq ▸ hkey)
    rw [valuesOf_append, hnone, List.append_nil]
  have heq : m = k := eq_of_values hm hk fun key hkey => by
    rw [← hvalues hmore key hkey, h, hvalues hmore' key hkey]
  subst heq
  exact ⟨rfl, List.append_cancel_left h⟩

theorem BindPropagation.text_inj {a b : BindPropagation} (h : a.text = b.text) : a = b := by
  cases a <;> cases b <;> first | rfl | exact absurd h (by decide)

theorem BindMount.eq_of_fields {m k : BindMount} (hm : m.source ≠ some []) (hk : k.source ≠ some [])
    (h : m.fields = k.fields) : m = k := by
  obtain ⟨hbase, hmore⟩ := MountBase.eq_of_fields hm hk
    (key_optional (P := (· ∉ baseKeys)) (by decide)) (key_optional (P := (· ∉ baseKeys)) (by decide)) h
  have hprop := congrArg (valuesOf "bind-propagation".toList) hmore
  simp +decide only [valuesOf_optional, ↓reduceIte] at hprop
  have hb := Option.map_injective (fun _ _ => BindPropagation.text_inj) (toList_map_some_inj hprop)
  obtain ⟨_, _⟩ := m
  exact congr (congrArg mk hbase) hb

theorem VolumeMount.notMem_baseKeys (m : VolumeMount) : ∀ o ∈ m.volumeFields, o.1 ∉ baseKeys := by
  unfold volumeFields
  simp only [List.forall_mem_append]
  exact ⟨⟨⟨key_optional (P := (· ∉ baseKeys)) (by decide), key_optional (P := (· ∉ baseKeys)) (by decide)⟩,
    key_flag (P := (· ∉ baseKeys)) (by decide)⟩, key_each (P := (· ∉ baseKeys)) (by decide)⟩

/-- A list of options that is not empty if it is there. -/
theorem getD_nil_inj {a b : Option (List Text)} (ha : a ≠ some []) (hb : b ≠ some [])
    (h : a.getD [] = b.getD []) : a = b := by
  cases a <;> cases b <;> simp_all [eq_comm]

theorem VolumeMount.eq_of_fields {m k : VolumeMount} (hm : (MountPoint.volume m).Explicit)
    (hk : (MountPoint.volume k).Explicit) (h : m.fields = k.fields) : m = k := by
  obtain ⟨-, hm, hmd, hms, hmo⟩ := hm
  obtain ⟨-, hk, hkd, hks, hko⟩ := hk
  obtain ⟨hbase, heq⟩ := MountBase.eq_of_fields hm hk m.notMem_baseKeys k.notMem_baseKeys h
  have hdriver := congrArg (valuesOf "volume-driver".toList) heq
  have hsubpath := congrArg (valuesOf "volume-subpath".toList) heq
  have hnocopy := congrArg (valuesOf "volume-nocopy".toList) heq
  have hopt := congrArg (valuesOf "volume-opt".toList) heq
  simp +decide only [volumeFields, valuesOf_append, valuesOf_optional, valuesOf_flag, valuesOf_each,
    ↓reduceIte, List.append_nil, List.nil_append] at hdriver hsubpath hnocopy hopt
  have hd := toList_map_some_inj hdriver
  have hs := toList_map_some_inj hsubpath
  rw [given_of_ne hmd, given_of_ne hkd] at hd
  rw [given_of_ne hms, given_of_ne hks] at hs
  have ho := getD_nil_inj hmo hko (List.map_injective_iff.mpr (Option.some_injective _) hopt)
  obtain ⟨_, _, _, _, _⟩ := m
  exact congr (congr (congr (congr (congrArg mk hbase) hd) hs) (flag_inj hnocopy)) ho

theorem TmpfsMount.notMem_baseKeys (m : TmpfsMount) :
    ∀ o ∈ m.tmpfsFields oct, o.1 ∉ baseKeys := by
  unfold tmpfsFields
  rw [List.forall_mem_append]
  exact ⟨key_optional (P := (· ∉ baseKeys)) (by decide), key_optional (P := (· ∉ baseKeys)) (by decide)⟩

theorem TmpfsMount.eq_of_fields {m k : TmpfsMount} (hm : m.source ≠ some []) (hk : k.source ≠ some [])
    (h : m.fields oct = k.fields oct) : m = k := by
  obtain ⟨hbase, heq⟩ := MountBase.eq_of_fields hm hk m.notMem_baseKeys k.notMem_baseKeys h
  have hsize := congrArg (valuesOf "tmpfs-size".toList) heq
  have hmode := congrArg (valuesOf "tmpfs-mode".toList) heq
  simp +decide only [tmpfsFields, valuesOf_append, valuesOf_optional, ↓reduceIte, List.append_nil,
    List.nil_append] at hsize hmode
  have hs := Option.map_injective (fun _ _ => integerText_inj (by decide) (by decide) (by decide))
    (toList_map_some_inj hsize)
  have hd := Option.map_injective (fun _ _ => integerText_inj (by decide) (by decide) (by decide))
    (toList_map_some_inj hmode)
  obtain ⟨_, _, _⟩ := m
  exact congr (congr (congrArg mk hbase) hs) hd

/-- The type of a mount is the first of its fields. -/
theorem MountPoint.head_written (m : MountPoint) :
    m.written.head? = some ("type".toList, some m.type) := by
  cases m <;> rfl

theorem MountPoint.eq_of_written {m k : MountPoint} (hm : m.Explicit) (hk : k.Explicit)
    (h : m.written = k.written) : m = k := by
  have htype := m.head_written
  rw [h, k.head_written] at htype
  have htype := Option.some.inj (congrArg Prod.snd (Option.some.inj htype))
  cases m with
  | bind m =>
    cases k with
    | bind k => exact congrArg _ (BindMount.eq_of_fields hm.2 hk.2 h)
    | volume k => exact absurd (hk.1.symm.trans (htype.trans hm.1)) (by decide)
    | tmpfs k => exact absurd (hk.1.symm.trans (htype.trans hm.1)) (by decide)
  | volume m =>
    cases k with
    | bind k => exact absurd (hk.1.symm.trans (htype.trans hm.1)) (by decide)
    | volume k => exact congrArg _ (VolumeMount.eq_of_fields hm hk h)
    | tmpfs k => exact absurd (hk.1.symm.trans (htype.trans hm.1)) (by decide)
  | tmpfs m =>
    cases k with
    | bind k => exact absurd (hk.1.symm.trans (htype.trans hm.1)) (by decide)
    | volume k => exact absurd (hk.1.symm.trans (htype.trans hm.1)) (by decide)
    | tmpfs k => exact congrArg _ (TmpfsMount.eq_of_fields hm.2 hk.2 h)

/-! ### What the CLI reads -/

theorem MountPoint.read_written_iff (m : MountPoint) : readMount m.str = m.written ↔ m.Plain := by
  rw [readMount, str_eq, readOptions_formatOptions_iff (by decide) m.isKey,
    and_iff_right m.written_ne_nil]
  exact m.noComma_iff

theorem MountPoint.fields_eq {m : MountPoint} (h : m.mode = none) : m.fields = m.written := by
  cases m with
  | bind => rfl
  | volume => rfl
  | tmpfs m =>
    have hmode : m.tmpfsMode = none := h
    show m.fields octal = m.fields oct
    rw [TmpfsMount.fields, TmpfsMount.fields, TmpfsMount.tmpfsFields, TmpfsMount.tmpfsFields, hmode]
    rfl

theorem length_oct (n : ℤ) : (oct n).length = (octal n).length + 2 := by
  unfold oct octal integerText
  simp only [List.length_append, List.length_nil]
  rw [show "0o".toList.length = 2 from rfl]
  omega

/-- The mode is the last of the options, and two characters longer than its digits. -/
theorem MountPoint.mode_eq_none {m : MountPoint} (h : readMount m.str = m.fields) :
    m.mode = none := by
  cases m with
  | bind => rfl
  | volume => rfl
  | tmpfs m =>
    have hjoin : formatOptions ',' '=' (m.fields octal) = formatOptions ',' '=' (m.fields oct) :=
      calc formatOptions ',' '=' (m.fields octal)
        _ = formatOptions ',' '=' (readMount (tmpfs m).str) := congrArg _ h.symm
        _ = (tmpfs m).str := formatOptions_readOptions ',' '=' _
        _ = formatOptions ',' '=' (m.fields oct) := (tmpfs m).str_eq
    show m.tmpfsMode = none
    cases hmode : m.tmpfsMode with
    | none => rfl
    | some n =>
      have hlast (mode : ℤ → Text) : m.fields mode = (m.toMountBase.fields ++
          optional "tmpfs-size".toList (m.tmpfsSize.map intText)) ++
            [("tmpfs-mode".toList, some (mode n))] := by
        rw [TmpfsMount.fields, TmpfsMount.tmpfsFields, hmode, List.append_assoc]
        rfl
      rw [hlast, hlast] at hjoin
      have hlen := congrArg List.length (formatOption_of_append hjoin)
      simp only [formatOption, List.length_append, List.length_cons, length_oct] at hlen
      omega

theorem MountPoint.read_iff (m : MountPoint) :
    readMount m.str = m.fields ↔ m.Plain ∧ m.mode = none := by
  constructor
  · intro h
    have hmode := mode_eq_none h
    exact ⟨m.read_written_iff.mp (h.trans (fields_eq hmode)), hmode⟩
  · intro ⟨hplain, hmode⟩
    rw [fields_eq hmode]
    exact m.read_written_iff.mpr hplain

/-- **When a mount's option says what was configured.** The CLI reads in it the fields that were set,
with their values, and no others, just if no string of the mount holds a comma and no mode is set. Of
mounts without commas, two have one option just if they write the same fields, and so different ones
have different options, the type of each being that of its class and nothing set to an empty value. -/
theorem mount_decodes_iff (m : MountPoint) :
    (readMount m.str = m.fields ↔ (∀ t ∈ m.texts, ',' ∉ t) ∧ m.mode = none) ∧
    ∀ k : MountPoint, (∀ t ∈ m.texts, ',' ∉ t) → (∀ t ∈ k.texts, ',' ∉ t) →
      (m.str = k.str ↔ m.written = k.written) ∧
      (m.Explicit → k.Explicit → m ≠ k → m.str ≠ k.str) := by
  refine ⟨m.read_iff, fun k hm hk => ?_⟩
  have hwritten : m.str = k.str ↔ m.written = k.written := by
    constructor
    · intro h
      rw [← m.read_written_iff.mpr hm, h, k.read_written_iff.mpr hk]
    · intro h
      rw [m.str_eq, h, ← k.str_eq]
  exact ⟨hwritten, fun hme hke hne h => hne (MountPoint.eq_of_written hme hke (hwritten.mp h))⟩

/-- A folder with a comma in its name: the CLI reads two options that nobody set, and a source that is
not the folder. And the option of a volume is that of another one, which is read-only. -/
theorem mount_comma :
    (readMount (MountPoint.bind (.fromPath id "/ws/a,b".toList)).str ≠
      (MountPoint.bind (.fromPath id "/ws/a,b".toList)).fields) ∧
    (MountPoint.volume { target := "/t,readonly".toList }).str =
      (MountPoint.volume { target := "/t".toList, readonly := true }).str := by
  decide

example : readMount (MountPoint.tmpfs { target := "/t".toList, tmpfsMode := some 493 }).str =
    [("type".toList, some "tmpfs".toList), ("target".toList, some "/t".toList),
      ("tmpfs-mode".toList, some "0o755".toList)] := by
  decide

/-! ### The mounts of a server -/

/-- The mount of a folder says that the folder is mounted at its own path just if there is no comma in
the path. -/
theorem folder_mount_decodes_iff {resolve : Text → Text} {folder : Text} (h : resolve folder ≠ []) :
    readMount (formatMount resolve (.path folder)) = [("type".toList, some "bind".toList),
      ("source".toList, some (resolve folder)), ("target".toList, some (resolve folder))] ↔
      ',' ∉ resolve folder := by
  have hfields : (MountPoint.bind (.fromPath resolve folder)).fields = [("type".toList,
      some "bind".toList), ("source".toList, some (resolve folder)),
      ("target".toList, some (resolve folder))] := by
    show MountBase.fields _ ++ _ = _
    rw [MountBase.fields, BindMount.fromPath, given_of_ne fun heq => h (Option.some.inj heq)]
    rfl
  have hread := (MountPoint.bind (.fromPath resolve folder)).read_written_iff
  rw [← MountPoint.fields_eq rfl, hfields] at hread
  rw [formatMount, hread]
  simp [MountPoint.Plain, MountPoint.texts, MountBase.texts, BindMount.fromPath]

/-- The mount that `format_args` makes of a folder. -/
theorem bindMount_eq {ω τ : Type} {env : Env ω τ} {folder : Text} (h : env.resolve folder ≠ []) :
    bindMount env folder = formatMount env.resolve (.path folder) := by
  have hparts : (MountPoint.bind (.fromPath env.resolve folder)).parts = ["type=bind".toList,
      "source=".toList ++ env.resolve folder, "target=".toList ++ env.resolve folder] := by
    have hgiven : given (some (env.resolve folder)) = some (env.resolve folder) :=
      given_of_ne fun heq => h (Option.some.inj heq)
    show MountBase.parts _ ++ _ = _
    rw [MountBase.parts, BindMount.fromPath, hgiven]
    rfl
  have hsource : "type=bind,source=".toList = "type=bind".toList ++ ',' :: "source=".toList := rfl
  have htarget : ",target=".toList = ',' :: "target=".toList := rfl
  unfold bindMount
  show _ = MountPoint.str _
  unfold MountPoint.str
  rw [hparts, hsource, htarget, List.intercalate_cons_cons, List.intercalate_cons_cons,
    List.intercalate_singleton]
  simp only [List.append_assoc, List.cons_append, List.nil_append]

/-- **What `format_args` gives the CLI**: after `--mount` the option of each mount, then of each folder. -/
theorem formatArgs_mounts {ω τ : Type} {env : Env ω τ} {server : ContainerServer} {mounts : List Mount}
    {folders args : List Text} (hresolve : ∀ p, env.resolve p ≠ [])
    (hmounts : server.mounts = mounts.map (formatMount env.resolve))
    (h : server.formatArgs env folders = .ok args) :
    ∃ before after, args = before ++ ((mounts ++ folders.map Mount.path).flatMap fun m =>
      ["--mount".toList, formatMount env.resolve m]) ++ after := by
  have hfolders : folders.map (bindMount env) =
      (folders.map Mount.path).map (formatMount env.resolve) := by
    rw [List.map_map]
    exact List.map_congr_left fun folder _ => bindMount_eq (hresolve folder)
  unfold formatArgs at h
  cases hdir : server.getEffectiveWorkdir env folders with
  | error e =>
    rw [hdir] at h
    cases h
  | ok workdir =>
    rw [hdir] at h
    obtain rfl := Except.ok.inj h
    rw [hmounts, hfolders, ← List.map_append, List.flatMap_map]
    exact ⟨_, _, List.append_assoc _ _ _⟩

end Mounts
end LspClient
