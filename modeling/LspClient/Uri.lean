/-
# URIs and paths

`from_local_uri`, and the `as_uri` and `from_uri` of a client, over
`urllib.parse` and the POSIX paths of `pathlib`. A `Path` has only the parts
`pathlib` keeps, so none is empty, `.` or holds a `/`. A part is a text: names
that are not UTF-8, which Python holds as surrogate escapes, are not modelled.

`from_local_uri` unquotes twice. It takes the URI of an absolute path back to
the path just if there is no `%` with two hexadecimal digits after it in the
path (`from_local_uri_as_uri`): a path is no longer than the text it is made
of (`length_toText_ofText`), and the second unquoting makes the text shorter
if it reads anything.

Key definitions: `Path`, `urlparse`, `fromLocalUri`, `Workspace`, `asUri`, `fromUri`.
Key theorems: `ofText_toText`, `fromLocalUri_asUri`, `from_local_uri_as_uri`.
-/
import LspClient.Lib.Percent
import LspClient.Text
import Mathlib.Data.List.AList
import Mathlib.Algebra.Order.BigOperators.Group.List
import Mathlib.Algebra.Order.Group.Nat
import Mathlib.Algebra.GroupWithZero.Nat

namespace LspClient

open ByteStream Percent

/-- A document URI, a `str`. -/
abbrev Uri := Text

/-- What the conversions raise. -/
inductive UriError where
  | valueError (message : Text)
  | keyError (key : Text)
  | indexError
  deriving DecidableEq, Repr

/-! ### Paths -/

/-- What a path begins with. -/
inductive Root where
  | none
  | slash
  | doubleSlash
  deriving DecidableEq, Repr

def Root.text : Root → Text
  | .none => []
  | .slash => ['/']
  | .doubleSlash => ['/', '/']

/-- Is this a part that `pathlib` keeps? -/
def isPart (t : Text) : Bool := t ≠ [] ∧ t ≠ ['.'] ∧ '/' ∉ t

/-- A part of a path. -/
abbrev Part := { t : Text // isPart t = true }

/-- A `PurePosixPath`. -/
structure Path where
  root : Root
  parts : List Part
  deriving DecidableEq, Repr

namespace Path

/-- `str(path)`. -/
def toText (p : Path) : Text :=
  if p.root = .none ∧ p.parts = [] then ['.']
  else p.root.text ++ List.intercalate ['/'] (p.parts.map (·.1))

/-- The parts of what follows the root. -/
def partsOf (t : Text) : List Part :=
  (t.splitOn '/').filterMap fun s => if h : isPart s = true then some ⟨s, h⟩ else none

/-- `Path(str)`. -/
def ofText (t : Text) : Path :=
  match t with
  | '/' :: '/' :: '/' :: _ => ⟨.slash, partsOf t⟩
  | '/' :: '/' :: _ => ⟨.doubleSlash, partsOf t⟩
  | '/' :: _ => ⟨.slash, partsOf t⟩
  | _ => ⟨.none, partsOf t⟩

def isAbsolute (p : Path) : Bool := p.root ≠ .none

/-- `p / q`. -/
def join (p q : Path) : Path := if q.isAbsolute then q else ⟨p.root, p.parts ++ q.parts⟩

/-- `p.is_relative_to(q)`. -/
def isRelativeTo (p q : Path) : Bool := p.root = q.root && q.parts.isPrefixOf p.parts

/-- `p.relative_to(q)` of a path that is relative to `q`. -/
def relativeTo (p q : Path) : Path := ⟨.none, p.parts.drop q.parts.length⟩

/-- `path.parent`. -/
def parent (p : Path) : Path := ⟨p.root, p.parts.dropLast⟩

/-- `path.as_uri()`. -/
def asUri (p : Path) : Except UriError Uri :=
  if p.isAbsolute then .ok ("file://".toList ++ quoteFromBytes (encodeUtf8 p.toText))
  else .error (.valueError "relative path can't be expressed as a file URI".toList)

end Path

/-! ### `urlparse` -/

/-- The schemes whose last path segment can have parameters. -/
def usesParams : List Text :=
  ["", "ftp", "hdl", "prospero", "http", "https", "shttp", "rtsp", "rtspu", "sip", "sips", "mms",
    "sftp", "tel"].map String.toList

def isSchemeChar (c : Char) : Bool := c.isAlphanum || c = '+' || c = '-' || c = '.'

/-- The scheme and what follows it. -/
def splitScheme (url : Text) : Text × Text :=
  let scheme := url.takeWhile (· ≠ ':')
  match url.dropWhile (· ≠ ':') with
  | ':' :: rest =>
    if scheme.head?.any Char.isAlpha && scheme.all isSchemeChar then
      (scheme.map Char.toLower, rest)
    else ([], url)
  | _ => ([], url)

/-- `_splitnetloc`. -/
def splitNetloc (url : Text) : Text × Text :=
  match url with
  | '/' :: '/' :: rest =>
    (rest.takeWhile fun c => !"/?#".toList.contains c, rest.dropWhile fun c => !"/?#".toList.contains c)
  | _ => ([], url)

/-- The path of `_splitparams`: without the parameters of its last segment. -/
def splitParams (url : Text) : Text :=
  let last := (url.reverse.takeWhile (· ≠ '/')).reverse
  url.take (url.length - last.length) ++ last.takeWhile (· ≠ ';')

/-- `urlparse(url).path`. `netlocError` is what the checks of a bracketed or a
non-ASCII host raise. -/
def urlparse (netlocError : Text → Option Text) (url : Text) : Except UriError Text :=
  let url := (url.dropWhile (·.toNat ≤ 0x20)).filter fun c => !"\t\r\n".toList.contains c
  let (scheme, url) := splitScheme url
  let (netloc, url) := splitNetloc url
  if netloc.contains '[' ≠ netloc.contains ']' then .error (.valueError "Invalid IPv6 URL".toList)
  else match if netloc.all (·.toNat < 0x80) && !netloc.contains '[' then none else netlocError netloc with
    | some message => .error (.valueError message)
    | none =>
      let path := (url.takeWhile (· ≠ '#')).takeWhile (· ≠ '?')
      .ok (if usesParams.contains scheme then splitParams path else path)

/-- `url2pathname` on POSIX. -/
def url2pathname (pathname : Text) : Text := unquote pathname

/-- `from_local_uri`. -/
def fromLocalUri (netlocError : Text → Option Text) (uri : Uri) : Except UriError Path := do
  let path ← urlparse netlocError uri
  return Path.ofText (unquote (url2pathname path))

/-! ### The workspace -/

/-- `WorkspaceFolder`. -/
structure WorkspaceFolder where
  uri : Uri
  name : Text
  deriving DecidableEq, Repr

/-- `Workspace`, a dictionary. -/
abbrev Workspace := AList fun _ : Text => WorkspaceFolder

def workspaceRootDir : Text := "__root__".toList

section Workspace

variable (netlocError : Text → Option Text) (ws : Workspace)

/-- `folder.path`. -/
def WorkspaceFolder.path (f : WorkspaceFolder) : Except UriError Path :=
  fromLocalUri netlocError f.uri

/-- `workspace[name].path`. -/
def folderPath (name : Text) : Except UriError Path :=
  match ws.lookup name with
  | some f => f.path netlocError
  | none => .error (.keyError name)

/-- Is the path in one of the folders? -/
def inWorkspace (p : Path) : Except UriError Bool :=
  (ws.entries.map Sigma.snd).anyM fun f => return p.isRelativeTo (← f.path netlocError)

/-- `as_uri`. -/
def asUri (p : Path) : Except UriError Uri := do
  if p.isAbsolute then
    if ← inWorkspace netlocError ws p then p.asUri
    else throw (.valueError (p.toText ++ " is not a valid workspace file path".toList))
  else if ws.entries.length = 1 then
    ((← folderPath netlocError ws workspaceRootDir).join p).asUri
  else match p.parts with
    | [] => throw .indexError
    | root :: parts =>
      if (ws.lookup root.1).isNone then
        throw (.valueError (root.1 ++ " is not a valid workspace folder".toList))
      else ((← folderPath netlocError ws root.1).join ⟨.none, parts⟩).asUri

/-- The loop of `from_uri` over the folders. -/
def relativeToFolder (p : Path) : List (Σ _ : Text, WorkspaceFolder) → Except UriError Path
  | [] => .ok p
  | ⟨name, f⟩ :: fs => do
    let q ← f.path netlocError
    if p.isRelativeTo q then return (Path.ofText name).join (p.relativeTo q)
    else relativeToFolder p fs

/-- `from_uri`. -/
def fromUri (uri : Uri) (relative : Bool := true) : Except UriError Path := do
  let path ← fromLocalUri netlocError uri
  if !relative then return path
  else match if ws.entries.length = 1 then ws.lookup workspaceRootDir else none with
    | some f =>
      let q ← f.path netlocError
      return if path.isRelativeTo q then path.relativeTo q else path
    | none => relativeToFolder netlocError path ws.entries

end Workspace

/-! ### From a path to its URI and back -/

namespace Path

theorem isPart_iff {t : Text} : isPart t = true ↔ t ≠ [] ∧ t ≠ ['.'] ∧ '/' ∉ t := by
  rw [isPart, decide_eq_true_eq]

theorem partsOf_slash (t : Text) : partsOf ('/' :: t) = partsOf t := by
  have h := List.splitOn_append_cons_self_of_not_mem (List.not_mem_nil (a := '/')) t
  rw [List.nil_append] at h
  rw [partsOf, h, List.filterMap_cons]
  rfl

theorem partsOf_intercalate {parts : List Part} (hp : parts ≠ []) :
    partsOf (List.intercalate ['/'] (parts.map (·.1))) = parts := by
  have hno : ∀ t ∈ parts.map (·.1), '/' ∉ t := by
    intro t ht
    obtain ⟨x, -, rfl⟩ := List.mem_map.mp ht
    exact (isPart_iff.mp x.2).2.2
  rw [partsOf, List.splitOn_intercalate '/' hno fun h => hp (List.map_eq_nil_iff.mp h),
    List.filterMap_map]
  conv_rhs => rw [← List.filterMap_some (l := parts)]
  refine List.filterMap_congr fun x _ => ?_
  simp only [Function.comp, x.2, ↓reduceDIte]

/-- The text of some parts does not begin with a slash. -/
theorem intercalate_head {parts : List Part} (hp : parts ≠ []) :
    ∃ c cs, c ≠ '/' ∧ List.intercalate ['/'] (parts.map (·.1)) = c :: cs := by
  obtain ⟨x, xs, rfl⟩ := List.exists_cons_of_ne_nil hp
  obtain ⟨hne, -, hno⟩ := isPart_iff.mp x.2
  obtain ⟨c, cs, hx⟩ := List.exists_cons_of_ne_nil hne
  have hc : c ≠ '/' := fun h => hno (by rw [hx, h]; exact List.mem_cons_self)
  cases xs with
  | nil => exact ⟨c, cs, hc, by simp [hx]⟩
  | cons y ys => exact ⟨c, _, hc, by rw [List.map_cons, hx]; rfl⟩

/-- **A path is read back from its text.** -/
theorem ofText_toText (p : Path) : ofText p.toText = p := by
  obtain ⟨root, parts⟩ := p
  by_cases hp : parts = []
  · subst hp
    cases root <;> rfl
  · obtain ⟨c, cs, hc, hcs⟩ := intercalate_head hp
    have hparts := partsOf_intercalate hp
    rw [toText, if_neg fun h => hp h.2]
    simp only [hcs] at hparts ⊢
    have hne : ∀ rest, c :: cs ≠ '/' :: rest := fun rest h => hc (List.cons.inj h).1
    cases root with
    | none =>
      show ofText (c :: cs) = _
      rw [ofText, hparts] <;> exact fun rest h => hne _ h
    | slash =>
      show ofText ('/' :: c :: cs) = _
      rw [ofText, partsOf_slash, hparts] <;> exact fun rest h => hne _ h
    | doubleSlash =>
      show ofText ('/' :: '/' :: c :: cs) = _
      rw [ofText, partsOf_slash, partsOf_slash, hparts]
      exact fun rest h => hne _ h

theorem toText_slash {p : Path} (h : p.isAbsolute = true) : ∃ t, p.toText = '/' :: t := by
  obtain ⟨root, parts⟩ := p
  cases root with
  | none => cases h
  | slash => exact ⟨_, rfl⟩
  | doubleSlash => exact ⟨_, rfl⟩

/-- Only an absolute path has a URI. -/
theorem asUri_ok {p : Path} {u : Uri} (h : p.asUri = .ok u) :
    p.isAbsolute = true ∧ u = "file://".toList ++ quoteFromBytes (encodeUtf8 p.toText) := by
  unfold asUri at h
  split at h
  · rename_i habs
    cases h
    exact ⟨habs, rfl⟩
  · cases h

/-! #### A path is no longer than its text -/

theorem length_intercalate (ls : List Text) :
    (List.intercalate ['/'] ls).length = (ls.map (·.length + 1)).sum - 1 := by
  induction ls with
  | nil => rfl
  | cons l ls ih =>
    cases ls with
    | nil => simp only [List.intercalate_singleton, List.map_cons, List.map_nil, List.sum_cons,
        List.sum_nil, Nat.add_zero, Nat.add_sub_cancel]
    | cons m ls =>
      rw [List.intercalate_cons_cons, List.length_append, ih]
      simp only [List.length_append, List.length_cons, List.length_nil, List.map_cons,
        List.sum_cons]
      omega

/-- The parts of a text are among the pieces between its slashes. -/
theorem partsOf_sublist (t : Text) : ((partsOf t).map (·.1)).Sublist (t.splitOn '/') := by
  rw [partsOf]
  induction t.splitOn '/' with
  | nil => exact List.Sublist.slnil
  | cons s ss ih =>
    rw [List.filterMap_cons]
    split
    · exact ih.cons s
    · rename_i x hx
      split at hx
      · cases hx
        exact ih.cons_cons s
      · cases hx

theorem length_partsOf (t : Text) :
    (List.intercalate ['/'] ((partsOf t).map (·.1))).length ≤ t.length := by
  have hsum : (((partsOf t).map (·.1)).map (·.length + 1)).sum ≤
      ((t.splitOn '/').map (·.length + 1)).sum :=
    ((partsOf_sublist t).map _).sum_le_sum fun _ _ => Nat.zero_le _
  calc (List.intercalate ['/'] ((partsOf t).map (·.1))).length
      = (((partsOf t).map (·.1)).map (·.length + 1)).sum - 1 := length_intercalate _
    _ ≤ ((t.splitOn '/').map (·.length + 1)).sum - 1 := Nat.sub_le_sub_right hsum 1
    _ = (List.intercalate ['/'] (t.splitOn '/')).length := (length_intercalate _).symm
    _ = t.length := by rw [List.intercalate_splitOn]

theorem length_toText {root : Root} (h : root ≠ .none) (t : Text) :
    (Path.mk root (partsOf t)).toText.length ≤ root.text.length + t.length := by
  rw [toText, if_neg fun hroot => h hroot.1, List.length_append]
  exact Nat.add_le_add_left (length_partsOf t) _

theorem length_toText_ofText {t : Text} (h : ∃ s, t = '/' :: s) :
    (ofText t).toText.length ≤ t.length := by
  obtain ⟨s, rfl⟩ := h
  unfold ofText
  split
  · rename_i r heq
    cases heq
    rw [partsOf_slash, partsOf_slash, partsOf_slash]
    refine (length_toText (by decide) r).trans ?_
    simp only [Root.text, List.length_cons, List.length_nil]
    omega
  · rename_i r _ heq
    cases heq
    rw [partsOf_slash, partsOf_slash]
    refine (length_toText (by decide) r).trans ?_
    simp only [Root.text, List.length_cons, List.length_nil]
    omega
  · rw [partsOf_slash]
    refine (length_toText (by decide) s).trans ?_
    simp only [Root.text, List.length_cons, List.length_nil]
    omega
  · rename_i hne
    exact absurd rfl (hne s)

end Path

/-- Quoting leaves safe characters and `%`. -/
theorem quoteFromBytes_safe {bs : Bytes} {c : Char} (h : c ∈ quoteFromBytes bs) :
    isSafe c = true ∨ c = '%' := by
  obtain ⟨b, -, hc⟩ := List.mem_flatMap.mp h
  unfold quoteByte at hc
  by_cases hs : isSafe (Char.ofNat b.toNat) = true
  · simp only [hs, ↓reduceIte, List.mem_singleton] at hc
    exact .inl (hc ▸ hs)
  · have hb : b.toNat < 256 := UInt8.toNat_lt_size b
    simp only [hs, Bool.false_eq_true, ↓reduceIte, List.mem_cons, List.not_mem_nil, or_false] at hc
    rcases hc with rfl | rfl | rfl
    · exact .inr rfl
    · exact .inl (isSafe_hexUpper _ (by omega))
    · exact .inl (isSafe_hexUpper _ (by omega))

/-- What `urlparse` looks for is not in a quoted text. -/
theorem quoteFromBytes_ne {bs : Bytes} {c d : Char} (h : c ∈ quoteFromBytes bs)
    (hd : isSafe d = false) (hp : d ≠ '%') : c ≠ d := by
  rintro rfl
  rcases quoteFromBytes_safe h with hs | hs
  · rw [hd] at hs
    cases hs
  · exact hp hs

theorem urlparse_quoted (netlocError : Text → Option Text) {t : Text} (ht : ∃ s, t = '/' :: s) :
    urlparse netlocError ("file://".toList ++ quoteFromBytes (encodeUtf8 t)) =
      .ok (quoteFromBytes (encodeUtf8 t)) := by
  obtain ⟨s, rfl⟩ := ht
  have hq : quoteFromBytes (encodeUtf8 ('/' :: s)) = '/' :: quoteFromBytes (encodeUtf8 s) := rfl
  have hne : ∀ c ∈ quoteFromBytes (encodeUtf8 ('/' :: s)), ∀ d, isSafe d = false → d ≠ '%' → c ≠ d :=
    fun c hc d => quoteFromBytes_ne hc
  generalize quoteFromBytes (encodeUtf8 ('/' :: s)) = q at hq hne ⊢
  have hstrip : (("file://".toList ++ q).dropWhile (·.toNat ≤ 0x20)).filter
      (fun c => !"\t\r\n".toList.contains c) = "file://".toList ++ q := by
    have hfile : "file://".toList.filter (fun c => !"\t\r\n".toList.contains c) = "file://".toList := by
      decide
    show ("file://".toList ++ q).filter _ = _
    rw [List.filter_append, hfile, List.filter_eq_self.mpr]
    intro c hc
    have h1 := hne c hc '\t' (by decide) (by decide)
    have h2 := hne c hc '\r' (by decide) (by decide)
    have h3 := hne c hc '\n' (by decide) (by decide)
    simp [h1, h2, h3]
  have hscheme : splitScheme ("file://".toList ++ q) = ("file".toList, '/' :: '/' :: q) := rfl
  have hnetloc : splitNetloc ('/' :: '/' :: q) = ([], q) := by rw [hq]; rfl
  have hpath : (q.takeWhile (· ≠ '#')).takeWhile (· ≠ '?') = q := by
    have hhash : q.takeWhile (· ≠ '#') = q := List.takeWhile_eq_self_iff.mpr fun c hc => by
      simpa using hne c hc '#' (by decide) (by decide)
    rw [hhash]
    exact List.takeWhile_eq_self_iff.mpr fun c hc => by
      simpa using hne c hc '?' (by decide) (by decide)
  unfold urlparse
  simp only [hstrip, hscheme, hnetloc, hpath]
  rfl

/-- The URI of an absolute path leads to the path with its text unquoted. -/
theorem fromLocalUri_quoted (netlocError : Text → Option Text) {p : Path} (h : p.isAbsolute = true) :
    (p.asUri >>= fromLocalUri netlocError) = .ok (Path.ofText (unquote p.toText)) := by
  rw [Path.asUri, if_pos h]
  show fromLocalUri netlocError _ = _
  rw [fromLocalUri, urlparse_quoted netlocError (p.toText_slash h)]
  show Except.ok (Path.ofText (unquote (url2pathname _))) = _
  rw [url2pathname, unquote_quote]

theorem ofText_unquote {p : Path} (h : p.isAbsolute = true) :
    Path.ofText (unquote p.toText) = p ↔ hasEscape p.toText = false := by
  constructor
  · intro heq
    obtain ⟨s, hs⟩ := p.toText_slash h
    have hlen := length_unquoteFrom none p.toText
    have hunquote : ∃ t, unquote p.toText = '/' :: t := ⟨unquote s, by rw [hs]; rfl⟩
    have hle := Path.length_toText_ofText hunquote
    rw [heq] at hle
    have hnone : (flush none).length = 0 := rfl
    have hun : (unquote p.toText).length = (unquoteFrom none p.toText).length := rfl
    cases he : hasEscape p.toText with
    | false => rfl
    | true =>
      rw [he, Bool.toNat_true] at hlen
      omega
  · intro he
    rw [unquote_eq_self_iff.mpr he, Path.ofText_toText]

/-- The URI of an absolute path leads back to it if there is no `%` in the path. -/
theorem fromLocalUri_asUri (netlocError : Text → Option Text) {p : Path} {u : Uri}
    (h : p.asUri = .ok u) (hp : '%' ∉ p.toText) : fromLocalUri netlocError u = .ok p := by
  obtain ⟨habs, -⟩ := Path.asUri_ok h
  have hquoted := fromLocalUri_quoted netlocError habs
  rw [h, (ofText_unquote habs).mpr (hasEscape_plain hp)] at hquoted
  exact hquoted

/-- **The URI of an absolute path leads back to it**, just if the second
unquoting finds nothing to read in the path. -/
theorem from_local_uri_as_uri (netlocError : Text → Option Text) (p : Path) (h : p.isAbsolute = true) :
    (p.asUri >>= fromLocalUri netlocError) = .ok p ↔ hasEscape p.toText = false := by
  rw [fromLocalUri_quoted netlocError h, ← ofText_unquote h]
  exact ⟨Except.ok.inj, congrArg _⟩

/-- A name with a `%`, a space and a letter that is not ASCII. -/
theorem from_local_uri_as_uri_percent :
    ((Path.ofText "/ws/100% é".toList).asUri >>= fromLocalUri fun _ => none) =
      .ok (Path.ofText "/ws/100% é".toList) :=
  (from_local_uri_as_uri (fun _ => none) _ (by decide)).mpr (by decide)

/-- **A name that looks like an escape** is read as what it looks like. -/
theorem from_local_uri_unquotes_twice :
    (Path.ofText "/ws/a%41".toList).isAbsolute = true ∧
    (Path.ofText "/ws/a%41".toList).asUri = .ok "file:///ws/a%2541".toList ∧
    fromLocalUri (fun _ => none) "file:///ws/a%2541".toList = .ok (Path.ofText "/ws/aA".toList) ∧
    Path.ofText "/ws/aA".toList ≠ Path.ofText "/ws/a%41".toList := by decide

end LspClient
