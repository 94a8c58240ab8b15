/-
# JSON-RPC frames

`jsonrpc/parse.py` and the read loop of `StreamServer`. `write_raw_package`
puts `Content-Length: n`, an empty line and the `n` bytes of the package's
JSON on the stream; `read_raw_package` reads one header line, discards what
stands up to the next line end, and reads `n` bytes.

* `dispatch_frames`: the read loop over the frames of any packages, received
  in any chunks, hands out exactly these packages and stops.
* `read_raw_package_header`: of the headers the base protocol allows, the reader
  takes the one that is a single `Content-Length` field, spelled like this.
  Another field before it, or another spelling, is refused, and a field after it
  is discarded in place of the empty line, which leaves the reader two bytes off.

Key definitions: `readRawPackage`, `writeRawPackage`, `receive`, `dispatch`,
`Header`, `ReadsFrame`.
Key theorems: `read_frame`, `dispatch_frames`, `read_raw_package_header`.
-/
import LspClient.Lib.ByteStream
import LspClient.Text
import Mathlib.Data.List.TakeWhile

namespace LspClient

open ByteStream

/-! ### JSON -/

/-- A value `json.loads` returns; a float is given by its `repr`. -/
inductive Json where
  | null
  | bool (b : Bool)
  | int (n : ℤ)
  | float (repr : Text)
  | str (s : Text)
  | arr (items : List Json)
  | obj (fields : List (Text × Json))

/-- `bool(value)`. -/
def Json.truthy : Json → Bool
  | .null => false
  | .bool b => b
  | .int n => n ≠ 0
  | .float repr => repr ≠ "0.0".toList ∧ repr ≠ "-0.0".toList
  | .str s => s ≠ []
  | .arr items => !items.isEmpty
  | .obj fields => !fields.isEmpty

/-- A JSON-RPC package: a JSON object that is not empty. -/
structure Package where
  fields : List (Text × Json)
  nonempty : fields ≠ []

/-- The package as a JSON value. -/
def Package.json (p : Package) : Json := .obj p.fields

theorem Package.truthy (p : Package) : p.json.truthy = true := by
  obtain ⟨fields, h⟩ := p
  simp [Package.json, Json.truthy, h]

/-- `json.dumps` and `json.loads`, the latter `none` where it raises. -/
structure JsonModule where
  dumps : Json → Text
  loads : Text → Option Json

/-! ### The header line -/

/-- The characters `\s` matches in a `str`. -/
def isSpace (c : Char) : Bool :=
  c.toNat ∈ [0x9, 0xa, 0xb, 0xc, 0xd, 0x1c, 0x1d, 0x1e, 0x1f, 0x20, 0x85, 0xa0, 0x1680, 0x2000,
    0x2001, 0x2002, 0x2003, 0x2004, 0x2005, 0x2006, 0x2007, 0x2008, 0x2009, 0x200a, 0x2028, 0x2029,
    0x202f, 0x205f, 0x3000]

/-- The code points of the decimal digits zero of Unicode; the other nine follow each. -/
def zeroDigits : List ℕ :=
  [0x30, 0x660, 0x6f0, 0x7c0, 0x966, 0x9e6, 0xa66, 0xae6, 0xb66, 0xbe6, 0xc66, 0xce6, 0xd66, 0xde6,
    0xe50, 0xed0, 0xf20, 0x1040, 0x1090, 0x17e0, 0x1810, 0x1946, 0x19d0, 0x1a80, 0x1a90, 0x1b50,
    0x1bb0, 0x1c40, 0x1c50, 0xa620, 0xa8d0, 0xa900, 0xa9d0, 0xa9f0, 0xaa50, 0xabf0, 0xff10, 0x104a0,
    0x10d30, 0x11066, 0x110f0, 0x11136, 0x111d0, 0x112f0, 0x11450, 0x114d0, 0x11650, 0x116c0,
    0x11730, 0x118e0, 0x11950, 0x11c50, 0x11d50, 0x11da0, 0x11f50, 0x16a60, 0x16ac0, 0x16b50,
    0x1d7ce, 0x1d7d8, 0x1d7e2, 0x1d7ec, 0x1d7f6, 0x1e140, 0x1e2f0, 0x1e4f0, 0x1e950, 0x1fbf0]

/-- The value of a character `\d` matches in a `str`. -/
def digitValue (c : Char) : Option ℕ :=
  (zeroDigits.find? fun z => z ≤ c.toNat ∧ c.toNat < z + 10).map (c.toNat - ·)

/-- `int` of a string of digits, of which it takes up to 4300. -/
def intOfDigits (ds : Text) : ℕ := ds.foldl (fun n c => 10 * n + (digitValue c).getD 0) 0

/-- The literal text of `HEADER_RE`. -/
def headerName : Text := "Content-Length:".toList

/-- `HEADER_RE.match(header)` and the `int` of its group `length`, where
`HEADER_RE` is `Content-Length:\s*(?P<length>\d+)`. -/
def matchHeader (header : Text) : Option ℕ :=
  if headerName.isPrefixOf header then
    let ds := ((header.drop headerName.length).dropWhile isSpace).takeWhile
      fun c => (digitValue c).isSome
    if ds = [] then none else some (intOfDigits ds)
  else none

/-! ### Reading and writing a package -/

/-- `b"\r\n"`. -/
def crlf : Bytes := [13, 10]

/-- What reading a package raises. -/
inductive ReadError where
  | stream (e : StreamError)
  | transport (message : Text)
  | parse (message : Text)
  | unicodeDecode
  | jsonDecode
  deriving DecidableEq, Repr

section Reading

variable {R : Type*} (rd : Reader R) (js : JsonModule)

/-- `read_raw_package`. -/
def readRawPackage (r : R) : Except ReadError Json × R :=
  match rd.receiveUntil r crlf 65536 with
  | (.error e, r) => (.error (.stream e), r)
  | (.ok headerBytes, r) =>
    if headerBytes = [] then (.error (.transport "LSP server process closed".toList), r)
    else match decodeUtf8 headerBytes with
    | none => (.error .unicodeDecode, r)
    | some header => match (matchHeader header).filter (· ≠ 0) with
      | none => (.error (.parse "Invalid LSP response header".toList), r)
      | some length => match rd.receiveUntil r crlf 65536 with  -- consume '\r\n'
        | (.error e, r) => (.error (.stream e), r)
        | (.ok _, r) => match rd.receiveExactly r length with
          | (.error e, r) => (.error (.stream e), r)
          | (.ok bodyBytes, r) => match decodeUtf8 bodyBytes with
            | none => (.error .unicodeDecode, r)
            | some body => match js.loads body with
              | none => (.error .jsonDecode, r)
              | some package => (.ok package, r)

/-- `write_raw_package`: the bytes it sends. -/
def writeRawPackage (package : Json) : Bytes :=
  let dumped := encodeUtf8 (js.dumps package)
  let header := encodeUtf8
    ("Content-Length: ".toList ++ Nat.toDigits 10 dumped.length ++ "\r\n\r\n".toList)
  header ++ dumped

/-- `StreamServer.receive`: `none` when the stream has ended. -/
def receive (r : R) : Except ReadError (Option Json) × R :=
  match readRawPackage rd js r with
  | (.ok package, r) => (.ok (some package), r)
  | (.error (.stream e), r) => if e.ended then (.ok none, r) else (.error (.stream e), r)
  | (.error e, r) => (.error e, r)

/-- How far the read loop has come. -/
inductive LoopEnd where
  | running
  | stopped
  | raised (e : ReadError)
  deriving DecidableEq, Repr

/-- The loop of `StreamServer._dispatch`: the packages it starts a handler
for, in order, and how it ends; the number bounds its rounds. -/
def dispatch : ℕ → R → List Json × LoopEnd
  | 0, _ => ([], .running)
  | fuel + 1, r =>
    match receive rd js r with
    | (.error e, _) => ([], .raised e)
    | (.ok none, _) => ([], .stopped)
    | (.ok (some package), r) =>
      if package.truthy then
        let rest := dispatch fuel r
        (package :: rest.1, rest.2)
      else ([], .stopped)

end Reading

/-! ### Digits and header lines -/

theorem isDigit_toNat {c : Char} (h : c.isDigit = true) : 48 ≤ c.toNat ∧ c.toNat ≤ 57 := by
  simp only [Char.isDigit, Bool.and_eq_true, decide_eq_true_eq, ge_iff_le, UInt32.le_iff_toNat_le] at h
  exact h

theorem digitValue_of_isDigit {c : Char} (h : c.isDigit = true) :
    digitValue c = some (c.toNat - '0'.toNat) := by
  have := isDigit_toNat h
  have h0 : (0x30 ≤ c.toNat ∧ c.toNat < 0x30 + 10) := by omega
  simp [digitValue, zeroDigits, h0]

theorem isSpace_of_isDigit {c : Char} (h : c.isDigit = true) : isSpace c = false := by
  have := isDigit_toNat h
  simp only [isSpace, List.mem_cons, List.not_mem_nil, or_false, decide_eq_false_iff_not]
  omega

theorem intOfDigits_eq {ds : Text} (h : ∀ c ∈ ds, c.isDigit = true) :
    intOfDigits ds = Nat.ofDigitChars 10 ds 0 := by
  unfold intOfDigits Nat.ofDigitChars
  refine List.foldl_ext _ _ _ fun n c hc => ?_
  rw [digitValue_of_isDigit (h c hc)]
  rfl

/-- The header line of `n` digits is matched and read as its number. -/
theorem matchHeader_digits {ds : Text} (hne : ds ≠ []) (h : ∀ c ∈ ds, c.isDigit = true) :
    matchHeader ("Content-Length: ".toList ++ ds) = some (Nat.ofDigitChars 10 ds 0) := by
  have hsplit : "Content-Length: ".toList ++ ds = headerName ++ (' ' :: ds) := rfl
  have hpre : headerName.isPrefixOf (headerName ++ (' ' :: ds)) = true :=
    List.isPrefixOf_iff_prefix.mpr (List.prefix_append _ _)
  have hdrop : (' ' :: ds).dropWhile isSpace = ds := by
    obtain ⟨c, cs, rfl⟩ := List.exists_cons_of_ne_nil hne
    rw [List.dropWhile_cons_of_pos (by decide), List.dropWhile_cons_of_neg]
    rw [isSpace_of_isDigit (h c List.mem_cons_self)]
    decide
  have htake : ds.takeWhile (fun c => (digitValue c).isSome) = ds :=
    List.takeWhile_eq_self_iff.mpr fun c hc => by rw [digitValue_of_isDigit (h c hc)]; rfl
  rw [matchHeader, hsplit, if_pos hpre]
  simp only [List.drop_left, hdrop, htake, hne, ↓reduceIte, intOfDigits_eq h]

/-- ASCII text that holds no `\r`. -/
def HeaderText (t : Text) : Prop := ∀ c ∈ t, c.toNat < 128 ∧ c ≠ '\r'

instance (t : Text) : Decidable (HeaderText t) :=
  List.decidableBAll (fun c : Char => c.toNat < 128 ∧ c ≠ '\r') t

theorem HeaderText.append {s t : Text} (hs : HeaderText s) (ht : HeaderText t) :
    HeaderText (s ++ t) := by
  intro c hc
  rcases List.mem_append.mp hc with hc | hc
  · exact hs c hc
  · exact ht c hc

theorem headerText_digits {ds : Text} (h : ∀ c ∈ ds, c.isDigit = true) : HeaderText ds := by
  intro c hc
  have := isDigit_toNat (h c hc)
  refine ⟨by omega, ?_⟩
  rintro rfl
  exact absurd this (by decide)

/-- A line of the header holds no byte 13, so it ends where it should. -/
theorem breakOn_headerText {t : Text} (h : HeaderText t) (rest : Bytes) :
    breakOn crlf (encodeUtf8 t ++ (crlf ++ rest)) = some (encodeUtf8 t, rest) := by
  refine breakOn_line _ ?_
  rw [encodeUtf8_ascii t fun c hc => (h c hc).1]
  intro hm
  obtain ⟨c, hc, he⟩ := List.mem_map.mp hm
  have hcode : c.toNat = 13 := by
    have h1 := congrArg UInt8.toNat he
    have h2 := (h c hc).1
    simp only [Nat.toUInt8, UInt8.toNat_ofNat'] at h1
    rw [Nat.mod_eq_of_lt (by omega)] at h1
    exact h1
  exact (h c hc).2 (Char.toNat_inj.mp hcode)

/-! ### One frame -/

section Frames

variable {R : Type*} {rd : Reader R} {rest : R → Bytes} {js : JsonModule}

/-- A first line that is a header of length `n` leads to the read of the next line. -/
theorem read_after_length (js : JsonModule) {r r1 : R} {ds : Text} {n : ℕ}
    (hne : ds ≠ []) (hds : ∀ c ∈ ds, c.isDigit = true) (hn : Nat.ofDigitChars 10 ds 0 = n)
    (hpos : 0 < n)
    (hr1 : rd.receiveUntil r crlf 65536 =
      (.ok (encodeUtf8 ("Content-Length: ".toList ++ ds)), r1)) :
    readRawPackage rd js r = match rd.receiveUntil r1 crlf 65536 with
      | (.error e, r) => (.error (.stream e), r)
      | (.ok _, r) => match rd.receiveExactly r n with
        | (.error e, r) => (.error (.stream e), r)
        | (.ok bodyBytes, r) => match decodeUtf8 bodyBytes with
          | none => (.error .unicodeDecode, r)
          | some body => match js.loads body with
            | none => (.error .jsonDecode, r)
            | some package => (.ok package, r) := by
  have hbytes : encodeUtf8 ("Content-Length: ".toList ++ ds) ≠ [] :=
    encodeUtf8_ne_nil (List.append_ne_nil_of_left_ne_nil (by decide) _)
  have hmatch : (matchHeader ("Content-Length: ".toList ++ ds)).filter (· ≠ 0) = some n := by
    rw [matchHeader_digits hne hds, hn]
    simp [Option.filter, hpos.ne']
  unfold readRawPackage
  rw [hr1]
  simp only [hbytes, ↓reduceIte, decodeUtf8_encodeUtf8, hmatch]

/-- The reader discards up to the next line end and takes `n` bytes as the JSON. -/
theorem read_after_header (js : JsonModule) (h : rd.Bounded rest) {r r1 r2 : R} {ds : Text}
    {skipped tail : Bytes} {n : ℕ}
    (hne : ds ≠ []) (hds : ∀ c ∈ ds, c.isDigit = true) (hn : Nat.ofDigitChars 10 ds 0 = n)
    (hpos : 0 < n)
    (hr1 : rd.receiveUntil r crlf 65536 = (.ok (encodeUtf8 ("Content-Length: ".toList ++ ds)), r1))
    (hr2 : rd.receiveUntil r1 crlf 65536 = (.ok skipped, r2)) (hrest2 : rest r2 = tail)
    (hlen : n ≤ tail.length) :
    ∃ r', rest r' = tail.drop n ∧ readRawPackage rd js r =
      match decodeUtf8 (tail.take n) with
      | none => (.error .unicodeDecode, r')
      | some body => match js.loads body with
        | none => (.error .jsonDecode, r')
        | some package => (.ok package, r') := by
  obtain ⟨r3, hr3, hrest3⟩ := h.exactly_ok r2 n (hrest2 ▸ hlen)
  rw [hrest2] at hr3 hrest3
  refine ⟨r3, hrest3, ?_⟩
  rw [read_after_length js hne hds hn hpos hr1, hr2]
  simp only [hr3]

/-- **A frame is read back** if its header line is handed out. The reader returns
the JSON of the frame's bytes and stands right after them. -/
theorem read_frame (h : rd.Bounded rest) {r : R} {ds : Text} {body further : Bytes} {text : Text}
    {package : Json} (hne : ds ≠ []) (hds : ∀ c ∈ ds, c.isDigit = true)
    (hn : Nat.ofDigitChars 10 ds 0 = body.length) (hpos : 0 < body.length)
    (hdec : decodeUtf8 body = some text) (hload : js.loads text = some package)
    (hline : rd.HandsOut rest r crlf 65536 (encodeUtf8 ("Content-Length: ".toList ++ ds))
      (crlf ++ (body ++ further))) :
    ∃ r', readRawPackage rd js r = (.ok package, r') ∧ rest r' = further := by
  have hskip : HeaderText [] := by decide
  obtain ⟨r1, hr1, hrest1⟩ := hline
  obtain ⟨r2, hr2, hrest2⟩ := h.until_ok r1 crlf 65536 _ _
    (hrest1 ▸ breakOn_headerText hskip (body ++ further)) (by decide)
  obtain ⟨r', hrest, heq⟩ := read_after_header js h hne hds hn hpos hr1 hr2 hrest2
    (by rw [List.length_append]; omega)
  rw [List.take_left, hdec] at heq
  simp only [hload] at heq
  exact ⟨r', heq, by rw [hrest, List.drop_left]⟩

theorem writeRawPackage_eq (js : JsonModule) (package : Json) : writeRawPackage js package =
    encodeUtf8 ("Content-Length: ".toList ++
      Nat.toDigits 10 (encodeUtf8 (js.dumps package)).length) ++
      (crlf ++ (crlf ++ encodeUtf8 (js.dumps package))) := by
  have hends : encodeUtf8 "\r\n\r\n".toList = crlf ++ crlf := rfl
  simp only [writeRawPackage, encodeUtf8_append, hends, List.append_assoc]

/-! ### The stream -/

/-- At the end of the stream there is nothing to receive. -/
theorem receive_end (js : JsonModule) (h : rd.Exact rest) {r : R} (hr : rest r = []) :
    ∃ r', receive rd js r = (.ok none, r') := by
  obtain ⟨e, r', hu, he⟩ := h.until_end r crlf 65536 (by rw [hr]; rfl)
  refine ⟨r', ?_⟩
  unfold receive readRawPackage
  rw [hu]
  simp only [he, ↓reduceIte]

/-- The next frame of the stream is received. -/
theorem receive_frame (h : rd.Exact rest) {r : R} {p : Package} {further : Bytes}
    (hempty : js.loads [] = none) (hjs : js.loads (js.dumps p.json) = some p.json)
    (hr : rest r = writeRawPackage js p.json ++ further) :
    ∃ r', receive rd js r = (.ok (some p.json), r') ∧ rest r' = further := by
  have hdumps : js.dumps p.json ≠ [] := by
    intro he
    rw [he, hempty] at hjs
    cases hjs
  have hpos : 0 < (encodeUtf8 (js.dumps p.json)).length :=
    List.length_pos_iff.mpr (encodeUtf8_ne_nil hdumps)
  have hdigits : ∀ c ∈ Nat.toDigits 10 (encodeUtf8 (js.dumps p.json)).length, c.isDigit = true :=
    fun c hc => Nat.isDigit_of_mem_toDigits (by decide) (by decide) hc
  have hr' : rest r = encodeUtf8 ("Content-Length: ".toList ++
      Nat.toDigits 10 (encodeUtf8 (js.dumps p.json)).length) ++
      (crlf ++ (crlf ++ (encodeUtf8 (js.dumps p.json) ++ further))) := by
    rw [hr, writeRawPackage_eq]
    simp only [List.append_assoc]
  have hline := h.until_ok r crlf 65536 _ _ (hr' ▸ breakOn_headerText
    (HeaderText.append (by decide) (headerText_digits hdigits)) _)
  obtain ⟨r', hread, hrest⟩ := read_frame h.bounded Nat.toDigits_ne_nil hdigits
    Nat.ofDigitChars_ten_toDigits hpos (decodeUtf8_encodeUtf8 _) hjs hline
  exact ⟨r', by rw [receive, hread], hrest⟩

/-- The loop at a reader that stands at the frames of `pkgs`. -/
theorem dispatch_from (h : rd.Exact rest) (hempty : js.loads [] = none) :
    ∀ (pkgs : List Package) (r : R) (fuel : ℕ),
      (∀ p ∈ pkgs, js.loads (js.dumps p.json) = some p.json) →
      rest r = pkgs.flatMap (fun p => writeRawPackage js p.json) → pkgs.length < fuel →
      dispatch rd js fuel r = (pkgs.map Package.json, .stopped)
  | _, _, 0, _, _, hf => by omega
  | [], r, fuel + 1, _, hr, _ => by
    obtain ⟨r', hrec⟩ := receive_end js h hr
    rw [dispatch, hrec]
    rfl
  | p :: pkgs, r, fuel + 1, hjs, hr, hf => by
    rw [List.flatMap_cons] at hr
    obtain ⟨r', hrec, hrest⟩ := receive_frame h hempty (hjs p List.mem_cons_self) hr
    have ih := dispatch_from h hempty pkgs r' fuel (fun q hq => hjs q (List.mem_cons_of_mem _ hq))
      hrest (by rw [List.length_cons] at hf; omega)
    rw [dispatch, hrec]
    simp only [p.truthy, ↓reduceIte, ih, List.map_cons]

/-- **Frames over a whole stream.** However the frames of the packages are cut
into received chunks, the read loop hands out exactly these packages, in
order, and stops at the end of the stream. -/
theorem dispatch_frames (h : rd.Exact rest) (hempty : js.loads [] = none) (pkgs : List Package)
    (hjs : ∀ p ∈ pkgs, js.loads (js.dumps p.json) = some p.json) (chunks : List Bytes)
    (hchunks : chunks.flatten = pkgs.flatMap fun p => writeRawPackage js p.json) (fuel : ℕ)
    (hfuel : pkgs.length < fuel) :
    dispatch rd js fuel (rd.ofChunks chunks) = (pkgs.map Package.json, .stopped) :=
  dispatch_from h hempty pkgs _ fuel hjs ((h.rest_ofChunks chunks).trans hchunks) hfuel

end Frames

/-- Two packages, one with a non-ASCII string, cut inside a header and inside a body. -/
theorem dispatch_frames_two :
    let p : Package := ⟨[("id".toList, .int 1)], by simp⟩
    let q : Package := ⟨[("é".toList, .str "日".toList)], by simp⟩
    let js : JsonModule :=
      { dumps := fun j => match j with
          | .obj [(_, .int _)] => "\x7b\"id\": 1\x7d".toList
          | _ => "\x7b\"é\": \"日\"\x7d".toList
        loads := fun t =>
          if t = "\x7b\"id\": 1\x7d".toList then some p.json
          else if t = "\x7b\"é\": \"日\"\x7d".toList then some q.json else none }
    let stream := writeRawPackage js p.json ++ writeRawPackage js q.json
    dispatch Buffered.reader js 3 (Buffered.reader.ofChunks [stream.take 5, stream.drop 5]) =
      ([p.json, q.json], .stopped) := by
  intro p q js stream
  have hempty : js.loads [] = none := rfl
  refine dispatch_frames Buffered.exact hempty [p, q] ?_ _ ?_ 3 (by decide)
  · intro x hx
    rcases List.mem_cons.mp hx with rfl | hx
    · rfl
    · obtain rfl := List.mem_singleton.mp hx
      rfl
  · simp [stream]

/-! ### The header grammar of the base protocol -/

/-- A header field, with its name as it is spelled. -/
inductive HeaderField where
  | contentLength (name digits : Text)
  | contentType (name value : Text)
  deriving DecidableEq, Repr

/-- The field as it stands in the header, without its line end. -/
def HeaderField.line : HeaderField → Text
  | .contentLength name digits => name ++ (": ".toList ++ digits)
  | .contentType name value => name ++ (": ".toList ++ value)

/-- `ds` are the digits of a number `n`, no more of them than `int` takes. -/
def Digits (ds : Text) (n : ℕ) : Prop :=
  ds ≠ [] ∧ (∀ c ∈ ds, c.isDigit = true) ∧ Nat.ofDigitChars 10 ds 0 = n ∧ ds.length ≤ 4300

/-- The name, in upper and lower case. -/
def Spells (name : Text) (lower : Text) : Prop := name.map Char.toLower = lower

/-- The header of a body of `n` bytes: one `Content-Length`, and a
`Content-Type` before it, after it or not at all. -/
inductive Header (n : ℕ) : List HeaderField → Prop where
  | length {name ds : Text} : Spells name "content-length".toList → Digits ds n →
      Header n [.contentLength name ds]
  | lengthType {name ds name' v : Text} : Spells name "content-length".toList → Digits ds n →
      Spells name' "content-type".toList → HeaderText v →
      Header n [.contentLength name ds, .contentType name' v]
  | typeLength {name ds name' v : Text} : Spells name "content-length".toList → Digits ds n →
      Spells name' "content-type".toList → HeaderText v →
      Header n [.contentType name' v, .contentLength name ds]

/-- The name that the reader knows. -/
def lengthName : Text := "Content-Length".toList

/-- The bytes of a frame: the fields, each ended by CRLF, an empty line, the body. -/
def frameBytes (fields : List HeaderField) (body : Bytes) : Bytes :=
  fields.flatMap (fun f => encodeUtf8 f.line ++ crlf) ++ (crlf ++ body)

theorem frameBytes_cons (f : HeaderField) (fields : List HeaderField) (body : Bytes) :
    frameBytes (f :: fields) body = encodeUtf8 f.line ++ (crlf ++ frameBytes fields body) := by
  simp only [frameBytes, List.flatMap_cons, List.append_assoc]

theorem frameBytes_nil (body : Bytes) : frameBytes [] body = crlf ++ body := rfl

theorem Spells.length {name lower : Text} (h : Spells name lower) : name.length = lower.length := by
  rw [← h, List.length_map]

/-- A name in upper and lower case is ASCII text. -/
theorem Spells.headerText {name lower : Text} (h : Spells name lower) (hlower : HeaderText lower) :
    HeaderText name := by
  intro c hc
  have hmem : c.toLower ∈ lower := h ▸ List.mem_map_of_mem hc
  obtain ⟨hascii, hcr⟩ := hlower _ hmem
  refine ⟨?_, ?_⟩
  · unfold Char.toLower at hascii
    split at hascii
    · rename_i hupper
      exact lt_of_le_of_lt (UInt32.le_iff_toNat_le.mp hupper.2) (by decide)
    · exact hascii
  · rintro rfl
    exact hcr (by decide)

theorem headerText_line {name lower v : Text} (h : Spells name lower) (hlower : HeaderText lower)
    (hv : HeaderText v) : HeaderText (name ++ (": ".toList ++ v)) :=
  (h.headerText hlower).append (HeaderText.append (by decide) hv)

/-- A line that `HEADER_RE` matches begins with the name that the reader knows. -/
theorem matchHeader_other {name v : Text} (h : Spells name "content-type".toList ∨
    Spells name "content-length".toList ∧ name ≠ lengthName) :
    matchHeader (name ++ (": ".toList ++ v)) = none := by
  have hpre : ¬ headerName.isPrefixOf (name ++ (": ".toList ++ v)) = true := by
    rw [List.isPrefixOf_iff_prefix]
    intro hprefix
    have htake : name.length ≤ headerName.length → name = headerName.take name.length := fun hle =>
      List.prefix_iff_eq_take.mp
        (List.prefix_of_prefix_length_le (List.prefix_append _ _) hprefix hle)
    obtain h | ⟨h, hne⟩ := h
    · rw [h.length] at htake
      rw [htake (by decide)] at h
      exact absurd h (by unfold Spells; decide)
    · rw [h.length] at htake
      exact hne (htake (by decide))
  rw [matchHeader, if_neg hpre]

section HeaderGrammar

variable {R : Type*} (rd : Reader R) (rest : R → Bytes) (js : JsonModule)

/-- A reader that stands at the frame, with any bytes following, returns the
JSON of the body and stands right after it. -/
def ReadsFrame (fields : List HeaderField) (body : Bytes) (package : Json) : Prop :=
  ∀ (r : R) (further : Bytes), rest r = frameBytes fields body ++ further →
    ∃ r', readRawPackage rd js r = (.ok package, r') ∧ rest r' = further

variable {rd rest js}

/-- The line of the length is short enough to be handed out. -/
theorem Digits.handsOut (h : rd.Bounded rest) {ds : Text} {n : ℕ} {r : R} {tail : Bytes}
    (hds : Digits ds n)
    (hr : rest r = encodeUtf8 ("Content-Length: ".toList ++ ds) ++ (crlf ++ tail)) :
    rd.HandsOut rest r crlf 65536 (encodeUtf8 ("Content-Length: ".toList ++ ds)) tail := by
  have hline : HeaderText ("Content-Length: ".toList ++ ds) :=
    HeaderText.append (by decide) (headerText_digits hds.2.1)
  refine h.until_ok r crlf 65536 _ _ (hr ▸ breakOn_headerText hline _) ?_
  have hlength : (encodeUtf8 ("Content-Length: ".toList ++ ds)).length = 16 + ds.length := by
    rw [encodeUtf8_ascii _ fun c hc => (hline c hc).1, List.length_map, List.length_append]
    rfl
  have := hds.2.2.2
  have : crlf.length = 2 := rfl
  omega

/-- A first line that `HEADER_RE` does not match is refused. -/
theorem not_readsFrame_first (h : rd.Bounded rest) {f : HeaderField} {fields : List HeaderField}
    (hline : HeaderText f.line) (hne : f.line ≠ []) (hmatch : matchHeader f.line = none)
    (body : Bytes) (package : Json) :
    ¬ ReadsFrame rd rest js (f :: fields) body package := by
  intro hread
  obtain ⟨r, hr⟩ := h.exists_rest (frameBytes (f :: fields) body ++ [])
  obtain ⟨r', hok, -⟩ := hread r [] hr
  have hbreak : breakOn crlf (rest r) = some (encodeUtf8 f.line, frameBytes fields body) := by
    rw [hr, List.append_nil, frameBytes_cons]
    exact breakOn_headerText hline _
  unfold readRawPackage at hok
  obtain ⟨r1, hr1, -⟩ | ⟨e, r1, hr1⟩ := h.until_long r crlf 65536 _ _ hbreak
  · rw [hr1] at hok
    simp only [encodeUtf8_ne_nil hne, ↓reduceIte, decodeUtf8_encodeUtf8, hmatch,
      Option.filter_none] at hok
    cases congrArg Prod.fst hok
  · rw [hr1] at hok
    cases congrArg Prod.fst hok

/-- A field of another name, or of the name in other letters, is refused. -/
theorem not_readsFrame_other (h : rd.Bounded rest) {f : HeaderField} {fields : List HeaderField}
    {name lower v : Text} (hf : f.line = name ++ (": ".toList ++ v)) (hname : Spells name lower)
    (hlower : HeaderText lower) (hv : HeaderText v)
    (hother : Spells name "content-type".toList ∨
      Spells name "content-length".toList ∧ name ≠ lengthName) (body : Bytes) (package : Json) :
    ¬ ReadsFrame rd rest js (f :: fields) body package := by
  refine not_readsFrame_first h ?_ ?_ ?_ body package
  · exact hf ▸ headerText_line hname hlower hv
  · rw [hf]
    exact List.append_ne_nil_of_right_ne_nil _ (List.append_ne_nil_of_left_ne_nil (by decide) _)
  · exact hf ▸ matchHeader_other hother

/-- A `Content-Type` after the length: the reader discards it instead of the
empty line, and stands two bytes before the end of the body. -/
theorem not_readsFrame_lengthType (h : rd.Bounded rest) {ds name v : Text} {body : Bytes}
    (hds : Digits ds body.length) (hname : Spells name "content-type".toList) (hv : HeaderText v)
    (hpos : 0 < body.length) (package : Json) :
    ¬ ReadsFrame rd rest js [.contentLength lengthName ds, .contentType name v] body package := by
  intro hread
  obtain ⟨r, hr⟩ := h.exists_rest
    (frameBytes [.contentLength lengthName ds, .contentType name v] body ++ [])
  obtain ⟨r2, hok, hrest2⟩ := hread r [] hr
  have hline : HeaderText (HeaderField.contentType name v).line :=
    headerText_line hname (by decide) hv
  have htail : (crlf ++ body).length = body.length + 2 := by
    simp [crlf]
  rw [List.append_nil, frameBytes_cons, frameBytes_cons, frameBytes_nil] at hr
  obtain ⟨r3, hr3, hrest3⟩ := hds.handsOut h hr
  obtain ⟨r4, hr4, hrest4⟩ | ⟨e, r4, hr4⟩ := h.until_long r3 crlf 65536 _ _
    (hrest3 ▸ breakOn_headerText hline _)
  -- a line that is too long may be refused
  swap
  · rw [read_after_length js hds.1 hds.2.1 hds.2.2.1 hpos hr3, hr4] at hok
    cases congrArg Prod.fst hok
  obtain ⟨r1, hrest1, heq⟩ := read_after_header js h hds.1 hds.2.1 hds.2.2.1 hpos hr3 hr4 hrest4
    (by omega)
  -- whatever the bytes it took decode to, the reader stands at `r1`
  have hr12 : r1 = r2 := by
    rw [heq] at hok
    split at hok
    · cases congrArg Prod.fst hok
    · split at hok
      · cases congrArg Prod.fst hok
      · exact congrArg Prod.snd hok
  have hlen := congrArg List.length (hrest1.symm.trans ((congrArg rest hr12).trans hrest2))
  rw [List.length_drop, htail, List.length_nil] at hlen
  omega

/-- **Which headers the reader takes.** Of the headers of a body of `n > 0`
bytes of JSON, the reader reads the frame exactly when its only field is the
length, under the name `Content-Length` spelled like this. -/
theorem read_raw_package_header (h : rd.Bounded rest) {fields : List HeaderField} {body : Bytes}
    {text : Text} {package : Json} (hh : Header body.length fields) (hpos : 0 < body.length)
    (hdec : decodeUtf8 body = some text) (hload : js.loads text = some package) :
    ReadsFrame rd rest js fields body package ↔
      ∃ ds, fields = [.contentLength lengthName ds] := by
  have hlength : HeaderText "content-length".toList := by decide
  have htype : HeaderText "content-type".toList := by decide
  cases hh with
  | @length name ds hname hds =>
    constructor
    · intro hread
      by_contra hne
      have hother : name ≠ lengthName := fun hn => hne ⟨ds, by rw [hn]⟩
      exact not_readsFrame_other h rfl hname hlength (headerText_digits hds.2.1)
        (.inr ⟨hname, hother⟩) body package hread
    · rintro ⟨ds', he⟩ r further hr
      obtain ⟨rfl, -⟩ : name = lengthName ∧ ds = ds' := by simpa using he
      rw [frameBytes_cons, frameBytes_nil, List.append_assoc, List.append_assoc,
        List.append_assoc] at hr
      exact read_frame h hds.1 hds.2.1 hds.2.2.1 hpos hdec hload (hds.handsOut h hr)
  | @lengthType name ds name' v hname hds hname' hv =>
    refine ⟨fun hread => ?_, fun ⟨_, he⟩ => by simp at he⟩
    by_cases hn : name = lengthName
    · exact absurd hread (hn ▸ not_readsFrame_lengthType h hds hname' hv hpos package)
    · exact absurd hread (not_readsFrame_other h rfl hname hlength (headerText_digits hds.2.1)
        (.inr ⟨hname, hn⟩) body package)
  | @typeLength name ds name' v hname hds hname' hv =>
    refine ⟨fun hread => ?_, fun ⟨_, he⟩ => by simp at he⟩
    exact absurd hread (not_readsFrame_other h rfl hname' htype hv (.inl hname') body package)

end HeaderGrammar

/-- A `json` module that knows the one object `{"id":1}`. -/
def oneObject : JsonModule where
  dumps _ := "\x7b\"id\":1\x7d".toList
  loads t := if t = "\x7b\"id\":1\x7d".toList then some (.obj [("id".toList, .int 1)]) else none

theorem spells_lengthName : Spells lengthName "content-length".toList := rfl

theorem spells_contentType : Spells "Content-Type".toList "content-type".toList := rfl

theorem digits_eight : Digits "8".toList (encodeUtf8 "\x7b\"id\":1\x7d".toList).length :=
  ⟨by decide, List.all_eq_true.mp rfl, rfl, by decide⟩

theorem read_raw_package_header_length_only :
    ReadsFrame Buffered.reader Buffered.rest oneObject [.contentLength lengthName "8".toList]
      (encodeUtf8 "\x7b\"id\":1\x7d".toList) (.obj [("id".toList, .int 1)]) :=
  (read_raw_package_header Buffered.exact.bounded (.length spells_lengthName digits_eight) (by decide)
    (decodeUtf8_encodeUtf8 _) rfl).mpr ⟨_, rfl⟩

/-- A well-formed frame the reader does not read. -/
theorem read_raw_package_content_type :
    let fields : List HeaderField := [.contentLength lengthName "8".toList,
      .contentType "Content-Type".toList "application/vscode-jsonrpc; charset=utf-8".toList]
    Header (encodeUtf8 "\x7b\"id\":1\x7d".toList).length fields ∧
    ¬ ReadsFrame Buffered.reader Buffered.rest oneObject fields
      (encodeUtf8 "\x7b\"id\":1\x7d".toList) (.obj [("id".toList, .int 1)]) :=
  have hv : HeaderText "application/vscode-jsonrpc; charset=utf-8".toList := by decide
  ⟨.lengthType spells_lengthName digits_eight spells_contentType hv,
    not_readsFrame_lengthType Buffered.exact.bounded digits_eight spells_contentType hv (by decide) _⟩

end LspClient
