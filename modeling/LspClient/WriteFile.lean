/-
# `write_file`: what can go wrong with it

`Path.write_text` opens the file, which empties it, before it encodes the
text. The encoding of a tracked document is the one its old bytes were found
in, so the new text may not be encodable in it: then the file is left empty
(`write_file_encode_error`).

`write_file` looks the document up by the URI it is given, and `read_file` by
the URI of the path. Written under another spelling of its URI a tracked
document is not brought up to date (`write_file_spelled`).

Key theorems: `write_file_encode_error`, `write_file_spelled`.
-/
import LspClient.Client

namespace LspClient

open Actions ByteStream

/-! ### What an operation that raises has done -/

section Raised

variable {α : Type} {w w' : World}

theorem convert_error {x : Except UriError α} {e : Exc} (h : convert x w = .error e w') :
    ∃ cause, e = .uriError cause := by
  cases x with
  | ok a => cases h
  | error cause =>
    cases h
    exact ⟨cause, rfl⟩

theorem notify_error {msg : Notification} {e : Exc} (h : notify msg w = .error e w') :
    ∃ cause, e = .sendError cause := by
  unfold notify at h
  split at h
  · cases h
    exact ⟨_, rfl⟩
  · cases h

end Raised

namespace Client

variable {c : Client} {w w' : World}

/-- A text that cannot be encoded: the file has been opened for writing, and nothing else. -/
theorem writeText_encode_error {p : Path} {content : Text} {encoding : Encoding}
    (h : c.writeText p content encoding w = .error .unicodeEncodeError w') :
    ∃ l, (FileTree.openWrite (c.route p) w.fs []).result = .ok l ∧
      w' = { w with fs := w.fs.apply (FileTree.openWrite (c.route p) w.fs []).changes } := by
  rcases bind_error_elim h with h | ⟨l, w₁, hopen, h⟩
  · obtain ⟨_, hcause, -⟩ := os_error h
    cases hcause
  · obtain ⟨hok, rfl⟩ := os_ok hopen
    refine ⟨l, hok, ?_⟩
    cases he : c.codecs.encode encoding content with
    | none =>
      simp only [he] at h
      cases h
      rfl
    | some bytes =>
      simp only [he] at h
      obtain ⟨_, hcause, -⟩ := os_error h
      cases hcause

theorem writeBegin_error {u : Uri} {e : Exc} (h : c.writeBegin u w = .error e w') :
    ∃ cause, e = .uriError cause := by
  rcases bind_error_elim h with h | ⟨_, _, -, h⟩
  · exact convert_error h
  · cases h

theorem writeFinish_error {u : Uri} {content : Text} {e : Exc}
    (h : c.writeFinish u content w = .error e w') :
    (∃ cause, e = .uriError cause) ∨ ∃ cause, e = .sendError cause := by
  rcases bind_error_elim h with h | ⟨version, w₁, -, h⟩
  · cases h
  · cases version with
    | none => cases h
    | some version =>
      rcases bind_error_elim h with h | ⟨_, _, -, h⟩
      · exact Or.inl (convert_error h)
      · rcases bind_error_elim h with h | ⟨_, _, -, h⟩
        · exact Or.inl (convert_error h)
        · exact Or.inr (notify_error h)

/-- **A text that cannot be encoded** empties the file, and leaves the tracked
documents as they are. What can be read from the disk stays as it is just if
the file was there and empty before. -/
theorem write_file_encode_error (c : Client) (w w' : World) (u : Uri) (content : Text)
    (h : c.writeFile u content w = .error .unicodeEncodeError w') :
    ((∀ r, FileTree.fileAt r w'.fs = FileTree.fileAt r w.fs) ∧ w'.doc = w.doc) ↔
      ∃ p, c.fromLocalUri u = .ok p ∧ FileTree.fileAt (c.route p) w.fs = some [] := by
  rcases bind_error_elim h with hbegin | ⟨⟨p, encoding⟩, w₁, hbegin, hrest⟩
  · obtain ⟨_, hcause⟩ := writeBegin_error hbegin
    cases hcause
  · obtain ⟨hp, -, rfl⟩ := writeBegin_ok hbegin
    rcases bind_error_elim hrest with hwrite | ⟨_, _, -, hfinish⟩
    · obtain ⟨l, hopen, rfl⟩ := writeText_encode_error hwrite
      obtain ⟨-, hiff⟩ := FileTree.fileAt_openWrite hopen
      constructor
      · rintro ⟨hall, -⟩
        exact ⟨p, hp, hiff.mp hall⟩
      · rintro ⟨q, hq, hempty⟩
        cases hp.symm.trans hq
        exact ⟨hiff.mpr hempty, rfl⟩
    · rcases writeFinish_error hfinish with ⟨_, hcause⟩ | ⟨_, hcause⟩ <;> cases hcause

/-- **A tracked document written under a URI of its path** is brought up to
date just if that is the URI it is tracked under. -/
theorem write_file_spelled (c : Client) (w w' : World) (p : Path) (u v : Uri) (d : DocumentState)
    (content : Text) (hv : c.asUri p = .ok v) (hd : w.doc.states v = some d)
    (hu : c.fromLocalUri u = .ok p) (h : c.writeFile u content w = .ok () w') :
    (c.readFile p utf8 w' = .ok content w' ∧
      (∃ d', w'.doc.states v = some d' ∧ d'.version = d.version + 1) ∧
      w'.conn.sent = w.conn.sent ++ [.didChange v (d.version + 1) content]) ↔ u = v := by
  obtain ⟨q, bytes, hq, -, -, hend⟩ := writeFile_ok h
  cases hu.symm.trans hq
  constructor
  · rintro ⟨-, ⟨d', hd', hversion⟩, -⟩
    by_contra hne
    -- the state of the tracked document is not the one that was updated
    have hsame : w'.doc.states v = w.doc.states v := by
      cases hs : w.doc.states u with
      | none =>
        rw [hs] at hend
        rw [hend]
      | some du =>
        rw [hs] at hend
        obtain ⟨v', -, hw'⟩ := hend
        rw [hw', World.sendAll_doc, DocumentStateManager.updateContent_states, if_neg (Ne.symm hne)]
    rw [hsame, hd] at hd'
    cases hd'
    omega
  · rintro rfl
    rw [hd] at hend
    obtain ⟨v', hv', hw'⟩ := hend
    cases hv.symm.trans hv'
    have hstate : w'.doc.states u = some ⟨content, d.version + 1, d.encoding⟩ := by
      rw [hw', World.sendAll_doc, DocumentStateManager.updateContent_states, if_pos rfl, hd]
      rfl
    refine ⟨readFile_tracked hv hstate utf8, ⟨_, hstate, rfl⟩, ?_⟩
    rw [hw']
    rfl

end Client

/-- An empty file stays empty. -/
theorem write_file_encode_error_empty :
    (∀ r, FileTree.fileAt r (final (Small.client.writeFile Small.uriA "é".toList)
        (Small.opened [])).fs = FileTree.fileAt r (Small.opened []).fs) ∧
      (final (Small.client.writeFile Small.uriA "é".toList) (Small.opened [])).doc =
        (Small.opened []).doc :=
  (Client.write_file_encode_error Small.client (Small.opened []) _ Small.uriA "é".toList rfl).mpr
    ⟨Path.ofText "/ws/a".toList, by decide, by decide⟩

/-- **A text that is not ASCII destroys a file that was.** -/
theorem write_file_truncates : ∃ w', Small.client.writeFile Small.uriA "é".toList (Small.opened "x".toList) =
      .error .unicodeEncodeError w' ∧
    ((Small.opened "x".toList).doc.states Small.uriA).map (·.encoding) = some Small.ascii ∧
    FileTree.fileAt (Small.client.route (Path.ofText "/ws/a".toList)) (Small.opened "x".toList).fs =
      some [0x78] ∧
    FileTree.fileAt (Small.client.route (Path.ofText "/ws/a".toList)) w'.fs = some [] :=
  ⟨_, rfl, by decide, by decide, by decide⟩

/-- The URI of `as_uri`: the document is brought up to date. -/
theorem write_file_spelled_alike :
    Small.client.readFile (Path.ofText "/ws/a".toList) utf8
        (final (Small.client.writeFile Small.uriA "y".toList) (Small.opened "x".toList)) =
      .ok "y".toList (final (Small.client.writeFile Small.uriA "y".toList) (Small.opened "x".toList)) :=
  ((Client.write_file_spelled Small.client (Small.opened "x".toList) _ (Path.ofText "/ws/a".toList)
    Small.uriA Small.uriA ⟨"x".toList, 0, Small.ascii⟩ "y".toList (by decide) (by decide) (by decide)
    rfl).mpr rfl).1

/-- **A tracked document written under another spelling of its URI** is on the
disk only: `read_file` still returns the old text. -/
theorem write_file_other_spelling : ∃ w',
    Small.client.writeFile "file:///ws/%61".toList "y".toList (Small.opened "x".toList) = .ok () w' ∧
    Small.client.fromLocalUri "file:///ws/%61".toList = .ok (Path.ofText "/ws/a".toList) ∧
    Small.client.asUri (Path.ofText "/ws/a".toList) = .ok Small.uriA ∧
    FileTree.fileAt (Small.client.route (Path.ofText "/ws/a".toList)) w'.fs = some [0x79] ∧
    Small.client.readFile (Path.ofText "/ws/a".toList) utf8 w' = .ok "x".toList w' ∧
    (w'.doc.states Small.uriA).map (·.version) = some 0 ∧ w'.conn.sent = [] :=
  ⟨_, rfl, by decide, by decide, by decide, rfl, by decide, rfl⟩

end LspClient
