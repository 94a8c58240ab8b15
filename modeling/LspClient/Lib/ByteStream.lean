/-
# Buffered byte streams

A buffered reader hands out the next bytes of a stream up to a delimiter, or
a given number of them. `Reader` is its interface and `Reader.Exact` what it
promises: it is a position in the stream of bytes still to come (`rest`), it
hands out exactly the next bytes of it, and it fails only at the end of the
stream. How the bytes arrived, in which chunks, cannot be seen through it.
`Reader.Bounded` is the promise of a reader that may give up a delimiter which
is not among as many bytes as its search is bound to.

`Buffered` is such a reader over a list of received chunks: it takes one more
chunk into its buffer whenever the buffer does not suffice, and it keeps the
promise (`Buffered.exact`).

Also here: UTF-8 as a map from texts to bytes and back (`decodeUtf8_encodeUtf8`).

Key definitions: `breakOn`, `Reader`, `Reader.Exact`, `Reader.Bounded`, `Buffered`.
Key theorems: `breakOn_line`, `Buffered.exact`, `decodeUtf8_encodeUtf8`.
-/
import Mathlib.Data.List.Basic
import Mathlib.Data.Nat.Notation

namespace LspClient
namespace ByteStream

abbrev Bytes := List UInt8

/-! ### The first occurrence of a delimiter -/

section Break

variable {α : Type*} [DecidableEq α]

/-- What stands before and after the first occurrence of `d`. -/
def breakOn (d : List α) : List α → Option (List α × List α)
  | [] => if d = [] then some ([], []) else none
  | b :: bs =>
    if d.isPrefixOf (b :: bs) then some ([], (b :: bs).drop d.length)
    else (breakOn d bs).map fun p => (b :: p.1, p.2)

theorem breakOn_some {d : List α} : ∀ {bs x y : List α}, breakOn d bs = some (x, y) →
    bs = x ++ (d ++ y)
  | [], x, y, h => by
    rw [breakOn] at h
    split_ifs at h with hd
    simp only [Option.some.injEq, Prod.mk.injEq] at h
    simp [← h.1, ← h.2, hd]
  | b :: bs, x, y, h => by
    rw [breakOn] at h
    split_ifs at h with hd
    · simp only [Option.some.injEq, Prod.mk.injEq] at h
      obtain ⟨rfl, rfl⟩ := h
      obtain ⟨t, ht⟩ := List.isPrefixOf_iff_prefix.mp hd
      rw [← ht, List.drop_left]
      rfl
    · obtain ⟨⟨x', y'⟩, hxy, he⟩ := Option.map_eq_some_iff.mp h
      simp only [Prod.mk.injEq] at he
      obtain ⟨rfl, rfl⟩ := he
      rw [breakOn_some hxy]
      rfl

/-- More bytes at the end do not move the first occurrence. -/
theorem breakOn_append {d : List α} (tail : List α) : ∀ {bs x y : List α},
    breakOn d bs = some (x, y) → breakOn d (bs ++ tail) = some (x, y ++ tail)
  | [], x, y, h => by
    rw [breakOn] at h
    split_ifs at h with hd
    simp only [Option.some.injEq, Prod.mk.injEq] at h
    obtain ⟨rfl, rfl⟩ := h
    subst hd
    cases tail <;> simp [breakOn]
  | b :: bs, x, y, h => by
    rw [breakOn] at h
    rw [List.cons_append, breakOn]
    split_ifs at h with hd
    · simp only [Option.some.injEq, Prod.mk.injEq] at h
      obtain ⟨rfl, rfl⟩ := h
      obtain ⟨t, ht⟩ := List.isPrefixOf_iff_prefix.mp hd
      have hd' : d.isPrefixOf (b :: (bs ++ tail)) = true :=
        List.isPrefixOf_iff_prefix.mpr ⟨t ++ tail, by rw [← List.append_assoc, ht]; rfl⟩
      rw [if_pos hd', ← List.cons_append, ← ht, List.append_assoc, List.drop_left, List.drop_left]
    · obtain ⟨⟨x', y'⟩, hxy, he⟩ := Option.map_eq_some_iff.mp h
      simp only [Prod.mk.injEq] at he
      obtain ⟨rfl, rfl⟩ := he
      -- `d` fits behind `b`, so it cannot begin at `b` by reaching into the tail
      have hlen : d.length ≤ (b :: bs).length := by
        have := congrArg List.length (breakOn_some hxy)
        simp only [List.length_append, List.length_cons] at this ⊢
        omega
      have hd' : ¬ d.isPrefixOf (b :: (bs ++ tail)) = true := by
        rw [List.isPrefixOf_iff_prefix] at hd ⊢
        intro hp
        exact hd (List.prefix_of_prefix_length_le hp
          (List.prefix_append (b :: bs) tail) hlen)
      rw [if_neg hd', breakOn_append tail hxy]
      rfl

/-- A delimiter is found at the end of a line that does not hold its first byte. -/
theorem breakOn_line {a : α} {d rest : List α} : ∀ line : List α, a ∉ line →
    breakOn (a :: d) (line ++ (a :: d ++ rest)) = some (line, rest)
  | [], _ => by
    have hd : (a :: d).isPrefixOf (a :: (d ++ rest)) = true :=
      List.isPrefixOf_iff_prefix.mpr (List.prefix_append (a :: d) rest)
    rw [List.nil_append, List.cons_append, breakOn, if_pos hd, ← List.cons_append, List.drop_left]
  | b :: line, h => by
    have hab : a ≠ b := fun h' => h (h' ▸ List.mem_cons_self)
    have hd : ¬ (a :: d).isPrefixOf (b :: (line ++ (a :: d ++ rest))) = true := by
      simp [hab]
    rw [List.cons_append, breakOn, if_neg hd,
      breakOn_line line fun h' => h (List.mem_cons_of_mem _ h')]
    rfl

end Break

/-! ### The reader -/

/-- What a read from a buffered stream raises. -/
inductive StreamError where
  | endOfStream
  | incompleteRead
  | closedResource
  | delimiterNotFound
  deriving DecidableEq, Repr

/-- The errors that say that no more bytes will come. -/
def StreamError.ended : StreamError → Bool
  | .endOfStream | .incompleteRead | .closedResource => true
  | .delimiterNotFound => false

/-- The operations of a buffered reader with states `R`. -/
structure Reader (R : Type*) where
  /-- A reader of the stream that arrives in these chunks and then ends. -/
  ofChunks : List Bytes → R
  /-- The bytes before the delimiter, which is consumed; the number bounds the search. -/
  receiveUntil : R → Bytes → ℕ → Except StreamError Bytes × R
  /-- The given number of bytes. -/
  receiveExactly : R → ℕ → Except StreamError Bytes × R

variable {R : Type*}

/-- The reader stands at the bytes `rest` of its stream, hands out exactly the
next ones, and fails only when the stream ends before it has them. -/
structure Reader.Exact (rd : Reader R) (rest : R → Bytes) : Prop where
  rest_ofChunks : ∀ chunks, rest (rd.ofChunks chunks) = chunks.flatten
  until_ok : ∀ r d n line tail, breakOn d (rest r) = some (line, tail) →
    ∃ r', rd.receiveUntil r d n = (.ok line, r') ∧ rest r' = tail
  until_end : ∀ r d n, breakOn d (rest r) = none →
    ∃ e r', rd.receiveUntil r d n = (.error e, r') ∧ e.ended = true
  exactly_ok : ∀ r n, n ≤ (rest r).length →
    ∃ r', rd.receiveExactly r n = (.ok ((rest r).take n), r') ∧ rest r' = (rest r).drop n
  exactly_end : ∀ r n, (rest r).length < n →
    ∃ e r', rd.receiveExactly r n = (.error e, r') ∧ e.ended = true

/-- The reader hands out the line, and stands at what comes after its delimiter. -/
def Reader.HandsOut (rd : Reader R) (rest : R → Bytes) (r : R) (d : Bytes) (n : ℕ)
    (line tail : Bytes) : Prop :=
  ∃ r', rd.receiveUntil r d n = (.ok line, r') ∧ rest r' = tail

/-- As `Reader.Exact`, of a reader that may fail if the line and its delimiter
are longer than the search is bound to. -/
structure Reader.Bounded (rd : Reader R) (rest : R → Bytes) : Prop where
  rest_ofChunks : ∀ chunks, rest (rd.ofChunks chunks) = chunks.flatten
  until_ok : ∀ r d n line tail, breakOn d (rest r) = some (line, tail) →
    line.length + d.length ≤ n → rd.HandsOut rest r d n line tail
  until_long : ∀ r d n line tail, breakOn d (rest r) = some (line, tail) →
    rd.HandsOut rest r d n line tail ∨ ∃ e r', rd.receiveUntil r d n = (.error e, r')
  exactly_ok : ∀ r n, n ≤ (rest r).length →
    ∃ r', rd.receiveExactly r n = (.ok ((rest r).take n), r') ∧ rest r' = (rest r).drop n

theorem Reader.Exact.bounded {rd : Reader R} {rest : R → Bytes} (h : rd.Exact rest) :
    rd.Bounded rest where
  rest_ofChunks := h.rest_ofChunks
  until_ok r d n line tail hline _ := h.until_ok r d n line tail hline
  until_long r d n line tail hline := .inl (h.until_ok r d n line tail hline)
  exactly_ok := h.exactly_ok

/-- There is a reader at the start of every stream. -/
theorem Reader.Bounded.exists_rest {rd : Reader R} {rest : R → Bytes} (h : rd.Bounded rest)
    (bs : Bytes) : ∃ r, rest r = bs :=
  ⟨rd.ofChunks [bs], by rw [h.rest_ofChunks, List.flatten_singleton]⟩

/-! ### A reader over received chunks -/

/-- The bytes taken from the stream and not yet handed out, and the chunks to come. -/
structure Buffered where
  buffer : Bytes
  chunks : List Bytes
  deriving DecidableEq, Repr

namespace Buffered

def rest (r : Buffered) : Bytes := r.buffer ++ r.chunks.flatten

/-- Receive chunks until the delimiter is in the buffer. -/
def untilFrom (d : Bytes) : Bytes → List Bytes → Except StreamError Bytes × Buffered
  | buffer, [] =>
    match breakOn d buffer with
    | some (line, tail) => (.ok line, ⟨tail, []⟩)
    | none => (.error .incompleteRead, ⟨buffer, []⟩)
  | buffer, c :: cs =>
    match breakOn d buffer with
    | some (line, tail) => (.ok line, ⟨tail, c :: cs⟩)
    | none => untilFrom d (buffer ++ c) cs

/-- Receive chunks until the buffer holds `n` bytes. -/
def exactlyFrom (n : ℕ) : Bytes → List Bytes → Except StreamError Bytes × Buffered
  | buffer, [] =>
    if n ≤ buffer.length then (.ok (buffer.take n), ⟨buffer.drop n, []⟩)
    else (.error .incompleteRead, ⟨buffer, []⟩)
  | buffer, c :: cs =>
    if n ≤ buffer.length then (.ok (buffer.take n), ⟨buffer.drop n, c :: cs⟩)
    else exactlyFrom n (buffer ++ c) cs

def reader : Reader Buffered where
  ofChunks chunks := ⟨[], chunks⟩
  receiveUntil r d _ := untilFrom d r.buffer r.chunks
  receiveExactly r n := exactlyFrom n r.buffer r.chunks

theorem untilFrom_ok {d line tail : Bytes} : ∀ (cs : List Bytes) (buffer : Bytes),
    breakOn d (buffer ++ cs.flatten) = some (line, tail) →
    ∃ r', untilFrom d buffer cs = (.ok line, r') ∧ rest r' = tail
  | [], buffer, h => by
    rw [List.flatten_nil, List.append_nil] at h
    simp only [untilFrom, h]
    exact ⟨_, rfl, by simp [rest]⟩
  | c :: cs, buffer, h => by
    rw [untilFrom]
    cases hb : breakOn d buffer with
    | none =>
      simp only
      refine untilFrom_ok cs (buffer ++ c) ?_
      rwa [List.append_assoc, ← List.flatten_cons]
    | some p =>
      rw [breakOn_append _ hb] at h
      simp only [Option.some.injEq, Prod.mk.injEq] at h
      simp only [← h.1]
      exact ⟨_, rfl, h.2⟩

theorem untilFrom_end {d : Bytes} : ∀ (cs : List Bytes) (buffer : Bytes),
    breakOn d (buffer ++ cs.flatten) = none →
    ∃ r', untilFrom d buffer cs = (.error .incompleteRead, r')
  | [], buffer, h => by
    rw [List.flatten_nil, List.append_nil] at h
    exact ⟨⟨buffer, []⟩, by simp only [untilFrom, h]⟩
  | c :: cs, buffer, h => by
    rw [untilFrom]
    cases hb : breakOn d buffer with
    | none =>
      refine untilFrom_end cs (buffer ++ c) ?_
      rwa [List.append_assoc, ← List.flatten_cons]
    | some p => rw [breakOn_append _ hb] at h; cases h

theorem exactlyFrom_ok {n : ℕ} : ∀ (cs : List Bytes) (buffer : Bytes),
    n ≤ (buffer ++ cs.flatten).length →
    ∃ r', exactlyFrom n buffer cs = (.ok ((buffer ++ cs.flatten).take n), r') ∧
      rest r' = (buffer ++ cs.flatten).drop n
  | [], buffer, h => by
    rw [List.flatten_nil, List.append_nil] at h ⊢
    rw [exactlyFrom, if_pos h]
    exact ⟨_, rfl, by simp [rest]⟩
  | c :: cs, buffer, h => by
    rw [exactlyFrom]
    split_ifs with hn
    · refine ⟨⟨buffer.drop n, c :: cs⟩, ?_, ?_⟩
      · rw [List.take_append_of_le_length hn]
      · rw [List.drop_append_of_le_length hn]
        rfl
    · rw [List.flatten_cons, ← List.append_assoc] at h ⊢
      exact exactlyFrom_ok cs (buffer ++ c) h

theorem exactlyFrom_end {n : ℕ} : ∀ (cs : List Bytes) (buffer : Bytes),
    (buffer ++ cs.flatten).length < n →
    ∃ r', exactlyFrom n buffer cs = (.error .incompleteRead, r')
  | [], buffer, h => by
    rw [List.flatten_nil, List.append_nil] at h
    exact ⟨_, by rw [exactlyFrom, if_neg (by omega)]⟩
  | c :: cs, buffer, h => by
    rw [exactlyFrom]
    split_ifs with hn
    · rw [List.length_append] at h
      omega
    · rw [List.flatten_cons, ← List.append_assoc] at h
      exact exactlyFrom_end cs (buffer ++ c) h

/-- **However the stream is cut into chunks, the reader hands out its next bytes.** -/
theorem exact : Reader.Exact reader rest where
  rest_ofChunks chunks := by simp [reader, rest]
  until_ok r _ _ _ _ h := untilFrom_ok r.chunks r.buffer h
  until_end r _ _ h :=
    have ⟨r', hr⟩ := untilFrom_end r.chunks r.buffer h
    ⟨_, r', hr, rfl⟩
  exactly_ok r _ h := exactlyFrom_ok r.chunks r.buffer h
  exactly_end r _ h :=
    have ⟨r', hr⟩ := exactlyFrom_end r.chunks r.buffer h
    ⟨_, r', hr, rfl⟩

end Buffered

/-! ### UTF-8 -/

/-- `str.encode("utf-8")`. -/
def encodeUtf8 (t : List Char) : Bytes := t.flatMap String.utf8EncodeChar

/-- `bytes.decode("utf-8")`, `none` where it raises. -/
def decodeUtf8 (b : Bytes) : Option (List Char) := b.toByteArray.utf8Decode?.map Array.toList

theorem decodeUtf8_encodeUtf8 (t : List Char) : decodeUtf8 (encodeUtf8 t) = some t := by
  have h : (encodeUtf8 t).toByteArray = t.utf8Encode := rfl
  rw [decodeUtf8, h, List.utf8Decode?_utf8Encode]
  rfl

theorem encodeUtf8_append (s t : List Char) : encodeUtf8 (s ++ t) = encodeUtf8 s ++ encodeUtf8 t :=
  List.flatMap_append

theorem encodeUtf8_ne_nil {t : List Char} (h : t ≠ []) : encodeUtf8 t ≠ [] := by
  obtain ⟨c, cs, rfl⟩ := List.exists_cons_of_ne_nil h
  rw [encodeUtf8, List.flatMap_cons]
  exact List.append_ne_nil_of_left_ne_nil String.utf8EncodeChar_ne_nil _

/-- An ASCII character is one byte, its code. -/
theorem encodeUtf8_ascii : ∀ t : List Char, (∀ c ∈ t, c.toNat < 128) →
    encodeUtf8 t = t.map fun c => c.toNat.toUInt8
  | [], _ => rfl
  | c :: cs, h => by
    have hc : String.utf8EncodeChar c = [c.toNat.toUInt8] := by
      have hle : ¬ 127 < c.toNat := Nat.not_lt.mpr (Nat.le_of_lt_succ (h c List.mem_cons_self))
      simp [String.utf8EncodeChar, hle]
    have ih := encodeUtf8_ascii cs fun x hx => h x (List.mem_cons_of_mem _ hx)
    rw [encodeUtf8, List.flatMap_cons, hc, List.map_cons, ← ih]
    rfl

end ByteStream
end LspClient
