/-
# Percent encoding

`quote` writes a text with the bytes of its UTF-8 form, other than the safe
ASCII characters, as `%XX`; `unquote` reads such a text back and decodes what
it reads, run by run of ASCII characters, as UTF-8 with U+FFFD in place of
what is malformed. What has been quoted is read back (`unquote_quote`). Each
escape makes the text shorter (`length_unquoteFrom`), so a text is left alone
just if there is none in it (`unquote_eq_self_iff`).

Key definitions: `Pending`, `feed`, `unquote`, `hasEscape`, `quote`.
Key theorems: `unquote_quote`, `unquote_eq_self_iff`.
-/
import LspClient.Lib.ByteStream

namespace LspClient
namespace Percent

open ByteStream

/-! ### UTF-8 with replacement -/

/-- The replacement character. -/
def replacement : Char := '\ufffd'

/-- A character under way: the bytes still missing, the bits read, and the
bounds of the next byte. -/
structure Pending where
  missing : ℕ
  bits : ℕ
  lo : ℕ
  hi : ℕ
  deriving DecidableEq, Repr

/-- A first byte: the character it is, or begins. -/
def lead (b : ℕ) : List Char × Option Pending :=
  if b < 0x80 then ([Char.ofNat b], none)
  else if b < 0xc2 then ([replacement], none)
  else if b < 0xe0 then ([], some ⟨1, b - 0xc0, 0x80, 0xbf⟩)
  else if b < 0xf0 then
    ([], some ⟨2, b - 0xe0, if b = 0xe0 then 0xa0 else 0x80, if b = 0xed then 0x9f else 0xbf⟩)
  else if b < 0xf5 then
    ([], some ⟨3, b - 0xf0, if b = 0xf0 then 0x90 else 0x80, if b = 0xf4 then 0x8f else 0xbf⟩)
  else ([replacement], none)

/-- One more byte: the characters it completes, and the one now under way. -/
def feed (st : Option Pending) (b : ℕ) : List Char × Option Pending :=
  match st with
  | none => lead b
  | some p =>
    if p.lo ≤ b ∧ b ≤ p.hi then
      if p.missing = 1 then ([Char.ofNat (p.bits * 64 + (b - 0x80))], none)
      else ([], some ⟨p.missing - 1, p.bits * 64 + (b - 0x80), 0x80, 0xbf⟩)
    else (replacement :: (lead b).1, (lead b).2)

/-- The end of the bytes. -/
def flush : Option Pending → List Char
  | none => []
  | some _ => [replacement]

/-! ### Reading -/

def hexDigit (c : Char) : Option ℕ :=
  if '0' ≤ c ∧ c ≤ '9' then some (c.toNat - 48)
  else if 'a' ≤ c ∧ c ≤ 'f' then some (c.toNat - 87)
  else if 'A' ≤ c ∧ c ≤ 'F' then some (c.toNat - 55)
  else none

/-- The byte of two hexadecimal digits. -/
def hexByte (a b : Char) : Option ℕ :=
  match hexDigit a, hexDigit b with
  | some m, some n => some (16 * m + n)
  | _, _ => none

/-- The text read from the rest of an escaped one, a character being under way. -/
def unquoteFrom : Option Pending → List Char → List Char
  | st, [] => flush st
  | st, '%' :: a :: b :: rest =>
    match hexByte a b with
    | some x => (feed st x).1 ++ unquoteFrom (feed st x).2 rest
    | none => (feed st 0x25).1 ++ unquoteFrom (feed st 0x25).2 (a :: b :: rest)
  | st, c :: cs =>
    if c.toNat < 0x80 then (feed st c.toNat).1 ++ unquoteFrom (feed st c.toNat).2 cs
    else flush st ++ c :: unquoteFrom none cs

/-- `unquote(string)`. -/
def unquote (s : List Char) : List Char := unquoteFrom none s

/-- Does the text have a `%` with two hexadecimal digits after it? -/
def hasEscape : List Char → Bool
  | [] => false
  | '%' :: a :: b :: rest => (hexByte a b).isSome || hasEscape (a :: b :: rest)
  | _ :: cs => hasEscape cs

/-! ### Writing -/

def hexUpper (n : ℕ) : Char := Char.ofNat (if n < 10 then 48 + n else 55 + n)

/-- The characters that stand for themselves. -/
def isSafe (c : Char) : Bool := c.isAlphanum || c = '_' || c = '.' || c = '-' || c = '~' || c = '/'

/-- One byte. -/
def quoteByte (b : UInt8) : List Char :=
  let c := Char.ofNat b.toNat
  if isSafe c then [c] else ['%', hexUpper (b.toNat / 16), hexUpper (b.toNat % 16)]

/-- `quote_from_bytes(bs)`. -/
def quoteFromBytes (bs : Bytes) : List Char := bs.flatMap quoteByte

/-! ### Reading what was written -/

theorem feed_ascii {b : ℕ} (h : b < 0x80) : feed none b = ([Char.ofNat b], none) := by
  rw [feed, lead, if_pos h]

theorem unquoteFrom_char {c : Char} (h : c ≠ '%') (st : Option Pending) (cs : List Char) :
    unquoteFrom st (c :: cs) =
      if c.toNat < 0x80 then (feed st c.toNat).1 ++ unquoteFrom (feed st c.toNat).2 cs
      else flush st ++ c :: unquoteFrom none cs := by
  rw [unquoteFrom]
  rintro a b rest rfl
  exact absurd rfl h

/-- What a byte completes, and the character then under way, take no more than
the byte and the character under way before it. -/
theorem length_feed (st : Option Pending) (b : ℕ) :
    (feed st b).1.length + (flush (feed st b).2).length ≤ 1 + (flush st).length := by
  have hlead : (lead b).1.length + (flush (lead b).2).length = 1 := by
    unfold lead
    split_ifs <;> rfl
  cases st with
  | none => exact Nat.le_of_eq hlead
  | some p =>
    have hflush : (flush (some p)).length = 1 := rfl
    unfold feed
    simp only
    split_ifs
    · exact Nat.le_succ 1
    · exact Nat.le_succ 1
    · simp only [List.length_cons]
      omega

/-- Reading makes a text shorter if there is an escape in it. -/
theorem length_unquoteFrom (st : Option Pending) (s : List Char) :
    (unquoteFrom st s).length + (hasEscape s).toNat ≤ s.length + (flush st).length := by
  induction st, s using unquoteFrom.induct with
  | case1 st => simp [unquoteFrom, hasEscape]
  | case2 st a b rest x hx ih =>
    -- three characters are read as at most one
    have hfeed := length_feed st x
    have hle := (hasEscape ('%' :: a :: b :: rest)).toNat_le
    rw [unquoteFrom, hx]
    simp only [List.length_append, List.length_cons]
    omega
  | case3 st a b rest hx ih =>
    have hfeed := length_feed st 0x25
    rw [unquoteFrom, hx, hasEscape, hx, Option.isSome_none, Bool.false_or]
    simp only [List.length_append, List.length_cons] at ih ⊢
    omega
  | case4 st c cs hne hc ih =>
    have hfeed := length_feed st c.toNat
    rw [unquoteFrom, if_pos hc, hasEscape]
    · simp only [List.length_append, List.length_cons]
      omega
    · exact hne
    · exact hne
  | case5 st c cs hne hc ih =>
    have hnone : (flush none).length = 0 := rfl
    rw [unquoteFrom, if_neg hc, hasEscape]
    · simp only [List.length_append, List.length_cons]
      omega
    · exact hne
    · exact hne

theorem unquoteFrom_unescaped {st : Option Pending} {s : List Char} (hst : st = none)
    (h : hasEscape s = false) : unquoteFrom st s = s := by
  induction st, s using unquoteFrom.induct with
  | case1 st => rw [hst]; rfl
  | case2 st a b rest x hx ih =>
    rw [hasEscape, hx] at h
    cases h
  | case3 st a b rest hx ih =>
    subst hst
    rw [hasEscape, hx] at h
    rw [unquoteFrom, hx]
    exact congrArg ('%' :: ·) (ih rfl h)
  | case4 st c cs hne hc ih =>
    subst hst
    rw [feed_ascii hc] at ih
    rw [hasEscape] at h
    · rw [unquoteFrom, if_pos hc, feed_ascii hc, Char.ofNat_toNat]
      · exact congrArg (c :: ·) (ih rfl h)
      · exact hne
    · exact hne
  | case5 st c cs hne hc ih =>
    subst hst
    rw [hasEscape] at h
    · rw [unquoteFrom, if_neg hc]
      · exact congrArg (c :: ·) (ih rfl h)
      · exact hne
    · exact hne

/-- **A text is left alone** just if there are no escapes in it. -/
theorem unquote_eq_self_iff {s : List Char} : unquote s = s ↔ hasEscape s = false := by
  refine ⟨fun h => ?_, unquoteFrom_unescaped rfl⟩
  have hlen := length_unquoteFrom none s
  rw [show unquoteFrom none s = s from h] at hlen
  have hnone : (flush none).length = 0 := rfl
  cases hs : hasEscape s with
  | false => rfl
  | true =>
    rw [hs, Bool.toNat_true] at hlen
    omega

theorem hasEscape_plain {s : List Char} (h : '%' ∉ s) : hasEscape s = false := by
  induction s with
  | nil => rfl
  | cons c cs ih =>
    rw [hasEscape]
    · exact ih fun hm => h (List.mem_cons_of_mem _ hm)
    · rintro a b rest rfl
      exact absurd List.mem_cons_self h

theorem hexDigit_hexUpper : ∀ n < 16, hexDigit (hexUpper n) = some n := by decide

theorem hexByte_hexUpper {n : ℕ} (h : n < 256) :
    hexByte (hexUpper (n / 16)) (hexUpper (n % 16)) = some n := by
  rw [hexByte, hexDigit_hexUpper _ (by omega), hexDigit_hexUpper _ (by omega)]
  simp only [Option.some.injEq]
  omega

theorem isSafe_ascii : ∀ n < 256, isSafe (Char.ofNat n) = true → n < 0x80 ∧ Char.ofNat n ≠ '%' := by
  decide +kernel

theorem isSafe_hexUpper : ∀ n < 16, isSafe (hexUpper n) = true := by decide

/-- A quoted byte is read as this byte. -/
theorem unquoteFrom_quoteByte (b : UInt8) (st : Option Pending) (rest : List Char) :
    unquoteFrom st (quoteByte b ++ rest) =
      (feed st b.toNat).1 ++ unquoteFrom (feed st b.toNat).2 rest := by
  have hb : b.toNat < 256 := UInt8.toNat_lt_size b
  unfold quoteByte
  by_cases hs : isSafe (Char.ofNat b.toNat) = true
  · obtain ⟨hlt, hne⟩ := isSafe_ascii _ hb hs
    have hto : (Char.ofNat b.toNat).toNat = b.toNat := by
      rw [Char.ofNat, dif_pos (Or.inl (by omega))]
      rfl
    simp only [hs, ↓reduceIte, List.cons_append, List.nil_append]
    rw [unquoteFrom_char hne, hto, if_pos hlt]
  · simp only [hs, Bool.false_eq_true, ↓reduceIte, List.cons_append, List.nil_append]
    rw [unquoteFrom, hexByte_hexUpper hb]

theorem feed_more {p : Pending} {b : ℕ} (hb : p.lo ≤ b ∧ b ≤ p.hi) (hm : p.missing ≠ 1) :
    feed (some p) b = ([], some ⟨p.missing - 1, p.bits * 64 + (b - 0x80), 0x80, 0xbf⟩) := by
  rw [feed]
  simp only [hb, hm, and_self, ↓reduceIte]

theorem feed_last {p : Pending} {b : ℕ} (hb : p.lo ≤ b ∧ b ≤ p.hi) (hm : p.missing = 1) :
    feed (some p) b = ([Char.ofNat (p.bits * 64 + (b - 0x80))], none) := by
  rw [feed]
  simp only [hb, hm, and_self, ↓reduceIte]

/-- The bytes of a character are read as the character. -/
theorem unquoteFrom_quoteChar (c : Char) (rest : List Char) :
    unquoteFrom none (quoteFromBytes (String.utf8EncodeChar c) ++ rest) =
      c :: unquoteFrom none rest := by
  have hv : c.val.toNat < 0xd800 ∨ 0xdfff < c.val.toNat ∧ c.val.toNat < 0x110000 := c.valid
  have hc : Char.ofNat c.val.toNat = c := Char.ofNat_toNat c
  unfold String.utf8EncodeChar quoteFromBytes
  generalize c.val.toNat = v at hv hc
  simp only
  by_cases h1 : v ≤ 0x7f
  · rw [if_pos h1, List.flatMap_cons, List.flatMap_nil, List.append_nil, unquoteFrom_quoteByte,
      UInt8.toNat_ofNat_of_lt' (by simp only [UInt8.size]; omega), feed_ascii (by omega), hc]
    rfl
  by_cases h2 : v ≤ 0x7ff
  · rw [if_neg h1, if_pos h2]
    simp only [List.flatMap_cons, List.flatMap_nil, List.append_nil, List.append_assoc,
      unquoteFrom_quoteByte]
    rw [UInt8.toNat_ofNat_of_lt' (by simp only [UInt8.size]; omega),
      UInt8.toNat_ofNat_of_lt' (by simp only [UInt8.size]; omega)]
    have hl : feed none (v / 64 % 0x20 + 0xc0) = ([], some ⟨1, v / 64, 0x80, 0xbf⟩) := by
      rw [feed, lead, if_neg (by omega), if_neg (by omega), if_pos (by omega)]
      simp only [Prod.mk.injEq, Option.some.injEq, Pending.mk.injEq, true_and, and_true]
      omega
    rw [hl, feed_last (by simp only; omega) rfl]
    simp only [List.nil_append, List.cons_append]
    rw [show v / 64 * 64 + (v % 0x40 + 0x80 - 0x80) = v by omega, hc]
  by_cases h3 : v ≤ 0xffff
  · rw [if_neg h1, if_neg h2, if_pos h3]
    simp only [List.flatMap_cons, List.flatMap_nil, List.append_nil, List.append_assoc,
      unquoteFrom_quoteByte]
    rw [UInt8.toNat_ofNat_of_lt' (by simp only [UInt8.size]; omega),
      UInt8.toNat_ofNat_of_lt' (by simp only [UInt8.size]; omega),
      UInt8.toNat_ofNat_of_lt' (by simp only [UInt8.size]; omega)]
    have hl : feed none (v / 4096 % 0x10 + 0xe0) = ([], some ⟨2, v / 4096,
        if v / 4096 = 0 then 0xa0 else 0x80, if v / 4096 = 13 then 0x9f else 0xbf⟩) := by
      rw [feed, lead, if_neg (by omega), if_neg (by omega), if_neg (by omega), if_pos (by omega)]
      simp only [Prod.mk.injEq, Option.some.injEq, Pending.mk.injEq, true_and]
      refine ⟨by omega, ?_, ?_⟩ <;> split_ifs <;> omega
    -- the bounds of the second byte leave out the overlong forms and the surrogates
    have hn : (if v / 4096 = 0 then 0xa0 else 0x80) ≤ v / 64 % 0x40 + 0x80 ∧
        v / 64 % 0x40 + 0x80 ≤ if v / 4096 = 13 then 0x9f else 0xbf := by
      split_ifs <;> omega
    rw [hl, feed_more hn (by simp only; omega), feed_last (by simp only; omega) rfl]
    simp only [List.nil_append, List.cons_append]
    rw [show (v / 4096 * 64 + (v / 64 % 0x40 + 0x80 - 0x80)) * 64 + (v % 0x40 + 0x80 - 0x80) = v by
      omega, hc]
  · rw [if_neg h1, if_neg h2, if_neg h3]
    simp only [List.flatMap_cons, List.flatMap_nil, List.append_nil, List.append_assoc,
      unquoteFrom_quoteByte]
    rw [UInt8.toNat_ofNat_of_lt' (by simp only [UInt8.size]; omega),
      UInt8.toNat_ofNat_of_lt' (by simp only [UInt8.size]; omega),
      UInt8.toNat_ofNat_of_lt' (by simp only [UInt8.size]; omega),
      UInt8.toNat_ofNat_of_lt' (by simp only [UInt8.size]; omega)]
    have hl : feed none (v / 262144 % 0x08 + 0xf0) = ([], some ⟨3, v / 262144,
        if v / 262144 = 0 then 0x90 else 0x80, if v / 262144 = 4 then 0x8f else 0xbf⟩) := by
      rw [feed, lead, if_neg (by omega), if_neg (by omega), if_neg (by omega), if_neg (by omega),
        if_pos (by omega)]
      simp only [Prod.mk.injEq, Option.some.injEq, Pending.mk.injEq, true_and]
      refine ⟨by omega, ?_, ?_⟩ <;> split_ifs <;> omega
    have hn : (if v / 262144 = 0 then 0x90 else 0x80) ≤ v / 4096 % 0x40 + 0x80 ∧
        v / 4096 % 0x40 + 0x80 ≤ if v / 262144 = 4 then 0x8f else 0xbf := by
      split_ifs <;> omega
    rw [hl, feed_more hn (by simp only; omega), feed_more (by simp only; omega) (by simp only; omega),
      feed_last (by simp only; omega) rfl]
    simp only [List.nil_append, List.cons_append]
    rw [show ((v / 262144 * 64 + (v / 4096 % 0x40 + 0x80 - 0x80)) * 64 +
      (v / 64 % 0x40 + 0x80 - 0x80)) * 64 + (v % 0x40 + 0x80 - 0x80) = v by omega, hc]

/-- **What has been quoted is read back.** -/
theorem unquote_quote : ∀ t : List Char, unquote (quoteFromBytes (encodeUtf8 t)) = t
  | [] => rfl
  | c :: cs => by
    have ih : unquoteFrom none (quoteFromBytes (encodeUtf8 cs)) = cs := unquote_quote cs
    calc unquote (quoteFromBytes (encodeUtf8 (c :: cs)))
        = c :: unquoteFrom none (quoteFromBytes (encodeUtf8 cs)) := by
          rw [unquote, encodeUtf8, List.flatMap_cons, quoteFromBytes, List.flatMap_append,
            ← quoteFromBytes, unquoteFrom_quoteChar]
          rfl
      _ = c :: cs := by rw [ih]

example : unquote "a%20b%C3%A9%zz%E2%82x%".toList = "a bé%zz\ufffdx%".toList := by decide

example : quoteFromBytes (encodeUtf8 "/a bé%".toList) = "/a%20b%C3%A9%25".toList := by decide

end Percent
end LspClient
