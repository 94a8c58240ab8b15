/-
# Runs of one server after another

A `StreamServer` may be run again: `manage_resources` connects a new stream for
each run. `receive` reads from a buffered reader that is made over the run's
stream when it is first asked for, and is then kept on the server
(`cached_property`), beyond the run.

So all that is ever received is read from the stream of the first run in which
`receive` has been called. It is the run's own stream just if no call of
`receive` returns in a run after an earlier one in which it has been called, and
each run is then served as by a new server (`reruns_iff`).

A reader has what its stream delivers in it (`Reader.ofChunks`), and it is named
by the number of the run that connected the stream. What the end of a run or a
cancelled read leave of a reader is open.

Key definitions: `ServerRun`, `bufferedReceiveStream`, `serve`, `alone`.
Key theorems: `serveFrom_cached`, `reruns_iff`.
-/
import LspClient.Framing

namespace LspClient
namespace Reruns

open ByteStream

/-- A call of `receive`. -/
inductive Call (R : Type*) where
  | returns
  /-- It is cancelled while it waits; what that leaves of the reader. -/
  | cancelled (leaves : R → R)

/-- Does the call return? -/
def Call.isReturn {R : Type*} : Call R → Bool
  | .returns => true
  | .cancelled _ => false

/-- A run of the server: the chunks in which its stream delivers, the calls of `receive`, and what the
end of the run leaves of a reader. -/
structure ServerRun (R : Type*) where
  chunks : List Bytes
  calls : List (Call R)
  ends : R → R

/-- `BufferedByteReceiveStream`, over the stream of a run. -/
structure BufferedReceiveStream (R : Type*) where
  receiveStream : ℕ
  reader : R

/-- What a call of `receive` has returned: in which run, from the stream of which run. -/
structure Received where
  run : ℕ
  receiveStream : ℕ
  package : Except ReadError (Option Json)

section

variable {R : Type*} (rd : Reader R) (js : JsonModule)

/-- `_buffered_receive_stream`: what is cached, else a reader over the stream of the run. -/
def bufferedReceiveStream (k : ℕ) (chunks : List Bytes) (cached : Option (BufferedReceiveStream R)) :
    BufferedReceiveStream R := cached.getD ⟨k, rd.ofChunks chunks⟩

/-- A call of `receive` in run `k`: what it returns, and what is cached then. -/
def callReceive (k : ℕ) (chunks : List Bytes) (cached : Option (BufferedReceiveStream R)) :
    Call R → List Received × Option (BufferedReceiveStream R)
  | .returns =>
    let buffered := bufferedReceiveStream rd k chunks cached
    let p := receive rd js buffered.reader
    ([⟨k, buffered.receiveStream, p.1⟩], some { buffered with reader := p.2 })
  | .cancelled leaves =>
    let buffered := bufferedReceiveStream rd k chunks cached
    ([], some { buffered with reader := leaves buffered.reader })

/-- The calls of run `k`. -/
def receiveAll (k : ℕ) (chunks : List Bytes) : Option (BufferedReceiveStream R) → List (Call R) →
    List Received × Option (BufferedReceiveStream R)
  | cached, [] => ([], cached)
  | cached, call :: calls =>
    let p := callReceive rd js k chunks cached call
    let q := receiveAll k chunks p.2 calls
    (p.1 ++ q.1, q.2)

/-- The runs from number `k` on. -/
def serveFrom : ℕ → Option (BufferedReceiveStream R) → List (ServerRun R) → List Received
  | _, _, [] => []
  | k, cached, run :: runs =>
    let p := receiveAll rd js k run.chunks cached run.calls
    p.1 ++ serveFrom (k + 1) (p.2.map fun b => { b with reader := run.ends b.reader }) runs

/-- All that a server receives in its runs. -/
def serve (runs : List (ServerRun R)) : List Received := serveFrom rd js 0 none runs

/-- All that a new server would receive in run `k`. -/
def alone (k : ℕ) (run : ServerRun R) : List Received := (receiveAll rd js k run.chunks none run.calls).1

/-- No call of `receive` returns in the run. -/
def ServerRun.Silent (run : ServerRun R) : Prop := ∀ call ∈ run.calls, call.isReturn = false

/-! ### The stream that is read -/

/-- Once a reader is cached, a call reads from it. -/
theorem callReceive_cached (k n : ℕ) (chunks : List Bytes) (call : Call R) (r : R) :
    (∀ o ∈ (callReceive rd js k chunks (some ⟨n, r⟩) call).1, o.run = k ∧ o.receiveStream = n) ∧
    ((callReceive rd js k chunks (some ⟨n, r⟩) call).1 = [] ↔ call.isReturn = false) ∧
    ∃ r', (callReceive rd js k chunks (some ⟨n, r⟩) call).2 = some ⟨n, r'⟩ := by
  cases call with
  | returns =>
    exact ⟨by simp [callReceive, bufferedReceiveStream], by simp [callReceive, Call.isReturn], _, rfl⟩
  | cancelled leaves => exact ⟨by simp [callReceive], by simp [callReceive, Call.isReturn], _, rfl⟩

theorem receiveAll_cached (k n : ℕ) (chunks : List Bytes) : ∀ (calls : List (Call R)) (r : R),
    (∀ o ∈ (receiveAll rd js k chunks (some ⟨n, r⟩) calls).1, o.run = k ∧ o.receiveStream = n) ∧
    ((receiveAll rd js k chunks (some ⟨n, r⟩) calls).1 = [] ↔ ∀ call ∈ calls, call.isReturn = false) ∧
    ∃ r', (receiveAll rd js k chunks (some ⟨n, r⟩) calls).2 = some ⟨n, r'⟩
  | [], r => ⟨by simp [receiveAll], by simp [receiveAll], r, rfl⟩
  | call :: calls, r => by
    obtain ⟨hread, hnil, r', hcached⟩ := callReceive_cached rd js k n chunks call r
    obtain ⟨hreads, hnils, hcacheds⟩ := receiveAll_cached k n chunks calls r'
    rw [receiveAll, hcached]
    refine ⟨List.forall_mem_append.mpr ⟨hread, hreads⟩, ?_, hcacheds⟩
    show _ ++ _ = [] ↔ _
    rw [List.append_eq_nil_iff, hnil, hnils, List.forall_mem_cons]

/-- The first call makes a reader over the stream of its run. -/
theorem receiveAll_none (k : ℕ) (chunks : List Bytes) {calls : List (Call R)} (h : calls ≠ []) :
    receiveAll rd js k chunks none calls =
      receiveAll rd js k chunks (some ⟨k, rd.ofChunks chunks⟩) calls := by
  obtain ⟨call, rest, rfl⟩ := List.exists_cons_of_ne_nil h
  cases call <;> rfl

/-- What a new server receives is from the stream of its run. -/
theorem alone_own (k : ℕ) (run : ServerRun R) :
    ∀ o ∈ alone rd js k run, o.run = k ∧ o.receiveStream = k := by
  unfold alone
  by_cases hcalls : run.calls = []
  · rw [hcalls, receiveAll]
    simp
  · rw [receiveAll_none rd js k run.chunks hcalls]
    exact (receiveAll_cached rd js k k run.chunks run.calls _).1

theorem alone_silent (k : ℕ) {run : ServerRun R} (h : run.Silent) : alone rd js k run = [] := by
  unfold alone
  by_cases hcalls : run.calls = []
  · rw [hcalls, receiveAll]
  · rw [receiveAll_none rd js k run.chunks hcalls]
    exact (receiveAll_cached rd js k k run.chunks run.calls _).2.1.mpr h

/-- With a reader over an earlier stream, what the server receives is from the streams of the runs only
if it is nothing. -/
theorem serveFrom_cached : ∀ (runs : List (ServerRun R)) (k n : ℕ) (r : R), n < k →
    ((∀ o ∈ serveFrom rd js k (some ⟨n, r⟩) runs, o.receiveStream = o.run) ↔
      ∀ run ∈ runs, run.Silent) ∧
    ((∀ run ∈ runs, run.Silent) → serveFrom rd js k (some ⟨n, r⟩) runs = [])
  | [], k, n, r, _ => by simp [serveFrom]
  | run :: runs, k, n, r, hlt => by
    obtain ⟨hread, hnil, r', hcached⟩ := receiveAll_cached rd js k n run.chunks run.calls r
    obtain ⟨hiff, hnone⟩ := serveFrom_cached runs (k + 1) n (run.ends r') (by omega)
    rw [serveFrom, hcached]
    simp only [Option.map_some]
    have hown : (∀ o ∈ (receiveAll rd js k run.chunks (some ⟨n, r⟩) run.calls).1,
        o.receiveStream = o.run) ↔ run.Silent := by
      unfold ServerRun.Silent
      rw [← hnil]
      refine ⟨fun h => List.eq_nil_iff_forall_not_mem.mpr fun o ho => ?_, fun h => by simp [h]⟩
      have heq := h o ho
      rw [(hread o ho).1, (hread o ho).2] at heq
      omega
    rw [List.forall_mem_append, hown, hiff, List.forall_mem_cons]
    refine ⟨Iff.rfl, fun ⟨hsilent, hrest⟩ => ?_⟩
    rw [hnone hrest, hnil.mpr hsilent, List.append_nil]

/-- The runs of a server that has not received anything yet. -/
theorem serveFrom_none : ∀ (runs : List (ServerRun R)) (k : ℕ),
    ((∀ o ∈ serveFrom rd js k none runs, o.receiveStream = o.run) ↔
      runs.Pairwise fun earlier later => earlier.calls = [] ∨ later.Silent) ∧
    (runs.Pairwise (fun earlier later => earlier.calls = [] ∨ later.Silent) →
      serveFrom rd js k none runs = (runs.mapIdx fun i run => alone rd js (k + i) run).flatten)
  | [], k => by simp [serveFrom]
  | run :: runs, k => by
    have hfirst : ∀ o ∈ alone rd js k run, o.receiveStream = o.run := fun o ho => by
      rw [(alone_own rd js k run o ho).1, (alone_own rd js k run o ho).2]
    rw [serveFrom]
    show ((∀ o ∈ alone rd js k run ++ _, _) ↔ _) ∧ (_ → alone rd js k run ++ _ = _)
    rw [List.forall_mem_append, and_iff_right hfirst, List.pairwise_cons, List.mapIdx_cons,
      List.flatten_cons]
    have hshift : (runs.mapIdx fun i run => alone rd js (k + (i + 1)) run) =
        runs.mapIdx fun i run => alone rd js (k + 1 + i) run := by
      simp only [Nat.add_comm 1, Nat.add_assoc]
    rw [hshift]
    by_cases hcalls : run.calls = []
    · obtain ⟨hiff, hserve⟩ := serveFrom_none runs (k + 1)
      have hnone : (receiveAll rd js k run.chunks none run.calls).2 = none := by
        rw [hcalls, receiveAll]
      rw [hnone, Option.map_none, hiff, and_iff_right fun _ _ => .inl hcalls]
      exact ⟨Iff.rfl, fun h => congrArg _ (hserve h)⟩
    · obtain ⟨-, -, r', hcached⟩ := receiveAll_cached rd js k k run.chunks run.calls (rd.ofChunks run.chunks)
      obtain ⟨hiff, hserve⟩ := serveFrom_cached rd js runs (k + 1) k (run.ends r') (Nat.lt_succ_self k)
      rw [receiveAll_none rd js k run.chunks hcalls, hcached, Option.map_some, hiff]
      have hall : (∀ later ∈ runs, run.calls = [] ∨ later.Silent) ↔ ∀ later ∈ runs, later.Silent :=
        forall₂_congr fun _ _ => or_iff_right hcalls
      have hpairs (h : ∀ later ∈ runs, later.Silent) :
          runs.Pairwise fun earlier later => earlier.calls = [] ∨ later.Silent :=
        List.pairwise_iff_forall_sublist.mpr fun hsub =>
          .inr (h _ (hsub.subset (List.mem_cons_of_mem _ List.mem_cons_self)))
      rw [hall, and_iff_left_of_imp hpairs]
      refine ⟨Iff.rfl, fun h => ?_⟩
      have hnone : (runs.mapIdx fun i run => alone rd js (k + 1 + i) run).flatten = [] := by
        refine List.flatten_eq_nil_iff.mpr fun l hl => ?_
        obtain ⟨i, hi, rfl⟩ := List.mem_mapIdx.mp hl
        exact alone_silent rd js (k + 1 + i) (h _ (List.getElem_mem hi))
      rw [hserve h, hnone]
      rfl

/-- **When a server can be run again.** All that is received in each run is read from the run's own
stream just if no call of `receive` returns in a run after an earlier one in which it has been called.
Then each run is served as by a new server. -/
theorem reruns_iff (runs : List (ServerRun R)) :
    ((∀ o ∈ serve rd js runs, o.receiveStream = o.run) ↔
      runs.Pairwise fun earlier later => earlier.calls = [] ∨ later.Silent) ∧
    (runs.Pairwise (fun earlier later => earlier.calls = [] ∨ later.Silent) →
      serve rd js runs = (runs.mapIdx fun k run => alone rd js k run).flatten) := by
  obtain ⟨hiff, hserve⟩ := serveFrom_none rd js runs 0
  refine ⟨hiff, fun h => ?_⟩
  have hall := hserve h
  simp only [Nat.zero_add] at hall
  exact hall

end

/-- Two runs, each with one call of `receive`: the stream of the first has ended, and that of the
second holds a frame. -/
def twoRuns : List (ServerRun Buffered) :=
  [⟨[], [.returns], id⟩,
    ⟨[writeRawPackage oneObject (.obj [("id".toList, .int 1)])], [.returns], id⟩]

/-- In the second run `receive` returns `None`, the end of the first one's stream. -/
theorem reruns_stale :
    ¬∀ o ∈ serve Buffered.reader oneObject twoRuns, o.receiveStream = o.run := by
  have hserve : serve Buffered.reader oneObject twoRuns = [⟨0, 0, .ok none⟩, ⟨1, 0, .ok none⟩] := rfl
  intro h
  have hsecond := h ⟨1, 0, .ok none⟩ (by rw [hserve]; exact .tail _ (.head _))
  cases hsecond

end Reruns
end LspClient
