/-
# Requests without an answer

What holds of the calls and the table of `ResponseTable` in every run, also when
sends fail and timeouts strike: an id the server has been told and has not
answered has its entry, and so has a call whose frame has not left, as an entry
is popped for a response only; and what a call returns is a response that was
given under its id.

Three kinds of steps matter to this: a call begins, the server is told of it,
the server answers. The others hand responses on (`Quiet`).

Key definitions: `responses`, `Table`, `Quiet`.
Key theorems: `quiet_step`, `table_step`, `table_drained`.
-/
import LspClient.Requests

set_option linter.unusedSectionVars false

namespace LspClient
namespace Requests

open State

variable {κ Id β : Type*} [DecidableEq κ] [DecidableEq Id]

/-- The responses that have been given and are on their way or have their handlers. -/
def responses (s : State κ Id β) : List (Response Id β) := s.wire ++ s.handlers.map Handler.resp

/-- The server has not been told of the request, and there is no response for it. -/
def Unknown (s : State κ Id β) (id : Id) : Prop :=
  id ∉ s.received ∧ ∀ r ∈ responses s, r.id ≠ id

/-- The call has got this response. -/
def Got (c : Caller Id β) (r : Response Id β) : Prop := c = .woken r ∨ c = .returned r

/-- What holds of the calls and the table in every run, whatever is cut off. -/
structure Table (idOf : κ → Id) (s : State κ Id β) : Prop where
  nodup : s.received.Nodup
  entry : ∀ id c, s.pending.lookup id = some c → idOf c = id
  fresh : ∀ c, s.caller c = .idle → idOf c ∉ s.pending ∧ Unknown s (idOf c)
  unsent : ∀ c, s.caller c = .sending false → idOf c ∈ s.pending ∧ Unknown s (idOf c)
  unanswered : ∀ id ∈ s.received, id ∈ s.pending ∧ ∀ r ∈ responses s, r.id ≠ id
  sending : ∀ h ∈ s.handlers, ∀ c, h.pc = .sending c → idOf c = h.resp.id
  got : ∀ c r, Got (s.caller c) r → r ∈ responses s ∧ r.id = idOf c

/-- A step that begins no call, tells the server nothing and gives no answer:
responses go on from hand to hand, and entries are popped for them. -/
structure Quiet (s t : State κ Id β) : Prop where
  received : t.received = s.received
  responses : ∀ r, r ∈ responses t ↔ r ∈ responses s
  idle : ∀ c, t.caller c = .idle ↔ s.caller c = .idle
  unsent : ∀ c, t.caller c = .sending false → s.caller c = .sending false
  lookup : ∀ id c, t.pending.lookup id = some c → s.pending.lookup id = some c
  popped : ∀ id ∈ s.pending, id ∈ t.pending ∨ ∃ r ∈ Requests.responses s, r.id = id
  sending : ∀ h ∈ t.handlers, ∀ c, h.pc = .sending c →
    s.pending.lookup h.resp.id = some c ∨ ∃ h' ∈ s.handlers, h'.pc = .sending c ∧ h'.resp = h.resp
  got : ∀ c r, Got (t.caller c) r → Got (s.caller c) r ∨ r ∈ Requests.responses s ∧
    (s.pending.lookup r.id = some c ∨ ∃ h ∈ s.handlers, h.pc = .sending c ∧ h.resp = r)

variable {idOf : κ → Id} {s t u : State κ Id β}

/-- The calls, the table and the responses are as before. -/
theorem Quiet.of_eq (hc : t.caller = s.caller) (hp : t.pending = s.pending) (hr : t.received = s.received)
    (hw : t.wire = s.wire) (hh : t.handlers = s.handlers) : Quiet s t := by
  refine ⟨hr, fun r => ?_, fun c => ?_, fun c h => ?_, fun id c h => ?_, fun id h => .inl ?_,
    fun h hm c hpc => .inr ⟨h, hh ▸ hm, hpc, rfl⟩, fun c r h => .inl ?_⟩
  · rw [Requests.responses, Requests.responses, hw, hh]
  · rw [hc]
  · rwa [hc] at h
  · rwa [hp] at h
  · rwa [hp]
  · rwa [hc] at h

theorem Quiet.trans (h : Quiet s t) (h' : Quiet t u) : Quiet s u where
  received := h'.received.trans h.received
  responses r := (h'.responses r).trans (h.responses r)
  idle c := (h'.idle c).trans (h.idle c)
  unsent c hc := h.unsent c (h'.unsent c hc)
  lookup id c hc := h.lookup id c (h'.lookup id c hc)
  popped id hid := by
    rcases h.popped id hid with hid | hr
    · rcases h'.popped id hid with hid | ⟨r, hr, hrid⟩
      · exact .inl hid
      · exact .inr ⟨r, (h.responses r).mp hr, hrid⟩
    · exact .inr hr
  sending hd hm c hpc := by
    rcases h'.sending hd hm c hpc with hl | ⟨hd', hm', hpc', hresp⟩
    · exact .inl (h.lookup _ c hl)
    · rw [← hresp]
      exact h.sending hd' hm' c hpc'
  got c r hg := by
    rcases h'.got c r hg with hg | ⟨hr, hl | ⟨hd, hm, hpc, rfl⟩⟩
    · exact h.got c r hg
    · exact .inr ⟨(h.responses r).mp hr, .inl (h.lookup _ c hl)⟩
    · exact .inr ⟨(h.responses _).mp hr, h.sending hd hm c hpc⟩

/-- **Handing responses on keeps what holds of the table.** -/
theorem Table.quiet (h : Table idOf s) (hq : Quiet s t) : Table idOf t := by
  have hunknown : ∀ id, Unknown s id → Unknown t id := fun id hid =>
    ⟨hq.received ▸ hid.1, fun r hr => hid.2 r ((hq.responses r).mp hr)⟩
  have hpending : ∀ id ∈ s.pending, (∀ r ∈ responses s, r.id ≠ id) → id ∈ t.pending := fun id hid hno =>
    (hq.popped id hid).resolve_right fun ⟨r, hr, hrid⟩ => hno r hr hrid
  refine ⟨hq.received ▸ h.nodup, fun id c hl => h.entry id c (hq.lookup id c hl), fun c hc => ?_,
    fun c hc => ?_, fun id hid => ?_, fun hd hm c hpc => ?_, fun c r hg => ?_⟩
  · obtain ⟨hnot, hun⟩ := h.fresh c ((hq.idle c).mp hc)
    refine ⟨fun hin => hnot ?_, hunknown _ hun⟩
    obtain ⟨c', hl⟩ := Option.isSome_iff_exists.mp (AList.lookup_isSome.mpr hin)
    exact AList.lookup_isSome.mp (Option.isSome_iff_exists.mpr ⟨c', hq.lookup _ c' hl⟩)
  · obtain ⟨hin, hun⟩ := h.unsent c (hq.unsent c hc)
    exact ⟨hpending _ hin hun.2, hunknown _ hun⟩
  · obtain ⟨hin, hno⟩ := h.unanswered id (hq.received ▸ hid)
    exact ⟨hpending id hin hno, fun r hr => hno r ((hq.responses r).mp hr)⟩
  · rcases hq.sending hd hm c hpc with hl | ⟨hd', hm', hpc', hresp⟩
    · exact h.entry _ c hl
    · exact hresp ▸ h.sending hd' hm' c hpc'
  · rcases hq.got c r hg with hg | ⟨hr, hl | ⟨hd, hm, hpc, rfl⟩⟩
    · exact ⟨(hq.responses r).mpr (h.got c r hg).1, (h.got c r hg).2⟩
    · exact ⟨(hq.responses r).mpr hr, (h.entry _ c hl).symm⟩
    · exact ⟨(hq.responses _).mpr hr, (h.sending hd hm c hpc).symm⟩

/-- A call goes on. -/
theorem quiet_setCaller {c : κ} {x : Caller Id β} (hc : s.caller c ≠ .idle) (hidle : x ≠ .idle)
    (hunsent : x ≠ .sending false)
    (hgot : ∀ r, Got x r → Got (s.caller c) r ∨ r ∈ responses s ∧
      (s.pending.lookup r.id = some c ∨ ∃ h ∈ s.handlers, h.pc = .sending c ∧ h.resp = r)) :
    Quiet s (s.setCaller c x) := by
  have hother : ∀ c', c' ≠ c → (s.setCaller c x).caller c' = s.caller c' := fun c' hne => by
    show Function.update s.caller c x c' = _
    exact Function.update_of_ne hne x s.caller
  have hself : (s.setCaller c x).caller c = x := by
    show Function.update s.caller c x c = _
    exact Function.update_self c x s.caller
  refine ⟨rfl, fun _ => Iff.rfl, fun c' => ?_, fun c' h => ?_, fun _ _ h => h, fun _ h => .inl h,
    fun h hm _ hpc => .inr ⟨h, hm, hpc, rfl⟩, fun c' r h => ?_⟩
  · by_cases hcc : c' = c
    · subst hcc
      rw [hself]
      exact iff_of_false hidle hc
    · rw [hother c' hcc]
  · by_cases hcc : c' = c
    · subst hcc
      exact absurd (hself.symm.trans h) hunsent
    · rwa [hother c' hcc] at h
  · by_cases hcc : c' = c
    · subst hcc
      exact hgot r (hself ▸ h)
    · exact .inl (hother c' hcc ▸ h)

/-- A handler goes on; if it waits for a call, then for that of its entry. -/
theorem quiet_setHandler {k : ℕ} {pc : HandlerPc κ Id}
    (hpc : ∀ c, pc = .sending c → ∀ h ∈ s.handlers, s.handlers[k]? = some h →
      s.pending.lookup h.resp.id = some c) : Quiet s (s.setHandler k pc) := by
  refine ⟨rfl, fun r => ?_, fun _ => Iff.rfl, fun _ h => h, fun _ _ h => h, fun _ h => .inl h,
    fun h hm c hc => ?_, fun _ _ h => .inl h⟩
  · rw [responses, responses, resps_setHandler]
    rfl
  · obtain ⟨k', hk'⟩ := List.getElem?_of_mem hm
    by_cases hkk : k' = k
    · subst hkk
      cases hs : s.handlers[k']? with
      | none =>
        rw [State.setHandler, List.getElem?_modify, hs] at hk'
        cases hk'
      | some h' =>
        have hsame : (s.setHandler k' pc).handlers[k']? = some { h' with pc := pc } :=
          Tasks.getElem?_modify_self hs
        obtain rfl := Option.some.inj (hk'.symm.trans hsame)
        exact .inl (hpc c hc h' (List.mem_of_getElem? hs) hs)
    · have hold : s.handlers[k']? = some h := (Tasks.getElem?_modify_ne hkk).symm.trans hk'
      exact .inr ⟨h, List.mem_of_getElem? hold, hc, rfl⟩

/-- An entry is popped, as there is a response for it. -/
theorem quiet_pop {id : Id} (hr : ∃ r ∈ responses s, r.id = id) :
    Quiet s { s with pending := (OneShotTable.pop s.pending id).1 } := by
  have hcases : (OneShotTable.pop s.pending id).1 = s.pending.erase id ∨
      (OneShotTable.pop s.pending id).1 = s.pending := by
    unfold OneShotTable.pop
    split
    · exact .inl rfl
    · exact .inr rfl
  refine ⟨rfl, fun _ => Iff.rfl, fun _ => Iff.rfl, fun _ h => h, fun id' c hl => ?_, fun id' hid => ?_,
    fun h hm _ hpc => .inr ⟨h, hm, hpc, rfl⟩, fun _ _ h => .inl h⟩
  · rcases hcases with he | he
    · rw [he] at hl
      by_cases hii : id' = id
      · subst hii
        rw [AList.lookup_erase] at hl
        cases hl
      · rwa [AList.lookup_erase_ne hii] at hl
    · rwa [he] at hl
  · by_cases hii : id' = id
    · exact .inr (hii ▸ hr)
    · rcases hcases with he | he
      · left
        rw [he]
        exact AList.mem_erase.mpr ⟨hii, hid⟩
      · left
        rwa [he]

theorem quiet_popEntry {k : ℕ} {id : Id} (hr : ∃ r ∈ responses s, r.id = id) :
    Quiet s (s.popEntry k id) := by
  have hpc : ∀ c, (OneShotTable.pop s.pending id).2 ≠ .sending c := fun c hc => by
    unfold OneShotTable.pop at hc
    split at hc
    · simp only at hc
      split at hc <;> cases hc
    · cases hc
  exact (quiet_pop hr).trans (quiet_setHandler fun c hc => absurd hc (hpc c))

theorem quiet_deliver (c : κ) (r : Response Id β) : Quiet s (s.deliver c r) :=
  .of_eq rfl rfl rfl rfl rfl

theorem quiet_closeReceiver (c : κ) : Quiet s (s.closeReceiver c) := by
  refine ⟨rfl, fun r => ?_, fun _ => Iff.rfl, fun _ h => h, fun _ _ h => h, fun _ h => .inl h,
    fun h hm c' hpc => ?_, fun _ _ h => .inl h⟩
  · have hmap : (s.closeReceiver c).handlers.map Handler.resp = s.handlers.map Handler.resp := by
      rw [State.closeReceiver, List.map_map]
      refine List.map_congr_left fun h _ => ?_
      show Handler.resp (if h.pc = .sending c then _ else h) = h.resp
      split <;> rfl
    rw [responses, responses, hmap]
    rfl
  · obtain ⟨h', hm', rfl⟩ := List.mem_map.mp hm
    refine .inr ⟨h', hm', ?_⟩
    by_cases hs : h'.pc = .sending c
    · rw [if_pos hs] at hpc
      cases hpc
    · rw [if_neg hs] at hpc ⊢
      exact ⟨hpc, rfl⟩

theorem response_of_handler {k : ℕ} {h : Handler κ Id β} (hk : s.handlers[k]? = some h) :
    h.resp ∈ responses s :=
  List.mem_append_right _ (List.mem_map_of_mem (List.mem_of_getElem? hk))

/-- `OneShotTable.send` of a handler. -/
theorem quiet_sendResponse {k : ℕ} {r : Response Id β} (hk : s.handlers[k]? = some ⟨r, .ready⟩) :
    Quiet s (sendResponse s k r) := by
  have hr : r ∈ responses s := response_of_handler hk
  have hwait : ∀ c, s.pending.lookup r.id = some c → Quiet s (s.setHandler k (.sending c)) := fun c hl => by
    refine quiet_setHandler fun c' hc' h _ hk' => ?_
    obtain rfl := Option.some.inj (hk.symm.trans hk')
    exact HandlerPc.sending.inj hc' ▸ hl
  unfold sendResponse
  split
  · exact quiet_setHandler (by intros; contradiction)
  · rename_i c hl
    split
    · rename_i hc
      have hidle : s.caller c ≠ .idle := by
        rw [hc]
        nofun
      have hwoken : Quiet (s.deliver c r) ((s.deliver c r).setCaller c (.woken r)) := by
        refine quiet_setCaller hidle nofun nofun fun r' hr' => ?_
        rcases hr' with hr' | hr'
        · obtain rfl := Caller.woken.inj hr'
          exact .inr ⟨hr, .inl hl⟩
        · cases hr'
      exact ((quiet_deliver c r).trans hwoken).trans (quiet_popEntry ⟨r, hr, rfl⟩)
    · exact quiet_setHandler (by intros; contradiction)
    · exact hwait c hl

/-- `OneShotReceiver.receive` of a call. -/
theorem quiet_receiveResponse {c : κ} (hc : s.caller c = .sent) :
    Quiet s (receiveResponse s c) := by
  have hidle : s.caller c ≠ .idle := by
    rw [hc]
    nofun
  unfold receiveResponse
  split
  · rename_i k hf
    split
    · rename_i h hk
      have hpc : h.pc = .sending c := by
        obtain ⟨hlt, hpc, -⟩ := List.findIdx?_eq_some_iff_getElem.mp hf
        rw [List.getElem?_eq_getElem hlt] at hk
        exact Option.some.inj hk ▸ of_decide_eq_true hpc
      have hreturned : Quiet s (s.setCaller c (.returned h.resp)) := by
        refine quiet_setCaller hidle nofun nofun fun r hr => ?_
        rcases hr with hr | hr
        · cases hr
        · obtain rfl := Caller.returned.inj hr
          exact .inr ⟨response_of_handler hk, .inr ⟨h, List.mem_of_getElem? hk, hpc, rfl⟩⟩
      -- the parts of the state that change are different ones, so the order is indifferent
      have hset : Quiet s (((s.setHandler k .resumed).deliver c h.resp).setCaller c (.returned h.resp)) :=
        (hreturned.trans (quiet_setHandler (k := k) (by intros; contradiction))).trans
          (.of_eq rfl rfl rfl rfl rfl)
      exact hset.trans (quiet_closeReceiver c)
    · exact Quiet.of_eq rfl rfl rfl rfl rfl
  · refine quiet_setCaller hidle nofun nofun fun r hr => ?_
    rcases hr with hr | hr <;> cases hr

/-- The actions that begin a call, tell the server something or are its answer. -/
def Loud : Action κ Id β → Prop
  | .reserve _ | .transmit _ | .answer _ _ => True
  | _ => False

theorem quiet_step {a : Action κ Id β} (h : step idOf s a = some t) (ha : ¬ Loud a) :
    Quiet s t := by
  have hne : ∀ {c : κ} {x : Caller Id β}, s.caller c = x → x ≠ .idle → s.caller c ≠ .idle :=
    fun h hx => h ▸ hx
  have hnot : ∀ {x : Caller Id β} {P : Response Id β → Prop}, (∀ r, x ≠ .woken r) → (∀ r, x ≠ .returned r) →
      ∀ r, Got x r → P r := fun hw hret r hg => hg.elim (fun h => absurd h (hw r)) fun h => absurd h (hret r)
  cases step_cases h with
  | reserve | reserved | transmit | answer => exact absurd trivial ha
  | sent hc => exact quiet_setCaller (hne hc nofun) nofun nofun (hnot nofun nofun)
  | receive hc => exact quiet_receiveResponse hc
  | @resume c r hc =>
    have hreturned : Quiet s (s.setCaller c (.returned r)) := by
      refine quiet_setCaller (hne hc nofun) nofun nofun fun r' hr' => .inl ?_
      rcases hr' with hr' | hr'
      · cases hr'
      · obtain rfl := Caller.returned.inj hr'
        exact .inl hc
    exact hreturned.trans (quiet_closeReceiver c)
  | sendFails hc => exact quiet_setCaller (hne hc nofun) nofun nofun (hnot nofun nofun)
  | @cancel c hc =>
    refine quiet_setCaller (fun hidle => ?_) nofun nofun (hnot nofun nofun)
    rw [hidle] at hc
    rcases hc with hc | hc | ⟨r, hc⟩ <;> cases hc
  | @dispatch r rest hw =>
    refine ⟨rfl, fun r' => ?_, fun _ => Iff.rfl, fun _ h => h, fun _ _ h => h, fun _ h => .inl h,
      fun h hm c hpc => ?_, fun _ _ h => .inl h⟩
    · simp only [responses, hw, List.map_append, List.map_cons, List.map_nil, List.mem_append, List.mem_cons]
      tauto
    · rcases List.mem_append.mp hm with hm | hm
      · exact .inr ⟨h, hm, hpc, rfl⟩
      · obtain rfl := List.mem_singleton.mp hm
        cases hpc
  | handle hk => exact quiet_sendResponse hk
  | pop hk => exact quiet_popEntry ⟨_, response_of_handler hk, rfl⟩
  | notify hk => exact quiet_setHandler (by intros; contradiction)
  | leave | wake | waitTimeout => exact .of_eq rfl rfl rfl rfl rfl

theorem table_init : Table idOf (State.init : State κ Id β) where
  nodup := List.nodup_nil
  entry _ _ h := by cases h
  fresh _ _ := ⟨AList.notMem_empty _, List.not_mem_nil, nofun⟩
  unsent _ h := by cases h
  unanswered _ h := by cases h
  sending _ h := by cases h
  got _ _ h := by rcases h with h | h <;> cases h

/-- Another call is where it was. -/
theorem caller_ne {c c' : κ} {x y : Caller Id β} (h : (s.setCaller c x).caller c' = y) (hxy : y ≠ x) :
    c' ≠ c ∧ s.caller c' = y := by
  refine ⟨fun hcc => hxy ?_, (caller_setCaller h).resolve_left hxy⟩
  rw [← h, hcc]
  exact Function.update_self c x s.caller

theorem got_ne {c c' : κ} {x : Caller Id β} {r : Response Id β} (h : Got ((s.setCaller c x).caller c') r)
    (hx : ¬ Got x r) : Got (s.caller c') r := by
  rcases h with h | h
  · exact .inl (caller_ne h fun hw => hx (.inl hw.symm)).2
  · exact .inr (caller_ne h fun hw => hx (.inr hw.symm)).2

theorem not_got_sending {out : Bool} {r : Response Id β} : ¬ Got (Caller.sending out) r := by
  rintro (h | h) <;> cases h

/-- A call begins. -/
theorem table_reserve (hinj : Function.Injective idOf) (h : Table idOf s) {c : κ} (hc : s.caller c = .idle) :
    Table idOf ({ s with pending := s.pending.insert (idOf c) c }.setCaller c (.sending false)) := by
  have hmem : ∀ id ∈ s.pending, id ∈ s.pending.insert (idOf c) c := fun id hid =>
    (AList.mem_insert _).mpr (.inr hid)
  refine ⟨h.nodup, fun id c' hl => ?_, fun c' hc' => ?_, fun c' hc' => ?_,
    fun id hid => ⟨hmem id (h.unanswered id hid).1, (h.unanswered id hid).2⟩, h.sending,
    fun c' r hg => h.got c' r (got_ne hg not_got_sending)⟩
  · have hl : (s.pending.insert (idOf c) c).lookup id = some c' := hl
    by_cases hid : id = idOf c
    · subst hid
      rw [AList.lookup_insert] at hl
      exact Option.some.inj hl ▸ rfl
    · rw [AList.lookup_insert_ne hid] at hl
      exact h.entry id c' hl
  · obtain ⟨hne, hold⟩ := caller_ne hc' nofun
    obtain ⟨hnot, hunknown⟩ := h.fresh c' hold
    refine ⟨fun hin => ?_, hunknown⟩
    rcases (AList.mem_insert _).mp hin with hid | hin
    · exact hne (hinj hid)
    · exact hnot hin
  · by_cases hcc : c' = c
    · subst hcc
      exact ⟨(AList.mem_insert _).mpr (.inl rfl), (h.fresh c' hc).2⟩
    · have hold : s.caller c' = .sending false := (Function.update_of_ne hcc _ s.caller).symm.trans hc'
      exact ⟨hmem _ (h.unsent c' hold).1, (h.unsent c' hold).2⟩

/-- The server is told of a call. -/
theorem table_transmit (hinj : Function.Injective idOf) (h : Table idOf s) {c : κ}
    (hc : s.caller c = .sending false) :
    Table idOf ({ s with received := s.received ++ [idOf c] }.setCaller c (.sending true)) := by
  obtain ⟨hin, hnot, hno⟩ := h.unsent c hc
  have hunknown : ∀ c', c' ≠ c → Unknown s (idOf c') →
      idOf c' ∉ s.received ++ [idOf c] ∧ ∀ r ∈ responses s, r.id ≠ idOf c' := fun c' hne hun => by
    refine ⟨fun hm => ?_, hun.2⟩
    rcases List.mem_append.mp hm with hm | hm
    · exact hun.1 hm
    · exact hne (hinj (List.mem_singleton.mp hm))
  refine ⟨List.nodup_append.mpr ⟨h.nodup, List.nodup_singleton _, fun a ha b hb hab => ?_⟩, h.entry,
    fun c' hc' => ?_, fun c' hc' => ?_, fun id hid => ?_, h.sending,
    fun c' r hg => h.got c' r (got_ne hg not_got_sending)⟩
  · rw [List.mem_singleton.mp hb] at hab
    exact hnot (hab ▸ ha)
  · obtain ⟨hne, hold⟩ := caller_ne hc' nofun
    exact ⟨(h.fresh c' hold).1, hunknown c' hne (h.fresh c' hold).2⟩
  · obtain ⟨hne, hold⟩ := caller_ne hc' (by simp)
    exact ⟨(h.unsent c' hold).1, hunknown c' hne (h.unsent c' hold).2⟩
  · rcases List.mem_append.mp hid with hid | hid
    · exact h.unanswered id hid
    · rw [List.mem_singleton.mp hid]
      exact ⟨hin, hno⟩

/-- The server answers. -/
theorem table_answer (h : Table idOf s) {id : Id} {body : β} (hid : id ∈ s.received) :
    Table idOf { s with
      received := s.received.erase id
      wire := s.wire ++ [⟨id, body⟩]
      answers := s.answers ++ [⟨id, body⟩] } := by
  have hresponses : ∀ r, r ∈ s.wire ++ [⟨id, body⟩] ++ s.handlers.map Handler.resp ↔
      r ∈ responses s ∨ r = ⟨id, body⟩ := fun r => by
    simp only [responses, List.mem_append, List.mem_singleton]
    tauto
  have hunknown : ∀ id', Unknown s id' → id' ∉ s.received.erase id ∧
      ∀ r ∈ s.wire ++ [⟨id, body⟩] ++ s.handlers.map Handler.resp, r.id ≠ id' := fun id' hun => by
    refine ⟨fun hm => hun.1 (List.mem_of_mem_erase hm), fun r hr => ?_⟩
    rcases (hresponses r).mp hr with hr | rfl
    · exact hun.2 r hr
    · rintro rfl
      exact hun.1 hid
  refine ⟨h.nodup.erase _, h.entry, fun c hc => ⟨(h.fresh c hc).1, hunknown _ (h.fresh c hc).2⟩,
    fun c hc => ⟨(h.unsent c hc).1, hunknown _ (h.unsent c hc).2⟩, fun id' hid' => ?_, h.sending,
    fun c r hg => ⟨(hresponses r).mpr (.inl (h.got c r hg).1), (h.got c r hg).2⟩⟩
  obtain ⟨hne, hm⟩ := (h.nodup.mem_erase_iff).mp hid'
  refine ⟨(h.unanswered id' hm).1, fun r hr => ?_⟩
  rcases (hresponses r).mp hr with hr | rfl
  · exact (h.unanswered id' hm).2 r hr
  · exact hne.symm

/-- **Whatever is cut off, what the server has not answered has its entry.** -/
theorem table_step (hinj : Function.Injective idOf) (h : Table idOf s) {a : Action κ Id β}
    (hstep : step idOf s a = some t) : Table idOf t := by
  by_cases ha : Loud a
  · cases step_cases hstep with
    | reserve hc _ => exact table_reserve hinj h hc
    | reserved hc hmem => exact absurd hmem (h.fresh _ hc).1
    | transmit hc => exact table_transmit hinj h hc
    | answer hm => exact table_answer h hm
    | _ => exact absurd ha id
  · exact h.quiet (quiet_step hstep ha)

/-- When the table is empty, the server has answered all it has been told, and no frame has yet to leave. -/
theorem table_drained (h : Table idOf s) (hdone : OneShotTable.completed s.pending = true) :
    s.received = [] ∧ ∀ c, s.caller c ≠ .sending false := by
  have hnone : ∀ id, id ∉ s.pending := fun id hid => by
    have hkeys : s.pending.entries = [] := List.isEmpty_iff.mp hdone
    have hid : id ∈ s.pending.entries.keys := hid
    rw [hkeys] at hid
    cases hid
  refine ⟨List.eq_nil_iff_forall_not_mem.mpr fun id hid => hnone id (h.unanswered id hid).1, fun c hc => ?_⟩
  exact hnone _ (h.unsent c hc).1

end Requests
end LspClient
