/-
# Hooks for what the server sends

`ServerRequestHookRegistry` of `protocol/hook.py` holds one hook for each
request method and a set of hooks for each notification method. `dispatch` of
`Client._dispatch_server_requests` looks up the hooks of a package,
deserialises the package to a hook's class and executes the hook on it.

For a notification this happens in a loop over the set, whose variable `noti`
is the raw package in the first round and the deserialised object in the
rounds after it. Deserialising is for raw packages, so a second hook is not
reached (`executeHooks_cons_cons`), and every hook is executed on the
notification just if there is one hook at most (`dispatch_reaches_each_iff`).

Key definitions: `ServerRequestHookRegistry`, `executeHooks`,
`dispatchNotification`, `dispatchRequest`, `EachOnce`.
Key theorems: `executeHooks_cons_cons`, `dispatch_reaches_each_iff`.
-/
import LspClient.Framing
import Mathlib.Data.Finset.Dedup
import Mathlib.Data.Finset.Card
import Mathlib.Logic.Function.Basic

namespace LspClient
namespace Hooks

/-- `ID`. -/
inductive Id where
  | str (s : Text)
  | int (n : ℤ)
  deriving DecidableEq, Repr

/-- `RawNotification`. -/
structure RawNotification where
  method : Text
  params : Option Json

/-- `RawRequest`. -/
structure RawRequest where
  id : Option Id
  method : Text
  params : Option Json

/-- What is given to `request_deserialize`: a raw package, or what it has made of one. -/
inductive Value (Obj : Type*) where
  | request (req : RawRequest)
  | notification (noti : RawNotification)
  | object (obj : Obj)

/-- `ServerRequestHook`. -/
structure ServerRequestHook (Cls Exec : Type*) where
  cls : Cls
  execute : Exec
  deriving DecidableEq, Repr

/-- `ServerNotificationHook`. -/
structure ServerNotificationHook (Cls Exec : Type*) where
  cls : Cls
  execute : Exec
  deriving DecidableEq, Repr

/-- `ServerRequestHookRegistry`: the dictionaries `_req` and `_noti`. -/
structure ServerRequestHookRegistry (Cls Exec : Type*) where
  req : Text → Option (ServerRequestHook Cls Exec)
  noti : Text → Option (Finset (ServerNotificationHook Cls Exec))

/-- What `dispatch` raises. -/
inductive DispatchError (E : Type*) where
  /-- `ClientRuntimeError`. -/
  | clientRuntimeError (message : Text)
  /-- What `request_deserialize` raises. -/
  | deserialize (e : E)
  deriving DecidableEq, Repr

variable {Cls Exec Obj E : Type*}

namespace ServerRequestHookRegistry

def empty : ServerRequestHookRegistry Cls Exec := ⟨fun _ => none, fun _ => none⟩

/-- `get_request_hook`. -/
def getRequestHook (r : ServerRequestHookRegistry Cls Exec) (method : Text) :
    Option (ServerRequestHook Cls Exec) :=
  r.req method

/-- `get_notification_hooks`. -/
def getNotificationHooks (r : ServerRequestHookRegistry Cls Exec) (method : Text) :
    Finset (ServerNotificationHook Cls Exec) :=
  (r.noti method).getD ∅

variable [DecidableEq Cls] [DecidableEq Exec]

/-- `register`. -/
def register (r : ServerRequestHookRegistry Cls Exec) (method : Text) :
    ServerRequestHook Cls Exec ⊕ ServerNotificationHook Cls Exec → ServerRequestHookRegistry Cls Exec
  | .inl hook => { r with req := Function.update r.req method (some hook) }
  | .inr hook => { r with
      noti := Function.update r.noti method (some (insert hook (r.getNotificationHooks method))) }

/-- A hook that is registered for a notification is added to those that are there. -/
theorem mem_getNotificationHooks_register (r : ServerRequestHookRegistry Cls Exec) (method m : Text)
    (hook h : ServerNotificationHook Cls Exec) :
    h ∈ (r.register method (.inr hook)).getNotificationHooks m ↔
      m = method ∧ h = hook ∨ h ∈ r.getNotificationHooks m := by
  by_cases hm : m = method
  · subst hm
    simp [register, getNotificationHooks]
  · simp [register, getNotificationHooks, hm]

end ServerRequestHookRegistry

/-- The loop over the hooks of a notification, in the order of the iteration:
the hooks that are started, with what they are started on, and how it ends. -/
def executeHooks (deserialize : Value Obj → Cls → Except E Obj) :
    Value Obj → List (ServerNotificationHook Cls Exec) →
      List (ServerNotificationHook Cls Exec × Obj) × Except (DispatchError E) Unit
  | _, [] => ([], .ok ())
  | noti, hook :: hooks =>
    match deserialize noti hook.cls with
    | .error e => ([], .error (.deserialize e))
    | .ok obj =>
      let rest := executeHooks deserialize (.object obj) hooks
      ((hook, obj) :: rest.1, rest.2)

/-- `dispatch` of a notification; `hooks` is the set of its hooks, in some order. -/
def dispatchNotification (deserialize : Value Obj → Cls → Except E Obj)
    (hooks : List (ServerNotificationHook Cls Exec)) (noti : RawNotification) :
    List (ServerNotificationHook Cls Exec × Obj) × Except (DispatchError E) Unit :=
  executeHooks deserialize (.notification noti) hooks

/-- `dispatch` of a request, up to where its hook is executed. -/
def dispatchRequest (r : ServerRequestHookRegistry Cls Exec)
    (deserialize : Value Obj → Cls → Except E Obj) (req : RawRequest) :
    Except (DispatchError E) (Exec × Obj) :=
  match r.getRequestHook req.method with
  | some hook =>
    match deserialize (.request req) hook.cls with
    | .ok obj => .ok (hook.execute, obj)
    | .error e => .error (.deserialize e)
  | none => .error (.clientRuntimeError
      ("Unhandled server request method: ".toList ++ req.method))

/-! ### Every hook -/

section EachOnce

variable (registry : ServerRequestHookRegistry Cls Exec)
  (deserialize : Value Obj → Cls → Except E Obj) (noti : RawNotification)

/-- Every hook of the notification is started once, on the raw notification
deserialised to the hook's own class, and nothing is raised. -/
structure EachOnce (result :
    List (ServerNotificationHook Cls Exec × Obj) × Except (DispatchError E) Unit) : Prop where
  hooks : (result.1.map Prod.fst).Perm (registry.getNotificationHooks noti.method).toList
  objects : ∀ p ∈ result.1, deserialize (.notification noti) p.1.cls = .ok p.2
  returns : result.2 = .ok ()

variable {registry deserialize noti}

/-- **The second round deserialises what the first one has made.** -/
theorem executeHooks_cons_cons {hook hook' : ServerNotificationHook Cls Exec}
    {hooks : List (ServerNotificationHook Cls Exec)} {value : Value Obj}
    (hobj : ∀ obj cls, ∃ e, deserialize (.object obj) cls = .error e) :
    (executeHooks deserialize value (hook :: hook' :: hooks)).2 ≠ .ok () := by
  rw [executeHooks]
  cases hd : deserialize value hook.cls with
  | error e => nofun
  | ok obj =>
    obtain ⟨e, he⟩ := hobj obj hook'.cls
    simp only [executeHooks, he]
    nofun

/-- **A notification reaches each of its hooks just if it has one at most**, in
whatever order the set is iterated over. -/
theorem dispatch_reaches_each_iff {hooks : List (ServerNotificationHook Cls Exec)}
    (hraw : ∀ hook ∈ registry.getNotificationHooks noti.method,
      ∃ obj, deserialize (.notification noti) hook.cls = .ok obj)
    (hobj : ∀ obj cls, ∃ e, deserialize (.object obj) cls = .error e)
    (horder : hooks.Perm (registry.getNotificationHooks noti.method).toList) :
    EachOnce registry deserialize noti (dispatchNotification deserialize hooks noti) ↔
      (registry.getNotificationHooks noti.method).card ≤ 1 := by
  have hcard : (registry.getNotificationHooks noti.method).card = hooks.length := by
    rw [horder.length_eq, Finset.length_toList]
  rw [hcard, dispatchNotification]
  match hooks with
  | [] => exact ⟨fun _ => Nat.zero_le _, fun _ => ⟨horder, nofun, rfl⟩⟩
  | [hook] =>
    refine ⟨fun _ => Nat.le_refl _, fun _ => ?_⟩
    obtain ⟨obj, hok⟩ := hraw hook
      (Finset.mem_toList.mp (horder.mem_iff.mp List.mem_cons_self))
    simp only [executeHooks, hok]
    refine ⟨horder, fun p hp => ?_, rfl⟩
    rw [List.mem_singleton.mp hp]
    exact hok
  | hook :: hook' :: rest =>
    refine ⟨fun h => absurd h.returns (executeHooks_cons_cons hobj), fun h => ?_⟩
    simp at h

end EachOnce

/-! ### A small registry -/

namespace Small

/-- A registry with the hooks `0, .., n - 1` for one method. -/
def registry (method : Text) : ℕ → ServerRequestHookRegistry Text ℕ
  | 0 => .empty
  | n + 1 => (registry method n).register method (.inr ⟨"LogMessageNotification".toList, n⟩)

/-- A deserialiser for raw packages: the object is its class and the raw package's method. -/
def deserialize : Value (Text × Text) → Text → Except Unit (Text × Text)
  | .request req, cls => .ok (cls, req.method)
  | .notification noti, cls => .ok (cls, noti.method)
  | .object _, _ => .error ()

/-- `window/logMessage`. -/
def logMessage : RawNotification := ⟨"window/logMessage".toList, none⟩

end Small

open Hooks.Small

/-- One hook. -/
theorem dispatch_reaches_each_iff_one : EachOnce (registry logMessage.method 1) deserialize logMessage
    (dispatchNotification deserialize [⟨"LogMessageNotification".toList, 0⟩] logMessage) :=
  (dispatch_reaches_each_iff (fun _ _ => ⟨_, rfl⟩) (fun _ _ => ⟨_, rfl⟩)
    (by rw [show (registry logMessage.method 1).getNotificationHooks logMessage.method =
      {⟨"LogMessageNotification".toList, 0⟩} from rfl, Finset.toList_singleton])).mpr (by decide)

/-- **The second hook is not reached**: the first one is started, then
deserialising its object raises. -/
theorem dispatch_second_hook :
    (registry logMessage.method 2).getNotificationHooks logMessage.method =
        {⟨"LogMessageNotification".toList, 0⟩, ⟨"LogMessageNotification".toList, 1⟩} ∧
      (∀ hooks ∈ [[0, 1], [1, 0]].map (List.map (ServerNotificationHook.mk
          "LogMessageNotification".toList)),
        (dispatchNotification deserialize hooks logMessage).2 = .error (.deserialize ()) ∧
        ¬ EachOnce (registry logMessage.method 2) deserialize logMessage
          (dispatchNotification deserialize hooks logMessage)) := by
  refine ⟨by decide, fun hooks hhooks => ?_⟩
  have herror : (dispatchNotification deserialize hooks logMessage).2 =
      .error (.deserialize ()) := by
    simp only [List.map_cons, List.map_nil, List.mem_cons, List.not_mem_nil, or_false] at hhooks
    rcases hhooks with rfl | rfl <;> rfl
  refine ⟨herror, fun h => ?_⟩
  rw [h.returns] at herror
  cases herror

end Hooks
end LspClient
