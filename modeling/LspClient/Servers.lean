/-
# Starting a server

`run_server` tries the candidates of `_iter_candidate_servers` in turn until
one starts: a local process, a process in a container, a connection to a
socket. It catches `ServerRuntimeError` and nothing else, and each of the three
classes has a failure that it does not turn into one: a process that cannot be
spawned meets a `finally` that asks for the return code of a process which is
not there, an installation hook raises what it likes, and a socket's connection
error is passed on. So the fallback works exactly as long as every failed
attempt fails in one of the other ways (`run_server_falls_back_iff`).

The world outside (the programs that can be found, processes, sockets) is a
state `ω` with the operations of an `Env`; what they do and when they fail is
open.

Key definitions: `Exc`, `Env`, `LocalServer`, `runProcess`, `connect`, `start`,
`iterCandidateServers`, `runServer`, `FallsBack`, `Caught`.
Key theorems: `runProcess_error_iff`, `start_error_iff`, `run_server_falls_back_iff`,
`fallback_aborted`.
-/
import LspClient.Lib.Fallback
import LspClient.Text

namespace LspClient
namespace Servers

open Actions Fallback

/-! ### Exceptions -/

/-- What the world outside raises. -/
inductive SysExc where
  | osError (message : Text)
  | runtimeError (message : Text)
  | valueError (message : Text)
  | attributeError (message : Text)
  | other (name message : Text)
  deriving DecidableEq, Repr

inductive Exc where
  | serverRuntimeError (message : Text)
  | serverInstallationError (message : Text)
  | sys (e : SysExc)
  deriving DecidableEq, Repr

/-- What `run_server` raises. -/
inductive Raised where
  | exceptionGroup (message : Text) (errors : List Exc)
  | exc (e : Exc)
  deriving DecidableEq, Repr

/-- `except (OSError, RuntimeError)` catches it. -/
def SysExc.isOsOrRuntimeError : SysExc → Bool
  | .osError _ | .runtimeError _ => true
  | _ => false

/-- `except ServerRuntimeError` catches it. -/
def Exc.isServerRuntimeError : Exc → Bool
  | .serverRuntimeError _ => true
  | _ => false

/-! ### The servers -/

/-- What `anyio.open_process` is called with. -/
structure Command where
  command : List Text
  cwd : Text
  env : Option (List (Text × Text))
  deriving DecidableEq, Repr

/-- The world outside; `τ` is a process or a stream. `wait` is under
`fail_after`, whose `TimeoutError` is an `OSError`. -/
structure Env (ω τ : Type) where
  disableAutoInstallation : Bool
  enableContainer : Bool
  windows : Bool
  /-- `Path.resolve`. -/
  resolve : Text → Text
  which : Text → ω → Bool
  openProcess : Command → EStateM SysExc ω τ
  returncode : τ → ω → Option ℤ
  terminate : τ → EStateM SysExc ω Unit
  wait : τ → EStateM SysExc ω ℤ
  kill : τ → EStateM SysExc ω Unit
  aclose : τ → EStateM SysExc ω Unit
  connectTcp : Text → ℕ → EStateM SysExc ω τ
  connectUnix : Text → EStateM SysExc ω τ
  /-- How many more attempts the ten seconds of `stop_after_delay` leave time for. -/
  retries : ω → ℕ

variable {ω τ : Type}

/-- `LocalServer`; `process` is there once it has run before. -/
structure LocalServer (ω τ : Type) where
  program : Text
  args : List Text
  cwd : Text
  env : Option (List (Text × Text))
  ensureInstalled : Option (EStateM Exc ω Unit)
  process : Option τ

/-- `ContainerServer`, with its mounts as they are formatted. -/
structure ContainerServer where
  image : Text
  workdir : Option Text
  mounts : List Text
  backend : Text
  containerName : Option Text
  extraContainerArgs : Option (List Text)

/-- The `connection` of a `SocketServer`. -/
inductive SocketServer where
  | tcp (host : Text) (port : ℕ)
  | unix (path : Text)

inductive Server (ω τ : Type) where
  | localServer (server : LocalServer ω τ)
  | containerServer (server : ContainerServer)
  | socketServer (server : SocketServer)

structure DefaultServers (ω τ : Type) where
  localServer : LocalServer ω τ
  container : ContainerServer

/-- The `server` argument of a client. -/
inductive ServerArg (ω τ : Type) where
  | container
  | localServer
  | server (server : Server ω τ)
  | none

variable (env : Env ω τ)

/-- What the world outside does. -/
def sys {α : Type} (x : EStateM SysExc ω α) : EStateM Exc ω α := fun w =>
  match x w with
  | .ok a w => .ok a w
  | .error e w => .error (.sys e) w

/-! ### A local process -/

namespace LocalServer

variable (server : LocalServer ω τ)

/-- `LocalServer.check_availability`. -/
def checkAvailability : EStateM Exc ω Unit := fun w =>
  if env.which server.program w then .ok () w
  else .error (.serverRuntimeError
    ("Program '".toList ++ server.program ++ "' not found in PATH.".toList)) w

/-- `run_process` up to the command: the program is there, or is installed. -/
def ensureAvailable : EStateM Exc ω Unit :=
  tryCatch (server.checkAvailability env) fun e =>
    if e.isServerRuntimeError then
      if env.disableAutoInstallation then
        throw (.serverRuntimeError "auto-installation is disabled.".toList)
      else match server.ensureInstalled with
        | some hook => hook
        | none => throw (.serverRuntimeError "no installation method is provided.".toList)
    else throw e

end LocalServer

/-- `LocalServer.kill`. -/
def killProcess (process : τ) : EStateM SysExc ω Unit := do
  env.kill process
  env.aclose process

/-- The `finally` of `run_process`, with the process that `self._process` is. -/
def shutDown (process : Option τ) : EStateM SysExc ω Unit :=
  match process with
  | none => throw (.attributeError "'NoneType' object has no attribute 'returncode'".toList)
  | some process =>
    tryCatch (do
      if (env.returncode process (← get)).isNone then env.terminate process
      let _ ← env.wait process) fun e =>
        match e with
        | .osError _ => killProcess env process
        | e => throw e

namespace LocalServer

variable (server : LocalServer ω τ)

/-- `run_process` up to its `yield`. -/
def runProcess : EStateM Exc ω τ := do
  server.ensureAvailable env
  tryCatch (sys (env.openProcess ⟨server.program :: server.args, server.cwd, server.env⟩)) fun e => do
    sys (shutDown env server.process)
    match e with
    | .sys e =>
      if e.isOsOrRuntimeError then throw (.serverRuntimeError "Failed to start server process".toList)
      else throw (.sys e)
    | e => throw e

end LocalServer

/-! ### A container -/

namespace ContainerServer

variable (server : ContainerServer)

/-- `if value`, of an optional string. -/
def given (value : Option Text) : Option Text := value.filter (· ≠ [])

/-- `_get_effective_workdir`, for the paths of the workspace's folders. -/
def getEffectiveWorkdir (folders : List Text) : Except SysExc Text :=
  match given server.workdir, folders with
  | some workdir, _ => .ok workdir
  | none, [folder] => .ok (env.resolve folder)
  | none, _ => .error (.valueError
      "Must specify 'workdir' when multiple or no workspace folders are provided.".toList)

/-- `str(BindMount.from_path(path))`. -/
def bindMount (folder : Text) : Text :=
  "type=bind,source=".toList ++ env.resolve folder ++ ",target=".toList ++ env.resolve folder

/-- `format_args`. -/
def formatArgs (folders : List Text) : Except SysExc (List Text) := do
  let workdir ← server.getEffectiveWorkdir env folders
  let name := match given server.containerName with
    | some name => ["--name".toList, name]
    | none => []
  let mounts := (server.mounts ++ folders.map (bindMount env)).flatMap fun m => ["--mount".toList, m]
  return ["run".toList, "-i".toList, "--rm".toList] ++ name ++ ["--workdir".toList, workdir] ++ mounts ++
    server.extraContainerArgs.getD [] ++ [server.image]

/-- `setup`: the local process that runs the container. -/
def setup (cwd : Text) (folders : List Text) : Except Exc (LocalServer ω τ) :=
  if !env.enableContainer then
    .error (.serverRuntimeError ("Container support is disabled. ".toList ++
      "Set environment variable LSP_CLIENT_ENABLE_CONTAINER=1 to enable it.".toList))
  else match server.formatArgs env folders with
    | .error e => .error (.sys e)
    | .ok args => .ok ⟨server.backend, args, cwd, none, none, none⟩

end ContainerServer

/-! ### A socket -/

namespace SocketServer

/-- One attempt of `connect`. -/
def connectOnce : SocketServer → EStateM Exc ω τ
  | .tcp host port => sys (env.connectTcp host port)
  | .unix path =>
    if env.windows then throw (.serverRuntimeError "Unix sockets are not supported on Windows".toList)
    else sys (env.connectUnix path)

/-- `tenacity.retry` with `reraise`: so many more attempts, and the last exception. -/
def retry {α : Type} (x : EStateM Exc ω α) : ℕ → EStateM Exc ω α
  | 0 => x
  | n + 1 => tryCatch x fun _ => retry x n

/-- `connect`. -/
def connect (server : SocketServer) : EStateM Exc ω τ := do
  retry (server.connectOnce env) (env.retries (← get))

end SocketServer

/-! ### The candidates -/

/-- `Server.run` up to its `yield`. -/
def start (cwd : Text) (folders : List Text) : Server ω τ → EStateM Exc ω τ
  | .localServer server => server.runProcess env
  | .containerServer server =>
    match server.setup env cwd folders with
    | .ok localServer => localServer.runProcess env
    | .error e => throw e
  | .socketServer server => server.connect env

/-- `_iter_candidate_servers`; the local server is the second candidate if it is
available when its turn comes. -/
def iterCandidateServers (defaults : DefaultServers ω τ) (arg : ServerArg ω τ) :
    List (ω → Option (Server ω τ)) :=
  let always (server : Server ω τ) : ω → Option (Server ω τ) := fun _ => some server
  let requested := match arg with
    | .container => [always (.containerServer defaults.container)]
    | .localServer => [always (.localServer defaults.localServer)]
    | .server server => [always server]
    | .none => []
  let available : ω → Option (Server ω τ) := fun w =>
    match defaults.localServer.checkAvailability env w with
    | .ok _ _ => some (.localServer defaults.localServer)
    | .error _ _ => none
  let containers := if env.enableContainer then [always (.containerServer defaults.container)] else []
  requested ++ [available] ++ containers ++ [always (.localServer defaults.localServer)]

/-- What a client brings to `run_server`. -/
structure Setup (ω τ : Type) where
  name : Text
  defaults : DefaultServers ω τ
  arg : ServerArg ω τ
  /-- `Path.cwd()`. -/
  cwd : Text
  /-- The paths of the workspace's folders. -/
  folders : List Text

/-- `run_server` up to its `yield`. -/
def runServer (s : Setup ω τ) (w : ω) : EStateM.Result Raised ω (Server ω τ × τ) :=
  match tryEach (start env s.cwd s.folders) Exc.isServerRuntimeError
      (iterCandidateServers env s.defaults s.arg) [] w with
  | .started server t w => .ok (server, t) w
  | .exhausted errors w =>
    .error (.exceptionGroup ("All servers failed to start for ".toList ++ s.name) errors) w
  | .leaked e w => .error (.exc e) w

/-! ### What is claimed of it, and when it is so -/

/-- The client gets the first candidate that starts, and if there is none, one
exception group with the error of each candidate that was tried. -/
def FallsBack (s : Setup ω τ) (w : ω) : Prop :=
  let tried := attempts (start env s.cwd s.folders) (iterCandidateServers env s.defaults s.arg) w
  match tried.started with
  | some (server, t) => runServer env s w = .ok (server, t) tried.state
  | none => runServer env s w = .error (.exceptionGroup
      ("All servers failed to start for ".toList ++ s.name) (tried.failed.map (·.error))) tried.state

namespace LocalServer

variable (server : LocalServer ω τ)

/-- The process is about to be spawned: the program is there, or the hook has installed it. -/
def Spawns (w w₁ : ω) : Prop :=
  (env.which server.program w = true ∧ w₁ = w) ∨
  (env.which server.program w = false ∧ env.disableAutoInstallation = false ∧
    ∃ hook, server.ensureInstalled = some hook ∧ hook w = .ok () w₁)

/-- The program is not there, and is not installed, without any other exception. -/
def Missing (w : ω) : Prop :=
  env.which server.program w = false ∧
    (env.disableAutoInstallation = true ∨ server.ensureInstalled = none ∨
      ∃ hook message w₁, server.ensureInstalled = some hook ∧
        hook w = .error (.serverRuntimeError message) w₁)

/-- A failure to start that is caught: the program is missing, or it cannot be
spawned and there is an earlier process, which can be shut down. -/
def Caught (w : ω) : Prop :=
  server.Missing env w ∨
  ∃ w₁ e w₂ process w₃, server.Spawns env w w₁ ∧
    env.openProcess ⟨server.program :: server.args, server.cwd, server.env⟩ w₁ = .error e w₂ ∧
    e.isOsOrRuntimeError = true ∧ server.process = some process ∧
    shutDown env (some process) w₂ = .ok () w₃

end LocalServer

/-- A failure to start that is caught: of a container, that containers are
disabled or the program that runs them is missing; of a socket, that it is a
Unix socket and this is Windows. -/
def Caught (folders : List Text) : Server ω τ → ω → Prop
  | .localServer server, w => server.Caught env w
  | .containerServer server, w =>
    env.enableContainer = false ∨
      (∃ args, server.formatArgs env folders = .ok args) ∧ env.which server.backend w = false
  | .socketServer (.tcp ..), _ => False
  | .socketServer (.unix _), _ => env.windows = true

/-! ### How a start fails -/

section Failures

variable {env} {w w' w₁ : ω}

theorem sys_error {α : Type} {x : EStateM SysExc ω α} {e : SysExc} (h : x w = .error e w') :
    sys x w = .error (.sys e) w' := by
  rw [sys, h]

theorem sys_ok {α : Type} {x : EStateM SysExc ω α} {a : α} (h : x w = .ok a w') :
    sys x w = .ok a w' := by
  rw [sys, h]

namespace LocalServer

variable {server : LocalServer ω τ}

theorem ensureAvailable_there (h : env.which server.program w = true) :
    server.ensureAvailable env w = .ok () w :=
  catch_eq_ok (by rw [checkAvailability, if_pos h])

/-- The program is not there: what happens then. -/
theorem ensureAvailable_missing (h : env.which server.program w = false) :
    server.ensureAvailable env w =
      if env.disableAutoInstallation then
        .error (.serverRuntimeError "auto-installation is disabled.".toList) w
      else match server.ensureInstalled with
        | some hook => hook w
        | none => .error (.serverRuntimeError "no installation method is provided.".toList) w := by
  have hcheck : server.checkAvailability env w = .error (.serverRuntimeError
      ("Program '".toList ++ server.program ++ "' not found in PATH.".toList)) w := by
    rw [checkAvailability, h, if_neg Bool.false_ne_true]
  unfold ensureAvailable
  rw [catch_eq_error hcheck]
  simp only [Exc.isServerRuntimeError]
  cases env.disableAutoInstallation with
  | true => rfl
  | false => cases server.ensureInstalled <;> rfl

theorem ensureAvailable_ok_iff : server.ensureAvailable env w = .ok () w₁ ↔ server.Spawns env w w₁ := by
  unfold Spawns
  cases hwhich : env.which server.program w with
  | true =>
    rw [ensureAvailable_there hwhich]
    constructor
    · intro h
      cases h
      exact Or.inl ⟨rfl, rfl⟩
    · rintro (⟨-, rfl⟩ | ⟨hno, -⟩)
      · rfl
      · cases hno
  | false =>
    rw [ensureAvailable_missing hwhich]
    cases env.disableAutoInstallation with
    | true => simp
    | false => cases server.ensureInstalled <;> simp

theorem ensureAvailable_error_iff {e : Exc} (h : server.ensureAvailable env w = .error e w₁) :
    e.isServerRuntimeError = true ↔ server.Missing env w := by
  unfold Missing
  cases hwhich : env.which server.program w with
  | true =>
    rw [ensureAvailable_there hwhich] at h
    cases h
  | false =>
    rw [ensureAvailable_missing hwhich] at h
    cases hdisabled : env.disableAutoInstallation with
    | true =>
      simp only [hdisabled, if_true] at h
      cases h
      simp [Exc.isServerRuntimeError]
    | false =>
      cases hhook : server.ensureInstalled with
      | none =>
        simp only [hdisabled, hhook] at h
        cases h
        simp [Exc.isServerRuntimeError]
      | some hook =>
        simp only [hdisabled, hhook] at h
        have hrun : hook w = .error e w₁ := h
        cases e <;> simp [Exc.isServerRuntimeError, hrun]

theorem not_missing (h : server.Spawns env w w₁) : ¬ server.Missing env w := by
  rintro ⟨hwhich, hmissing⟩
  obtain ⟨hthere, -⟩ | ⟨-, hdisabled, hook, hhook, hrun⟩ := h
  · cases hwhich.symm.trans hthere
  · obtain hd | hnone | ⟨hook', message, w₂, hhook', hraise⟩ := hmissing
    · cases hdisabled.symm.trans hd
    · cases hhook.symm.trans hnone
    · cases hhook.symm.trans hhook'
      cases hrun.symm.trans hraise

theorem Spawns.unique {w₂ : ω} (h : server.Spawns env w w₁) (h' : server.Spawns env w w₂) : w₂ = w₁ := by
  cases (ensureAvailable_ok_iff.mpr h).symm.trans (ensureAvailable_ok_iff.mpr h')
  rfl

/-- Which failures to spawn a process are caught. -/
theorem caught_iff_of_spawns (h : server.Spawns env w w₁) : server.Caught env w ↔
    ∃ e w₂ process w₃,
      env.openProcess ⟨server.program :: server.args, server.cwd, server.env⟩ w₁ = .error e w₂ ∧
      e.isOsOrRuntimeError = true ∧ server.process = some process ∧
      shutDown env (some process) w₂ = .ok () w₃ := by
  constructor
  · rintro (hmissing | ⟨w₁', e, w₂, process, w₃, hs, hfails⟩)
    · exact absurd hmissing (not_missing h)
    · obtain rfl := h.unique hs
      exact ⟨e, w₂, process, w₃, hfails⟩
  · rintro ⟨e, w₂, process, w₃, hfails⟩
    exact Or.inr ⟨w₁, e, w₂, process, w₃, h, hfails⟩

/-- **A local process that fails to start raises `ServerRuntimeError` exactly if
the failure is one that is caught.** -/
theorem runProcess_error_iff {e : Exc} (h : server.runProcess env w = .error e w') :
    e.isServerRuntimeError = true ↔ server.Caught env w := by
  cases havailable : server.ensureAvailable env w with
  | error e₁ w₁ =>
    rw [runProcess, bind_eq_error havailable] at h
    cases h
    refine (ensureAvailable_error_iff havailable).trans ⟨Or.inl, ?_⟩
    rintro (hmissing | ⟨w₁, -, -, -, -, hspawns, -⟩)
    · exact hmissing
    · cases havailable.symm.trans (ensureAvailable_ok_iff.mpr hspawns)
  | ok _ w₁ =>
    rw [caught_iff_of_spawns (ensureAvailable_ok_iff.mp havailable)]
    rw [runProcess, bind_eq_ok havailable] at h
    cases hopen : env.openProcess ⟨server.program :: server.args, server.cwd, server.env⟩ w₁ with
    | ok t w₂ =>
      rw [catch_eq_ok (sys_ok hopen)] at h
      cases h
    | error e₁ w₂ =>
      rw [catch_eq_error (sys_error hopen)] at h
      cases hshut : shutDown env server.process w₂ with
      | error e₂ w₃ =>
        -- the `finally` raises in place of what it was raised for
        rw [bind_eq_error (sys_error hshut)] at h
        cases h
        refine iff_of_false Bool.false_ne_true ?_
        rintro ⟨e₄, w₄, process, w₅, ho, -, hp, hdown⟩
        cases ho
        rw [hp] at hshut
        cases hshut.symm.trans hdown
      | ok _ w₃ =>
        rw [bind_eq_ok (sys_ok hshut)] at h
        simp only at h
        by_cases he₁ : e₁.isOsOrRuntimeError = true
        · rw [if_pos he₁] at h
          cases h
          refine iff_of_true rfl ?_
          cases hp : server.process with
          | none =>
            rw [hp] at hshut
            cases hshut
          | some process => exact ⟨e₁, w₂, process, _, rfl, he₁, rfl, hp ▸ hshut⟩
        · rw [if_neg he₁] at h
          cases h
          refine iff_of_false Bool.false_ne_true ?_
          rintro ⟨e₄, w₄, process, w₅, ho, he₄, -⟩
          cases ho
          exact he₁ he₄

end LocalServer

/-- A container that fails to start. -/
theorem container_error_iff {server : ContainerServer} {cwd : Text} {folders : List Text} {e : Exc}
    (h : start env cwd folders (.containerServer server) w = .error e w') :
    e.isServerRuntimeError = true ↔ Caught env folders (.containerServer server) w := by
  unfold start ContainerServer.setup at h
  unfold Caught
  cases henable : env.enableContainer with
  | false =>
    simp only [henable, Bool.not_false, if_true] at h
    cases h
    exact iff_of_true rfl (Or.inl rfl)
  | true =>
    simp only [henable, Bool.not_true, Bool.false_eq_true, if_false] at h
    cases hargs : server.formatArgs env folders with
    | error e₁ =>
      simp only [hargs] at h
      cases h
      exact iff_of_false Bool.false_ne_true (by simp [hargs])
    | ok args =>
      simp only [hargs] at h
      rw [LocalServer.runProcess_error_iff h]
      simp [LocalServer.Caught, LocalServer.Missing, hargs]

theorem retry_error {α : Type} {x : EStateM Exc ω α} {P : Exc → Prop}
    (hx : ∀ w e w', x w = .error e w' → P e) : ∀ (n : ℕ) {w w' : ω} {e : Exc},
    SocketServer.retry x n w = .error e w' → P e
  | 0, _, _, _, h => hx _ _ _ h
  | n + 1, w, w', e, h => by
    rw [SocketServer.retry] at h
    cases hw : x w with
    | ok a t =>
      rw [catch_eq_ok hw] at h
      cases h
    | error e₁ t =>
      rw [catch_eq_error hw] at h
      exact retry_error hx n h

theorem connectOnce_error {server : SocketServer} {e : Exc} (h : server.connectOnce env w = .error e w') :
    e.isServerRuntimeError = true ↔ Caught env [] (.socketServer server) w := by
  have hsys : ∀ {x : EStateM SysExc ω τ}, sys x w = .error e w' → e.isServerRuntimeError = false := by
    intro x hx
    unfold sys at hx
    cases hw : x w with
    | ok a t =>
      rw [hw] at hx
      cases hx
    | error e₁ t =>
      rw [hw] at hx
      cases hx
      rfl
  cases server with
  | tcp host port => exact iff_of_false (by simp [hsys h]) id
  | unix path =>
    unfold SocketServer.connectOnce at h
    show _ ↔ env.windows = true
    cases hwindows : env.windows with
    | true =>
      simp only [hwindows, if_true] at h
      cases h
      exact iff_of_true rfl rfl
    | false =>
      simp only [hwindows] at h
      exact iff_of_false (by simp [hsys h]) Bool.false_ne_true

/-- **A candidate that fails to start raises `ServerRuntimeError` exactly if the
failure is one that is caught.** -/
theorem start_error_iff {server : Server ω τ} {cwd : Text} {folders : List Text} {e : Exc}
    (h : start env cwd folders server w = .error e w') :
    e.isServerRuntimeError = true ↔ Caught env folders server w := by
  cases server with
  | localServer server => exact LocalServer.runProcess_error_iff h
  | containerServer server => exact container_error_iff h
  | socketServer server =>
    have hcaught : ∀ w₁ w₂ : ω, Caught env [] (.socketServer server) w₁ ↔
        Caught env folders (.socketServer server) w₂ := fun _ _ => by cases server <;> exact Iff.rfl
    exact retry_error
      (P := fun e => e.isServerRuntimeError = true ↔ Caught env folders (.socketServer server) w)
      (fun w₁ e₁ w₂ h₁ => (connectOnce_error h₁).trans (hcaught w₁ w)) _ h

/-- **The fallback works exactly if every failed attempt fails in a way that is caught.** -/
theorem run_server_falls_back_iff (s : Setup ω τ) (w : ω) :
    FallsBack env s w ↔ ∀ f ∈ (attempts (start env s.cwd s.folders)
      (iterCandidateServers env s.defaults s.arg) w).failed, Caught env s.folders f.candidate f.before := by
  have hcomplete : FallsBack env s w ↔ Complete (start env s.cwd s.folders) Exc.isServerRuntimeError
      (iterCandidateServers env s.defaults s.arg) w := by
    unfold FallsBack Complete runServer
    generalize tryEach _ _ _ _ _ = ended
    generalize attempts _ _ _ = tried
    obtain ⟨failed, started, t⟩ := tried
    cases started with
    | none => cases ended <;> simp
    | some k => cases ended <;> simp [Prod.ext_iff, and_assoc]
  rw [hcomplete, complete_iff]
  refine forall₂_congr fun f hf => ?_
  obtain ⟨t, ht⟩ := failed_raised _ _ hf
  exact start_error_iff ht

end Failures

/-! ### Three failures that end the fallback -/

/-- A world in which programs start and connections are refused. -/
def refusing : Env Unit Unit where
  disableAutoInstallation := false
  enableContainer := true
  windows := false
  resolve := id
  which _ _ := true
  openProcess _ := pure ()
  returncode _ _ := none
  terminate _ := pure ()
  wait _ := pure 0
  kill _ := pure ()
  aclose _ := pure ()
  connectTcp _ _ := throw (.osError "connection refused".toList)
  connectUnix _ := throw (.osError "connection refused".toList)
  retries _ := 0

/-- A world in which programs are found, and none can be spawned. -/
def unspawnable : Env Unit Unit :=
  { refusing with openProcess := fun _ => throw (.osError "permission denied".toList) }

/-- A world in which only programs named `docker` are found. -/
def onlyDocker : Env Unit Unit := { refusing with which := fun program _ => program = "docker".toList }

/-- A client whose installation hook fails. -/
def gopls (arg : ServerArg Unit Unit) : Setup Unit Unit where
  name := "GoplsClient".toList
  defaults := {
    localServer := ⟨"gopls".toList, [], "/ws".toList, none,
      some (throw (.serverInstallationError "could not install gopls".toList)), none⟩
    container := ⟨"gopls".toList, none, [], "docker".toList, none, none⟩ }
  arg := arg
  cwd := "/ws".toList
  folders := ["/ws".toList]

/-- **A refused connection, a process that cannot be spawned and a failing hook
end the fallback with their own exceptions**, in the first and the last case
although another candidate would start. -/
theorem fallback_aborted :
    (runServer refusing (gopls (.server (.socketServer (.tcp "localhost".toList 6008)))) () =
        .error (.exc (.sys (.osError "connection refused".toList))) () ∧
      ¬ FallsBack refusing (gopls (.server (.socketServer (.tcp "localhost".toList 6008)))) ()) ∧
    (runServer unspawnable (gopls .none) () = .error (.exc (.sys (.attributeError
        "'NoneType' object has no attribute 'returncode'".toList))) () ∧
      ¬ FallsBack unspawnable (gopls .none) ()) ∧
    (runServer onlyDocker (gopls .localServer) () =
        .error (.exc (.serverInstallationError "could not install gopls".toList)) () ∧
      ¬ FallsBack onlyDocker (gopls .localServer) ()) := by
  have hsocket : runServer refusing (gopls (.server (.socketServer (.tcp "localhost".toList 6008)))) () =
      .error (.exc (.sys (.osError "connection refused".toList))) () := rfl
  have hspawn : runServer unspawnable (gopls .none) () = .error (.exc (.sys (.attributeError
      "'NoneType' object has no attribute 'returncode'".toList))) () := rfl
  have hhook : runServer onlyDocker (gopls .localServer) () =
      .error (.exc (.serverInstallationError "could not install gopls".toList)) () := rfl
  refine ⟨⟨hsocket, fun h => ?_⟩, ⟨hspawn, fun h => ?_⟩, hhook, fun h => ?_⟩
  · have hstarted : runServer refusing _ () = .ok (_, ()) () := h
    cases hsocket.symm.trans hstarted
  · have hgroup : runServer unspawnable _ () = .error (.exceptionGroup _ _) () := h
    cases hspawn.symm.trans hgroup
  · have hstarted : runServer onlyDocker _ () = .ok (_, ()) () := h
    cases hhook.symm.trans hstarted

end Servers
end LspClient
