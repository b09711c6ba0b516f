import EndpointSecurity.ForStd.Ledger
import EndpointSecurity.Native.ClientOptions

/-!
# What a client owns (`client.c`, `queue.c`, `watchdog.c`)

A client owns memory, two locks, a pipe, a thread and a native client. `client_initialize` gets
hold of them one by one and gives back what it has when a later one is refused;
`client_close_native` and `client_free` give them back at the end. Meanwhile the thread of the
client and the calls of the handler block use them.

The thread that constructs the client and the thread of the client wait for each other with one
condition variable. Either is woken only by a broadcast made while it sleeps, or spuriously.

The ledger of a state has every acquisition, use and release. No step reads it.
-/

namespace EndpointSecurity.ClientLife

inductive Resource where
  /-- The `esrb_client_t` -/
  | client
  | slots
  | requests
  | heap
  | mutex
  | condition
  | readEnd
  | writeEnd
  /-- The thread of the client, until it is joined. -/
  | thread
  /-- The `es_client_t` -/
  | native
  deriving DecidableEq, Repr

/-- What the system answers to the calls of `client_initialize`. -/
structure System where
  slots : Bool := true
  requests : Bool := true
  heap : Bool := true
  mutex : Bool := true
  condition : Bool := true
  pipe : Bool := true
  fcntlRead : Bool := true
  fcntlWrite : Bool := true
  thread : Bool := true
  deriving DecidableEq, Repr

/-- What the surroundings decide about a step of a thread. -/
structure Input where
  /-- What `es_new_client` returns. -/
  result : NewClientResult := .success
  /-- `es_delete_client` succeeds. -/
  deleted : Bool := true
  /-- `pthread_cond_wait` returns although nobody has broadcast. -/
  wakes : Bool := false
  deriving DecidableEq, Repr

/-- Who has called `client_close_native`: `close`, or `client_free`. -/
inductive CloseCaller where
  | method | free
  deriving DecidableEq, Repr

/-- Program counter of the native methods of the client. -/
inductive OwnerPc where
  /-- `client_allocate` has returned, and `client_initialize` has not been called. -/
  | fresh
  -- `client_initialize` from `pthread_create` on
  /-- `client_ready` is to be tested under the mutex. -/
  | awaitReady
  /-- In `pthread_cond_wait` -/
  | asleep
  | checkResult
  | joinFailed
  | idle
  -- `client_close_native`
  | awaitCallbacks (caller : CloseCaller)
  | stopWatchdog (caller : CloseCaller)
  | awaitStopped (caller : CloseCaller)
  | answer (caller : CloseCaller)
  | storeDelete (caller : CloseCaller)
  | join (caller : CloseCaller)
  | notify (caller : CloseCaller)
  /-- The rest of `client_free` -/
  | destroying
  | freed
  deriving DecidableEq, Repr

/-- Program counter of `client_native_main`. -/
inductive NativePc where
  | absent
  | creating
  | announce (result : NewClientResult)
  /-- In `esrb_watchdog_main` -/
  | watching
  | leaving
  /-- `delete_ready` is to be tested under the mutex. -/
  | awaitDelete
  /-- In `pthread_cond_wait` -/
  | asleep
  | deleting
  /-- The thread has returned, and there is no native client. -/
  | ended
  /-- The thread has returned, and `es_delete_client` has failed. -/
  | undeleted
  deriving DecidableEq, Repr

structure State where
  /-- `getpid()` -/
  pid : Nat
  -- `queue.slots`, `watchdog.requests` and `watchdog.heap` are not `NULL`
  slots : Bool
  requests : Bool
  heap : Bool
  -- `wakeup_fd[0]` and `wakeup_fd[1]` are not negative
  readFd : Bool
  writeFd : Bool
  /-- `client->client` is not `NULL`. -/
  clientPointer : Bool
  threadStarted : Bool
  watchdogRunning : Bool
  watchdogStopped : Bool
  deleteReady : Bool
  clientReady : Bool
  deleteErrors : Nat
  -- A broadcast has been made since the owner, or the thread of the client, went to sleep
  ownerWoken : Bool
  nativeWoken : Bool
  creationResult : NewClientResult
  closed : Bool
  /-- `owner_pid`, which is zero before it is set. -/
  ownerPid : Nat
  settings : Option ClientSettings
  /-- Calls of the handler block that have counted themselves in `active_callbacks`, by how far
      they have got: before the test of `closed`, past it, or about to refuse the message. -/
  entered : Nat
  working : Nat
  refusing : Nat
  owner : OwnerPc
  native : NativePc
  /-- What `client_initialize` has raised. -/
  raised : Option InitializeError
  ledger : List (Ledger.Event Resource)

/-- `client_allocate` -/
def State.init (pid : Nat) : State where
  pid := pid
  slots := false
  requests := false
  heap := false
  readFd := false
  writeFd := false
  clientPointer := false
  threadStarted := false
  watchdogRunning := false
  watchdogStopped := false
  deleteReady := false
  clientReady := false
  deleteErrors := 0
  ownerWoken := false
  nativeWoken := false
  creationResult := .success
  closed := true
  ownerPid := 0
  settings := none
  entered := 0
  working := 0
  refusing := 0
  owner := .fresh
  native := .absent
  raised := none
  ledger := [.acquire .client]

namespace State

def acquire (s : State) (rs : List Resource) : State :=
  { s with ledger := rs.map .acquire ++ s.ledger }

def use (s : State) (rs : List Resource) : State :=
  { s with ledger := rs.map .use ++ s.ledger }

def release (s : State) (rs : List Resource) : State :=
  { s with ledger := rs.map .release ++ s.ledger }

/-- `pthread_cond_broadcast` wakes whoever is asleep. -/
def broadcast (s : State) : State :=
  { s with
    ownerWoken := s.ownerWoken || s.owner = .asleep
    nativeWoken := s.nativeWoken || s.native = .asleep }

@[simp] theorem use_owner (s : State) (rs : List Resource) : (s.use rs).owner = s.owner := rfl

/-- `free`, which does nothing with `NULL`. -/
def free (s : State) (r : Resource) (pointer : Bool) : State :=
  if pointer then s.release [r] else s

/-- The client belongs to another process, which this one has been forked from. -/
def foreign (s : State) : Bool := s.ownerPid ≠ 0 && s.ownerPid ≠ s.pid

/-- `active_callbacks` -/
def activeCallbacks (s : State) : Nat := s.entered + s.working + s.refusing

/-! ## The parts of a client -/

/-- `esrb_queue_init`, which does not say why it fails. -/
def queueInit (s : State) (sys : System) (capacity : Nat) : Bool × State :=
  if !Capacity.check capacity then (false, s)
  else if !sys.slots then (false, { s with slots := false })
  else (true, { s.acquire [.slots] with slots := true })

/-- `esrb_queue_destroy` -/
def queueDestroy (s : State) : State := { s.free .slots s.slots with slots := false }

/-- The arrays of the watchdog are freed. -/
def freeArrays (s : State) : State :=
  { (s.free .requests s.requests).free .heap s.heap with requests := false, heap := false }

/-- `esrb_watchdog_init` -/
def watchdogInit (s : State) (sys : System) : Bool × State :=
  -- Both arrays are allocated before either of them is looked at
  let s := { (if sys.requests then s.acquire [.requests] else s) with requests := sys.requests }
  let s := { (if sys.heap then s.acquire [.heap] else s) with heap := sys.heap }
  if !s.requests || !s.heap then (false, s.freeArrays)
  else if !sys.mutex then (false, s.freeArrays)
  else if !sys.condition then (false, ((s.acquire [.mutex]).release [.mutex]).freeArrays)
  else (true, (s.acquire [.mutex]).acquire [.condition])

/-- `esrb_watchdog_destroy`, which takes the requests as a sign that there is a watchdog. -/
def watchdogDestroy (s : State) : State :=
  if !s.requests then s else (s.release [.mutex, .condition]).freeArrays

/-- `esrb_watchdog_abandon`: the locks of another process are left alone. -/
def watchdogAbandon (s : State) : State := s.freeArrays

/-- Both ends of the pipe are closed, and their descriptors forgotten. -/
def closePipe (s : State) : State :=
  { s.release [.writeEnd, .readEnd] with readFd := false, writeFd := false }

/-! ## `client_initialize` -/

/-- `client_initialize` raises. -/
def fail (s : State) (error : InitializeError) : State :=
  { s with owner := .idle, raised := some error }

/-- The part of `client_initialize` that follows the reading of the options, up to
    `pthread_create`. -/
def setUp (s : State) (sys : System) (settings : ClientSettings) : State :=
  match s.queueInit sys settings.queueDepth with
  | (false, s) => s.fail .queueDepth
  | (true, s) =>
    match s.watchdogInit sys with
    | (false, s) => s.queueDestroy.fail .watchdogMemory
    | (true, s) =>
      if !sys.pipe then s.watchdogDestroy.queueDestroy.fail .pipe
      else
        let s := { s.acquire [.writeEnd, .readEnd] with readFd := true, writeFd := true }
        let s := s.use [.writeEnd, .readEnd]
        if !sys.fcntlRead || !sys.fcntlWrite then
          s.closePipe.watchdogDestroy.queueDestroy.fail .fcntl
        else
          let s := { s with
            settings := some settings
            ownerPid := s.pid
            watchdogRunning := true
            watchdogStopped := false
            deleteReady := false
            clientReady := false
            deleteErrors := 0
            creationResult := .errInternal
            closed := false }
          if !sys.thread then
            -- The client is marked as closed again, so that nothing is done when it is freed
            let s := { s with watchdogRunning := false }.closePipe.watchdogDestroy.queueDestroy
            { s with closed := true }.fail .thread
          else
            { s.acquire [.thread] with
              threadStarted := true
              native := .creating
              owner := .awaitReady }

/-- `client_initialize` up to `pthread_create` -/
def clientInitialize (s : State) (sys : System) (o : ClientOptions) : State :=
  let s := s.use [.client]
  match o.settings with
  | .error error => s.fail error
  | .ok settings => s.setUp sys settings

end State

/-! ## The methods -/

/-- The methods of a client, by what they need of it. -/
inductive Method where
  | close
  | closed
  | stats
  | wake
  | wakeupFd
  | drain
  /-- A method that calls Endpoint Security: those that subscribe, mute, clear the cache or ask
      about any of these. -/
  | control
  deriving DecidableEq, Repr

/-- The method goes through `get_open_client` or `mute_client`. -/
def Method.needsOpen : Method → Bool
  | .wakeupFd | .drain | .control => true
  | .close | .closed | .stats | .wake => false

/-- `esrb_notify`: a write to a descriptor that is negative fails without any effect. -/
def State.notifyUses (s : State) : List Resource := if s.writeFd then [.writeEnd] else []

/-- What a method other than `close` uses besides the client. -/
def State.methodUses (s : State) : Method → List Resource
  | .close | .closed | .stats | .wakeupFd => []
  | .wake => s.notifyUses
  | .drain => [.readEnd, .slots] ++ s.notifyUses
  | .control => [.native]

/-- `client_close_native` begins. -/
def State.closeNative (s : State) (caller : CloseCaller) : State :=
  if s.closed then
    { s with owner := match caller with
      | .method => .idle
      | .free => .destroying }
  else
    -- `es_unsubscribe_all`
    { s.use (if s.clientPointer then [.native] else []) with
      closed := true
      owner := .awaitCallbacks caller }

/-- A native method is called on the client. -/
def callMethod (m : Method) (s : State) : Option State :=
  if s.owner ≠ .idle then none
  -- `get_client` raises in a process that does not own the client, and `get_open_client` when
  -- it is closed.
  else if s.ownerPid ≠ s.pid || m.needsOpen && s.closed then some (s.use [.client])
  else match m with
  | .close => some ((s.use [.client]).closeNative .method)
  | _ => some ((s.use [.client]).use (s.methodUses m))

/-- The collector calls `client_free`. -/
def callFree (s : State) : Option State :=
  if s.owner ≠ .idle ∧ s.owner ≠ .fresh then none
  else if !s.foreign then some ((s.use [.client]).closeNative .free)
  else
    some { s.use [.client] with
      clientPointer := false
      watchdogRunning := false
      closed := true
      owner := .destroying }

/-- The thread of the client has returned. -/
def NativePc.finished : NativePc → Bool
  | .ended | .undeleted => true
  | _ => false

/-- The next step of the native method that is being executed. -/
def ownerStep (i : Input) (s : State) : Option State :=
  let goto (pc : OwnerPc) (s : State) : State := { s with owner := pc }
  let s := s.use [.client]
  match s.owner with
  | .fresh | .idle | .freed => none
  -- The mutex makes one step of the test and of the beginning of the wait.
  | .awaitReady =>
    some (goto (if s.clientReady then .checkResult else .asleep) (s.use [.mutex, .condition]))
  | .asleep =>
    if s.ownerWoken || i.wakes then
      some (goto .awaitReady { s.use [.mutex, .condition] with ownerWoken := false })
    else none
  | .checkResult =>
    some (goto (if s.creationResult = .success then .idle else .joinFailed) s)
  | .joinFailed =>
    if !s.native.finished then some s
    else
      let s := { s.release [.thread] with threadStarted := false }
      let s := s.closePipe.watchdogDestroy.queueDestroy
      some ({ s with closed := true }.fail (.newClient s.creationResult))
  | .awaitCallbacks caller =>
    some (if s.activeCallbacks = 0 then goto (.stopWatchdog caller) s else s)
  | .stopWatchdog caller =>
    if s.threadStarted then
      some (goto (.awaitStopped caller)
        { (s.use [.condition]).broadcast with watchdogRunning := false })
    else some (goto (.answer caller) s)
  | .awaitStopped caller => some (if s.watchdogStopped then goto (.answer caller) s else s)
  -- `client_answer_occupied` and `client_drain_and_release`
  | .answer caller =>
    some (goto (if s.threadStarted then .storeDelete caller else .notify caller)
      (s.use [.slots, .native]))
  | .storeDelete caller =>
    some (goto (.join caller)
      { (s.use [.mutex, .condition]).broadcast with deleteReady := true })
  | .join caller =>
    if !s.native.finished then some s
    else some (goto (.notify caller)
      { s.release [.thread] with threadStarted := false, clientPointer := false })
  | .notify caller => some (goto (match caller with
      | .method => .idle
      | .free => .destroying) (s.use s.notifyUses))
  | .destroying =>
    let s := s.queueDestroy
    let s := if s.foreign then s.watchdogAbandon else s.watchdogDestroy
    let s := (s.free .readEnd s.readFd).free .writeEnd s.writeFd
    some (goto .freed { s.release [.client] with readFd := false, writeFd := false })

/-! ## The thread of the client -/

/-- The next step of `client_native_main`. -/
def nativeStep (i : Input) (s : State) : Option State :=
  let goto (pc : NativePc) (s : State) : State := { s with native := pc }
  match s.native with
  | .absent | .ended | .undeleted => none
  | .creating =>
    let s := s.use [.client]
    some (goto (.announce i.result)
      (if i.result = .success then { s.acquire [.native] with clientPointer := true } else s))
  | .announce result =>
    some (goto (if result = .success then .watching else .ended)
      { (s.use [.mutex, .condition, .client]).broadcast with
        creationResult := result, clientReady := true })
  | .watching =>
    -- One step is one pass of the loop of `esrb_watchdog_main`.
    if s.watchdogRunning then
      some (s.use [.requests, .heap, .slots, .native, .writeEnd, .mutex, .condition, .client])
    else some (goto .leaving (s.use [.client]))
  | .leaving => some (goto .awaitDelete { s.use [.client] with watchdogStopped := true })
  | .awaitDelete =>
    some (goto (if s.deleteReady then .deleting else .asleep)
      (s.use [.mutex, .condition, .client]))
  | .asleep =>
    if s.nativeWoken || i.wakes then
      some (goto .awaitDelete { s.use [.mutex, .condition, .client] with nativeWoken := false })
    else none
  | .deleting =>
    if i.deleted then some (goto .ended ((s.use [.client]).release [.native]))
    else some (goto .undeleted
      { s.use [.native, .client] with deleteErrors := s.deleteErrors + 1 })

/-- The native client exists. -/
def NativePc.hasClient : NativePc → Bool
  | .announce result => result = .success
  | .watching | .leaving | .awaitDelete | .asleep | .deleting | .undeleted => true
  | .absent | .creating | .ended => false

/-- What a call of the handler block does next. -/
inductive CallbackAction where
  | enter
  /-- `closed` is tested. -/
  | check
  /-- The message is queued, armed and announced, or answered. -/
  | work
  | refuse
  /-- `active_callbacks` is decremented. -/
  | leaveWork
  | leaveRefused
  deriving DecidableEq, Repr

/-- A step of `handle_message`. -/
def callbackStep (a : CallbackAction) (s : State) : Option State :=
  match a with
  | .enter =>
    if s.native.hasClient then some { s.use [.client] with entered := s.entered + 1 } else none
  | .check =>
    if s.entered = 0 then none
    else if s.closed then
      some { s.use [.client] with entered := s.entered - 1, refusing := s.refusing + 1 }
    else some { s.use [.client] with entered := s.entered - 1, working := s.working + 1 }
  | .work =>
    if s.working = 0 then none
    else some (s.use [.slots, .requests, .native, .writeEnd, .client])
  | .refuse => if s.refusing = 0 then none else some (s.use [.native, .client])
  | .leaveWork =>
    if s.working = 0 then none else some { s.use [.client] with working := s.working - 1 }
  | .leaveRefused =>
    if s.refusing = 0 then none else some { s.use [.client] with refusing := s.refusing - 1 }

/-! ## Processes -/

/-- What a process has of the resources of a client that it has been forked with: copies of the
    memory and of the descriptors. Its ledger begins with these. -/
def State.inherited (s : State) : List Resource :=
  (if s.slots then [Resource.slots] else []) ++ (if s.requests then [Resource.requests] else []) ++
    (if s.heap then [Resource.heap] else []) ++ (if s.readFd then [Resource.readEnd] else []) ++
    (if s.writeFd then [Resource.writeEnd] else []) ++ [Resource.client]

/-- The client in a child of the process. `fork` is called under the global VM lock, and so between
    the native methods; none of the other threads exists in the child. -/
def fork (pid : Nat) (s : State) : Option State :=
  if s.owner ≠ .idle ∧ s.owner ≠ .fresh then none
  else if pid = 0 ∨ pid = s.pid ∨ pid = s.ownerPid then none
  else some { s with
    pid
    native := .absent
    entered := 0
    working := 0
    refusing := 0
    ledger := s.inherited.map .acquire }

inductive Action where
  /-- `client_initialize`, which `new` calls once. A second call, which nothing in the source keeps
      from being made, would overwrite the fields of the client; it is left out. -/
  | construct (sys : System) (o : ClientOptions)
  | method (m : Method)
  | free
  /-- The native method that is being executed makes a step. -/
  | owner (i : Input)
  /-- The thread of the client makes a step. -/
  | native (i : Input)
  | callback (a : CallbackAction)
  /-- The process forks, and the child goes on. -/
  | fork (pid : Nat)
  deriving DecidableEq, Repr

def step : Action → State → Option State
  | .construct sys o, s => if s.owner = .fresh then some (s.clientInitialize sys o) else none
  | .method m, s => callMethod m s
  | .free, s => callFree s
  | .owner i, s => ownerStep i s
  | .native i, s => nativeStep i s
  | .callback a, s => callbackStep a s
  | .fork pid, s => ClientLife.fork pid s

end EndpointSecurity.ClientLife
