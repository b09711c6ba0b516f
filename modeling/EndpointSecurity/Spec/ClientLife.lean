import EndpointSecurity.ForStd.Progress
import EndpointSecurity.Native.ClientLife

/-!
# Nothing is leaked, and nothing is used after its release

However the calls of `client_initialize` come out, and however the native methods, the thread of
the client and the handler block interleave, each resource of a client is acquired, used while it
is held, and released once; a native client that `es_delete_client` fails to delete is the only one
that is lost. What the fields of the client say is what is held.

All this rests on `es_delete_client`: the client is freed once it has returned, so that the handler
block must not be running then, nor be called again.

## Key results

- `Quiesces`: what is relied on of `es_delete_client`
- `reachable_sound`: the invariant of every run
- `resources_released_once`: the ledger of every run is in order
- `client_is_freed`: a client can be freed from wherever it has got to
-/

namespace EndpointSecurity.ClientLife

open TransitionSystem (Reachable CanReach restrict restrict_eq_some)

/-- What is relied on of Endpoint Security: `es_delete_client` returns when no call of the handler
    block is under way, and the handler block is not called afterwards, whether the native client
    has been deleted or not. -/
def Quiesces : Action → State → Prop
  | .native _, s => s.native = .deleting → s.activeCallbacks = 0
  | .callback .enter, s => s.native ≠ .undeleted
  | _, _ => True

instance (a : Action) (s : State) : Decidable (Quiesces a s) := by
  unfold Quiesces
  split <;> infer_instance

/-! ## The invariant -/

/-- Endpoint Security calls the handler block of this client. -/
def NativePc.serving : NativePc → Bool
  | .announce result => result = .success
  | .watching | .leaving | .awaitDelete | .asleep | .deleting => true
  | .absent | .creating | .ended | .undeleted => false

/-- What is held, as far as the fields of the client tell. -/
def State.holds (s : State) : Resource → Bool
  | .client => s.owner ≠ .freed
  | .slots => s.slots
  | .requests => s.requests
  | .heap => s.heap
  | .mutex | .condition => s.requests && !s.foreign
  | .readEnd => s.readFd
  | .writeEnd => s.writeFd
  | .thread => s.threadStarted && !s.foreign
  | .native => s.native.hasClient

/-- The thread has created the native client and told so, and the client has not been closed yet
    as far as the thread is concerned. -/
def State.Created (s : State) : Prop :=
  s.slots ∧ s.threadStarted ∧ s.clientReady ∧ s.creationResult = .success ∧
    s.deleteReady = false ∧ s.deleteErrors = 0

/-- The thread has left the loop of the watchdog, and has not deleted the native client. -/
def State.Leaving (s : State) : Prop :=
  s.slots ∧ s.threadStarted ∧ s.clientReady ∧ s.creationResult = .success ∧
    s.watchdogRunning = false ∧ s.watchdogStopped ∧ s.deleteErrors = 0

/-- Where the thread of the client is. -/
def State.ThreadOk (s : State) : Prop :=
  match s.native with
  | .absent => s.threadStarted = false ∧ s.deleteErrors = 0
  | .creating | .announce _ => s.threadStarted ∧ s.clientReady = false ∧
      s.watchdogRunning ∧ s.watchdogStopped = false ∧ s.deleteReady = false ∧ s.deleteErrors = 0
  | .watching => s.Created ∧ s.watchdogStopped = false
  | .leaving => s.Created ∧ s.watchdogRunning = false ∧ s.watchdogStopped = false
  | .awaitDelete => s.Leaving
  | .asleep => s.Leaving ∧ (s.deleteReady → s.nativeWoken)
  | .deleting => s.Leaving ∧ s.deleteReady
  | .ended => s.clientReady ∧ (s.creationResult ≠ .success ∨ s.deleteReady) ∧ s.deleteErrors = 0
  | .undeleted => s.clientReady ∧ s.creationResult = .success ∧ s.deleteReady ∧ s.deleteErrors = 1

/-- Where the native methods are. -/
def State.OwnerOk (s : State) : Prop :=
  match s.owner with
  | .fresh => s.closed ∧ s.slots = false ∧ s.threadStarted = false ∧ s.native = .absent ∧
      s.raised = none ∧ s.ownerPid = 0
  | .awaitReady => s.closed = false ∧ s.slots ∧ s.threadStarted ∧ s.watchdogRunning ∧
      s.deleteReady = false ∧ s.settings.isSome ∧ s.raised = none
  | .asleep => s.closed = false ∧ s.slots ∧ s.threadStarted ∧ s.watchdogRunning ∧
      s.deleteReady = false ∧ s.settings.isSome ∧ s.raised = none ∧
      (s.clientReady → s.ownerWoken)
  | .checkResult => s.closed = false ∧ s.slots ∧ s.threadStarted ∧ s.watchdogRunning ∧
      s.deleteReady = false ∧ s.settings.isSome ∧ s.raised = none ∧ s.clientReady
  | .joinFailed => s.closed = false ∧ s.slots ∧ s.threadStarted ∧ s.watchdogRunning ∧
      s.deleteReady = false ∧ s.clientReady ∧ s.creationResult ≠ .success
  | .idle =>
    if s.closed then s.threadStarted = false ∧ s.native.serving = false ∧ s.native ≠ .creating ∧
      (s.raised.isSome → s.slots = false ∧ s.native ≠ .undeleted)
    else s.Created ∧ s.watchdogRunning ∧ s.settings.isSome ∧ s.raised = none
  | .awaitCallbacks _ | .stopWatchdog _ => s.closed ∧ s.Created ∧ s.watchdogRunning ∧
      s.raised = none
  | .awaitStopped _ => s.closed ∧ s.Created ∧ s.watchdogRunning = false ∧ s.raised = none
  | .answer _ | .storeDelete _ => s.closed ∧ s.Created ∧ s.watchdogRunning = false ∧
      s.watchdogStopped ∧ s.raised = none
  | .join _ => s.closed ∧ s.slots ∧ s.threadStarted ∧ s.clientReady ∧
      s.creationResult = .success ∧ s.deleteReady ∧ s.raised = none
  | .notify _ => s.closed ∧ s.slots ∧ s.threadStarted = false ∧ s.native.finished ∧
      s.raised = none
  | .destroying => s.closed ∧ s.threadStarted = false ∧ s.native.serving = false ∧
      s.native ≠ .creating
  | .freed => s.slots = false ∧ s.threadStarted = false ∧ s.native.serving = false ∧
      s.native ≠ .creating

/-- The client is another process's: nothing of it runs here, and all that is left to do is to free
    it. -/
structure State.Abandoned (s : State) : Prop where
  owner : s.owner = .idle ∨ s.owner = .destroying ∨ s.owner = .freed ∧ s.slots = false
  native : s.native = .absent

/-- The invariant of every run. -/
structure Sound (s : State) : Prop where
  process : s.pid ≠ 0
  ledger : Ledger.held s.ledger = some s.holds
  /-- A client has all of its parts but the thread and the native client, or none. -/
  equipped : s.requests = s.slots ∧ s.heap = s.slots ∧ s.readFd = s.slots ∧ s.writeFd = s.slots
  abandoned : s.foreign → s.Abandoned
  owner : s.foreign = false → s.OwnerOk
  thread : s.foreign = false → s.ThreadOk
  callbacks : s.native.serving = false → s.activeCallbacks = 0
  working : s.working ≠ 0 → s.closed = false ∨ ∃ caller, s.owner = .awaitCallbacks caller
  /-- A client that no process has come to own has nothing. -/
  unowned : s.ownerPid = 0 → s.closed ∧ s.slots = false ∧ s.threadStarted = false ∧
    s.deleteErrors = 0

theorem sound_init {pid : Nat} (hpid : pid ≠ 0) : Sound (.init pid) where
  process := hpid
  -- The ledger starts with the object itself, which Ruby has allocated
  ledger := by
    have hempty : Ledger.held ([] : List (Ledger.Event Resource)) = some fun _ => false := rfl
    refine Ledger.held_acquire hempty rfl _ fun r => ?_
    cases r <;> rfl
  equipped := by simp [State.init]
  abandoned := by simp [State.init, State.foreign]
  owner := by simp [State.init, State.OwnerOk]
  thread := by simp [State.init, State.ThreadOk]
  callbacks _ := rfl
  working h := absurd rfl h
  unowned := by simp [State.init]

variable {s s' : State} {i : Input}

theorem NativePc.hasClient_of_serving {pc : NativePc} (h : pc.serving) : pc.hasClient := by
  cases pc <;> simp_all [serving, hasClient]

theorem NativePc.rest_of_finished {pc : NativePc} (h : pc.finished) :
    pc.serving = false ∧ pc ≠ .creating := by
  cases pc <;> simp_all [serving, finished]

/-- While the handler block may be called, the client has all of its parts. -/
theorem Sound.serving (h : Sound s) (hserving : s.native.serving) :
    s.foreign = false ∧ s.slots ∧ s.threadStarted ∧ s.owner ≠ .freed := by
  -- In a child of the owner there is no thread, hence nobody who calls the handler block
  by_cases hforeign : s.foreign
  · rw [(h.abandoned hforeign).native] at hserving
    cases hserving
  · have hforeign : s.foreign = false := by simpa using hforeign
    have howner := h.owner hforeign
    have hthread := h.thread hforeign
    refine ⟨hforeign, ?_⟩
    -- While the thread has the client, the native methods do not give anything back
    cases hnative : s.native <;>
      simp [hnative, NativePc.serving, State.ThreadOk, State.Created, State.Leaving]
        at hserving hthread <;>
      cases hpc : s.owner <;>
      simp_all [State.OwnerOk, State.Created, NativePc.serving]

/-- What the thread and the handler block use while the handler block may be called. -/
theorem Sound.holds_serving (h : Sound s) (hserving : s.native.serving) (r : Resource) :
    s.holds r := by
  obtain ⟨hforeign, hslots, hstarted, howner⟩ := h.serving hserving
  obtain ⟨hrequests, hheap, hread, hwrite⟩ := h.equipped
  have hclient := NativePc.hasClient_of_serving hserving
  cases r <;> simp [State.holds, *]

theorem Sound.use (h : Sound s) {rs : List Resource} (hrs : ∀ r ∈ rs, s.holds r) :
    Ledger.held (s.use rs).ledger = some s.holds := Ledger.held_uses rs h.ledger hrs

/-! ## The handler block -/

/-- A call of the handler block uses what it likes, and changes nothing but the counters. -/
theorem Sound.callback (h : Sound s) (hserving : s.native.serving) (rs : List Resource)
    (entered working refusing : Nat)
    (hworking : working ≠ 0 → s.closed = false ∨ ∃ caller, s.owner = .awaitCallbacks caller) :
    Sound { s.use rs with entered, working, refusing } where
  process := h.process
  ledger := h.use fun r _ => h.holds_serving hserving r
  equipped := h.equipped
  abandoned hforeign := ⟨(h.abandoned hforeign).owner, (h.abandoned hforeign).native⟩
  owner := h.owner
  thread := h.thread
  callbacks hnot := by
    rw [show ({ s.use rs with entered, working, refusing } : State).native = s.native from rfl,
      hserving] at hnot
    cases hnot
  working := hworking
  unowned := h.unowned

theorem callbackStep_sound {a : CallbackAction} (h : Sound s) (hquiet : Quiesces (.callback a) s)
    (hstep : callbackStep a s = some s') : Sound s' := by
  have hserving : s.native.serving = false → s.entered = 0 ∧ s.working = 0 ∧ s.refusing = 0 := by
    intro hnot
    have := h.callbacks hnot
    simp only [State.activeCallbacks] at this
    omega
  cases a with
  | enter =>
    simp only [callbackStep] at hstep
    split_ifs at hstep with hclient
    cases hstep
    -- The client exists, and after a failed deletion no call of the handler block comes
    have hserves : s.native.serving := by
      have hdeleted : s.native ≠ .undeleted := hquiet
      cases hpc : s.native <;> simp_all [NativePc.hasClient, NativePc.serving]
    exact h.callback hserves _ _ _ _ h.working
  | check =>
    simp only [callbackStep] at hstep
    split_ifs at hstep with hentered hclosed <;> cases hstep
    · have hserves : s.native.serving := by
        by_contra hnot
        exact hentered (hserving (by simpa using hnot)).1
      exact h.callback hserves _ _ _ _ h.working
    · have hserves : s.native.serving := by
        by_contra hnot
        exact hentered (hserving (by simpa using hnot)).1
      -- A call counts as working only if it has found the client open
      exact h.callback hserves _ _ _ _ fun _ => .inl (by simpa using hclosed)
  | work | leaveWork =>
    simp only [callbackStep] at hstep
    split_ifs at hstep with hworking
    cases hstep
    have hserves : s.native.serving := by
      by_contra hnot
      exact hworking (hserving (by simpa using hnot)).2.1
    exact h.callback hserves _ _ _ _ fun _ => h.working hworking
  | refuse | leaveRefused =>
    simp only [callbackStep] at hstep
    split_ifs at hstep with hrefusing
    cases hstep
    have hserves : s.native.serving := by
      by_contra hnot
      exact hrefusing (hserving (by simpa using hnot)).2.2
    exact h.callback hserves _ _ _ _ h.working

/-! ## The thread of the client -/

/-- The thread exists only in the process that has started it. -/
theorem Sound.own (h : Sound s) (hnative : s.native ≠ .absent) : s.foreign = false := by
  by_contra hforeign
  exact hnative (h.abandoned (by simpa using hforeign)).native

/-- The locks are there as long as the thread is. -/
theorem Sound.holds_started (h : Sound s) (hforeign : s.foreign = false)
    (hstarted : s.threadStarted) {r : Resource} (hr : r ≠ .native) : s.holds r := by
  have howner := h.owner hforeign
  obtain ⟨hrequests, hheap, hread, hwrite⟩ := h.equipped
  -- A client with a thread has not been freed, and has its arrays
  have hslots : s.slots ∧ s.owner ≠ .freed := by
    cases hpc : s.owner <;> simp_all [State.OwnerOk, State.Created]
  cases r <;> simp_all [State.holds]

/-- A step that only uses what is held. -/
theorem Sound.used (h : Sound s) {rs : List Resource} (hrs : ∀ r ∈ rs, s.holds r)
    (hclient : s'.native.hasClient = s.native.hasClient)
    (hfreed : s'.owner = .freed ↔ s.owner = .freed)
    (hsame : s'.ledger = (s.use rs).ledger ∧ s'.foreign = s.foreign ∧
      s'.threadStarted = s.threadStarted ∧ s'.slots = s.slots ∧ s'.requests = s.requests ∧
      s'.heap = s.heap ∧ s'.readFd = s.readFd ∧ s'.writeFd = s.writeFd := by
        try dsimp only [State.use, State.acquire, State.release, State.broadcast, State.foreign]
        exact ⟨rfl, rfl, rfl, rfl, rfl, rfl, rfl, rfl⟩) :
    Ledger.held s'.ledger = some s'.holds := by
  obtain ⟨hledger, hforeign, hstarted, hslots, hrequests, hheap, hread, hwrite⟩ := hsame
  rw [hledger, h.use hrs]
  congr 1
  -- What is held is read off fields that the step leaves alone
  funext r
  cases r <;> simp [State.holds, *]

/-- A step of the thread. -/
theorem Sound.nativeNext (h : Sound s) (hforeign : s.foreign = false) (hstarted : s.threadStarted)
    (hledger : Ledger.held s'.ledger = some s'.holds) (howner : s'.OwnerOk) (hthread : s'.ThreadOk)
    (hcallbacks : s'.native.serving = false → s'.activeCallbacks = 0)
    (hsame : s'.foreign = s.foreign ∧ s'.owner = s.owner ∧ s'.closed = s.closed ∧
      s'.working = s.working ∧ s'.slots = s.slots ∧ s'.requests = s.requests ∧ s'.heap = s.heap ∧
      s'.readFd = s.readFd ∧ s'.writeFd = s.writeFd ∧ s'.ownerPid = s.ownerPid ∧
      s'.pid = s.pid := by
        try dsimp only [State.use, State.acquire, State.release, State.broadcast, State.foreign]
        exact ⟨rfl, rfl, rfl, rfl, rfl, rfl, rfl, rfl, rfl, rfl, rfl⟩) : Sound s' := by
  obtain ⟨hforeign', hpc, hclosed, hworking, hslots, hrequests, hheap, hread, hwrite, hpid,
    hprocess⟩ := hsame
  constructor
  case process => rw [hprocess]; exact h.process
  case ledger => exact hledger
  case equipped =>
    rw [hslots, hrequests, hheap, hread, hwrite]
    exact h.equipped
  case abandoned => simp [hforeign', hforeign]
  case owner => exact fun _ => howner
  case thread => exact fun _ => hthread
  case callbacks => exact hcallbacks
  case working =>
    rw [hworking, hclosed, hpc]
    exact h.working
  case unowned =>
    -- The thread is started by the process that comes to own the client
    rw [hpid]
    intro hunowned
    rw [(h.unowned hunowned).2.2.1] at hstarted
    cases hstarted

theorem State.ThreadOk.started (h : s.ThreadOk) (habsent : s.native ≠ .absent)
    (hfinished : s.native.finished = false) : s.threadStarted := by
  cases hnative : s.native <;>
    simp_all [State.ThreadOk, State.Created, State.Leaving, NativePc.finished]

/-- What the native methods know while there is a thread is not changed by a step of it that
    leaves what they wait for alone. -/
theorem State.OwnerOk.nativeNext (h : s.OwnerOk) (hstarted : s.threadStarted)
    (hstopped : s.watchdogStopped → s'.watchdogStopped)
    (hsame : s'.owner = s.owner ∧ s'.closed = s.closed ∧ s'.slots = s.slots ∧
      s'.threadStarted = s.threadStarted ∧ s'.watchdogRunning = s.watchdogRunning ∧
      s'.clientReady = s.clientReady ∧ s'.creationResult = s.creationResult ∧
      s'.deleteReady = s.deleteReady ∧ s'.deleteErrors = s.deleteErrors ∧
      s'.ownerWoken = s.ownerWoken ∧ s'.settings = s.settings ∧ s'.raised = s.raised := by
        try dsimp only [State.use, State.acquire, State.release, State.broadcast, State.foreign]
        exact ⟨rfl, rfl, rfl, rfl, rfl, rfl, rfl, rfl, rfl, rfl, rfl, rfl⟩) : s'.OwnerOk := by
  obtain ⟨hpc, hclosed, hslots, hstarted', hrunning, hclient, hresult, hready, herrors, hwoken,
    hsettings, hraised⟩ := hsame
  unfold State.OwnerOk State.Created at *
  rw [hpc, hclosed, hslots, hstarted', hrunning, hclient, hresult, hready, herrors, hwoken,
    hsettings, hraised]
  cases hown : s.owner with
  | fresh | notify | destroying | freed => simp [hown, hstarted] at h
  | idle =>
    rw [hown] at h
    cases hclosed : s.closed with
    -- A closed client at rest has joined its thread
    | true => simp [hclosed, hstarted] at h
    | false => simpa [hclosed] using h
  -- These two have seen `watchdog_stopped`, which is not taken back
  | answer | storeDelete =>
    rw [hown] at h
    exact ⟨h.1, h.2.1, h.2.2.1, hstopped h.2.2.2.1, h.2.2.2.2⟩
  | _ => simpa [hown] using h

theorem nativeStep_sound (h : Sound s) (hquiet : Quiesces (.native i) s)
    (hstep : nativeStep i s = some s') : Sound s' := by
  have hforeign : s.foreign = false := by
    refine h.own fun habsent => ?_
    simp [nativeStep, habsent] at hstep
  have howner := h.owner hforeign
  have hthread := h.thread hforeign
  have hcallbacks := h.callbacks
  have hstarted : s.threadStarted := by
    apply hthread.started
    · intro hpc
      simp [nativeStep, hpc] at hstep
    · cases hpc : s.native <;> simp_all [nativeStep, NativePc.finished]
  have huse : s.threadStarted → ∀ rs : List Resource, .native ∉ rs →
      ∀ r ∈ rs, s.holds r := fun hstarted rs hrs r hr =>
    h.holds_started hforeign hstarted fun heq => hrs (heq ▸ hr)
  cases hpc : s.native with
  | absent | ended | undeleted => simp [nativeStep, hpc] at hstep
  | creating =>
    rw [hpc] at hcallbacks
    simp only [State.ThreadOk, hpc] at hthread
    simp only [nativeStep, hpc, Option.some.injEq] at hstep
    -- `es_new_client` has succeeded: the native client is held from now on
    split_ifs at hstep with hsuccess <;> subst hstep
    · refine h.nativeNext hforeign hstarted ?_ ?_ hthread fun _ => hcallbacks rfl
      · refine Ledger.held_acquire (h.use (huse hthread.1 [.client] (by simp)))
          (by simp [State.holds, hpc, NativePc.hasClient]) _ fun r => ?_
        cases r <;> simp [State.holds, hsuccess, NativePc.hasClient, State.acquire, State.use,
          State.foreign]
      · exact howner.nativeNext hstarted id
    -- There is no native client, and no thread that would serve one
    · refine h.nativeNext hforeign hstarted ?_ ?_ hthread fun _ => hcallbacks rfl
      · exact h.used (huse hthread.1 [.client] (by simp))
          (by simp [hpc, NativePc.hasClient, hsuccess]) Iff.rfl
      · exact howner.nativeNext hstarted id
  | announce answer =>
    rw [hpc] at hcallbacks
    simp only [State.ThreadOk, hpc] at hthread
    simp only [nativeStep, hpc, Option.some.injEq] at hstep
    subst hstep
    refine h.nativeNext hforeign hstarted ?_ ?_ ?_ ?_
    · refine h.used (huse hthread.1 [.mutex, .condition, .client] (by simp)) ?_ Iff.rfl
      by_cases hsuccess : answer = .success <;> simp [hpc, NativePc.hasClient, hsuccess]
    -- Whoever waits for `client_ready` learns the result now
    · dsimp only [State.use, State.broadcast]
      cases hown : s.owner <;>
        simp_all [State.OwnerOk, State.Created, NativePc.serving, NativePc.finished]
    · have hslots : s.slots := by
        cases hown : s.owner <;>
          simp_all [State.OwnerOk, State.Created, NativePc.serving, NativePc.finished]
      by_cases hsuccess : answer = .success <;>
        simp_all [State.ThreadOk, State.Created, State.use, State.broadcast]
    · intro hnot
      apply hcallbacks
      by_cases hsuccess : answer = .success <;> simp_all [NativePc.serving]
  | watching =>
    simp only [State.ThreadOk, hpc] at hthread
    simp only [nativeStep, hpc] at hstep
    split_ifs at hstep with hrunning <;> cases hstep
    -- One turn of `esrb_watchdog_main`, which uses what it likes while the client is open
    · refine h.nativeNext hforeign hstarted ?_ howner (h.thread hforeign) h.callbacks
      exact h.use fun r _ => h.holds_serving (by rw [hpc]; rfl) r
    · refine h.nativeNext hforeign hstarted ?_ ?_ ?_ (by simp [NativePc.serving])
      · exact h.used (huse hthread.1.2.1 [.client] (by simp)) (by simp [hpc, NativePc.hasClient])
          Iff.rfl
      · exact howner.nativeNext hstarted id
      · simp_all [State.ThreadOk, State.Created, State.use]
  | leaving =>
    simp only [State.ThreadOk, hpc] at hthread
    simp only [nativeStep, hpc, Option.some.injEq] at hstep
    subst hstep
    refine h.nativeNext hforeign hstarted ?_ ?_ ?_ (by simp [NativePc.serving])
    · exact h.used (huse hthread.1.2.1 [.client] (by simp)) (by simp [hpc, NativePc.hasClient])
        Iff.rfl
    · exact howner.nativeNext hstarted fun _ => rfl
    · simp_all [State.ThreadOk, State.Created, State.Leaving, State.use]
  | awaitDelete =>
    simp only [State.ThreadOk, hpc] at hthread
    simp only [nativeStep, hpc, Option.some.injEq] at hstep
    subst hstep
    -- `delete_ready` is tested under the mutex: the thread goes to sleep only if it is not set
    refine h.nativeNext hforeign hstarted ?_ ?_ ?_ ?_
    · refine h.used (huse hthread.2.1 [.mutex, .condition, .client] (by simp)) ?_ Iff.rfl
      cases s.deleteReady <;> simp [hpc, NativePc.hasClient]
    · exact howner.nativeNext hstarted id
    · cases hready : s.deleteReady with
      | true => exact ⟨hthread, hready⟩
      | false => exact ⟨hthread, fun h => by cases hready.symm.trans h⟩
    · cases s.deleteReady <;> simp [NativePc.serving]
  | asleep =>
    simp only [State.ThreadOk, hpc] at hthread
    simp only [nativeStep, hpc] at hstep
    -- A wakeup, for which the broadcast or a spurious return has to come first
    split_ifs at hstep
    cases hstep
    refine h.nativeNext hforeign hstarted ?_ ?_ hthread.1 (by simp [NativePc.serving])
    · exact h.used (huse hthread.1.2.1 [.mutex, .condition, .client] (by simp))
        (by simp [hpc, NativePc.hasClient]) Iff.rfl
    · exact howner.nativeNext hstarted id
  | deleting =>
    -- This is what is relied on: no call of the handler block is under way
    have hactive : s.activeCallbacks = 0 := hquiet hpc
    simp only [State.ThreadOk, hpc] at hthread
    have hheld : ∀ r, s.holds r := h.holds_serving (by rw [hpc]; rfl)
    simp only [nativeStep, hpc] at hstep
    split_ifs at hstep with hdeleted <;> cases hstep
    -- The native client is gone, and nobody is going to use it
    · refine h.nativeNext hforeign hstarted ?_ ?_ ?_ fun _ => hactive
      · have hused : Ledger.held (s.use [.client]).ledger = some s.holds :=
          h.use fun r _ => hheld r
        refine Ledger.held_release hused (hheld .native) _ fun r => ?_
        cases r <;> simp [State.holds, State.foreign, State.release, State.use, NativePc.hasClient]
      · exact howner.nativeNext hstarted id
      · simp_all [State.ThreadOk, State.Leaving, State.use, State.release]
    -- `delete_errors` is raised; the native client stays held for ever
    · refine h.nativeNext hforeign hstarted ?_ ?_ ?_ fun _ => hactive
      · have hboth : ∀ r ∈ [Resource.native, .client], s.holds r := fun r _ => hheld r
        exact h.used hboth (by simp [hpc, NativePc.hasClient]) Iff.rfl
      · dsimp only [State.use]
        cases hown : s.owner <;>
          simp_all [State.OwnerOk, State.Created, State.Leaving, NativePc.serving,
            NativePc.finished]
      · simp_all [State.ThreadOk, State.Leaving, State.use]

/-! ## The native methods -/

/-- The thread and the handler block stay where they are. -/
structure State.OthersStay (s s' : State) : Prop where
  native : s'.native = s.native
  entered : s'.entered = s.entered
  working : s'.working = s.working
  refusing : s'.refusing = s.refusing
  pid : s'.pid = s.pid
  deleteErrors : s'.deleteErrors = s.deleteErrors

/-- A step of the native methods. -/
theorem Sound.ownerNext (h : Sound s) (hledger : Ledger.held s'.ledger = some s'.holds)
    (hequipped : s'.requests = s'.slots ∧ s'.heap = s'.slots ∧ s'.readFd = s'.slots ∧
      s'.writeFd = s'.slots)
    (hforeign : s'.foreign = false) (howner : s'.OwnerOk) (hthread : s'.ThreadOk)
    (hworking : s'.working ≠ 0 → s'.closed = false ∨ ∃ caller, s'.owner = .awaitCallbacks caller)
    (hunowned : s'.ownerPid = s.ownerPid ∧ (s.closed → s'.closed) ∧ (s'.slots → s.slots) ∧
      (s'.threadStarted → s.threadStarted) := by exact ⟨rfl, id, id, id⟩)
    (hsame : s.OthersStay s' := by
      try dsimp only [State.use, State.acquire, State.release, State.broadcast, State.foreign]
      exact ⟨rfl, rfl, rfl, rfl, rfl, rfl⟩) : Sound s' := by
  obtain ⟨hnative, hentered, hworking', hrefusing, hprocess, herrors⟩ := hsame
  obtain ⟨hpid, hclosed, hslots, hstarted⟩ := hunowned
  constructor
  case process => rw [hprocess]; exact h.process
  case ledger => exact hledger
  case equipped => exact hequipped
  case abandoned => simp [hforeign]
  case owner => exact fun _ => howner
  case thread => exact fun _ => hthread
  case callbacks =>
    rw [hnative, State.activeCallbacks, hentered, hworking', hrefusing]
    exact h.callbacks
  case working => exact hworking
  case unowned =>
    rw [hpid]
    intro howner
    obtain ⟨hclosed', hslots', hstarted', herrors'⟩ := h.unowned howner
    -- A client that nobody owns has nothing, and this step gives it nothing
    refine ⟨hclosed hclosed', ?_, ?_, herrors.trans herrors'⟩
    · exact Bool.eq_false_iff.mpr fun h => by simp [hslots h] at hslots'
    · exact Bool.eq_false_iff.mpr fun h => by simp [hstarted h] at hstarted'

/-- What `client_initialize` gives back when there is no native client, the last first. -/
def outfit : List Resource :=
  [.slots, .heap, .requests, .mutex, .condition, .writeEnd, .readEnd, .thread]

theorem ownerStep_joinFailed (h : Sound s) (hpc : s.owner = .joinFailed) (hslots : s.slots)
    (hended : s.native = .ended) :
    ownerStep i s = some { (s.use [.client]).release outfit with
      slots := false, requests := false, heap := false, readFd := false, writeFd := false,
      threadStarted := false, closed := true, owner := .idle,
      raised := some (.newClient s.creationResult) } := by
  obtain ⟨hrequests, hheap, -, -⟩ := h.equipped
  rw [hslots] at hrequests hheap
  simp [ownerStep, hpc, hended, NativePc.finished, hslots, hrequests, hheap, outfit,
    State.closePipe, State.watchdogDestroy, State.queueDestroy, State.freeArrays, State.free,
    State.release, State.use, State.fail]

/-- The thread has ended without a native client; all else is given back. -/
theorem joinFailed_sound (h : Sound s) (hpc : s.owner = .joinFailed)
    (hforeign : s.foreign = false) (hended : s.native = .ended) (hstep : ownerStep i s = some s') :
    Sound s' := by
  have howner := h.owner hforeign
  have hthread := h.thread hforeign
  simp only [State.OwnerOk, hpc] at howner
  obtain ⟨-, hslots, hstarted, -⟩ := howner
  rw [ownerStep_joinFailed h hpc hslots hended] at hstep
  cases hstep
  -- Without a native client there has been no call of the handler block
  have hworking : s.working = 0 := by
    have hactive := h.callbacks (by rw [hended]; rfl)
    simp only [State.activeCallbacks] at hactive
    omega
  refine h.ownerNext ?_ ⟨rfl, rfl, rfl, rfl⟩ hforeign ?_ ?_ (fun hw => absurd hworking hw)
    ⟨rfl, fun _ => rfl, by simp, by simp⟩
  -- All parts are held, and the native client is not among what is given back
  · have hholds : ∀ r, r ≠ .native → s.holds r := by
      obtain ⟨hrequests, hheap, hread, hwrite⟩ := h.equipped
      intro r hr
      cases r <;> simp_all [State.holds]
    refine Ledger.held_releases (h.use fun r hr => hholds r ?_) (fun r hr => hholds r ?_)
      (by decide) fun r => ?_
    · rintro rfl
      simp at hr
    · rintro rfl
      simp [outfit] at hr
    · cases r <;> simp [State.holds, State.release, State.use, outfit, hpc]
  · simp [State.OwnerOk, State.release, State.use, hended, NativePc.serving]
  · simpa [State.ThreadOk, State.release, State.use, hended] using hthread

/-- What `client_free` gives back in its last part, the last first. -/
def State.belongings (s : State) : List Resource :=
  .client :: if s.slots then
    [Resource.writeEnd, .readEnd, .heap, .requests] ++
      (if s.foreign then [] else [Resource.mutex, .condition]) ++ [Resource.slots]
  else []

theorem ownerStep_destroying (h : Sound s) (hpc : s.owner = .destroying) :
    ownerStep i s = some { (s.use [.client]).release s.belongings with
      slots := false, requests := false, heap := false, readFd := false, writeFd := false,
      owner := .freed } := by
  obtain ⟨hrequests, hheap, hread, hwrite⟩ := h.equipped
  have hforeign : (s.use [.client]).queueDestroy.foreign = s.foreign := by
    simp only [State.queueDestroy, State.free]
    split_ifs <;> rfl
  simp only [ownerStep, State.use_owner, hpc, hforeign]
  cases hslots : s.slots <;> cases hother : s.foreign <;>
    simp_all [State.belongings, State.queueDestroy, State.watchdogDestroy, State.watchdogAbandon,
      State.freeArrays, State.free, State.release, State.use]

theorem destroying_sound (h : Sound s) (hpc : s.owner = .destroying)
    (hstep : ownerStep i s = some s') : Sound s' := by
  rw [ownerStep_destroying h hpc] at hstep
  cases hstep
  -- `client_free` has closed the client before, or is running in a child of its owner
  have hnative : s.threadStarted = false ∧ s.native.serving = false ∧ s.native ≠ .creating ∨
      s.foreign ∧ s.native = .absent := by
    cases hforeign : s.foreign with
    | true => exact .inr ⟨rfl, (h.abandoned hforeign).native⟩
    | false =>
      have howner := h.owner hforeign
      simp only [State.OwnerOk, hpc] at howner
      exact .inl howner.2
  constructor
  case process => exact h.process
  case ledger =>
    obtain ⟨hrequests, hheap, hread, hwrite⟩ := h.equipped
    have hused : Ledger.held (s.use [.client]).ledger = some s.holds := by
      refine h.use fun r hr => ?_
      obtain rfl := List.mem_singleton.mp hr
      simp [State.holds, hpc]
    refine Ledger.held_releases hused (fun r hr => ?_) ?_ fun r => ?_
    · cases r <;> simp_all [State.holds, State.belongings]
    · simp only [State.belongings]
      split_ifs <;> decide
    -- In a child the lock and the condition are not destroyed, and there they do not count as held
    · rcases hnative with ⟨hstarted, hserving, -⟩ | ⟨hforeign, habsent⟩
      · cases r <;> simp [State.holds, State.belongings, State.release, State.use, *]
      · cases r <;>
          simp_all [State.holds, State.belongings, State.release, State.use, State.foreign]
  case equipped => exact ⟨rfl, rfl, rfl, rfl⟩
  case abandoned => exact fun hforeign => ⟨.inr (.inr ⟨rfl, rfl⟩), (h.abandoned hforeign).native⟩
  case owner =>
    intro hforeign
    have howner := h.owner hforeign
    simp only [State.OwnerOk, hpc] at howner
    exact ⟨rfl, howner.2⟩
  case thread =>
    intro hforeign
    have hforeign : s.foreign = false := hforeign
    have hthread := h.thread hforeign
    simp only [hforeign, Bool.false_eq_true, false_and, or_false] at hnative
    cases hpc' : s.native <;>
      simp_all [State.ThreadOk, State.release, State.use, NativePc.serving]
  case callbacks => exact h.callbacks
  case working =>
    have hserving : s.native.serving = false := by
      rcases hnative with ⟨-, hserving, -⟩ | ⟨-, habsent⟩
      · exact hserving
      · rw [habsent]
        rfl
    have hactive := h.callbacks hserving
    intro hworking
    simp only [State.activeCallbacks] at hactive
    exact absurd (by omega : s.working = 0) hworking
  case unowned =>
    intro hunowned
    obtain ⟨hclosed, -, hstarted⟩ := h.unowned hunowned
    exact ⟨hclosed, rfl, hstarted⟩

/-- Nothing has failed to be deleted before the thread was told that it may delete. -/
theorem State.ThreadOk.deleteErrors (h : s.ThreadOk) (hready : s.deleteReady = false) :
    s.deleteErrors = 0 := by
  cases hnative : s.native <;> simp_all [State.ThreadOk, State.Created, State.Leaving]

/-- What the native methods use of a client that has all of its parts. -/
theorem Sound.holds_parts (h : Sound s) (hforeign : s.foreign = false) (hslots : s.slots)
    (rs : List Resource) (hnative : .native ∉ rs) (hthread : .thread ∉ rs) :
    ∀ r ∈ rs, s.holds r := by
  obtain ⟨hrequests, hheap, hread, hwrite⟩ := h.equipped
  have howner := h.owner hforeign
  intro r hr
  have hfreed : s.owner ≠ .freed := fun hfreed => by simp_all [State.OwnerOk]
  cases r <;> simp_all [State.holds]

/-- A step of `client_initialize` after `pthread_create`. -/
theorem initialize_sound (h : Sound s) (hforeign : s.foreign = false)
    (hwhere : s.owner = .awaitReady ∨ s.owner = .asleep ∨ s.owner = .checkResult ∨
      s.owner = .joinFailed) (hstep : ownerStep i s = some s') : Sound s' := by
  have howner := h.owner hforeign
  have hthread := h.thread hforeign
  have huse := h.holds_parts hforeign
  cases hpc : s.owner with
  | awaitReady =>
    simp only [State.OwnerOk, hpc] at howner
    have hused := huse howner.2.1 [.mutex, .condition, .client] (by simp) (by simp)
    simp only [ownerStep, State.use_owner, hpc, Option.some.injEq] at hstep
    -- `client_ready` is tested under the mutex: if it is set, the method does not wait
    cases hready : s.clientReady
    all_goals
      rw [show (s.use [.client]).clientReady = _ from hready] at hstep
      subst hstep
      dsimp only [State.use]
      refine h.ownerNext (h.used hused rfl (by simp [hpc])) h.equipped hforeign ?_ hthread
        fun _ => .inl howner.1
      simp_all [State.OwnerOk]
  | asleep =>
    simp only [State.OwnerOk, hpc] at howner
    have hused := huse howner.2.1 [.mutex, .condition, .client] (by simp) (by simp)
    simp only [ownerStep, State.use_owner, hpc] at hstep
    split_ifs at hstep
    cases hstep
    dsimp only [State.use, State.release, State.broadcast]
    refine h.ownerNext (h.used hused rfl (by simp [hpc])) h.equipped hforeign ?_ hthread
      fun _ => .inl howner.1
    simp_all [State.OwnerOk]
  | checkResult =>
    simp only [State.OwnerOk, hpc] at howner
    have hused := huse howner.2.1 [.client] (by simp) (by simp)
    simp only [ownerStep, State.use_owner, hpc, Option.some.injEq] at hstep
    have herrors := hthread.deleteErrors howner.2.2.2.2.1
    -- On success the method returns with an open client, else it goes on to join the thread
    split_ifs at hstep with hsuccess <;> subst hstep
    all_goals
      dsimp only [State.use] at hsuccess ⊢
      refine h.ownerNext (h.used hused rfl (by simp [hpc])) h.equipped hforeign ?_ hthread
        fun _ => .inl howner.1
      simp_all [State.OwnerOk, State.Created]
  | joinFailed =>
    simp only [State.OwnerOk, hpc] at howner
    cases hfinished : s.native.finished with
    | true =>
      -- There is no native client that could not have been deleted
      have hended : s.native = .ended := by
        cases hnative : s.native <;> simp_all [State.ThreadOk, NativePc.finished]
      exact joinFailed_sound h hpc hforeign hended hstep
    -- `pthread_join` has not come back yet
    | false =>
      have hused := huse howner.2.1 [.client] (by simp) (by simp)
      simp only [ownerStep, State.use_owner, hpc] at hstep
      rw [if_pos (by simpa [State.use] using hfinished)] at hstep
      cases hstep
      dsimp only [State.use, State.release, State.broadcast]
      exact h.ownerNext (h.use hused) h.equipped hforeign (h.owner hforeign) hthread h.working
  | _ => simp [hpc] at hwhere

/-- A step of `client_close_native`. -/
theorem closing_sound (caller : CloseCaller) (h : Sound s) (hforeign : s.foreign = false)
    (hwhere : s.owner = .awaitCallbacks caller ∨ s.owner = .stopWatchdog caller ∨
      s.owner = .awaitStopped caller ∨ s.owner = .answer caller)
    (hstep : ownerStep i s = some s') : Sound s' := by
  have howner := h.owner hforeign
  have hthread := h.thread hforeign
  have hworking := h.working
  have huse := h.holds_parts hforeign
  cases hpc : s.owner with
  | awaitCallbacks caller =>
    simp only [State.OwnerOk, hpc] at howner
    have hused := huse howner.2.1.1 [.client] (by simp) (by simp)
    simp only [ownerStep, State.use_owner, hpc, Option.some.injEq] at hstep
    split_ifs at hstep with hactive <;> subst hstep
    all_goals dsimp only [State.use]
    · refine h.ownerNext (h.used hused rfl (by simp [hpc])) h.equipped hforeign howner hthread ?_
      intro hworking
      -- The loop ends once no callback is at work, so that from here on `working` is zero
      exact absurd hactive (by simp [State.activeCallbacks, State.use] at hworking ⊢; omega)
    · exact h.ownerNext (h.use hused) h.equipped hforeign (h.owner hforeign) hthread h.working
  | stopWatchdog caller =>
    simp only [State.OwnerOk, hpc] at howner
    have hused := huse howner.2.1.1 [.condition, .client] (by simp) (by simp)
    have hstarted := howner.2.1.2.1
    simp only [ownerStep, State.use_owner, hpc] at hstep
    -- There is a thread, for the client has been created
    rw [if_pos (by exact hstarted)] at hstep
    cases hstep
    dsimp only [State.use, State.release, State.broadcast]
    refine h.ownerNext (h.used hused rfl (by simp [hpc])) h.equipped hforeign ?_ ?_ ?_
    · simp_all [State.OwnerOk, State.Created]
    -- The broadcast wakes the thread if it is waiting for the deadline of an entry
    · cases hnative : s.native <;>
        simp_all [State.ThreadOk, State.Created, State.Leaving]
    · simp_all
  | awaitStopped caller =>
    simp only [State.OwnerOk, hpc] at howner
    have hused := huse howner.2.1.1 [.client] (by simp) (by simp)
    simp only [ownerStep, State.use_owner, hpc, Option.some.injEq] at hstep
    split_ifs at hstep with hstopped <;> subst hstep
    all_goals dsimp only [State.use]
    -- `watchdog_stopped` is set: the thread has left its loop
    · refine h.ownerNext (h.used hused rfl (by simp [hpc])) h.equipped hforeign ?_ hthread ?_
      · simp_all [State.OwnerOk, State.Created, State.use]
      · simp_all
    · exact h.ownerNext (h.use hused) h.equipped hforeign (h.owner hforeign) hthread h.working
  | answer caller =>
    simp only [State.OwnerOk, hpc] at howner
    -- The slots are answered with the native client, which the thread still has
    have hserving : s.native.serving := by
      cases hnative : s.native <;> simp_all [State.ThreadOk, State.Created, NativePc.serving]
    simp only [ownerStep, State.use_owner, hpc, Option.some.injEq] at hstep
    subst hstep
    rw [if_pos (by exact howner.2.1.2.1)]
    dsimp only [State.use]
    have hused : ∀ r ∈ [Resource.slots, .native, .client], s.holds r :=
      fun r _ => h.holds_serving hserving r
    refine h.ownerNext (h.used hused rfl (by simp [hpc])) h.equipped hforeign ?_ hthread ?_
    · simp_all [State.OwnerOk, State.Created]
    · simp_all
  | _ => simp [hpc] at hwhere

/-- A step of `client_close_native` from the broadcast that lets the thread delete the native
    client. -/
theorem deleting_sound (caller : CloseCaller) (h : Sound s) (hforeign : s.foreign = false)
    (hwhere : s.owner = .storeDelete caller ∨ s.owner = .join caller ∨ s.owner = .notify caller)
    (hstep : ownerStep i s = some s') : Sound s' := by
  have howner := h.owner hforeign
  have hthread := h.thread hforeign
  have hworking := h.working
  have huse := h.holds_parts hforeign
  cases hpc : s.owner with
  | storeDelete caller =>
    simp only [State.OwnerOk, hpc] at howner
    have hused := huse howner.2.1.1 [.mutex, .condition, .client] (by simp) (by simp)
    simp only [ownerStep, State.use_owner, hpc, Option.some.injEq] at hstep
    subst hstep
    dsimp only [State.use, State.release, State.broadcast]
    refine h.ownerNext (h.used hused rfl (by simp [hpc])) h.equipped hforeign ?_ ?_ ?_
    · simp_all [State.OwnerOk, State.Created]
    -- `delete_ready` goes with a broadcast, hence a thread asleep has been woken
    · cases hnative : s.native <;>
        simp_all [State.ThreadOk, State.Created, State.Leaving]
    · simp_all
  | join caller =>
    simp only [State.OwnerOk, hpc] at howner
    have hused := huse howner.2.1 [.client] (by simp) (by simp)
    simp only [ownerStep, State.use_owner, hpc] at hstep
    cases hfinished : s.native.finished with
    | false =>
      rw [if_pos (by simpa [State.use] using hfinished)] at hstep
      cases hstep
      dsimp only [State.use, State.release, State.broadcast]
      exact h.ownerNext (h.use hused) h.equipped hforeign (h.owner hforeign) hthread h.working
    | true =>
      rw [if_neg (by simpa [State.use] using hfinished)] at hstep
      cases hstep
      dsimp only [State.use, State.release, State.broadcast]
      refine h.ownerNext ?_ h.equipped hforeign ?_ ?_ ?_ ⟨rfl, id, id, fun h => by cases h⟩
      -- The thread has been joined, which is what releases it
      · refine Ledger.held_release (h.use hused) ?_ _ fun r => ?_
        · simp [State.holds, hforeign, howner.2.2.1]
        · cases r <;> simp [State.holds, State.foreign, hpc]
      · simp_all [State.OwnerOk]
      · cases hnative : s.native <;>
          simp_all [State.ThreadOk, NativePc.finished]
      · simp_all
  | notify caller =>
    simp only [State.OwnerOk, hpc] at howner
    obtain ⟨-, -, -, hwrite⟩ := h.equipped
    have hused := huse howner.2.1 [.writeEnd, .client] (by simp) (by simp)
    have hnotify : (s.use [.client]).notifyUses = [.writeEnd] := by
      simp [State.notifyUses, State.use, hwrite, howner.2.1]
    simp only [ownerStep, State.use_owner, hpc, Option.some.injEq, hnotify] at hstep
    subst hstep
    dsimp only [State.use, State.release, State.broadcast]
    refine h.ownerNext (h.used hused rfl ?_) h.equipped hforeign ?_ hthread ?_
    · cases caller <;> simp [hpc]
    · have hrest := NativePc.rest_of_finished howner.2.2.2.1
      cases caller <;> simp_all [State.OwnerOk]
    · simp_all
  | _ => simp [hpc] at hwhere

theorem ownerStep_sound (h : Sound s) (hstep : ownerStep i s = some s') : Sound s' := by
  by_cases hdestroying : s.owner = .destroying
  · exact destroying_sound h hdestroying hstep
  -- A child of the owner can do no more than free the client
  by_cases hforeign : s.foreign
  · rcases (h.abandoned hforeign).owner with hpc | hpc | ⟨hpc, -⟩
    · simp [ownerStep, hpc] at hstep
    · exact absurd hpc hdestroying
    · simp [ownerStep, hpc] at hstep
  have hforeign : s.foreign = false := by simpa using hforeign
  cases hpc : s.owner with
  | fresh | idle | freed => simp [ownerStep, hpc] at hstep
  | awaitReady | asleep | checkResult | joinFailed =>
    exact initialize_sound h hforeign (by simp [hpc]) hstep
  | awaitCallbacks caller | stopWatchdog caller | awaitStopped caller | answer caller =>
    exact closing_sound caller h hforeign (by simp [hpc]) hstep
  | storeDelete caller | join caller | notify caller =>
    exact deleting_sound caller h hforeign (by simp [hpc]) hstep
  | destroying => exact absurd hpc hdestroying

/-- A method that only uses what is held. -/
theorem Sound.usesOnly (h : Sound s) {rs : List Resource} (hrs : ∀ r ∈ rs, s.holds r) :
    Sound (s.use rs) where
  process := h.process
  ledger := h.use hrs
  equipped := h.equipped
  abandoned hforeign := ⟨(h.abandoned hforeign).owner, (h.abandoned hforeign).native⟩
  owner := h.owner
  thread := h.thread
  callbacks := h.callbacks
  working := h.working
  unowned := h.unowned

/-- What holds of an open client between the native methods. -/
structure State.Open (s : State) : Prop where
  created : s.Created
  watchdogRunning : s.watchdogRunning
  settings : s.settings.isSome
  raised : s.raised = none
  serving : s.native.serving

theorem Sound.open (h : Sound s) (hpc : s.owner = .idle) (hclosed : s.closed = false)
    (hforeign : s.foreign = false) : s.Open := by
  have howner := h.owner hforeign
  have hthread := h.thread hforeign
  simp only [State.OwnerOk, hpc, hclosed] at howner
  obtain ⟨hcreated, hrunning, hsettings, hraised⟩ := howner
  refine ⟨hcreated, hrunning, hsettings, hraised, ?_⟩
  cases hnative : s.native <;> simp_all [State.ThreadOk, State.Created, NativePc.serving]

/-- A client is closed in the process that owns it. -/
theorem closeNative_sound {caller : CloseCaller} (h : Sound s)
    (hpc : s.owner = .idle ∨ s.owner = .fresh ∧ caller = .free) (hforeign : s.foreign = false) :
    Sound (s.closeNative caller) := by
  have howner := h.owner hforeign
  have hthread := h.thread hforeign
  cases hclosed : s.closed with
  | true =>
    have hrest : s.threadStarted = false ∧ s.native.serving = false ∧ s.native ≠ .creating ∧
        (s.raised.isSome → s.slots = false ∧ s.native ≠ .undeleted) := by
      rcases hpc with hpc | ⟨hpc, -⟩
      · simpa only [State.OwnerOk, hpc, hclosed, if_true] using howner
      · simp only [State.OwnerOk, hpc] at howner
        simp [howner, NativePc.serving]
    -- No thread serves a closed client, hence no call is at work
    have hworking : s.working = 0 := by
      have hactive := h.callbacks hrest.2.1
      simp only [State.activeCallbacks] at hactive
      omega
    unfold State.closeNative
    rw [if_pos hclosed]
    have hused : ∀ r ∈ ([] : List Resource), s.holds r := by simp
    refine h.ownerNext (h.used hused rfl ?_) h.equipped hforeign ?_ hthread
      (fun hw => absurd hworking hw)
    · rcases hpc with hpc | ⟨hpc, -⟩ <;> cases caller <;> simp [hpc]
    · cases caller with
      | method => simpa only [State.OwnerOk, hclosed, if_true] using hrest
      | free => exact ⟨hclosed, hrest.1, hrest.2.1, hrest.2.2.1⟩
  | false =>
    have hpc : s.owner = .idle := by
      rcases hpc with hpc | ⟨hpc, -⟩
      · exact hpc
      · simp only [State.OwnerOk, hpc] at howner
        simp [howner.1] at hclosed
    obtain ⟨hcreated, hrunning, -, hraised, hserving⟩ := h.open hpc hclosed hforeign
    unfold State.closeNative
    rw [if_neg (by simp [hclosed])]
    refine h.ownerNext (h.used (fun r _ => h.holds_serving hserving r) rfl (by simp [hpc]))
      h.equipped hforeign ⟨rfl, hcreated, hrunning, hraised⟩ ?_ (fun _ => .inr ⟨caller, rfl⟩)
      ⟨rfl, fun _ => rfl, id, id⟩
    exact hthread

theorem callMethod_sound {m : Method} (h : Sound s) (hstep : callMethod m s = some s') :
    Sound s' := by
  simp only [callMethod] at hstep
  split_ifs at hstep with hidle hraises
  · cases hstep
    have hidle : s.owner = .idle := by simpa using hidle
    exact h.usesOnly (by simp [State.holds, hidle])
  · have hidle : s.owner = .idle := by simpa using hidle
    have hclient : Sound (s.use [.client]) := h.usesOnly (by simp [State.holds, hidle])
    simp only [Bool.or_eq_true, decide_eq_true_eq, not_or, not_not] at hraises
    obtain ⟨hpid, hopen⟩ := hraises
    have hforeign : (s.use [.client]).foreign = false := by
      simp [State.foreign, State.use, hpid]
    have hequipped := hclient.equipped
    have hnotify : ∀ r ∈ (s.use [.client]).notifyUses, (s.use [.client]).holds r := by
      intro r hr
      simp only [State.notifyUses] at hr
      split_ifs at hr with hwrite
      · obtain rfl := List.mem_singleton.mp hr
        exact hwrite
      · cases hr
    cases m with
    -- A close in a child has been refused by the check of the owner
    | close =>
      cases hstep
      exact closeNative_sound hclient (.inl hidle) hforeign
    | closed | stats | wakeupFd =>
      cases hstep
      exact hclient.usesOnly (by simp [State.methodUses])
    | wake =>
      cases hstep
      exact hclient.usesOnly hnotify
    | drain =>
      cases hstep
      -- `__drain` refuses a closed client, so this one has all of its parts
      have hclosed : s.closed = false := by simpa [Method.needsOpen] using hopen
      have hcreated := (hclient.open hidle hclosed hforeign).created
      refine hclient.usesOnly fun r hr => ?_
      rcases List.mem_append.mp hr with hr | hr
      · cases r <;> simp_all [State.holds, State.Created]
      · exact hnotify r hr
    | control =>
      cases hstep
      have hclosed : s.closed = false := by simpa [Method.needsOpen] using hopen
      have hserving := (hclient.open hidle hclosed hforeign).serving
      exact hclient.usesOnly fun r _ => hclient.holds_serving hserving r

theorem callFree_sound (h : Sound s) (hstep : callFree s = some s') : Sound s' := by
  simp only [callFree] at hstep
  split_ifs at hstep with hbusy hforeign <;> cases hstep
  all_goals
    have hpc : s.owner = .idle ∨ s.owner = .fresh := by
      by_contra hnot
      exact hbusy (by simpa [not_or] using hnot)
    have hclient : Sound (s.use [.client]) := h.usesOnly (by
      rcases hpc with hpc | hpc <;> simp [State.holds, hpc])
  · have hforeign : s.foreign = false := by simpa using hforeign
    exact closeNative_sound hclient (hpc.imp_right fun hpc => ⟨hpc, rfl⟩) hforeign
  -- In a child: the client is marked as closed, and what the child inherited is freed
  · have hforeign : s.foreign := by simpa using hforeign
    have hnative := (h.abandoned hforeign).native
    have hheld : s.foreign = true := hforeign
    constructor
    case process => exact h.process
    case ledger =>
      have hused : ∀ r ∈ ([] : List Resource), s.holds r := by simp
      refine hclient.used hused rfl ?_
      rcases hpc with hpc | hpc <;> simp [hpc]
    case equipped => exact h.equipped
    case abandoned => exact fun _ => ⟨.inr (.inl rfl), hnative⟩
    case owner => exact fun hnot => absurd hheld (by rw [show s.foreign = false from hnot]; simp)
    case thread => exact fun hnot => absurd hheld (by rw [show s.foreign = false from hnot]; simp)
    case callbacks => exact h.callbacks
    case working =>
      have hactive := h.callbacks (by rw [hnative]; rfl)
      simp only [State.activeCallbacks] at hactive
      exact fun hw => absurd (by omega : s.working = 0) hw
    case unowned => exact fun hunowned => ⟨rfl, (h.unowned hunowned).2⟩

/-! ## `client_initialize` -/

/-- A client before `client_initialize`. -/
structure State.Fresh (s : State) : Prop where
  closed : s.closed
  slots : s.slots = false
  requests : s.requests = false
  heap : s.heap = false
  readFd : s.readFd = false
  writeFd : s.writeFd = false
  threadStarted : s.threadStarted = false
  native : s.native = .absent
  raised : s.raised = none
  ownerPid : s.ownerPid = 0
  activeCallbacks : s.activeCallbacks = 0
  deleteErrors : s.deleteErrors = 0

theorem Sound.fresh (h : Sound s) (hpc : s.owner = .fresh) : s.Fresh := by
  have hforeign : s.foreign = false := by
    by_contra hforeign
    rcases (h.abandoned (by simpa using hforeign)).owner with h | h | ⟨h, -⟩ <;> simp [hpc] at h
  have howner := h.owner hforeign
  simp only [State.OwnerOk, hpc] at howner
  obtain ⟨hclosed, hslots, hstarted, hnative, hraised, hunowned⟩ := howner
  obtain ⟨hrequests, hheap, hread, hwrite⟩ := h.equipped
  have hcallbacks := h.callbacks (by rw [hnative]; rfl)
  have hthread := h.thread hforeign
  simp only [State.ThreadOk, hnative] at hthread
  constructor
  all_goals simp_all

/-- `client_initialize` raises after it has given back all that it has got hold of. -/
theorem Sound.refused (h : Sound s) (hpc : s.owner = .fresh) (rs rs' us : List Resource)
    (hrs : .client ∉ rs) (hnodup : rs.Nodup) (hperm : rs'.Perm rs) (hus : ∀ r ∈ us, r ∈ rs)
    (hledger : s'.ledger = rs'.map .release ++ (us.map .use ++ (rs.map .acquire ++ s.ledger)))
    (hblank : s'.slots = false ∧ s'.requests = false ∧ s'.heap = false ∧ s'.readFd = false ∧
      s'.writeFd = false ∧ s'.owner = .idle ∧ s'.closed)
    (hpid : s'.pid = s.pid ∧ (s'.ownerPid = s.ownerPid ∨ s'.ownerPid = s.pid))
    (hsame : s'.threadStarted = s.threadStarted ∧ s'.native = s.native ∧
      s'.entered = s.entered ∧ s'.working = s.working ∧ s'.refusing = s.refusing ∧
      s'.deleteErrors = 0) :
    Sound s' := by
  obtain ⟨hclosed, hslots, hrequests, hheap, hread, hwrite, hstarted, hnative, -, hunowned,
    hactive, -⟩ := h.fresh hpc
  obtain ⟨hslots', hrequests', hheap', hread', hwrite', hidle, hclosed'⟩ := hblank
  obtain ⟨hstarted', hnative', hentered, hworking, hrefusing, herrors⟩ := hsame
  obtain ⟨hpid, hown⟩ := hpid
  -- It is the owner's own process that constructs the client, or nobody owns it yet
  have hforeign : s'.foreign = false := by
    rcases hown with hown | hown <;> simp [State.foreign, hown, hpid, hunowned]
  have hactive' : s'.activeCallbacks = 0 := by
    rw [State.activeCallbacks, hentered, hworking, hrefusing]
    exact hactive
  constructor
  case process => rw [hpid]; exact h.process
  case ledger =>
    have hholds : ∀ r ∈ rs, s.holds r = false := by
      intro r hr
      -- A fresh client holds nothing but the object itself
      cases r <;> simp_all [State.holds, NativePc.hasClient]
    rw [hledger, Ledger.held_returned h.ledger hholds hnodup hperm hus]
    congr 1
    funext r
    cases r <;> simp_all [State.holds, NativePc.hasClient]
  case equipped => simp [hslots', hrequests', hheap', hread', hwrite']
  case abandoned => simp [hforeign]
  case owner =>
    simp [State.OwnerOk, hidle, hclosed', hstarted', hstarted, hnative', hnative, hslots',
      NativePc.serving]
  case thread => simp [State.ThreadOk, hnative', hnative, hstarted', hstarted, herrors]
  case callbacks => exact fun _ => hactive'
  case working =>
    simp only [State.activeCallbacks] at hactive'
    exact fun hw => absurd (by omega : s'.working = 0) hw
  case unowned => exact fun _ => ⟨hclosed', hslots', hstarted'.trans hstarted, herrors⟩

theorem queueInit_eq (hslots : s.slots = false) (sys : System) (capacity : Nat) :
    s.queueInit sys capacity =
      if Capacity.check capacity && sys.slots then
        (true, { s.acquire [.slots] with slots := true })
      else (false, s) := by
  have hnull : ({ s with slots := false } : State) = s := by
    cases s
    cases hslots
    rfl
  cases hcheck : Capacity.check capacity <;> cases hcalloc : sys.slots <;>
    simp [State.queueInit, hcheck, hcalloc, hnull]

/-- The system grants all that `esrb_watchdog_init` asks for. -/
def System.watchdog (sys : System) : Bool :=
  sys.requests && sys.heap && sys.mutex && sys.condition

theorem watchdogInit_of_granted {sys : System} (hsys : sys.watchdog) :
    s.watchdogInit sys = (true, { s.acquire [.condition, .mutex, .heap, .requests] with
      requests := true, heap := true }) := by
  simp only [System.watchdog, Bool.and_eq_true] at hsys
  obtain ⟨⟨⟨hrequests, hheap⟩, hmutex⟩, hcondition⟩ := hsys
  simp [State.watchdogInit, State.acquire, hrequests, hheap, hmutex, hcondition]

/-- `esrb_watchdog_init` gives back what it has got hold of before something is refused. -/
theorem watchdogInit_of_refused {sys : System} (hsys : sys.watchdog = false) :
    ∃ rs rs', rs.Nodup ∧ rs'.Perm rs ∧ .client ∉ rs ∧ .slots ∉ rs ∧
      s.watchdogInit sys = (false, { (s.acquire rs).release rs' with
        requests := false, heap := false }) := by
  cases hrequests : sys.requests with
  | false =>
    cases hheap : sys.heap with
    | false =>
      -- No array, no lock: the two `free` calls are given what `calloc` has returned
      refine ⟨[], [], by decide, by decide, by decide, by decide, ?_⟩
      simp [State.watchdogInit, State.freeArrays, State.free, State.acquire, State.release, *]
    | true =>
      refine ⟨[.heap], [.heap], by decide, by decide, by decide, by decide, ?_⟩
      simp [State.watchdogInit, State.freeArrays, State.free, State.acquire, State.release, *]
  | true =>
  cases hheap : sys.heap with
  | false =>
    refine ⟨[.requests], [.requests], by decide, by decide, by decide, by decide, ?_⟩
    simp [State.watchdogInit, State.freeArrays, State.free, State.acquire, State.release, *]
  | true =>
  cases hmutex : sys.mutex with
  | false =>
    refine ⟨[.heap, .requests], [.heap, .requests], by decide, by decide, by decide, by decide, ?_⟩
    simp [State.watchdogInit, State.freeArrays, State.free, State.acquire, State.release, *]
  | true =>
    have hcondition : sys.condition = false := by
      simpa [System.watchdog, hrequests, hheap, hmutex] using hsys
    -- The mutex is destroyed after the arrays when the condition variable is refused
    refine ⟨[.mutex, .heap, .requests], [.heap, .requests, .mutex], by decide, by decide,
      by decide, by decide, ?_⟩
    simp [State.watchdogInit, State.freeArrays, State.free, State.acquire, State.release, *]

theorem setUp_sound {sys : System} {settings : ClientSettings} (h : Sound s)
    (hpc : s.owner = .fresh) : Sound (s.setUp sys settings) := by
  obtain ⟨hclosed, hslots, hrequests, hheap, hread, hwrite, hstarted, hnative, hraised, hunowned,
    hactive, herrors⟩ := h.fresh hpc
  -- One case for each refusal, in the order of `client_initialize`
  by_cases hqueue : Capacity.check settings.queueDepth && sys.slots
  case neg =>
    apply h.refused hpc [] [] [] (by decide) (by decide) (by decide)
      (by decide) <;>
      simp [State.setUp, queueInit_eq hslots, State.fail, *]
  by_cases hwatchdog : sys.watchdog
  case neg =>
    obtain ⟨rs, rs', hnodup, hperm, hrs, hrs', heq⟩ := watchdogInit_of_refused
      (s := { s.acquire [.slots] with slots := true }) (by simpa using hwatchdog)
    simp only [State.setUp, queueInit_eq hslots, hqueue, if_true, heq]
    apply h.refused hpc (rs ++ [.slots]) (.slots :: rs') []
      (by simpa using hrs) (List.nodup_append.mpr ⟨hnodup, by decide, by grind⟩)
      ((List.perm_append_singleton ..).symm.trans (hperm.append_right _)) (by simp) <;>
      simp [State.fail, State.queueDestroy, State.free, State.release, State.acquire, *]
  by_cases hpipe : sys.pipe = false
  · apply h.refused hpc [.condition, .mutex, .heap, .requests, .slots]
      [.slots, .heap, .requests, .mutex, .condition] [] (by decide)
      (by decide) (by decide) (by decide) <;>
      simp [State.setUp, queueInit_eq hslots, watchdogInit_of_granted hwatchdog, State.fail,
        State.watchdogDestroy, State.queueDestroy, State.freeArrays, State.free,
        State.release, State.acquire, *]
  by_cases hfcntl : !sys.fcntlRead || !sys.fcntlWrite
  · apply h.refused hpc [.writeEnd, .readEnd, .condition, .mutex, .heap, .requests, .slots]
      -- The close of the pipe comes first here, hence stands last
      [.slots, .heap, .requests, .mutex, .condition, .writeEnd, .readEnd]
      [.writeEnd, .readEnd] (by decide) (by decide) (by decide) (by decide) <;>
      simp [State.setUp, queueInit_eq hslots, watchdogInit_of_granted hwatchdog, State.fail,
        State.closePipe, State.watchdogDestroy, State.queueDestroy,
        State.freeArrays, State.free, State.release, State.acquire, State.use, *]
  by_cases hthread : sys.thread = false
  · apply h.refused hpc [.writeEnd, .readEnd, .condition, .mutex, .heap, .requests, .slots]
      [.slots, .heap, .requests, .mutex, .condition, .writeEnd, .readEnd]
      [.writeEnd, .readEnd] (by decide) (by decide) (by decide) (by decide) <;>
      simp [State.setUp, queueInit_eq hslots, watchdogInit_of_granted hwatchdog, State.fail,
        State.closePipe, State.watchdogDestroy, State.queueDestroy,
        State.freeArrays, State.free, State.release, State.acquire, State.use, *]
  -- Everything is granted, and the thread runs
  simp only [Bool.not_eq_false] at hpipe hthread
  simp only [State.setUp, queueInit_eq hslots, hqueue, if_true, watchdogInit_of_granted hwatchdog,
    hpipe, hfcntl, hthread, Bool.not_true, Bool.false_eq_true, if_false]
  constructor
  case process => exact h.process
  case ledger =>
    have hholds : ∀ r, r ≠ .client → s.holds r = false := by
      intro r hr
      cases r <;> simp_all [State.holds, NativePc.hasClient]
    have hclient : s.holds .client := by simp [State.holds, hpc]
    have hparts : Ledger.held (([.writeEnd, .readEnd, .condition, .mutex, .heap, .requests,
        .slots].map .acquire) ++ s.ledger) =
          some fun r => decide (r ≠ Resource.thread ∧ r ≠ .native) := by
      refine Ledger.held_acquires h.ledger (fun r hr => hholds r ?_) (by decide) fun r => ?_
      · rintro rfl
        simp at hr
      · cases r <;> simp [hholds, hclient]
    have hused := Ledger.held_uses [.writeEnd, .readEnd] hparts (by decide)
    refine Ledger.held_acquire (r := .thread) hused (by decide) _ fun r => ?_
    cases r <;> simp [State.holds, State.foreign, State.acquire, State.use, NativePc.hasClient]
  case equipped => exact ⟨rfl, rfl, rfl, rfl⟩
  case abandoned => simp [State.foreign, State.acquire, State.use]
  case owner => simp [State.OwnerOk, State.acquire, State.use, hraised]
  case thread => simp [State.ThreadOk, State.acquire, State.use]
  case callbacks => exact fun _ => hactive
  case working => exact fun _ => .inl rfl
  case unowned => exact fun hunowned => absurd hunowned h.process

theorem construct_sound {sys : System} {o : ClientOptions} (h : Sound s) (hpc : s.owner = .fresh) :
    Sound (s.clientInitialize sys o) := by
  have hclient : Sound (s.use [.client]) := h.usesOnly (by simp [State.holds, hpc])
  simp only [State.clientInitialize]
  split
  -- The keyword arguments are refused before anything is acquired
  · obtain ⟨hclosed, hslots, hrequests, hheap, hread, hwrite, -, -, -, -, -, herrors⟩ :=
      h.fresh hpc
    exact hclient.refused hpc [] [] [] (by decide) (by decide) (by decide)
      (by decide) rfl ⟨hslots, hrequests, hheap, hread, hwrite, rfl, hclosed⟩ ⟨rfl, .inl rfl⟩
      ⟨rfl, rfl, rfl, rfl, rfl, herrors⟩
  · exact setUp_sound hclient hpc

/-! ## Processes -/

theorem fork_sound {pid : Nat} (h : Sound s) (hstep : fork pid s = some s') : Sound s' := by
  simp only [fork] at hstep
  split_ifs at hstep with hbusy hpid
  cases hstep
  simp only [not_or] at hpid
  obtain ⟨hpid, -, hother⟩ := hpid
  have hother : s.ownerPid ≠ pid := Ne.symm hother
  have hpc : s.owner = .idle ∨ s.owner = .fresh := by
    by_contra hnot
    exact hbusy (by simpa [not_or] using hnot)
  -- A client that has an owner belongs to another process now
  have hforeign : s.ownerPid ≠ 0 ∨ s.ownerPid = 0 ∧ s.closed ∧ s.slots = false ∧
      s.threadStarted = false ∧ s.deleteErrors = 0 := by
    by_cases hunowned : s.ownerPid = 0
    · exact .inr ⟨hunowned, h.unowned hunowned⟩
    · exact .inl hunowned
  constructor
  case process => exact hpid
  case ledger =>
    -- The process starts with what it has inherited, which is what the client still has
    have hempty : Ledger.held ([] : List (Ledger.Event Resource)) = some fun _ => false := rfl
    have hnodup : s.inherited.Nodup := by
      simp only [State.inherited]
      split_ifs <;> decide
    rw [← List.append_nil (s.inherited.map _)]
    refine Ledger.held_acquires hempty (fun _ _ => rfl) hnodup fun r => ?_
    obtain ⟨hrequests, hheap, hread, hwrite⟩ := h.equipped
    have hfreed : s.owner ≠ .freed := by rcases hpc with hpc | hpc <;> simp [hpc]
    rcases hforeign with hforeign | ⟨hunowned, -, hslots, hstarted, -⟩
    · cases r <;> simp [State.holds, State.inherited, State.foreign, NativePc.hasClient, *]
    · cases r <;> simp [State.holds, State.inherited, State.foreign, NativePc.hasClient, *]
  case equipped => exact h.equipped
  case abandoned =>
    intro hforeign'
    have howned : s.ownerPid ≠ 0 := by
      simp only [State.foreign, Bool.and_eq_true, decide_eq_true_eq] at hforeign'
      exact hforeign'.1
    -- The child does not get the thread, nor the native client
    refine ⟨.inl (hpc.resolve_right fun hfresh => howned ?_), rfl⟩
    exact (h.fresh hfresh).ownerPid
  case owner =>
    intro hnot
    obtain ⟨hunowned, hclosed, hslots, hstarted, -⟩ :=
      hforeign.resolve_left fun howned => by simp [State.foreign, howned, hother] at hnot
    rcases hpc with hpc | hpc
    · simp [State.OwnerOk, hpc, hclosed, hslots, hstarted, NativePc.serving]
    · have hraised := (h.fresh hpc).raised
      simp [State.OwnerOk, hpc, hclosed, hslots, hstarted, hunowned, hraised]
  case thread =>
    intro hnot
    obtain ⟨-, -, -, hstarted⟩ :=
      hforeign.resolve_left fun howned => by simp [State.foreign, howned, hother] at hnot
    exact hstarted
  case callbacks => exact fun _ => rfl
  case working => exact fun hw => absurd rfl hw
  case unowned => exact h.unowned

theorem step_sound {a : Action} (h : Sound s) (hquiet : Quiesces a s) (hstep : step a s = some s') :
    Sound s' := by
  cases a with
  | construct sys o =>
    simp only [step] at hstep
    split_ifs at hstep with hpc
    cases hstep
    exact construct_sound h hpc
  | method m => exact callMethod_sound h hstep
  | free => exact callFree_sound h hstep
  | owner i => exact ownerStep_sound h hstep
  | native i => exact nativeStep_sound h hquiet hstep
  | callback a => exact callbackStep_sound h hquiet hstep
  | fork pid => exact fork_sound h hstep

theorem reachable_sound {pid : Nat} (hpid : pid ≠ 0)
    (hs : Reachable (restrict Quiesces step) (.init pid) s) : Sound s := by
  apply hs.invariant (sound_init hpid)
  intro s a s' _ h hstep
  obtain ⟨hquiet, hstep⟩ := restrict_eq_some.mp hstep
  exact step_sound h hquiet hstep

/-! ## The results -/

/-- How often a resource of a client has not been given back: the native client is lost when
    `es_delete_client` fails. The errors that a forked process has a copy of are not its own. -/
def State.lost (s : State) (r : Resource) : Nat :=
  if r = .native ∧ s.foreign = false then s.deleteErrors else 0

theorem State.lost_of_ne {r : Resource} (hr : r ≠ .native) : s.lost r = 0 :=
  if_neg fun h => hr h.1

/-- A client that is freed leaves nothing behind but a native client that could not be deleted. -/
theorem Sound.returned (h : Sound s) (hfreed : s.owner = .freed) (r : Resource) :
    s.ledger.count (.acquire r) = s.ledger.count (.release r) + s.lost r := by
  obtain ⟨hrequests, hheap, hread, hwrite⟩ := h.equipped
  rw [Ledger.count_of_held h.ledger]
  congr 1
  -- A child has never had the native client, and has lost none
  cases hforeign : s.foreign with
  | true =>
    obtain ⟨howner, hnative⟩ := h.abandoned hforeign
    have hslots : s.slots = false := by simpa [hfreed] using howner
    cases r <;> simp [State.lost, State.holds, NativePc.hasClient, *]
  | false =>
    have howner := h.owner hforeign
    have hthread := h.thread hforeign
    simp only [State.OwnerOk, hfreed] at howner
    obtain ⟨hslots, hstarted, hserving, hcreating⟩ := howner
    by_cases hr : r = .native
    · subst hr
      -- The thread has ended without a native client, or failed to delete it
      cases hnative : s.native <;>
        simp_all [State.lost, State.holds, State.ThreadOk, NativePc.serving, NativePc.hasClient]
    · rw [State.lost_of_ne hr]
      cases r <;> first | exact absurd rfl hr | simp [State.holds, *]

/-- In every run of a client that is constructed once, whatever the system and Endpoint Security
    answer, as long as the handler block is at rest from the moment on that `es_delete_client`
    returns:
    - the ledger is in order: nothing is acquired twice, nothing is used or released that is not
      held, and what is held is what the fields of the client say;
    - once the client is freed, every resource has been released as often as it was acquired, but
      for a native client that could not be deleted, which `delete_errors` counts;
    - once `client_initialize` has raised, everything but the client itself has been released, and
      the client counts as closed;
    - between the methods of a client that is open, everything is held.
    In a process that has been forked with the client, the ledger is that of the process. -/
theorem resources_released_once {pid : Nat} (hpid : pid ≠ 0)
    (hs : Reachable (restrict Quiesces step) (.init pid) s) :
    Ledger.held s.ledger = some s.holds ∧
    (s.owner = .freed →
      ∀ r, s.ledger.count (.acquire r) = s.ledger.count (.release r) + s.lost r) ∧
    (s.owner = .idle → s.foreign = false → s.raised.isSome → s.closed ∧
      ∀ r, r ≠ .client → s.ledger.count (.acquire r) = s.ledger.count (.release r)) ∧
    (s.owner = .idle → s.foreign = false → s.closed = false → ∀ r, s.holds r) := by
  have h := reachable_sound hpid hs
  have hcount := Ledger.count_of_held h.ledger
  obtain ⟨hrequests, hheap, hread, hwrite⟩ := h.equipped
  refine ⟨h.ledger, fun hfreed r => ?_, fun hidle hown hraised => ?_, fun hidle hown hopen r => ?_⟩
  · exact h.returned hfreed r
  -- An open client has had its `client_initialize` succeed
  · have hclosed : s.closed := by
      by_contra hopen
      have hnone := (h.open hidle (by simpa using hopen) hown).raised
      simp [hnone] at hraised
    have howner := h.owner hown
    simp only [State.OwnerOk, hidle, hclosed, if_true] at howner
    obtain ⟨hstarted, hserving, -, hblank⟩ := howner
    obtain ⟨hslots, hdeleted⟩ := hblank hraised
    have hclient : s.native.hasClient = false := by
      cases hnative : s.native <;> simp_all [NativePc.serving, NativePc.hasClient]
    -- All is given back; the thread has been joined, and there is no native client
    refine ⟨hclosed, fun r hr => ?_⟩
    have hreleased : s.holds r = false := by
      cases r <;> first | exact absurd rfl hr | simp [State.holds, *]
    rw [hcount r, hreleased]
    rfl
  · exact h.holds_serving (h.open hidle hopen hown).serving r

/-- A client is opened, gets a message while it is being closed, and is freed. Both threads sleep
    before they are woken, and `es_delete_client` fails. -/
def openToFreed : List Action :=
  [.construct {} {}, .owner {}, .native {}, .native {}, .owner {}, .owner {}, .owner {},
    .callback .enter, .callback .check, .method .close, .callback .work, .callback .leaveWork,
    .owner {}, .owner {}, .native {}, .native {}, .native {}, .owner {}, .owner {}, .owner {},
    .native {}, .native {}, .native { deleted := false }, .owner {}, .owner {}, .free, .owner {}]

theorem resources_released_once_undeleted :
    let s := TransitionSystem.final (restrict Quiesces step) openToFreed (.init 7)
      (by decide +kernel)
    s.ledger.count (.acquire .writeEnd) = s.ledger.count (.release .writeEnd) ∧
      s.ledger.count (.acquire .native) = s.ledger.count (.release .native) + 1 := by
  intro s
  have hs : Reachable (restrict Quiesces step) (.init 7) s := .final _
  have hreleased := (resources_released_once (by decide) hs).2.1
    (show s.owner = .freed by decide +kernel)
  have hlost : s.lost .native = 1 := by decide +kernel
  exact ⟨hreleased .writeEnd, hlost ▸ hreleased .native⟩

/-! ## Every client can be freed -/

/-- How far the methods of a client are from its end. -/
def OwnerPc.rank : OwnerPc → Nat
  | .freed => 0
  | .destroying => 1
  | .notify .free => 2
  | .join .free => 3
  | .storeDelete .free => 4
  | .answer .free => 5
  | .awaitStopped .free => 6
  | .stopWatchdog .free => 7
  | .awaitCallbacks .free => 8
  | .fresh | .idle => 9
  | .notify .method | .joinFailed => 10
  | .join .method | .checkResult => 11
  | .storeDelete .method | .awaitReady => 12
  | .answer .method | .asleep => 13
  | .awaitStopped .method => 14
  | .stopWatchdog .method => 15
  | .awaitCallbacks .method => 16

/-- How far the thread of a client is from its end. -/
def NativePc.rank : NativePc → Nat
  | .absent | .ended | .undeleted => 0
  | .deleting => 1
  | .awaitDelete => 2
  | .asleep => 3
  | .leaving => 4
  | .watching => 5
  | .announce _ => 6
  | .creating => 7

/-- How far a client is from its end. -/
def State.rank (s : State) : Nat :=
  s.owner.rank + s.native.rank + 3 * s.entered + 2 * s.working + s.refusing

/-- Those who bring a client to its end. -/
inductive Party where
  /-- The collector, which calls `client_free`. -/
  | free
  | owner
  | native
  | callback (a : CallbackAction)

/-- The step of a party with an input, which it does not choose. -/
def Party.action : Party → Input → Action
  | .free, _ => .free
  | .owner, i => .owner i
  | .native, i => .native i
  | .callback a, _ => .callback a

/-- The party asks nothing new of the client. -/
def Party.windsDown : Party → Prop
  | .callback a => a ≠ .enter
  | .free | .owner | .native => True

/-- The property can be reached with nothing new being asked of the client: what is under way goes
    on, and the collector frees it. -/
def State.WindsDown (P : State → Prop) : State → Prop :=
  CanReach (restrict Quiesces step) Party.action (fun _ => True) Party.windsDown P

/-- The rank goes down. -/
def State.Down (s : State) : Prop := State.WindsDown (fun t => t.rank < s.rank) s

theorem State.Down.of_step (b : Party) (hb : b.windsDown)
    (h : ∀ i, Quiesces (b.action i) s ∧ ∃ s', step (b.action i) s = some s' ∧ s'.rank < s.rank) :
    s.Down := by
  refine CanReach.turn hb fun i _ => ?_
  obtain ⟨hquiet, s', hstep, hlt⟩ := h i
  exact ⟨s', restrict_eq_some.mpr ⟨hquiet, hstep⟩, .now hlt⟩

/-- The calls of the handler block come to their end. -/
theorem callbacks_down (hactive : s.activeCallbacks ≠ 0) : s.Down := by
  by_cases hentered : s.entered = 0
  · by_cases hworking : s.working = 0
    · have hrefusing : s.refusing ≠ 0 := by
        simp only [State.activeCallbacks] at hactive
        -- The last step of a refused call: it leaves `active_callbacks`
        omega
      refine .of_step (.callback .leaveRefused) nofun fun _ => ⟨trivial, _,
        by simp [Party.action, step, callbackStep, hrefusing]; rfl, ?_⟩
      simp only [State.rank, State.use]
      omega
    · refine .of_step (.callback .leaveWork) nofun fun _ => ⟨trivial, _,
        by simp [Party.action, step, callbackStep, hworking]; rfl, ?_⟩
      simp only [State.rank, State.use]
      omega
  -- A call that has just entered goes on to work or to be refused, as `closed` says
  · cases hclosed : s.closed with
    | true =>
      refine .of_step (.callback .check) nofun fun _ => ⟨trivial, _,
        by simp [Party.action, step, callbackStep, hentered, hclosed]; rfl, ?_⟩
      simp only [State.rank, State.use]
      omega
    | false =>
      refine .of_step (.callback .check) nofun fun _ => ⟨trivial, _,
        by simp [Party.action, step, callbackStep, hentered, hclosed]; rfl, ?_⟩
      simp only [State.rank, State.use]
      omega

/-- What the rank is made of. -/
def State.place (s : State) : OwnerPc × NativePc × Nat × Nat × Nat :=
  (s.owner, s.native, s.entered, s.working, s.refusing)

theorem State.rank_of_place {pc : OwnerPc} {pc' : NativePc} {entered working refusing : Nat}
    (h : s.place = (pc, pc', entered, working, refusing)) :
    s.rank = pc.rank + pc'.rank + 3 * entered + 2 * working + refusing := by
  simp only [State.place, Prod.mk.injEq] at h
  obtain ⟨rfl, rfl, rfl, rfl, rfl⟩ := h
  rfl

/-- A native method makes a step of its own. -/
theorem owner_down (pc : OwnerPc) (hlt : pc.rank < s.owner.rank)
    (hstep : ∀ i, (ownerStep i s).map State.place =
      some (pc, s.native, s.entered, s.working, s.refusing)) : s.Down := by
  refine .of_step .owner trivial fun i => ⟨trivial, ?_⟩
  obtain ⟨s', hs', hplace⟩ := Option.map_eq_some_iff.mp (hstep i)
  refine ⟨s', hs', ?_⟩
  rw [State.rank_of_place hplace]
  simp only [State.rank]
  omega

/-- The thread makes a step, which may depend on what Endpoint Security answers. -/
theorem native_down (pc : Input → NativePc) (hquiet : s.native = .deleting → s.activeCallbacks = 0)
    (hlt : ∀ i, (pc i).rank < s.native.rank)
    (hstep : ∀ i, (nativeStep i s).map State.place =
      some (s.owner, pc i, s.entered, s.working, s.refusing)) : s.Down := by
  refine .of_step .native trivial fun i => ⟨hquiet, ?_⟩
  obtain ⟨s', hs', hplace⟩ := Option.map_eq_some_iff.mp (hstep i)
  refine ⟨s', hs', ?_⟩
  have hlt := hlt i
  rw [State.rank_of_place hplace]
  simp only [State.rank]
  omega

/-- A client that is not in use is freed. -/
theorem free_down (hpc : s.owner = .idle ∨ s.owner = .fresh) : s.Down := by
  have hbusy : ¬(s.owner ≠ .idle ∧ s.owner ≠ .fresh) := by
    rcases hpc with hpc | hpc <;> simp [hpc]
  -- The two ranks of the states that `client_free` can lead to
  have hrank : s.owner.rank = 9 := by rcases hpc with hpc | hpc <;> rw [hpc] <;> rfl
  have hdestroying : OwnerPc.rank .destroying = 1 := rfl
  have hcallbacks : OwnerPc.rank (.awaitCallbacks .free) = 8 := rfl
  refine .of_step .free trivial fun _ => ⟨trivial, ?_⟩
  -- A child skips `client_close_native`
  cases hforeign : s.foreign with
  | true =>
    refine ⟨_, by simp only [Party.action, step, callFree, if_neg hbusy, hforeign, Bool.not_true]
                  rfl, ?_⟩
    simp only [State.rank, hrank, State.use, hdestroying]
    omega
  | false =>
    refine ⟨_, by simp only [Party.action, step, callFree, if_neg hbusy, hforeign, Bool.not_false,
                    if_true]
                  rfl, ?_⟩
    unfold State.closeNative
    split_ifs <;> simp only [State.rank, hrank, State.use, hdestroying, hcallbacks] <;> omega

/-- The thread comes closer to the announcement of what `es_new_client` has returned. -/
theorem announce_down (hnative : s.native = .creating ∨ ∃ result, s.native = .announce result) :
    s.Down := by
  rcases hnative with hnative | ⟨result, hnative⟩
  · apply native_down (fun i => .announce i.result) (by simp [hnative])
      (fun _ => by simp [hnative, NativePc.rank])
    intro i
    by_cases hsuccess : i.result = .success <;>
      simp [nativeStep, hnative, State.place, State.use, State.acquire, hsuccess]
  · apply native_down (fun _ => if result = .success then .watching else .ended)
      (by simp [hnative])
    · intro _
      rw [hnative]
      split_ifs <;> simp [NativePc.rank]
    · simp [nativeStep, hnative, State.place, State.use, State.broadcast]

/-- The thread, which has been told that it may, comes closer to the end of the native client. -/
theorem delete_down (hready : s.deleteReady) (hwoken : s.native = .asleep → s.nativeWoken)
    (hnative : s.native = .awaitDelete ∨ s.native = .asleep ∨ s.native = .deleting) : s.Down := by
  -- Each of the three is one step of the thread, the first of which finds `delete_ready` set
  rcases hnative with hnative | hnative | hnative
  · apply native_down (fun _ => .deleting) (by simp [hnative]) (fun _ => by rw [hnative]; decide)
    simp [nativeStep, hnative, State.place, State.use, hready]
  · apply native_down (fun _ => .awaitDelete) (by simp [hnative])
      (fun _ => by rw [hnative]; decide)
    simp [nativeStep, hnative, State.place, State.use, hwoken hnative]
  · -- `es_delete_client` waits for the handler block
    by_cases hactive : s.activeCallbacks = 0
    · apply native_down (fun i => if i.deleted then .ended else .undeleted) (fun _ => hactive)
      · intro i
        rw [hnative]
        split_ifs <;> decide
      · intro i
        cases hdeleted : i.deleted <;>
          simp [nativeStep, hnative, hdeleted, State.place, State.use, State.release]
    · exact callbacks_down hactive

/-- From wherever a client has got to, it comes closer to its end. -/
theorem Sound.down (h : Sound s) (hfreed : s.owner ≠ .freed) : s.Down := by
  -- The last step needs no answer of anybody
  have hdestroyed (hpc : s.owner = .destroying) : s.Down := by
    refine owner_down .freed (by rw [hpc]; decide) fun i => ?_
    rw [ownerStep_destroying h hpc]
    rfl
  by_cases hforeign : s.foreign
  · rcases (h.abandoned hforeign).owner with hpc | hpc | ⟨hpc, -⟩
    · exact free_down (.inl hpc)
    · exact hdestroyed hpc
    · exact absurd hpc hfreed
  have howner := h.owner (by simpa using hforeign)
  have hthread := h.thread (by simpa using hforeign)
  cases hpc : s.owner with
  | freed => exact absurd hpc hfreed
  | fresh => exact free_down (.inr hpc)
  | idle => exact free_down (.inl hpc)
  | destroying => exact hdestroyed hpc
  | awaitReady =>
    simp only [State.OwnerOk, hpc] at howner
    cases hready : s.clientReady with
    | true =>
      apply owner_down .checkResult (by rw [hpc]; decide)
      simp [ownerStep, hpc, State.place, State.use, hready]
    | false =>
      -- The thread has not told yet what has come of the native client
      apply announce_down
      cases hnative : s.native <;> simp_all [State.ThreadOk, State.Created, State.Leaving]
  | asleep =>
    simp only [State.OwnerOk, hpc] at howner
    cases hready : s.clientReady with
    | true =>
      -- The broadcast has woken the method
      have hwoken := howner.2.2.2.2.2.2.2 hready
      apply owner_down .awaitReady (by rw [hpc]; decide)
      simp [ownerStep, hpc, State.place, State.use, hwoken]
    | false =>
      apply announce_down
      cases hnative : s.native <;> simp_all [State.ThreadOk, State.Created, State.Leaving]
  | checkResult =>
    apply owner_down (if s.creationResult = .success then .idle else .joinFailed)
    · rw [hpc]
      split_ifs <;> decide
    · simp [ownerStep, hpc, State.place, State.use]
  -- The thread has nothing left to do, since `es_new_client` has failed
  | joinFailed =>
    simp only [State.OwnerOk, hpc] at howner
    have hended : s.native = .ended := by
      cases hnative : s.native <;> simp_all [State.ThreadOk, State.Created, State.Leaving]
    refine owner_down .idle (by rw [hpc]; decide) fun i => ?_
    rw [ownerStep_joinFailed h hpc howner.2.1 hended]
    rfl
  | awaitCallbacks caller =>
    by_cases hactive : s.activeCallbacks = 0
    · refine owner_down (.stopWatchdog caller) (by rw [hpc]; cases caller <;> decide) fun i => ?_
      have hactive : (s.use [.client]).activeCallbacks = 0 := hactive
      simp only [ownerStep, State.use_owner, hpc, if_pos hactive]
      rfl
    · exact callbacks_down hactive
  | stopWatchdog caller =>
    simp only [State.OwnerOk, hpc] at howner
    obtain ⟨-, ⟨-, hstarted, -⟩, -⟩ := howner
    apply owner_down (.awaitStopped caller) (by rw [hpc]; cases caller <;> decide)
    simp [ownerStep, hpc, State.place, State.use, State.broadcast, hstarted]
  | awaitStopped caller =>
    simp only [State.OwnerOk, hpc] at howner
    -- The thread sees that `watchdog_running` is clear, and leaves its loop
    by_cases hstopped : s.watchdogStopped
    · apply owner_down (.answer caller) (by rw [hpc]; cases caller <;> decide)
      simp [ownerStep, hpc, State.place, State.use, hstopped]
    · cases hnative : s.native with
      | watching =>
        apply native_down (fun _ => .leaving) (by simp [hnative])
          (fun _ => by rw [hnative]; decide)
        simp [nativeStep, hnative, State.place, State.use, howner.2.2.1]
      | leaving =>
        apply native_down (fun _ => .awaitDelete) (by simp [hnative])
          (fun _ => by rw [hnative]; decide)
        simp [nativeStep, hnative, State.place, State.use]
      | _ => simp_all [State.ThreadOk, State.Created, State.Leaving]
  | answer caller =>
    simp only [State.OwnerOk, hpc] at howner
    obtain ⟨-, ⟨-, hstarted, -⟩, -⟩ := howner
    apply owner_down (.storeDelete caller) (by rw [hpc]; cases caller <;> decide)
    simp [ownerStep, hpc, State.place, State.use, hstarted]
  | storeDelete caller =>
    apply owner_down (.join caller) (by rw [hpc]; cases caller <;> decide)
    simp [ownerStep, hpc, State.place, State.use, State.broadcast]
  | join caller =>
    simp only [State.OwnerOk, hpc] at howner
    obtain ⟨-, -, hstarted, -, -, hready, -⟩ := howner
    cases hfinished : s.native.finished with
    | true =>
      apply owner_down (.notify caller) (by rw [hpc]; cases caller <;> decide)
      simp [ownerStep, hpc, State.place, State.use, State.release, hfinished]
    | false =>
      -- The thread is in the wait for `delete_ready`, or deleting
      apply delete_down hready
      · intro hnative
        simp only [State.ThreadOk, hnative] at hthread
        exact hthread.2 hready
      · cases hnative : s.native <;>
          simp_all [State.ThreadOk, State.Created, NativePc.finished]
  | notify caller =>
    cases caller with
    | method =>
      apply owner_down .idle (by rw [hpc]; decide)
      simp [ownerStep, hpc, State.place, State.use]
    | free =>
      apply owner_down .destroying (by rw [hpc]; decide)
      simp [ownerStep, hpc, State.place, State.use]

/-- Every client can be freed from wherever it has got to, with everything given back but a native
    client that could not be deleted. Nothing new need be asked of it for that: the method under
    way, the thread and the calls of the handler block go on, the collector frees the client, and
    whatever the system and Endpoint Security answer meanwhile, each of these steps can be made. -/
theorem client_is_freed {pid : Nat} (hpid : pid ≠ 0)
    (hs : Reachable (restrict Quiesces step) (.init pid) s) :
    State.WindsDown (fun t => t.owner = .freed ∧
      ∀ r, t.ledger.count (.acquire r) = t.ledger.count (.release r) + t.lost r) s := by
  have hfreed : State.WindsDown (fun t => t.owner = .freed) s := by
    refine CanReach.of_rank (I := fun _ => True) State.rank (fun t ht _ hnot => ?_) hs trivial
    have hdown := (reachable_sound hpid ht).down hnot
    -- The rank goes down in every state reached, until the client is freed
    exact hdown.bind ht fun u _ hlt => .now ⟨trivial, hlt⟩
  exact hfreed.bind hs fun t ht hend => .now ⟨hend, (reachable_sound hpid ht).returned hend⟩

/-- The owner sleeps in `client_initialize` until it hears what `es_new_client` says. -/
theorem client_is_freed_creating :
    State.WindsDown (fun t => t.owner = .freed ∧
        ∀ r, t.ledger.count (.acquire r) = t.ledger.count (.release r) + t.lost r)
      (TransitionSystem.final (restrict Quiesces step) [.construct {} {}, .owner {}] (.init 7)
        (by decide +kernel)) :=
  client_is_freed (by decide) (.final _)

end EndpointSecurity.ClientLife
