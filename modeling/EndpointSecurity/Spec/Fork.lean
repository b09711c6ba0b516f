import EndpointSecurity.Native.Fork
import EndpointSecurity.Spec.Finalizers

/-!
# What a forked child can do with an inherited client

In a process that is not the owner of the client, every check fails, so that no method gets to
the part that touches the client, a slot or a native message. Three methods and the free
functions make no check that fails: `__audit_token_for_pid` does not use the client,
`__auto_release!` and `message_free` only invalidate the wrapper, `client_free` only forgets the
client, and `initialize` creates a new client in new slots and becomes its owner.

## Key results

- `ClientMethod.run_child`, `MessageMethod.run_child`, `ViewMethod.run_child`: what a method
  comes to in a child
- `childStep_raises`: every other method raises `ForkedClientError`
- `child_leaves_client_alone`: nothing is called, answered, released or read in a child
-/

namespace EndpointSecurity.Fork

open TransitionSystem (Reachable)

variable {cfg : Config} {t t' : State}

/-! ## The checks in a child -/

section Checks

variable (hpid : t.pid ≠ t.ownerPid)
include hpid

theorem not_messageOwnedHere : t.messageOwnedHere = false := by
  simp [State.messageOwnedHere, hpid.symm]

theorem getMessage_child (p : Nat) : t.getMessage p = .error .forkedMessage := by
  simp [State.getMessage, not_messageOwnedHere hpid]

theorem getView_child (p : Nat) : t.getView p = .error .forkedMessage := by
  simp [State.getView, not_messageOwnedHere hpid]

theorem ownedHere_child : t.ownedHere = .error .forkedMessage := by
  simp [State.ownedHere, not_messageOwnedHere hpid]

theorem getClient_child : t.getClient = .error .forkedClient := by
  simp [State.getClient, hpid.symm]

theorem getOpenClient_child : t.getOpenClient = .error .forkedClient := by
  simp [State.getOpenClient, getClient_child hpid]

theorem muteClient_child : t.muteClient = .error .forkedClient := by
  simp [State.muteClient, hpid.symm]

end Checks

/-- The rest of a method is not reached when its check fails. -/
@[simp] theorem checked_error (t : State) (error : Error) (rest : State → Option State) :
    t.checked (.error error) rest = some (t.raise error) := rfl

@[simp] theorem query_error (t : State) (error : Error) :
    query (.error error) t = some (t.raise error) := rfl

@[simp] theorem forward_error (t : State) (error : Error) (f : EsFunction) :
    forward (.error error) f t = some (t.raise error) := rfl

/-! ## The methods in a child -/

/-- The methods that make no check of the process. -/
def ClientMethod.unchecked : ClientMethod → Bool
  | .nativeInitialize _ | .auditTokenForPid => true
  | _ => false

theorem ClientMethod.run_child (hpid : t.pid ≠ t.ownerPid) (method : ClientMethod)
    (hchecked : method.unchecked = false) :
    method.run cfg t = some (t.raise .forkedClient) := by
  have hclient := getClient_child hpid
  have hopen := getOpenClient_child hpid
  have hmute := muteClient_child hpid
  cases method with
  | nativeInitialize _ => cases hchecked
  | auditTokenForPid => cases hchecked
  | close => simp [ClientMethod.run, clientClose, hclient]
  | closed | wake | stats => simp [ClientMethod.run, hclient]
  | wakeupFd | drain _ | subscribe | unsubscribe _ | subscriptions =>
    simp [ClientMethod.run, hopen]
  | mutePath _ _ | muteProcess _ _ | unmuteAllPaths _ | invertMuting | mutingInverted
  | clearCache | mutedPaths | mutedProcesses => simp [ClientMethod.run, hmute]

theorem MessageMethod.run_child (hpid : t.pid ≠ t.ownerPid) (p : Nat) (method : MessageMethod)
    (hchecked : method ≠ .autoRelease) :
    method.run cfg p t = some (t.raise .forkedMessage) := by
  have hmessage := getMessage_child hpid p
  have howned := ownedHere_child hpid
  cases method with
  | autoRelease => exact absurd rfl hchecked
  | release | valid => simp [MessageMethod.run, howned]
  | _ => simp [MessageMethod.run, hmessage]

theorem ViewMethod.run_child (hpid : t.pid ≠ t.ownerPid) (p : Nat) (method : ViewMethod) :
    method.run cfg p t = some (t.raise .forkedMessage) := by
  have hview := getView_child hpid p
  cases method <;> simp [ViewMethod.run, hview]

/-! ## What a child inherits -/

/-- What a child keeps of the client that it has inherited: the slots and everything that is
    recorded of the messages, while no method is in progress and no function of Endpoint
    Security has been given the client. -/
structure Untouched (s : EndpointSecurity.State) (t : State) : Prop where
  queue : t.client.queue = s.queue
  history : t.client.history = s.history
  idle : t.client.ruby = .idle
  esCalls : ∀ f ∈ t.esCalls, f.actsOnClient = false
  initialized : t.pid ≠ t.ownerPid → t.ownerPid ≠ 0

theorem Untouched.fork {ownerPid : Nat} (howner : ownerPid ≠ 0) (pid : Nat)
    (s : EndpointSecurity.State) : Untouched s (fork ownerPid pid s) :=
  ⟨rfl, rfl, rfl, fun _ hf => (List.not_mem_nil hf).elim, fun _ => howner⟩

theorem Untouched.raise {s : EndpointSecurity.State} (h : Untouched s t) (error : Error) :
    Untouched s (t.raise error) :=
  ⟨h.queue, h.history, h.idle, h.esCalls, h.initialized⟩

theorem Untouched.returns {s : EndpointSecurity.State} (h : Untouched s t) :
    Untouched s t.returns :=
  ⟨h.queue, h.history, h.idle, h.esCalls, h.initialized⟩

/-- A wrapper may be invalidated or freed. -/
theorem Untouched.setWrapper {s : EndpointSecurity.State} (h : Untouched s t)
    (wrapper : Nat → Wrapper) :
    Untouched s { t with objects := { t.objects with process := { t.client with wrapper } } } :=
  ⟨h.queue, h.history, h.idle, h.esCalls, h.initialized⟩

/-! ## One operation -/

theorem Untouched.client {s : EndpointSecurity.State} (h : Untouched s t)
    (hpid : t.pid ≠ t.ownerPid) {method : ClientMethod}
    (hstep : method.run cfg t = some t') : Untouched s t' := by
  by_cases hchecked : method.unchecked = false
  · rw [ClientMethod.run_child hpid method hchecked] at hstep
    cases hstep
    exact h.raise _
  cases method with
  | nativeInitialize accepted =>
    simp only [ClientMethod.run, clientInitialize] at hstep
    split at hstep
    · -- The client that it creates is a new one, and the child becomes the owner.
      cases hstep
      refine ⟨h.queue, h.history, h.idle, fun f hf => ?_, fun hne => absurd rfl hne⟩
      rcases List.mem_cons.mp hf with rfl | hf
      · rfl
      · exact h.esCalls f hf
    · cases hstep
      exact h.raise _
  | auditTokenForPid =>
    cases hstep
    exact h.returns
  | _ => exact absurd rfl hchecked

theorem Untouched.message {s : EndpointSecurity.State} (h : Untouched s t)
    (hpid : t.pid ≠ t.ownerPid) {p : Nat} {method : MessageMethod}
    (hstep : method.run cfg p t = some t') : Untouched s t' := by
  by_cases hauto : method = .autoRelease
  · subst hauto
    simp only [MessageMethod.run, messageRelease, not_messageOwnedHere hpid, Bool.not_false,
      ↓reduceIte] at hstep
    split at hstep
    · cases hstep
      exact h.returns
    · -- `message_release` finds the message released already, or of another process.
      split at hstep
      · cases hstep
        exact h.returns
      · cases hstep
        exact h.returns.setWrapper _
  · rw [MessageMethod.run_child hpid p method hauto] at hstep
    cases hstep
    exact h.raise _

theorem Untouched.messageFree {s : EndpointSecurity.State} (h : Untouched s t)
    (hpid : t.pid ≠ t.ownerPid) {p : Nat} (hstep : messageFree cfg p t = some t') :
    Untouched s t' := by
  simp only [Fork.messageFree, not_messageOwnedHere hpid, Bool.false_eq_true, ↓reduceIte] at hstep
  cases hstep
  exact h.setWrapper _

theorem Untouched.clientFree {s : EndpointSecurity.State} (h : Untouched s t)
    (hpid : t.pid ≠ t.ownerPid) (hstep : clientFree cfg t = some t') : Untouched s t' := by
  have hother : ¬ (t.ownerPid = 0 ∨ t.ownerPid = t.pid) :=
    not_or.mpr ⟨h.initialized hpid, hpid.symm⟩
  simp only [Fork.clientFree, hother, ↓reduceIte] at hstep
  cases hstep
  exact ⟨h.queue, h.history, h.idle, h.esCalls, h.initialized⟩

/-- No native method is in progress in a child, since none has begun. -/
theorem Untouched.not_native {s : EndpointSecurity.State} (h : Untouched s t) (input : Input) :
    t.within (Finalizers.step cfg (.native input) t.objects) = none := by
  have hidle : t.objects.process.ruby = .idle := h.idle
  simp only [State.within, Finalizers.step, Finalizers.State.within, rubyStep, hidle]
  split <;> rfl

/-- One operation of a process that is not the owner. -/
theorem Untouched.childStep {s : EndpointSecurity.State} (h : Untouched s t) {op : Operation}
    (hstep : childStep cfg op t = some t') : Untouched s t' := by
  unfold Fork.childStep step at hstep
  split at hstep
  · cases hstep
  next hpid =>
    split at hstep
    · cases hstep
    next hcan =>
      cases op with
      | client method => exact h.client hpid hstep
      | message p method =>
        simp only at hstep
        split at hstep
        · exact h.message hpid hstep
        · cases hstep
      | view p method =>
        simp only at hstep
        split at hstep
        · rw [ViewMethod.run_child hpid] at hstep
          cases hstep
          exact h.raise _
        · cases hstep
      | native input =>
        simp only [h.not_native] at hstep
        cases hstep
      | freeMessage p =>
        simp only at hstep
        split at hstep
        · exact h.messageFree hpid hstep
        · cases hstep
      | freeClient => exact h.clientFree hpid hstep
      | destroy =>
        simp only [State.within, Finalizers.step] at hstep
        split at hstep
        · cases hstep
          exact ⟨h.queue, h.history, h.idle, h.esCalls, h.initialized⟩
        · cases hstep

/-- The operations that do not raise in a child. -/
def Operation.silent : Operation → Bool
  | .client method => method.unchecked
  | .message _ method => method = .autoRelease
  | .view _ _ => false
  | .native _ | .freeMessage _ | .freeClient | .destroy => true

/-- Every other method raises `ForkedClientError` in a child, whatever the state of the client
    and of the message, and leaves everything as it is. -/
theorem childStep_raises {op : Operation} (hop : op.silent = false)
    (hstep : childStep cfg op t = some t') :
    ∃ error : Error, error.forked = true ∧ t' = t.raise error := by
  unfold childStep step at hstep
  split at hstep
  · cases hstep
  next hpid =>
    split at hstep
    · cases hstep
    · cases op with
      | client method =>
        simp only [ClientMethod.run_child hpid method hop] at hstep
        cases hstep
        exact ⟨.forkedClient, rfl, rfl⟩
      | message p method =>
        have hauto : method ≠ .autoRelease := by simpa [Operation.silent] using hop
        simp only [MessageMethod.run_child hpid p method hauto] at hstep
        split at hstep
        · cases hstep
          exact ⟨.forkedMessage, rfl, rfl⟩
        · cases hstep
      | view p method =>
        simp only [ViewMethod.run_child hpid p method] at hstep
        split at hstep
        · cases hstep
          exact ⟨.forkedMessage, rfl, rfl⟩
        · cases hstep
      | native _ | freeMessage _ | freeClient | destroy => cases hop

/-! ## Runs -/

theorem untouched {s : EndpointSecurity.State} {ownerPid pid : Nat} (howner : ownerPid ≠ 0)
    (ht : Reachable (childStep cfg) (fork ownerPid pid s) t) : Untouched s t :=
  ht.invariant (.fork howner pid s) fun _ _ _ _ h hstep => h.childStep hstep

/-- Whatever the state of an initialised client at the moment of the fork, and whatever is
    called or freed in a child that is not its owner: no function of Endpoint Security is given
    the client, no message is answered, released or read, and no slot changes its sequence,
    occupancy or answer state. -/
theorem child_leaves_client_alone {s : EndpointSecurity.State} {ownerPid pid : Nat}
    (howner : ownerPid ≠ 0) (ht : Reachable (childStep cfg) (fork ownerPid pid s) t) :
    (∀ f ∈ t.esCalls, f.actsOnClient = false) ∧
    (∀ m, t.client.history.log m = s.history.log m) ∧
    ∀ i, (t.client.queue.slots i).sequence = (s.queue.slots i).sequence ∧
      (t.client.queue.slots i).occupied = (s.queue.slots i).occupied ∧
      (t.client.queue.slots i).answerState = (s.queue.slots i).answerState := by
  have h := untouched howner ht
  refine ⟨h.esCalls, fun m => by rw [h.history], fun i => ?_⟩
  rw [h.queue]
  exact ⟨rfl, rfl, rfl⟩

/-- A child answers, releases, reads and closes what it has inherited, and its collector frees
    the message and the client. -/
def childOperations : List Operation :=
  [.message 0 (.respond (.auth .deny false)), .message 0 .release, .view 0 .readField,
    .client .close, .client .subscribe, .message 0 .autoRelease, .freeMessage 0, .freeClient]

theorem delivered_isSome : (TransitionSystem.run (EndpointSecurity.step smallClient)
    Finalizers.delivered (.init smallClient)).isSome := by decide +kernel

theorem child_leaves_client_alone_delivered :
    let s := TransitionSystem.final (EndpointSecurity.step smallClient) Finalizers.delivered
      (.init smallClient) delivered_isSome
    let t := TransitionSystem.final (childStep smallClient) childOperations (fork 1 2 s)
      (by decide +kernel)
    (∀ f ∈ t.esCalls, f.actsOnClient = false) ∧
    (∀ m, t.client.history.log m = s.history.log m) ∧
    ∀ i, (t.client.queue.slots i).sequence = (s.queue.slots i).sequence ∧
      (t.client.queue.slots i).occupied = (s.queue.slots i).occupied ∧
      (t.client.queue.slots i).answerState = (s.queue.slots i).answerState :=
  child_leaves_client_alone (by decide) (.final _)

end EndpointSecurity.Fork
