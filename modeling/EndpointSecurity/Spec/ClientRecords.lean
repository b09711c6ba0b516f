import EndpointSecurity.Spec.ClientLogs

/-!
# What a step records

A step of a client adds one event at most to the log of a message. Only the response methods
record a response in their own name, and they record the answer that they were called with.

## Key results

- `step_records`: what a step adds to the logs
- `callbackStep_records`, `watchdogStep_records`: the same for the threads other than Ruby's,
  with the part of the state that they leave alone
-/

namespace EndpointSecurity

/-- A response in the name of a response method. -/
def MessageEvent.byMethod : MessageEvent → Bool
  | .respond _ (.ruby _) _ => true
  | .retain | .release | .read _ | .respond _ _ _ => false

/-- The logs of `h'` are those of `h`, with one more event at most for each message, and that one
    satisfies `P`. -/
def History.Adds (P : Nat → MessageEvent → Prop) (h h' : History) : Prop :=
  ∀ m, h'.log m = h.log m ∨ ∃ e, h'.log m = e :: h.log m ∧ P m e

namespace History.Adds

variable {P Q : Nat → MessageEvent → Prop} {h h' : History}

theorem of_eq (hlog : h'.log = h.log) : h.Adds P h' := fun m => .inl (by rw [hlog])

theorem of_record {m : Nat} {e : MessageEvent} (hlog : h'.log = (h.record m e).log) (he : P m e) :
    h.Adds P h' := by
  intro r
  rw [hlog, History.record]
  rcases eq_or_ne r m with rfl | hne
  · exact .inr ⟨e, Function.update_self .., he⟩
  · exact .inl (Function.update_of_ne hne ..)

theorem imp (hadds : h.Adds P h') (himp : ∀ m e, P m e → Q m e) : h.Adds Q h' :=
  fun m => (hadds m).imp_right fun ⟨e, hlog, he⟩ => ⟨e, hlog, himp m e he⟩

/-- Nothing is ever taken out of a log. -/
theorem suffix (hadds : h.Adds P h') (m : Nat) : h.log m <:+ h'.log m := by
  rcases hadds m with hlog | ⟨e, hlog, -⟩
  · rw [hlog]
  · rw [hlog]
    exact List.suffix_cons ..

/-- What is in a log was there before, or satisfies `P`. -/
theorem mem {m : Nat} {e : MessageEvent} (hadds : h.Adds P h') (he : e ∈ h'.log m) :
    e ∈ h.log m ∨ P m e := by
  rcases hadds m with hlog | ⟨e', hlog, he'⟩
  · exact .inl (hlog ▸ he)
  · rw [hlog] at he
    rcases List.mem_cons.mp he with rfl | he
    · exact .inr he'
    · exact .inl he

end History.Adds

/-- What the native methods may record: a response in the name of method call `call` only at the
    end of that call, for the message of its slot and with its answer. -/
def State.Records (cfg : Config) (s : State) (m : Nat) (e : MessageEvent) : Prop :=
  ∀ client call response, e = .respond client (.ruby call) response →
    ∃ p answer raises, s.ruby = .respondSend p (.method call answer raises) ∧
      m = (s.queue.slot p).message ∧ response = cfg.response m answer

theorem State.records_of_byMethod {cfg : Config} {s : State} {m : Nat} {e : MessageEvent}
    (he : e.byMethod = false) : s.Records cfg m e := by
  rintro client call response rfl
  simp [MessageEvent.byMethod] at he

/-- A thread other than Ruby's: it leaves Ruby's part of the state alone, and records nothing in
    the name of a response method. -/
structure State.Background (s s' : State) : Prop where
  ruby : s'.ruby = s.ruby
  wrapper : s'.wrapper = s.wrapper
  closed : s'.closed = s.closed
  adds : s.history.Adds (fun _ e => e.byMethod = false) s'.history

variable {cfg : Config} {s s' : State} {k : Nat} {i : Input}

/-- A response to a message that cannot be queued. -/
theorem State.respondUnqueued_adds (m : Nat) :
    s.history.Adds (fun _ e => e.byMethod = false) (s.respondUnqueued cfg i m).history := by
  unfold State.respondUnqueued
  split_ifs
  · exact .of_record rfl rfl
  · exact .of_eq rfl

theorem State.respondUnqueued_same (m : Nat) :
    (s.respondUnqueued cfg i m).ruby = s.ruby ∧
      (s.respondUnqueued cfg i m).wrapper = s.wrapper ∧
      (s.respondUnqueued cfg i m).closed = s.closed := by
  unfold State.respondUnqueued
  split_ifs <;> exact ⟨rfl, rfl, rfl⟩

theorem callbackStep_records (hstep : callbackStep cfg k i s = some s') : s.Background s' := by
  cases hpc : s.callback k with
  | absent | loadClosed | fill | storeOccupied | publishRequest | loadDequeue | loadDepthMax
  | storeSequence | notifyWrite | leave =>
    simp only [callbackStep, hpc, Option.some.injEq] at hstep
    subst hstep
    exact ⟨rfl, rfl, rfl, .of_eq rfl⟩
  | refuse | overflow =>
    simp only [callbackStep, hpc, Option.some.injEq] at hstep
    subst hstep
    obtain ⟨hruby, hwrapper, hclosed⟩ := s.respondUnqueued_same k
    exact ⟨hruby, hwrapper, hclosed, s.respondUnqueued_adds k⟩
  | retain | drop =>
    simp only [callbackStep, hpc, Option.some.injEq] at hstep
    subst hstep
    exact ⟨rfl, rfl, rfl, .of_record rfl rfl⟩
  | enqueue pc =>
    simp only [callbackStep, hpc, Queue.enqueue] at hstep
    cases hres : s.queue.ring.claimStep i.spurious pc <;>
      simp only [hres, Option.some.injEq] at hstep <;> subst hstep <;>
      exact ⟨rfl, rfl, rfl, .of_eq rfl⟩
  | arm p pc =>
    simp only [callbackStep, hpc] at hstep
    cases hres : s.requests.arm i.spurious pc <;>
      simp only [hres, Option.some.injEq] at hstep <;> subst hstep <;>
      exact ⟨rfl, rfl, rfl, .of_eq rfl⟩
  | answer | notify =>
    simp only [callbackStep, hpc] at hstep
    split_ifs at hstep <;> cases hstep <;> exact ⟨rfl, rfl, rfl, .of_eq rfl⟩
  | respond p =>
    simp only [callbackStep, hpc, Option.some.injEq] at hstep
    subst hstep
    exact ⟨rfl, rfl, rfl, .of_record rfl rfl⟩
  | raiseDepthMax p depth maximum =>
    simp only [callbackStep, hpc] at hstep
    split_ifs at hstep <;> cases hstep <;> exact ⟨rfl, rfl, rfl, .of_eq rfl⟩
  | returned => simp [callbackStep, hpc] at hstep

theorem watchdogStep_records (hstep : watchdogStep cfg i s = some s') : s.Background s' := by
  cases hpc : s.watchdog with
  | loadRunning | popLoad | popSequence | popStore | popRelease | loadOccupied | addReader
  | count | notifyWrite | subReader | wait | exiting | stopped | deleting =>
    simp only [watchdogStep, hpc, Option.some.injEq] at hstep
    subst hstep
    exact ⟨rfl, rfl, rfl, .of_eq rfl⟩
  | clock | recheck | exchange | notify | asleep =>
    simp only [watchdogStep, hpc] at hstep
    split_ifs at hstep <;> cases hstep <;> exact ⟨rfl, rfl, rfl, .of_eq rfl⟩
  | respond entry now =>
    simp only [watchdogStep, hpc, Option.some.injEq] at hstep
    subst hstep
    exact ⟨rfl, rfl, rfl, .of_record rfl rfl⟩
  | deleted => simp [watchdogStep, hpc] at hstep

/-! ## The native methods -/

theorem State.releaseCall_log (p : Nat) (caller : ReleaseCaller) (stats : Stats) :
    ({ s with stats }.releaseCall p caller).history = s.history := by
  simp only [State.releaseCall]
  split_ifs <;> rfl

theorem callStep_records {call : Call} (hstep : callStep cfg call s = some s') :
    s.history.Adds (fun _ e => e.byMethod = false) s'.history := by
  simp only [callStep] at hstep
  split_ifs at hstep
  cases call with
  | drain | close | retain =>
    simp only [beginCall] at hstep
    split_ifs at hstep <;> cases hstep <;> exact .of_eq rfl
  | wake =>
    cases hstep
    exact .of_eq rfl
  | read p =>
    simp only [beginCall] at hstep
    split_ifs at hstep <;> cases hstep
    · exact .of_eq rfl
    · exact .of_record rfl rfl
  | respond p verdict =>
    simp only [beginCall] at hstep
    split_ifs at hstep
    · cases hstep
      exact .of_eq rfl
    · split at hstep <;> cases hstep <;> exact .of_record rfl rfl
  | release p =>
    simp only [beginCall] at hstep
    split_ifs at hstep
    cases hstep
    exact .of_eq (by rw [State.releaseCall_log p .method s.stats])
  | autoRelease p =>
    simp only [beginCall] at hstep
    split_ifs at hstep <;> cases hstep
    · exact .of_eq rfl
    · exact .of_eq (by rw [State.releaseCall_log p .method s.stats])
  | free p =>
    simp only [beginCall] at hstep
    split_ifs at hstep <;> cases hstep <;> exact .of_eq (by rw [State.releaseCall_log])

theorem State.respondReturn_log (p : Nat) (sent success : Bool) (caller : RespondCaller) :
    (s.respondReturn cfg p sent success caller).history.log = s.history.log := by
  cases caller <;> rfl

theorem rubyStep_records (hstep : rubyStep cfg i s = some s') :
    s.history.Adds (s.Records cfg) s'.history := by
  have hrecord : ∀ {m e}, s'.history.log = (s.history.record m e).log → e.byMethod = false →
      s.history.Adds (s.Records cfg) s'.history :=
    fun hlog he => .of_record hlog (State.records_of_byMethod he)
  cases hpc : s.ruby with
  | idle => simp [rubyStep, hpc] at hstep
  | drainDelivered | drainClear | drainDepth | stopWatchdog | storeDeleteReady | disarm
  | queueDisarm =>
    simp only [rubyStep, hpc, Option.some.injEq] at hstep
    subst hstep
    exact .of_eq rfl
  | drainRead | drainDepthDequeue | answerOccupied | answerExchange | closeExchange =>
    simp only [rubyStep, hpc] at hstep
    split_ifs at hstep <;> cases hstep <;> exact .of_eq rfl
  | awaitReaders | queueAwait | awaitCallbacks | awaitWatchdog | join =>
    simp only [rubyStep, hpc, Option.some.injEq] at hstep
    subst hstep
    split_ifs <;> exact .of_eq rfl
  | notify caller =>
    simp only [rubyStep, hpc] at hstep
    split_ifs at hstep <;> cases hstep
    · cases caller <;> exact .of_eq rfl
    · exact .of_eq rfl
  | notifyWrite caller =>
    simp only [rubyStep, hpc, Option.some.injEq] at hstep
    subst hstep
    cases caller <;> exact .of_eq rfl
  | drainDequeue left batch pc | closeDequeue pc =>
    simp only [rubyStep, hpc, Queue.dequeue] at hstep
    cases hres : s.queue.ring.takeStep i.spurious pc <;>
      simp only [hres, Option.some.injEq] at hstep <;> subst hstep <;> exact .of_eq rfl
  | respondClosed p caller =>
    simp only [rubyStep, hpc] at hstep
    split_ifs at hstep <;> cases hstep
    · exact .of_eq (State.respondReturn_log ..)
    · exact .of_eq rfl
  | respondExchange p caller =>
    simp only [rubyStep, hpc] at hstep
    split_ifs at hstep <;> cases hstep
    · exact .of_eq rfl
    · exact .of_eq (State.respondReturn_log ..)
  | respondSend p caller =>
    simp only [rubyStep, hpc, Option.some.injEq] at hstep
    subst hstep
    cases caller with
    | release caller => exact hrecord (State.respondReturn_log ..) rfl
    | method call answer raises =>
      -- The only response in the name of a method
      refine .of_record (State.respondReturn_log ..) ?_
      intro client call' response heq
      cases heq
      exact ⟨p, answer, raises, hpc, rfl, rfl⟩
  | answerSend | closeSend | releaseMessage | closeMessage =>
    simp only [rubyStep, hpc, Option.some.injEq] at hstep
    subst hstep
    exact hrecord rfl rfl
  | queueStore p caller =>
    simp only [rubyStep, hpc] at hstep
    cases caller <;> cases hstep <;> exact .of_eq rfl

/-- What a step adds to the logs. -/
theorem step_records {a : Action} (hstep : step cfg a s = some s') :
    s.history.Adds (s.Records cfg) s'.history := by
  cases a with
  | callback k input =>
    exact (callbackStep_records hstep).adds.imp fun _ _ => State.records_of_byMethod
  | watchdog input =>
    exact (watchdogStep_records hstep).adds.imp fun _ _ => State.records_of_byMethod
  | call call => exact (callStep_records hstep).imp fun _ _ => State.records_of_byMethod
  | ruby input => exact rubyStep_records hstep

/-! ## A closed client stays closed -/

theorem callStep_closed {call : Call} (hstep : callStep cfg call s = some s')
    (hclosed : s.closed ∨ call = .close) : s'.closed := by
  have hrelease : ∀ p caller stats, ({ s with stats }.releaseCall p caller).closed = s.closed := by
    intro p caller stats
    simp only [State.releaseCall]
    split_ifs <;> rfl
  simp only [callStep] at hstep
  split_ifs at hstep
  cases call with
  | close =>
    simp only [beginCall] at hstep
    split_ifs at hstep with hc <;> cases hstep
    · exact hc
    · rfl
  | drain | retain | read =>
    simp only [beginCall] at hstep
    split_ifs at hstep <;> cases hstep <;> simpa [State.finish] using hclosed
  | wake =>
    cases hstep
    simpa using hclosed
  | respond p verdict =>
    simp only [beginCall] at hstep
    split_ifs at hstep
    · cases hstep
      simpa [State.finish] using hclosed
    · split at hstep <;> cases hstep <;> simpa [State.finish] using hclosed
  | release p =>
    simp only [beginCall] at hstep
    split_ifs at hstep
    cases hstep
    rw [hrelease p .method s.stats]
    simpa using hclosed
  | autoRelease p =>
    simp only [beginCall] at hstep
    split_ifs at hstep <;> cases hstep
    · simpa [State.finish] using hclosed
    · rw [hrelease p .method s.stats]
      simpa using hclosed
  | free p =>
    simp only [beginCall] at hstep
    split_ifs at hstep <;> cases hstep <;> rw [hrelease] <;> simpa using hclosed

theorem rubyStep_closed (hstep : rubyStep cfg i s = some s') : s'.closed = s.closed := by
  cases hpc : s.ruby with
  | idle => simp [rubyStep, hpc] at hstep
  | drainDelivered | drainClear | drainDepth | stopWatchdog | storeDeleteReady | disarm
  | queueDisarm | answerSend | closeSend | releaseMessage | closeMessage =>
    simp only [rubyStep, hpc, Option.some.injEq] at hstep
    subst hstep
    rfl
  | drainRead | drainDepthDequeue | answerOccupied | answerExchange | closeExchange =>
    simp only [rubyStep, hpc] at hstep
    split_ifs at hstep <;> cases hstep <;> rfl
  | awaitReaders | queueAwait | awaitCallbacks | awaitWatchdog | join =>
    simp only [rubyStep, hpc, Option.some.injEq] at hstep
    subst hstep
    split_ifs <;> rfl
  | notify caller =>
    simp only [rubyStep, hpc] at hstep
    split_ifs at hstep <;> cases hstep
    · cases caller <;> rfl
    · rfl
  | notifyWrite caller =>
    simp only [rubyStep, hpc, Option.some.injEq] at hstep
    subst hstep
    cases caller <;> rfl
  | drainDequeue left batch pc | closeDequeue pc =>
    simp only [rubyStep, hpc, Queue.dequeue] at hstep
    cases hres : s.queue.ring.takeStep i.spurious pc <;>
      simp only [hres, Option.some.injEq] at hstep <;> subst hstep <;> rfl
  | respondClosed p caller | respondExchange p caller =>
    simp only [rubyStep, hpc] at hstep
    split_ifs at hstep <;> cases hstep <;> first | rfl | (cases caller <;> rfl)
  | respondSend p caller =>
    simp only [rubyStep, hpc, Option.some.injEq] at hstep
    subst hstep
    cases caller <;> rfl
  | queueStore p caller =>
    simp only [rubyStep, hpc] at hstep
    cases caller <;> cases hstep <;> rfl

/-- A closed client stays closed. -/
theorem step_closed {a : Action} (hstep : step cfg a s = some s') (hclosed : s.closed) :
    s'.closed := by
  cases a with
  | callback k input => rw [(callbackStep_records hstep).closed, hclosed]
  | watchdog input => rw [(watchdogStep_records hstep).closed, hclosed]
  | call call => exact callStep_closed hstep (.inl hclosed)
  | ruby input => rw [rubyStep_closed hstep, hclosed]

end EndpointSecurity
