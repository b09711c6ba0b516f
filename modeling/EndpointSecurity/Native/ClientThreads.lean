import EndpointSecurity.Native.Client

/-!
# The threads of a client (`client.c`, `watchdog.c`, `message.c`)

The next step of each thread, and the transition function of the client.
-/

namespace EndpointSecurity

/-- What the surroundings decide about one step. -/
structure Input where
  /-- The reading of the absolute clock, where the step makes one. -/
  clock : Nat := 0
  /-- A weak compare-and-set fails although the word has the expected value. -/
  spurious : Bool := false
  /-- Endpoint Security accepts the response, or deletes the native client. -/
  success : Bool := true
  /-- `pthread_cond_wait` returns although nobody has broadcast. -/
  wakes : Bool := false
  /-- There is memory for an array as long as the maximum of a drain. -/
  memory : Bool := true
  deriving DecidableEq, Repr

namespace State

/-- `esrb_send_response` for message `m`, through the native client `client`. -/
def sendResponse (s : State) (cfg : Config) (i : Input) (client m : Nat) (sender : Sender)
    (a : Answer) : State :=
  let responseErrors := if i.success then s.stats.responseErrors else s.stats.responseErrors + 1
  { s with
    stats := { s.stats with responseErrors }
    history := s.history.record m (.respond client sender (cfg.response m a)) }

/-- The callback of message `m` sends the default answer to a message that it cannot queue, if
    that is an AUTH message. -/
def respondUnqueued (s : State) (cfg : Config) (i : Input) (m : Nat) : State :=
  if cfg.isAuth m then
    s.sendResponse cfg i (cfg.arrivals m).client m .callback cfg.defaultAnswer
  else s

/-- `esrb_send_response` for the message in the slot with index `slot`, by the thread that has
    won the exchange for position `p`. -/
def sendSlot (s : State) (cfg : Config) (i : Input) (slot p : Nat) (sender : Sender) (a : Answer) :
    State :=
  let s' := s.sendResponse cfg i (s.queue.slots slot).client (s.queue.slots slot).message sender a
  { s' with history := s'.history.send p none }

/-- The exchange of the answer state of the slot with index `slot` from pending to answered
    succeeds; the slot is that of position `p`. -/
def answer (s : State) (slot p : Nat) (thread : Thread) : State :=
  { s with
    queue := s.queue.storeAnswerState slot .answered
    history := s.history.send p (some thread) }

/-- The exchange of `esrb_notify` succeeds. -/
def setNotified (s : State) : State := { s with notified := true }

/-- The write of `esrb_notify`, which fails when the pipe is full. -/
def writePipe (s : State) (cfg : Config) : State :=
  { s with pipe := if s.pipe < cfg.pipeLimit then s.pipe + 1 else s.pipe }

end State

/-! ## `handle_message` -/

/-- The next step of the `k`-th call of `handle_message`. -/
def callbackStep (cfg : Config) (k : Nat) (i : Input) (s : State) : Option State :=
  let goto (pc : CallbackPc) (s : State) : State :=
    { s with callback := Function.update s.callback k pc }
  let message := cfg.arrivals k
  match s.callback k with
  | .absent => some (goto .loadClosed { s with activeCallbacks := s.activeCallbacks + 1 })
  | .loadClosed => some (goto (if s.closed then .refuse else .retain) s)
  -- The refused message is neither retained nor queued, but an auth message is answered.
  | .refuse => some (goto (.leave .refused) (s.respondUnqueued cfg i k))
  | .retain => some (goto (.enqueue .load) { s with history := s.history.record k .retain })
  | .enqueue pc =>
    -- One step is one pass of the loop of `esrb_queue_enqueue`, up to its next atomic access.
    match s.queue.enqueue i.spurious pc with
    | .running pc' => some (goto (.enqueue pc') s)
    | .got p => some (goto (.fill p) { s with
        queue := (s.queue.advanceEnqueue p).storePosition p
        history := s.history.claim k p })
    | .none => some (goto .overflow s)
  -- The queue is full: the message is answered by default before it is counted as dropped.
  | .overflow => some (goto .drop (s.respondUnqueued cfg i k))
  | .drop => some (goto (.leave .dropped) { s with
      stats := { s.stats with dropped := s.stats.dropped + 1 }
      history := s.history.record k .release })
  | .fill p =>
    let fireAt :=
      if message.isAuth then
        deadlineFireTime cfg.margin cfg.minMarginTicks i.clock message.deadline
      else 2 ^ 64 - 1
    let answerState := if message.isAuth then AnswerState.pending else .notAuth
    -- The plain fields of the slot are nobody else's until `occupied` is set.
    some (goto (.storeOccupied p) { s with
      queue := (s.queue.storeFields p k message.client fireAt).storeAnswerState (s.queue.index p)
        answerState
      history := (s.history.enter p .filled).due p fireAt })
  | .storeOccupied p =>
    some (goto (if message.isAuth then .arm p .load else .loadDequeue p) { s with
      queue := s.queue.storeOccupied p true
      history := s.history.enter p .marked })
  | .arm p pc =>
    match s.requests.arm i.spurious pc with
    | .running pc' => some (goto (.arm p pc') s)
    | .got t => some (goto (.publishRequest p t) { s with
        requests := s.requests.advanceEnqueue t
        history := s.history.arm p t })
    -- The request ring is full: nobody will time this slot out, so it is answered here.
    | .none => some (goto (.answer p) s)
  | .publishRequest p t =>
    let slot := s.queue.slot p
    let entry : Entry :=
      { slot := s.queue.index p, position := slot.position, fireAt := slot.fireAt, message := k }
    some (goto (.loadDequeue p) { s with
      requests := s.requests.publish t entry
      history := s.history.passTicket t .published })
  | .answer p =>
    if (s.queue.slot p).answerState = .pending then
      some (goto (.respond p) (s.answer (s.queue.index p) p .callback))
    else some (goto (.loadDequeue p) s)
  | .respond p =>
    some (goto (.loadDequeue p)
      (s.sendSlot cfg i (s.queue.index p) p .callback cfg.defaultAnswer))
  | .loadDequeue p =>
    some (goto (.loadDepthMax p (s.queue.publishDepth p s.queue.dequeuePosition)) s)
  | .loadDepthMax p depth => some (goto (.raiseDepthMax p depth s.queue.depthMax) s)
  -- A failed exchange of `depth_max` loads the maximum that it has found.
  | .raiseDepthMax p depth maximum =>
    if depth > maximum then
      if s.queue.depthMax = maximum ∧ !i.spurious then
        some (goto (.storeSequence p) { s with queue := s.queue.storeDepthMax depth })
      else some (goto (.raiseDepthMax p depth s.queue.depthMax) s)
    else some (goto (.storeSequence p) s)
  | .storeSequence p => some (goto (.notify p) { s with
      queue := s.queue.storePublished p
      history := s.history.enter p .queued })
  | .notify p =>
    -- The exchange of `notified`: only the thread that sets it writes to the pipe.
    if s.notified then some (goto (.leave (.queued p)) s)
    else some (goto (.notifyWrite p) s.setNotified)
  | .notifyWrite p => some (goto (.leave (.queued p)) (s.writePipe cfg))
  | .leave outcome => some (goto (.returned outcome) { s with
      activeCallbacks := s.activeCallbacks - 1 })
  | .returned _ => none

/-! ## The watchdog -/

/-- The next step of the watchdog thread. -/
def watchdogStep (cfg : Config) (i : Input) (s : State) : Option State :=
  let goto (pc : WatchdogPc) (s : State) : State := { s with watchdog := pc }
  match s.watchdog with
  | .loadRunning => some (goto (if s.watchdogRunning then .popLoad else .exiting) s)
  | .popLoad => some (goto (.popSequence s.requests.dequeuePosition) s)
  -- `request_pop`: without a published request the pass goes on to the clock.
  | .popSequence t => some (goto (if s.requests.ready t then .popStore t else .clock) s)
  | .popStore t => some (goto (.popRelease t (s.requests.request t).entry) { s with
      requests := s.requests.advanceDequeue t
      history := s.history.passTicket t .taken })
  | .popRelease t request => some (goto .popLoad { s with
      requests := s.requests.release t
      heap := s.heap.set request
      history := s.history.passTicket t .released })
  | .clock =>
    -- The loop over due entries. `esrb_watchdog_main` reads the clock anew before each test.
    let top := s.heap.entries 0
    if s.heap.size > 0 ∧ top.fireAt ≤ i.clock then
      some (goto (.loadOccupied top i.clock) { s with heap := s.heap.remove 0 })
    else some (goto .wait s)
  | .loadOccupied entry now =>
    -- `answer_due`: an entry whose slot is no longer occupied is passed over.
    some (goto (if (s.queue.slots entry.slot).occupied then .addReader entry now else .clock) s)
  | .addReader entry now => some (goto (.recheck entry now) { s with
      queue := s.queue.storeReaders entry.slot ((s.queue.slots entry.slot).readers + 1) })
  | .recheck entry now =>
    -- The slot may have been released and claimed again since the entry was armed.
    let slot := s.queue.slots entry.slot
    if !slot.occupied || slot.position ≠ entry.position then some (goto (.subReader entry) s)
    else some (goto (.exchange entry now) s)
  | .exchange entry now =>
    -- The exchange of the answer state: who loses it must not answer.
    if (s.queue.slots entry.slot).answerState = .pending then
      some (goto (.respond entry now) (s.answer entry.slot entry.position .watchdog))
    else some (goto (.subReader entry) s)
  | .respond entry now =>
    let s' := s.sendSlot cfg i entry.slot entry.position (.watchdog entry now) cfg.defaultAnswer
    some (goto (.count entry) s')
  | .count entry => some (goto (.notify entry) { s with
      stats := { s.stats with timeouts := s.stats.timeouts + 1 } })
  | .notify entry =>
    if s.notified then some (goto (.subReader entry) s)
    else some (goto (.notifyWrite entry) s.setNotified)
  | .notifyWrite entry => some (goto (.subReader entry) (s.writePipe cfg))
  | .subReader entry => some (goto .clock { s with
      queue := s.queue.storeReaders entry.slot ((s.queue.slots entry.slot).readers - 1) })
  -- The timed wait ends by the signal or by the timeout, it does not matter which.
  | .wait => some (goto .loadRunning s)
  | .exiting => some (goto .stopped { s with watchdogStopped := true })
  -- The mutex makes one step of the test and of the beginning of the wait.
  | .stopped => some (goto (if s.deleteReady then .deleting else .asleep) s)
  | .asleep =>
    if s.signalled || i.wakes then some (goto .stopped { s with signalled := false }) else none
  | .deleting =>
    let deleteErrors := if i.success then s.stats.deleteErrors else s.stats.deleteErrors + 1
    some (goto .deleted { s with stats := { s.stats with deleteErrors } })
  | .deleted => none

/-! ## The native methods of Ruby -/

/-- The methods of a client and of its messages that touch shared memory. A message is named
    by the position whose slot it wraps. -/
inductive Call where
  | drain (maximum : Int)
  | wake
  | close
  | respond (p : Nat) (verdict : Verdict)
  /-- A method of the message, or of a view of it, that reads the native message. -/
  | read (p : Nat)
  | retain (p : Nat)
  | release (p : Nat)
  | autoRelease (p : Nat)
  /-- The garbage collector frees the message while the client exists. -/
  | free (p : Nat)
  deriving DecidableEq, Repr

namespace State

/-- A native method returns. -/
def finish (s : State) (result : RubyResult) : State := { s with ruby := .idle, result }

/-- `esrb_respond_slot` returns to its caller: `sent` when it has responded, `success` when
    Endpoint Security has accepted the response. -/
def respondReturn (s : State) (cfg : Config) (p : Nat) (sent success : Bool) :
    RespondCaller → State
  | .method call answer raises =>
    let result := if sent && !success && raises then RubyResult.raised .responseFailed
      else .bool (sent && success)
    let m := (s.wrapper p).message
    let returned : Returned :=
      { call, message := m, response := cfg.response m answer, value := result = .bool true }
    { s.finish result with
      history := { s.history with returned := returned :: s.history.returned } }
  | .release caller => { s with ruby := .disarm p caller }

/-- `message_release` returns, having released the slot of position `p` or found it released. -/
def releaseReturn (s : State) (p : Nat) (caller : ReleaseCaller) : State :=
  let w := s.wrapper p
  let w := { w with valid := false, live := w.live && caller = .method }
  { s.finish .nil with wrapper := Function.update s.wrapper p w }

/-- `message_release` begins. -/
def releaseCall (s : State) (p : Nat) (caller : ReleaseCaller) : State :=
  if (s.wrapper p).valid then { s with ruby := .respondClosed p (.release caller) }
  else s.releaseReturn p caller

/-- `esrb_notify` returns to the method that has called it. -/
def notifyReturn (s : State) : NotifyCaller → State
  | .drain batch => s.finish (.messages batch)
  | .wake | .close => s.finish .nil

end State

/-- A native method is called, and runs up to its first access of an atomic word. -/
def beginCall (cfg : Config) (s : State) : Call → Option State
  | .drain maximum =>
    -- `NUM2LONG` and `get_open_client` raise before the pipe is read.
    if !isLong maximum then some (s.finish (.raised .notLong))
    else if s.closed then some (s.finish (.raised .clientClosed))
    else some { s with ruby := .drainRead maximum }
  | .wake => some { s with ruby := .notify .wake }
  | .close =>
    -- A second `close` finds the exchange of `closed` lost, and returns.
    if s.closed then some (s.finish .nil)
    else some { s with closed := true, ruby := .awaitCallbacks }
  | .respond p verdict =>
    let w := s.wrapper p
    let m := (s.queue.slot p).message
    if !w.live then none
    else if !w.valid then some (s.finish (.raised .messageReleased))
    -- The verdict is checked against the native message, which the check reads.
    else match cfg.check m verdict with
      | .error error => some { s.finish (.raised error) with
          history := s.history.record m (.read p) }
      | .ok answer => some { s with
          ruby := .respondClosed p (.method s.history.calls answer (verdict ≠ .default))
          history := { s.history.record m (.read p) with calls := s.history.calls + 1 } }
  | .read p =>
    let w := s.wrapper p
    if !w.live then none
    else if !w.valid then some (s.finish (.raised .messageReleased))
    else some { s.finish .nil with
      history := s.history.record (s.queue.slot p).message (.read p) }
  | .retain p =>
    let w := s.wrapper p
    if !w.live then none
    else if !w.valid then some (s.finish (.raised .messageReleased))
    else some { s.finish .nil with
      wrapper := Function.update s.wrapper p { w with held := true } }
  | .release p => if (s.wrapper p).live then some (s.releaseCall p .method) else none
  | .autoRelease p =>
    let w := s.wrapper p
    if !w.live then none
    -- `auto_release` leaves a message that the handler has retained.
    else if w.held then some (s.finish .nil)
    else some (s.releaseCall p .method)
  | .free p =>
    let w := s.wrapper p
    -- A held message that is collected counts as leaked, and is released all the same.
    let leaked := if w.valid && w.held then 1 else 0
    let stats := { s.stats with leakedMessages := s.stats.leakedMessages + leaked }
    if w.live then some ({ s with stats }.releaseCall p .free) else none

/-- A Ruby thread calls a native method. -/
def callStep (cfg : Config) (call : Call) (s : State) : Option State :=
  if s.ruby = .idle then beginCall cfg s call else none

/-- Where the loop of `client_drain` goes on with `left` passes to make. -/
def drainNext (left : Nat) (batch : List Nat) : RubyPc :=
  if left = 0 then .drainClear batch else .drainDequeue left batch .load

/-- The next step of the native method that is being executed. -/
def rubyStep (cfg : Config) (i : Input) (s : State) : Option State :=
  let goto (pc : RubyPc) (s : State) : State := { s with ruby := pc }
  match s.ruby with
  | .idle => none
  | .drainRead maximum =>
    -- A `read` takes up to a buffer of bytes, and is repeated until the pipe is empty.
    let count := min 256 s.pipe
    if count > 0 then some { s with pipe := s.pipe - count }
    -- `rb_ary_new_capa` raises when the pipe is empty already and `notified` still set.
    else if maximum < 0 then some (s.finish (.raised .negativeArray))
    else if maximum > arrayMax then some (s.finish (.raised .arrayTooBig))
    else if !i.memory then some (s.finish (.raised .noMemory))
    else some (goto (drainNext maximum.toNat []) s)
  | .drainDequeue left batch pc =>
    match s.queue.dequeue i.spurious pc with
    | .running pc' => some (goto (.drainDequeue left batch pc') s)
    | .got p =>
      -- `esrb_message_wrap` makes the Ruby object of the slot.
      let wrapper : Wrapper :=
        { live := true, valid := true, held := false, message := (s.queue.slot p).message }
      some (goto (.drainDelivered left (batch ++ [p])) { s with
        queue := s.queue.advanceDequeue p
        wrapper := Function.update s.wrapper p wrapper
        history := s.history.enter p .taken })
    | .none => some (goto (.drainClear batch) s)
  | .drainDelivered left batch => some (goto (drainNext (left - 1) batch) { s with
      stats := { s.stats with delivered := s.stats.delivered + 1 } })
  | .drainClear batch => some (goto (.drainDepth batch) { s with notified := false })
  | .drainDepth batch => some (goto (.drainDepthDequeue batch s.queue.enqueuePosition) s)
  | .drainDepthDequeue batch enqueued =>
    -- The depth is computed from two loads, between which the other threads may run.
    if Queue.depth enqueued s.queue.dequeuePosition > 0 then
      some (goto (.notify (.drain batch)) s)
    else some (s.finish (.messages batch))
  | .notify caller =>
    if s.notified then some (s.notifyReturn caller)
    else some (goto (.notifyWrite caller) s.setNotified)
  | .notifyWrite caller => some ((s.writePipe cfg).notifyReturn caller)
  | .respondClosed p caller =>
    -- After `close` has begun, only `close` answers.
    if s.closed then some (s.respondReturn cfg p false false caller)
    else some (goto (.respondExchange p caller) s)
  | .respondExchange p caller =>
    if (s.queue.slot p).answerState = .pending then
      some (goto (.respondSend p caller) (s.answer (s.queue.index p) p .ruby))
    else some (s.respondReturn cfg p false false caller)
  | .respondSend p caller =>
    let s' := s.sendSlot cfg i (s.queue.index p) p caller.sender (caller.answer cfg)
    some (s'.respondReturn cfg p true i.success caller)
  | .disarm p caller => some (goto (.awaitReaders p caller) { s with
      queue := s.queue.storeOccupied p false
      history := s.history.enter p .disarmed })
  | .awaitReaders p caller =>
    -- `esrb_queue_disarm` spins until the watchdog has left the slot.
    some (if (s.queue.slot p).readers ≠ 0 then s else goto (.releaseMessage p caller) s)
  | .releaseMessage p caller => some (goto (.queueDisarm p (.release caller)) { s with
      history := (s.history.record (s.queue.slot p).message .release).enter p .unreferenced })
  -- `esrb_queue_release` disarms the slot a second time.
  | .queueDisarm p caller => some (goto (.queueAwait p caller) { s with
      queue := s.queue.storeOccupied p false
      history := s.history.enter p .cleared })
  | .queueAwait p caller =>
    some (if (s.queue.slot p).readers ≠ 0 then s else goto (.queueStore p caller) s)
  | .queueStore p caller =>
    let s := { s with
      queue := s.queue.storeReleased p
      history := s.history.enter p .released }
    match caller with
    | .release caller => some (s.releaseReturn p caller)
    | .close => some (goto (.closeDequeue .load) s)
  | .awaitCallbacks => some (if s.activeCallbacks ≠ 0 then s else goto .stopWatchdog s)
  | .stopWatchdog => some (goto .awaitWatchdog { s with watchdogRunning := false })
  | .awaitWatchdog => some (if s.watchdogStopped then goto (.answerOccupied 0) s else s)
  | .answerOccupied index =>
    -- `client_answer_occupied` walks over the slots, not over the positions.
    if index < s.queue.capacity then
      if (s.queue.slots index).occupied then some (goto (.answerExchange index) s)
      else some (goto (.answerOccupied (index + 1)) s)
    else some (goto (.closeDequeue .load) s)
  | .answerExchange index =>
    if (s.queue.slots index).answerState = .pending then
      some (goto (.answerSend index) (s.answer index (s.queue.slots index).position .ruby))
    else some (goto (.answerOccupied (index + 1)) s)
  | .answerSend index =>
    some (goto (.answerOccupied (index + 1))
      (s.sendSlot cfg i index (s.queue.slots index).position .close cfg.defaultAnswer))
  | .closeDequeue pc =>
    -- `client_drain_and_release` ends when a dequeue finds the queue empty.
    match s.queue.dequeue i.spurious pc with
    | .running pc' => some (goto (.closeDequeue pc') s)
    | .got p => some (goto (.closeExchange p) { s with
        queue := s.queue.advanceDequeue p
        history := s.history.enter p .drained })
    | .none => some (goto .storeDeleteReady s)
  | .closeExchange p =>
    if (s.queue.slot p).answerState = .pending then
      some (goto (.closeSend p) (s.answer (s.queue.index p) p .ruby))
    else some (goto (.closeMessage p) s)
  | .closeSend p =>
    some (goto (.closeMessage p)
      (s.sendSlot cfg i (s.queue.index p) p .close cfg.defaultAnswer))
  | .closeMessage p => some (goto (.queueDisarm p .close) { s with
      history := (s.history.record (s.queue.slot p).message .release).enter p .unreferenced })
  -- The mutex makes one step of the store and of the broadcast, which wakes nobody but a thread
  -- that is asleep.
  | .storeDeleteReady => some (goto .join { s with
      deleteReady := true
      signalled := s.watchdog = .asleep })
  -- `pthread_join` returns once the thread of the client has deleted it.
  | .join => some (if s.watchdog = .deleted then goto (.notify .close) s else s)

/-! ## The client -/

inductive Action where
  /-- The `k`-th call of `handle_message` makes a step. -/
  | callback (k : Nat) (input : Input)
  | watchdog (input : Input)
  /-- A Ruby thread calls a native method, unless one is being executed. -/
  | call (call : Call)
  /-- The native method that is being executed makes a step. -/
  | ruby (input : Input)
  deriving DecidableEq, Repr

def step (cfg : Config) : Action → State → Option State
  | .callback k input, s => callbackStep cfg k input s
  | .watchdog input, s => watchdogStep cfg input s
  | .call call, s => callStep cfg call s
  | .ruby input, s => rubyStep cfg input s

end EndpointSecurity
