import EndpointSecurity.Spec.ClientSlots

/-!
# The dispatcher is always woken up

`esrb_notify` writes a byte to the wakeup pipe only when it is the one to set `notified`, and
`__drain` empties the pipe long before it clears `notified`. The invariant says who answers for
the byte while `notified` is set, and who answers for `notified` while something is queued. A
`__drain` that raises in between, because its array would be too big, breaks it.

## Key results

- `reachable_wakeup`: the invariant holds as long as every array that `__drain` asks for fits
- `no_lost_wakeup`: with everybody at rest, the pipe is readable while something is queued
- `wakeup_lost`: a drain of too many messages raises with the pipe emptied and `notified` set
-/

namespace EndpointSecurity

open TransitionSystem (Reachable restrict restrict_eq_some)

/-- Between the claim of a position and the exchange of `notified`. -/
def CallbackPc.owes : CallbackPc → Bool
  | .fill _ | .storeOccupied _ | .arm _ _ | .publishRequest _ _ | .answer _ | .respond _
  | .loadDequeue _ | .loadDepthMax _ _ | .raiseDepthMax _ _ _ | .storeSequence _ | .notify _ => true
  | .absent | .loadClosed | .refuse | .retain | .enqueue _ | .overflow | .drop | .notifyWrite _
  | .leave _ | .returned _ => false

/-- Between the exchange of `notified` and the write to the pipe. -/
def CallbackPc.writing : CallbackPc → Bool
  | .notifyWrite _ => true
  | _ => false

/-- Between the exchange of `notified` and the write to the pipe. -/
def WatchdogPc.writing : WatchdogPc → Bool
  | .notifyWrite _ => true
  | _ => false

/-- Between the exchange of `notified` and the write to the pipe. -/
def RubyPc.writing : RubyPc → Bool
  | .notifyWrite _ => true
  | _ => false

/-- `__drain` is emptying the pipe or has, and `notified` is not cleared yet. -/
def RubyPc.emptying : RubyPc → Bool
  | .drainRead _ | .drainDequeue _ _ _ | .drainDelivered _ _ | .drainClear _ => true
  | _ => false

/-- `__drain` is being executed. -/
def RubyPc.draining : RubyPc → Bool
  | .drainRead _ | .drainDequeue _ _ _ | .drainDelivered _ _ | .drainClear _ | .drainDepth _
  | .drainDepthDequeue _ _ | .notify (.drain _) | .notifyWrite (.drain _) => true
  | _ => false

/-- `__drain` has cleared `notified` and will find out that something is queued. -/
def RubyPc.rechecks (dequeued : Nat) : RubyPc → Prop
  | .drainDepth _ | .notify (.drain _) => True
  | .drainDepthDequeue _ enqueued => dequeued < enqueued
  | _ => False

/-- The invariant of every run. -/
structure Wakeup (s : State) : Prop where
  /-- While `notified` is set, the pipe is readable, or somebody will write to it, or `__drain`
      will clear `notified`. -/
  readable : s.notified → 0 < s.pipe ∨ (∃ k, (s.callback k).writing) ∨ s.watchdog.writing ∨
    s.ruby.writing ∨ s.ruby.emptying
  /-- While something is claimed and not dequeued, `notified` is set, or the claimer will see to
      it, or `__drain` will. -/
  notified : s.queue.dequeuePosition < s.queue.enqueuePosition → s.notified ∨
    (∃ k, (s.callback k).owes) ∨ s.ruby.rechecks s.queue.dequeuePosition
  /-- The enqueue position that `__drain` has loaded. -/
  loaded : ∀ batch enqueued, s.ruby = .drainDepthDequeue batch enqueued →
    s.queue.dequeuePosition ≤ enqueued ∧ enqueued ≤ s.queue.enqueuePosition
  /-- `rb_ary_new_capa` will not raise. -/
  fits : ∀ maximum, s.ruby = .drainRead maximum → 0 ≤ maximum ∧ maximum ≤ arrayMax

theorem wakeup_init (cfg : Config) : Wakeup (.init cfg) :=
  ⟨by simp [State.init], by simp [State.init, Queue.init], by simp [State.init],
    by simp [State.init]⟩

/-! ## One step -/

variable {cfg : Config} {s s' : State} {k : Nat} {i : Input}

/-- After the write of `esrb_notify`, the pipe is readable, whether or not it was full. -/
theorem State.writePipe_pos (s : State) (cfg : Config) : 0 < (s.writePipe cfg).pipe := by
  have := cfg.pipeLimit_pos
  simp only [State.writePipe]
  split_ifs <;> omega

/-- A step of a callback. It may advance the enqueue position, when it owes a notification from
    then on; set `notified`, when it writes from then on; and write to the pipe. -/
theorem Wakeup.callback (h : Wakeup s) {pc : CallbackPc}
    (hcallback : s'.callback = Function.update s.callback k pc)
    (henq : s'.queue.enqueuePosition = s.queue.enqueuePosition ∨
      s.queue.enqueuePosition ≤ s'.queue.enqueuePosition ∧ pc.owes)
    (hnotified : s'.notified = s.notified ∨ s'.notified = true ∧ pc.writing)
    (howes : (s.callback k).owes → pc.owes ∨ s'.notified)
    (hpipe : s'.pipe = s.pipe ∧ (s.callback k).writing = false ∨ 0 < s'.pipe)
    (hsame : s'.queue.dequeuePosition = s.queue.dequeuePosition ∧ s'.watchdog = s.watchdog ∧
      s'.ruby = s.ruby := by exact ⟨rfl, rfl, rfl⟩) : Wakeup s' := by
  obtain ⟨hdeq, hwatchdog, hruby⟩ := hsame
  have hself : s'.callback k = pc := by rw [hcallback, Function.update_self]
  have hother : ∀ j, j ≠ k → s'.callback j = s.callback j := fun j hj => by
    rw [hcallback, Function.update_of_ne hj]
  refine ⟨fun hn => ?_, fun hlt => ?_, fun batch e he => ?_, hruby ▸ h.fits⟩
  · rw [hwatchdog, hruby]
    rcases hpipe with ⟨hpipe, hidle⟩ | hpos
    · rcases hnotified with hsame | ⟨-, hwriting⟩
      -- The byte is where it was, or its writer is, and that is not this callback
      · rcases h.readable (hsame ▸ hn) with hpos | ⟨j, hj⟩ | hrest
        · exact .inl (hpipe ▸ hpos)
        · have hne : j ≠ k := by rintro rfl; simp [hidle] at hj
          exact .inr (.inl ⟨j, by rwa [hother j hne]⟩)
        · exact .inr (.inr hrest)
      -- This callback has set the flag and writes next
      · exact .inr (.inl ⟨k, by rwa [hself]⟩)
    · exact .inl hpos
  · rw [hdeq, hruby]
    rcases henq with henq | ⟨-, howes⟩
    · rw [hdeq, henq] at hlt
      rcases h.notified hlt with hn | ⟨j, hj⟩ | hrest
      -- A flag that was set is still set, as callbacks never clear it
      · left
        rcases hnotified with hsame | ⟨hset, -⟩
        · exact hsame.trans hn
        · exact hset
      -- The callback that owes a notification is this one or another
      · rcases eq_or_ne j k with rfl | hne
        · rcases howes hj with howes | hn
          · exact .inr (.inl ⟨j, by rwa [hself]⟩)
          · exact .inl hn
        · exact .inr (.inl ⟨j, by rwa [hother j hne]⟩)
      · exact .inr (.inr hrest)
    -- A claim makes this callback owe one
    · exact .inr (.inl ⟨k, by rwa [hself]⟩)
  · obtain ⟨hle, hle'⟩ := h.loaded batch e (hruby ▸ he)
    exact ⟨hdeq ▸ hle, by rcases henq with henq | ⟨henq, -⟩ <;> omega⟩

theorem callbackStep_wakeup (hslots : SlotsInv cfg s) (h : Wakeup s)
    (hstep : callbackStep cfg k i s = some s') : Wakeup s' := by
  cases hpc : s.callback k with
  | absent | retain | drop | fill | publishRequest | respond | loadDequeue | loadDepthMax
  | storeSequence | leave =>
    simp only [callbackStep, hpc, Option.some.injEq] at hstep
    subst hstep
    exact h.callback rfl (.inl rfl) (.inl rfl) (by simp [hpc, CallbackPc.owes])
      (.inl ⟨rfl, by rw [hpc]; rfl⟩)
  | loadClosed =>
    simp only [callbackStep, hpc, Option.some.injEq] at hstep
    subst hstep
    exact h.callback (k := k) rfl (.inl rfl) (.inl rfl) (by simp [hpc, CallbackPc.owes])
      (.inl ⟨rfl, by rw [hpc]; rfl⟩)
  | refuse | overflow =>
    simp only [callbackStep, hpc, Option.some.injEq] at hstep
    obtain ⟨stats, log, heq⟩ := s.respondUnqueued_eq cfg i k
    rw [heq] at hstep
    subst hstep
    exact h.callback rfl (.inl rfl) (.inl rfl) (by simp [hpc, CallbackPc.owes])
      (.inl ⟨rfl, by rw [hpc]; rfl⟩)
  | enqueue pc =>
    have hloop := SeqRing.Ring.ClaimOk.step i.spurious (hslots.claiming k pc hpc)
    simp only [callbackStep, hpc, Queue.enqueue] at hstep
    cases hres : s.queue.ring.claimStep i.spurious pc <;>
      simp only [hres, Option.some.injEq] at hstep hloop <;> subst hstep
    case got p =>
      -- The claim of a position is the only step that lengthens the queue
      obtain ⟨rfl, -⟩ := hloop
      exact h.callback rfl (.inr ⟨Nat.le_succ _, rfl⟩) (.inl rfl) (by simp [hpc, CallbackPc.owes])
        (.inl ⟨rfl, by rw [hpc]; rfl⟩)
    all_goals
      exact h.callback rfl (.inl rfl) (.inl rfl) (by simp [hpc, CallbackPc.owes])
        (.inl ⟨rfl, by rw [hpc]; rfl⟩)
  | storeOccupied p =>
    simp only [callbackStep, hpc, Option.some.injEq] at hstep
    subst hstep
    split <;>
      exact h.callback rfl (.inl rfl) (.inl rfl) (fun _ => .inl rfl) (.inl ⟨rfl, by rw [hpc]; rfl⟩)
  | arm p pc =>
    simp only [callbackStep, hpc] at hstep
    cases hres : s.requests.arm i.spurious pc <;> simp only [hres, Option.some.injEq] at hstep <;>
      subst hstep
    all_goals
      exact h.callback rfl (.inl rfl) (.inl rfl) (fun _ => .inl rfl) (.inl ⟨rfl, by rw [hpc]; rfl⟩)
  | answer | raiseDepthMax =>
    simp only [callbackStep, hpc] at hstep
    split_ifs at hstep <;> cases hstep <;>
      exact h.callback rfl (.inl rfl) (.inl rfl) (fun _ => .inl rfl) (.inl ⟨rfl, by rw [hpc]; rfl⟩)
  | notify p =>
    simp only [callbackStep, hpc] at hstep
    split_ifs at hstep with hn <;> cases hstep
    -- The flag was set before, so whoever has set it answers for the byte
    · exact h.callback rfl (.inl rfl) (.inl rfl) (fun _ => .inr hn) (.inl ⟨rfl, by rw [hpc]; rfl⟩)
    · exact h.callback rfl (.inl rfl) (.inr ⟨rfl, rfl⟩) (fun _ => .inr rfl)
        (.inl ⟨rfl, by rw [hpc]; rfl⟩)
  | notifyWrite p =>
    simp only [callbackStep, hpc, Option.some.injEq] at hstep
    subst hstep
    exact h.callback rfl (.inl rfl) (.inl rfl) (by simp [hpc, CallbackPc.owes])
      (.inr (s.writePipe_pos cfg))
  | returned => simp [callbackStep, hpc] at hstep

/-- A step of the watchdog. It may set `notified`, when it writes from then on, and write to the
    pipe. -/
theorem Wakeup.watchdog (h : Wakeup s)
    (hnotified : s'.notified = s.notified ∨ s'.notified = true ∧ s'.watchdog.writing)
    (hpipe : s'.pipe = s.pipe ∧ s.watchdog.writing = false ∨ 0 < s'.pipe)
    (hsame : s'.queue.dequeuePosition = s.queue.dequeuePosition ∧
      s'.queue.enqueuePosition = s.queue.enqueuePosition ∧ s'.callback = s.callback ∧
      s'.ruby = s.ruby := by exact ⟨rfl, rfl, rfl, rfl⟩) : Wakeup s' := by
  obtain ⟨hdeq, henq, hcallback, hruby⟩ := hsame
  refine ⟨fun hn => ?_, fun hlt => ?_, ?_, hruby ▸ h.fits⟩
  · rw [hcallback, hruby]
    rcases hpipe with ⟨hpipe, hidle⟩ | hpos
    · rcases hnotified with hsame | ⟨-, hwriting⟩
      · have := h.readable (hsame ▸ hn)
        simp only [hidle, Bool.false_eq_true, false_or] at this
        rw [hpipe]
        exact this.imp_right (.imp_right .inr)
      · exact .inr (.inr (.inl hwriting))
    · exact .inl hpos
  · rw [hdeq, hcallback, hruby]
    rw [hdeq, henq] at hlt
    rcases h.notified hlt with hn | hrest
    · left
      rcases hnotified with hsame | ⟨hset, -⟩
      · exact hsame.trans hn
      · exact hset
    · exact .inr hrest
  · rw [hdeq, henq, hruby]
    exact h.loaded

theorem watchdogStep_wakeup (h : Wakeup s) (hstep : watchdogStep cfg i s = some s') :
    Wakeup s' := by
  cases hpc : s.watchdog with
  | loadRunning | popLoad | popSequence | popStore | popRelease | loadOccupied | addReader
  | respond | count | subReader | wait | exiting | stopped | deleting =>
    simp only [watchdogStep, hpc, Option.some.injEq] at hstep
    subst hstep
    exact h.watchdog (.inl rfl) (.inl ⟨rfl, by rw [hpc]; rfl⟩)
  | clock | recheck | exchange | asleep =>
    simp only [watchdogStep, hpc] at hstep
    split_ifs at hstep <;> cases hstep <;>
      exact h.watchdog (.inl rfl) (.inl ⟨rfl, by rw [hpc]; rfl⟩)
  | notify entry =>
    simp only [watchdogStep, hpc] at hstep
    split_ifs at hstep <;> cases hstep
    · exact h.watchdog (.inl rfl) (.inl ⟨rfl, by rw [hpc]; rfl⟩)
    · exact h.watchdog (.inr ⟨rfl, rfl⟩) (.inl ⟨rfl, by rw [hpc]; rfl⟩)
  | notifyWrite entry =>
    simp only [watchdogStep, hpc, Option.some.injEq] at hstep
    subst hstep
    exact h.watchdog (.inl rfl) (.inr (s.writePipe_pos cfg))
  | deleted => simp [watchdogStep, hpc] at hstep

/-- A step of a native method. What holds of the old program counter and is not true of the new
    one must be made up for. -/
theorem Wakeup.ruby (h : Wakeup s)
    (hdeq : s.queue.dequeuePosition ≤ s'.queue.dequeuePosition)
    (hreadable : s'.notified → 0 < s'.pipe ∨ s'.ruby.writing ∨ s'.ruby.emptying ∨
      s.notified ∧ s'.pipe = s.pipe ∧ s.ruby.writing = false ∧ s.ruby.emptying = false)
    (hnotified : s'.queue.dequeuePosition < s'.queue.enqueuePosition →
      s'.notified ∨ s'.ruby.rechecks s'.queue.dequeuePosition ∨
        s'.notified = s.notified ∧ ¬ s.ruby.rechecks s.queue.dequeuePosition)
    (hloaded : ∀ batch enqueued, s'.ruby = .drainDepthDequeue batch enqueued →
      s'.queue.dequeuePosition ≤ enqueued ∧ enqueued ≤ s'.queue.enqueuePosition)
    (hfits : ∀ maximum, s'.ruby = .drainRead maximum → 0 ≤ maximum ∧ maximum ≤ arrayMax)
    (hsame : s'.queue.enqueuePosition = s.queue.enqueuePosition ∧ s'.callback = s.callback ∧
      s'.watchdog = s.watchdog := by exact ⟨rfl, rfl, rfl⟩) : Wakeup s' := by
  obtain ⟨henq, hcallback, hwatchdog⟩ := hsame
  refine ⟨fun hn => ?_, fun hlt => ?_, hloaded, hfits⟩
  · rw [hcallback, hwatchdog]
    rcases hreadable hn with hpos | hwriting | hemptying | ⟨hn, hpipe, hidle, hidle'⟩
    · exact .inl hpos
    · exact .inr (.inr (.inr (.inl hwriting)))
    · exact .inr (.inr (.inr (.inr hemptying)))
    · have := h.readable hn
      simp only [hidle, hidle', Bool.false_eq_true, or_false] at this
      rw [hpipe]
      exact this.imp_right (.imp_right .inl)
  · rw [hcallback]
    rcases hnotified hlt with hn | hrechecks | ⟨hn, hidle⟩
    · exact .inl hn
    · exact .inr (.inr hrechecks)
    · rcases h.notified (by omega) with hn' | howes | hrechecks
      · exact .inl (hn.trans hn')
      · exact .inr (.inl howes)
      · exact absurd hrechecks hidle

/-- A native method goes on without dequeuing anything and without touching `notified` or the
    pipe, neither before nor after in the middle of a drain. -/
theorem Wakeup.rubyCalm (h : Wakeup s)
    (hdeq : s.queue.dequeuePosition ≤ s'.queue.dequeuePosition)
    (hold : s.ruby.writing = false ∧ s.ruby.draining = false)
    (hnew : s'.ruby.draining = false ∨
      ∃ maximum, s'.ruby = .drainRead maximum ∧ 0 ≤ maximum ∧ maximum ≤ arrayMax)
    (hsame : s'.queue.enqueuePosition = s.queue.enqueuePosition ∧ s'.callback = s.callback ∧
      s'.watchdog = s.watchdog ∧ s'.notified = s.notified ∧ s'.pipe = s.pipe := by
        exact ⟨rfl, rfl, rfl, rfl, rfl⟩) : Wakeup s' := by
  obtain ⟨henq, hcallback, hwatchdog, hnotified, hpipe⟩ := hsame
  obtain ⟨hidle, hidle'⟩ := hold
  refine h.ruby hdeq (fun hn => ?_) (fun _ => ?_) ?_ ?_ ⟨henq, hcallback, hwatchdog⟩
  · refine .inr (.inr (.inr ⟨hnotified ▸ hn, hpipe, hidle, ?_⟩))
    cases hpc : s.ruby <;> simp_all [RubyPc.draining, RubyPc.emptying]
  · refine .inr (.inr ⟨hnotified, ?_⟩)
    -- Between two drains nothing is being tested again
    cases hpc : s.ruby with
    | notify caller => cases caller <;> simp_all [RubyPc.draining, RubyPc.rechecks]
    | _ => simp_all [RubyPc.draining, RubyPc.rechecks]
  · rintro batch enqueued heq
    rcases hnew with hnew | ⟨maximum, hnew, -⟩
    · simp [heq, RubyPc.draining] at hnew
    · cases heq.symm.trans hnew
  · intro maximum heq
    rcases hnew with hnew | ⟨maximum', hnew, hfits⟩
    · simp [heq, RubyPc.draining] at hnew
    · cases heq.symm.trans hnew
      exact hfits

/-- A step of `__drain` before it clears `notified`. -/
theorem Wakeup.rubyEmptying (h : Wakeup s)
    (hdeq : s.queue.dequeuePosition ≤ s'.queue.dequeuePosition) (hold : s.ruby.emptying)
    (hnew : s'.ruby.emptying)
    (hfits : ∀ maximum, s'.ruby = .drainRead maximum → s.ruby = .drainRead maximum)
    (hsame : s'.queue.enqueuePosition = s.queue.enqueuePosition ∧ s'.callback = s.callback ∧
      s'.watchdog = s.watchdog ∧ s'.notified = s.notified := by
        exact ⟨rfl, rfl, rfl, rfl⟩) : Wakeup s' := by
  obtain ⟨henq, hcallback, hwatchdog, hnotified⟩ := hsame
  refine h.ruby hdeq (fun _ => .inr (.inr (.inl hnew))) (fun _ => .inr (.inr ⟨hnotified, ?_⟩)) ?_
    (fun maximum heq => h.fits maximum (hfits maximum heq)) ⟨henq, hcallback, hwatchdog⟩
  · cases hpc : s.ruby <;> simp_all [RubyPc.emptying, RubyPc.rechecks]
  · rintro batch enqueued heq
    simp [heq, RubyPc.emptying] at hnew

theorem drainNext_emptying (left : Nat) (batch : List Nat) : (drainNext left batch).emptying := by
  rcases drainNext_eq left batch with hnext | hnext <;> rw [hnext] <;> rfl

/-- `__drain` has emptied the pipe and makes its array. -/
def State.makesArray (s : State) : Bool :=
  match s.ruby with
  | .drainRead _ => s.pipe = 0
  | _ => false

/-- No drain asks for an array that it cannot have, because it is too long or the memory is too
    small for it: a number that is no `long` is refused before. -/
def DrainsFit : Action → State → Prop
  | .call (.drain maximum), _ => 0 < maximum ∧ ¬(arrayMax < maximum ∧ maximum ≤ longMax)
  | .ruby input, s => s.makesArray → input.memory
  | _, _ => True

instance (a : Action) (s : State) : Decidable (DrainsFit a s) := by
  unfold DrainsFit
  split <;> infer_instance

theorem drainNext_ne_drainRead (left : Nat) (batch : List Nat) (maximum : Int) :
    drainNext left batch ≠ .drainRead maximum := by
  rcases drainNext_eq left batch with hnext | hnext <;> rw [hnext] <;> nofun

theorem callStep_wakeup {call : Call} (h : Wakeup s) (hfits : DrainsFit (.call call) s)
    (hstep : callStep cfg call s = some s') : Wakeup s' := by
  simp only [callStep] at hstep
  split_ifs at hstep with hidle
  have hold : s.ruby.writing = false ∧ s.ruby.draining = false := by rw [hidle]; exact ⟨rfl, rfl⟩
  have hrelease : ∀ p caller stats, Wakeup ({ s with stats }.releaseCall p caller) := by
    intro p caller stats
    simp only [State.releaseCall]
    split_ifs <;> exact h.rubyCalm (Nat.le_refl _) hold (.inl rfl)
  cases call with
  | drain maximum =>
    -- A number that is no `long` raises before the pipe is read, any other one fits
    obtain ⟨hpos, hnot⟩ := hfits
    simp only [beginCall] at hstep
    split_ifs at hstep with hlong hclosed <;> cases hstep
    · exact h.rubyCalm (Nat.le_refl _) hold (.inl rfl)
    · exact h.rubyCalm (Nat.le_refl _) hold (.inl rfl)
    · have hlong : isLong maximum := by simpa using hlong
      rw [isLong, decide_eq_true_eq] at hlong
      exact h.rubyCalm (Nat.le_refl _) hold (.inr ⟨maximum, rfl, by omega, by omega⟩)
  | close | read | retain =>
    simp only [beginCall] at hstep
    split_ifs at hstep <;> cases hstep <;> exact h.rubyCalm (Nat.le_refl _) hold (.inl rfl)
  | wake =>
    cases hstep
    exact h.rubyCalm (Nat.le_refl _) hold (.inl rfl)
  | respond p verdict =>
    simp only [beginCall] at hstep
    split_ifs at hstep
    · cases hstep
      exact h.rubyCalm (Nat.le_refl _) hold (.inl rfl)
    · split at hstep <;> cases hstep <;>
        exact h.rubyCalm (Nat.le_refl _) hold (.inl rfl)
  | release p =>
    simp only [beginCall] at hstep
    split_ifs at hstep
    cases hstep
    exact hrelease p .method s.stats
  | autoRelease p =>
    simp only [beginCall] at hstep
    split_ifs at hstep <;> cases hstep
    · exact h.rubyCalm (Nat.le_refl _) hold (.inl rfl)
    · exact hrelease p .method s.stats
  | free p =>
    simp only [beginCall] at hstep
    split_ifs at hstep <;> cases hstep <;> exact hrelease p .free _

theorem rubyStep_wakeup (hslots : SlotsInv cfg s) (h : Wakeup s)
    (hroom : DrainsFit (.ruby i) s) (hstep : rubyStep cfg i s = some s') : Wakeup s' := by
  cases hpc : s.ruby with
  | idle => simp [rubyStep, hpc] at hstep
  | stopWatchdog | answerSend | disarm | releaseMessage | queueDisarm | closeSend | closeMessage
  | storeDeleteReady =>
    simp only [rubyStep, hpc, Option.some.injEq] at hstep
    subst hstep
    exact h.rubyCalm (Nat.le_refl _) (by rw [hpc]; exact ⟨rfl, rfl⟩) (.inl rfl)
  | answerOccupied | answerExchange | closeExchange =>
    simp only [rubyStep, hpc] at hstep
    split_ifs at hstep <;> cases hstep <;>
      exact h.rubyCalm (Nat.le_refl _) (by rw [hpc]; exact ⟨rfl, rfl⟩) (.inl rfl)
  | awaitReaders | queueAwait | awaitCallbacks | awaitWatchdog | join =>
    simp only [rubyStep, hpc, Option.some.injEq] at hstep
    subst hstep
    split_ifs
    all_goals
      first
      | exact h
      | exact h.rubyCalm (Nat.le_refl _) (by rw [hpc]; exact ⟨rfl, rfl⟩)
          (.inl rfl)
  | respondClosed p caller | respondExchange p caller =>
    simp only [rubyStep, hpc] at hstep
    split_ifs at hstep <;> cases hstep <;> cases caller <;>
      exact h.rubyCalm (Nat.le_refl _) (by rw [hpc]; exact ⟨rfl, rfl⟩) (.inl rfl)
  | respondSend p caller =>
    simp only [rubyStep, hpc, Option.some.injEq] at hstep
    cases caller with
    | method call answer raises =>
      obtain ⟨result, returned, rfl⟩ := State.of_respondReturn hstep
      -- The methods leave the flag and the pipe alone, whatever they return
      exact h.rubyCalm (Nat.le_refl _) (by rw [hpc]; exact ⟨rfl, rfl⟩) (.inl rfl)
    | release caller =>
      subst hstep
      exact h.rubyCalm (Nat.le_refl _) (by rw [hpc]; exact ⟨rfl, rfl⟩) (.inl rfl)
  | queueStore p caller =>
    simp only [rubyStep, hpc] at hstep
    cases caller <;> cases hstep <;>
      exact h.rubyCalm (Nat.le_refl _) (by rw [hpc]; exact ⟨rfl, rfl⟩) (.inl rfl)
  | closeDequeue pc =>
    have hloop := SeqRing.Ring.TakeOk.step i.spurious
      (hslots.taking pc (by rw [hpc]; rfl))
    simp only [rubyStep, hpc, Queue.dequeue] at hstep
    cases hres : s.queue.ring.takeStep i.spurious pc <;>
      simp only [hres, Option.some.injEq] at hstep hloop <;> subst hstep
    case got p =>
      obtain ⟨rfl, -⟩ := hloop
      exact h.rubyCalm (Nat.le_succ _) (by rw [hpc]; exact ⟨rfl, rfl⟩) (.inl rfl)
    all_goals
      exact h.rubyCalm (Nat.le_refl _) (by rw [hpc]; exact ⟨rfl, rfl⟩) (.inl rfl)
  | drainRead maximum =>
    simp only [rubyStep, hpc] at hstep
    obtain ⟨hpos, hfits⟩ := h.fits maximum hpc
    split_ifs at hstep with hcount hnegative htoo hnone <;> cases hstep
    -- A byte that is taken out here is made up for by the clearing of the flag
    · exact h.rubyEmptying (Nat.le_refl _) (by rw [hpc]; rfl) rfl fun _ heq => hpc.trans heq
    · exact absurd hpos (Int.not_le.mpr hnegative)
    · exact absurd hfits (Int.not_le.mpr htoo)
    -- The step that makes the array has memory for it
    · have hmakes : s.makesArray := by
        simp only [State.makesArray, hpc, decide_eq_true_eq]
        omega
      simp [hroom hmakes] at hnone
    · exact h.rubyEmptying (Nat.le_refl _) (by rw [hpc]; rfl) (drainNext_emptying ..)
        fun _ heq => absurd heq (drainNext_ne_drainRead _ _ _)
  | drainDequeue left batch pc =>
    have hloop := SeqRing.Ring.TakeOk.step i.spurious
      (hslots.taking pc (by rw [hpc]; rfl))
    simp only [rubyStep, hpc, Queue.dequeue] at hstep
    cases hres : s.queue.ring.takeStep i.spurious pc <;>
      simp only [hres, Option.some.injEq] at hstep hloop <;> subst hstep
    case got p =>
      obtain ⟨rfl, -⟩ := hloop
      exact h.rubyEmptying (Nat.le_succ _) (by rw [hpc]; rfl) rfl (by simp)
    all_goals exact h.rubyEmptying (Nat.le_refl _) (by rw [hpc]; rfl) rfl (by simp)
  | drainDelivered left batch =>
    simp only [rubyStep, hpc, Option.some.injEq] at hstep
    subst hstep
    exact h.rubyEmptying (Nat.le_refl _) (by rw [hpc]; rfl) (drainNext_emptying ..)
      fun _ heq => absurd heq (drainNext_ne_drainRead _ _ _)
  | drainClear batch =>
    simp only [rubyStep, hpc, Option.some.injEq] at hstep
    subst hstep
    -- From here on the depth is tested again, which finds what has been queued meanwhile
    exact h.ruby (Nat.le_refl _) (by simp) (fun _ => .inr (.inl trivial)) (by simp) (by simp)
  | drainDepth batch =>
    simp only [rubyStep, hpc, Option.some.injEq] at hstep
    subst hstep
    refine h.ruby (Nat.le_refl _) (fun hn => ?_) (fun hlt => .inr (.inl hlt)) ?_ (by simp)
    · exact .inr (.inr (.inr ⟨hn, rfl, by rw [hpc]; rfl, by rw [hpc]; rfl⟩))
    -- The loaded position is that of this moment
    · rintro _ _ ⟨⟩
      exact ⟨hslots.slots.ring.deq_le, Nat.le_refl _⟩
  | drainDepthDequeue batch enqueued =>
    obtain ⟨hle, hle'⟩ := h.loaded batch enqueued hpc
    have hcap := hslots.slots.ring.enq_le
    have hsize := cfg.capacity.lt_size
    simp only [Queue.ring_enq, Queue.ring_deq, Queue.ring_capacity, hslots.slots.capacity] at hcap
    have hdepth : Queue.depth enqueued s.queue.dequeuePosition =
        enqueued - s.queue.dequeuePosition := sizeSub_eq hle (by omega)
    simp only [rubyStep, hpc, hdepth] at hstep
    split_ifs at hstep with hpos <;> cases hstep
    · exact h.ruby (Nat.le_refl _)
        (fun hn => .inr (.inr (.inr ⟨hn, rfl, by rw [hpc]; rfl, by rw [hpc]; rfl⟩)))
        (fun _ => .inr (.inl trivial)) (by simp) (by simp)
    -- The queue was empty when its position was loaded. What has been claimed since is owed for
    · refine h.ruby (Nat.le_refl _)
        (fun hn => .inr (.inr (.inr ⟨hn, rfl, by rw [hpc]; rfl, by rw [hpc]; rfl⟩)))
        (fun _ => .inr (.inr ⟨rfl, ?_⟩)) (by simp [State.finish]) (by simp [State.finish])
      rw [hpc]
      simp only [RubyPc.rechecks]
      omega
  | notify caller =>
    simp only [rubyStep, hpc] at hstep
    split_ifs at hstep with hn <;> cases hstep
    -- The flag is set again: its setter writes
    · cases caller <;> exact h.ruby (Nat.le_refl _)
        (fun hn => .inr (.inr (.inr ⟨hn, rfl, by rw [hpc]; rfl, by rw [hpc]; rfl⟩)))
        (fun _ => .inl hn) (by simp [State.notifyReturn, State.finish])
        (by simp [State.notifyReturn, State.finish])
    · exact h.ruby (Nat.le_refl _) (fun _ => .inr (.inl rfl)) (fun _ => .inl rfl) (by simp)
        (by simp)
  | notifyWrite caller =>
    simp only [rubyStep, hpc, Option.some.injEq] at hstep
    subst hstep
    cases caller <;> exact h.ruby (Nat.le_refl _) (fun _ => .inl (s.writePipe_pos cfg))
      (fun _ => .inr (.inr ⟨rfl, by rw [hpc]; exact id⟩))
      (by simp [State.notifyReturn, State.finish]) (by simp [State.notifyReturn, State.finish])

/-- The invariant holds in every run whose drains ask for arrays that fit. -/
theorem reachable_wakeup (hs : Reachable (restrict DrainsFit (step cfg)) (.init cfg) s) :
    Wakeup s := by
  apply hs.invariant (wakeup_init cfg)
  intro s a s' hs h hstep
  have hslots := reachable_slots hs.of_restrict
  obtain ⟨hfits, hstep⟩ := restrict_eq_some.mp hstep
  cases a with
  | callback k input => exact callbackStep_wakeup hslots h hstep
  | watchdog input => exact watchdogStep_wakeup h hstep
  | call call => exact callStep_wakeup h hfits hstep
  | ruby input => exact rubyStep_wakeup hslots h hfits hstep

/-! ## The consequence -/

/-- If no `__drain` is in progress, no callback is between its claim and the end of its
    `esrb_notify`, and nobody is between the exchange and the write of `esrb_notify`, then the
    wakeup pipe is readable if a published message has not been dequeued. -/
def State.WakesUp (s : State) : Prop :=
  s.ruby.draining = false → (∀ k, (s.callback k).owes = false ∧ (s.callback k).writing = false) →
    s.watchdog.writing = false → s.ruby.writing = false →
      ∀ p, s.history.stage p = .queued → 0 < s.pipe

/-- No wakeup is lost in any run whose drains ask for arrays that fit. -/
theorem no_lost_wakeup (hs : Reachable (restrict DrainsFit (step cfg)) (.init cfg) s) :
    s.WakesUp := by
  intro hdrain hcallback hwatchdog hruby p hqueued
  have h := reachable_wakeup hs
  have hring := (reachable_slots hs.of_restrict).slots.ring
  have hphase : (s.history.stage p).phase = .published := by rw [hqueued]; rfl
  have hlt : s.queue.dequeuePosition < s.queue.enqueuePosition :=
    Nat.lt_of_le_of_lt (hring.queued p (.inr hphase)) (hring.active_lt (by simp only [hphase]; rfl))
  have hnotified : s.notified := by
    rcases h.notified hlt with hn | ⟨k, hk⟩ | hrechecks
    · exact hn
    -- Whoever owes a notification is at work, and nobody is
    · simp [(hcallback k).1] at hk
    · cases hpc : s.ruby with
      | notify caller => cases caller <;> simp_all [RubyPc.rechecks, RubyPc.draining]
      | _ => simp_all [RubyPc.rechecks, RubyPc.draining]
  rcases h.readable hnotified with hpos | ⟨k, hk⟩ | hk | hk | hk
  · exact hpos
  · simp [(hcallback k).2] at hk
  · simp [hwatchdog] at hk
  · simp [hruby] at hk
  · cases hpc : s.ruby <;> simp_all [RubyPc.emptying, RubyPc.draining]

/-- After one NOTIFY message has been queued, nobody is at work and the pipe is readable. -/
theorem no_lost_wakeup_queued :
    0 < (TransitionSystem.final (restrict DrainsFit (step smallClient)) (callbackSteps 1 15)
      (.init smallClient) (by decide)).pipe := by
  have hs : Reachable (restrict DrainsFit (step smallClient)) (.init smallClient)
      (TransitionSystem.final (restrict DrainsFit (step smallClient)) (callbackSteps 1 15)
        (.init smallClient) (by decide)) := .final _
  refine no_lost_wakeup hs (by decide) (fun k => ?_) (by decide) (by decide) 0 (by decide)
  rcases k with _ | _ | k
  · decide
  · decide
  · exact ⟨rfl, rfl⟩

/-! ## A drain that raises -/

/-- Every drain is asked for at least one message. -/
def DrainsPositive : Action → State → Prop
  | .call (.drain maximum), _ => 0 < maximum
  | _, _ => True

instance (a : Action) (s : State) : Decidable (DrainsPositive a s) := by
  unfold DrainsPositive
  split <;> infer_instance

/-- A message is queued, and a drain of up to `2 ^ 62` messages empties the pipe and raises. -/
def drainTooMany : List Action :=
  callbackSteps 1 15 ++ [Action.call (.drain 4611686018427387904), .ruby {}, .ruby {}]

def drainedTooMany : State :=
  TransitionSystem.final (restrict DrainsPositive (step smallClient)) drainTooMany
    (.init smallClient) (by decide +kernel)

/-- The pipe stays unreadable with a message in the queue and everybody at rest. -/
theorem wakeup_lost : ¬ ∀ cfg s, Reachable (restrict DrainsPositive (step cfg)) (.init cfg) s →
    s.WakesUp := by
  intro hall
  have hempty := hall smallClient drainedTooMany (.final _) (by decide +kernel) (fun k => ?_)
    (by decide +kernel) (by decide +kernel) 0 (by decide +kernel)
  · revert hempty
    decide +kernel
  · rcases k with _ | _ | k
    · decide +kernel
    · decide +kernel
    · exact ⟨rfl, rfl⟩

end EndpointSecurity
