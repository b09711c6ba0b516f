import EndpointSecurity.Spec.ClientSlots
import EndpointSecurity.Spec.Dispatch

/-!
# What a failing handler does to the dispatcher

The `rescue` clause of `dispatch` contains what a handler raises, with one exception: it asks the
message itself whether it still has to be answered, and a message that has been released raises
when it is asked. A handler that releases its message and then raises, or whose message another
thread releases in time, takes the dispatcher loop down with it.
-/

namespace EndpointSecurity.Dispatch

open Raising

namespace Client

variable {c : Client} {s s' : State} {m : Nat}

/-! ## One dispatch -/

/-- What the body of `dispatch` raises, when it is called with the next message. -/
def failure (c : Client) (s : State) : Option Error :=
  match (c.body s.given (enter s)).1 with
  | .ok _ => none
  | .error error => some error

/-- The state in which the `rescue` clause has counted the error. -/
def rescued (c : Client) (s : State) : State :=
  let s' := (c.body s.given (enter s)).2
  { s' with errors := s'.errors + 1 }

/-- The message is valid when the next native method is called. -/
def ValidNext (c : Client) (m : Nat) (s : State) : Prop := ((c.disturb s).message m).valid

/-- The message is valid each time the `rescue` clause needs it: for `auth?`, for `answered?` of
    an AUTH message, and for `__respond_default!` of one that has not been answered. -/
def ValidWhenAsked (c : Client) (m : Nat) (s : State) : Prop :=
  c.ValidNext m s ∧
    (c.native.isAuth m →
      c.ValidNext m (c.disturb s) ∧
        (((c.disturb (c.disturb s)).message m).answered = false →
          c.ValidNext m (c.disturb (c.disturb s))))

/-- When the body of `dispatch` raises, its message is valid as long as it is asked. -/
def Rescuable (c : Client) (s : State) : Prop :=
  (c.failure s).isSome → c.ValidWhenAsked s.given (c.rescued s)

/-- The error handler, when it is called, returns. -/
def ErrorHandlerReturns (c : Client) (s : State) : Prop :=
  ∀ error, c.failure s = some error →
    ∀ s', c.answerDefault s.given (c.rescued s) = (.ok (), s') →
      (c.callErrorHandler error s').1 = .ok ()

/-- `__respond_default!` raises nothing of its own. -/
theorem respond_default_ok (c : Client) (m : Nat) (s : State) :
    ∃ value s', c.respond m .default s = (.ok value, s') := by
  simp [respond, Config.check, run_bind]

/-- The `rescue` clause gets past the message exactly when that is valid. -/
theorem answerDefault_ok_iff : (c.answerDefault m s).1 = .ok () ↔ c.ValidWhenAsked m s := by
  unfold answerDefault ValidWhenAsked ValidNext
  by_cases hread : ((c.disturb s).message m).valid
  · by_cases hauth : c.native.isAuth m
    · by_cases hasked : ((c.disturb (c.disturb s)).message m).valid
      · by_cases hanswered : ((c.disturb (c.disturb s)).message m).answered
        · simp [call, getMessage, run_bind, hread, hauth, hasked, hanswered]
        · by_cases hrespond : ((c.disturb (c.disturb (c.disturb s))).message m).valid
          · obtain ⟨value, s', hvalue⟩ :=
              respond_default_ok c m (c.disturb (c.disturb (c.disturb s)))
            simp [call, getMessage, run_bind, hread, hauth, hasked, hanswered, hrespond, hvalue]
          · simp [call, getMessage, run_bind, hread, hauth, hasked, hanswered, hrespond]
      · simp [call, getMessage, run_bind, hread, hauth, hasked]
    · simp [call, getMessage, run_bind, hread, hauth]
  · simp [call, getMessage, run_bind, hread]

/-- What holds between the dispatches. -/
structure Between (c : Client) (s : State) : Prop where
  settled : c.Settled s
  fresh : Fresh s
  retired : ∀ k < s.given, (s.message k).held = false → (s.message k).valid = false
  handled : ∀ k < s.given, c.Passes k →
    (c.handlers (c.native.arrivals k).eventType).isSome → k ∈ s.handled

theorem between_init : c.Between { State.init with running := true } where
  settled m _ h := by simp [State.init] at h
  fresh m _ := ⟨rfl, rfl⟩
  retired k hk := by simp [State.init] at hk
  handled k hk := by simp [State.init] at hk

theorem Between.enter (h : c.Between s) : c.Settled (enter s) ∧ Fresh (Client.enter s) :=
  ⟨h.settled, fun m hm => h.fresh m (by simp only [Client.enter] at hm; omega)⟩

theorem given_lt_enter (s : State) : s.given < (enter s).given := Nat.lt_succ_self _

/-- What the body of `dispatch` leads to. -/
theorem quiet_body (c : Client) (s : State) :
    Quiet c (enter s) (c.body s.given (enter s)).2 :=
  follows_body s.given (enter s) (given_lt_enter s)

/-- What the clauses of `dispatch` lead to from the state that its body ends in. -/
theorem later_clauses (c : Client) (s : State) :
    Later c (c.body s.given (enter s)).2 (c.dispatch s).2 := by
  have hm : s.given < (c.body s.given (enter s)).2.given :=
    (quiet_body c s).given ▸ given_lt_enter s
  have hrescue := follows_rescue_from (x := c.body s.given) (follows_rescueClause (c := c) s.given)
    (enter s) hm
  exact trans_of (Later c) hrescue (quiet_ensureClause (hrescue.given ▸ hm)).toLater

theorem later_dispatch (c : Client) (s : State) : Later c (enter s) (c.dispatch s).2 :=
  trans_of (Later c) (quiet_body c s).toLater (later_clauses c s)

theorem Later.between (h : Later c s s') (hs : c.Between s) : c.Between s' where
  settled := h.settled hs.settled
  fresh := h.fresh hs.fresh
  retired k hk hheld := h.released k (hs.retired k (h.given ▸ hk) (h.not_held hheld))
  handled k hk hpasses hhandler := h.handled k (hs.handled k (h.given ▸ hk) hpasses hhandler)

/-- Whatever a handler does, the next dispatch finds everything in order. -/
theorem Between.dispatch (h : c.Between s) : c.Between (c.dispatch s).2 := by
  have hlater := later_dispatch c s
  have hgiven : (c.dispatch s).2.given = s.given + 1 := hlater.given
  refine ⟨hlater.settled h.enter.1, hlater.fresh h.enter.2, fun k hk hheld => ?_,
    fun k hk hpasses hhandler => ?_⟩
  · rcases Nat.lt_or_eq_of_le (Nat.le_of_lt_succ (hgiven ▸ hk)) with hlt | rfl
    · -- An earlier message was not retained before, so it had been released
      exact hlater.released k (h.retired k hlt (hlater.not_held hheld))
    · exact retired_ensureClause hheld
  · rcases Nat.lt_or_eq_of_le (Nat.le_of_lt_succ (hgiven ▸ hk)) with hlt | rfl
    · exact hlater.handled k (h.handled k hlt hpasses hhandler)
    · have huntouched : Untouched s.given (Client.enter s) := h.fresh s.given (Nat.le_refl _)
      exact (later_clauses c s).handled _ (handled_body hpasses huntouched hhandler)

theorem body_of_failure_none (h : c.failure s = none) :
    ∃ s', c.body s.given (enter s) = (.ok (), s') := by
  unfold failure at h
  cases hbody : c.body s.given (enter s) with
  | mk r s' =>
    cases r with
    | ok _ => exact ⟨s', rfl⟩
    | error e => simp [hbody] at h

theorem body_of_failure {error : Error} (h : c.failure s = some error) :
    c.body s.given (enter s) = (.error error, (c.body s.given (enter s)).2) := by
  unfold failure at h
  cases hbody : c.body s.given (enter s) with
  | mk r s' =>
    cases r with
    | ok _ => simp [hbody] at h
    | error e => simp_all

/-- A dispatch whose body returns, returns and reports nothing. -/
theorem dispatch_of_failure_none (h : c.failure s = none) :
    (c.dispatch s).1 = .ok () ∧ (c.dispatch s).2.errors = s.errors ∧
      (c.dispatch s).2.reported = s.reported := by
  obtain ⟨s', hbody⟩ := body_of_failure_none h
  have hquiet := quiet_body c s
  rw [hbody] at hquiet
  have hm : s.given < s'.given := hquiet.given ▸ given_lt_enter s
  have hensure := quiet_ensureClause (c := c) hm
  have hdispatch : c.dispatch s = (.ok (), c.ensureClause s.given s') := by
    rw [dispatch, ensure, rescue_of_ok hbody]
  rw [hdispatch]
  exact ⟨rfl, hensure.errors.trans hquiet.errors, hensure.reported.trans hquiet.reported⟩

/-- The `rescue` clause, once the error is counted. -/
theorem dispatch_of_failure_some {error : Error} (h : c.failure s = some error) :
    c.dispatch s =
      ((c.answerDefault s.given >>= fun _ => c.callErrorHandler error).ensure
        (c.ensureClause s.given)) (c.rescued s) := by
  rw [dispatch, ensure, rescue_of_error (body_of_failure h)]
  rfl

theorem callErrorHandler_reported (c : Client) (error : Error) (s : State) :
    (c.callErrorHandler error s).2.given = s.given ∧
      (c.callErrorHandler error s).2.errors = s.errors ∧
      (c.onError.isSome → (c.callErrorHandler error s).2.reported = s.reported ++ [error]) := by
  unfold callErrorHandler
  cases c.onError with
  | none => simp
  | some handler =>
    have hexec := follows_exec (c := c) (handler error)
      { s with reported := s.reported ++ [error] }
    exact ⟨hexec.given, hexec.errors, fun _ => hexec.reported⟩

/-- A dispatch whose body raises, while its message is valid, returns, and the error is counted
    and reported. -/
theorem dispatch_of_failure {error : Error} (h : c.failure s = some error)
    (hvalid : c.ValidWhenAsked s.given (c.rescued s)) (hreturns : c.ErrorHandlerReturns s) :
    (c.dispatch s).1 = .ok () ∧ (c.dispatch s).2.errors = s.errors + 1 ∧
      (c.onError.isSome → (c.dispatch s).2.reported = s.reported ++ [error]) := by
  have hm : s.given < (c.rescued s).given := (quiet_body c s).given ▸ given_lt_enter s
  have hasked := follows_answerDefault (c := c) s.given (c.rescued s) hm
  cases hanswer : c.answerDefault s.given (c.rescued s) with
  | mk r s₁ =>
    have hok : r = .ok () := by
      have := answerDefault_ok_iff.mpr hvalid
      rwa [hanswer] at this
    subst hok
    rw [hanswer] at hasked
    have hresult := hreturns error h s₁ hanswer
    obtain ⟨hgiven, herrors, hreported⟩ := callErrorHandler_reported c error s₁
    have hensure := quiet_ensureClause (c := c) (hgiven.trans hasked.given ▸ hm)
    rw [dispatch_of_failure_some h, ensure, bind_of_ok hanswer]
    refine ⟨hresult, ?_, fun honError => ?_⟩
    · rw [hensure.errors, herrors, hasked.errors]
      exact congrArg (· + 1) (quiet_body c s).errors
    · rw [hensure.reported, hreported honError, hasked.reported]
      exact congrArg (· ++ [error]) (quiet_body c s).reported

/-- A dispatch whose body raises when its message is not valid raises. -/
theorem dispatch_raises (h : ¬ c.Rescuable s) : (c.dispatch s).1 ≠ .ok () := by
  simp only [Rescuable, not_forall] at h
  obtain ⟨hsome, hinvalid⟩ := h
  obtain ⟨error, herror⟩ := Option.isSome_iff_exists.mp hsome
  cases hanswer : c.answerDefault s.given (c.rescued s) with
  | mk r s' =>
    cases r with
    | ok _ => exact absurd (answerDefault_ok_iff.mp (by rw [hanswer])) hinvalid
    | error e =>
      rw [dispatch_of_failure_some herror, ensure, bind_of_error hanswer]
      simp

/-! ## A batch -/

/-- The states in which the dispatches of a batch of `n` messages begin. -/
def batchStates (c : Client) : Nat → State → List State
  | 0, _ => []
  | n + 1, s => s ::
    match c.dispatch s with
    | (.ok _, s') => batchStates c n s'
    | (.error _, _) => []

/-- A computation that begins in these states, in the order of their dispatches, has contained
    what the handlers have raised. -/
structure Counted (c : Client) (states : List State) (s s' : State) : Prop where
  errors : s'.errors = s.errors + (states.filterMap c.failure).length
  reported : c.onError.isSome → s'.reported = s.reported ++ states.filterMap c.failure

theorem Counted.nil (c : Client) (s : State) : Counted c [] s s := ⟨rfl, by simp⟩

theorem Counted.append {states states' : List State} {s₁ s₂ s₃ : State}
    (h : Counted c states s₁ s₂) (h' : Counted c states' s₂ s₃) :
    Counted c (states ++ states') s₁ s₃ where
  errors := by
    rw [h'.errors, h.errors, List.filterMap_append, List.length_append, Nat.add_assoc]
  reported honError := by
    rw [h'.reported honError, h.reported honError, List.filterMap_append, List.append_assoc]

/-- One dispatch that is rescuable returns. -/
theorem dispatch_of_rescuable (h : c.Rescuable s) (hreturns : c.ErrorHandlerReturns s) :
    (c.dispatch s).1 = .ok () ∧ Counted c [s] s (c.dispatch s).2 := by
  cases hfailure : c.failure s with
  | none =>
    obtain ⟨hok, herrors, hreported⟩ := dispatch_of_failure_none hfailure
    exact ⟨hok, by simpa [hfailure] using herrors, by simp [hfailure, hreported]⟩
  | some error =>
    obtain ⟨hok, herrors, hreported⟩ :=
      dispatch_of_failure hfailure (h (by simp [hfailure])) hreturns
    exact ⟨hok, by simpa [hfailure] using herrors, by simpa [hfailure] using hreported⟩

/-- A batch returns when all its dispatches are rescuable. -/
theorem batch_of_rescuable {n : Nat} (hreturns : ∀ t ∈ c.batchStates n s, c.ErrorHandlerReturns t)
    (h : ∀ t ∈ c.batchStates n s, c.Rescuable t) :
    (times n c.dispatch s).1 = .ok () ∧
      Counted c (c.batchStates n s) s (times n c.dispatch s).2 ∧
      (times n c.dispatch s).2.given = s.given + n := by
  induction n generalizing s with
  | zero => exact ⟨rfl, .nil c s, rfl⟩
  | succ n ih =>
    rw [batchStates] at h hreturns ⊢
    obtain ⟨hok, hcounted⟩ :=
      dispatch_of_rescuable (h s (.head _)) (hreturns s (.head _))
    have hgiven : (c.dispatch s).2.given = s.given + 1 := (later_dispatch c s).given
    cases hdispatch : c.dispatch s with
    | mk r s₁ =>
      rw [hdispatch] at h hreturns hok hcounted hgiven
      dsimp only at hok
      subst hok
      obtain ⟨hok, hrest, hgiven'⟩ :=
        ih (fun t ht => hreturns t (.tail _ ht)) fun t ht => h t (.tail _ ht)
      rw [times, bind_of_ok hdispatch]
      exact ⟨hok, hcounted.append hrest, by rw [hgiven', hgiven, Nat.add_assoc, Nat.add_comm 1]⟩

/-- A batch with a dispatch that is not rescuable raises. -/
theorem batch_raises {n : Nat} (h : ¬ ∀ t ∈ c.batchStates n s, c.Rescuable t) :
    (times n c.dispatch s).1 ≠ .ok () := by
  induction n generalizing s with
  | zero => simp [batchStates] at h
  | succ n ih =>
    intro hok
    rw [times] at hok
    cases hdispatch : c.dispatch s with
    | mk r s₁ =>
      cases r with
      | error error => simp [bind_of_error hdispatch] at hok
      | ok _ =>
        rw [bind_of_ok hdispatch] at hok
        refine ih (fun hall => h fun t ht => ?_) hok
        rw [batchStates, hdispatch] at ht
        rcases List.mem_cons.mp ht with rfl | ht
        · by_contra hnot
          exact dispatch_raises hnot (by rw [hdispatch])
        · exact hall t ht

theorem follows_batch (n : Nat) : (times n c.dispatch).Follows (Keeps c.Between) :=
  .times (fun _ => Between.dispatch) n

theorem drained_batch (n : Nat) (s : State) : (times n c.dispatch s).2.drained = s.drained := by
  have hdispatch : c.dispatch.Follows (Keeps fun t => t.drained = s.drained) :=
    fun t ht => (later_dispatch c t).drained.trans ht
  exact hdispatch.times n s rfl

/-! ## The loop -/

theorem follows_callTimeoutHandler : c.callTimeoutHandler.Follows (Quiet c) := by
  unfold callTimeoutHandler
  split
  · exact .pure ()
  · exact follows_exec _

theorem follows_reportTimeouts : c.reportTimeouts.Follows (Quiet c) := by
  refine .bind (.modify (quiet_disturb c)) fun _ => .bind .get fun s =>
    .bind (.times follows_callTimeoutHandler _) fun _ => .modify fun t => ?_
  exact quiet_of_same rfl rfl rfl rfl rfl rfl rfl

/-- The states in which the dispatches of the loop begin. -/
def loopStates (c : Client) : List Nat → State → List State
  | [], _ => []
  | n :: batches, s =>
    if s.running && !s.closed then
      c.batchStates n (drain n s) ++
        match (times n c.dispatch >>= fun _ => c.reportTimeouts) (drain n s) with
        | (.ok _, s') => loopStates c batches s'
        | (.error _, _) => []
    else []

/-- The states in which the loop reports timeouts. -/
def reportStates (c : Client) : List Nat → State → List State
  | [], _ => []
  | n :: batches, s =>
    if s.running && !s.closed then
      match times n c.dispatch (drain n s) with
      | (.ok _, s') => s' ::
        match c.reportTimeouts s' with
        | (.ok _, s'') => reportStates c batches s''
        | (.error _, _) => []
      | (.error _, _) => []
    else []

/-- The timeout handler, when it is called, returns. -/
def TimeoutHandlerReturns (c : Client) (s : State) : Prop := (c.reportTimeouts s).1 = .ok ()

theorem follows_loop (batches : List Nat) : (c.loop batches).Follows (Keeps c.Between) := by
  induction batches with
  | nil => exact .pure ()
  | cons n batches ih =>
    refine .bind .get fun s => ?_
    split
    · refine .bind (.modify fun s hs => ⟨hs.settled, hs.fresh, hs.retired, hs.handled⟩) fun _ =>
        (follows_batch n).bind fun _ => .bind ?_ fun _ => ih
      exact follows_reportTimeouts.mono fun _ _ h hs => h.toLater.between hs
    · exact .pure ()

section Iteration

variable {n : Nat} {batches : List Nat} {s₁ s₂ : State}

theorem loop_cons (h : (s.running && !s.closed) = true) :
    c.loop (n :: batches) s =
      (times n c.dispatch >>= fun _ => c.reportTimeouts >>= fun _ => c.loop batches)
        (drain n s) := by
  simp only [loop, run_bind, run_get, h, if_true, run_modify]

theorem loop_cons_stopped (n : Nat) (batches : List Nat) (h : (s.running && !s.closed) = false) :
    c.loop (n :: batches) s = (.ok (), s) ∧ c.loopStates (n :: batches) s = [] ∧
      c.reportStates (n :: batches) s = [] := by
  refine ⟨?_, ?_, ?_⟩
  · simp only [loop, run_bind, run_get, h, Bool.false_eq_true, if_false]
    rfl
  · simp only [loopStates, h, Bool.false_eq_true, if_false]
  · simp only [reportStates, h, Bool.false_eq_true, if_false]

theorem loopStates_batch (h : (s.running && !s.closed) = true) {t : State}
    (ht : t ∈ c.batchStates n (drain n s)) : t ∈ c.loopStates (n :: batches) s := by
  rw [loopStates, if_pos h]
  exact List.mem_append_left _ ht

theorem mem_reportStates (h : (s.running && !s.closed) = true)
    (hbatch : times n c.dispatch (drain n s) = (.ok (), s₁)) :
    s₁ ∈ c.reportStates (n :: batches) s := by
  rw [reportStates, if_pos h, hbatch]
  exact .head _

/-- An iteration that returns is followed by the rest of the loop. -/
theorem states_cons (batches : List Nat) (h : (s.running && !s.closed) = true)
    (hbatch : times n c.dispatch (drain n s) = (.ok (), s₁))
    (hreports : c.reportTimeouts s₁ = (.ok (), s₂)) :
    c.loop (n :: batches) s = c.loop batches s₂ ∧
      c.loopStates (n :: batches) s =
        c.batchStates n (drain n s) ++ c.loopStates batches s₂ ∧
      c.reportStates (n :: batches) s = s₁ :: c.reportStates batches s₂ := by
  refine ⟨?_, ?_, ?_⟩
  · rw [loop_cons h, bind_of_ok hbatch, bind_of_ok hreports]
  · simp only [loopStates, h, if_true, bind_of_ok hbatch, hreports]
  · simp only [reportStates, h, if_true, hbatch, hreports]

end Iteration

/-- The loop goes on as long as all dispatches are rescuable and the timeout handler returns. -/
theorem loop_of_rescuable {batches : List Nat} (hgiven : s.given = s.drained)
    (hreturns : ∀ t ∈ c.loopStates batches s, c.ErrorHandlerReturns t)
    (h : ∀ t ∈ c.loopStates batches s, c.Rescuable t)
    (htimeout : ∀ t ∈ c.reportStates batches s, c.TimeoutHandlerReturns t) :
    (c.loop batches s).1 = .ok () ∧
      Counted c (c.loopStates batches s) s (c.loop batches s).2 ∧
      (c.loop batches s).2.given = (c.loop batches s).2.drained := by
  induction batches generalizing s with
  | nil => exact ⟨rfl, .nil c s, hgiven⟩
  | cons n batches ih =>
    cases hrunning : s.running && !s.closed with
    | false =>
      obtain ⟨hloop, hstates, -⟩ := loop_cons_stopped (c := c) n batches hrunning
      rw [hloop, hstates]
      exact ⟨rfl, .nil c s, hgiven⟩
    | true =>
      obtain ⟨hok, hcounted, hgiven₁⟩ :=
        batch_of_rescuable (fun t ht => hreturns t (loopStates_batch hrunning ht))
          fun t ht => h t (loopStates_batch hrunning ht)
      have hdrained := drained_batch (c := c) n (drain n s)
      cases hbatch : times n c.dispatch (drain n s) with
      | mk r s₁ =>
        rw [hbatch] at hok hcounted hgiven₁ hdrained
        dsimp only at hok
        subst hok
        have hreport := htimeout s₁ (mem_reportStates hrunning hbatch)
        have hquiet := follows_reportTimeouts (c := c) s₁
        unfold TimeoutHandlerReturns at hreport
        cases hreports : c.reportTimeouts s₁ with
        | mk r s₂ =>
          rw [hreports] at hreport hquiet
          dsimp only at hreport
          subst hreport
          obtain ⟨hloop, hstates, hreportStates⟩ :=
            states_cons batches hrunning hbatch hreports
          rw [hstates] at h hreturns ⊢
          rw [hreportStates] at htimeout
          rw [hloop]
          have hgiven₂ : s₂.given = s₂.drained := by
            rw [hquiet.given, hquiet.drained, hgiven₁, hdrained]
            simp [drain, hgiven]
          obtain ⟨hok, hrest, hgiven₃⟩ := ih hgiven₂
            (fun t ht => hreturns t (List.mem_append_right _ ht))
            (fun t ht => h t (List.mem_append_right _ ht)) fun t ht => htimeout t (.tail _ ht)
          -- Neither draining nor reporting timeouts counts an error
          have hcounted₂ : Counted c (c.batchStates n (drain n s)) s s₂ :=
            ⟨hquiet.errors.trans hcounted.errors,
              fun honError => hquiet.reported.trans (hcounted.reported honError)⟩
          exact ⟨hok, hcounted₂.append hrest, hgiven₃⟩

/-- The loop raises when a dispatch is not rescuable or the timeout handler raises. -/
theorem loop_raises {batches : List Nat}
    (h : ¬ ((∀ t ∈ c.loopStates batches s, c.Rescuable t) ∧
      ∀ t ∈ c.reportStates batches s, c.TimeoutHandlerReturns t)) :
    (c.loop batches s).1 ≠ .ok () := by
  induction batches generalizing s with
  | nil => simp [loopStates, reportStates] at h
  | cons n batches ih =>
    cases hrunning : s.running && !s.closed with
    | false =>
      obtain ⟨-, hstates, hreports⟩ := loop_cons_stopped (c := c) n batches hrunning
      simp [hstates, hreports] at h
    | true =>
      intro hok
      cases hbatch : times n c.dispatch (drain n s) with
      | mk r s₁ =>
        cases r with
        | error error => simp [loop_cons hrunning, bind_of_error hbatch] at hok
        | ok _ =>
          have hrescuable : ∀ t ∈ c.batchStates n (drain n s), c.Rescuable t := by
            by_contra hnot
            exact batch_raises hnot (by rw [hbatch])
          cases hreports : c.reportTimeouts s₁ with
          | mk r s₂ =>
            cases r with
            | error error =>
              simp [loop_cons hrunning, bind_of_ok hbatch, bind_of_error hreports] at hok
            | ok _ =>
              obtain ⟨hloop, hstates, hreportStates⟩ :=
                states_cons batches hrunning hbatch hreports
              rw [hloop] at hok
              rw [hstates, hreportStates] at h
              refine ih (fun ⟨hall, htimeouts⟩ => h ⟨fun t ht => ?_, fun t ht => ?_⟩) hok
              · exact (List.mem_append.mp ht).elim (hrescuable t) (hall t)
              · rcases List.mem_cons.mp ht with rfl | ht
                · rw [TimeoutHandlerReturns, hreports]
                · exact htimeouts t ht

/-! ## Containment -/

/-- What the handlers of a run have raised is contained: the loop has not raised, every error is
    counted once and reported once to the error handler, if there is one, every message drained
    has been dispatched and has reached its handler, and those AUTH messages that are not retained
    have been answered and released. -/
structure Contained (c : Client) (batches : List Nat) : Prop where
  returns : (c.run batches).1 = .ok ()
  errors : (c.run batches).2.errors =
    ((c.loopStates batches { State.init with running := true }).filterMap c.failure).length
  reported : c.onError.isSome → (c.run batches).2.reported =
    (c.loopStates batches { State.init with running := true }).filterMap c.failure
  dispatched : (c.run batches).2.given = (c.run batches).2.drained
  handled : ∀ m < (c.run batches).2.drained, c.Passes m →
    (c.handlers (c.native.arrivals m).eventType).isSome → m ∈ (c.run batches).2.handled
  settled : ∀ m < (c.run batches).2.drained, c.native.isAuth m →
    ((c.run batches).2.message m).held = false →
      ((c.run batches).2.message m).answered ∧ ((c.run batches).2.message m).valid = false

/-- Where the error handler returns, handler failures are contained exactly when each dispatch whose
    body raises finds its message valid, and the timeout handler does not raise. -/
theorem contained_iff (c : Client) (batches : List Nat)
    (hreturns : ∀ s ∈ c.loopStates batches { State.init with running := true },
      c.ErrorHandlerReturns s) :
    Contained c batches ↔
      (∀ s ∈ c.loopStates batches { State.init with running := true }, c.Rescuable s) ∧
        ∀ s ∈ c.reportStates batches { State.init with running := true },
          c.TimeoutHandlerReturns s := by
  constructor
  · intro h
    by_contra hnot
    exact loop_raises hnot h.returns
  · rintro ⟨hrescuable, htimeout⟩
    obtain ⟨hok, hcounted, hgiven⟩ := loop_of_rescuable rfl hreturns hrescuable htimeout
    have hbetween : c.Between (c.run batches).2 := follows_loop batches _ between_init
    refine ⟨hok, ?_, ?_, hgiven, fun m hm => ?_, fun m hm hauth hheld => ?_⟩
    · have herrors := hcounted.errors
      rwa [show ({ State.init with running := true } : State).errors = 0 from rfl,
        Nat.zero_add] at herrors
    · exact hcounted.reported
    · exact hbetween.handled m (hgiven ▸ hm)
    · have hvalid := hbetween.retired m (hgiven ▸ hm) hheld
      exact ⟨hbetween.settled m hauth (.inl hvalid), hvalid⟩

/-! ## A client with one handler -/

instance : Decidable (c.ValidNext m s) := inferInstanceAs (Decidable (_ = true))

instance : Decidable (c.ValidWhenAsked m s) := inferInstanceAs (Decidable (_ ∧ _))

instance : Decidable (c.Rescuable s) := inferInstanceAs (Decidable (_ → _))

instance : Decidable (c.TimeoutHandlerReturns s) :=
  decidable_of_iff ((c.reportTimeouts s).1.isOk = true) <| by
    unfold TimeoutHandlerReturns
    cases (c.reportTimeouts s).1 with
    | ok _ => simp [Except.isOk, Except.toBool]
    | error _ => simp [Except.isOk, Except.toBool]

/-- A client that handles every event with one block, and ignores errors. -/
def handling (block : Nat → Program) : Client where
  native := smallClient
  started := true
  muteEsClients := false
  esClient _ := some (.ok false)
  muteProcess _ := .ok ()
  handlers _ := some block
  onError := some fun _ => .done
  onTimeout := none
  before _ := []
  accepts _ := true

theorem handling_errorHandlerReturns (block : Nat → Program) (s : State) :
    (handling block).ErrorHandlerReturns s :=
  fun _ _ _ _ => rfl

/-- Handlers that raise at once are contained, for AUTH messages and for others. -/
theorem contained_iff_raising : (handling fun _ => .raise (.other 0)).Contained [2] :=
  (contained_iff (handling fun _ => .raise (.other 0)) [2]
    fun s _ => handling_errorHandlerReturns _ s).mpr ⟨by decide +kernel, by decide +kernel⟩

/-- A handler that releases its message and then raises ends the loop, although the error handler
    returns whenever it is called. -/
theorem released_failure_not_contained :
    (∀ s, (handling fun m => .call m .release fun _ => .raise (.other 0)).ErrorHandlerReturns s) ∧
      ¬ (handling fun m => .call m .release fun _ => .raise (.other 0)).Contained [1] := by
  refine ⟨handling_errorHandlerReturns _, fun h => ?_⟩
  have hraises : ((handling fun m => .call m .release fun _ => .raise (.other 0)).run [1]).1 =
      .error (.native .messageReleased) := rfl
  have hreturns := h.returns
  rw [hraises] at hreturns
  cases hreturns

end Client

end EndpointSecurity.Dispatch
