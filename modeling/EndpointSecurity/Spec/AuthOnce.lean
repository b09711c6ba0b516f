import EndpointSecurity.Spec.ClientLogs

/-!
# Every AUTH message is answered once

Whoever gets to it first, a callback that cannot queue it, the watchdog, a response method, the
release of a message or the close of the client: an AUTH message is answered once at most, and
once everything has come to rest it has been answered. A response method returns true only if
its own verdict is the one that was sent; all others send the configured default verdict.

## Key results

- `auth_answered_once`: the statement for every reachable state
-/

namespace EndpointSecurity

open TransitionSystem (Reachable)

variable {cfg : Config} {s : State}

/-- What holds once `close` has returned and all callbacks have: nobody owes a response. -/
theorem Answers.settled_at_rest (hslots : SlotsInv cfg s) (hclosing : Closing s) (h : Answers s)
    (hclosed : s.closed) (hidle : s.ruby = .idle) (hresting : ∀ k, (s.callback k).resting)
    (p : Nat) : s.owes p = false := by
  have hnotheld := hslots.callbacks.not_held_of_quiet (hclosing.quiet_at_rest hclosed hidle) p
  have hstage : 3 ≤ s.ruby.closeStage := by rw [hidle]; decide
  have hsent : s.history.sending p = none := by
    by_contra hsome
    obtain ⟨t, ht⟩ := Option.ne_none_iff_exists'.mp hsome
    have hsends := (h.sending.sends p t).mp ht
    cases t with
    | callback =>
      obtain ⟨k, hk⟩ := hsends
      have hrest := hresting k
      cases hpc : s.callback k <;> simp [hpc, CallbackPc.sends, CallbackPc.resting] at hk hrest
    | watchdog =>
      have hhalted := hclosing.halted hclosed hstage
      rw [hclosing.stopped] at hhalted
      cases hpc : s.watchdog <;>
        simp [hpc, State.sends, WatchdogPc.sends, WatchdogPc.halted] at hsends hhalted
    | ruby => simp [State.sends, hidle, RubyPc.sends] at hsends
  have hnotpending : (s.history.stage p).answerable → (s.queue.slot p).answerState ≠ .pending := by
    intro hp
    exact h.swept hclosed hstage p hp (by rw [hidle]; exact hslots.slots.index_lt p)
  have hnotclaimed : s.history.stage p ≠ .claimed := by
    intro hp
    simp [hp, Stage.held] at hnotheld
  cases hp : (s.history.stage p).answerable with
  | false => simp [State.owes, hnotclaimed, hsent, hp]
  | true => simp [State.owes, hnotclaimed, hsent, hnotpending hp]

/-- In every reachable state: a message is answered once at most, and only if it is an AUTH
    message; once `close` and all callbacks have returned, every AUTH message that was passed to
    `handle_message` has been answered; what a response method has returned true for is the
    response that its message has got; and all other responses are the default one. -/
theorem auth_answered_once (hs : Reachable (step cfg) (.init cfg) s) :
    (∀ m, responses (s.history.log m) ≤ 1) ∧
    (∀ m, cfg.isAuth m = false → responses (s.history.log m) = 0) ∧
    (s.closed → s.ruby = .idle → (∀ k, (s.callback k).resting) →
      ∀ m, s.callback m ≠ .absent → cfg.isAuth m → responses (s.history.log m) = 1) ∧
    (∀ r ∈ s.history.returned, r.value → ∃ client,
      (s.history.log r.message).filter MessageEvent.isRespond =
        [.respond client (.ruby r.call) r.response]) ∧
    (∀ m client sender response, .respond client sender response ∈ s.history.log m →
      client = (cfg.arrivals m).client ∧
      ((∀ call, sender ≠ .ruby call) → response = cfg.response m cfg.defaultAnswer)) := by
  have hslots := reachable_slots hs
  have hanswers := reachable_answers hs
  have h := reachable_logs hs
  have hcounts := fun m => Life.of_counts (h.life m)
  have hle : ∀ m, responses (s.history.log m) ≤ 1 := fun m => by
    rw [(hcounts m).respond]
    exact Bool.toNat_le _
  refine ⟨hle, fun m hm => ?_, fun hclosed hidle hresting m hm hauth => ?_, fun r hr hvalue => ?_,
    fun m client sender response hmem => h.proper m _ hmem⟩
  · rw [(hcounts m).respond]
    cases ha : (s.life cfg m).answered with
    | false => rfl
    | true => simp [(hcounts m).auth ha] at hm
  · have hsettled := hanswers.settled_at_rest hslots (reachable_closing hs) hclosed hidle hresting
    have hlife : (s.life cfg m).answered = true := by
      have hrest := hresting m
      cases hpc : s.callback m <;> simp [hpc, CallbackPc.resting] at hrest hm
      rename_i outcome
      cases outcome <;>
        simp [State.life, hpc, CallbackPc.position, CallbackPc.life, hauth, hsettled]
    rw [(hcounts m).respond, hlife]
    rfl
  · obtain ⟨client, hmem⟩ := h.returned r hr hvalue
    refine ⟨client, ?_⟩
    have hmem' := List.mem_filter.mpr ⟨hmem, (rfl : MessageEvent.isRespond (.respond ..) = true)⟩
    have hlength : ((s.history.log r.message).filter MessageEvent.isRespond).length ≤ 1 := by
      rw [← List.countP_eq_length_filter]
      exact hle r.message
    have hone := Nat.le_antisymm hlength (List.length_pos_of_mem hmem')
    obtain ⟨e, hlist⟩ := List.length_eq_one_iff.mp hone
    rw [hlist, List.mem_singleton] at hmem'
    rw [hlist, hmem']

/-- An AUTH message is queued, and the client is closed without anybody having drained it. -/
def closeUndrained : List Action :=
  callbackSteps 0 19 ++ [Action.call .close] ++ List.replicate 2 (Action.ruby {}) ++
    List.replicate 3 (Action.watchdog {}) ++ List.replicate 18 (Action.ruby {}) ++
    List.replicate 3 (Action.watchdog {}) ++ List.replicate 2 (Action.ruby {})

theorem auth_answered_once_undrained :
    responses ((TransitionSystem.final (step smallClient) closeUndrained (.init smallClient)
      (by decide +kernel)).history.log 0) = 1 :=
  (auth_answered_once (.final _)).2.2.1 (by decide +kernel) (by decide +kernel)
    ((reachable_closing (.final _)).resting (by decide +kernel)) 0 (by decide +kernel) (by decide)

end EndpointSecurity
