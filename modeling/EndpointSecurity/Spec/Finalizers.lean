import EndpointSecurity.Native.Finalizers
import EndpointSecurity.Spec.ClientRecords
import EndpointSecurity.Spec.References

/-!
# The order of the free functions

`message_free` reads its client before it does anything with a valid message. When the client
has been freed first, that is a read of freed memory, and the message is not released. When all
valid messages are freed before their client, nothing freed is read and every message is released.

## Key results

- `freed_client_read`: the client freed before a valid message
- `freed_in_order`: what holds when no valid message is freed after its client
-/

namespace EndpointSecurity.Finalizers

open TransitionSystem (Reachable)

/-- What the free functions ought to do from state `s₀` on: nothing freed is read, and when all is
    freed, every message that a wrapper held has been released exactly once. -/
def FreedProperly (s₀ : EndpointSecurity.State) (s : State) : Prop :=
  s.useAfterFree = false ∧
    (s.allFreed → ∀ p, (s₀.wrapper p).valid →
      (s.process.history.log (s₀.wrapper p).message).count .release = 1)

/-- An AUTH message has been queued and delivered to Ruby. -/
def delivered : List EndpointSecurity.Action :=
  callbackSteps 0 19 ++ [EndpointSecurity.Action.call (.drain 1)] ++
    List.replicate 9 (EndpointSecurity.Action.ruby {})

/-- The client is closed and freed. -/
def clientFreed : List Action :=
  [Action.freeClient] ++ List.replicate 2 (Action.native {}) ++
    List.replicate 2 (Action.watchdog {}) ++ List.replicate 9 (Action.native {}) ++
    List.replicate 2 (Action.watchdog {}) ++ List.replicate 3 (Action.native {}) ++
    [Action.destroy]

/-- With one valid wrapper, freed after its client, freed memory is read. -/
theorem freed_client_read : ¬ ∀ (cfg : Config) (s₀ : EndpointSecurity.State),
    Reachable (EndpointSecurity.step cfg) (.init cfg) s₀ → s₀.ruby = .idle →
    ∀ s, Reachable (step cfg) (.init s₀) s → FreedProperly s₀ s := by
  intro hall
  let s₀ := TransitionSystem.final (EndpointSecurity.step smallClient) delivered
    (.init smallClient) (by decide +kernel)
  have h := hall smallClient s₀ (.final _) (by decide +kernel)
    (TransitionSystem.final (step smallClient) (clientFreed ++ [.freeMessage 0]) (.init s₀)
      (by decide +kernel)) (.final _)
  have hread := h.1
  revert hread
  decide +kernel

/-! ## The condition -/

/-- The condition on a step: no valid message is freed after its client. -/
def MessagesFirst (a : Action) (s : State) : Prop :=
  match a with
  | .freeMessage p => s.memory = .freed → (s.process.wrapper p).valid = false
  | _ => True

instance (a : Action) (s : State) : Decidable (MessagesFirst a s) := by
  unfold MessagesFirst
  split <;> infer_instance

/-- The steps that meet the condition. -/
def orderedStep (cfg : Config) (a : Action) (s : State) : Option State :=
  if MessagesFirst a s then step cfg a s else none

variable {cfg : Config} {s₀ : EndpointSecurity.State} {s s' : State}

/-- What holds as long as the condition is met: the process has got where a client can get, and
    what is done after it has been freed leaves the logs and the valid wrappers alone. -/
structure Ordered (cfg : Config) (s₀ : EndpointSecurity.State) (s : State)
    (t : EndpointSecurity.State) : Prop where
  reachable : Reachable (EndpointSecurity.step cfg) (.init cfg) t
  process : s.memory ≠ .freed → s.process = t
  closed : s.memory ≠ .allocated → t.closed
  idle : s.memory = .freed → t.ruby = .idle
  log : s.process.history.log = t.history.log
  valid : ∀ p, (s.process.wrapper p).valid = (t.wrapper p).valid
  live : ∀ p, (s.process.wrapper p).valid → (s.process.wrapper p).live
  grown : ∀ m, s₀.history.log m <:+ t.history.log m
  useAfterFree : s.useAfterFree = false

/-- A step of the client before it is freed. -/
theorem Ordered.within {t t' : EndpointSecurity.State} {a : EndpointSecurity.Action}
    {memory : ClientMemory} (h : Ordered cfg s₀ s t) (halive : s.memory ≠ .freed)
    (hstep : EndpointSecurity.step cfg a s.process = some t') (hmemory : memory ≠ .freed)
    (hclosed : memory ≠ .allocated → t'.closed) :
    Ordered cfg s₀ { s with process := t', memory } t' := by
  rw [h.process halive] at hstep
  have hreach := h.reachable.step hstep
  exact {
    reachable := hreach
    process := fun _ => rfl
    closed := hclosed
    idle := fun hfreed => absurd hfreed hmemory
    log := rfl
    valid := fun _ => rfl
    live := (reachable_logs hreach).live
    grown := fun m => (h.grown m).trans ((step_records hstep).suffix m)
    useAfterFree := h.useAfterFree }

/-- A step of the client that leaves the memory as it is. -/
theorem Ordered.run {a : EndpointSecurity.Action} {t : EndpointSecurity.State}
    (h : Ordered cfg s₀ s t)
    (hstep : s.within (EndpointSecurity.step cfg a s.process) = some s') :
    ∃ t', Ordered cfg s₀ s' t' := by
  simp only [State.within] at hstep
  split_ifs at hstep with halive
  obtain ⟨t', ht', rfl⟩ := Option.map_eq_some_iff.mp hstep
  refine ⟨t', h.within halive ht' halive fun hclosing => ?_⟩
  exact step_closed ht' (h.process halive ▸ h.closed hclosing)

/-- An invalid message is freed after its client. -/
theorem Ordered.stale {p : Nat} {t : EndpointSecurity.State} (h : Ordered cfg s₀ s t)
    (hfreed : s.memory = .freed) (hinvalid : (s.process.wrapper p).valid = false)
    (hstep : freeStale p s = some s') : Ordered cfg s₀ s' t := by
  simp only [freeStale] at hstep
  split_ifs at hstep
  cases hstep
  have hsame : ∀ r, (Function.update s.process.wrapper p
      { s.process.wrapper p with valid := false, live := false } r).valid =
      (s.process.wrapper r).valid := by
    intro r
    rcases eq_or_ne r p with rfl | hne
    · rw [Function.update_self, hinvalid]
    · rw [Function.update_of_ne hne]
  refine { h with
    process := fun halive => absurd hfreed halive
    valid := fun r => (hsame r).trans (h.valid r)
    live := fun r hr => ?_
    useAfterFree := by simp [h.useAfterFree, hinvalid] }
  have hne : r ≠ p := by
    rintro rfl
    simp at hr
  simp only [Function.update_of_ne hne] at hr ⊢
  exact h.live r hr

/-- A step that meets the condition. -/
theorem step_ordered {a : Action} {t : EndpointSecurity.State} (h : Ordered cfg s₀ s t)
    (hfirst : MessagesFirst a s) (hstep : step cfg a s = some s') : ∃ t', Ordered cfg s₀ s' t' := by
  cases a with
  | callback k input => exact h.run (a := .callback k input) hstep
  | watchdog input => exact h.run (a := .watchdog input) hstep
  | native input => exact h.run (a := .ruby input) hstep
  | freeClient =>
    simp only [step] at hstep
    split_ifs at hstep with hallocated
    obtain ⟨t', ht', rfl⟩ := Option.map_eq_some_iff.mp hstep
    exact ⟨t', h.within (a := .call .close) (by rw [hallocated]; nofun) ht' nofun
      fun _ => callStep_closed ht' (.inr rfl)⟩
  | destroy =>
    simp only [step] at hstep
    split_ifs at hstep with hdone
    obtain ⟨hclosing, hidle⟩ := hdone
    cases hstep
    exact ⟨t, { h with
      process := fun halive => absurd rfl halive
      closed := fun _ => h.closed (by rw [hclosing]; nofun)
      idle := fun _ => h.process (by rw [hclosing]; nofun) ▸ hidle }⟩
  | freeMessage p =>
    simp only [step] at hstep
    cases hmemory : s.memory with
    | allocated =>
      simp only [hmemory] at hstep
      exact h.run (a := .call (.free p)) hstep
    | closing => simp [hmemory] at hstep
    | freed =>
      simp only [hmemory] at hstep
      exact ⟨t, h.stale hmemory (hfirst hmemory) hstep⟩

theorem reachable_ordered (hs₀ : Reachable (EndpointSecurity.step cfg) (.init cfg) s₀)
    (hs : Reachable (orderedStep cfg) (.init s₀) s) : ∃ t, Ordered cfg s₀ s t := by
  apply hs.invariant (I := fun s => ∃ t, Ordered cfg s₀ s t)
  · exact ⟨s₀, {
      reachable := hs₀
      process := fun _ => rfl
      closed := fun h => absurd rfl h
      idle := nofun
      log := rfl
      valid := fun _ => rfl
      live := (reachable_logs hs₀).live
      grown := fun _ => List.suffix_refl _
      useAfterFree := rfl }⟩
  · intro s a s' _ ⟨t, h⟩ hstep
    simp only [orderedStep] at hstep
    split_ifs at hstep with hfirst
    exact step_ordered h hfirst hstep

/-- The message of a valid wrapper has been retained. -/
theorem retained_of_valid {s : EndpointSecurity.State} {p : Nat}
    (hs : Reachable (EndpointSecurity.step cfg) (.init cfg) s) (hvalid : (s.wrapper p).valid) :
    .retain ∈ s.history.log (s.wrapper p).message := by
  have hlogs := reachable_logs hs
  obtain ⟨hclaimed, howner, -⟩ := hlogs.wrapped p (hlogs.live p hvalid)
  have hretain := (Life.of_counts (hlogs.life (s.wrapper p).message)).retain
  rw [howner, State.life_owner (reachable_slots hs) hclaimed] at hretain
  rw [howner, ← List.count_pos_iff, hretain]
  exact Nat.one_pos

/-- The order of the free functions. From any reachable state of a client on:

    * in every run whose steps all meet the condition, nothing freed is read, and when all has
      been freed every message that a wrapper held has been released exactly once,
    * a step that does not meet the condition reads freed memory. -/
theorem freed_in_order (hs₀ : Reachable (EndpointSecurity.step cfg) (.init cfg) s₀) :
    (∀ s, Reachable (orderedStep cfg) (.init s₀) s → FreedProperly s₀ s) ∧
    (∀ s a s', Reachable (step cfg) (.init s₀) s → ¬ MessagesFirst a s → step cfg a s = some s' →
      s'.useAfterFree) := by
  refine ⟨fun s hs => ?_, fun s a s' _ hnot hstep => ?_⟩
  · obtain ⟨t, h⟩ := reachable_ordered hs₀ hs
    refine ⟨h.useAfterFree, fun ⟨hfreed, hdead⟩ p hvalid => ?_⟩
    have hinvalid : ∀ r, (t.wrapper r).valid = false := by
      intro r
      rw [← h.valid r]
      by_contra hr
      have hlive := h.live r (by simpa using hr)
      rw [hdead r] at hlive
      cases hlive
    have hclosed : t.closed := h.closed (by rw [hfreed]; nofun)
    have hbalance := released_at_rest h.reachable hclosed (h.idle hfreed) hinvalid
      (s₀.wrapper p).message
    have hmem : .retain ∈ t.history.log (s₀.wrapper p).message :=
      (h.grown _).mem (retained_of_valid hs₀ hvalid)
    have honce := ((references_balanced h.reachable).1 (s₀.wrapper p).message).1
    have hpos := List.count_pos_iff.mpr hmem
    rw [h.log, hbalance]
    omega
  · cases a with
    | freeMessage p =>
      simp only [MessagesFirst, Classical.not_imp, Bool.not_eq_false] at hnot
      obtain ⟨hfreed, hvalid⟩ := hnot
      simp only [step, hfreed, freeStale] at hstep
      split_ifs at hstep
      cases hstep
      simp [hvalid]
    | _ => exact absurd trivial hnot

/-- The message is released by its own free function, and then the client is freed. -/
def messageFirst : List Action :=
  [Action.freeMessage 0] ++ List.replicate 9 (Action.native {}) ++ clientFreed

theorem freed_in_order_message :
    let s₀ := TransitionSystem.final (EndpointSecurity.step smallClient) delivered
      (.init smallClient) (by decide +kernel)
    let s := TransitionSystem.final (orderedStep smallClient) messageFirst (.init s₀)
      (by decide +kernel)
    FreedProperly s₀ s ∧ (s₀.wrapper 0).valid ∧ s.memory = .freed :=
  ⟨(freed_in_order (.final _)).1 _ (.final _), by decide +kernel, by decide +kernel⟩

end EndpointSecurity.Finalizers
