import EndpointSecurity.Spec.ClientAnswers
import EndpointSecurity.Spec.MessageLife

/-!
# What a client does with its messages

How far each message has got can be told from the state of the client: from its callback, and
once it has a position, from the stage of that position and from its answer state. The client
keeps the contract of `Life`: every step of a client either leaves a message where it is or
is one of the events that the contract allows next.

## Key results

- `Logs`: every log keeps the contract and ends where the state says
- `reachable_logs`: the invariant holds in every reachable state
-/

namespace EndpointSecurity

open TransitionSystem (Reachable)

/-- The message of the position has been handed back. -/
def Stage.dropped : Stage → Bool
  | .unreferenced | .cleared | .released => true
  | _ => false

theorem Stage.active_of_answerable {st : Stage} (h : st.answerable) : st.phase.active := by
  cases st <;> simp_all [answerable, phase, SeqRing.Phase.active]

theorem Stage.answerable_of_occupied {st : Stage} (h : st.occupied) : st.answerable := by
  cases st <;> simp_all [answerable, occupied]

/-- How far a callback that has no position has got with its message. -/
def CallbackPc.life (isAuth : Bool) : CallbackPc → Life
  | .absent | .loadClosed | .refuse | .retain => {}
  | .leave .refused | .returned .refused => { answered := isAuth }
  | .drop => { retained := true, answered := isAuth }
  | .leave .dropped | .returned .dropped =>
    { retained := true, released := true, answered := isAuth }
  | _ => { retained := true }

/-- Somebody still has to respond to the message of position `p`, if it is an AUTH message. -/
def State.owes (s : State) (p : Nat) : Bool :=
  s.history.stage p = .claimed ||
    (s.history.stage p).answerable && (s.queue.slot p).answerState = .pending ||
    (s.history.sending p).isSome

/-- How far message `m` has got. -/
def State.life (cfg : Config) (s : State) (m : Nat) : Life :=
  match (s.callback m).position with
  | none => (s.callback m).life (cfg.isAuth m)
  | some p =>
    { retained := true
      released := (s.history.stage p).dropped
      answered := cfg.isAuth m && !s.owes p }

/-- A response is sent through the native client that the message came from, and only a response
    method has a say in the verdict. A read of the message is through its own wrapper. -/
def MessageEvent.Proper (cfg : Config) (h : History) (m : Nat) : MessageEvent → Prop
  | .retain | .release => True
  | .read p => h.stage p ≠ .unclaimed ∧ h.owner p = m
  | .respond client sender response => client = (cfg.arrivals m).client ∧
    ((∀ call, sender ≠ .ruby call) → response = cfg.response m cfg.defaultAnswer)

/-- The invariant of every run. -/
structure Logs (cfg : Config) (s : State) : Prop where
  life : ∀ m, Life.of (cfg.isAuth m) (s.history.log m) = some (s.life cfg m)
  proper : ∀ m, ∀ e ∈ s.history.log m, e.Proper cfg s.history m
  wrapped : ∀ p, (s.wrapper p).live → s.history.stage p ≠ .unclaimed ∧
    (s.wrapper p).message = s.history.owner p ∧
    ((s.wrapper p).valid ∨ s.history.stage p = .released)
  live : ∀ p, (s.wrapper p).valid → (s.wrapper p).live
  returned : ∀ r ∈ s.history.returned, r.value →
    ∃ client, .respond client (.ruby r.call) r.response ∈ s.history.log r.message

theorem logs_init (cfg : Config) : Logs cfg (.init cfg) where
  life _ := rfl
  proper := by simp [State.init, History.init]
  wrapped := by simp [State.init]
  live := by simp [State.init]
  returned := by simp [State.init, History.init]

/-! ## Where a message is -/

variable {cfg : Config} {s s' : State} {k m p : Nat} {i : Input}

/-- Where the message of a claimed position is. -/
theorem State.life_owner (hslots : SlotsInv cfg s) (hp : s.history.stage p ≠ .unclaimed) :
    s.life cfg (s.history.owner p) =
      { retained := true, released := (s.history.stage p).dropped,
        answered := cfg.isAuth (s.history.owner p) && !s.owes p } := by
  rw [State.life, hslots.callbacks.claimed p hp]

/-- A message stays where it is while its callback and its position do. -/
theorem State.life_eq (hslots : SlotsInv cfg s)
    (hcallback : (s'.callback m).position = (s.callback m).position ∧
      (s'.callback m).life (cfg.isAuth m) = (s.callback m).life (cfg.isAuth m))
    (hposition : ∀ p, s.history.stage p ≠ .unclaimed → s.history.owner p = m →
      (s'.history.stage p).dropped = (s.history.stage p).dropped ∧ s'.owes p = s.owes p) :
    s'.life cfg m = s.life cfg m := by
  rw [State.life, State.life, hcallback.1, hcallback.2]
  cases hp : (s.callback m).position with
  | none => rfl
  | some p =>
    obtain ⟨hclaimed, howner⟩ := hslots.callbacks.position m p hp
    obtain ⟨hdropped, howes⟩ := hposition p hclaimed howner
    simp only [hdropped, howes]

/-- A step that changes neither the answer state of a position nor whether there is one keeps
    what is owed for it. -/
theorem State.owes_congr
    (hclaimed : s'.history.stage p = .claimed ↔ s.history.stage p = .claimed)
    (hanswerable : (s'.history.stage p).answerable = (s.history.stage p).answerable)
    (hslot : (s.history.stage p).answerable →
      (s'.queue.slot p).answerState = (s.queue.slot p).answerState)
    (hsending : s'.history.sending p = s.history.sending p) : s'.owes p = s.owes p := by
  simp only [State.owes, hclaimed, hanswerable, hsending]
  cases hst : (s.history.stage p).answerable with
  | false => rfl
  | true => rw [hslot hst]

theorem State.owes_eq (hstage : s'.history.stage p = s.history.stage p)
    (hslot : (s.history.stage p).answerable →
      (s'.queue.slot p).answerState = (s.queue.slot p).answerState)
    (hsending : s'.history.sending p = s.history.sending p) : s'.owes p = s.owes p :=
  State.owes_congr (by rw [hstage]) (by rw [hstage]) hslot hsending

/-- A write to the slot of a position in use keeps what is owed for the others. -/
theorem State.owes_of_ne (hslots : SlotsInv cfg s) {r : Nat} (hne : r ≠ p)
    (hp : (s.history.stage p).phase.active) (hcap : s'.queue.capacity = s.queue.capacity)
    (hwrite : ∀ j, j ≠ s.queue.index p → s'.queue.slots j = s.queue.slots j)
    (hstage : s'.history.stage r = s.history.stage r)
    (hsending : s'.history.sending r = s.history.sending r) : s'.owes r = s.owes r := by
  refine State.owes_eq hstage (fun hst => ?_) hsending
  have hactive := Stage.active_of_answerable hst
  have hindex : s'.queue.index r = s.queue.index r := by
    rw [Queue.index, Queue.index, Queue.mask, Queue.mask, hcap]
  rw [Queue.slot, Queue.slot, hindex, hwrite _ (hslots.slots.alone hp r hne hactive)]

/-- What has been claimed stays claimed, by the same message. -/
def History.Continues (h h' : History) : Prop :=
  ∀ p, h.stage p ≠ .unclaimed → h'.stage p ≠ .unclaimed ∧ h'.owner p = h.owner p

theorem History.continues_of_update {h h' : History} {st : Stage} (hst : st ≠ .unclaimed)
    (hstage : h'.stage = Function.update h.stage p st) (howner : h'.owner = h.owner) :
    h.Continues h' := by
  intro r hr
  rw [hstage, howner, Function.update_apply]
  split_ifs
  · exact ⟨hst, rfl⟩
  · exact ⟨hr, rfl⟩

/-- What has been released stays so when another position moves on. -/
theorem released_of_update {stage : Nat → Stage} {st : Stage} {r : Nat}
    (hp : stage p ≠ .released) (hr : stage r = .released) :
    Function.update stage p st r = .released := by
  rw [Function.update_of_ne]
  · exact hr
  · rintro rfl
    exact hp hr

theorem MessageEvent.Proper.mono {e : MessageEvent} {h h' : History} (hcontinues : h.Continues h')
    (he : e.Proper cfg h m) : e.Proper cfg h' m := by
  cases e with
  | read p =>
    obtain ⟨hclaimed, howner⟩ := he
    exact ⟨(hcontinues p hclaimed).1, (hcontinues p hclaimed).2.trans howner⟩
  | _ => exact he

/-! ## What a step does to the logs -/

/-- A message stays where it is, or gets as far as an event takes it that is allowed next. -/
def State.Follows (cfg : Config) (s s' : State) (m : Nat) : Prop :=
  s'.history.log m = s.history.log m ∧ s'.life cfg m = s.life cfg m ∨
  ∃ e, s'.history.log m = e :: s.history.log m ∧ e.Proper cfg s'.history m ∧
    (s.life cfg m).step (cfg.isAuth m) e = some (s'.life cfg m)

/-- A step after which every message has followed the contract. -/
theorem Logs.next (h : Logs cfg s) (hcontinues : s.history.Continues s'.history)
    (hfollows : ∀ m, s.Follows cfg s' m)
    (hwrapped : ∀ p, (s'.wrapper p).live → s'.history.stage p ≠ .unclaimed ∧
      (s'.wrapper p).message = s'.history.owner p ∧
      ((s'.wrapper p).valid ∨ s'.history.stage p = .released))
    (hlive : ∀ p, (s'.wrapper p).valid → (s'.wrapper p).live)
    (hreturned : ∀ r ∈ s'.history.returned, r ∈ s.history.returned ∨ (r.value →
      ∃ client, .respond client (.ruby r.call) r.response ∈ s'.history.log r.message)) :
    Logs cfg s' := by
  -- A log only grows, so what a response has been recorded with stays recorded.
  have hgrows : ∀ m, ∀ e ∈ s.history.log m, e ∈ s'.history.log m := by
    intro m e he
    rcases hfollows m with ⟨hlog, -⟩ | ⟨e', hlog, -⟩
    · rwa [hlog]
    · rw [hlog]
      exact List.mem_cons_of_mem _ he
  constructor
  case life =>
    intro m
    rcases hfollows m with ⟨hlog, hlife⟩ | ⟨e, hlog, -, hstep⟩
    · rw [hlog, hlife]
      exact h.life m
    · rw [hlog]
      exact Life.of_cons (h.life m) hstep
  case proper =>
    intro m e he
    rcases hfollows m with ⟨hlog, -⟩ | ⟨e', hlog, hproper, -⟩
    · exact (h.proper m e (hlog ▸ he)).mono hcontinues
    · rw [hlog] at he
      rcases List.mem_cons.mp he with rfl | he
      · exact hproper
      · exact (h.proper m e he).mono hcontinues
  case wrapped => exact hwrapped
  case live => exact hlive
  case returned =>
    intro r hr hvalue
    rcases hreturned r hr with hr | hr
    · obtain ⟨client, hmem⟩ := h.returned r hr hvalue
      exact ⟨client, hgrows _ _ hmem⟩
    · exact hr hvalue

/-- A step that does not change the wrappers. -/
theorem Logs.follow_returned (h : Logs cfg s) (hwrapper : s'.wrapper = s.wrapper)
    (hcontinues : s.history.Continues s'.history)
    (hreleased : ∀ p, s.history.stage p = .released → s'.history.stage p = .released)
    (hfollows : ∀ m, s.Follows cfg s' m)
    (hreturned : ∀ r ∈ s'.history.returned, r ∈ s.history.returned ∨ (r.value →
      ∃ client, .respond client (.ruby r.call) r.response ∈ s'.history.log r.message)) :
    Logs cfg s' := by
  refine h.next hcontinues hfollows (fun p hp => ?_) ?_ hreturned
  · rw [hwrapper] at hp ⊢
    obtain ⟨hclaimed, hmessage, hvalid⟩ := h.wrapped p hp
    obtain ⟨hclaimed', howner⟩ := hcontinues p hclaimed
    exact ⟨hclaimed', hmessage.trans howner.symm, hvalid.imp id (hreleased p)⟩
  · rw [hwrapper]
    exact h.live

/-- A step that changes neither the wrappers nor what has been returned. -/
theorem Logs.follow (h : Logs cfg s)
    (hsame : s'.history.returned = s.history.returned ∧ s'.wrapper = s.wrapper)
    (hcontinues : s.history.Continues s'.history)
    (hreleased : ∀ p, s.history.stage p = .released → s'.history.stage p = .released)
    (hfollows : ∀ m, s.Follows cfg s' m) : Logs cfg s' := by
  refine h.follow_returned hsame.2 hcontinues hreleased hfollows ?_
  rw [hsame.1]
  exact fun _ => .inl

/-- A step that changes the wrapper of one position. A wrapper that is still valid stays so until
    its position is released. -/
theorem Logs.rewrap (h : Logs cfg s) {w : Wrapper}
    (hwrapper : s'.wrapper = Function.update s.wrapper p w)
    (hself : w.message = (s.wrapper p).message ∧ (w.live → (s.wrapper p).live) ∧
      (w.valid → w.live) ∧
      (w.live → (s.wrapper p).valid → w.valid ∨ s'.history.stage p = .released))
    (hreturned : s'.history.returned = s.history.returned)
    (hcontinues : s.history.Continues s'.history)
    (hreleased : ∀ p, s.history.stage p = .released → s'.history.stage p = .released)
    (hfollows : ∀ m, s.Follows cfg s' m) : Logs cfg s' := by
  obtain ⟨hmessage, hlive, hvalid, hgone⟩ := hself
  refine h.next hcontinues hfollows (fun r hr => ?_) (fun r hr => ?_) ?_
  · rw [hwrapper] at hr ⊢
    rcases eq_or_ne r p with rfl | hne
    · -- The position whose wrapper changes
      rw [Function.update_self] at hr ⊢
      obtain ⟨hclaimed, hmessage', hvalid'⟩ := h.wrapped r (hlive hr)
      obtain ⟨hclaimed', howner⟩ := hcontinues r hclaimed
      refine ⟨hclaimed', (hmessage.trans hmessage').trans howner.symm, ?_⟩
      rcases hvalid' with hv | hst
      · exact hgone hr hv
      · exact .inr (hreleased r hst)
    · rw [Function.update_of_ne hne] at hr ⊢
      obtain ⟨hclaimed, hmessage', hvalid'⟩ := h.wrapped r hr
      obtain ⟨hclaimed', howner⟩ := hcontinues r hclaimed
      exact ⟨hclaimed', hmessage'.trans howner.symm, hvalid'.imp id (hreleased r)⟩
  · rw [hwrapper, Function.update_apply] at hr ⊢
    split_ifs at hr ⊢ with hrp
    · exact hvalid hr
    · exact h.live r hr
  · rw [hreturned]
    exact fun _ => .inl

/-- Something happens to message `m`, and nothing to the others. -/
theorem State.follows_of_record {e : MessageEvent}
    (hlog : s'.history.log = (s.history.record m e).log) (hproper : e.Proper cfg s'.history m)
    (hstep : (s.life cfg m).step (cfg.isAuth m) e = some (s'.life cfg m))
    (hother : ∀ r, r ≠ m → s'.life cfg r = s.life cfg r) (r : Nat) : s.Follows cfg s' r := by
  rcases eq_or_ne r m with rfl | hne
  · exact .inr ⟨e, (congrFun hlog r).trans (Function.update_self ..), hproper, hstep⟩
  · exact .inl ⟨(congrFun hlog r).trans (Function.update_of_ne hne ..), hother r hne⟩

/-- A thread that has won the exchange of a position responds to its message. -/
theorem State.follows_of_send (hslots : SlotsInv cfg s) (hanswers : Answers s) {thread : Thread}
    {index : Nat} {sender : Sender} {a : Answer} (hsends : s.sends p thread)
    (hindex : s.queue.index p = index)
    (hcallback : ∀ m, (s'.callback m).position = (s.callback m).position ∧
      (s'.callback m).life (cfg.isAuth m) = (s.callback m).life (cfg.isAuth m))
    (hqueue : s'.queue = s.queue)
    (hsame : s'.history.stage = s.history.stage ∧ s'.history.owner = s.history.owner ∧
      s'.history.sending = Function.update s.history.sending p none)
    (hlog : s'.history.log = (s.history.record (s.queue.slots index).message
      (.respond (s.queue.slots index).client sender
        (cfg.response (s.queue.slots index).message a))).log)
    (hproper : (∀ call, sender ≠ .ruby call) → a = cfg.defaultAnswer) (m : Nat) :
    s.Follows cfg s' m := by
  subst hindex
  obtain ⟨hstage, howner, hsending⟩ := hsame
  have hwon := (hanswers.sending.sends p thread).mpr hsends
  obtain ⟨hanswered, hreadable⟩ := hanswers.sending.answered p thread hwon
  have hstages : (s.history.stage p).full ∧ s.history.stage p ≠ .claimed ∧
      s.history.stage p ≠ .unclaimed ∧ (s.history.stage p).dropped = false := by
    cases hst : s.history.stage p <;>
      simp [hst, Stage.readable, Stage.full, Stage.referenced, Stage.dropped] at hreadable ⊢
  obtain ⟨hfull, hnotclaimed, hclaimed, hdropped⟩ := hstages
  have hslot := hslots.slots.slot p
  obtain ⟨hmessage, hclient, -⟩ := hslot.full hfull
  -- Only an auth message has an answer state that can have been exchanged.
  have hauth : cfg.isAuth (s.history.owner p) := by
    by_contra hnot
    have := (hslot.answer hfull).mpr (by simpa using hnot)
    rw [hanswered] at this
    cases this
  -- The exchange has been won and the response is still owed; the step pays it.
  have howed : s.owes p := by simp [State.owes, hwon]
  have hpaid : s'.owes p = false := by
    simp [State.owes, hstage, hnotclaimed, hsending, hqueue, hanswered]
  have hposition := hslots.callbacks.claimed p hclaimed
  rw [Queue.slot] at hmessage hclient
  rw [hmessage, hclient] at hlog
  refine State.follows_of_record hlog ⟨rfl, fun hs => by rw [hproper hs]⟩ ?_ (fun r hr => ?_) m
  · rw [State.life_owner hslots hclaimed, State.life, (hcallback _).1, hposition]
    simp [Life.step, hdropped, howed, hauth, hpaid, hstage]
  · refine State.life_eq hslots (hcallback r) fun r' _ howner' => ⟨by rw [hstage], ?_⟩
    have hne : r' ≠ p := by
      rintro rfl
      exact hr howner'.symm
    exact State.owes_eq (by rw [hstage]) (fun _ => by rw [hqueue])
      (by rw [hsending, Function.update_of_ne hne])

/-- A thread that has won the exchange of a position answers its message by default. -/
theorem Logs.answerDefault (hslots : SlotsInv cfg s) (hanswers : Answers s) (h : Logs cfg s)
    {thread : Thread} {index : Nat} {sender : Sender} (hsends : s.sends p thread)
    (hindex : s.queue.index p = index)
    (hcallback : ∀ m, (s'.callback m).position = (s.callback m).position ∧
      (s'.callback m).life (cfg.isAuth m) = (s.callback m).life (cfg.isAuth m))
    (hlog : s'.history.log = (s.history.record (s.queue.slots index).message
      (.respond (s.queue.slots index).client sender
        (cfg.response (s.queue.slots index).message cfg.defaultAnswer))).log)
    (hsame : s'.queue = s.queue ∧ s'.history.stage = s.history.stage ∧
      s'.history.owner = s.history.owner ∧
      s'.history.sending = Function.update s.history.sending p none ∧
      s'.history.returned = s.history.returned ∧ s'.wrapper = s.wrapper := by
        exact ⟨rfl, rfl, rfl, rfl, rfl, rfl⟩) : Logs cfg s' := by
  obtain ⟨hqueue, hstage, howner, hsending, hreturned, hwrapper⟩ := hsame
  refine h.follow ⟨hreturned, hwrapper⟩ (fun r hr => ⟨by rwa [hstage], by rw [howner]⟩)
    (fun r hr => by rwa [hstage]) ?_
  exact State.follows_of_send hslots hanswers hsends hindex hcallback hqueue
    ⟨hstage, howner, hsending⟩ hlog fun _ => rfl

/-- A step of a callback changes nothing about the messages of the others, unless it changes
    the position of another callback. -/
theorem State.life_callback (hslots : SlotsInv cfg s) {pc : CallbackPc}
    (hcallback : s'.callback = Function.update s.callback k pc)
    (hposition : ∀ p, s.history.stage p ≠ .unclaimed → s.history.owner p ≠ k →
      s'.history.stage p = s.history.stage p ∧ s'.owes p = s.owes p) (hne : m ≠ k) :
    s'.life cfg m = s.life cfg m := by
  refine State.life_eq hslots ?_ fun p hp howner => ?_
  · rw [hcallback, Function.update_of_ne hne]
    exact ⟨rfl, rfl⟩
  · obtain ⟨hstage, howes⟩ := hposition p hp (howner ▸ hne)
    exact ⟨by rw [hstage], howes⟩

/-- A step of a callback that only goes on, with the same position. -/
theorem Logs.callbackCalm (hslots : SlotsInv cfg s) (h : Logs cfg s) {pc : CallbackPc}
    (hcallback : s'.callback = Function.update s.callback k pc)
    (hposition : pc.position = (s.callback k).position)
    (hlife : pc.life (cfg.isAuth k) = (s.callback k).life (cfg.isAuth k))
    (hsame : s'.queue.slots = s.queue.slots ∧ s'.queue.capacity = s.queue.capacity ∧
      s'.history.stage = s.history.stage ∧ s'.history.owner = s.history.owner ∧
      s'.history.sending = s.history.sending ∧ s'.history.log = s.history.log ∧
      s'.history.returned = s.history.returned ∧ s'.wrapper = s.wrapper := by
        exact ⟨rfl, rfl, rfl, rfl, rfl, rfl, rfl, rfl⟩) : Logs cfg s' := by
  obtain ⟨hslot, hcap, hstage, howner, hsending, hlog, hreturned, hwrapper⟩ := hsame
  refine h.follow ⟨hreturned, hwrapper⟩ (fun p hp => ⟨by rwa [hstage], by rw [howner]⟩)
    (fun p hp => by rwa [hstage]) fun m => .inl ⟨by rw [hlog], State.life_eq hslots ?_ ?_⟩
  · rw [hcallback, Function.update_apply]
    split_ifs with hm
    · rw [hm]
      exact ⟨hposition, hlife⟩
    · exact ⟨rfl, rfl⟩
  · intro p _ _
    refine ⟨by rw [hstage], State.owes_eq (by rw [hstage]) (fun _ => ?_) (by rw [hsending])⟩
    -- The answer state of `p` is found by its index, which the capacity determines.
    rw [Queue.slot, Queue.slot, Queue.index, Queue.index, Queue.mask, Queue.mask, hslot, hcap]

/-- A step of a callback that is an event in the life of its message. -/
theorem Logs.callbackEvent (hslots : SlotsInv cfg s) (h : Logs cfg s) {pc : CallbackPc}
    {e : MessageEvent} (hcallback : s'.callback = Function.update s.callback k pc)
    (hsame : s'.history.stage = s.history.stage ∧ s'.history.owner = s.history.owner ∧
      s'.history.returned = s.history.returned ∧ s'.wrapper = s.wrapper)
    (hlog : s'.history.log = (s.history.record k e).log)
    (howes : ∀ p, s.history.stage p ≠ .unclaimed → s.history.owner p ≠ k → s'.owes p = s.owes p)
    (hproper : e.Proper cfg s'.history k)
    (hstep : (s.life cfg k).step (cfg.isAuth k) e = some (s'.life cfg k)) : Logs cfg s' := by
  obtain ⟨hstage, howner, hreturned, hwrapper⟩ := hsame
  refine h.follow ⟨hreturned, hwrapper⟩ (fun p hp => ⟨by rwa [hstage], by rw [howner]⟩)
    (fun p hp => by rwa [hstage]) (State.follows_of_record hlog hproper hstep fun r hne => ?_)
  exact State.life_callback hslots hcallback
    (fun p hp hp' => ⟨by rw [hstage], howes p hp hp'⟩) hne

/-- A step of a callback that has no position: retaining its message, or answering it, or
    handing it back. -/
theorem Logs.callbackAlone (hslots : SlotsInv cfg s) (h : Logs cfg s) {pc : CallbackPc}
    {e : MessageEvent} (hcallback : s'.callback = Function.update s.callback k pc)
    (hsame : s'.queue = s.queue ∧ s'.history = s.history.record k e ∧ s'.wrapper = s.wrapper)
    (hposition : (s.callback k).position = none ∧ pc.position = none)
    (hproper : e.Proper cfg s.history k)
    (hstep : ((s.callback k).life (cfg.isAuth k)).step (cfg.isAuth k) e =
      some (pc.life (cfg.isAuth k))) : Logs cfg s' := by
  obtain ⟨hqueue, hhistory, hwrapper⟩ := hsame
  refine h.callbackEvent (e := e) hslots hcallback
    (by rw [hhistory]; exact ⟨rfl, rfl, rfl, hwrapper⟩) (by rw [hhistory]) (fun p _ _ => ?_) ?_ ?_
  · rw [State.owes, State.owes, hqueue, hhistory]
    rfl
  · rw [hhistory]
    cases e <;> exact hproper
  · rw [State.life, State.life, hcallback, Function.update_self, hposition.1, hposition.2]
    exact hstep

/-- A step of a callback that moves its position on, or claims one. -/
theorem Logs.callbackMove (hslots : SlotsInv cfg s) (h : Logs cfg s) {pc : CallbackPc}
    (hcallback : s'.callback = Function.update s.callback k pc)
    (hcontinues : s.history.Continues s'.history)
    (hreleased : ∀ p, s.history.stage p = .released → s'.history.stage p = .released)
    (hother : ∀ p, s.history.stage p ≠ .unclaimed → s.history.owner p ≠ k →
      s'.history.stage p = s.history.stage p ∧ s'.owes p = s.owes p)
    (hself : s'.life cfg k = s.life cfg k)
    (hsame : s'.history.log = s.history.log ∧ s'.history.returned = s.history.returned ∧
      s'.wrapper = s.wrapper := by exact ⟨rfl, rfl, rfl⟩) : Logs cfg s' := by
  refine h.follow ⟨hsame.2.1, hsame.2.2⟩ hcontinues hreleased fun m => .inl ⟨by rw [hsame.1], ?_⟩
  rcases eq_or_ne m k with rfl | hne
  · exact hself
  · exact State.life_callback hslots hcallback hother hne

/-- A step of a callback on the position that it holds. -/
theorem Logs.callbackWork (hslots : SlotsInv cfg s) (h : Logs cfg s) {pc : CallbackPc} {st : Stage}
    (st' : Stage) (hcallback : s'.callback = Function.update s.callback k pc)
    (hholds : (s.callback k).holds = some (p, st)) (hposition : pc.position = some p)
    (hstage : s'.history.stage = Function.update s.history.stage p st')
    (hst' : st' ≠ .unclaimed ∧ st'.dropped = false)
    (hwrite : ∀ j, j ≠ s.queue.index p → s'.queue.slots j = s.queue.slots j)
    (hsending : ∀ r, r ≠ p → s'.history.sending r = s.history.sending r)
    (howes : cfg.isAuth k → s'.owes p = s.owes p)
    (hsame : s'.queue.capacity = s.queue.capacity ∧ s'.history.owner = s.history.owner ∧
      s'.history.log = s.history.log ∧ s'.history.returned = s.history.returned ∧
      s'.wrapper = s.wrapper := by exact ⟨rfl, rfl, rfl, rfl, rfl⟩) : Logs cfg s' := by
  obtain ⟨hcap, howner, hlog, hreturned, hwrapper⟩ := hsame
  have hst := hslots.callbacks.holds k p st hholds
  have hk := CallbackPc.position_of_holds hholds
  have hheld := (Stage.held_iff st).mp hk.2
  have hactive : (s.history.stage p).phase.active := by
    rw [hst]
    rcases hheld with rfl | rfl | rfl <;> rfl
  refine h.callbackMove hslots hcallback (History.continues_of_update hst'.1 hstage howner)
    (fun r hr => ?_) (fun r _ hr' => ?_) ?_ ⟨hlog, hreturned, hwrapper⟩
  · rw [hstage]
    refine released_of_update ?_ hr
    rw [hst]
    rcases hheld with rfl | rfl | rfl <;> simp
  · -- Position `p` belongs to `k`, and `r` to another callback.
    have hne : r ≠ p := by
      rintro rfl
      exact hr' (hslots.callbacks.position k r hk.1).2
    have hstage' : s'.history.stage r = s.history.stage r := by
      rw [hstage, Function.update_of_ne hne]
    exact ⟨hstage', State.owes_of_ne hslots hne hactive hcap hwrite hstage' (hsending r hne)⟩
  · -- In the hands of its callback a position is not dropped; what it owes has not changed.
    have hdropped : st.dropped = false := by rcases hheld with rfl | rfl | rfl <;> rfl
    simp only [State.life, hcallback, Function.update_self, hposition, hk.1, hstage, hst, hdropped,
      hst'.2]
    cases hauth : cfg.isAuth k with
    | false => rfl
    | true => rw [howes hauth]

theorem callbackStep_logs (hslots : SlotsInv cfg s) (hanswers : Answers s) (h : Logs cfg s)
    (hstep : callbackStep cfg k i s = some s') : Logs cfg s' := by
  cases hpc : s.callback k with
  | absent | publishRequest | loadDequeue | loadDepthMax | notifyWrite =>
    simp only [callbackStep, hpc, Option.some.injEq] at hstep
    subst hstep
    exact h.callbackCalm hslots rfl (by rw [hpc]; rfl) (by rw [hpc]; rfl)
  | leave outcome =>
    simp only [callbackStep, hpc, Option.some.injEq] at hstep
    subst hstep
    cases outcome <;>
      exact h.callbackCalm hslots rfl (by rw [hpc]; rfl) (by rw [hpc]; rfl)
  | loadClosed =>
    simp only [callbackStep, hpc, Option.some.injEq] at hstep
    subst hstep
    split <;>
      exact h.callbackCalm hslots rfl (by rw [hpc]; rfl) (by rw [hpc]; rfl)
  | retain | drop =>
    simp only [callbackStep, hpc, Option.some.injEq] at hstep
    subst hstep
    exact h.callbackAlone hslots rfl ⟨rfl, rfl, rfl⟩ (by rw [hpc]; exact ⟨rfl, rfl⟩) trivial
      (by rw [hpc]; rfl)
  | refuse | overflow =>
    simp only [callbackStep, hpc, Option.some.injEq, State.respondUnqueued] at hstep
    split_ifs at hstep with hauth <;> subst hstep
    · exact h.callbackAlone hslots rfl ⟨rfl, rfl, rfl⟩ (by rw [hpc]; exact ⟨rfl, rfl⟩)
        ⟨rfl, fun _ => rfl⟩ (by rw [hpc, hauth]; rfl)
    · -- A notify message owes no answer, so nothing has happened in its life.
      have hnotify : cfg.isAuth k = false := by simpa using hauth
      exact h.callbackCalm hslots rfl (by rw [hpc]; rfl) (by rw [hpc, hnotify]; rfl)
  | arm p pc =>
    simp only [callbackStep, hpc] at hstep
    cases hres : s.requests.arm i.spurious pc <;> simp only [hres, Option.some.injEq] at hstep <;>
      subst hstep
    all_goals
      exact h.callbackCalm hslots rfl (by rw [hpc]; rfl) (by rw [hpc]; rfl)
  | raiseDepthMax | notify =>
    simp only [callbackStep, hpc] at hstep
    split_ifs at hstep <;> cases hstep <;>
      exact h.callbackCalm hslots rfl (by rw [hpc]; rfl) (by rw [hpc]; rfl)
  | enqueue pc =>
    have hloop := SeqRing.Ring.ClaimOk.step i.spurious (hslots.claiming k pc hpc)
    simp only [callbackStep, hpc, Queue.enqueue] at hstep
    cases hres : s.queue.ring.claimStep i.spurious pc with
    | running | none =>
      simp only [hres, Option.some.injEq] at hstep
      subst hstep
      exact h.callbackCalm hslots rfl (by rw [hpc]; rfl) (by rw [hpc]; rfl)
    | got p =>
      simp only [hres, Option.some.injEq] at hstep hloop
      obtain ⟨rfl, hseq⟩ := hloop
      have hfree := hslots.slots.next_unclaimed
      -- The other positions are claimed already.
      have hne : ∀ r, s.history.stage r ≠ .unclaimed → r ≠ s.queue.enqueuePosition := by
        rintro r hr rfl
        exact hr hfree
      subst hstep
      refine h.callbackMove hslots rfl (fun r hr => ?_) (fun r hr => ?_) (fun r hr _ => ?_) ?_
      · simp only [History.claim, History.enter, Queue.ring_enq, Function.update_of_ne (hne r hr)]
        exact ⟨hr, trivial⟩
      · exact released_of_update (by rw [Queue.ring_enq, hfree]; simp) hr
      · have hstage : Function.update s.history.stage s.queue.enqueuePosition .claimed r =
            s.history.stage r := Function.update_of_ne (hne r hr) ..
        exact ⟨hstage, State.owes_eq hstage (fun _ => by grind [Queue.slot]) rfl⟩
      · simp [State.life, hpc, CallbackPc.position, CallbackPc.life, History.claim, History.enter,
          Stage.dropped, State.owes]
  | fill p =>
    have hst := hslots.callbacks.holds k p .claimed (by rw [hpc]; rfl)
    simp only [callbackStep, hpc, Option.some.injEq] at hstep
    subst hstep
    refine h.callbackWork hslots .filled rfl (by rw [hpc]; rfl) rfl rfl
      ⟨(by simp), rfl⟩ (by grind) (fun _ _ => rfl) fun hauth => ?_
    -- From here on the answer state says that a response is owed.
    have hauth' : (cfg.arrivals k).isAuth := hauth
    simp [State.owes, hst, hauth', History.due, History.enter, Stage.answerable, Queue.slot,
      Queue.slots_storeAnswerState]
  | storeOccupied p =>
    have hst := hslots.callbacks.holds k p .filled (by rw [hpc]; rfl)
    simp only [callbackStep, hpc, Option.some.injEq] at hstep
    subst hstep
    split <;>
    · refine h.callbackWork hslots .marked rfl (by rw [hpc]; rfl) rfl rfl
        ⟨(by simp), rfl⟩ (by grind) (fun _ _ => rfl)
        fun _ => State.owes_congr ?_ ?_ (fun _ => ?_) rfl
      · simp [hst, History.enter]
      · simp [hst, History.enter, Stage.answerable]
      · grind [Queue.slot]
  | answer p =>
    have hst := hslots.callbacks.holds k p .marked (by rw [hpc]; rfl)
    simp only [callbackStep, hpc, State.answer] at hstep
    split_ifs at hstep with hpending <;> cases hstep
    · refine h.callbackWork hslots .marked rfl (by rw [hpc]; rfl) rfl
        -- The stage stays: only the exchange has been won, and the response is owed by the winner.
        (by rw [← hst, Function.update_eq_self]; rfl) ⟨(by simp), rfl⟩ (by grind)
        (fun r hr => Function.update_of_ne hr ..) fun _ => ?_
      simp [State.owes, hst, hpending, History.send, Stage.answerable]
    · exact h.callbackCalm hslots rfl (by rw [hpc]; rfl) (by rw [hpc]; rfl)
  | respond p =>
    have hsends : s.sends p .callback := ⟨k, by rw [hpc]; rfl⟩
    simp only [callbackStep, hpc, Option.some.injEq] at hstep
    subst hstep
    refine h.answerDefault hslots hanswers hsends rfl (fun m => ?_) rfl
    simp only [Function.update_apply]
    split_ifs with hm
    · rw [hm, hpc]
      exact ⟨rfl, rfl⟩
    · exact ⟨rfl, rfl⟩
  | storeSequence p =>
    have hst := hslots.callbacks.holds k p .marked (by rw [hpc]; rfl)
    simp only [callbackStep, hpc, Option.some.injEq] at hstep
    subst hstep
    refine h.callbackWork hslots .queued rfl (by rw [hpc]; rfl) rfl rfl
      ⟨(by simp), rfl⟩ (by grind) (fun _ _ => rfl) fun _ => State.owes_congr ?_ ?_ (fun _ => ?_) rfl
    · simp [hst, History.enter]
    · simp [hst, History.enter, Stage.answerable]
    · grind [Queue.slot]
  | returned => simp [callbackStep, hpc] at hstep

/-- A step of the watchdog or of a native method after which every message is where it was. -/
theorem State.follows_of_same (hslots : SlotsInv cfg s) (hcallback : s'.callback = s.callback)
    (hlog : s'.history.log = s.history.log)
    (hpositions : ∀ p, s.history.stage p ≠ .unclaimed →
      (s'.history.stage p).dropped = (s.history.stage p).dropped ∧ s'.owes p = s.owes p) (m : Nat) :
    s.Follows cfg s' m := by
  refine .inl ⟨by rw [hlog], State.life_eq hslots ?_ fun p hp _ => hpositions p hp⟩
  rw [hcallback]
  exact ⟨rfl, rfl⟩

/-- A step of the watchdog or of a native method that has nothing to do with any message. -/
theorem Logs.frame (hslots : SlotsInv cfg s) (h : Logs cfg s)
    (hqueue : ∀ j, (s'.queue.slots j).answerState = (s.queue.slots j).answerState)
    (hpositions : s'.queue.capacity = s.queue.capacity ∧ s'.history.stage = s.history.stage ∧
      s'.history.sending = s.history.sending)
    (hsame : s'.callback = s.callback ∧ s'.history.owner = s.history.owner ∧
      s'.history.log = s.history.log ∧ s'.history.returned = s.history.returned ∧
      s'.wrapper = s.wrapper := by exact ⟨rfl, rfl, rfl, rfl, rfl⟩) : Logs cfg s' := by
  obtain ⟨hcallback, howner, hlog, hreturned, hwrapper⟩ := hsame
  obtain ⟨hcap, hstage, hsending⟩ := hpositions
  refine h.follow ⟨hreturned, hwrapper⟩ (fun p hp => ⟨by rwa [hstage], by rw [howner]⟩)
    (fun p hp => by rwa [hstage]) (State.follows_of_same hslots hcallback hlog fun p _ => ?_)
  refine ⟨by rw [hstage], State.owes_eq (by rw [hstage]) (fun _ => ?_) (by rw [hsending])⟩
  rw [Queue.slot, Queue.slot, Queue.index, Queue.index, Queue.mask, Queue.mask, hcap, hqueue]

/-- A thread wins the exchange of a position. -/
theorem Logs.win (hslots : SlotsInv cfg s) (h : Logs cfg s) {index : Nat} {thread : Thread}
    (hsame : s'.callback = s.callback ∧ s'.wrapper = s.wrapper)
    (hqueue : s'.queue = s.queue.storeAnswerState index .answered)
    (hhistory : s'.history = s.history.send p (some thread)) (hindex : s.queue.index p = index)
    (hpending : (s.queue.slots index).answerState = .pending)
    (hst : (s.history.stage p).answerable) : Logs cfg s' := by
  subst hindex
  refine h.follow ⟨by rw [hhistory]; rfl, hsame.2⟩ (fun _ hr => by rw [hhistory]; exact ⟨hr, rfl⟩)
    (fun _ hr => by rw [hhistory]; exact hr)
    (State.follows_of_same hslots hsame.1 (by rw [hhistory]; rfl) fun r _ => ?_)
  refine ⟨by rw [hhistory]; rfl, ?_⟩
  rcases eq_or_ne r p with rfl | hne
  · -- The response was owed because it was pending, and is owed by the winner now
    have hpending' : (s.queue.slot r).answerState = .pending := hpending
    simp [State.owes, hhistory, History.send, hst, hpending']
  · refine State.owes_of_ne hslots hne (Stage.active_of_answerable hst) (by rw [hqueue]; rfl)
      (by rw [hqueue]; grind) (by rw [hhistory]; rfl) ?_
    rw [hhistory]
    exact Function.update_of_ne hne ..

theorem watchdogStep_logs (hslots : SlotsInv cfg s) (hreaders : Readers s) (hanswers : Answers s)
    (h : Logs cfg s) (hstep : watchdogStep cfg i s = some s') : Logs cfg s' := by
  cases hpc : s.watchdog with
  | loadRunning | popLoad | popSequence | popStore | popRelease | loadOccupied | count
  | notifyWrite | wait | exiting | stopped | deleting =>
    simp only [watchdogStep, hpc, Option.some.injEq] at hstep
    subst hstep
    exact h.frame hslots (fun _ => rfl) ⟨rfl, rfl, rfl⟩
  | clock | recheck | notify | asleep =>
    simp only [watchdogStep, hpc] at hstep
    split_ifs at hstep <;> cases hstep <;>
      exact h.frame hslots (fun _ => rfl) ⟨rfl, rfl, rfl⟩
  | addReader entry now | subReader entry =>
    simp only [watchdogStep, hpc, Option.some.injEq] at hstep
    subst hstep
    exact h.frame hslots (by grind) ⟨rfl, rfl, rfl⟩
  | exchange entry now =>
    obtain ⟨hindex, hexposed⟩ := hreaders.matched entry (by rw [hpc]; rfl)
    simp only [watchdogStep, hpc] at hstep
    split_ifs at hstep with hpending <;> cases hstep
    · -- A disarmed position has been answered
      have hst : (s.history.stage entry.position).answerable := by
        cases hcase : s.history.stage entry.position <;>
          simp [hcase, Stage.exposed, Stage.answerable] at hexposed ⊢
        have hholds := hslots.ruby.held entry.position (by rw [hcase]; rfl)
        refine hanswers.settled entry.position ?_ (by rw [Queue.slot, hindex, hpending])
        cases hr : s.ruby <;> simp_all [RubyPc.holds, RubyPc.settled]
      exact h.win hslots ⟨rfl, rfl⟩ rfl rfl hindex hpending hst
    · exact h.frame hslots (fun _ => rfl) ⟨rfl, rfl, rfl⟩
  | respond entry now =>
    obtain ⟨hindex, -⟩ := hreaders.matched entry (by rw [hpc]; rfl)
    have hsends : s.sends entry.position .watchdog := by rw [State.sends, hpc]; rfl
    simp only [watchdogStep, hpc, Option.some.injEq] at hstep
    subst hstep
    exact h.answerDefault hslots hanswers hsends hindex (fun _ => ⟨rfl, rfl⟩) rfl
  | deleted => simp [watchdogStep, hpc] at hstep

/-- Ruby reads the message of a valid wrapper. -/
theorem Logs.read (hslots : SlotsInv cfg s) (h : Logs cfg s) (hidle : s.ruby = .idle)
    (hvalid : (s.wrapper p).valid)
    (hlog : s'.history.log = (s.history.record (s.queue.slot p).message (.read p)).log)
    (hsame : s'.callback = s.callback ∧ s'.queue = s.queue ∧ s'.wrapper = s.wrapper ∧
      s'.history.stage = s.history.stage ∧ s'.history.owner = s.history.owner ∧
      s'.history.sending = s.history.sending ∧ s'.history.returned = s.history.returned := by
        exact ⟨rfl, rfl, rfl, rfl, rfl, rfl, rfl⟩) : Logs cfg s' := by
  obtain ⟨hcallback, hqueue, hwrapper, hstage, howner, hsending, hreturned⟩ := hsame
  have hst := hslots.taken_of_valid hidle hvalid
  have hclaimed : s.history.stage p ≠ .unclaimed := by rw [hst]; simp
  have hmessage := ((hslots.slots.slot p).full (by rw [hst]; rfl)).1
  have hlife : ∀ m, s'.life cfg m = s.life cfg m := fun m => by
    refine State.life_eq hslots (by rw [hcallback]; exact ⟨rfl, rfl⟩) fun r _ _ => ?_
    exact ⟨by rw [hstage], State.owes_eq (by rw [hstage]) (fun _ => by rw [hqueue])
      (by rw [hsending])⟩
  rw [hmessage] at hlog
  refine h.follow ⟨hreturned, hwrapper⟩ (fun r hr => ⟨by rwa [hstage], by rw [howner]⟩)
    (fun r hr => by rwa [hstage]) (State.follows_of_record hlog ?_ ?_ fun r _ => hlife r)
  · exact ⟨by rwa [hstage], by rw [howner]⟩
  · rw [hlife, State.life_owner hslots hclaimed, hst]
    rfl

theorem callStep_logs {call : Call} (hslots : SlotsInv cfg s) (h : Logs cfg s)
    (hstep : callStep cfg call s = some s') : Logs cfg s' := by
  simp only [callStep] at hstep
  split_ifs at hstep with hidle
  -- A wrapper that is already invalid only stops being live.
  have hrelease : ∀ p caller stats, Logs cfg ({ s with stats }.releaseCall p caller) := by
    intro p caller stats
    simp only [State.releaseCall]
    split_ifs with hvalid
    · exact h.frame hslots (fun _ => rfl) ⟨rfl, rfl, rfl⟩
    · refine h.rewrap rfl ⟨rfl, ?_, (by simp), fun _ hv => absurd hv hvalid⟩ rfl
        (fun _ hr => ⟨hr, rfl⟩) (fun _ => id) fun m => .inl ⟨rfl, rfl⟩
      simp only [Bool.and_eq_true]
      exact And.left
  cases call with
  | drain | close =>
    simp only [beginCall] at hstep
    split_ifs at hstep <;> cases hstep <;>
      exact h.frame hslots (fun _ => rfl) ⟨rfl, rfl, rfl⟩
  | wake =>
    cases hstep
    exact h.frame hslots (fun _ => rfl) ⟨rfl, rfl, rfl⟩
  | read p =>
    simp only [beginCall] at hstep
    split_ifs at hstep with hlive hvalid <;> cases hstep
    · exact h.frame hslots (fun _ => rfl) ⟨rfl, rfl, rfl⟩
    · exact h.read hslots hidle (by simpa using hvalid) rfl
  | retain p =>
    simp only [beginCall] at hstep
    split_ifs at hstep with hlive hvalid <;> cases hstep
    · exact h.frame hslots (fun _ => rfl) ⟨rfl, rfl, rfl⟩
    · exact h.rewrap rfl ⟨rfl, id, h.live p, fun _ => .inl⟩ rfl (fun _ hr => ⟨hr, rfl⟩)
        (fun _ => id) fun m => .inl ⟨rfl, rfl⟩
  | respond p verdict =>
    simp only [beginCall] at hstep
    split_ifs at hstep with hlive hvalid
    · cases hstep
      exact h.frame hslots (fun _ => rfl) ⟨rfl, rfl, rfl⟩
    · split at hstep <;> cases hstep <;>
        exact h.read hslots hidle (by simpa using hvalid) rfl
  | release p =>
    simp only [beginCall] at hstep
    split_ifs at hstep
    cases hstep
    exact hrelease p .method s.stats
  | autoRelease p =>
    simp only [beginCall] at hstep
    split_ifs at hstep <;> cases hstep
    · exact h.frame hslots (fun _ => rfl) ⟨rfl, rfl, rfl⟩
    · exact hrelease p .method s.stats
  | free p =>
    simp only [beginCall] at hstep
    split_ifs at hstep <;> cases hstep <;> exact hrelease p .free _

/-- What is owed for the positions when a native method moves one of them on: the same, if it
    does not take that one out of the stages in which it may be pending unless it is settled. -/
theorem State.owes_of_move (p : Nat) (st : Stage)
    (hp : s.history.stage p ≠ .claimed ∧ st ≠ .claimed)
    (hstage : s'.history.stage = Function.update s.history.stage p st)
    (hqueue : s'.queue.capacity = s.queue.capacity ∧
      ∀ j, (s'.queue.slots j).answerState = (s.queue.slots j).answerState)
    (hsending : s'.history.sending = s.history.sending)
    (hanswerable : st.answerable = (s.history.stage p).answerable ∨
      st.answerable = false ∧ (s.queue.slot p).answerState ≠ .pending) (r : Nat) :
    s'.owes r = s.owes r := by
  have hslot : (s'.queue.slot r).answerState = (s.queue.slot r).answerState := by
    rw [Queue.slot, Queue.slot, Queue.index, Queue.index, Queue.mask, Queue.mask, hqueue.1,
      hqueue.2]
  rcases eq_or_ne r p with rfl | hne
  · -- What is owed depends on the stage only while the answer state is pending.
    rcases hanswerable with hsame | ⟨hnot, hsettled⟩
    · refine State.owes_congr ?_ ?_ (fun _ => hslot) (by rw [hsending])
      · simp [hstage, hp]
      · rw [hstage, Function.update_self, hsame]
    · simp [State.owes, hstage, hp, hnot, hsettled, hsending]
  · exact State.owes_eq (by rw [hstage, Function.update_of_ne hne]) (fun _ => hslot)
      (by rw [hsending])

/-- A native method moves the position that it works on to another stage. -/
theorem Logs.rubyMove (hslots : SlotsInv cfg s) (h : Logs cfg s) {st : Stage} (st' : Stage)
    (hst : s.history.stage p = st)
    (hstage : s'.history.stage = Function.update s.history.stage p st')
    (hqueue : s'.queue.capacity = s.queue.capacity ∧
      ∀ j, (s'.queue.slots j).answerState = (s.queue.slots j).answerState)
    (hsending : s'.history.sending = s.history.sending)
    (hstages : st ≠ .claimed ∧ st ≠ .released ∧ st' ≠ .claimed ∧ st' ≠ .unclaimed ∧
      st'.dropped = st.dropped)
    (hanswerable : st'.answerable = st.answerable ∨
      st'.answerable = false ∧ (s.queue.slot p).answerState ≠ .pending)
    (hsame : s'.callback = s.callback ∧ s'.history.owner = s.history.owner ∧
      s'.history.log = s.history.log ∧ s'.history.returned = s.history.returned ∧
      s'.wrapper = s.wrapper := by exact ⟨rfl, rfl, rfl, rfl, rfl⟩) : Logs cfg s' := by
  subst hst
  obtain ⟨hcallback, howner, hlog, hreturned, hwrapper⟩ := hsame
  obtain ⟨hclaimed, hreleased, hclaimed', hunclaimed', hdropped⟩ := hstages
  refine h.follow ⟨hreturned, hwrapper⟩ (History.continues_of_update hunclaimed' hstage howner)
    (fun r hr => ?_) (State.follows_of_same hslots hcallback hlog fun r _ => ⟨?_, ?_⟩)
  · rw [hstage]
    exact released_of_update hreleased hr
  · rw [hstage, Function.update_apply]
    split_ifs with hr
    · rw [hr, hdropped]
    · rfl
  · exact State.owes_of_move p st' ⟨hclaimed, hclaimed'⟩ hstage hqueue hsending hanswerable r

/-- A native method releases the message of the position that it works on. -/
theorem Logs.rubyRelease (hslots : SlotsInv cfg s) (h : Logs cfg s)
    (hst : s.history.stage p = .disarmed ∨ s.history.stage p = .drained)
    (hsettled : (s.queue.slot p).answerState ≠ .pending)
    (hhistory : s'.history =
      (s.history.record (s.queue.slot p).message .release).enter p .unreferenced)
    (hsame : s'.callback = s.callback ∧ s'.queue = s.queue ∧ s'.wrapper = s.wrapper := by
        exact ⟨rfl, rfl, rfl⟩) : Logs cfg s' := by
  obtain ⟨hcallback, hqueue, hwrapper⟩ := hsame
  have hstages : (s.history.stage p).full ∧ s.history.stage p ≠ .claimed ∧
      s.history.stage p ≠ .unclaimed ∧ s.history.stage p ≠ .released ∧
      (s.history.stage p).dropped = false := by
    rcases hst with hst | hst <;> rw [hst] <;> exact ⟨rfl, (by simp), (by simp), (by simp), rfl⟩
  obtain ⟨hfull, hclaimed, hunclaimed, hreleased, hdropped⟩ := hstages
  rw [((hslots.slots.slot p).full hfull).1] at hhistory
  have hstage : s'.history.stage = Function.update s.history.stage p .unreferenced := by
    rw [hhistory]
    rfl
  have howes : ∀ r, s'.owes r = s.owes r :=
    State.owes_of_move p .unreferenced ⟨hclaimed, (by simp)⟩ hstage
      (by rw [hqueue]; exact ⟨rfl, fun _ => rfl⟩) (by rw [hhistory]; rfl) (.inr ⟨rfl, hsettled⟩)
  refine h.follow ⟨by rw [hhistory]; rfl, hwrapper⟩
    (History.continues_of_update (by simp) hstage (by rw [hhistory]; rfl)) (fun r hr => ?_)
    (State.follows_of_record (e := .release) (by rw [hhistory]; rfl) trivial ?_ fun r hr => ?_)
  · rw [hstage]
    exact released_of_update hreleased hr
  · -- The release is the event that takes the message of `p` to its end.
    have hdropped' : Stage.unreferenced.dropped := rfl
    rw [State.life_owner hslots hunclaimed, State.life, hcallback,
      hslots.callbacks.claimed p hunclaimed]
    simp [Life.step, hdropped, hstage, hdropped', howes]
  · refine State.life_eq hslots (by rw [hcallback]; exact ⟨rfl, rfl⟩) fun r' _ hr' => ⟨?_, howes r'⟩
    have hne : r' ≠ p := by
      rintro rfl
      exact hr hr'.symm
    rw [hstage, Function.update_of_ne hne]

/-- `esrb_respond_slot` returns, having won nothing. -/
theorem Logs.respondReturn (hslots : SlotsInv cfg s) (h : Logs cfg s)
    (caller : RespondCaller) : Logs cfg (s.respondReturn cfg p false false caller) := by
  cases caller with
  | method call answer raises =>
    refine h.follow_returned rfl (fun _ hr => ⟨hr, rfl⟩) (fun _ => id) (fun _ => .inl ⟨rfl, rfl⟩) ?_
    intro r hr
    rcases List.mem_cons.mp hr with rfl | hr
    · exact .inr (by simp)
    · exact .inl hr
  | release caller => exact h.frame hslots (fun _ => rfl) ⟨rfl, rfl, rfl⟩

theorem rubyStep_logs (hslots : SlotsInv cfg s) (hanswers : Answers s) (h : Logs cfg s)
    (hstep : rubyStep cfg i s = some s') : Logs cfg s' := by
  cases hpc : s.ruby with
  | idle => simp [rubyStep, hpc] at hstep
  | drainClear | drainDepth | stopWatchdog | storeDeleteReady | drainDelivered =>
    simp only [rubyStep, hpc, Option.some.injEq] at hstep
    subst hstep
    exact h.frame hslots (fun _ => rfl) ⟨rfl, rfl, rfl⟩
  | drainRead | drainDepthDequeue | answerOccupied =>
    simp only [rubyStep, hpc] at hstep
    split_ifs at hstep <;> cases hstep <;>
      exact h.frame hslots (fun _ => rfl) ⟨rfl, rfl, rfl⟩
  | notify caller =>
    simp only [rubyStep, hpc] at hstep
    split_ifs at hstep <;> cases hstep <;> cases caller <;>
      exact h.frame hslots (fun _ => rfl) ⟨rfl, rfl, rfl⟩
  | notifyWrite caller =>
    simp only [rubyStep, hpc, Option.some.injEq] at hstep
    subst hstep
    cases caller <;> exact h.frame hslots (fun _ => rfl) ⟨rfl, rfl, rfl⟩
  | awaitCallbacks | awaitWatchdog | join | awaitReaders | queueAwait =>
    simp only [rubyStep, hpc, Option.some.injEq] at hstep
    subst hstep
    split_ifs
    all_goals
      first
      | exact h
      | exact h.frame hslots (fun _ => rfl) ⟨rfl, rfl, rfl⟩
  | drainDequeue left batch pc =>
    have hloop := SeqRing.Ring.TakeOk.step i.spurious (hslots.taking pc (by rw [hpc]; rfl))
    simp only [rubyStep, hpc, Queue.dequeue] at hstep
    cases hres : s.queue.ring.takeStep i.spurious pc with
    | running | none =>
      simp only [hres, Option.some.injEq] at hstep
      subst hstep
      exact h.frame hslots (fun _ => rfl) ⟨rfl, rfl, rfl⟩
    | got p =>
      simp only [hres, Option.some.injEq] at hstep hloop
      obtain ⟨rfl, hseq⟩ := hloop
      have hst := (hslots.slots.take (.inl rfl) hseq).1
      -- `esrb_message_wrap` takes the message from the slot, which holds the one of the owner.
      have hmessage := ((hslots.slots.slot s.queue.dequeuePosition).full (by rw [hst]; rfl)).1
      subst hstep
      refine h.next (History.continues_of_update (by simp) rfl rfl)
        (State.follows_of_same hslots rfl rfl fun r _ => ⟨?_, ?_⟩) (fun r hr => ?_) (fun r hr => ?_)
        (fun _ => .inl)
      · simp only [History.enter, Queue.ring_deq, Function.update_apply]
        split_ifs with heq
        · rw [heq, hst]
          rfl
        · rfl
      · exact State.owes_of_move s.queue.dequeuePosition .taken ⟨by rw [hst]; simp, (by simp)⟩
          (by rfl) ⟨by rfl, fun _ => by rfl⟩ (by rfl) (.inl (by rw [hst]; rfl)) r
      · simp only [History.enter, Queue.ring_deq, Function.update_apply] at hr ⊢
        split_ifs at hr ⊢ with heq
        · exact ⟨by simp, heq ▸ hmessage, .inl rfl⟩
        · exact h.wrapped r hr
      · simp only [Function.update_apply] at hr ⊢
        split_ifs at hr ⊢
        · rfl
        · exact h.live r hr
  | closeDequeue pc =>
    have hloop := SeqRing.Ring.TakeOk.step i.spurious (hslots.taking pc (by rw [hpc]; rfl))
    simp only [rubyStep, hpc, Queue.dequeue] at hstep
    cases hres : s.queue.ring.takeStep i.spurious pc with
    | running | none =>
      simp only [hres, Option.some.injEq] at hstep
      subst hstep
      exact h.frame hslots (fun _ => rfl) ⟨rfl, rfl, rfl⟩
    | got p =>
      simp only [hres, Option.some.injEq] at hstep hloop
      obtain ⟨rfl, hseq⟩ := hloop
      have hst := (hslots.slots.take (.inr rfl) hseq).1
      subst hstep
      exact h.rubyMove hslots .drained hst rfl ⟨rfl, fun _ => rfl⟩ rfl
        ⟨(by simp), (by simp), (by simp), (by simp), rfl⟩ (.inl rfl)
  | respondClosed p caller =>
    simp only [rubyStep, hpc] at hstep
    split_ifs at hstep <;> cases hstep
    · exact h.respondReturn hslots ..
    · exact h.frame hslots (fun _ => rfl) ⟨rfl, rfl, rfl⟩
  | respondExchange p caller =>
    have hst := hslots.ruby.holds p .taken (by rw [hpc]; rfl)
    simp only [rubyStep, hpc] at hstep
    split_ifs at hstep with hpending <;> cases hstep
    · exact h.win hslots ⟨rfl, rfl⟩ rfl rfl rfl hpending (by rw [hst]; rfl)
    · exact h.respondReturn hslots ..
  | respondSend p caller =>
    have hsends : s.sends p .ruby := by rw [State.sends, hpc]; rfl
    have hst := hslots.ruby.holds p .taken (by rw [hpc]; rfl)
    have hmessage := ((hslots.slots.slot p).full (by rw [hst]; rfl)).1
    have hwrapped := (h.wrapped p (h.live p (hslots.ruby.taken p hst))).2.1
    simp only [rubyStep, hpc, Option.some.injEq] at hstep
    subst hstep
    cases caller with
    | release caller =>
      exact h.answerDefault hslots hanswers hsends rfl (fun _ => ⟨rfl, rfl⟩) rfl
    | method call answer raises =>
      dsimp only [State.respondReturn]
      refine h.follow_returned rfl (fun _ hr => ⟨hr, rfl⟩) (fun _ => id)
        (State.follows_of_send hslots hanswers hsends rfl (fun _ => ⟨rfl, rfl⟩) rfl
          ⟨rfl, rfl, rfl⟩ rfl fun hs => absurd rfl (hs call)) fun r hr => ?_
      rcases List.mem_cons.mp hr with rfl | hr
      · -- The wrapper's message is the one in the slot
        refine .inr fun _ => ⟨(s.queue.slot p).client, ?_⟩
        change .respond _ (.ruby call) (cfg.response (s.wrapper p).message answer) ∈
          Function.update s.history.log (s.queue.slot p).message _ (s.wrapper p).message
        rw [hwrapped, ← hmessage, Function.update_self]
        exact List.mem_cons_self
      · exact .inl hr
  | disarm p caller =>
    have hst := hslots.ruby.holds p .taken (by rw [hpc]; rfl)
    -- `message_release` comes here only after `esrb_respond_slot`.
    have hsettled := hanswers.settled p (by rw [hpc]; rfl)
    simp only [rubyStep, hpc, Option.some.injEq] at hstep
    subst hstep
    exact h.rubyMove hslots .disarmed hst rfl ⟨rfl, by grind⟩ rfl
      ⟨(by simp), (by simp), (by simp), (by simp), rfl⟩ (.inr ⟨rfl, hsettled⟩)
  | releaseMessage p caller =>
    have hst := hslots.ruby.holds p .disarmed (by rw [hpc]; rfl)
    have hsettled := hanswers.settled p (by rw [hpc]; rfl)
    simp only [rubyStep, hpc, Option.some.injEq] at hstep
    subst hstep
    exact h.rubyRelease hslots (.inl hst) hsettled rfl
  | closeMessage p =>
    have hst := hslots.ruby.holds p .drained (by rw [hpc]; rfl)
    have hsettled := hanswers.settled p (by rw [hpc]; rfl)
    simp only [rubyStep, hpc, Option.some.injEq] at hstep
    subst hstep
    exact h.rubyRelease hslots (.inr hst) hsettled rfl
  | queueDisarm p caller =>
    have hst := hslots.ruby.holds p .unreferenced (by rw [hpc]; rfl)
    simp only [rubyStep, hpc, Option.some.injEq] at hstep
    subst hstep
    exact h.rubyMove hslots .cleared hst rfl ⟨rfl, by grind⟩ rfl
      ⟨(by simp), (by simp), (by simp), (by simp), rfl⟩ (.inl rfl)
  | queueStore p caller =>
    have hst := hslots.ruby.holds p .cleared (by rw [hpc]; rfl)
    simp only [rubyStep, hpc] at hstep
    cases caller with
    | close =>
      cases hstep
      exact h.rubyMove hslots .released hst rfl ⟨rfl, by grind⟩ rfl
        ⟨(by simp), (by simp), (by simp), (by simp), rfl⟩ (.inl rfl)
    | release caller =>
      cases hstep
      refine h.rewrap rfl ⟨rfl, ?_, (by simp), fun _ _ => .inr (Function.update_self ..)⟩ rfl
        (History.continues_of_update (by simp) rfl rfl) (fun r hr => ?_)
        (State.follows_of_same hslots rfl rfl fun r _ => ⟨?_, ?_⟩)
      · simp only [Bool.and_eq_true]
        exact And.left
      · exact released_of_update (by rw [hst]; simp) hr
      · change (Function.update s.history.stage p .released r).dropped = _
        rw [Function.update_apply]
        split_ifs with heq
        · rw [heq, hst]
          rfl
        · rfl
      · exact State.owes_of_move p .released ⟨by rw [hst]; simp, (by simp)⟩ (by rfl)
          ⟨by rfl, by grind [State.releaseReturn, State.finish]⟩ (by rfl)
          (.inl (by rw [hst]; rfl)) r
  | answerExchange index =>
    obtain ⟨hindex, hocc⟩ :=
      hanswers.occupant hslots (by rw [hpc]; rfl : s.ruby.sweeping = some index)
    simp only [rubyStep, hpc] at hstep
    split_ifs at hstep with hpending <;> cases hstep
    · exact h.win hslots ⟨rfl, rfl⟩ rfl rfl hindex hpending (Stage.answerable_of_occupied hocc)
    · exact h.frame hslots (fun _ => rfl) ⟨rfl, rfl, rfl⟩
  | answerSend index =>
    obtain ⟨hindex, -⟩ :=
      hanswers.occupant hslots (by rw [hpc]; rfl : s.ruby.sweeping = some index)
    have hsends : s.sends (s.queue.slots index).position .ruby := by rw [State.sends, hpc]; rfl
    simp only [rubyStep, hpc, Option.some.injEq] at hstep
    subst hstep
    exact h.answerDefault hslots hanswers hsends hindex (fun _ => ⟨rfl, rfl⟩) rfl
  | closeExchange p =>
    have hst := hslots.ruby.holds p .drained (by rw [hpc]; rfl)
    simp only [rubyStep, hpc] at hstep
    split_ifs at hstep with hpending <;> cases hstep
    · exact h.win hslots ⟨rfl, rfl⟩ rfl rfl rfl hpending (by rw [hst]; rfl)
    · exact h.frame hslots (fun _ => rfl) ⟨rfl, rfl, rfl⟩
  | closeSend p =>
    have hsends : s.sends p .ruby := by rw [State.sends, hpc]; rfl
    simp only [rubyStep, hpc, Option.some.injEq] at hstep
    subst hstep
    exact h.answerDefault hslots hanswers hsends rfl (fun _ => ⟨rfl, rfl⟩) rfl

/-- The invariant holds in every reachable state. -/
theorem reachable_logs (hs : Reachable (step cfg) (.init cfg) s) : Logs cfg s := by
  apply hs.invariant (logs_init cfg)
  intro s a s' hs h hstep
  have hslots := reachable_slots hs
  have hanswers := reachable_answers hs
  cases a with
  | callback k input => exact callbackStep_logs hslots hanswers h hstep
  | watchdog input => exact watchdogStep_logs hslots (reachable_readers hs) hanswers h hstep
  | call call => exact callStep_logs hslots h hstep
  | ruby input => exact rubyStep_logs hslots hanswers h hstep

end EndpointSecurity
