import EndpointSecurity.Native.DepthReaders
import EndpointSecurity.Spec.QueueFifo
import Mathlib.Data.List.MinMax
import Mathlib.Order.Nat

/-!
# The depth of the slot queue

The depths are differences of two counters that are read at different moments. They stay
within the capacity because a claimed position is never more than a lap ahead of the next one
to be delivered, whatever has happened since the first counter was read. The high-water mark
is the largest depth computed so far, but for those that some producer has yet to compare.

## Key results

- `reachable_depths`: the invariant
- `queue_depth_bounded`: no depth wraps or exceeds the capacity, and `depth_max` is the
  maximum of the computed ones
-/

namespace EndpointSecurity.DepthReaders

open TransitionSystem (Reachable)
open QueueThreads (ProducerPc ProducerOk producerStep consumerStep)

/-! ## The high-water mark -/

/-- The depth that a producer has computed and not yet compared for good. -/
def raising : ProducerPc → Option Nat
  | .loadDepthMax _ _ depth | .raiseDepthMax _ _ depth _ => some depth
  | .idle | .enqueue _ | .refused | .storePosition _ | .fill _ | .loadDequeue _ _
  | .storeSequence _ _ | .published _ => none

/-- A maximum loaded earlier is not above the current one. -/
def Seen (depthMax : Nat) : ProducerPc → Prop
  | .raiseDepthMax _ _ _ maximum => maximum ≤ depthMax
  | .idle | .enqueue _ | .refused | .storePosition _ | .fill _ | .loadDequeue _ _
  | .loadDepthMax _ _ _ | .storeSequence _ _ | .published _ => True

theorem Seen.mono {pc : ProducerPc} {a b : Nat} (h : Seen a pc) (hle : a ≤ b) : Seen b pc := by
  cases pc <;> first | trivial | exact Nat.le_trans h hle

/-- `depthMax` is the largest of the computed depths but for those still being raised. -/
structure HighWater (computed : List Nat) (depthMax : Nat) (producer : Nat → ProducerPc) :
    Prop where
  attained : depthMax = 0 ∨ depthMax ∈ computed
  covered : ∀ d ∈ computed, d ≤ depthMax ∨ ∃ k, raising (producer k) = some d
  computed : ∀ k d, raising (producer k) = some d → d ∈ computed
  seen : ∀ k, Seen depthMax (producer k)

namespace HighWater

variable {computed : List Nat} {depthMax depth : Nat} {producer : Nat → ProducerPc} {k : Nat}
  {pc : ProducerPc}

/-- A producer's step that neither computes a depth nor is done with one. -/
theorem move (h : HighWater computed depthMax producer) (hseen : Seen depthMax pc)
    (hraising : raising pc = raising (producer k)) :
    HighWater computed depthMax (Function.update producer k pc) := by
  have heq : ∀ i, raising (Function.update producer k pc i) = raising (producer i) := by
    intro i
    rcases eq_or_ne i k with rfl | hne
    · rw [Function.update_self, hraising]
    · rw [Function.update_of_ne hne]
  refine ⟨h.attained, ?_, ?_, ?_⟩
  · simpa only [heq] using h.covered
  · simpa only [heq] using h.computed
  · intro i
    rcases eq_or_ne i k with rfl | hne
    · rwa [Function.update_self]
    · rw [Function.update_of_ne hne]
      exact h.seen i

/-- A producer computes its depth. -/
theorem compute (h : HighWater computed depthMax producer) (hk : raising (producer k) = none)
    (hpc : raising pc = some depth) (hseen : Seen depthMax pc) :
    HighWater (depth :: computed) depthMax (Function.update producer k pc) := by
  have hof : ∀ i, i ≠ k → Function.update producer k pc i = producer i :=
    fun i hne => Function.update_of_ne hne ..
  refine ⟨h.attained.imp_right (List.mem_cons_of_mem _), ?_, ?_, ?_⟩
  · intro d hd
    rcases List.mem_cons.mp hd with rfl | hd
    · exact .inr ⟨k, by rw [Function.update_self, hpc]⟩
    · refine (h.covered d hd).imp_right fun ⟨i, hi⟩ => ⟨i, ?_⟩
      have hne : i ≠ k := by rintro rfl; simp [hk] at hi
      rwa [hof i hne]
  · intro i d hi
    rcases eq_or_ne i k with rfl | hne
    · rw [Function.update_self, hpc] at hi
      cases hi
      exact List.mem_cons_self
    · rw [hof i hne] at hi
      exact List.mem_cons_of_mem _ (h.computed i d hi)
  · intro i
    rcases eq_or_ne i k with rfl | hne
    · rwa [Function.update_self]
    · rw [hof i hne]
      exact h.seen i

/-- A producer is done with its depth, after raising the mark to it or finding it high
    enough. -/
theorem done {depthMax' : Nat} (h : HighWater computed depthMax producer)
    (hk : raising (producer k) = some depth) (hpc : raising pc = none) (hseen : Seen depthMax' pc)
    (hle : depthMax ≤ depthMax') (hdepth : depth ≤ depthMax')
    (hmark : depthMax' = depthMax ∨ depthMax' = depth) :
    HighWater computed depthMax' (Function.update producer k pc) := by
  refine ⟨?_, ?_, ?_, ?_⟩
  · rcases hmark with rfl | rfl
    · exact h.attained
    · exact .inr (h.computed k _ hk)
  · intro d hd
    rcases h.covered d hd with hmax | ⟨i, hi⟩
    · exact .inl (Nat.le_trans hmax hle)
    · rcases eq_or_ne i k with rfl | hne
      · rw [hk] at hi
        cases hi
        exact .inl hdepth
      · exact .inr ⟨i, by rwa [Function.update_of_ne hne]⟩
  · intro i d hi
    rcases eq_or_ne i k with rfl | hne
    · rw [Function.update_self, hpc] at hi
      cases hi
    · rw [Function.update_of_ne hne] at hi
      exact h.computed i d hi
  · intro i
    rcases eq_or_ne i k with rfl | hne
    · rwa [Function.update_self]
    · rw [Function.update_of_ne hne]
      exact (h.seen i).mono hle

/-- Once nobody is raising it, the mark is the maximum. -/
theorem eq_max (h : HighWater computed depthMax producer)
    (hnone : ∀ k, raising (producer k) = none) : depthMax = computed.foldr max 0 := by
  have hmax : ∀ d ∈ computed, d ≤ depthMax := fun d hd =>
    (h.covered d hd).resolve_right fun ⟨k, hk⟩ => by simp [hnone k] at hk
  refine Nat.le_antisymm ?_ (List.max_le_of_forall_le computed depthMax hmax)
  rcases h.attained with hzero | hmem
  · omega
  · exact List.le_max_of_le hmem (Nat.le_refl _)

end HighWater

/-! ## One step of the threads -/

variable {t t' : QueueThreads.State} {computed : List Nat}

/-- What a step does to the counters, and what it leaves of the high-water mark. -/
structure StepOk (a : QueueThreads.Action) (t t' : QueueThreads.State) (computed : List Nat) :
    Prop where
  capacity : t'.queue.capacity = t.queue.capacity
  enqueue : t.queue.enqueuePosition ≤ t'.queue.enqueuePosition
  dequeue : dequeues a t = false → t'.queue.dequeuePosition = t.queue.dequeuePosition
  depthMax : t.queue.depthMax ≤ t'.queue.depthMax
  highWater : HighWater (computes a t ++ computed) t'.queue.depthMax t'.producer

/-- A producer's step. -/
theorem producerStep_ok {k : Nat} {spurious : Bool} {x : Payload} (ht : QueueThreads.Inv t)
    (h : HighWater computed t.queue.depthMax t.producer)
    (hstep : producerStep k spurious x t = some t') :
    StepOk (.producer k spurious x) t t' computed := by
  have hk := ht.producer k
  cases hpc : t.producer k with
  | idle | storePosition | fill | storeSequence =>
    simp only [producerStep, hpc, Option.some.injEq] at hstep
    subst hstep
    refine ⟨rfl, Nat.le_refl _, fun _ => rfl, Nat.le_refl _, ?_⟩
    simp only [computes, hpc]
    exact h.move trivial (by simp [hpc, raising])
  | enqueue pc =>
    rw [hpc] at hk
    have hloop := SeqRing.Ring.ClaimOk.step spurious hk
    have hkeep : ∀ pc', raising pc' = none → Seen t.queue.depthMax pc' →
        HighWater (computes (.producer k spurious x) t ++ computed) t.queue.depthMax
          (Function.update t.producer k pc') := by
      intro pc' hnone hseen
      simp only [computes, hpc]
      exact h.move hseen (by rw [hpc, hnone]; rfl)
    simp only [producerStep, hpc, Queue.enqueue] at hstep
    cases hres : t.queue.ring.claimStep spurious pc with
    | running pc' =>
      simp only [hres, Option.some.injEq] at hstep
      subst hstep
      exact ⟨rfl, Nat.le_refl _, fun _ => rfl, Nat.le_refl _, hkeep _ rfl trivial⟩
    | none =>
      simp only [hres, Option.some.injEq] at hstep
      subst hstep
      exact ⟨rfl, Nat.le_refl _, fun _ => rfl, Nat.le_refl _, hkeep _ rfl trivial⟩
    | got p =>
      simp only [hres, Option.some.injEq] at hstep hloop
      obtain ⟨rfl, -⟩ := hloop
      subst hstep
      exact ⟨rfl, Nat.le_succ _, fun _ => rfl, Nat.le_refl _, hkeep _ rfl trivial⟩
  | loadDequeue p y =>
    simp only [producerStep, hpc, Option.some.injEq] at hstep
    subst hstep
    refine ⟨rfl, Nat.le_refl _, fun _ => rfl, Nat.le_refl _, ?_⟩
    simp only [computes, hpc]
    exact h.compute (by simp [hpc, raising]) rfl trivial
  | loadDepthMax p y depth =>
    simp only [producerStep, hpc, Option.some.injEq] at hstep
    subst hstep
    refine ⟨rfl, Nat.le_refl _, fun _ => rfl, Nat.le_refl _, ?_⟩
    simp only [computes, hpc]
    exact h.move (Nat.le_refl _) (by rw [hpc]; rfl)
  | raiseDepthMax p y depth maximum =>
    have hseen : maximum ≤ t.queue.depthMax := by simpa [hpc, Seen] using h.seen k
    have hdepth : raising (t.producer k) = some depth := by rw [hpc]; rfl
    simp only [producerStep, hpc] at hstep
    split_ifs at hstep with hgt hcas
    · -- The exchange succeeds, so the loaded maximum is the current one
      cases hstep
      have hle : t.queue.depthMax ≤ depth := hcas.1.trans_le (Nat.le_of_lt hgt)
      refine ⟨rfl, Nat.le_refl _, fun _ => rfl, hle, ?_⟩
      simp only [computes, hpc]
      exact h.done hdepth rfl trivial hle (Nat.le_refl _) (.inr rfl)
    · -- It fails and loads the maximum again
      cases hstep
      refine ⟨rfl, Nat.le_refl _, fun _ => rfl, Nat.le_refl _, ?_⟩
      simp only [computes, hpc]
      exact h.move (Nat.le_refl _) hdepth.symm
    · -- The mark is high enough
      cases hstep
      refine ⟨rfl, Nat.le_refl _, fun _ => rfl, Nat.le_refl _, ?_⟩
      simp only [computes, hpc]
      exact h.done hdepth rfl trivial (Nat.le_refl _) ((Nat.not_lt.mp hgt).trans hseen) (.inl rfl)
  | refused | published => simp [producerStep, hpc] at hstep

/-- A consumer's step. -/
theorem consumerStep_ok {j : Nat} {spurious : Bool}
    (h : HighWater computed t.queue.depthMax t.producer)
    (hstep : consumerStep j spurious t = some t') :
    StepOk (.consumer j spurious) t t' computed := by
  cases hpc : t.consumer j with
  | idle | holding | storeSequence =>
    simp only [consumerStep, hpc, Option.some.injEq] at hstep
    subst hstep
    exact ⟨rfl, Nat.le_refl _, fun _ => rfl, Nat.le_refl _, h⟩
  | dequeue pc =>
    simp only [consumerStep, hpc] at hstep
    cases hres : t.queue.dequeue spurious pc <;> simp only [hres, Option.some.injEq] at hstep <;>
      subst hstep <;>
      exact ⟨rfl, Nat.le_refl _, by simp [dequeues, hpc], Nat.le_refl _, h⟩
  | awaitReaders p =>
    simp only [consumerStep, hpc] at hstep
    split_ifs at hstep <;> cases hstep <;>
      exact ⟨rfl, Nat.le_refl _, fun _ => rfl, Nat.le_refl _, h⟩
  | empty | released => simp [consumerStep, hpc] at hstep

/-- A step of any of the threads. -/
theorem step_ok {a : QueueThreads.Action} (ht : QueueThreads.Inv t)
    (h : HighWater computed t.queue.depthMax t.producer)
    (hstep : QueueThreads.step a t = some t') : StepOk a t t' computed := by
  cases a with
  | producer k spurious x => exact producerStep_ok ht h hstep
  | consumer j spurious => exact consumerStep_ok h hstep
  | interfere i occupied answerState readers =>
    cases hstep
    exact ⟨rfl, Nat.le_refl _, fun _ => rfl, Nat.le_refl _, h⟩

/-! ## The depths -/

/-- A publisher computes how many positions there are from the next delivery to its own. -/
theorem computes_bounds {a : QueueThreads.Action} (ht : QueueThreads.Inv t) :
    ∀ d ∈ computes a t, 1 ≤ d ∧ d ≤ t.queue.capacity := by
  intro d hd
  cases a with
  | producer k spurious x =>
    cases hpc : t.producer k with
    | loadDequeue p y =>
      obtain ⟨hclaimed, hpos, -⟩ : ProducerOk t.queue t.log k (.loadDequeue p y) :=
        hpc ▸ ht.producer k
      have hfrom : t.queue.dequeuePosition ≤ p := ht.queue.ring.queued p (.inl hclaimed.1)
      have hto : p < t.queue.enqueuePosition := ht.queue.ring.active_lt hclaimed.active
      have hlap : t.queue.enqueuePosition ≤ t.queue.dequeuePosition + t.queue.capacity :=
        ht.queue.ring.enq_le
      have hsize := ht.queue.lt_size
      simp only [computes, hpc, List.mem_singleton, Queue.publishDepth, hpos] at hd
      rw [hd, sizeSub_eq (by omega) (by omega)]
      omega
    | _ => simp [computes, hpc] at hd
  | consumer | interfere => simp [computes] at hd

/-- The difference of the counters, the later one loaded first. -/
theorem depth_le {enqueued dequeued capacity : Nat} (hsize : capacity < 2 ^ 64)
    (hle : dequeued ≤ enqueued) (hlap : enqueued ≤ dequeued + capacity) :
    Queue.depth enqueued dequeued ≤ capacity := by
  rw [Queue.depth, sizeSub_eq hle (by omega)]
  omega

variable {c : Capacity} {s s' : State}

/-- The invariant of every run. -/
structure Depths (c : Capacity) (s : State) : Prop where
  capacity : s.threads.queue.capacity = c.val
  highWater : HighWater s.computed s.threads.queue.depthMax s.threads.producer
  computed : ∀ d ∈ s.computed, 1 ≤ d ∧ d ≤ c.val
  /-- Nothing has been delivered since the reader loaded the first counter. -/
  reader : ∀ enqueued, s.reader = .loadDequeue enqueued →
    s.threads.queue.dequeuePosition ≤ enqueued ∧ enqueued ≤ s.threads.queue.enqueuePosition
  returned : ∀ d ∈ s.returned, d ≤ c.val

theorem depths_init (c : Capacity) : Depths c (.init c) where
  capacity := rfl
  highWater := ⟨.inl rfl, by simp [State.init], by simp [State.init, QueueThreads.State.init,
    raising], fun _ => trivial⟩
  computed := by simp [State.init]
  reader := by simp [State.init]
  returned := by simp [State.init]

/-- What the threads do is a run of their own. -/
theorem reachable_threads (hs : Reachable step (.init c) s) :
    Reachable QueueThreads.step (.init c) s.threads := by
  apply hs.invariant (I := fun s => Reachable QueueThreads.step (.init c) s.threads) .init
  intro s a s' _ h hstep
  cases a with
  | thread a =>
    simp only [step] at hstep
    split_ifs at hstep
    obtain ⟨t, ht, rfl⟩ := Option.map_eq_some_iff.mp hstep
    exact h.step ht
  | reader =>
    simp only [step] at hstep
    split at hstep <;> cases hstep <;> exact h

/-- A step keeps the invariant and does not lower the high-water mark. -/
theorem step_depths {a : Action} (ht : QueueThreads.Inv s.threads) (h : Depths c s)
    (hstep : step a s = some s') :
    Depths c s' ∧ s.threads.queue.depthMax ≤ s'.threads.queue.depthMax := by
  cases a with
  | thread a =>
    simp only [step] at hstep
    split_ifs at hstep with hblocked
    obtain ⟨t, htstep, rfl⟩ := Option.map_eq_some_iff.mp hstep
    have hok := step_ok ht h.highWater htstep
    refine ⟨⟨hok.capacity.trans h.capacity, hok.highWater, ?_, ?_, h.returned⟩, hok.depthMax⟩
    · intro d hd
      rcases List.mem_append.mp hd with hnew | hold
      · have := computes_bounds ht d hnew
        rwa [h.capacity] at this
      · exact h.computed d hold
    · intro enqueued hreader
      have hquiet : dequeues a s.threads = false := by
        have hreading : s.reader = .loadDequeue enqueued := hreader
        simpa [hreading] using hblocked
      obtain ⟨hfrom, hto⟩ := h.reader enqueued hreader
      exact ⟨(hok.dequeue hquiet).trans_le hfrom, hto.trans hok.enqueue⟩
  | reader =>
    have hdeq : s.threads.queue.dequeuePosition ≤ s.threads.queue.enqueuePosition :=
      ht.queue.ring.deq_le
    have hlap : s.threads.queue.enqueuePosition ≤ s.threads.queue.dequeuePosition + c.val :=
      h.capacity ▸ ht.queue.ring.enq_le
    simp only [step] at hstep
    split at hstep
    · cases hstep
      refine ⟨⟨h.capacity, h.highWater, h.computed, ?_, h.returned⟩, Nat.le_refl _⟩
      intro enqueued hreader
      cases hreader
      exact ⟨hdeq, Nat.le_refl _⟩
    · next enqueued hreader =>
      cases hstep
      obtain ⟨hfrom, hto⟩ := h.reader enqueued hreader
      refine ⟨⟨h.capacity, h.highWater, h.computed, by simp, ?_⟩, Nat.le_refl _⟩
      intro d hd
      rcases List.mem_cons.mp hd with rfl | hd
      · exact depth_le c.lt_size hfrom (hto.trans hlap)
      · exact h.returned d hd

/-- The invariant holds in every reachable state. -/
theorem reachable_depths (hs : Reachable step (.init c) s) : Depths c s := by
  refine hs.invariant (depths_init c) ?_
  intro s a s' hs h hstep
  exact (step_depths (QueueThreads.reachable_inv (reachable_threads hs)) h hstep).1

/-- What follows a reachable state is reachable. -/
theorem depthMax_mono (hs : Reachable step (.init c) s) (hs' : Reachable step s s') :
    Reachable step (.init c) s' ∧ s.threads.queue.depthMax ≤ s'.threads.queue.depthMax := by
  induction hs' with
  | init => exact ⟨hs, Nat.le_refl _⟩
  | step _ hstep ih =>
    obtain ⟨hreach, hle⟩ := ih
    have ht := QueueThreads.reachable_inv (reachable_threads hreach)
    exact ⟨hreach.step hstep, hle.trans (step_depths ht (reachable_depths hreach) hstep).2⟩

/-- Queue depths are exact. In every reachable state of a queue of any accepted capacity,

    * every value that `esrb_queue_depth` has returned is at most the capacity,
    * every depth that `esrb_queue_publish` has computed is between one and the capacity,
    * `depth_max` is at most the capacity and does not decrease in any step that follows,
    * once no publication is in progress, `depth_max` is the largest computed depth. -/
theorem queue_depth_bounded (hs : Reachable step (.init c) s) :
    (∀ d ∈ s.returned, d ≤ c.val) ∧
    (∀ d ∈ s.computed, 1 ≤ d ∧ d ≤ c.val) ∧
    s.threads.queue.depthMax ≤ c.val ∧
    (∀ s', Reachable step s s' → s.threads.queue.depthMax ≤ s'.threads.queue.depthMax) ∧
    ((∀ k, publishing (s.threads.producer k) = false) →
      s.threads.queue.depthMax = s.computed.foldr max 0) := by
  have h := reachable_depths hs
  refine ⟨h.returned, h.computed, ?_, fun s' hs' => (depthMax_mono hs hs').2, fun hnone => ?_⟩
  · rcases h.highWater.attained with hzero | hmem
    · omega
    · exact (h.computed _ hmem).2
  · refine h.highWater.eq_max fun k => ?_
    have := hnone k
    cases hpc : s.threads.producer k <;> simp [hpc, publishing, raising] at this ⊢

/-- A producer claims and fills a slot, a reader loads the first counter, the producer computes
    its depth and publishes, and the reader finishes. -/
def publishWhileRead : List Action :=
  List.replicate 6 (Action.thread (.producer 0 false ⟨7, 1, 30⟩)) ++ [Action.reader] ++
    List.replicate 4 (Action.thread (.producer 0 false ⟨7, 1, 30⟩)) ++ [Action.reader]

/-- The reader counts the slot although it was not published when the reader started, and the
    mark is one. -/
theorem queue_depth_bounded_read :
    let s := TransitionSystem.final step publishWhileRead (.init QueueThreads.twoSlots) (by decide)
    (∀ d ∈ s.returned, d ≤ 2) ∧ s.returned = [1] ∧ s.computed = [1] ∧
      s.threads.queue.depthMax = 1 := by
  intro s
  have h := queue_depth_bounded (c := QueueThreads.twoSlots) (s := s) (.final _)
  exact ⟨h.1, by decide, by decide, by decide⟩

end EndpointSecurity.DepthReaders
