import EndpointSecurity.Spec.WatchdogHeap
import Mathlib.Data.List.Nodup

/-!
# One pass of the watchdog

A pass sets all requests that wait in the ring, and then takes entries off the heap for as long
as the first one is due.

## Key results

- `popRequests_spec`, `answerEntries_spec`: what the two loops do
- `watchdogPass_spec`: a pass answers what is due in the order of the deadlines, and keeps the rest
-/

namespace EndpointSecurity

variable {r : Requests} {h : Heap} {clock : Nat → Nat}

/-- The requests wait in the ring, the first of them next in line, and no other after them. -/
structure Requests.Waiting (r : Requests) (requests : List Entry) : Prop where
  ready : ∀ k entry, requests[k]? = some entry → r.request (r.dequeuePosition + k) =
    { sequence := r.dequeuePosition + k + 1, entry }
  done : ¬ r.ready (r.dequeuePosition + requests.length)

/-- The entry that a heap has for a slot after some requests: the latest one for the slot, or
    else the one it had. -/
def Heap.MemAfter (h : Heap) (requests : List Entry) (e : Entry) : Prop :=
  requests.reverse.find? (·.slot == e.slot) = some e ∨
    h.Mem e ∧ ∀ request ∈ requests, request.slot ≠ e.slot

/-- The heap has room for all slots that its entries and the requests are about. -/
def Heap.Fits (h : Heap) (requests : List Entry) : Prop :=
  ∃ slots : Finset Nat, slots.card ≤ h.capacity ∧ (∀ e, h.Mem e → e.slot ∈ slots) ∧
    ∀ request ∈ requests, request.slot ∈ slots

/-- What has been handed to `answer_due` when the clock was first read for the `n`-th time, the
    heap was `h` then and is `h'` now. -/
structure Answered (clock : Nat → Nat) (n : Nat) (h h' : Heap) (handed : List (Entry × Nat)) :
    Prop where
  good : h'.Good
  reading : ∀ k (hk : k < handed.length), handed[k].2 = clock (n + k)
  due : ∀ x ∈ handed, x.1.fireAt ≤ x.2
  sorted : (handed.map fun x => x.1.fireAt).Pairwise (· ≤ ·)
  once : (handed.map fun x => x.1.slot).Nodup
  kept : ∀ e, h.Mem e ↔ e ∈ handed.map Prod.fst ∨ h'.Mem e
  gone : ∀ x ∈ handed, ∀ e, h'.Mem e → x.1.slot ≠ e.slot
  rest : ∀ e, h'.Mem e → clock (n + handed.length) < e.fireAt

/-! ## The requests -/

/-- The first request is popped, and the others wait. -/
theorem Requests.Waiting.pop {request : Entry} {requests : List Entry} (c : Capacity)
    (hc : r.capacity = c.val) (h : r.Waiting (request :: requests)) :
    ((r.advanceDequeue r.dequeuePosition).release r.dequeuePosition).Waiting requests := by
  have hfirst : r.request r.dequeuePosition =
      { sequence := r.dequeuePosition + 1, entry := request } := h.ready 0 request rfl
  have hother : ∀ p, r.index p ≠ r.index r.dequeuePosition →
      ((r.advanceDequeue r.dequeuePosition).release r.dequeuePosition).request p = r.request p :=
    fun p hp => Function.update_of_ne hp ..
  have hnext : ∀ k, r.dequeuePosition + 1 + k = r.dequeuePosition + (k + 1) := fun k => by omega
  refine ⟨fun k entry hk => ?_, fun hready => ?_⟩
  · have hk' := h.ready (k + 1) entry hk
    have hindex : r.index (r.dequeuePosition + (k + 1)) ≠ r.index r.dequeuePosition := by
      intro heq
      have hsame : r.request (r.dequeuePosition + (k + 1)) = r.request r.dequeuePosition :=
        congrArg r.requests heq
      have := congrArg Request.sequence (hk'.symm.trans (hsame.trans hfirst))
      simp only at this
      omega
    change ((r.advanceDequeue _).release _).request (r.dequeuePosition + 1 + k) =
      { sequence := r.dequeuePosition + 1 + k + 1, entry }
    rw [hnext, hother _ hindex, hk']
  · change (((r.advanceDequeue _).release _).request
      (r.dequeuePosition + 1 + requests.length)).sequence
      == r.dequeuePosition + 1 + requests.length + 1 at hready
    rw [hnext] at hready
    by_cases hindex : r.index (r.dequeuePosition + (requests.length + 1)) =
        r.index r.dequeuePosition
    · -- The cell has just been given back, and what is written to it is not ready
      have hcell : ((r.advanceDequeue r.dequeuePosition).release r.dequeuePosition).request
          (r.dequeuePosition + (requests.length + 1)) =
          { r.request r.dequeuePosition with sequence := r.dequeuePosition + r.capacity } := by
        change Function.update r.requests (r.index r.dequeuePosition) _ (r.index _) = _
        rw [hindex, Function.update_self]
        rfl
      rw [hcell] at hready
      have hcapacity : r.capacity = requests.length + 2 := by
        have := beq_iff_eq.mp hready
        simp only at this
        omega
      have hpow : r.ring.capacity.isPowerOfTwo := by
        change r.capacity.isPowerOfTwo
        rw [hc]
        exact c.pow
      have hmod : (r.dequeuePosition + (requests.length + 1)) % r.capacity =
          r.dequeuePosition % r.capacity :=
        (SeqRing.Ring.index_eq_mod hpow _).symm.trans
          (hindex.trans (SeqRing.Ring.index_eq_mod hpow _))
      have hdvd : r.capacity ∣ requests.length + 1 := by
        have := Nat.sub_mod_eq_zero_of_mod_eq hmod
        rw [Nat.add_sub_cancel_left] at this
        exact Nat.dvd_of_mod_eq_zero this
      have := Nat.le_of_dvd (Nat.succ_pos _) hdvd
      omega
    · rw [hother _ hindex] at hready
      exact h.done hready

/-- The first loop of a pass sets all requests that wait. -/
theorem popRequests_spec {requests : List Entry} {passes : Nat} (c : Capacity)
    (hc : r.capacity = c.val) (h : r.Waiting requests) (hpasses : requests.length < passes)
    (heap : Heap) :
    ∃ r', popRequests passes r heap = some (r', requests.foldl Heap.set heap) ∧ r'.Waiting [] := by
  induction requests generalizing r heap passes with
  | nil =>
    obtain ⟨passes, rfl⟩ := Nat.exists_eq_succ_of_ne_zero (Nat.ne_of_gt hpasses)
    exact ⟨r, if_neg h.done, h⟩
  | cons request requests ih =>
    obtain ⟨passes, rfl⟩ := Nat.exists_eq_succ_of_ne_zero (Nat.ne_of_gt (Nat.zero_lt_of_lt hpasses))
    have hfirst := h.ready 0 request rfl
    have hready : r.ready r.dequeuePosition := by
      rw [Requests.ready, show r.request r.dequeuePosition = _ from hfirst]
      exact beq_self_eq_true _
    obtain ⟨r', hr', hempty⟩ := ih
      (r := (r.advanceDequeue r.dequeuePosition).release r.dequeuePosition) hc (h.pop c hc)
      (Nat.lt_of_succ_lt_succ hpasses) (heap.set request)
    refine ⟨r', ?_, hempty⟩
    rw [popRequests, if_pos hready, show r.request r.dequeuePosition = _ from hfirst]
    exact hr'

/-- The first request of a list is set first. -/
theorem Heap.memAfter_cons {request : Entry} {requests : List Entry} {h' : Heap}
    (hset : ∀ e, h'.Mem e ↔ e = request ∨ h.Mem e ∧ e.slot ≠ request.slot) (e : Entry) :
    h.MemAfter (request :: requests) e ↔ h'.MemAfter requests e := by
  have hnone : requests.reverse.find? (·.slot == e.slot) = none ↔
      ∀ request ∈ requests, request.slot ≠ e.slot := by simp
  simp only [MemAfter, List.reverse_cons, List.find?_append, List.mem_cons, forall_eq_or_imp, hset,
    ← hnone]
  cases hfind : requests.reverse.find? (·.slot == e.slot) with
  | some later => simp
  | none =>
    by_cases hslot : request.slot = e.slot
    · simp [hslot, eq_comm]
    · have hne : e ≠ request := fun heq => hslot (heq ▸ rfl)
      simp [hslot, hne, Ne.symm hslot]

/-- What setting a list of requests makes of the entries. -/
theorem Heap.foldl_set_spec {requests : List Entry} (hgood : h.Good) (hfits : h.Fits requests) :
    (requests.foldl Heap.set h).Good ∧ (requests.foldl Heap.set h).capacity = h.capacity ∧
      ∀ e, (requests.foldl Heap.set h).Mem e ↔ h.MemAfter requests e := by
  induction requests generalizing h with
  | nil => exact ⟨hgood, rfl, fun e => by simp [MemAfter]⟩
  | cons request requests ih =>
    obtain ⟨slots, hcard, hheap, hrequests⟩ := hfits
    obtain ⟨hrequest, hrequests⟩ := List.forall_mem_cons.mp hrequests
    obtain ⟨hgood', hcap, hset⟩ := hgood.set (hgood.room slots hheap hcard hrequest)
    have hheap' : ∀ e, (h.set request).Mem e → e.slot ∈ slots := fun e he => by
      obtain rfl | ⟨hmem, -⟩ := (hset e).mp he
      · exact hrequest
      · exact hheap e hmem
    obtain ⟨hgood'', hcap', hmem⟩ := ih hgood' ⟨slots, hcap ▸ hcard, hheap', hrequests⟩
    exact ⟨hgood'', hcap'.trans hcap, fun e => (hmem e).trans (memAfter_cons hset e).symm⟩

/-! ## The entries that are due -/

/-- The entry at the root is handed out, and the loop goes on. -/
theorem Answered.cons {n : Nat} {h' : Heap} {handed : List (Entry × Nat)}
    (hanswered : Answered clock (n + 1) (h.remove 0) h' handed) (hgood : h.Good)
    (hsize : h.size > 0) (hle : (h.entries 0).fireAt ≤ clock n) :
    Answered clock n h h' ((h.entries 0, clock n) :: handed) := by
  obtain ⟨-, -, -, hremove⟩ := hgood.remove hsize
  have hroot : h.Mem (h.entries 0) := ⟨0, hsize, rfl⟩
  have hlater : ∀ x ∈ handed, h.Mem x.1 ∧ x.1.slot ≠ (h.entries 0).slot := fun x hx =>
    (hremove x.1).mp ((hanswered.kept x.1).mpr (.inl (List.mem_map_of_mem hx)))
  have hrest : ∀ e, h'.Mem e → h.Mem e ∧ e.slot ≠ (h.entries 0).slot := fun e he =>
    (hremove e).mp ((hanswered.kept e).mpr (.inr he))
  constructor
  case good => exact hanswered.good
  case reading =>
    intro k hk
    cases k with
    | zero => rfl
    | succ k =>
      have := hanswered.reading k (Nat.lt_of_succ_lt_succ hk)
      rwa [Nat.add_right_comm] at this
  case due =>
    intro x hx
    obtain rfl | hx := List.mem_cons.mp hx
    · exact hle
    · exact hanswered.due x hx
  case sorted =>
    refine List.pairwise_cons.mpr ⟨fun t ht => ?_, hanswered.sorted⟩
    obtain ⟨x, hx, rfl⟩ := List.mem_map.mp ht
    exact hgood.root_le (hlater x hx).1
  case once =>
    refine List.nodup_cons.mpr ⟨fun hmem => ?_, hanswered.once⟩
    obtain ⟨x, hx, hslot⟩ := List.mem_map.mp hmem
    exact (hlater x hx).2 hslot
  case kept =>
    intro e
    rw [List.map_cons, List.mem_cons, or_assoc, ← hanswered.kept e, hremove e]
    constructor
    · intro hmem
      by_cases hslot : e.slot = (h.entries 0).slot
      · exact .inl (hgood.ok.eq_of_key hmem hroot hslot)
      · exact .inr ⟨hmem, hslot⟩
    · rintro (rfl | ⟨hmem, -⟩)
      · exact hroot
      · exact hmem
  case gone =>
    intro x hx e he
    obtain rfl | hx := List.mem_cons.mp hx
    · exact (hrest e he).2.symm
    · exact hanswered.gone x hx e he
  case rest =>
    intro e he
    have := hanswered.rest e he
    rwa [Nat.add_right_comm] at this

/-- The second loop of a pass answers what is due. -/
theorem answerEntries_spec {passes : Nat} (n : Nat) (hgood : h.Good) (hpasses : h.size < passes) :
    ∃ handed h', answerEntries clock passes n h = some (handed, h') ∧
      Answered clock n h h' handed := by
  induction passes generalizing h n with
  | zero => omega
  | succ passes ih =>
    by_cases hdue : h.size > 0 ∧ (h.entries 0).fireAt ≤ clock n
    · obtain ⟨hsize, hle⟩ := hdue
      obtain ⟨hgood', -, hsize', hremove⟩ := hgood.remove hsize
      obtain ⟨handed, h', heq, hanswered⟩ := ih (n + 1) hgood' (by omega)
      refine ⟨(h.entries 0, clock n) :: handed, h', ?_, ?_⟩
      · simp only [answerEntries, if_pos (And.intro hsize hle), heq, Option.map_some]
      · exact hanswered.cons hgood hsize hle
    · refine ⟨[], h, if_neg hdue, ?_⟩
      refine ⟨hgood, nofun, nofun, .nil, .nil, fun e => by simp, nofun, fun e hmem => ?_⟩
      have hsize : h.size > 0 := Nat.zero_lt_of_lt hmem.choose_spec.1
      exact Nat.lt_of_lt_of_le (Nat.lt_of_not_le fun hle => hdue ⟨hsize, hle⟩) (hgood.root_le hmem)

/-- A pass of the watchdog that starts with some requests in the ring, given enough passes of its
    loops: it sets all of them, the latest for each slot, and empties the ring; then it hands out
    entries in the order in which they are due, none before it is due and no slot twice, and
    leaves the others, none of which is due by the last clock reading. -/
theorem watchdogPass_spec {requests : List Entry} {passes : Nat} (c : Capacity)
    (hc : r.capacity = c.val) (hwaiting : r.Waiting requests) (hgood : h.Good)
    (hfits : h.Fits requests) (hrequests : requests.length < passes) (hcap : h.capacity < passes) :
    ∃ handed r' h' heap, watchdogPass clock passes r h = some (handed, r', h') ∧
      r'.Waiting [] ∧ (∀ e, heap.Mem e ↔ h.MemAfter requests e) ∧
      Answered clock 0 heap h' handed := by
  obtain ⟨r', hpop, hempty⟩ := popRequests_spec c hc hwaiting hrequests h
  obtain ⟨hgood', hcap', hmem⟩ := Heap.foldl_set_spec hgood hfits
  have hsize := Nat.lt_of_le_of_lt hgood'.size_le (hcap' ▸ hcap)
  obtain ⟨handed, h', hanswer, hanswered⟩ :
      ∃ handed h', answerEntries clock passes 0 _ = some (handed, h') ∧
        Answered clock 0 _ h' handed := answerEntries_spec 0 hgood' hsize
  refine ⟨handed, r', h', _, ?_, hempty, hmem, hanswered⟩
  simp only [watchdogPass, hpop, hanswer, bind, pure, Option.bind_some]

/-- Three requests for two slots, in a ring with four cells. -/
def threeRequests : List Entry := [⟨0, 0, 50, 0⟩, ⟨1, 1, 30, 1⟩, ⟨0, 2, 20, 2⟩]

def fourCells : Capacity := ⟨4, by decide, by decide, ⟨2, rfl⟩⟩

def threeWaiting : Requests where
  capacity := 4
  requests i := ⟨if i < 3 then i + 1 else i, threeRequests.getD i ⟨0, 0, 0, 0⟩⟩
  enqueuePosition := 3
  dequeuePosition := 0

theorem watchdogPass_spec_three :
    ∃ handed r' h' heap, watchdogPass (· + 40) 5 threeWaiting (.init fourCells) =
      some (handed, r', h') ∧ r'.Waiting [] ∧
      (∀ e, heap.Mem e ↔ (Heap.init fourCells).MemAfter threeRequests e) ∧
      Answered (· + 40) 0 heap h' handed := by
  refine watchdogPass_spec fourCells rfl ⟨fun k entry hk => ?_, by decide⟩ (Heap.good_init _)
    ⟨{0, 1}, by decide, nofun, by decide⟩ (by decide) (by decide)
  rcases k with _ | _ | _ | k
  · cases hk; rfl
  · cases hk; rfl
  · cases hk; rfl
  · cases hk

end EndpointSecurity
