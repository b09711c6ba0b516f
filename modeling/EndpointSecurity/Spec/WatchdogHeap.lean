import EndpointSecurity.ForStd.KeyHeap
import EndpointSecurity.Native.Watchdog

/-!
# The watchdog's heap

The heap is a table of entries that are found by their slot, in heap order by the time at
which they are due. Every slot has one entry at most, so the heap has room for all slots.

## Key results

- `Good`: the representation invariant
- `Good.set`, `Good.remove`: what `heap_set` and `heap_remove` make of the entries
- `Heap.room`: a heap with room for all slots is not full when `heap_set` adds one
-/

namespace EndpointSecurity
namespace Heap

open KeyTable (Table)
open KeyTable.Table (siftUp siftDown)

/-- The table of the entries. -/
def table (h : Heap) : Table Entry Nat := ⟨h.size, h.entries, h.watchdogIndex⟩

/-- The representation invariant. -/
structure Good (h : Heap) : Prop where
  size_le : h.size ≤ h.capacity
  ok : h.table.Ok Entry.slot
  order : h.table.Ordered Entry.fireAt

/-- The entries in the heap. -/
def Mem (h : Heap) (e : Entry) : Prop := h.table.Mem e

variable {h : Heap} {i slot : Nat} {e request : Entry}

theorem good_init (c : Capacity) : (init c).Good where
  size_le := Nat.zero_le _
  ok := nofun
  order := nofun

/-! ## The loops -/

theorem upLoop_succ (fuel : Nat) : upLoop (fuel + 1) h i =
    if 0 < i then
      if h.table.rankAt Entry.fireAt (Table.parent i) ≤ h.table.rankAt Entry.fireAt i then h
      else upLoop fuel (h.swap (Table.parent i) i) (Table.parent i)
    else h := rfl

theorem downLoop_succ (fuel : Nat) : downLoop (fuel + 1) h i =
    if h.table.size ≤ i * 2 + 1 then h
    else if h.table.rankAt Entry.fireAt i ≤
      h.table.rankAt Entry.fireAt (h.table.child Entry.fireAt i) then h
    else downLoop fuel (h.swap i (h.table.child Entry.fireAt i)) (h.table.child Entry.fireAt i) :=
  rfl

/-- `heap_up` is the loop of the table. -/
theorem table_upLoop (fuel : Nat) :
    (upLoop fuel h i).table = siftUp Entry.slot Entry.fireAt fuel h.table i ∧
      (upLoop fuel h i).capacity = h.capacity := by
  induction fuel generalizing h i with
  | zero => exact ⟨rfl, rfl⟩
  | succ fuel ih =>
    rw [upLoop_succ, siftUp]
    split_ifs
    · exact ⟨rfl, rfl⟩
    · exact ih
    · exact ⟨rfl, rfl⟩

/-- `heap_down` is the loop of the table. -/
theorem table_downLoop (fuel : Nat) :
    (downLoop fuel h i).table = siftDown Entry.slot Entry.fireAt fuel h.table i ∧
      (downLoop fuel h i).capacity = h.capacity := by
  induction fuel generalizing h i with
  | zero => exact ⟨rfl, rfl⟩
  | succ fuel ih =>
    rw [downLoop_succ, siftDown]
    split_ifs
    · exact ⟨rfl, rfl⟩
    · exact ⟨rfl, rfl⟩
    · exact ih

/-- `heap_up` from the index of a changed entry, then `heap_down` from where it is found. -/
theorem sift_spec (hsize' : h.size ≤ h.capacity) (hok : h.table.Ok Entry.slot)
    (hloose : h.table.Loose Entry.fireAt i) (hi : i < h.size) (he : h.entries i = e) :
    let h' := (h.up i).down ((h.up i).watchdogIndex e.slot)
    h'.Good ∧ h'.capacity = h.capacity ∧ h.table.Same Entry.slot h'.table := by
  intro h'
  obtain ⟨hup, hupcap⟩ := table_upLoop (h := h) (i := i) i
  obtain ⟨hdown, hdowncap⟩ :=
    table_downLoop (h := h.up i) (i := (h.up i).watchdogIndex e.slot)
      ((h.up i).size - (h.up i).watchdogIndex e.slot)
  have hcap : h'.capacity = h.capacity := hdowncap.trans hupcap
  have hsift := hloose.sift hok hi he
  rw [← hup] at hsift
  obtain ⟨hordered, hsame⟩ := hsift
  have htable : h'.table = _ := hdown
  refine ⟨⟨?_, htable ▸ hsame.ok, htable ▸ hordered⟩, hcap, htable ▸ hsame⟩
  have hsize : h'.size = h.size := (congrArg Table.size htable).trans hsame.size
  rw [hsize, hcap]
  exact hsize'

/-! ## Membership -/

/-- The test of `heap_set` finds out whether there is an entry for a slot. -/
theorem Good.contains_iff (hgood : h.Good) : h.contains slot ↔ ∃ e, h.Mem e ∧ e.slot = slot := by
  simp only [contains, Bool.not_eq_true', Bool.or_eq_false_iff, decide_eq_false_iff_not,
    bne_eq_false_iff_eq,
    Nat.not_le]
  constructor
  · rintro ⟨hlt, hslot⟩
    exact ⟨_, ⟨_, hlt, rfl⟩, hslot⟩
  · rintro ⟨e, hmem, rfl⟩
    obtain ⟨hlt, he⟩ := hgood.ok.entry_index hmem
    exact ⟨hlt, congrArg Entry.slot he⟩

/-- A heap with room for all slots is not full when there is no entry for one of them. -/
theorem Good.room (hgood : h.Good) (slots : Finset Nat) (hslots : ∀ e, h.Mem e → e.slot ∈ slots)
    (hcard : slots.card ≤ h.capacity) (hslot : slot ∈ slots) :
    h.contains slot ∨ h.size < h.capacity := by
  by_cases hcontains : h.contains slot
  · exact .inl hcontains
  · rw [hgood.contains_iff] at hcontains
    refine .inr (Nat.lt_of_lt_of_le (hgood.ok.size_lt hslots hslot fun e hmem heq => ?_) hcard)
    exact hcontains ⟨e, hmem, heq⟩

/-! ## Setting and removing entries -/

/-- `heap_set` replaces the entry for a slot, or adds one. -/
theorem Good.set (hgood : h.Good) (hroom : h.contains request.slot ∨ h.size < h.capacity) :
    (h.set request).Good ∧ (h.set request).capacity = h.capacity ∧
      ∀ e, (h.set request).Mem e ↔ e = request ∨ h.Mem e ∧ e.slot ≠ request.slot := by
  by_cases hcontains : h.contains request.slot
  · obtain ⟨old, hmem, hold⟩ := hgood.contains_iff.mp hcontains
    obtain ⟨hlt, hentry⟩ := hgood.ok.entry_index hmem
    rw [hold] at hlt hentry
    have hkey : request.slot = (h.table.entries (h.table.index request.slot)).slot := by
      rw [hentry, hold]
    obtain ⟨hgood', hcap, hsame⟩ :=
      sift_spec (h := { h with
        entries := Function.update h.entries (h.watchdogIndex request.slot) request })
        hgood.size_le (hgood.ok.replace hlt hkey) hgood.order.replace hlt (Function.update_self ..)
    rw [Heap.set, if_pos hcontains]
    exact ⟨hgood', hcap, fun e => (hsame.mem e).trans (hgood.ok.mem_replace hlt hkey)⟩
  · have hnew : ∀ e, h.table.Mem e → e.slot ≠ request.slot := fun e hmem heq =>
      hcontains (hgood.contains_iff.mpr ⟨e, hmem, heq⟩)
    have hlt := hroom.resolve_left hcontains
    obtain ⟨hgood', hcap, hsame⟩ :=
      sift_spec (h := { h with
        size := h.size + 1
        entries := Function.update h.entries h.size request
        watchdogIndex := Function.update h.watchdogIndex request.slot h.size })
        hlt (hgood.ok.push hnew) hgood.order.push (Nat.lt_succ_self _) (Function.update_self ..)
    rw [Heap.set, if_neg hcontains, if_neg (Nat.not_le.mpr hlt)]
    refine ⟨hgood', hcap, fun e => (hsame.mem e).trans ?_⟩
    have hpush : (h.table.push Entry.slot request).Mem e ↔ e = request ∨ h.Mem e :=
      KeyTable.Table.Ok.mem_push
    exact hpush.trans (or_congr_right (iff_self_and.mpr (hnew e)))

/-- `heap_remove` takes an entry off. -/
theorem Good.remove (hgood : h.Good) (hi : i < h.size) :
    (h.remove i).Good ∧ (h.remove i).capacity = h.capacity ∧ (h.remove i).size = h.size - 1 ∧
      ∀ e, (h.remove i).Mem e ↔ h.Mem e ∧ e.slot ≠ (h.entries i).slot := by
  have hle := Nat.le_trans (Nat.sub_le h.size 1) hgood.size_le
  by_cases hlast : i = h.size - 1
  · subst hlast
    rw [Heap.remove, if_pos rfl]
    exact ⟨⟨hle, hgood.ok.pop, hgood.order.pop sizeMax⟩, rfl, rfl,
      fun e => hgood.ok.mem_pop (Nat.zero_lt_of_lt hi)⟩
  · have hlt : i < h.size - 1 := by omega
    obtain ⟨hgood', hcap, hsame⟩ :=
      sift_spec (h := place { h with
          size := h.size - 1
          watchdogIndex := Function.update h.watchdogIndex (h.entries i).slot sizeMax }
        i (h.entries (h.size - 1)))
        hle (hgood.ok.remove hlt) (hgood.order.remove sizeMax) hlt (Function.update_self ..)
    rw [Heap.remove, if_neg hlast]
    exact ⟨hgood', hcap, hsame.size, fun e => (hsame.mem e).trans (hgood.ok.mem_remove hlt)⟩

/-- The entry at the root is the first one due. -/
theorem Good.root_le (hgood : h.Good) (hmem : h.Mem e) : (h.entries 0).fireAt ≤ e.fireAt := by
  obtain ⟨i, hi, rfl⟩ := hmem
  exact hgood.order.root_le hi

end Heap
end EndpointSecurity
