import EndpointSecurity.Spec.WatchdogHeap
import Mathlib.Data.Finset.Insert

/-!
# The watchdog's heap as a map

What the heap says about each slot: nothing, or the position and the time that the last request
for it has asked for. `heap_set` changes what the map says about one slot, `heap_remove` makes it
say nothing about one, and both leave a valid heap.

## Key results

- `Heap.Valid`: the representation invariant, clause by clause; `valid_iff_good`
- `upLoop_eq_up`, `downLoop_eq_down`: the bounds on the passes of the two loops are never reached
- `heap_operations_valid`: what `heap_set` and `heap_remove` make of a valid heap
-/

namespace EndpointSecurity
namespace Heap

open KeyTable (Table)

variable {h : Heap} {i slot : Nat} {e request : Entry}

/-- The representation invariant as the functions on the heap rely on it. -/
structure Valid (h : Heap) : Prop where
  size_le : h.size ≤ h.capacity
  distinct : ∀ i j, i < h.size → j < h.size → (h.entries i).slot = (h.entries j).slot → i = j
  index : ∀ i, i < h.size → h.watchdogIndex (h.entries i).slot = i
  outside : ∀ slot, (∀ i, i < h.size → (h.entries i).slot ≠ slot) → h.contains slot = false
  order : ∀ i, 0 < i → i < h.size → (h.entries ((i - 1) / 2)).fireAt ≤ (h.entries i).fireAt

/-- That the entries are found by their slots already says that no two have the same one, and
    that the test of `heap_set` finds no others. -/
theorem valid_iff_good : h.Valid ↔ h.Good := by
  constructor
  · intro hvalid
    exact ⟨hvalid.size_le, hvalid.index, hvalid.order⟩
  · intro hgood
    refine ⟨hgood.size_le, fun i j hi hj => hgood.ok.inj hi hj, hgood.ok, ?_, hgood.order⟩
    intro slot hnone
    rw [Bool.eq_false_iff]
    intro hcontains
    obtain ⟨e, ⟨i, hi, rfl⟩, hslot⟩ := hgood.contains_iff.mp hcontains
    exact hnone i hi hslot

/-! ## The number of passes -/

/-- `heap_up` has come to its end after as many passes as its index says. -/
theorem upLoop_eq_up {fuel : Nat} (hfuel : i ≤ fuel) : upLoop fuel h i = h.up i := by
  suffices ∀ fuel fuel' (h : Heap) i, i ≤ fuel → i ≤ fuel' →
      upLoop fuel h i = upLoop fuel' h i from this _ _ _ _ hfuel (Nat.le_refl i)
  intro fuel
  induction fuel with
  | zero =>
    intro fuel' h i hi _
    obtain rfl : i = 0 := by omega
    cases fuel' <;> rfl
  | succ fuel ih =>
    intro fuel' h i hi hi'
    cases fuel' with
    | zero =>
      obtain rfl : i = 0 := by omega
      rfl
    | succ fuel' =>
      rw [upLoop_succ, upLoop_succ]
      split_ifs with hpos hle
      · rfl
      · have := Table.parent_lt hpos
        exact ih _ _ _ (by omega) (by omega)
      · rfl

/-- `heap_down` has come to its end when it has gone through all the indices from its own on. -/
theorem downLoop_eq_down {fuel : Nat} (hfuel : h.size ≤ fuel + i) :
    downLoop fuel h i = h.down i := by
  suffices ∀ fuel fuel' (h : Heap) i, h.size ≤ fuel + i → h.size ≤ fuel' + i →
      downLoop fuel h i = downLoop fuel' h i from this _ _ _ _ hfuel (by omega)
  intro fuel
  induction fuel with
  | zero =>
    intro fuel' h i hi _
    cases fuel' with
    | zero => rfl
    | succ fuel' => rw [downLoop_succ, if_pos (by change h.size ≤ _; omega)]; rfl
  | succ fuel ih =>
    intro fuel' h i hi hi'
    cases fuel' with
    | zero => rw [downLoop_succ, if_pos (by change h.size ≤ _; omega)]; rfl
    | succ fuel' =>
      rw [downLoop_succ, downLoop_succ]
      split_ifs with hleaf hle
      · rfl
      · rfl
      · have hchild : i < h.table.child Entry.fireAt i := Table.lt_child
        have hsize : (h.swap i (h.table.child Entry.fireAt i)).size = h.size := rfl
        exact ih _ _ _ (by omega) (by omega)

/-! ## The contents -/

/-- What the heap says about a slot: the position and the time of its entry. -/
def contents (h : Heap) (slot : Nat) : Option (Nat × Nat) :=
  (((List.range h.size).map h.entries).find? fun e => e.slot = slot).map fun e =>
    (e.position, e.fireAt)

theorem contents_eq_none : h.contents slot = none ↔ ∀ e, h.Mem e → e.slot ≠ slot := by
  simp only [contents, Option.map_eq_none_iff, List.find?_eq_none, List.mem_map, List.mem_range,
    decide_eq_true_eq]
  rfl

theorem Good.contents_eq_some (hgood : h.Good) (hmem : h.Mem e) :
    h.contents e.slot = some (e.position, e.fireAt) := by
  cases hfind : ((List.range h.size).map h.entries).find? fun e' => e'.slot = e.slot with
  | none =>
    have hnone : h.contents e.slot = none := by rw [contents, hfind, Option.map_none]
    exact absurd rfl (contents_eq_none.mp hnone e hmem)
  | some e' =>
    obtain ⟨i, hi, hei⟩ := List.mem_map.mp (List.mem_of_find?_eq_some hfind)
    have hslot : e'.slot = e.slot := by simpa using List.find?_some hfind
    have hmem' : h.table.Mem e' := ⟨i, List.mem_range.mp hi, hei⟩
    rw [contents, hfind, hgood.ok.eq_of_key hmem' hmem hslot, Option.map_some]

theorem Good.set_contents (hgood : h.Good) (hroom : h.contains request.slot ∨ h.size < h.capacity) :
    (h.set request).contents =
      Function.update h.contents request.slot (some (request.position, request.fireAt)) := by
  obtain ⟨hgood', -, hmem⟩ := hgood.set hroom
  funext slot
  by_cases hslot : slot = request.slot
  · subst hslot
    rw [Function.update_self]
    exact hgood'.contents_eq_some ((hmem request).mpr (.inl rfl))
  · rw [Function.update_of_ne hslot]
    by_cases hentry : ∃ e, h.Mem e ∧ e.slot = slot
    · obtain ⟨e, he, rfl⟩ := hentry
      rw [hgood.contents_eq_some he, hgood'.contents_eq_some ((hmem e).mpr (.inr ⟨he, hslot⟩))]
    · have hold : h.contents slot = none :=
        contents_eq_none.mpr fun e he heq => hentry ⟨e, he, heq⟩
      rw [hold, contents_eq_none]
      intro e he heq
      obtain rfl | ⟨he, -⟩ := (hmem e).mp he
      · exact hslot heq.symm
      · exact hentry ⟨e, he, heq⟩

theorem Good.remove_contents (hgood : h.Good) (hi : i < h.size) :
    (h.remove i).contents = Function.update h.contents (h.entries i).slot none := by
  obtain ⟨hgood', -, -, hmem⟩ := hgood.remove hi
  funext slot
  by_cases hslot : slot = (h.entries i).slot
  · subst hslot
    rw [Function.update_self]
    exact contents_eq_none.mpr fun e he => ((hmem e).mp he).2
  · rw [Function.update_of_ne hslot]
    by_cases hentry : ∃ e, h.Mem e ∧ e.slot = slot
    · obtain ⟨e, he, rfl⟩ := hentry
      rw [hgood.contents_eq_some he, hgood'.contents_eq_some ((hmem e).mpr ⟨he, hslot⟩)]
    · have hold : h.contents slot = none :=
        contents_eq_none.mpr fun e he heq => hentry ⟨e, he, heq⟩
      rw [hold, contents_eq_none]
      exact fun e he heq => hentry ⟨e, ((hmem e).mp he).1, heq⟩

/-- The slot of an entry that has been taken off no longer passes the test of `heap_set`. -/
theorem Good.remove_contains (hgood : h.Good) (hi : i < h.size) :
    (h.remove i).contains (h.entries i).slot = false := by
  obtain ⟨hgood', -, -, hmem⟩ := hgood.remove hi
  rw [Bool.eq_false_iff]
  intro hcontains
  obtain ⟨e, he, hslot⟩ := hgood'.contains_iff.mp hcontains
  exact ((hmem e).mp he).2 hslot

/-- `heap_set` and `heap_remove` keep a valid heap valid. Where there is room for every slot,
    `heap_set` makes the heap say what is requested about the slot of the request, and nothing
    else of what it says changes; `heap_remove` makes it say nothing about one slot, which the
    membership test no longer finds. -/
theorem heap_operations_valid (hvalid : h.Valid) :
    (∀ slots : Finset Nat, slots.card ≤ h.capacity →
      (∀ i, i < h.size → (h.entries i).slot ∈ slots) →
      ∀ request : Entry, request.slot ∈ slots →
        (h.set request).Valid ∧ (h.set request).capacity = h.capacity ∧
        (h.set request).contents =
          Function.update h.contents request.slot (some (request.position, request.fireAt))) ∧
    ∀ i, i < h.size →
      (h.remove i).Valid ∧ (h.remove i).capacity = h.capacity ∧
      (h.remove i).contents = Function.update h.contents (h.entries i).slot none ∧
      (h.remove i).contains (h.entries i).slot = false := by
  have hgood := valid_iff_good.mp hvalid
  constructor
  · intro slots hcard hslots request hrequest
    have hroom : h.contains request.slot ∨ h.size < h.capacity := by
      refine hgood.room slots ?_ hcard hrequest
      rintro e ⟨i, hi, rfl⟩
      exact hslots i hi
    obtain ⟨hgood', hcap, -⟩ := hgood.set hroom
    exact ⟨valid_iff_good.mpr hgood', hcap, hgood.set_contents hroom⟩
  · intro i hi
    obtain ⟨hgood', hcap, -, -⟩ := hgood.remove hi
    exact ⟨valid_iff_good.mpr hgood', hcap, hgood.remove_contents hi, hgood.remove_contains hi⟩

/-- A heap with room for two slots and an entry for one of them. -/
def oneEntry : Heap :=
  (init ⟨2, Capacity.two_lt_size, Capacity.two_le_two, Capacity.two_pow⟩).set ⟨1, 5, 30, 0⟩

/-- The other slot gets an earlier entry, which goes to the root; taking the first one off leaves
    an empty heap. -/
theorem heap_operations_valid_one :
    (oneEntry.set ⟨0, 6, 20, 1⟩).contents 1 = some (5, 30) ∧
      (oneEntry.set ⟨0, 6, 20, 1⟩).contents 0 = some (6, 20) ∧
      (oneEntry.remove 0).contents 1 = none := by
  have hroom : (init ⟨2, by decide, by decide, ⟨1, rfl⟩⟩).contains 1 ∨
      (init ⟨2, by decide, by decide, ⟨1, rfl⟩⟩).size < 2 := .inr (by decide)
  have hvalid : oneEntry.Valid := valid_iff_good.mpr ((good_init _).set hroom).1
  have h := heap_operations_valid hvalid
  have hset := (h.1 {0, 1} (by decide) (by decide) ⟨0, 6, 20, 1⟩ (by decide)).2.2
  have hremove := (h.2 0 (by decide)).2.2.1
  rw [hset, hremove]
  decide

end Heap
end EndpointSecurity
