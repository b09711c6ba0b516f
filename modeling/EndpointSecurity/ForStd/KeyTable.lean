import Mathlib.Data.Finset.Card
import Mathlib.Data.Finset.Range
import Mathlib.Logic.Function.Basic
import Mathlib.Tactic.SplitIfs

/-!
# Tables whose entries can be found by their key

An array of entries together with a map that says at which index the entry with a given key
is. Heaps whose entries can be changed or removed in the middle are kept in such a table. A
table says nothing about the keys that are not in it: their index may be anything.

## Key results

- `Table.Ok`: the map finds every entry, so no two entries have the same key
- `Ok.swap`, `Ok.replace`, `Ok.push`, `Ok.remove`: what the operations make of the entries
- `Ok.size_lt`: a table with room for all keys has room for one that is not in it
-/

namespace KeyTable

/-- A table with keys in `κ`. -/
structure Table (α κ : Type _) where
  size : Nat
  entries : Nat → α
  index : κ → Nat

namespace Table

variable {α κ : Type _} (key : α → κ) (t : Table α κ)

/-- The entries that the table holds. -/
def Mem (e : α) : Prop := ∃ i < t.size, t.entries i = e

/-- Every entry is found by its key. -/
def Ok : Prop := ∀ i < t.size, t.index (key (t.entries i)) = i

/-- Change the entry at an index, not its key. -/
def replace (i : Nat) (e : α) : Table α κ :=
  { t with entries := Function.update t.entries i e }

variable {key t} {e : α} {i l r v : Nat}

namespace Ok

/-- No two entries have the same key. -/
theorem inj (h : t.Ok key) (hl : l < t.size) (hr : r < t.size)
    (hkey : key (t.entries l) = key (t.entries r)) : l = r := by
  rw [← h l hl, ← h r hr, hkey]

/-- An entry of the table is the one that is found by its key. -/
theorem entry_index (h : t.Ok key) (he : t.Mem e) :
    t.index (key e) < t.size ∧ t.entries (t.index (key e)) = e := by
  obtain ⟨i, hi, rfl⟩ := he
  rw [h i hi]
  exact ⟨hi, rfl⟩

/-- Entries with the same key are the same. -/
theorem eq_of_key {e' : α} (h : t.Ok key) (he : t.Mem e) (he' : t.Mem e') (hkey : key e = key e') :
    e = e' := by
  rw [← (h.entry_index he).2, ← (h.entry_index he').2, hkey]

/-! ## Changing an entry -/

theorem replace (h : t.Ok key) (hi : i < t.size) (hkey : key e = key (t.entries i)) :
    (t.replace i e).Ok key := by
  intro j hj
  simp only [Table.replace, Function.update_apply] at hj ⊢
  split_ifs with hji
  · rw [hkey, h i hi, hji]
  · exact h j hj

theorem mem_replace (h : t.Ok key) (hi : i < t.size) (hkey : key e = key (t.entries i)) {e' : α} :
    (t.replace i e).Mem e' ↔ e' = e ∨ t.Mem e' ∧ key e' ≠ key e := by
  simp only [Mem, Table.replace, Function.update_apply]
  constructor
  · rintro ⟨j, hj, rfl⟩
    split_ifs with hji
    · exact .inl rfl
    · exact .inr ⟨⟨j, hj, rfl⟩, fun heq => hji (h.inj hj hi (heq.trans hkey))⟩
  · rintro (rfl | ⟨⟨j, hj, rfl⟩, hne⟩)
    · exact ⟨i, hi, by simp⟩
    · refine ⟨j, hj, if_neg ?_⟩
      rintro rfl
      exact hne hkey.symm

end Ok

section
variable [DecidableEq κ] (key t)

/-- Write an entry and its index. -/
def place (i : Nat) (e : α) : Table α κ :=
  { t with
    entries := Function.update t.entries i e
    index := Function.update t.index (key e) i }

/-- Exchange two entries. -/
def swap (l r : Nat) : Table α κ :=
  (t.place key l (t.entries r)).place key r (t.entries l)

/-- Add an entry at the end. -/
def push (e : α) : Table α κ := { t.place key t.size e with size := t.size + 1 }

/-- Take the last entry off, and its key out of the map. -/
def pop (v : Nat) : Table α κ :=
  { t with
    size := t.size - 1
    index := Function.update t.index (key (t.entries (t.size - 1))) v }

/-- Take the entry at an index off, its key out of the map, and move the last entry to its
    place. -/
def remove (i v : Nat) : Table α κ :=
  place key
    { t with size := t.size - 1, index := Function.update t.index (key (t.entries i)) v }
    i (t.entries (t.size - 1))

end

namespace Ok

variable [DecidableEq κ]

/-! ## Exchanging entries -/

theorem swap (h : t.Ok key) (hl : l < t.size) (hr : r < t.size) : (t.swap key l r).Ok key := by
  intro i hi
  change i < t.size at hi
  simp only [Table.swap, place, Function.update_apply]
  by_cases hir : i = r
  · simp [hir]
  · by_cases hil : i = l
    · subst hil
      have hne : key (t.entries r) ≠ key (t.entries i) := fun hkey => hir (h.inj hi hr hkey.symm)
      simp [hir, hne]
    · have hnel : key (t.entries i) ≠ key (t.entries l) := fun hkey => hil (h.inj hi hl hkey)
      have hner : key (t.entries i) ≠ key (t.entries r) := fun hkey => hir (h.inj hi hr hkey)
      simp [hir, hil, hnel, hner, h i hi]

theorem mem_swap (hl : l < t.size) (hr : r < t.size) : (t.swap key l r).Mem e ↔ t.Mem e := by
  simp only [Mem, Table.swap, place, Function.update_apply]
  constructor
  · rintro ⟨i, hi, rfl⟩
    split_ifs
    · exact ⟨l, hl, rfl⟩
    · exact ⟨r, hr, rfl⟩
    · exact ⟨i, hi, rfl⟩
  · rintro ⟨i, hi, rfl⟩
    by_cases hil : i = l
    · exact ⟨r, hr, by simp [hil]⟩
    · by_cases hir : i = r
      · exact ⟨l, hl, by grind⟩
      · exact ⟨i, hi, by simp [hir, hil]⟩

/-! ## Adding an entry -/

theorem push (h : t.Ok key) (hnew : ∀ e', t.Mem e' → key e' ≠ key e) : (t.push key e).Ok key := by
  intro i hi
  change i < t.size + 1 at hi
  simp only [Table.push, place, Function.update_apply]
  obtain hlt | rfl := Nat.lt_succ_iff_lt_or_eq.mp hi
  · have hne := hnew (t.entries i) ⟨i, hlt, rfl⟩
    simp [Nat.ne_of_lt hlt, hne, h i hlt]
  · simp

theorem mem_push {e' : α} : (t.push key e).Mem e' ↔ e' = e ∨ t.Mem e' := by
  simp only [Mem, Table.push, place, Function.update_apply]
  constructor
  · rintro ⟨i, hi, rfl⟩
    split_ifs with heq
    · exact .inl rfl
    · exact .inr ⟨i, by omega, rfl⟩
  · rintro (rfl | ⟨i, hi, rfl⟩)
    · exact ⟨t.size, by omega, by simp⟩
    · exact ⟨i, by omega, by simp [Nat.ne_of_lt hi]⟩

/-! ## Removing an entry -/

theorem pop (h : t.Ok key) : (t.pop key v).Ok key := by
  intro i hi
  simp only [Table.pop, Function.update_apply] at hi ⊢
  rw [if_neg, h i (by omega)]
  intro hkey
  have := h.inj (by omega) (by omega) hkey
  omega

theorem mem_pop (h : t.Ok key) {e' : α} (hpos : 0 < t.size) :
    (t.pop key v).Mem e' ↔ t.Mem e' ∧ key e' ≠ key (t.entries (t.size - 1)) := by
  simp only [Mem, Table.pop]
  constructor
  · rintro ⟨i, hi, rfl⟩
    refine ⟨⟨i, by omega, rfl⟩, fun hkey => ?_⟩
    have := h.inj (by omega) (by omega) hkey
    omega
  · rintro ⟨⟨i, hi, rfl⟩, hne⟩
    have : i ≠ t.size - 1 := by
      rintro rfl
      exact hne rfl
    exact ⟨i, by omega, rfl⟩

theorem remove (h : t.Ok key) (hi : i < t.size - 1) : (t.remove key i v).Ok key := by
  intro j hj
  simp only [Table.remove, place, Function.update_apply] at hj ⊢
  by_cases hji : j = i
  · simp [hji]
  · have hlast : key (t.entries j) ≠ key (t.entries (t.size - 1)) := fun hkey => by
      have := h.inj (by omega) (by omega) hkey
      omega
    have hne : key (t.entries j) ≠ key (t.entries i) :=
      fun hkey => hji (h.inj (by omega) (by omega) hkey)
    simp [hji, hlast, hne, h j (by omega)]

theorem mem_remove (h : t.Ok key) (hi : i < t.size - 1) {e' : α} :
    (t.remove key i v).Mem e' ↔ t.Mem e' ∧ key e' ≠ key (t.entries i) := by
  simp only [Mem, Table.remove, place, Function.update_apply]
  constructor
  · rintro ⟨j, hj, rfl⟩
    split_ifs with hji
    · refine ⟨⟨t.size - 1, by omega, rfl⟩, fun hkey => ?_⟩
      have := h.inj (by omega) (by omega) hkey
      omega
    · exact ⟨⟨j, by omega, rfl⟩, fun hkey => hji (h.inj (by omega) (by omega) hkey)⟩
  · rintro ⟨⟨j, hj, rfl⟩, hne⟩
    have hji : j ≠ i := by
      rintro rfl
      exact hne rfl
    by_cases hlast : j = t.size - 1
    · exact ⟨i, hi, by simp [hlast]⟩
    · exact ⟨j, by omega, by simp [hji]⟩

/-! ## Room -/

/-- A table with room for all keys has room for one that is not in it. -/
theorem size_lt (h : t.Ok key) {keys : Finset κ} {k : κ} (hkeys : ∀ e, t.Mem e → key e ∈ keys)
    (hk : k ∈ keys) (hnew : ∀ e, t.Mem e → key e ≠ k) : t.size < keys.card := by
  rw [← Finset.card_erase_add_one hk, Nat.lt_succ_iff, ← Finset.card_range t.size]
  refine Finset.card_le_card_of_injOn (fun i => key (t.entries i)) (fun i hi => ?_)
    fun l hl r hr hkey => ?_
  · have hmem : t.Mem (t.entries i) := ⟨i, by simpa using hi, rfl⟩
    exact Finset.mem_coe.mpr (Finset.mem_erase.mpr ⟨hnew _ hmem, hkeys _ hmem⟩)
  · exact h.inj (by simpa using hl) (by simpa using hr) hkey

end Ok
end Table
end KeyTable
