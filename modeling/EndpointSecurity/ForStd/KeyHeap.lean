import EndpointSecurity.ForStd.KeyTable
import Mathlib.Order.Defs.LinearOrder

/-!
# Binary heaps in a table

A `KeyTable` whose entries are in heap order by a rank, the least at the root, with the two
loops that restore the order after an entry has been changed: `siftUp` and `siftDown`. Each is
given a bound on its number of passes.

## Key results

- `siftUp_spec`, `siftDown_spec`: the loops keep the entries
- `Loose.siftUp`, `AlmostDown.siftDown`: together they restore the order around a changed entry
- `Loose.sift`: both in a row do, without knowing which way the entry has to move
- `Ordered.root_le`: the root has the least rank
-/

namespace KeyTable
namespace Table

variable {α κ ρ : Type _} (key : α → κ) (rank : α → ρ) (t : Table α κ)

/-- The rank of the entry at an index. -/
def rankAt (i : Nat) : ρ := rank (t.entries i)

/-- The index of the parent. -/
def parent (i : Nat) : Nat := (i - 1) / 2

/-- The same entries in another order. -/
structure Same (t' : Table α κ) : Prop where
  size : t'.size = t.size
  ok : t'.Ok key
  mem : ∀ e, t'.Mem e ↔ t.Mem e

section Order
variable [LinearOrder ρ]

/-- The child with the lower rank, the left one where they are level. -/
def child (i : Nat) : Nat :=
  if i * 2 + 2 < t.size ∧ t.rankAt rank (i * 2 + 2) < t.rankAt rank (i * 2 + 1) then i * 2 + 2
  else i * 2 + 1

/-- Heap order. -/
def Ordered : Prop :=
  ∀ i, 0 < i → i < t.size → t.rankAt rank (parent i) ≤ t.rankAt rank i

/-- Heap order, but for the entry at index `hole`, which may be out of order with its parent and
    its children. They are in order with each other. -/
structure Loose (hole : Nat) : Prop where
  order : ∀ i, 0 < i → i < t.size → i ≠ hole → parent i ≠ hole →
    t.rankAt rank (parent i) ≤ t.rankAt rank i
  around : 0 < hole → ∀ i, 0 < i → i < t.size → parent i = hole →
    t.rankAt rank (parent hole) ≤ t.rankAt rank i

/-- Heap order, but for the entry at index `hole`, which may be out of order with its children. -/
structure AlmostDown (hole : Nat) : Prop extends t.Loose rank hole where
  above : 0 < hole → hole < t.size → t.rankAt rank (parent hole) ≤ t.rankAt rank hole

/-- Heap order, but for the entry at index `hole`, which may be out of order with its parent. -/
structure AlmostUp (hole : Nat) : Prop extends t.Loose rank hole where
  below : ∀ i, 0 < i → i < t.size → parent i = hole → t.rankAt rank hole ≤ t.rankAt rank i

end Order

variable {key rank t} {t' t'' : Table α κ} {i l r hole : Nat}

theorem Same.trans (h : t.Same key t') (h' : t'.Same key t'') : t.Same key t'' where
  size := h'.size.trans h.size
  ok := h'.ok
  mem e := (h'.mem e).trans (h.mem e)

theorem Ok.same (h : t.Ok key) : t.Same key t := ⟨rfl, h, fun _ => Iff.rfl⟩

theorem parent_lt (hi : 0 < i) : parent i < i := by
  unfold parent
  omega

/-! ## The order -/

section Order
variable [LinearOrder ρ]

theorem child_lt_size (hi : i * 2 + 1 < t.size) : t.child rank i < t.size := by
  unfold child
  split_ifs with hright
  · exact hright.1
  · exact hi

theorem lt_child : i < t.child rank i := by
  unfold child
  split_ifs <;> omega

theorem parent_child : parent (t.child rank i) = i := by
  unfold child parent
  split_ifs <;> omega

/-- The root has the least rank. -/
theorem Ordered.root_le (h : t.Ordered rank) (hi : i < t.size) :
    t.rankAt rank 0 ≤ t.rankAt rank i := by
  induction i using Nat.strongRecOn with
  | ind i ih =>
    obtain rfl | hpos := Nat.eq_zero_or_pos i
    · exact le_refl _
    · have hlt := parent_lt hpos
      exact le_trans (ih _ hlt (Nat.lt_trans hlt hi)) (h i hpos hi)

/-- A table in order is so around every index. -/
theorem Ordered.almostDown (h : t.Ordered rank) (hole : Nat) : t.AlmostDown rank hole where
  order i hpos hi _ _ := h i hpos hi
  around hpos i hi hlt hparent := by
    subst hparent
    exact le_trans (h _ hpos (Nat.lt_trans (parent_lt hi) hlt)) (h i hi hlt)
  above hpos hlt := h hole hpos hlt

/-- What is left when the hole is in order with its neighbours. -/
theorem AlmostDown.ordered (h : t.AlmostDown rank hole)
    (hbelow : ∀ i, 0 < i → i < t.size → parent i = hole →
      t.rankAt rank hole ≤ t.rankAt rank i) : t.Ordered rank := by
  intro i hpos hi
  by_cases hhole : i = hole
  · subst hhole
    exact h.above hpos hi
  · by_cases hparent : parent i = hole
    · rw [hparent]
      exact hbelow i hpos hi hparent
    · exact h.order i hpos hi hhole hparent

theorem AlmostUp.ordered (h : t.AlmostUp rank hole)
    (habove : 0 < hole → t.rankAt rank (parent hole) ≤ t.rankAt rank hole) : t.Ordered rank :=
  AlmostDown.ordered ⟨h.toLoose, fun hpos _ => habove hpos⟩ h.below

theorem parent_eq_iff (hi : 0 < i) : parent i = hole ↔ i = hole * 2 + 1 ∨ i = hole * 2 + 2 := by
  unfold parent
  omega

/-- No child has a lower rank than the one that `siftDown` looks at. -/
theorem child_le (hpos : 0 < i) (hi : i < t.size) (hparent : parent i = hole) :
    t.rankAt rank (t.child rank hole) ≤ t.rankAt rank i := by
  unfold child
  obtain rfl | rfl := (parent_eq_iff hpos).mp hparent
  · split_ifs with hright
    · exact le_of_lt hright.2
    · exact le_refl _
  · split_ifs with hright
    · exact le_refl _
    · exact le_of_not_gt fun hlt => hright ⟨hi, hlt⟩

/-- An entry of a table in order is changed. -/
theorem Ordered.replace (h : t.Ordered rank) {e : α} : (t.replace i e).Loose rank i where
  order j hpos hj hne hparent := by
    have hj' := h j hpos hj
    simpa only [rankAt, Table.replace, Function.update_of_ne hne, Function.update_of_ne hparent]
      using hj'
  around hpos j hj hlt hparent := by
    have hne : parent i ≠ i := Nat.ne_of_lt (parent_lt hpos)
    have hji : j ≠ i := by
      have := parent_lt hj
      omega
    have hle := (h.almostDown i).around hpos j hj hlt hparent
    simpa only [rankAt, Table.replace, Function.update_of_ne hne, Function.update_of_ne hji]
      using hle

end Order

/-! ## The loops -/

section Sift
variable [DecidableEq κ] [LinearOrder ρ] (key rank)

/-- Move the entry at an index up until its parent has no higher rank. -/
def siftUp : Nat → Table α κ → Nat → Table α κ
  | 0, t, _ => t
  | fuel + 1, t, i =>
    if 0 < i then
      if t.rankAt rank (parent i) ≤ t.rankAt rank i then t
      else siftUp fuel (t.swap key (parent i) i) (parent i)
    else t

/-- Move the entry at an index down until none of its children has a lower rank. -/
def siftDown : Nat → Table α κ → Nat → Table α κ
  | 0, t, _ => t
  | fuel + 1, t, i =>
    if t.size ≤ i * 2 + 1 then t
    else if t.rankAt rank i ≤ t.rankAt rank (t.child rank i) then t
    else siftDown fuel (t.swap key i (t.child rank i)) (t.child rank i)

variable {key rank}

theorem Ok.same_swap (h : t.Ok key) (hl : l < t.size) (hr : r < t.size) :
    t.Same key (t.swap key l r) :=
  ⟨rfl, h.swap hl hr, fun _ => Ok.mem_swap hl hr⟩

theorem siftUp_spec (fuel : Nat) (h : t.Ok key) (hi : i < t.size) :
    t.Same key (siftUp key rank fuel t i) := by
  induction fuel generalizing t i with
  | zero => exact h.same
  | succ fuel ih =>
    simp only [siftUp]
    split_ifs with hpos hle
    · exact h.same
    · have hlt := Nat.lt_trans (parent_lt hpos) hi
      exact (h.same_swap hlt hi).trans (ih (h.swap hlt hi) hlt)
    · exact h.same

theorem siftDown_spec (fuel : Nat) (h : t.Ok key) (hi : i < t.size) :
    t.Same key (siftDown key rank fuel t i) := by
  induction fuel generalizing t i with
  | zero => exact h.same
  | succ fuel ih =>
    simp only [siftDown]
    split_ifs with hleaf hle
    · exact h.same
    · exact h.same
    · have hlt : t.child rank i < t.size := child_lt_size (Nat.lt_of_not_le hleaf)
      exact (h.same_swap hi hlt).trans (ih (h.swap hi hlt) hlt)

omit [LinearOrder ρ] in
/-- The ranks after an exchange. -/
theorem rankAt_swap :
    (t.swap key l r).rankAt rank i =
      if i = r then t.rankAt rank l else if i = l then t.rankAt rank r else t.rankAt rank i := by
  simp only [rankAt, swap, place, Function.update_apply]
  split_ifs <;> rfl

/-- The hole moves up, past a parent of higher rank. -/
theorem Loose.swap_parent (h : t.Loose rank hole) (hpos : 0 < hole) (hlt : hole < t.size)
    (hgt : t.rankAt rank hole < t.rankAt rank (parent hole)) :
    (t.swap key (parent hole) hole).AlmostUp rank (parent hole) := by
  have hne : parent hole ≠ hole := Nat.ne_of_lt (parent_lt hpos)
  have hplt := Nat.lt_trans (parent_lt hpos) hlt
  refine ⟨⟨?order, ?around⟩, ?outside⟩
  case order =>
    intro i hi hisize hip hparent
    have hih : i ≠ hole := fun heq => hparent (by rw [heq])
    simp only [rankAt_swap, if_neg hih, if_neg hip, if_neg hparent]
    by_cases hchild : parent i = hole
    · rw [if_pos hchild]
      exact h.around hpos i hi hisize hchild
    · rw [if_neg hchild]
      exact h.order i hi hisize hih hchild
  case around =>
    intro hppos i hi hisize hparent
    have hpp := parent_lt hppos
    have hpph : parent (parent hole) ≠ hole := Nat.ne_of_lt (Nat.lt_trans hpp (parent_lt hpos))
    have habove : t.rankAt rank (parent (parent hole)) ≤ t.rankAt rank (parent hole) :=
      h.order _ hppos hplt hne hpph
    simp only [rankAt_swap, if_neg hpph, if_neg (Nat.ne_of_lt hpp)]
    by_cases hih : i = hole
    · rwa [if_pos hih]
    · have hip : i ≠ parent hole := fun heq => by rw [heq] at hparent; omega
      have hi' := h.order i hi hisize hih (by rw [hparent]; exact hne)
      rw [if_neg hih, if_neg hip]
      rw [hparent] at hi'
      exact le_trans habove hi'
  case outside =>
    intro i hi hisize hparent
    simp only [rankAt_swap, if_neg hne, if_true]
    by_cases hih : i = hole
    · rw [if_pos hih]
      exact le_of_lt hgt
    · have hip : i ≠ parent hole := fun heq => by
        have := parent_lt hi
        omega
      have hi' := h.order i hi hisize hih (by rw [hparent]; exact hne)
      rw [if_neg hih, if_neg hip]
      rw [hparent] at hi'
      exact le_of_lt (lt_of_lt_of_le hgt hi')

/-- The hole moves down, past its child of lower rank. -/
theorem AlmostDown.swap_child (h : t.AlmostDown rank hole) (hlt : t.child rank hole < t.size)
    (hgt : t.rankAt rank (t.child rank hole) < t.rankAt rank hole) :
    (t.swap key hole (t.child rank hole)).AlmostDown rank (t.child rank hole) := by
  have hparent_child : parent (t.child rank hole) = hole := parent_child
  have hhole : hole < t.child rank hole := lt_child
  have hmin : ∀ i, 0 < i → i < t.size → parent i = hole →
      t.rankAt rank (t.child rank hole) ≤ t.rankAt rank i :=
    fun i hi hisize hparent => child_le hi hisize hparent
  generalize t.child rank hole = c at *
  have hcpos : 0 < c := Nat.lt_of_le_of_lt (Nat.zero_le _) hhole
  refine ⟨⟨?order, ?around⟩, ?outside⟩
  case order =>
    intro i hi hisize hic hparent
    by_cases hih : i = hole
    · subst hih
      have hne : parent i ≠ i := Nat.ne_of_lt (parent_lt hi)
      simp only [rankAt_swap, if_neg hic, if_neg hparent, if_neg hne, if_true]
      exact h.around hi c hcpos hlt hparent_child
    · simp only [rankAt_swap, if_neg hic, if_neg hih, if_neg hparent]
      by_cases hchild : parent i = hole
      · rw [if_pos hchild]
        exact hmin i hi hisize hchild
      · rw [if_neg hchild]
        exact h.order i hi hisize hih hchild
  case around =>
    intro _ i hi hisize hparent
    have hlti := parent_lt hi
    rw [hparent] at hlti
    have hic : i ≠ c := by omega
    have hih : i ≠ hole := by omega
    simp only [hparent_child, rankAt_swap, if_neg hic, if_neg hih, if_neg (Nat.ne_of_lt hhole),
      if_true]
    have := h.order i hi hisize hih (by omega)
    rwa [hparent] at this
  case outside =>
    intro _ _
    simp only [hparent_child, rankAt_swap, if_neg (Nat.ne_of_lt hhole), if_true]
    exact le_of_lt hgt

theorem AlmostUp.siftUp {fuel : Nat} (h : t.AlmostUp rank hole) (hlt : hole < t.size)
    (hfuel : hole ≤ fuel) : (siftUp key rank fuel t hole).Ordered rank := by
  induction fuel generalizing t hole with
  | zero =>
    refine h.ordered fun hpos => ?_
    omega
  | succ fuel ih =>
    simp only [Table.siftUp]
    split_ifs with hpos hle
    · exact h.ordered fun _ => hle
    · have hplt := parent_lt hpos
      exact ih (h.toLoose.swap_parent hpos hlt (lt_of_not_ge hle)) (Nat.lt_trans hplt hlt)
        (by omega)
    · exact h.ordered fun hpos' => absurd hpos' hpos

/-- `siftUp` restores the order, or else finds that the entry need not move up. -/
theorem Loose.siftUp {fuel : Nat} (h : t.Loose rank hole) (hlt : hole < t.size)
    (hfuel : hole ≤ fuel) :
    (siftUp key rank fuel t hole).Ordered rank ∨
      siftUp key rank fuel t hole = t ∧ t.AlmostDown rank hole := by
  cases fuel with
  | zero => exact .inr ⟨rfl, h, fun hpos => by omega⟩
  | succ fuel =>
    simp only [Table.siftUp]
    split_ifs with hpos hle
    · exact .inr ⟨rfl, h, fun _ _ => hle⟩
    · have hplt := parent_lt hpos
      exact .inl ((h.swap_parent hpos hlt (lt_of_not_ge hle)).siftUp (Nat.lt_trans hplt hlt)
        (by omega))
    · exact .inr ⟨rfl, h, fun hpos' => absurd hpos' hpos⟩

/-- `siftDown` restores the order. -/
theorem AlmostDown.siftDown {fuel : Nat} (h : t.AlmostDown rank hole)
    (hfuel : t.size ≤ fuel + hole) : (siftDown key rank fuel t hole).Ordered rank := by
  induction fuel generalizing t hole with
  | zero =>
    refine h.ordered fun i hpos hi hparent => ?_
    have := parent_lt hpos
    omega
  | succ fuel ih =>
    simp only [Table.siftDown]
    split_ifs with hleaf hle
    · refine h.ordered fun i hpos hi hparent => ?_
      obtain rfl | rfl := (parent_eq_iff hpos).mp hparent <;> omega
    · exact h.ordered fun i hpos hi hparent => le_trans hle (child_le hpos hi hparent)
    · have hclt : t.child rank hole < t.size := child_lt_size (Nat.lt_of_not_le hleaf)
      have hhole : hole < t.child rank hole := lt_child
      exact ih (h.swap_child hclt (lt_of_not_ge hle)) (by change t.size ≤ _; omega)

/-! ## Adding and removing entries -/

/-- An entry is added to a table in order. -/
theorem Ordered.push (h : t.Ordered rank) {e : α} : (t.push key e).Loose rank t.size where
  order j hpos hj hne hparent := by
    have hlt : j < t.size := Nat.lt_of_le_of_ne (Nat.lt_succ_iff.mp hj) hne
    simpa only [rankAt, Table.push, place, Function.update_of_ne hne,
      Function.update_of_ne hparent] using h j hpos hlt
  around _ j hj hlt hparent := by
    have hle : j ≤ t.size := Nat.lt_succ_iff.mp hlt
    have := parent_lt hj
    omega

/-- The last entry is taken off a table in order. -/
theorem Ordered.pop (h : t.Ordered rank) (v : Nat) : (t.pop key v).Ordered rank := by
  intro j hpos hj
  exact h j hpos (Nat.lt_of_lt_of_le hj (Nat.sub_le _ _))

/-- An entry is taken off a table in order, and the last one moved to its place. -/
theorem Ordered.remove (h : t.Ordered rank) (v : Nat) : (t.remove key i v).Loose rank i where
  order j hpos hj hne hparent := by
    have hlt : j < t.size := Nat.lt_of_lt_of_le hj (Nat.sub_le _ _)
    simpa only [rankAt, Table.remove, place, Function.update_of_ne hne,
      Function.update_of_ne hparent] using h j hpos hlt
  around hpos j hj hlt hparent := by
    have hji : j ≠ i := by
      have := parent_lt hj
      omega
    have hle := (h.almostDown i).around hpos j hj (Nat.lt_of_lt_of_le hlt (Nat.sub_le _ _)) hparent
    simpa only [rankAt, Table.remove, place, Function.update_of_ne hji,
      Function.update_of_ne (Nat.ne_of_lt (parent_lt hpos))] using hle

/-! ## Both loops in a row -/

/-- Both loops in a row: `siftUp` from the index of a changed entry, then `siftDown` from where
    its entry is found. -/
theorem Loose.sift {e : α} (h : t.Loose rank i) (hok : t.Ok key) (hi : i < t.size)
    (he : t.entries i = e) :
    let up := Table.siftUp key rank i t i
    let j := up.index (key e)
    let down := Table.siftDown key rank (up.size - j) up j
    down.Ordered rank ∧ t.Same key down := by
  intro up j down
  have hup : t.Same key up := siftUp_spec i hok hi
  have hj : j < up.size := (hup.ok.entry_index ((hup.mem e).mpr ⟨i, hi, he⟩)).1
  have halmost : up.AlmostDown rank j := by
    have hspec : up.Ordered rank ∨ up = t ∧ t.AlmostDown rank i := h.siftUp hi (Nat.le_refl i)
    obtain hordered | ⟨heq, hdown⟩ := hspec
    · exact hordered.almostDown _
    · have hji : j = i := by
        change up.index (key e) = i
        rw [heq, ← he, hok i hi]
      rwa [heq, hji]
  exact ⟨halmost.siftDown (by omega), hup.trans (siftDown_spec _ hup.ok hj)⟩

end Sift
end Table
end KeyTable
