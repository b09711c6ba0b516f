import Mathlib.Data.List.Basic
import Mathlib.Data.List.Perm.Basic

/-!
# Rose trees and the loops that visit them

A program visits the nodes of a tree with a list of pending ones. If the latest of these comes
next, the list is a stack, and the nodes come in preorder; if the earliest does, the list is a
queue, and the nodes come level by level. In both cases every node comes once.

## Key results

- `stackWalk_eq_preorders`: a stack visits the nodes in preorder
- `queueWalk_perm`: a queue visits the same nodes
- `queueFind_eq_some_iff`, `queueFind_eq_none_iff`: what a search with a queue finds
-/

/-- A tree whose nodes have any number of children. -/
inductive RoseTree (α : Type _) where
  | node (label : α) (inner : List (RoseTree α))

namespace RoseTree

variable {α β : Type _}

def label : RoseTree α → α
  | node label _ => label

/-- The children of a node -/
def inner : RoseTree α → List (RoseTree α)
  | node _ inner => inner

mutual

/-- The number of nodes of a tree -/
def size : RoseTree α → Nat
  | node _ inner => sizes inner + 1

/-- The number of nodes of several trees -/
def sizes : List (RoseTree α) → Nat
  | [] => 0
  | t :: ts => t.size + sizes ts

end

mutual

/-- The nodes of a tree, each before its children -/
def preorder : RoseTree α → List (RoseTree α)
  | node label inner => node label inner :: preorders inner

/-- The nodes of several trees -/
def preorders : List (RoseTree α) → List (RoseTree α)
  | [] => []
  | t :: ts => t.preorder ++ preorders ts

end

variable {t : RoseTree α} {ts us : List (RoseTree α)}

theorem size_eq (t : RoseTree α) : t.size = sizes t.inner + 1 := by
  cases t
  rw [size, inner]

theorem sizes_append : sizes (ts ++ us) = sizes ts + sizes us := by
  induction ts with
  | nil => simp [sizes]
  | cons t ts ih =>
    rw [List.cons_append, sizes, sizes, ih]
    omega

theorem preorder_eq (t : RoseTree α) : t.preorder = t :: preorders t.inner := by
  cases t
  rw [preorder, inner]

theorem preorders_append : preorders (ts ++ us) = preorders ts ++ preorders us := by
  induction ts with
  | nil => rfl
  | cons t ts ih => rw [List.cons_append, preorders, preorders, ih, List.append_assoc]

theorem mem_preorders_of_mem (ht : t ∈ ts) : t ∈ preorders ts := by
  induction ts with
  | nil => cases ht
  | cons u ts ih =>
    rw [preorders, preorder_eq]
    rcases List.mem_cons.mp ht with rfl | ht
    · exact List.mem_append_left _ List.mem_cons_self
    · exact List.mem_append_right _ (ih ht)

/-- What is below one of several trees is one of their nodes. -/
theorem mem_preorders_inner {u : RoseTree α} (ht : t ∈ ts) (hu : u ∈ preorders t.inner) :
    u ∈ preorders ts := by
  induction ts with
  | nil => cases ht
  | cons v ts ih =>
    rw [preorders, preorder_eq]
    rcases List.mem_cons.mp ht with rfl | ht
    · exact List.mem_append_left _ (List.mem_cons_of_mem _ hu)
    · exact List.mem_append_right _ (ih ht)

/-! ## With a stack -/

/-- The nodes in the order in which a stack gives them, whose top is the head of the list: a
    node that is popped has its children pushed, the first of them last. -/
def stackWalk : List (RoseTree α) → List (RoseTree α)
  | [] => []
  | t :: pending => t :: stackWalk (t.inner ++ pending)
termination_by pending => sizes pending
decreasing_by
  rw [sizes_append, sizes, size_eq]
  omega

/-- A stack visits the nodes in preorder. -/
theorem stackWalk_eq_preorders (ts : List (RoseTree α)) : stackWalk ts = preorders ts := by
  induction ts using stackWalk.induct with
  | case1 => rw [stackWalk, preorders]
  | case2 t pending ih =>
    rw [stackWalk, ih, preorders, preorder_eq, preorders_append, List.cons_append]

/-! ## With a queue -/

/-- The nodes in the order in which a queue gives them. -/
def queueWalk : List (RoseTree α) → List (RoseTree α)
  | [] => []
  | t :: pending => t :: queueWalk (pending ++ t.inner)
termination_by pending => sizes pending
decreasing_by
  rw [sizes_append, sizes, size_eq]
  omega

/-- A queue visits the nodes that a stack visits. -/
theorem queueWalk_perm (ts : List (RoseTree α)) : (queueWalk ts).Perm (preorders ts) := by
  induction ts using queueWalk.induct with
  | case1 => rw [queueWalk, preorders]
  | case2 t pending ih =>
    rw [queueWalk, preorders, preorder_eq, List.cons_append]
    refine (ih.trans ?_).cons t
    rw [preorders_append]
    exact List.perm_append_comm

/-- The first thing that is found while the nodes come out of a queue. -/
def queueFind (f : RoseTree α → Option β) : List (RoseTree α) → Option β
  | [] => none
  | t :: pending =>
    match f t with
    | some b => some b
    | none => queueFind f (pending ++ t.inner)
termination_by pending => sizes pending
decreasing_by
  rw [sizes_append, sizes, size_eq]
  omega

theorem queueFind_eq (f : RoseTree α → Option β) (ts : List (RoseTree α)) :
    queueFind f ts = (queueWalk ts).findSome? f := by
  induction ts using queueWalk.induct with
  | case1 => rw [queueFind, queueWalk, List.findSome?_nil]
  | case2 t pending ih =>
    rw [queueFind, queueWalk, List.findSome?_cons]
    cases f t with
    | some b => rfl
    | none => exact ih

variable {f : RoseTree α → Option β} {b : β}

theorem queueFind_eq_some (h : queueFind f ts = some b) : ∃ t ∈ preorders ts, f t = some b := by
  rw [queueFind_eq] at h
  obtain ⟨t, ht, hf⟩ := List.exists_of_findSome?_eq_some h
  exact ⟨t, (queueWalk_perm ts).mem_iff.mp ht, hf⟩

/-- The search ends at the first node, level by level, that has something. -/
theorem queueFind_eq_some_iff : queueFind f ts = some b ↔
    ∃ before t after, queueWalk ts = before ++ t :: after ∧ (∀ u ∈ before, f u = none) ∧
      f t = some b := by
  rw [queueFind_eq, List.findSome?_eq_some_iff]
  constructor
  · rintro ⟨before, t, after, hwalk, hf, hbefore⟩
    exact ⟨before, t, after, hwalk, hbefore, hf⟩
  · rintro ⟨before, t, after, hwalk, hbefore, hf⟩
    exact ⟨before, t, after, hwalk, hf, hbefore⟩

theorem queueFind_eq_none_iff : queueFind f ts = none ↔ ∀ t ∈ preorders ts, f t = none := by
  rw [queueFind_eq, List.findSome?_eq_none_iff]
  exact forall_congr' fun t => imp_congr_left (queueWalk_perm ts).mem_iff

end RoseTree
