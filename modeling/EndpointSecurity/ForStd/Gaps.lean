import Mathlib.Order.Defs.LinearOrder
import Mathlib.Data.List.Basic

/-!
# The numbers missing from an increasing stream

A stream of increasing numbers has as many gaps as there are numbers between its first and its
last one that it does not contain. Counting them one number at a time needs only the number
that came before.
-/

namespace Gaps

/-- The number of missing numbers: last − first + 1 − count. -/
def missing : List Nat → Nat
  | [] => 0
  | first :: rest =>
    (first :: rest).getLast (by simp) - first + 1 - (first :: rest).length

/-- The numbers missing directly before `n`, after the stream `ns`. -/
def before (ns : List Nat) (n : Nat) : Nat :=
  match ns.getLast? with
  | none => 0
  | some last => n - last - 1

variable {first n : Nat} {rest ns : List Nat}

/-- An increasing stream spans at least as many numbers as it has. -/
theorem length_le (h : (first :: rest).Pairwise (· < ·)) :
    (first :: rest).length ≤ (first :: rest).getLast (by simp) - first + 1 := by
  induction rest generalizing first with
  | nil => simp
  | cons second rest ih =>
    obtain ⟨hfirst, hrest⟩ := List.pairwise_cons.mp h
    have hlt : first < second := hfirst second List.mem_cons_self
    have hle := ih hrest
    have hlast : second ≤ (second :: rest).getLast (by simp) := by
      rcases List.mem_cons.mp (List.getLast_mem (List.cons_ne_nil second rest)) with heq | hmem
      · exact Nat.le_of_eq heq.symm
      · exact Nat.le_of_lt ((List.pairwise_cons.mp hrest).1 _ hmem)
    rw [List.getLast_cons (List.cons_ne_nil second rest), List.length_cons]
    omega

/-- One more number adds the numbers that are missing directly before it. -/
theorem missing_concat (h : (ns ++ [n]).Pairwise (· < ·)) :
    missing (ns ++ [n]) = missing ns + before ns n := by
  cases ns with
  | nil => simp [missing, before]
  | cons first rest =>
    have hlen := length_le (List.Pairwise.sublist (List.sublist_append_left ..) h)
    have hlt : (first :: rest).getLast (by simp) < n :=
      (List.pairwise_append.mp h).2.2 _ (List.getLast_mem _) n List.mem_cons_self
    have hlast : (first :: (rest ++ [n])).getLast (by simp) = n := by
      rw [List.getLast_cons (by simp), List.getLast_concat]
    simp only [List.cons_append, missing, before, List.getLast?_eq_some_getLast
      (List.cons_ne_nil first rest), hlast]
    simp only [List.length_cons, List.length_append, List.length_nil] at hlen ⊢
    have hfirst : first ≤ (first :: rest).getLast (by simp) := by
      rcases List.mem_cons.mp (List.getLast_mem (List.cons_ne_nil first rest)) with heq | hmem
      · exact Nat.le_of_eq heq.symm
      · exact Nat.le_of_lt ((List.pairwise_cons.mp
          (List.Pairwise.sublist (List.sublist_append_left ..) h)).1 _ hmem)
    omega

end Gaps
