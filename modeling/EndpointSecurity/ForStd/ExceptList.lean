import Mathlib.Data.List.Forall2

/-!
# Computations that may fail, over lists

When `bind`, `map` and `List.mapM` succeed in `Except`, and what they give then.
-/

namespace Except

variable {ε α β : Type}

theorem bind_eq_ok {x : Except ε α} {f : α → Except ε β} {b : β} :
    x.bind f = .ok b ↔ ∃ a, x = .ok a ∧ f a = .ok b := by
  cases x with
  | error e => simp [Except.bind]
  | ok a => simp [Except.bind]

theorem bind_of_ok {x : Except ε α} {a : α} (h : x = .ok a) (f : α → Except ε β) :
    (x >>= f) = f a := by
  rw [h]
  rfl

theorem map_eq_ok {x : Except ε α} {f : α → β} {b : β} :
    x.map f = .ok b ↔ ∃ a, x = .ok a ∧ b = f a := by
  cases x with
  | error e => simp [Except.map]
  | ok a => simp [Except.map, eq_comm]

/-- A traversal succeeds with the results of its steps. -/
theorem mapM_eq_ok {f : α → Except ε β} {xs : List α} {ys : List β} :
    xs.mapM f = .ok ys ↔ List.Forall₂ (fun x y => f x = .ok y) xs ys := by
  induction xs generalizing ys with
  | nil => simp [pure, Except.pure, eq_comm]
  | cons x xs ih =>
    rw [List.mapM_cons, List.forall₂_cons_left_iff]
    change (f x).bind (fun y => (xs.mapM f).bind fun ys => .ok (y :: ys)) = .ok ys ↔ _
    simp only [bind_eq_ok, ih, Except.ok.injEq]
    constructor
    · rintro ⟨y, hy, rest, hrest, rfl⟩
      exact ⟨y, rest, hy, hrest, rfl⟩
    · rintro ⟨y, rest, hy, hrest, rfl⟩
      exact ⟨y, hy, rest, hrest, rfl⟩

/-- A traversal of steps that all succeed succeeds. -/
theorem exists_mapM_eq_ok {f : α → Except ε β} {xs : List α} (h : ∀ x ∈ xs, ∃ y, f x = .ok y) :
    ∃ ys, xs.mapM f = .ok ys := by
  induction xs with
  | nil => exact ⟨[], rfl⟩
  | cons x xs ih =>
    obtain ⟨y, hy⟩ := h x (.head _)
    obtain ⟨ys, hys⟩ := ih fun z hz => h z (.tail _ hz)
    exact ⟨y :: ys, mapM_eq_ok.mpr (.cons hy (mapM_eq_ok.mp hys))⟩

theorem mapM_of_forall {f : α → Except ε β} {g : α → β} {xs : List α}
    (h : ∀ x ∈ xs, f x = .ok (g x)) : xs.mapM f = .ok (xs.map g) := by
  rw [mapM_eq_ok, List.forall₂_map_right_iff, List.forall₂_same]
  exact h

/-- The results that a traversal keeps are those of the elements. -/
theorem filterMap_of_mapM {f : α → Except ε (Option β)} {xs : List α} {ys : List (Option β)}
    (h : xs.mapM f = .ok ys) :
    ys.filterMap id = xs.filterMap fun x => (f x).toOption.join := by
  replace h := mapM_eq_ok.mp h
  induction h with
  | nil => rfl
  | cons hx _ ih =>
    rw [List.filterMap_cons, List.filterMap_cons, ih, hx]
    rfl

theorem exists_ok_of_mapM {f : α → Except ε β} {xs : List α} {ys : List β} {x : α}
    (h : xs.mapM f = .ok ys) (hx : x ∈ xs) : ∃ y ∈ ys, f x = .ok y := by
  replace h := mapM_eq_ok.mp h
  induction h with
  | nil => cases hx
  | cons hxy _ ih =>
    rcases List.mem_cons.mp hx with rfl | hx
    · exact ⟨_, List.mem_cons_self, hxy⟩
    · obtain ⟨y, hy, hok⟩ := ih hx
      exact ⟨y, List.mem_cons_of_mem _ hy, hok⟩

theorem exists_mem_of_mapM {f : α → Except ε β} {xs : List α} {ys : List β} {y : β}
    (h : xs.mapM f = .ok ys) (hy : y ∈ ys) : ∃ x ∈ xs, f x = .ok y := by
  replace h := mapM_eq_ok.mp h
  induction h with
  | nil => cases hy
  | cons hxy _ ih =>
    rcases List.mem_cons.mp hy with rfl | hy
    · exact ⟨_, List.mem_cons_self, hxy⟩
    · obtain ⟨x, hx, hok⟩ := ih hy
      exact ⟨x, List.mem_cons_of_mem _ hx, hok⟩

/-- Results that keep the keys keep their order. -/
theorem map_of_mapM {κ : Type} {f : α → Except ε β} {k : α → κ} {k' : β → κ}
    (hk : ∀ x y, f x = .ok y → k' y = k x) {xs : List α} {ys : List β}
    (h : xs.mapM f = .ok ys) : ys.map k' = xs.map k := by
  replace h := mapM_eq_ok.mp h
  induction h with
  | nil => rfl
  | cons hxy _ ih => rw [List.map_cons, List.map_cons, ih, hk _ _ hxy]

/-- A loop of checks succeeds when every check does. -/
theorem forM_eq_ok {f : α → Except ε Unit} {xs : List α} :
    xs.forM f = .ok () ↔ ∀ x ∈ xs, f x = .ok () := by
  induction xs with
  | nil => simp [pure, Except.pure]
  | cons x xs ih =>
    have hcons : (x :: xs).forM f = (f x).bind fun _ => xs.forM f := rfl
    rw [hcons, bind_eq_ok, ih, List.forall_mem_cons]
    exact ⟨fun ⟨_, hx, hxs⟩ => ⟨hx, hxs⟩, fun ⟨hx, hxs⟩ => ⟨(), hx, hxs⟩⟩

end Except
