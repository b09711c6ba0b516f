import Mathlib.Order.Defs.Unbundled

/-!
# Computations with a state that an exception leaves as it is

`Raising σ ε α` is a computation over states of type `σ` that returns a value or raises an
exception. What it has done to the state before it raises stays done, so that a `rescue` or
`ensure` clause starts from there.

A computation follows a relation when every run of it, whether it returns or raises, leads from
its first state to a related one. For a reflexive and transitive relation all ways to put
computations together keep this.
-/

/-- A computation over states that may raise. -/
def Raising (σ ε α : Type) : Type := σ → Except ε α × σ

namespace Raising

variable {σ ε α β : Type}

instance : Monad (Raising σ ε) where
  pure a := fun s => (.ok a, s)
  bind x f := fun s =>
    match x s with
    | (.ok a, s) => f a s
    | (.error e, s) => (.error e, s)

def raise (e : ε) : Raising σ ε α := fun s => (.error e, s)

def get : Raising σ ε σ := fun s => (.ok s, s)

def modify (f : σ → σ) : Raising σ ε Unit := fun s => (.ok (), f s)

/-- A result that is there already. -/
def ofExcept (r : Except ε α) : Raising σ ε α := fun s => (r, s)

/-- A `rescue` clause. -/
def rescue (x : Raising σ ε α) (handler : ε → Raising σ ε α) : Raising σ ε α := fun s =>
  match x s with
  | (.ok a, s) => (.ok a, s)
  | (.error e, s) => handler e s

/-- An `ensure` clause that does not raise. -/
def ensure (x : Raising σ ε α) (clause : σ → σ) : Raising σ ε α := fun s =>
  ((x s).1, clause (x s).2)

/-- `Integer#times` -/
def times : Nat → Raising σ ε Unit → Raising σ ε Unit
  | 0, _ => pure ()
  | n + 1, x => x >>= fun _ => times n x

/-! ## Runs -/

section Runs

variable {x : Raising σ ε α} {f : α → Raising σ ε β} {s s' : σ}

@[simp] theorem run_pure (a : α) (s : σ) : (pure a : Raising σ ε α) s = (.ok a, s) := rfl

@[simp] theorem run_raise (e : ε) (s : σ) : (raise e : Raising σ ε α) s = (.error e, s) := rfl

@[simp] theorem run_get (s : σ) : (get : Raising σ ε σ) s = (.ok s, s) := rfl

@[simp] theorem run_modify (g : σ → σ) (s : σ) :
    (modify g : Raising σ ε Unit) s = (.ok (), g s) := rfl

theorem run_bind (x : Raising σ ε α) (f : α → Raising σ ε β) (s : σ) :
    (x >>= f) s =
      match x s with
      | (.ok a, s) => f a s
      | (.error e, s) => (.error e, s) := rfl

theorem bind_of_ok {a : α} (h : x s = (.ok a, s')) : (x >>= f) s = f a s' := by
  rw [run_bind, h]

theorem bind_of_error {e : ε} (h : x s = (.error e, s')) : (x >>= f) s = (.error e, s') := by
  rw [run_bind, h]

@[simp] theorem modify_bind (g : σ → σ) (f : Unit → Raising σ ε β) (s : σ) :
    (modify g >>= f) s = f () (g s) := rfl

/-- What is done with the result leaves the state alone. -/
theorem run_bind_pure (x : Raising σ ε α) (g : α → β) (s : σ) :
    (x >>= fun a => pure (g a)) s = ((x s).1.map g, (x s).2) := by
  rw [run_bind]
  cases x s with
  | mk r t =>
    cases r with
    | ok a => rfl
    | error e => rfl

theorem bind_eq_ok {b : β} :
    (x >>= f) s = (.ok b, s') ↔ ∃ a t, x s = (.ok a, t) ∧ f a t = (.ok b, s') := by
  rw [run_bind]
  cases x s with
  | mk r t =>
    cases r with
    | error e => simp
    | ok a =>
      constructor
      · intro h
        exact ⟨a, t, rfl, h⟩
      · rintro ⟨_, _, hpair, h⟩
        obtain ⟨ha, rfl⟩ := Prod.mk.inj hpair
        obtain rfl := Except.ok.inj ha
        exact h

theorem ofExcept_eq_ok {r : Except ε α} {a : α} :
    (ofExcept r : Raising σ ε α) s = (.ok a, s') ↔ r = .ok a ∧ s = s' :=
  Prod.mk.injEq .. ▸ Iff.rfl

theorem rescue_of_ok {handler : ε → Raising σ ε α} {a : α} (h : x s = (.ok a, s')) :
    x.rescue handler s = (.ok a, s') := by
  rw [rescue, h]

theorem rescue_of_error {handler : ε → Raising σ ε α} {e : ε} (h : x s = (.error e, s')) :
    x.rescue handler s = handler e s' := by
  rw [rescue, h]

end Runs

/-! ## What every run does -/

section Follows

/-- Every run leads to a related state. -/
def Follows (R : σ → σ → Prop) (x : Raising σ ε α) : Prop := ∀ s, R s (x s).2

variable {R R' : σ → σ → Prop} {x : Raising σ ε α}

theorem Follows.mono (h : ∀ s s', R s s' → R' s s') (hx : x.Follows R) : x.Follows R' :=
  fun s => h _ _ (hx s)

theorem Follows.modify {f : σ → σ} (h : ∀ s, R s (f s)) :
    Follows R (Raising.modify f : Raising σ ε Unit) := h

theorem Follows.pure [Std.Refl R] (a : α) : Follows R (Pure.pure a : Raising σ ε α) :=
  fun s => refl_of R s

theorem Follows.raise [Std.Refl R] (e : ε) : Follows R (Raising.raise e : Raising σ ε α) :=
  fun s => refl_of R s

theorem Follows.get [Std.Refl R] : Follows R (Raising.get : Raising σ ε σ) :=
  fun s => refl_of R s

theorem Follows.ofExcept [Std.Refl R] (r : Except ε α) :
    Follows R (Raising.ofExcept r : Raising σ ε α) :=
  fun s => refl_of R s

/-- The relation of the states between which a property is kept. -/
def Keeps (P : σ → Prop) (s s' : σ) : Prop := P s → P s'

instance {P : σ → Prop} : Std.Refl (Keeps P) := ⟨fun _ => id⟩

instance {P : σ → Prop} : IsTrans σ (Keeps P) := ⟨fun _ _ _ h h' => h' ∘ h⟩

variable [IsTrans σ R]

theorem Follows.bind (hx : x.Follows R) {f : α → Raising σ ε β} (hf : ∀ a, (f a).Follows R) :
    (x >>= f).Follows R := by
  intro s
  have hxs := hx s
  rw [run_bind]
  cases h : x s with
  | mk r s' =>
    rw [h] at hxs
    cases r with
    | ok a => exact trans_of R hxs (hf a s')
    | error e => exact hxs

omit [IsTrans σ R] in
/-- What a `rescue` clause does to the state that the exception leaves. -/
theorem follows_rescue_from [Std.Refl R] {handler : ε → Raising σ ε α}
    (hh : ∀ e, (handler e).Follows R) (s : σ) : R (x s).2 (x.rescue handler s).2 := by
  unfold Raising.rescue
  cases h : x s with
  | mk r s' =>
    cases r with
    | ok a => exact refl_of R s'
    | error e => exact hh e s'

theorem Follows.times [Std.Refl R] {x : Raising σ ε Unit} (hx : x.Follows R) (n : Nat) :
    (times n x).Follows R := by
  induction n with
  | zero => exact .pure ()
  | succ n ih => exact hx.bind fun _ => ih

end Follows

end Raising
