import Mathlib.Data.Nat.Init
import EndpointSecurity.ForStd.ExceptList
import EndpointSecurity.Ruby.ObjectModel

/-!
# What copying comes to

When `deep_copy` and `to_h` return, and what they return: the value of each field's accessor is
copied. More stack than is needed changes nothing.

## Key results

- `toH_eq_ok`: the entries of `to_h`
- `deepCopy_mono`, `toH_mono`: more stack
-/

namespace EndpointSecurity.ObjectModel

/-! ## One call of each method -/

/-- The entries of a hash with their values copied. -/
def CopiesEntries (stack : Nat) (entries copies : List (String × Value)) : Prop :=
  List.Forall₂ (fun entry copy => copy.1 = entry.1 ∧ deepCopy stack entry.2 = .ok copy.2)
    entries copies

theorem mapM_entries {stack : Nat} {entries copies : List (String × Value)} :
    (entries.mapM fun entry => (deepCopy stack entry.2).map (entry.1, ·)) = .ok copies ↔
      CopiesEntries stack entries copies := by
  rw [Except.mapM_eq_ok, CopiesEntries]
  refine iff_of_eq (congrArg (List.Forall₂ · entries copies) ?_)
  funext entry copy
  obtain ⟨name, value⟩ := copy
  simp only [Except.map_eq_ok, Prod.mk.injEq, eq_iff_iff]
  constructor
  · rintro ⟨value, hv, rfl, rfl⟩
    exact ⟨rfl, hv⟩
  · rintro ⟨rfl, hv⟩
    exact ⟨value, hv, rfl, rfl⟩

theorem deepCopy_items {stack : Nat} {items : List Value} {r : Value} :
    (items.mapM (deepCopy stack)).map Value.array = .ok r ↔
      ∃ copies, List.Forall₂ (fun item copy => deepCopy stack item = .ok copy) items copies ∧
        r = .array copies := by
  simp only [Except.map_eq_ok, Except.mapM_eq_ok]

theorem deepCopy_entries {stack : Nat} {entries : List (String × Value)} {r : Value} :
    (entries.mapM fun entry => (deepCopy stack entry.2).map (entry.1, ·)).map Value.hash = .ok r ↔
      ∃ copies, CopiesEntries stack entries copies ∧ r = .hash copies := by
  simp only [Except.map_eq_ok, mapM_entries]

/-- The copies of what the accessors of the fields give. -/
def CopiesFields (stack : Nat) (w : View Value) (copies : List (String × Value)) : Prop :=
  List.Forall₂ (fun name copy => copy.1 = name ∧
    ∃ value, publicSend stack w name = .ok value ∧ deepCopy stack value = .ok copy.2)
    w.fieldNames copies

theorem mapM_fields {stack : Nat} {w : View Value} {copies : List (String × Value)} :
    (w.fieldNames.mapM fun name =>
      ((publicSend stack w name).bind (deepCopy stack)).map (name, ·)) = .ok copies ↔
      CopiesFields stack w copies := by
  rw [Except.mapM_eq_ok, CopiesFields]
  refine iff_of_eq (congrArg (List.Forall₂ · w.fieldNames copies) ?_)
  funext name copy
  obtain ⟨key, value⟩ := copy
  simp only [Except.map_eq_ok, Except.bind_eq_ok, Prod.mk.injEq, eq_iff_iff]
  constructor
  · rintro ⟨value, hv, rfl, rfl⟩
    exact ⟨rfl, hv⟩
  · rintro ⟨rfl, hv⟩
    exact ⟨value, hv, rfl, rfl⟩

/-- The entries that `Event#to_h` adds for an exec event. -/
def addExec (w : View Value) (fds : List Value) (entries : List (String × Value)) :
    List (String × Value) :=
  setEntry "fds" (.array fds)
    (setEntry "env" (.array (w.execArray .env))
      (setEntry "args" (.array (w.execArray .args)) entries))

theorem toH_eq_ok {stack : Nat} {w : View Value} {r : Value} :
    toH (stack + 1) w = .ok r ↔ ∃ copies, CopiesFields stack w copies ∧
      if w.viewClass = .event ∧ w.isExec then
        ∃ fds, List.Forall₂ (fun fd copy => valueToH stack fd = .ok copy) (w.execArray .fds) fds ∧
          r = .hash (addExec w fds copies)
      else r = .hash copies := by
  have hdef : toH (stack + 1) w = (w.fieldNames.mapM fun name =>
      ((publicSend stack w name).bind (deepCopy stack)).map (name, ·)).bind fun entries =>
        if w.viewClass = .event ∧ w.isExec then
          ((w.execArray .fds).mapM (valueToH stack)).bind fun fds =>
            .ok (.hash (addExec w fds entries))
        else .ok (.hash entries) := by
    rw [toH]
    rfl
  rw [hdef, Except.bind_eq_ok]
  refine exists_congr fun copies => and_congr mapM_fields ?_
  split
  · rw [Except.bind_eq_ok]
    refine exists_congr fun fds => and_congr Except.mapM_eq_ok ?_
    rw [Except.ok.injEq, eq_comm]
  · rw [Except.ok.injEq, eq_comm]

theorem publicSend_toH {stack : Nat} {w : View Value} {name : String}
    (h : View.methodFor w.viewClass name = .toH) :
    publicSend (stack + 1) w name = toH stack w := by
  rw [publicSend, h]

theorem publicSend_call {stack : Nat} {w : View Value} {name : String}
    (h : View.methodFor w.viewClass name ≠ .toH) :
    publicSend (stack + 1) w name = w.call name (View.methodFor w.viewClass name) := by
  rw [publicSend]
  split
  next ht => exact absurd ht h
  next => rfl

/-! ## More stack -/

/-- What returns returns the same with one more level of the stack. -/
theorem mono_step (stack : Nat) :
    (∀ v r, deepCopy stack v = .ok r → deepCopy (stack + 1) v = .ok r) ∧
    (∀ w r, toH stack w = .ok r → toH (stack + 1) w = .ok r) ∧
    (∀ w name r, publicSend stack w name = .ok r → publicSend (stack + 1) w name = .ok r) ∧
    ∀ v r, valueToH stack v = .ok r → valueToH (stack + 1) v = .ok r := by
  induction stack with
  | zero =>
    refine ⟨?_, ?_, ?_, ?_⟩ <;> intros <;> simp_all [deepCopy, toH, publicSend, valueToH]
  | succ stack ih =>
    obtain ⟨hcopy, htoH, hsend, hvalue⟩ := ih
    have hentries : ∀ entries copies, CopiesEntries stack entries copies →
        CopiesEntries (stack + 1) entries copies :=
      fun _ _ h => h.imp fun _ _ ⟨hname, hc⟩ => ⟨hname, hcopy _ _ hc⟩
    refine ⟨?_, ?_, ?_, ?_⟩
    · intro v r h
      cases v with
      | view w => exact htoH w r h
      | array items | fieldArray items =>
        obtain ⟨copies, hc, rfl⟩ := deepCopy_items.mp h
        exact deepCopy_items.mpr ⟨copies, hc.imp fun _ _ => hcopy _ _, rfl⟩
      | hash entries | data _ entries =>
        obtain ⟨copies, hc, rfl⟩ := deepCopy_entries.mp h
        exact deepCopy_entries.mpr ⟨copies, hentries _ _ hc, rfl⟩
      | _ => exact h
    · intro w r h
      obtain ⟨copies, hc, hr⟩ := toH_eq_ok.mp h
      refine toH_eq_ok.mpr ⟨copies, hc.imp ?_, ?_⟩
      · rintro name copy ⟨hname, value, hv, hcv⟩
        exact ⟨hname, value, hsend _ _ _ hv, hcopy _ _ hcv⟩
      · by_cases hexec : w.viewClass = .event ∧ w.isExec
        · rw [if_pos hexec] at hr ⊢
          obtain ⟨fds, hfds, hr⟩ := hr
          exact ⟨fds, hfds.imp fun _ _ => hvalue _ _, hr⟩
        · rw [if_neg hexec] at hr ⊢
          exact hr
    · intro w name r h
      by_cases hm : View.methodFor w.viewClass name = .toH
      · rw [publicSend_toH hm] at h ⊢
        exact htoH w r h
      · rw [publicSend_call hm] at h ⊢
        exact h
    · intro v r h
      cases v with
      | view w => exact htoH w r h
      | _ => exact h

theorem deepCopy_mono {m n : Nat} (hmn : m ≤ n) {v r : Value} (h : deepCopy m v = .ok r) :
    deepCopy n v = .ok r :=
  Nat.le_induction h (fun n _ hn => (mono_step n).1 v r hn) n hmn

theorem toH_mono {m n : Nat} (hmn : m ≤ n) {w : View Value} {r : Value} (h : toH m w = .ok r) :
    toH n w = .ok r :=
  Nat.le_induction h (fun n _ hn => (mono_step n).2.1 w r hn) n hmn

theorem publicSend_mono {m n : Nat} (hmn : m ≤ n) {w : View Value} {name : String} {r : Value}
    (h : publicSend m w name = .ok r) : publicSend n w name = .ok r :=
  Nat.le_induction h (fun n _ hn => (mono_step n).2.2.1 w name r hn) n hmn

theorem valueToH_mono {m n : Nat} (hmn : m ≤ n) {v r : Value} (h : valueToH m v = .ok r) :
    valueToH n v = .ok r :=
  Nat.le_induction h (fun n _ hn => (mono_step n).2.2.2 v r hn) n hmn

/-- Stacks that are enough for each element of a list have one that is enough for all. -/
theorem exists_stack {α : Type} {P : Nat → α → Prop}
    (hmono : ∀ m n x, m ≤ n → P m x → P n x) (xs : List α) (h : ∀ x ∈ xs, ∃ n, P n x) :
    ∃ n, ∀ x ∈ xs, P n x := by
  induction xs with
  | nil => exact ⟨0, by simp⟩
  | cons x xs ih =>
    obtain ⟨m, hm⟩ := h x (.head _)
    obtain ⟨n, hn⟩ := ih fun y hy => h y (.tail _ hy)
    refine ⟨max m n, fun y hy => ?_⟩
    rcases List.mem_cons.mp hy with rfl | hy
    · exact hmono _ _ _ (Nat.le_max_left ..) hm
    · exact hmono _ _ _ (Nat.le_max_right ..) (hn y hy)

/-! ## When `to_h` returns -/

/-- `to_h` returns when the accessors return, what they give can be copied, and the descriptors
    of an exec event have a `to_h`. -/
theorem exists_toH {w : View Value}
    (hfields : ∀ name ∈ w.fieldNames, ∃ value, (∃ stack, publicSend stack w name = .ok value) ∧
      ∃ stack copy, deepCopy stack value = .ok copy)
    (hfds : ∀ fd ∈ w.execArray .fds, ∃ stack copy, valueToH stack fd = .ok copy) :
    ∃ stack r, toH stack w = .ok r := by
  obtain ⟨m, hm⟩ := exists_stack (P := fun n name => ∃ value copy,
      publicSend n w name = .ok value ∧ deepCopy n value = .ok copy)
    (fun _ _ _ hmn ⟨value, copy, hv, hc⟩ =>
      ⟨value, copy, publicSend_mono hmn hv, deepCopy_mono hmn hc⟩) w.fieldNames
    fun name hname => by
      obtain ⟨value, ⟨a, ha⟩, b, copy, hb⟩ := hfields name hname
      exact ⟨max a b, value, copy, publicSend_mono (Nat.le_max_left ..) ha,
        deepCopy_mono (Nat.le_max_right ..) hb⟩
  obtain ⟨n, hn⟩ := exists_stack (P := fun n fd => ∃ copy, valueToH n fd = .ok copy)
    (fun _ _ _ hmn ⟨copy, hc⟩ => ⟨copy, valueToH_mono hmn hc⟩) _ hfds
  obtain ⟨copies, hcopies⟩ := Except.exists_mapM_eq_ok
    (f := fun name => ((publicSend (max m n) w name).bind (deepCopy (max m n))).map (name, ·))
    fun name hname => by
      obtain ⟨value, copy, hv, hc⟩ := hm name hname
      have hv := publicSend_mono (Nat.le_max_left m n) hv
      have hc := deepCopy_mono (Nat.le_max_left m n) hc
      exact ⟨(name, copy), by simp [hv, hc, Except.bind, Except.map]⟩
  obtain ⟨fds, hfds⟩ := Except.exists_mapM_eq_ok (f := valueToH (max m n)) fun fd hfd => by
    obtain ⟨copy, hc⟩ := hn fd hfd
    exact ⟨copy, valueToH_mono (Nat.le_max_right m n) hc⟩
  by_cases hexec : w.viewClass = .event ∧ w.isExec
  · exact ⟨max m n + 1, .hash (addExec w fds copies), toH_eq_ok.mpr ⟨copies, mapM_fields.mp hcopies,
      by rw [if_pos hexec]; exact ⟨fds, Except.mapM_eq_ok.mp hfds, rfl⟩⟩⟩
  · exact ⟨max m n + 1, .hash copies, toH_eq_ok.mpr ⟨copies, mapM_fields.mp hcopies,
      by rw [if_neg hexec]⟩⟩

/-! ## Entries -/

theorem lookup_setEntry (key name : String) (value : Value) (entries : List (String × Value)) :
    (setEntry key value entries).lookup name =
      if name = key then some value else entries.lookup name := by
  induction entries with
  | nil => by_cases h : name = key <;> simp [setEntry, h]
  | cons entry entries ih =>
    obtain ⟨first, v⟩ := entry
    unfold setEntry
    by_cases hfirst : first = key
    · subst hfirst
      by_cases h : name = first <;> simp [List.lookup_cons, h, beq_false_of_ne]
    · rw [if_neg hfirst, List.lookup_cons, List.lookup_cons, ih]
      by_cases h : name = first
      · simp [h, hfirst]
      · simp [beq_false_of_ne h]

/-- The entry of a field is a copy of what its accessor gives. -/
theorem CopiesFields.lookup {stack : Nat} {w : View Value} {copies : List (String × Value)}
    (h : CopiesFields stack w copies) {name : String} (hname : name ∈ w.fieldNames) :
    ∃ value copy, copies.lookup name = some copy ∧ publicSend stack w name = .ok value ∧
      deepCopy stack value = .ok copy := by
  unfold CopiesFields at h
  generalize w.fieldNames = names at h hname
  induction h with
  | nil => cases hname
  | cons hfirst hrest ih =>
    rename_i first copy names copies
    obtain ⟨hkey, value, hv, hc⟩ := hfirst
    obtain ⟨key, c⟩ := copy
    subst hkey
    rw [List.lookup_cons]
    by_cases hn : name = key
    · subst hn
      exact ⟨value, c, by simp, hv, hc⟩
    · rw [beq_false_of_ne hn]
      exact ih (List.mem_of_ne_of_mem hn hname)

end EndpointSecurity.ObjectModel
