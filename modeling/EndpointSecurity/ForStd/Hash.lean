import Mathlib.Data.List.Nodup

/-!
# Hashes in the order of insertion

Association lists whose keys are distinct, the key that was stored first in front.

## Key results

- `lookup_store`: a stored value is found, and nothing else changes
- `lookup_foldl_store`: of several values stored under one key the last one is found
- `mem_of_lookup_foldl_store`: what is found has been stored
- `nodup_foldl_store`, `lookup_reverse`: the keys stay distinct, so their order does not matter
- `foldl_store_of_nodup`: keys that are new, and distinct, are appended
-/

namespace Hash

variable {κ ν : Type _} [DecidableEq κ]

/-- Store a value under a key; a key that is there keeps its place. -/
def store (key : κ) (value : ν) : List (κ × ν) → List (κ × ν)
  | [] => [(key, value)]
  | entry :: entries =>
    if entry.1 = key then (key, value) :: entries else entry :: store key value entries

variable {key k : κ} {value v : ν} {entries : List (κ × ν)}

section
variable [BEq κ] [LawfulBEq κ]

theorem lookup_store :
    (store key value entries).lookup k = if k = key then some value else entries.lookup k := by
  induction entries with
  | nil =>
    by_cases hk : k = key
    · simp [store, hk]
    · have hne : (k == key) = false := beq_eq_false_iff_ne.mpr hk
      simp [store, hk, List.lookup_cons, hne]
  | cons entry entries ih =>
    obtain ⟨a, b⟩ := entry
    by_cases hentry : a = key
    · by_cases hk : k = key
      · simp [store, hentry, hk]
      · have hne : (k == key) = false := beq_eq_false_iff_ne.mpr hk
        simp [store, hentry, hk, List.lookup_cons, hne]
    · by_cases hk : k = a
      · have hne : ¬ k = key := fun h => hentry (hk ▸ h)
        simp [store, hentry, hk]
      · have hne : (k == a) = false := beq_eq_false_iff_ne.mpr hk
        simp [store, hentry, List.lookup_cons, hne, ih]

/-- Storing one value after the other. -/
theorem lookup_foldl_store (news : List (κ × ν)) :
    (news.foldl (fun entries new => store new.1 new.2 entries) entries).lookup k =
      (news.reverse.lookup k).or (entries.lookup k) := by
  induction news generalizing entries with
  | nil => rfl
  | cons new news ih =>
    rw [List.foldl_cons, ih, lookup_store, List.reverse_cons, List.lookup_append, Option.or_assoc]
    obtain ⟨a, b⟩ := new
    by_cases hk : k = a
    · simp [hk]
    · have hne : (k == a) = false := beq_eq_false_iff_ne.mpr hk
      simp [hk, List.lookup_cons, hne]

omit [DecidableEq κ] in
theorem mem_of_lookup (h : entries.lookup k = some v) : (k, v) ∈ entries := by
  obtain ⟨front, back, rfl, -⟩ := List.lookup_eq_some_iff.mp h
  exact List.mem_append_right _ List.mem_cons_self

/-- What is found has been stored. -/
theorem mem_of_lookup_foldl_store {news : List (κ × ν)}
    (h : (news.foldl (fun entries new => store new.1 new.2 entries) []).lookup k = some v) :
    (k, v) ∈ news := by
  rw [lookup_foldl_store, List.lookup_nil, Option.or_none] at h
  exact List.mem_reverse.mp (mem_of_lookup h)

theorem lookup_eq_some_iff (h : (entries.map Prod.fst).Nodup) :
    entries.lookup k = some v ↔ (k, v) ∈ entries := by
  induction entries with
  | nil => simp
  | cons entry entries ih =>
    obtain ⟨a, b⟩ := entry
    rw [List.map_cons, List.nodup_cons] at h
    rw [List.mem_cons]
    by_cases hk : k = a
    · subst hk
      have hnot : (k, v) ∉ entries := fun hmem => h.1 (List.mem_map.mpr ⟨(k, v), hmem, rfl⟩)
      rw [List.lookup_cons_self, or_iff_left hnot, Prod.mk.injEq, Option.some.injEq]
      exact ⟨fun hb => ⟨rfl, hb.symm⟩, fun hb => hb.2.symm⟩
    · have hne : (k == a) = false := beq_eq_false_iff_ne.mpr hk
      simp [List.lookup_cons, hne, ih h.2, hk]

/-- Where the keys are distinct, the order of the entries does not matter. -/
theorem lookup_reverse (h : (entries.map Prod.fst).Nodup) :
    entries.reverse.lookup k = entries.lookup k := by
  have h' : (entries.reverse.map Prod.fst).Nodup := by
    rw [List.map_reverse]
    exact List.nodup_reverse.mpr h
  refine Option.ext fun v => ?_
  rw [lookup_eq_some_iff h', lookup_eq_some_iff h, List.mem_reverse]

end

theorem mem_keys_store :
    k ∈ (store key value entries).map Prod.fst ↔ k = key ∨ k ∈ entries.map Prod.fst := by
  induction entries with
  | nil => simp [store]
  | cons entry entries ih =>
    by_cases hentry : entry.1 = key
    · simp only [store, hentry, if_true, List.map_cons, List.mem_cons]
      tauto
    · simp only [store, hentry, if_false, List.map_cons, List.mem_cons, ih]
      tauto

theorem nodup_store (h : (entries.map Prod.fst).Nodup) :
    ((store key value entries).map Prod.fst).Nodup := by
  induction entries with
  | nil => simp [store]
  | cons entry entries ih =>
    rw [List.map_cons, List.nodup_cons] at h
    by_cases hentry : entry.1 = key
    · rw [store, if_pos hentry, List.map_cons, List.nodup_cons]
      exact ⟨hentry ▸ h.1, h.2⟩
    · rw [store, if_neg hentry, List.map_cons, List.nodup_cons]
      refine ⟨fun hmem => ?_, ih h.2⟩
      rcases mem_keys_store.mp hmem with hk | hk
      · exact hentry hk
      · exact h.1 hk

theorem nodup_foldl_store (news : List (κ × ν)) (h : (entries.map Prod.fst).Nodup) :
    ((news.foldl (fun entries new => store new.1 new.2 entries) entries).map Prod.fst).Nodup := by
  induction news generalizing entries with
  | nil => exact h
  | cons new news ih => exact ih (nodup_store h)

theorem store_of_not_mem (h : key ∉ entries.map Prod.fst) :
    store key value entries = entries ++ [(key, value)] := by
  induction entries with
  | nil => rfl
  | cons entry entries ih =>
    rw [List.map_cons, List.mem_cons, not_or] at h
    rw [store, if_neg (fun heq => h.1 heq.symm), ih h.2, List.cons_append]

/-- Keys that are new, and distinct, are appended. -/
theorem foldl_store_of_nodup (news : List (κ × ν))
    (h : ((entries ++ news).map Prod.fst).Nodup) :
    news.foldl (fun entries new => store new.1 new.2 entries) entries = entries ++ news := by
  induction news generalizing entries with
  | nil => rw [List.foldl_nil, List.append_nil]
  | cons new news ih =>
    have hnew : new.1 ∉ entries.map Prod.fst := by
      rw [List.map_append, List.nodup_append'] at h
      exact fun hmem => h.2.2 hmem (List.mem_cons_self)
    rw [List.foldl_cons, store_of_not_mem hnew, ih (by rwa [List.append_assoc]),
      List.append_assoc, List.singleton_append]

/-- A hash that is made of distinct keys has their entries in order. -/
theorem foldl_store_nil (news : List (κ × ν)) (h : (news.map Prod.fst).Nodup) :
    news.foldl (fun entries new => store new.1 new.2 entries) [] = news :=
  foldl_store_of_nodup news h

end Hash
