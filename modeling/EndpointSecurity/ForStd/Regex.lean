import Mathlib.Data.List.Basic
import Mathlib.Tactic.SplitIfs

/-!
# Regular expressions by backtracking

Regular expressions as scripting languages have them: repetition of a class is greedy, an
alternative comes before the ones behind it, conditions look at the elements on both sides of a
place, and groups record what they have matched. `run` lists all the ways to match at a place, in
the order in which a backtracking matcher comes to them, so the match it settles on is the first.

Only classes can be repeated, so that every match is finite.

## Key results

- `mem_run_iff`: the matcher finds the matches of an expression, as `Matches` defines them, and
  no others
- `search_isSome_iff`, `search_sound`, `search_start`: what the first match in a text is
- `mem_scan`: the matches that a search from left to right comes to
-/

/-- A regular expression with groups. -/
inductive Regex (α : Type _) where
  | empty
  /-- One element of a class. -/
  | one (p : α → Bool)
  /-- As many elements of a class as possible. -/
  | many (p : α → Bool)
  /-- A condition on what stands on the two sides of a place. -/
  | look (p : Option α → Option α → Bool)
  | seq (r s : Regex α)
  /-- The first one, or else the second. -/
  | alt (r s : Regex α)
  | group (r : Regex α)

namespace Regex

variable {α : Type _}

/-- One element of a class or more. -/
def many1 (p : α → Bool) : Regex α := .seq (.one p) (.many p)

/-- The expression or, rather than fail, nothing. -/
def optional (r : Regex α) : Regex α := .alt r .empty

/-- One after the other. -/
def all : List (Regex α) → Regex α
  | [] => .empty
  | r :: rs => .seq r (all rs)

/-- Just these elements. -/
def literal [BEq α] (text : List α) : Regex α := all (text.map fun c => .one (· == c))

/-- A match: the text that is matched, what follows it, and what the groups have matched. -/
structure Match (α : Type _) where
  text : List α
  rest : List α
  groups : List (List α)
  deriving DecidableEq, Repr

/-- What stands before a place that is reached from `previous` over `text`. -/
def last (previous : Option α) (text : List α) : Option α := text.getLast?.or previous

/-- The ways to take elements of a class off a text, the longest first. -/
def splits (p : α → Bool) : List α → List (List α × List α)
  | [] => [([], [])]
  | c :: rest =>
    -- A repetition is greedy: it gives elements back one by one
    (if p c then (splits p rest).map fun s => (c :: s.1, s.2) else []) ++ [([], c :: rest)]

/-- The matches at a place, in the order in which they are tried. -/
def run : Regex α → Option α → List α → List (Match α)
  | .empty, _, rest => [⟨[], rest, []⟩]
  | .one _, _, [] => []
  | .one p, _, c :: rest => if p c then [⟨[c], rest, []⟩] else []
  | .many p, _, rest => (splits p rest).map fun s => ⟨s.1, s.2, []⟩
  | .look p, previous, rest => if p previous rest.head? then [⟨[], rest, []⟩] else []
  | .seq r s, previous, rest =>
    (run r previous rest).flatMap fun m =>
      (run s (last previous m.text) m.rest).map fun n =>
        ⟨m.text ++ n.text, n.rest, m.groups ++ n.groups⟩
  | .alt r s, previous, rest => run r previous rest ++ run s previous rest
  | .group r, previous, rest =>
    (run r previous rest).map fun m => ⟨m.text, m.rest, m.text :: m.groups⟩

/-- A match and the text before it. -/
structure Found (α : Type _) extends Match α where
  before : List α
  deriving DecidableEq, Repr

/-- There is more text in front. -/
def Found.prepend (u : List α) (f : Found α) : Found α := { f with before := u ++ f.before }

/-- The first match at the first place that has one. -/
def search (r : Regex α) : Option α → List α → Option (Found α)
  | previous, [] => (run r previous []).head?.map fun m => ⟨m, []⟩
  | previous, c :: rest =>
    match (run r previous (c :: rest)).head? with
    | some m => some ⟨m, []⟩
    | none => (search r (some c) rest).map (.prepend [c])

/-- The matches from left to right; each is looked for behind the one before it, of which `skip`
    elements are left. -/
def scan (r : Regex α) : Nat → Option α → List α → List (Found α)
  | _, previous, [] => (run r previous []).head?.toList.map fun m => ⟨m, []⟩
  | skip + 1, _, c :: rest => (scan r skip (some c) rest).map (.prepend [c])
  | 0, previous, c :: rest =>
    match (run r previous (c :: rest)).head? with
    | some m =>
      -- A match that is empty leaves nothing to skip
      ⟨m, []⟩ :: (scan r (m.text.length - 1) (some c) rest).map (.prepend [c])
    | none => (scan r 0 (some c) rest).map (.prepend [c])

/-! ## What is matched -/

/-- An expression matches `text`, with `previous` before it and `rest` behind it. -/
def Matches : Regex α → Option α → List α → List α → List (List α) → Prop
  | .empty, _, text, _, groups => text = [] ∧ groups = []
  | .one p, _, text, _, groups => (∃ c, p c ∧ text = [c]) ∧ groups = []
  | .many p, _, text, _, groups => (∀ c ∈ text, p c) ∧ groups = []
  | .look p, previous, text, rest, groups => p previous rest.head? ∧ text = [] ∧ groups = []
  | .seq r s, previous, text, rest, groups =>
    ∃ u v g h, Matches r previous u (v ++ rest) g ∧ Matches s (last previous u) v rest h ∧
      text = u ++ v ∧ groups = g ++ h
  | .alt r s, previous, text, rest, groups =>
    Matches r previous text rest groups ∨ Matches s previous text rest groups
  | .group r, previous, text, rest, groups =>
    ∃ g, Matches r previous text rest g ∧ groups = text :: g

variable {r s : Regex α} {p : α → Bool} {previous : Option α} {text rest u v : List α}
  {groups : List (List α)} {m : Match α} {f : Found α}

@[simp] theorem last_nil : last previous [] = previous := rfl

theorem last_append : last previous (u ++ v) = last (last previous u) v := by
  simp [last, List.getLast?_append, Option.or_assoc]

theorem mem_splits : (u, v) ∈ splits p text ↔ text = u ++ v ∧ ∀ c ∈ u, p c := by
  -- Induction on the text, whose first element is taken or not
  induction text generalizing u with
  | nil =>
    rw [splits, List.mem_singleton, Prod.mk.injEq, eq_comm (a := []), List.append_eq_nil_iff]
    exact ⟨fun h => ⟨h, by simp [h.1]⟩, fun h => h.1⟩
  | cons c rest ih =>
    rw [splits, List.mem_append, List.mem_singleton, Prod.mk.injEq]
    constructor
    · rintro (h | ⟨rfl, rfl⟩)
      · split_ifs at h with hc
        · obtain ⟨⟨x, y⟩, hxy, heq⟩ := List.mem_map.mp h
          cases heq
          obtain ⟨rfl, hall⟩ := ih.mp hxy
          exact ⟨rfl, List.forall_mem_cons.mpr ⟨hc, hall⟩⟩
        · cases h
      · exact ⟨rfl, by simp⟩
    · rintro ⟨htext, hall⟩
      cases u with
      | nil => exact .inr ⟨rfl, htext.symm⟩
      | cons d u =>
        cases htext
        rw [List.forall_mem_cons] at hall
        rw [if_pos hall.1]
        exact .inl (List.mem_map.mpr ⟨(u, v), ih.mpr ⟨rfl, hall.2⟩, rfl⟩)

/-- The matcher finds the matches of the expression. -/
theorem mem_run_iff :
    m ∈ run r previous text ↔
      text = m.text ++ m.rest ∧ Matches r previous m.text m.rest m.groups := by
  -- Induction on the expression; each case is one equation of the matcher
  induction r generalizing previous text m with
  | empty =>
    obtain ⟨t, rest, groups⟩ := m
    simp only [run, List.mem_singleton, Match.mk.injEq, Matches]
    constructor
    · rintro ⟨rfl, rfl, rfl⟩
      exact ⟨rfl, rfl, rfl⟩
    · rintro ⟨rfl, rfl, rfl⟩
      exact ⟨rfl, rfl, rfl⟩
  | one p =>
    obtain ⟨t, rest, groups⟩ := m
    cases text with
    | nil =>
      simp only [run, List.not_mem_nil, Matches, false_iff]
      rintro ⟨htext, ⟨c, -, rfl⟩, -⟩
      cases htext
    | cons c text =>
      by_cases hc : p c
      · simp only [run, if_pos hc, List.mem_singleton, Match.mk.injEq, Matches]
        constructor
        · rintro ⟨rfl, rfl, rfl⟩
          exact ⟨rfl, ⟨c, hc, rfl⟩, rfl⟩
        · rintro ⟨htext, ⟨d, -, rfl⟩, rfl⟩
          cases htext
          exact ⟨rfl, rfl, rfl⟩
      · simp only [run, if_neg hc, List.not_mem_nil, Matches, false_iff]
        rintro ⟨htext, ⟨d, hd, rfl⟩, -⟩
        cases htext
        exact hc hd
  | many p =>
    obtain ⟨t, rest, groups⟩ := m
    simp only [run, List.mem_map, Match.mk.injEq, Matches]
    constructor
    · rintro ⟨⟨x, y⟩, hxy, rfl, rfl, rfl⟩
      -- A repetition takes as much as it can, or less
      obtain ⟨htext, hall⟩ := mem_splits.mp hxy
      exact ⟨htext, hall, rfl⟩
    · rintro ⟨htext, hall, rfl⟩
      exact ⟨(t, rest), mem_splits.mpr ⟨htext, hall⟩, rfl, rfl, rfl⟩
  | look p =>
    obtain ⟨t, rest, groups⟩ := m
    by_cases hp : p previous text.head?
    · simp only [run, if_pos hp, List.mem_singleton, Match.mk.injEq, Matches]
      constructor
      · rintro ⟨rfl, rfl, rfl⟩
        exact ⟨rfl, hp, rfl, rfl⟩
      · rintro ⟨rfl, -, rfl, rfl⟩
        exact ⟨rfl, rfl, rfl⟩
    · simp only [run, if_neg hp, List.not_mem_nil, Matches, false_iff]
      rintro ⟨rfl, hp', rfl, -⟩
      exact hp hp'
  | seq r s ihr ihs =>
    -- What is matched first ends where the second part begins
    simp only [run, List.mem_flatMap, List.mem_map, Matches, ihr, ihs]
    constructor
    · rintro ⟨a, ⟨rfl, ha⟩, b, ⟨hrest, hb⟩, rfl⟩
      rw [hrest] at ha ⊢
      exact ⟨(List.append_assoc ..).symm, a.text, b.text, a.groups, b.groups, ha, hb, rfl, rfl⟩
    · rintro ⟨rfl, u, v, g, h, hu, hv, htext, hgroups⟩
      refine ⟨⟨u, v ++ m.rest, g⟩, ⟨?_, hu⟩, ⟨v, m.rest, h⟩, ⟨rfl, hv⟩, ?_⟩
      · rw [htext, List.append_assoc]
      · rw [← htext, ← hgroups]
  | alt r s ihr ihs =>
    simp only [run, List.mem_append, ihr, ihs, Matches, and_or_left]
  | group r ih =>
    -- A group adds what it has matched in front of the groups within
    simp only [run, List.mem_map, ih, Matches]
    constructor
    · rintro ⟨a, ⟨rfl, ha⟩, rfl⟩
      exact ⟨rfl, a.groups, ha, rfl⟩
    · rintro ⟨htext, g, hg, hgroups⟩
      exact ⟨⟨m.text, m.rest, g⟩, ⟨htext, hg⟩, by rw [← hgroups]⟩

theorem matches_many1 : Matches (many1 p) previous text rest groups ↔
    text ≠ [] ∧ (∀ c ∈ text, p c) ∧ groups = [] := by
  constructor
  · rintro ⟨u, v, g, h, ⟨⟨c, hc, rfl⟩, rfl⟩, ⟨hall, rfl⟩, rfl, rfl⟩
    exact ⟨by simp, List.forall_mem_cons.mpr ⟨hc, hall⟩, rfl⟩
  · rintro ⟨hne, hall, rfl⟩
    cases text with
    | nil => exact absurd rfl hne
    | cons c u =>
      rw [List.forall_mem_cons] at hall
      exact ⟨[c], u, [], [], ⟨⟨c, hall.1, rfl⟩, rfl⟩, ⟨hall.2, rfl⟩, rfl, rfl⟩

theorem matches_literal [BEq α] [LawfulBEq α] :
    Matches (literal u) previous text rest groups ↔ text = u ∧ groups = [] := by
  induction u generalizing previous text groups with
  | nil => exact Iff.rfl
  | cons c u ih =>
    constructor
    · rintro ⟨x, y, g, h, ⟨⟨d, hd, rfl⟩, rfl⟩, hu, rfl, rfl⟩
      obtain ⟨rfl, rfl⟩ := ih.mp hu
      exact ⟨by rw [eq_of_beq hd]; rfl, rfl⟩
    · rintro ⟨rfl, rfl⟩
      exact ⟨[c], u, [], [], ⟨⟨c, BEq.rfl, rfl⟩, rfl⟩, ih.mpr ⟨rfl, rfl⟩, rfl, rfl⟩

/-! ## The first match -/

/-- Something matches at a place. -/
theorem exists_run_head (h : Matches r previous u v groups) :
    ∃ m, (run r previous (u ++ v)).head? = some m := by
  have hmem : (⟨u, v, groups⟩ : Match α) ∈ run r previous (u ++ v) := mem_run_iff.mpr ⟨rfl, h⟩
  cases hrun : run r previous (u ++ v) with
  | nil => simp [hrun] at hmem
  | cons m ms => exact ⟨m, rfl⟩

theorem matches_of_run_head (h : (run r previous text).head? = some m) :
    text = m.text ++ m.rest ∧ Matches r previous m.text m.rest m.groups :=
  mem_run_iff.mp (List.mem_of_head? h)

/-- A match at the first place is the one that is found. -/
theorem search_start (h : Matches r previous u v groups) :
    ∃ f, search r previous (u ++ v) = some f ∧ f.before = [] := by
  obtain ⟨m, hm⟩ := exists_run_head h
  cases htext : u ++ v with
  | nil =>
    rw [htext] at hm
    exact ⟨⟨m, []⟩, by rw [search, hm, Option.map_some], rfl⟩
  | cons c rest =>
    rw [htext] at hm
    exact ⟨⟨m, []⟩, by rw [search, hm], rfl⟩

/-- What is found is a match, with the text before it. -/
theorem search_sound (h : search r previous text = some f) :
    text = f.before ++ f.text ++ f.rest ∧
      Matches r (last previous f.before) f.text f.rest f.groups := by
  induction text generalizing previous f with
  | nil =>
    rw [search] at h
    obtain ⟨m, hm, rfl⟩ := Option.map_eq_some_iff.mp h
    exact matches_of_run_head hm
  | cons c rest ih =>
    -- The first place has a match, or the search goes on behind its element
    rw [search] at h
    split at h
    · next m hm =>
      cases h
      exact matches_of_run_head hm
    · obtain ⟨g, hg, rfl⟩ := Option.map_eq_some_iff.mp h
      obtain ⟨rfl, hmatch⟩ := ih hg
      refine ⟨rfl, ?_⟩
      have hlast : last previous ([c] ++ g.before) = last (some c) g.before := last_append
      exact hlast ▸ hmatch

/-- A search that finds nothing has tried every place. -/
theorem search_eq_none (h : search r previous text = none) :
    ∀ w u v groups, text = w ++ u ++ v → ¬ Matches r (last previous w) u v groups := by
  induction text generalizing previous with
  | nil =>
    rintro w u v groups htext hmatch
    -- Only one place is left, the end of the text
    obtain ⟨rfl, rfl, rfl⟩ : w = [] ∧ u = [] ∧ v = [] := by simpa using htext.symm
    obtain ⟨m, hm⟩ := exists_run_head hmatch
    rw [search, show run r previous [] = run r (last previous []) ([] ++ []) from rfl, hm] at h
    cases h
  | cons c rest ih =>
    rintro w u v groups htext hmatch
    rw [search] at h
    split at h
    · cases h
    · next hnone =>
      -- A match would be at the first place or behind it, and both have been tried
      cases w with
      | nil =>
        obtain ⟨m, hm⟩ := exists_run_head hmatch
        rw [htext, List.nil_append] at hnone
        rw [last_nil, hnone] at hm
        cases hm
      | cons d w =>
        cases htext
        refine ih (Option.map_eq_none_iff.mp h) w u v groups rfl ?_
        have hlast : last previous ([c] ++ w) = last (some c) w := last_append
        exact hlast ▸ hmatch

/-- Something is found iff there is a match at some place. -/
theorem search_isSome_iff : (search r previous text).isSome ↔
    ∃ w u v groups, text = w ++ u ++ v ∧ Matches r (last previous w) u v groups := by
  constructor
  · intro h
    obtain ⟨f, hf⟩ := Option.isSome_iff_exists.mp h
    obtain ⟨htext, hmatch⟩ := search_sound hf
    exact ⟨_, _, _, _, htext, hmatch⟩
  · rintro ⟨w, u, v, groups, htext, hmatch⟩
    by_contra h
    exact search_eq_none (Option.not_isSome_iff_eq_none.mp h) w u v groups htext hmatch

/-! ## All matches -/

/-- A match of the text, the first of those that there are at its place. -/
def IsFound (r : Regex α) (previous : Option α) (text : List α) (f : Found α) : Prop :=
  text = f.before ++ (f.text ++ f.rest) ∧
    (run r (last previous f.before) (f.text ++ f.rest)).head? = some f.toMatch

/-- Every match starts with an element that it does not have a second time. -/
def Headed (r : Regex α) (q : α → Prop) : Prop :=
  ∀ previous u v groups, Matches r previous u v groups →
    ∃ c u', u = c :: u' ∧ q c ∧ ∀ d ∈ u', ¬ q d

variable {q : α → Prop}

theorem Headed.text_eq (h : Headed r q) (hm : (run r previous text).head? = some m) :
    ∃ c u, m.text = c :: u ∧ text = c :: (u ++ m.rest) ∧ q c ∧ ∀ d ∈ u, ¬ q d := by
  obtain ⟨htext, hmatch⟩ := matches_of_run_head hm
  obtain ⟨c, u, hu, hc, hall⟩ := h _ _ _ _ hmatch
  exact ⟨c, u, hu, by rw [htext, hu]; rfl, hc, hall⟩

/-- What is found in a text is found at its first place, or behind it. -/
theorem isFound_cons {c : α} : IsFound r previous (c :: rest) f ↔
    (∃ m, (run r previous (c :: rest)).head? = some m ∧ f = ⟨m, []⟩) ∨
      ∃ g, IsFound r (some c) rest g ∧ f = .prepend [c] g := by
  obtain ⟨m, before⟩ := f
  constructor
  · rintro ⟨htext, hm⟩
    -- With nothing before it, it is what the matcher tries first at this place
    cases before with
    | nil =>
      rw [List.nil_append] at htext
      exact .inl ⟨m, by rw [htext]; exact hm, rfl⟩
    | cons d before =>
      obtain ⟨rfl, htext⟩ := List.cons.inj htext
      have hlast : last previous ([c] ++ before) = last (some c) before := last_append
      exact .inr ⟨⟨m, before⟩, ⟨htext, hlast ▸ hm⟩, rfl⟩
  · rintro (⟨m, hm, heq⟩ | ⟨g, ⟨htext, hm⟩, heq⟩)
    · cases heq
      obtain ⟨htext, -⟩ := matches_of_run_head hm
      exact ⟨htext, by rw [last_nil, ← htext]; exact hm⟩
    · cases heq
      have hlast : last previous ([c] ++ g.before) = last (some c) g.before := last_append
      exact ⟨congrArg (c :: ·) htext, hlast ▸ hm⟩

/-- Behind a match of which `skip` elements are left, no match is missed. -/
private theorem mem_scan_of_skip (h : Headed r q) {skip : Nat}
    (hskip : ∀ c ∈ text.take skip, ¬ q c) :
    f ∈ scan r skip previous text ↔ IsFound r previous text f := by
  -- Induction on the text, with what is left to skip of a match
  induction text generalizing previous skip f with
  | nil =>
    -- Every match has a first element, so that there is none at the end
    have hnone : ∀ before m, (run r before []).head? ≠ some m := by
      intro before m hm
      obtain ⟨c, u, -, htext, -⟩ := h.text_eq hm
      cases htext
    have hrun : (run r previous []).head? = none := by
      rw [Option.eq_none_iff_forall_ne_some]
      exact hnone previous
    rw [scan, hrun]
    constructor
    · nofun
    · rintro ⟨htext, hm⟩
      have hempty : f.text ++ f.rest = [] := (List.append_eq_nil_iff.mp htext.symm).2
      rw [hempty] at hm
      exact absurd hm (hnone _ _)
  | cons c rest ih =>
    rw [isFound_cons]
    cases skip with
    | succ skip =>
      rw [List.take_succ_cons, List.forall_mem_cons] at hskip
      -- The elements that are skipped are not those that a match starts with
      have hnone : ∀ m, (run r previous (c :: rest)).head? ≠ some m := by
        intro m hm
        obtain ⟨d, u, -, htext, hd, -⟩ := h.text_eq hm
        cases htext
        exact hskip.1 hd
      rw [scan, List.mem_map]
      constructor
      · rintro ⟨g, hg, rfl⟩
        exact .inr ⟨g, (ih hskip.2).mp hg, rfl⟩
      · rintro (⟨m, hm, -⟩ | ⟨g, hg, rfl⟩)
        · exact absurd hm (hnone m)
        · exact ⟨g, (ih hskip.2).mpr hg, rfl⟩
    | zero =>
      rw [scan]
      split
      · next m hm =>
        obtain ⟨d, u, hu, htext, -, hall⟩ := h.text_eq hm
        cases htext
        -- The rest of the match has no second element like its first, and may be skipped
        have hskip' : ∀ e ∈ (u ++ m.rest).take (m.text.length - 1), ¬ q e := by
          rw [hu, List.length_cons, Nat.add_sub_cancel, List.take_left]
          exact hall
        rw [List.mem_cons, List.mem_map]
        constructor
        · rintro (rfl | ⟨g, hg, rfl⟩)
          · exact .inl ⟨m, hm, rfl⟩
          · exact .inr ⟨g, (ih hskip').mp hg, rfl⟩
        · rintro (⟨m', hm', rfl⟩ | ⟨g, hg, rfl⟩)
          · -- The place has one match, the first of those that there are
            rw [hm, Option.some.injEq] at hm'
            exact .inl (hm' ▸ rfl)
          · exact .inr ⟨g, (ih hskip').mpr hg, rfl⟩
      · next hnone =>
        rw [List.mem_map]
        constructor
        · rintro ⟨g, hg, rfl⟩
          exact .inr ⟨g, (ih (by simp)).mp hg, rfl⟩
        · rintro (⟨m, hm, -⟩ | ⟨g, hg, rfl⟩)
          · rw [hnone] at hm
            cases hm
          · exact ⟨g, (ih (by simp)).mpr hg, rfl⟩

/-- Where matches cannot overlap, the scan finds what there is at every place. -/
theorem mem_scan (h : Headed r q) :
    f ∈ scan r 0 previous text ↔ IsFound r previous text f :=
  mem_scan_of_skip h (by simp)

end Regex
