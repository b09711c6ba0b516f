import EndpointSecurity.Spec.HeaderLines
import Mathlib.Data.List.Pairwise

/-!
# Which record a version gate is for

A header is a sequence of structure definitions with other lines between them. The scan goes
through the lines one by one and gives what it has collected since the first opening line to the
next `es_..._t` that a line closes. It does not notice that a definition with another name is
over, so the gates of such a definition are given to the record behind it.

## Key results

- `scanFieldVersions_eq_ok`, `readable_of_scanFieldVersions`: what the scan comes to
- `scanFieldVersions_attributed_iff`: when every gate is given to its own record
- `Header.clean_of_records`: it is in headers that define nothing but `es_..._t`
-/

namespace EndpointSecurity.Codegen

/-! ## Headers -/

/-- The definition of a structure, from its opening to its closing line. -/
structure Definition where
  opening : OpeningLine
  body : List (List Char)
  closing : ClosingLine

/-- The lines that can declare a field. -/
def Definition.fieldLines (d : Definition) : List (List Char) := d.opening.text :: d.body

/-- A definition, or a line between definitions. -/
inductive Item where
  | other (line : List Char)
  | definition (d : Definition)

def Item.lines : Item → List (List Char)
  | .other line => [line]
  | .definition d => d.fieldLines ++ [d.closing.text]

/-- A header source, laid out in definitions and other lines. -/
structure Header where
  source : List Char
  items : List Item
  layout : eachLine source = items.flatMap Item.lines

def Header.definitions (h : Header) : List Definition :=
  h.items.filterMap fun
    | .other _ => none
    | .definition d => some d

variable (w : WordClass)

/-- The field that the line declares, and the version from which on it is there. -/
def declared (line : List Char) : Option (String × Nat) :=
  (versionGate w line).bind fun gate => (integer gate.2).toOption.map fun v => (gate.1, v)

/-- The version in the last of these lines that declares the field with one. -/
def lastVersion (lines : List (List Char)) (field : String) : Option Nat :=
  (lines.filterMap (declared w)).reverse.lookup field

/-- The record and the field have the version that the definition of the record says. -/
def Attributed (headers : List Header) (versions : Versions) : Prop :=
  ∀ record field v, versions.lookup (record, field) = some v ↔
    ∃ header ∈ headers, ∃ d ∈ header.definitions, d.closing.name = record ∧
      IsRecordName record.toList ∧ lastVersion w d.fieldLines field = some v

/-! ## Stretches of a header -/

/-- The lines that can give gates to the line behind them: none before an opening line. -/
def extend (pending : List (List Char)) (line : List Char) : List (List Char) :=
  if pending.isEmpty && !opens w line then [] else pending ++ [line]

/-- A line of a header, and the lines that declare the fields of the definition that it closes. -/
abbrev MarkedLine := List Char × List (List Char)

def Item.marked : Item → List MarkedLine
  | .other line => [(line, [])]
  | .definition d => d.fieldLines.map (·, []) ++ [(d.closing.text, d.fieldLines)]

/-- A line that closes an `es_..._t`, after the lines from the first opening line on that stand
    between it and the one before it. -/
structure Closing where
  pending : List (List Char)
  line : List Char
  record : String
  /-- What declares the fields of the definition that the line closes, if it closes one. -/
  own : List (List Char)

def closings : List (List Char) → List MarkedLine → List Closing
  | _, [] => []
  | pending, (line, own) :: rest =>
    match recordEnded line with
    | some record => ⟨pending, line, record, own⟩ :: closings [] rest
    | none => closings (extend w pending line) rest

/-- The lines behind the last closing. -/
def trailing : List (List Char) → List MarkedLine → List (List Char)
  | pending, [] => pending
  | pending, (line, _) :: rest =>
    match recordEnded line with
    | some _ => trailing [] rest
    | none => trailing (extend w pending line) rest

/-- The lines whose gates are given to the record. -/
def Closing.scanned (c : Closing) : List (List Char) := extend w c.pending c.line

def Header.marked (h : Header) : List MarkedLine := h.items.flatMap Item.marked

def Header.closings (h : Header) : List Closing := Codegen.closings w [] h.marked

def Header.trailing (h : Header) : List (List Char) := Codegen.trailing w [] h.marked

/-- The number of the line's version comment can be read. -/
def Readable (line : List Char) : Prop :=
  ∀ gate, versionGate w line = some gate → ∃ v, integer gate.2 = .ok v

/-- The field and the version that are read from a comment on the closing line itself. -/
def Closing.gate (c : Closing) : Option (String × Nat) :=
  if (c.scanned w).isEmpty then none else declared w c.line

/-- The lines from the first opening line on declare the same fields with versions as the
    definition that is closed. A comment on the closing line, which declares no field, does not
    count, but has to agree with the definition. -/
structure Closing.Clean (c : Closing) : Prop where
  fields : ∀ field, (∀ v, c.gate w ≠ some (field, v)) →
    ((lastVersion w c.pending field).isSome ↔ (lastVersion w c.own field).isSome)
  line : ∀ field v, c.gate w = some (field, v) → lastVersion w c.own field = some v

/-- Every version comment that is collected can be read, and every closing is clean. -/
structure Header.Clean (h : Header) : Prop where
  readable : ∀ c ∈ h.closings w, ∀ line ∈ c.scanned w, Readable w line
  trailing_readable : ∀ line ∈ h.trailing w, Readable w line
  clean : ∀ c ∈ h.closings w, c.Clean w

variable {w} {pending own lines : List (List Char)} {line : List Char} {record field : String}
  {versions : Versions} {v : Nat} {marked rest : List MarkedLine}

/-! ## Last versions -/

theorem lastVersion_append (a b : List (List Char)) :
    lastVersion w (a ++ b) field = (lastVersion w b field).or (lastVersion w a field) := by
  rw [lastVersion, List.filterMap_append, List.reverse_append, List.lookup_append]
  rfl

/-- More lines in front make no difference iff the field has no version there alone. -/
theorem lastVersion_append_eq_iff (a b : List (List Char)) :
    lastVersion w (a ++ b) field = lastVersion w b field ↔
      ((lastVersion w (a ++ b) field).isSome ↔ (lastVersion w b field).isSome) := by
  rw [lastVersion_append]
  cases lastVersion w b field <;> cases lastVersion w a field <;> simp

/-- Either list of lines ends with the other. -/
def Related (a b : List (List Char)) : Prop := (∃ front, a = front ++ b) ∨ ∃ front, b = front ++ a

theorem Related.lastVersion_eq_iff {a b : List (List Char)} (h : Related a b) :
    lastVersion w a field = lastVersion w b field ↔
      ((lastVersion w a field).isSome ↔ (lastVersion w b field).isSome) := by
  -- Whichever list is longer, only its front can add a field
  rcases h with ⟨front, rfl⟩ | ⟨front, rfl⟩
  · exact lastVersion_append_eq_iff front b
  · rw [eq_comm, lastVersion_append_eq_iff front a]
    exact Iff.comm

theorem lastVersion_singleton :
    lastVersion w [line] field = some v ↔ declared w line = some (field, v) := by
  cases h : declared w line with
  | none => simp [lastVersion, h]
  | some gate =>
    obtain ⟨name, n⟩ := gate
    by_cases hname : field = name
    · simp [lastVersion, h, hname]
    · have hne : (field == name) = false := beq_eq_false_iff_ne.mpr hname
      simp [lastVersion, h, List.lookup_cons, hne, Ne.symm hname]

/-! ## Closings and definitions -/

theorem extend_eq (pending : List (List Char)) (line : List Char) :
    extend w pending line = [] ∧ pending = [] ∨ extend w pending line = pending ++ [line] := by
  rw [extend]
  split_ifs with h
  · rw [Bool.and_eq_true, List.isEmpty_iff] at h
    exact .inl ⟨rfl, h.1⟩
  · exact .inr rfl

/-- What a record gets for a field. -/
theorem Closing.lastVersion_scanned (c : Closing) (field : String) :
    (∀ v, c.gate w = some (field, v) → lastVersion w (c.scanned w) field = some v) ∧
    ((∀ v, c.gate w ≠ some (field, v)) →
      lastVersion w (c.scanned w) field = lastVersion w c.pending field) := by
  -- The line of the closing counts unless nothing has been collected in front of it
  rcases extend_eq (w := w) c.pending c.line with ⟨hnil, hpending⟩ | happend
  · have hscanned : c.scanned w = [] := hnil
    refine ⟨fun v hv => ?_, fun _ => by rw [hscanned, hpending]⟩
    simp [gate, hscanned] at hv
  · have hscanned : c.scanned w = c.pending ++ [c.line] := happend
    have hgate : c.gate w = declared w c.line := by simp [gate, hscanned]
    rw [hgate, hscanned, lastVersion_append]
    constructor
    · intro v hv
      rw [lastVersion_singleton.mpr hv, Option.some_or]
    · intro hnone
      have : lastVersion w [c.line] field = none := by
        rw [Option.eq_none_iff_forall_ne_some]
        exact fun v hv => hnone v (lastVersion_singleton.mp hv)
      rw [this, Option.none_or]

/-- A closing is clean iff its record gets what the definition says. -/
theorem Closing.clean_iff {c : Closing} (h : Related c.pending c.own) :
    c.Clean w ↔ ∀ field, lastVersion w (c.scanned w) field = lastVersion w c.own field := by
  constructor
  · intro hclean field
    obtain ⟨hgate, hpending⟩ := c.lastVersion_scanned (w := w) field
    -- A comment on the closing line decides for its own field only
    by_cases hnone : ∀ v, c.gate w ≠ some (field, v)
    · rw [hpending hnone]
      exact h.lastVersion_eq_iff.mpr (hclean.fields field hnone)
    · push Not at hnone
      obtain ⟨v, hv⟩ := hnone
      rw [hgate v hv, hclean.line field v hv]
  · intro hall
    constructor
    · intro field hnone
      rw [← (c.lastVersion_scanned field).2 hnone, hall]
    · intro field v hv
      rw [← hall, (c.lastVersion_scanned field).1 v hv]

/-- Lines that close nothing of their own: what is pending after them either has them all at its
    end, or is what is left of them behind one that closes. -/
theorem closings_fields (pending lines : List (List Char)) (rest : List MarkedLine) :
    ∃ before after, closings w pending (lines.map (·, []) ++ rest) =
      before ++ closings w after rest ∧ (∀ c ∈ before, c.own = []) ∧ Related after lines := by
  suffices ∃ before after, closings w pending (lines.map (·, []) ++ rest) =
      before ++ closings w after rest ∧ (∀ c ∈ before, c.own = []) ∧
      (after = pending ++ lines ∨ ∃ front, lines = front ++ after) by
    obtain ⟨before, after, heq, hbefore, hafter⟩ := this
    exact ⟨before, after, heq, hbefore, hafter.imp (fun h => ⟨pending, h⟩) id⟩
  -- Induction on the lines; what is pending changes from one line to the next
  induction lines generalizing pending with
  | nil => exact ⟨[], pending, rfl, by simp, .inl (List.append_nil _).symm⟩
  | cons line lines ih =>
    cases hline : recordEnded line with
    | some record =>
      -- What was pending is gone, and what follows is a part of the lines
      obtain ⟨before, after, heq, hbefore, hafter⟩ := ih []
      refine ⟨⟨pending, line, record, []⟩ :: before, after, ?_, by simpa using hbefore, .inr ?_⟩
      · rw [List.map_cons, List.cons_append, closings, hline]
        exact congrArg _ heq
      · rcases hafter with rfl | ⟨front, rfl⟩
        · exact ⟨[line], rfl⟩
        · exact ⟨line :: front, rfl⟩
    | none =>
      obtain ⟨before, after, heq, hbefore, hafter⟩ := ih (extend w pending line)
      refine ⟨before, after, ?_, hbefore, ?_⟩
      · rw [List.map_cons, List.cons_append, closings, hline]
        exact heq
      · rcases hafter with rfl | ⟨front, rfl⟩
        · rcases extend_eq (w := w) pending line with ⟨hnil, -⟩ | happend
          · rw [hnil]
            exact .inr ⟨[line], rfl⟩
          · rw [happend]
            exact .inl (by simp)
        · exact .inr ⟨line :: front, rfl⟩

/-- The line closes this definition of a record. -/
structure Closing.Closes (c : Closing) (d : Definition) : Prop where
  own : c.own = d.fieldLines
  record : c.record = d.closing.name
  name : IsRecordName d.closing.name.toList

/-- The closings in the lines of one item. -/
theorem closings_item {item : Item} (pending : List (List Char)) (rest : List MarkedLine)
    (hlines : ∀ line ∈ item.lines, IsLine line) :
    ∃ these after, closings w pending (item.marked ++ rest) = these ++ closings w after rest ∧
      (∀ c ∈ these, Related c.pending c.own ∧
        (c.own = [] ∨ ∃ d, item = .definition d ∧ c.Closes d)) ∧
      ∀ d, item = .definition d → IsRecordName d.closing.name.toList → ∃ c ∈ these, c.Closes d := by
  -- Only the closing line of a definition has fields of its own
  cases item with
  | other line =>
    -- Another line may close a record all the same, one that has no fields of its own
    cases hline : recordEnded line with
    | some record =>
      refine ⟨[⟨pending, line, record, []⟩], [], ?_, ?_, nofun⟩
      · rw [Item.marked, List.singleton_append, closings, hline]
        rfl
      · intro c hc
        obtain rfl := List.mem_singleton.mp hc
        exact ⟨.inl ⟨pending, (List.append_nil _).symm⟩, .inl rfl⟩
    | none =>
      refine ⟨[], extend w pending line, ?_, by simp, nofun⟩
      rw [Item.marked, List.singleton_append, closings, hline]
      rfl
  | definition d =>
    -- Up to its closing line, a definition is a run of lines that close nothing of their own
    obtain ⟨before, after, heq, hbefore, hafter⟩ := closings_fields (w := w) pending
      d.fieldLines ((d.closing.text, d.fieldLines) :: rest)
    have hnone : ∀ c ∈ before, Related c.pending c.own ∧
        (c.own = [] ∨ ∃ e, Item.definition d = .definition e ∧ c.Closes e) := by
      intro c hc
      rw [hbefore c hc]
      exact ⟨.inl ⟨c.pending, (List.append_nil _).symm⟩, .inl rfl⟩
    rw [Item.marked, List.append_assoc, List.singleton_append, heq]
    by_cases hname : IsRecordName d.closing.name.toList
    · have hcloses : Closing.Closes ⟨after, d.closing.text, d.closing.name, d.fieldLines⟩ d :=
        ⟨rfl, rfl, hname⟩
      refine ⟨before ++ [⟨after, d.closing.text, d.closing.name, d.fieldLines⟩], [], ?_, ?_, ?_⟩
      · rw [closings, ClosingLine.recordEnded_eq_some hname, List.append_assoc]
        rfl
      · intro c hc
        rcases List.mem_append.mp hc with hc | hc
        · exact hnone c hc
        · obtain rfl := List.mem_singleton.mp hc
          exact ⟨hafter, .inr ⟨d, rfl, hcloses⟩⟩
      · rintro e heq -
        cases heq
        exact ⟨_, List.mem_append_right _ (List.mem_singleton_self _), hcloses⟩
    · -- A name that is no `es_..._t` ends no record: its fields stay pending
      have hline : IsLine d.closing.text := hlines _ (by simp [Item.lines])
      refine ⟨before, extend w after d.closing.text, ?_, hnone, ?_⟩
      · rw [closings, ClosingLine.recordEnded_eq_none hname hline]
      · rintro e heq he
        cases heq
        exact absurd he hname

theorem closings_items {items : List Item} (pending : List (List Char))
    (hlines : ∀ line ∈ items.flatMap Item.lines, IsLine line) :
    (∀ c ∈ closings w pending (items.flatMap Item.marked), Related c.pending c.own ∧
      (c.own = [] ∨ ∃ d, .definition d ∈ items ∧ c.Closes d)) ∧
    ∀ d, .definition d ∈ items → IsRecordName d.closing.name.toList →
      ∃ c ∈ closings w pending (items.flatMap Item.marked), c.Closes d := by
  induction items generalizing pending with
  | nil => simp [closings]
  | cons item items ih =>
    rw [List.flatMap_cons, List.forall_mem_append] at hlines
    obtain ⟨these, after, heq, hthese, hdefinition⟩ := closings_item (w := w) pending
      (items.flatMap Item.marked) hlines.1
    obtain ⟨ihclosing, ihdefinition⟩ := ih after hlines.2
    rw [List.flatMap_cons, heq]
    constructor
    · -- A closing is in the lines of the first item or of the others
      intro c hc
      rcases List.mem_append.mp hc with hc | hc
      · obtain ⟨hrelated, hown⟩ := hthese c hc
        refine ⟨hrelated, hown.imp id ?_⟩
        rintro ⟨d, rfl, hcloses⟩
        exact ⟨d, List.mem_cons_self, hcloses⟩
      · obtain ⟨hrelated, hown⟩ := ihclosing c hc
        refine ⟨hrelated, hown.imp id ?_⟩
        rintro ⟨d, hd, hcloses⟩
        exact ⟨d, List.mem_cons_of_mem _ hd, hcloses⟩
    · intro d hd hname
      rcases List.mem_cons.mp hd with hd | hd
      · obtain ⟨c, hc, hcloses⟩ := hdefinition d hd.symm hname
        exact ⟨c, List.mem_append_left _ hc, hcloses⟩
      · obtain ⟨c, hc, hcloses⟩ := ihdefinition d hd hname
        exact ⟨c, List.mem_append_right _ hc, hcloses⟩

theorem Header.mem_definitions {h : Header} {d : Definition} :
    d ∈ h.definitions ↔ .definition d ∈ h.items := by
  simp only [Header.definitions, List.mem_filterMap]
  constructor
  · rintro ⟨item, hitem, heq⟩
    cases item with
    | other => cases heq
    | definition e => cases heq; exact hitem
  · exact fun hd => ⟨_, hd, rfl⟩

theorem Header.isLine (h : Header) : ∀ line ∈ h.items.flatMap Item.lines, IsLine line :=
  fun _ hline => isLine_of_mem_eachLine (h.layout ▸ hline)

/-- What is known of a closing: it is that of a definition, or has nothing of its own. -/
theorem Header.closing {h : Header} {c : Closing} (hc : c ∈ h.closings w) :
    Related c.pending c.own ∧ (c.own = [] ∨ ∃ d ∈ h.definitions, c.Closes d) := by
  obtain ⟨hrelated, hown⟩ := (closings_items [] h.isLine).1 c hc
  refine ⟨hrelated, hown.imp id ?_⟩
  rintro ⟨d, hd, hcloses⟩
  exact ⟨d, mem_definitions.mpr hd, hcloses⟩

/-- Every definition of a record has a closing. -/
theorem Header.closing_of_definition {h : Header} {d : Definition} (hd : d ∈ h.definitions)
    (hname : IsRecordName d.closing.name.toList) : ∃ c ∈ h.closings w, c.Closes d :=
  (closings_items [] h.isLine).2 d (mem_definitions.mp hd) hname

/-! ## The scan -/

variable (w) in
/-- The gates in these lines, each field with its last version. -/
def collect (lines : List (List Char)) : List (String × Nat) :=
  (lines.filterMap (declared w)).foldl (fun entries new => Hash.store new.1 new.2 entries) []

theorem lookup_collect (lines : List (List Char)) (field : String) :
    (collect w lines).lookup field = lastVersion w lines field := by
  rw [collect, Hash.lookup_foldl_store, lastVersion]
  simp

theorem nodup_collect (lines : List (List Char)) : ((collect w lines).map Prod.fst).Nodup :=
  Hash.nodup_foldl_store _ (by simp)

theorem collect_append_some {gate : String × Nat} (h : declared w line = some gate) :
    collect w (pending ++ [line]) = Hash.store gate.1 gate.2 (collect w pending) := by
  simp [collect, List.filterMap_append, h]

theorem collect_append_none (h : declared w line = none) :
    collect w (pending ++ [line]) = collect w pending := by
  simp [collect, List.filterMap_append, h]

variable (w) in
/-- The state of the scan in front of a line, with the lines that are pending. -/
def stateAt (versions : Versions) (pending : List (List Char)) : ScanState :=
  { versions, fields := if pending.isEmpty then none else some (collect w pending) }

/-- An opening line makes the scan start to collect. -/
theorem stateAt_fields :
    (if (stateAt w versions pending).fields.isNone && opens w line then some []
      else (stateAt w versions pending).fields) =
      if (extend w pending line).isEmpty then none else some (collect w pending) := by
  cases pending with
  | nil => by_cases ho : opens w line <;> simp [stateAt, extend, ho, collect]
  | cons first pending => simp [stateAt, extend]

theorem declared_of_versionGate {name : String} {digits : List Char}
    (hgate : versionGate w line = some (name, digits)) (hv : integer digits = .ok v) :
    declared w line = some (name, v) := by
  rw [declared, hgate, Option.bind_some, hv]
  rfl

theorem declared_of_none (hgate : versionGate w line = none) : declared w line = none := by
  rw [declared, hgate, Option.bind_none]

variable (w) in
/-- The gates of a closing are given to its record. -/
def commit (versions : Versions) (c : Closing) : Versions :=
  storeFields c.record (collect w (c.scanned w)) versions

/-- One line: it is collected, or its record gets what has been collected. -/
theorem scanLine_stateAt (hread : ∀ l ∈ extend w pending line, Readable w l) :
    scanLine w (stateAt w versions pending) line = .ok
      (match recordEnded line with
      | some record =>
        stateAt w (storeFields record (collect w (extend w pending line)) versions) []
      | none => stateAt w versions (extend w pending line)) := by
  rw [scanLine]
  simp only [stateAt_fields]
  -- Either the scan has not begun to collect, or the line is collected with what is pending
  rcases extend_eq (w := w) pending line with ⟨hnil, rfl⟩ | happend
  · rw [hnil]
    cases recordEnded line <;> rfl
  · have hne : (pending ++ [line]).isEmpty = false := by simp
    have hline : Readable w line := hread line (by rw [happend]; simp)
    rw [happend, hne]
    -- The comment of the line is stored in front of the test for its end
    cases hgate : versionGate w line with
    | none =>
      rw [collect_append_none (declared_of_none hgate)]
      cases recordEnded line with
      | none =>
        simp only [stateAt, hne, collect_append_none (declared_of_none hgate)]
        rfl
      | some record => rfl
    | some gate =>
      obtain ⟨name, digits⟩ := gate
      obtain ⟨v, hv⟩ := hline _ hgate
      have hdeclared := declared_of_versionGate hgate hv
      rw [collect_append_some hdeclared]
      dsimp only at hv
      cases recordEnded line with
      | none =>
        simp only [stateAt, hne, Bool.false_eq_true, if_false, hv, collect_append_some hdeclared]
        rfl
      | some record =>
        simp only [Bool.false_eq_true, if_false, hv]
        rfl

/-- A line that is collected can be read, or the scan fails. -/
theorem readable_of_scanLine {state : ScanState}
    (h : scanLine w (stateAt w versions pending) line = .ok state)
    (hne : extend w pending line ≠ []) : Readable w line := by
  rintro ⟨name, digits⟩ hgate
  rw [scanLine] at h
  simp only [stateAt_fields, List.isEmpty_eq_false_iff.mpr hne, hgate, Bool.false_eq_true,
    if_false] at h
  -- `Integer` raises on what is no number, and the scan fails with it
  cases hv : integer digits with
  | ok v => exact ⟨v, rfl⟩
  | error e =>
    simp only [hv] at h
    cases h

variable (w) in
/-- Every line that is collected can be read. -/
def AllReadable (pending : List (List Char)) (marked : List MarkedLine) : Prop :=
  (∀ c ∈ closings w pending marked, ∀ line ∈ c.scanned w, Readable w line) ∧
    ∀ line ∈ trailing w pending marked, Readable w line

theorem AllReadable.cons_some {own : List (List Char)} (hline : recordEnded line = some record) :
    AllReadable w pending ((line, own) :: rest) ↔
      (∀ l ∈ extend w pending line, Readable w l) ∧ AllReadable w [] rest := by
  simp only [AllReadable, closings, trailing, hline, List.forall_mem_cons, and_assoc]
  rfl

theorem AllReadable.cons_none {own : List (List Char)} (hline : recordEnded line = none) :
    AllReadable w pending ((line, own) :: rest) ↔ AllReadable w (extend w pending line) rest := by
  simp only [AllReadable, closings, trailing, hline]

theorem mem_extend {l : List Char} (h : l ∈ pending) : l ∈ extend w pending line := by
  rcases extend_eq (w := w) pending line with ⟨-, rfl⟩ | happend
  · cases h
  · rw [happend]
    exact List.mem_append_left _ h

/-- What is pending is collected in the end. -/
theorem AllReadable.readable_pending (h : AllReadable w pending marked) :
    ∀ l ∈ pending, Readable w l := by
  induction marked generalizing pending with
  | nil => exact h.2
  | cons first rest ih =>
    obtain ⟨line, own⟩ := first
    intro l hl
    cases hline : recordEnded line with
    | some record => exact ((cons_some hline).mp h).1 l (mem_extend hl)
    | none => exact ih ((cons_none hline).mp h) l (mem_extend hl)

/-- The scan of lines that can be read gives every closing's gates to its record. -/
theorem foldlM_scanLine (h : AllReadable w pending marked) :
    (marked.map Prod.fst).foldlM (scanLine w) (stateAt w versions pending) =
      .ok (stateAt w ((closings w pending marked).foldl (commit w) versions)
        (trailing w pending marked)) := by
  -- Induction on the lines, with the versions and what is pending as the scan has them
  induction marked generalizing pending versions with
  | nil => rfl
  | cons first rest ih =>
    obtain ⟨line, own⟩ := first
    rw [List.map_cons, List.foldlM_cons]
    cases hline : recordEnded line with
    | some record =>
      obtain ⟨hread, hrest⟩ := (AllReadable.cons_some hline).mp h
      rw [scanLine_stateAt hread, hline]
      simp only [closings, trailing, hline, List.foldl_cons]
      exact ih hrest
    | none =>
      have hrest := (AllReadable.cons_none hline).mp h
      rw [scanLine_stateAt hrest.readable_pending, hline]
      simp only [closings, trailing, hline]
      exact ih hrest

/-- A scan that does not fail has been able to read all that it has collected. -/
theorem readable_of_foldlM {state : ScanState}
    (h : (marked.map Prod.fst).foldlM (scanLine w) (stateAt w versions pending) = .ok state)
    (hpending : ∀ l ∈ pending, Readable w l) : AllReadable w pending marked := by
  induction marked generalizing pending versions with
  | nil => exact ⟨nofun, hpending⟩
  | cons first rest ih =>
    obtain ⟨line, own⟩ := first
    rw [List.map_cons, List.foldlM_cons] at h
    -- The first line has been scanned, or the whole scan would have failed
    obtain ⟨state', hstep, hrun⟩ : ∃ state', scanLine w (stateAt w versions pending) line =
        .ok state' ∧ (rest.map Prod.fst).foldlM (scanLine w) state' = .ok state := by
      cases hstep : scanLine w (stateAt w versions pending) line with
      | ok state' => exact ⟨state', rfl, by rwa [hstep] at h⟩
      | error e => rw [hstep] at h; cases h
    have hread : ∀ l ∈ extend w pending line, Readable w l := by
      rcases extend_eq (w := w) pending line with ⟨hnil, -⟩ | happend
      · rw [hnil]
        nofun
      · have hne : extend w pending line ≠ [] := by rw [happend]; simp
        rw [happend, List.forall_mem_append]
        exact ⟨hpending, by simpa using readable_of_scanLine hstep hne⟩
    rw [scanLine_stateAt hread] at hstep
    cases hline : recordEnded line with
    | some record =>
      rw [hline] at hstep
      cases hstep
      exact (AllReadable.cons_some hline).mpr ⟨hread, ih hrun nofun⟩
    | none =>
      rw [hline] at hstep
      cases hstep
      exact (AllReadable.cons_none hline).mpr (ih hrun hread)

theorem Item.map_marked (item : Item) : item.marked.map Prod.fst = item.lines := by
  cases item with
  | other line => rfl
  | definition d => simp [marked, lines, Function.comp_def]

theorem Header.map_marked (h : Header) : h.marked.map Prod.fst = eachLine h.source := by
  rw [h.layout, marked, List.map_flatMap]
  simp only [Item.map_marked]

/-- The scan of one source. -/
theorem scanSource_header (h : Header) (hread : AllReadable w [] h.marked) :
    scanSource w versions h.source = .ok ((h.closings w).foldl (commit w) versions) := by
  have hscan : (h.marked.map Prod.fst).foldlM (scanLine w) { versions } = .ok
      (stateAt w ((h.closings w).foldl (commit w) versions) (h.trailing w)) :=
    foldlM_scanLine hread
  rw [h.map_marked] at hscan
  rw [scanSource]
  exact congrArg (fun r : Except String ScanState => r.bind fun s => .ok s.versions) hscan

theorem readable_of_scanSource {h : Header} {versions' : Versions}
    (hscan : scanSource w versions h.source = .ok versions') : AllReadable w [] h.marked := by
  rw [scanSource, ← h.map_marked] at hscan
  cases hrun : (h.marked.map Prod.fst).foldlM (scanLine w) { versions } with
  | ok state => exact readable_of_foldlM hrun nofun
  | error e => rw [hrun] at hscan; cases hscan

/-- The scan of sources in which all that is collected can be read. -/
theorem scanFieldVersions_eq_ok {headers : List Header}
    (h : ∀ header ∈ headers, AllReadable w [] header.marked) :
    scanFieldVersions w (headers.map Header.source) =
      .ok ((headers.flatMap (Header.closings w)).foldl (commit w) []) := by
  suffices ∀ versions, (headers.map Header.source).foldlM (scanSource w) versions =
      .ok ((headers.flatMap (Header.closings w)).foldl (commit w) versions) from this []
  induction headers with
  | nil => exact fun _ => rfl
  | cons header headers ih =>
    intro versions
    rw [List.forall_mem_cons] at h
    rw [List.map_cons, List.foldlM_cons, scanSource_header header h.1, List.flatMap_cons,
      List.foldl_append]
    exact ih h.2 _

theorem readable_of_scanFieldVersions {headers : List Header}
    (h : scanFieldVersions w (headers.map Header.source) = .ok versions) :
    ∀ header ∈ headers, AllReadable w [] header.marked := by
  suffices ∀ versions₀, (headers.map Header.source).foldlM (scanSource w) versions₀ =
      .ok versions → ∀ header ∈ headers, AllReadable w [] header.marked from this [] h
  clear h
  induction headers with
  | nil => exact fun _ _ => nofun
  | cons header headers ih =>
    intro versions₀ hscan
    rw [List.map_cons, List.foldlM_cons] at hscan
    cases hsource : scanSource w versions₀ header.source with
    | error e => rw [hsource] at hscan; cases hscan
    | ok versions₁ =>
      rw [hsource] at hscan
      have hfirst := readable_of_scanSource hsource
      exact List.forall_mem_cons.mpr ⟨hfirst, ih versions₁ hscan⟩

/-! ## Looking up a field -/

theorem lookup_map_record (fields : List (String × Nat)) (R : String) :
    (fields.map fun gate => ((record, gate.1), gate.2)).lookup (R, field) =
      if R = record then fields.lookup field else none := by
  induction fields with
  | nil => simp
  | cons gate fields ih =>
    obtain ⟨name, n⟩ := gate
    rw [List.map_cons, List.lookup_cons, List.lookup_cons, ih]
    have hkey : ((R, field) == (record, name)) = (R == record && field == name) := rfl
    rw [hkey]
    -- The keys of another record are no keys of this one
    by_cases hR : R = record
    · simp [hR]
    · simp [hR, beq_eq_false_iff_ne.mpr hR]

theorem storeFields_eq (fields : List (String × Nat)) : storeFields record fields versions =
    (fields.map fun gate => ((record, gate.1), gate.2)).foldl
      (fun entries new => Hash.store new.1 new.2 entries) versions := by
  rw [List.foldl_map]
  rfl

/-- What a closing makes of the version of a field. -/
theorem lookup_commit (c : Closing) :
    (commit w versions c).lookup (record, field) =
      if record = c.record then
        (lastVersion w (c.scanned w) field).or (versions.lookup (record, field))
      else versions.lookup (record, field) := by
  -- The keys that are stored are different, since those that were collected are
  have hnodup : (((collect w (c.scanned w)).map fun gate =>
      ((c.record, gate.1), gate.2)).map Prod.fst).Nodup := by
    have hinj : Function.Injective fun name : String => (c.record, name) :=
      fun a b hab => (Prod.mk.inj hab).2
    have := (nodup_collect (w := w) (c.scanned w)).map hinj
    rwa [List.map_map] at this ⊢
  rw [commit, storeFields_eq, Hash.lookup_foldl_store, Hash.lookup_reverse hnodup,
    lookup_map_record, lookup_collect]
  split_ifs <;> rfl

/-- A version that is found comes from a closing of its record. -/
theorem exists_of_lookup_foldl {cs : List Closing}
    (h : (cs.foldl (commit w) versions).lookup (record, field) = some v) :
    (∃ c ∈ cs, c.record = record ∧ lastVersion w (c.scanned w) field = some v) ∨
      versions.lookup (record, field) = some v := by
  induction cs generalizing versions with
  | nil => exact .inr h
  | cons c cs ih =>
    -- The last closing of the record that has the field decides
    rcases ih h with ⟨d, hd, hrecord, hv⟩ | hfirst
    · exact .inl ⟨d, List.mem_cons_of_mem _ hd, hrecord, hv⟩
    · rw [lookup_commit] at hfirst
      split_ifs at hfirst with hrecord
      · rcases Option.or_eq_some_iff.mp hfirst with hv | ⟨-, hv⟩
        · exact .inl ⟨c, List.mem_cons_self, hrecord.symm, hv⟩
        · exact .inr hv
      · exact .inr hfirst

/-- If all the closings of a record that have a version for the field have the same, it is
    found. -/
theorem lookup_foldl_of_unique {cs : List Closing}
    (hunique : ∀ c ∈ cs, c.record = record →
      ∀ n, lastVersion w (c.scanned w) field = some n → n = v)
    (hexists : (∃ c ∈ cs, c.record = record ∧ lastVersion w (c.scanned w) field = some v) ∨
      versions.lookup (record, field) = some v) :
    (cs.foldl (commit w) versions).lookup (record, field) = some v := by
  induction cs generalizing versions with
  | nil => simpa using hexists
  | cons c cs ih =>
    rw [List.forall_mem_cons] at hunique
    refine ih hunique.2 ?_
    rcases hexists with ⟨d, hd, hrecord, hv⟩ | hv
    · -- The versions that are found are either those of the first closing or older ones
      rcases List.mem_cons.mp hd with rfl | hd
      · refine .inr ?_
        rw [lookup_commit, if_pos hrecord.symm, hv, Option.some_or]
      · exact .inl ⟨d, hd, hrecord, hv⟩
    · refine .inr ?_
      rw [lookup_commit]
      split_ifs with hrecord
      · cases hlast : lastVersion w (c.scanned w) field with
        | none => rw [Option.none_or, hv]
        | some n => rw [Option.some_or, hunique.1 hrecord.symm n hlast]
      · exact hv

/-! ## Attribution -/

variable (w) in
/-- The scan succeeds, and gives every record the versions of its own definition. -/
def VersionsAttributed (headers : List Header) : Prop :=
  ∃ versions, scanFieldVersions w (headers.map Header.source) = .ok versions ∧
    Attributed w headers versions

/-- No record is defined twice. -/
def DefinedOnce (headers : List Header) : Prop :=
  (headers.flatMap Header.definitions).Pairwise fun d e =>
    IsRecordName d.closing.name.toList → d.closing.name ≠ e.closing.name

variable (w) in
/-- No two lines close the same `es_..._t`. -/
def ClosedOnce (headers : List Header) : Prop :=
  ((headers.flatMap (Header.closings w)).map Closing.record).Nodup

variable {headers : List Header}

theorem DefinedOnce.eq (h : DefinedOnce headers) {d e : Definition}
    (hd : d ∈ headers.flatMap Header.definitions) (he : e ∈ headers.flatMap Header.definitions)
    (hname : IsRecordName d.closing.name.toList) (heq : d.closing.name = e.closing.name) :
    d = e := by
  have hsymm : Std.Symm fun d e : Definition =>
      IsRecordName d.closing.name.toList → d.closing.name ≠ e.closing.name :=
    ⟨fun a b hab hb hba => hab (hba ▸ hb) hba.symm⟩
  by_contra hne
  exact List.Pairwise.forall h hd he hne hname heq

/-- A closing with a version of its own closes a definition. -/
theorem closes_of_lastVersion {c : Closing} (hc : c ∈ headers.flatMap (Header.closings w))
    (hv : lastVersion w c.own field = some v) :
    ∃ header ∈ headers, ∃ d ∈ header.definitions, c.Closes d := by
  obtain ⟨header, hheader, hc⟩ := List.mem_flatMap.mp hc
  rcases (Header.closing hc).2 with hown | ⟨d, hd, hcloses⟩
  · rw [hown] at hv
    cases hv
  · exact ⟨header, hheader, d, hd, hcloses⟩

theorem clean_iff_forall (header : Header) : header.Clean w ↔ AllReadable w [] header.marked ∧
    ∀ c ∈ header.closings w, ∀ field,
      lastVersion w (c.scanned w) field = lastVersion w c.own field := by
  constructor
  · intro h
    exact ⟨⟨h.readable, h.trailing_readable⟩, fun c hc =>
      (Closing.clean_iff (Header.closing hc).1).mp (h.clean c hc)⟩
  · rintro ⟨⟨hread, htrailing⟩, hall⟩
    exact ⟨hread, htrailing, fun c hc =>
      (Closing.clean_iff (Header.closing hc).1).mpr (hall c hc)⟩

/-- Clean headers give every record its own versions, if no two definitions compete for one. -/
theorem attributed_of_clean
    (hunique : ∀ c ∈ headers.flatMap (Header.closings w),
      ∀ c' ∈ headers.flatMap (Header.closings w), c.record = c'.record →
        ∀ field v v', lastVersion w c.own field = some v →
          lastVersion w c'.own field = some v' → v = v')
    (hclean : ∀ header ∈ headers, header.Clean w) : VersionsAttributed w headers := by
  have hlast : ∀ c ∈ headers.flatMap (Header.closings w), ∀ field,
      lastVersion w (c.scanned w) field = lastVersion w c.own field := by
    intro c hc field
    obtain ⟨header, hheader, hc⟩ := List.mem_flatMap.mp hc
    exact ((clean_iff_forall header).mp (hclean header hheader)).2 c hc field
  refine ⟨_, scanFieldVersions_eq_ok fun header hheader =>
    ((clean_iff_forall header).mp (hclean header hheader)).1, fun record field v => ?_⟩
  constructor
  · intro hv
    -- What is found has been given by a closing with fields of its own, which is a definition
    rcases exists_of_lookup_foldl hv with ⟨c, hc, hrecord, hv⟩ | hnone
    · rw [hlast c hc] at hv
      obtain ⟨header, hheader, d, hd, hcloses⟩ := closes_of_lastVersion hc hv
      rw [hcloses.own] at hv
      rw [hcloses.record] at hrecord
      exact ⟨header, hheader, d, hd, hrecord, hrecord ▸ hcloses.name, hv⟩
    · cases hnone
  · rintro ⟨header, hheader, d, hd, rfl, hname, hv⟩
    -- The closing of a definition gives its versions, and no other has different ones
    obtain ⟨c, hc, hcloses⟩ := Header.closing_of_definition (w := w) hd hname
    have hmem : c ∈ headers.flatMap (Header.closings w) :=
      List.mem_flatMap.mpr ⟨header, hheader, hc⟩
    rw [← hcloses.own] at hv
    refine lookup_foldl_of_unique ?_ (.inl ⟨c, hmem, hcloses.record, by rw [hlast c hmem, hv]⟩)
    intro c' hc' hrecord n hn
    rw [hlast c' hc'] at hn
    exact hunique c' hc' c hmem (hrecord.trans hcloses.record.symm) field n v hn hv

/-- Headers in which every record is closed once have to be clean. -/
theorem clean_of_attributed (honce : ClosedOnce w headers) (h : VersionsAttributed w headers) :
    ∀ header ∈ headers, header.Clean w := by
  obtain ⟨versions, hscan, hattributed⟩ := h
  have hread := readable_of_scanFieldVersions hscan
  rw [scanFieldVersions_eq_ok hread] at hscan
  cases hscan
  have hsame : ∀ c ∈ headers.flatMap (Header.closings w),
      ∀ c' ∈ headers.flatMap (Header.closings w), c.record = c'.record → c = c' :=
    fun c hc c' hc' heq => List.inj_on_of_nodup_map honce hc hc' heq
  intro header hheader
  refine (clean_iff_forall header).mpr ⟨hread header hheader, fun c hc field => ?_⟩
  have hmem : c ∈ headers.flatMap (Header.closings w) := List.mem_flatMap.mpr ⟨header, hheader, hc⟩
  -- What is found for the record of this closing comes from this closing
  have hfound : ∀ v, ((headers.flatMap (Header.closings w)).foldl (commit w) []).lookup
      (c.record, field) = some v ↔ lastVersion w (c.scanned w) field = some v := by
    intro v
    constructor
    · intro hv
      rcases exists_of_lookup_foldl hv with ⟨c', hc', hrecord, hv⟩ | hnone
      · rwa [← hsame c' hc' c hmem hrecord]
      · cases hnone
    · intro hv
      refine lookup_foldl_of_unique ?_ (.inl ⟨c, hmem, rfl, hv⟩)
      intro c' hc' hrecord n hn
      rw [hsame c' hc' c hmem hrecord, hv] at hn
      exact (Option.some.inj hn).symm
  refine Option.ext fun v => ?_
  rw [← hfound v, hattributed]
  constructor
  · rintro ⟨header', hheader', d, hd, hrecord, hname, hv⟩
    -- The definition has a closing of its own, which has to be this one
    obtain ⟨c', hc', hcloses⟩ := Header.closing_of_definition (w := w) hd (hrecord ▸ hname)
    have heq := hsame c' (List.mem_flatMap.mpr ⟨header', hheader', hc'⟩) c hmem
      (hcloses.record.trans hrecord)
    rwa [← heq, hcloses.own]
  · intro hv
    obtain ⟨header', hheader', d, hd, hcloses⟩ := closes_of_lastVersion hmem hv
    exact ⟨header', hheader', d, hd, hcloses.record.symm, hcloses.record ▸ hcloses.name,
      hcloses.own ▸ hv⟩

/-- Of headers that define no record twice, the scan gives every record exactly the versions that
    its own definition declares if every header is clean: if all that is collected can be read,
    and between the first opening line behind one closed `es_..._t` and the next one the fields
    with versions are those of the definition that is closed. If no two lines close the same
    `es_..._t`, it does so only then. -/
theorem scanFieldVersions_attributed_iff (w : WordClass) (headers : List Header) :
    (DefinedOnce headers → (∀ header ∈ headers, header.Clean w) → VersionsAttributed w headers) ∧
    (ClosedOnce w headers →
      (VersionsAttributed w headers ↔ ∀ header ∈ headers, header.Clean w)) := by
  constructor
  · intro honce
    -- Two closings that compete for a record are closings of the same definition
    refine attributed_of_clean fun c hc c' hc' hrecord field v v' hv hv' => ?_
    obtain ⟨header, hheader, d, hd, hcloses⟩ := closes_of_lastVersion hc hv
    obtain ⟨header', hheader', e, he, hcloses'⟩ := closes_of_lastVersion hc' hv'
    rw [hcloses.record, hcloses'.record] at hrecord
    have hde : d = e := honce.eq (List.mem_flatMap.mpr ⟨header, hheader, hd⟩)
      (List.mem_flatMap.mpr ⟨header', hheader', he⟩) hcloses.name hrecord
    rw [hcloses.own, hde] at hv
    rw [hcloses'.own, hv] at hv'
    exact Option.some.inj hv'
  · intro honce
    -- Here a record has one closing only
    refine ⟨clean_of_attributed honce,
      attributed_of_clean fun c hc c' hc' hrecord field v v' hv hv' => ?_⟩
    rw [List.inj_on_of_nodup_map honce hc hc' hrecord, hv'] at hv
    exact (Option.some.inj hv).symm

/-! ## Headers of records only -/

/-- Lines in a definition that end no record are all pending. -/
theorem stretch_fields (pending lines : List (List Char)) (rest : List MarkedLine)
    (hne : pending ≠ []) (hnone : ∀ line ∈ lines, recordEnded line = none) :
    closings w pending (lines.map (·, []) ++ rest) = closings w (pending ++ lines) rest ∧
      trailing w pending (lines.map (·, []) ++ rest) = trailing w (pending ++ lines) rest := by
  induction lines generalizing pending with
  | nil => rw [List.append_nil]; exact ⟨rfl, rfl⟩
  | cons line lines ih =>
    rw [List.forall_mem_cons] at hnone
    have hextend : extend w pending line = pending ++ [line] :=
      (extend_eq pending line).resolve_left fun h => hne h.2
    have := ih (pending ++ [line]) (by simp) hnone.2
    rw [List.append_assoc, List.singleton_append] at this
    rw [List.map_cons, List.cons_append, closings, trailing, hnone.1]
    simp only [hextend]
    exact this

variable (w) in
/-- The items of a header that defines nothing but records: the definitions have their ends where
    the scan sees them, and nothing else begins one. -/
def Item.Plain : Item → Prop
  | .other line => opens w line = false
  | .definition d => IsRecordName d.closing.name.toList ∧ versionGate w d.closing.text = none ∧
    ∀ line ∈ d.fieldLines, recordEnded line = none ∧ Readable w line

theorem stretch_item {item : Item} (hplain : item.Plain w) (rest : List MarkedLine) :
    trailing w [] (item.marked ++ rest) = trailing w [] rest ∧
    ∃ these, closings w [] (item.marked ++ rest) = these ++ closings w [] rest ∧
      ∀ c ∈ these, c.pending = c.own ∧ c.gate w = none ∧ ∀ line ∈ c.scanned w, Readable w line := by
  cases item with
  | other line =>
    -- Another line starts nothing, so nothing is pending behind it
    have hopens : opens w line = false := hplain
    have hextend : extend w [] line = [] := by simp [extend, hopens]
    rw [Item.marked, List.singleton_append, trailing, closings]
    cases hline : recordEnded line with
    | none => exact ⟨by simp only [hextend], [], by simp only [hextend]; rfl, nofun⟩
    | some record =>
      refine ⟨rfl, [⟨[], line, record, []⟩], rfl, ?_⟩
      intro c hc
      obtain rfl := List.mem_singleton.mp hc
      have hscanned : Closing.scanned w ⟨[], line, record, []⟩ = [] := hextend
      exact ⟨rfl, by simp [Closing.gate, hscanned], by rw [hscanned]; nofun⟩
  | definition d =>
    obtain ⟨hname, hclosing, hfields⟩ := hplain
    have hopens : extend w [] d.opening.text = [d.opening.text] := by
      simp [extend, d.opening.opens w]
    have hopening := (hfields _ List.mem_cons_self).1
    -- The opening line makes the scan collect, and the other lines follow
    obtain ⟨hclosings, htrailing⟩ := stretch_fields (w := w) [d.opening.text] d.body
      ((d.closing.text, d.fieldLines) :: rest) (by simp)
      fun line hline => (hfields line (List.mem_cons_of_mem _ hline)).1
    have hmarked : (Item.definition d).marked ++ rest = (d.opening.text, []) ::
        (d.body.map (·, []) ++ (d.closing.text, d.fieldLines) :: rest) := by
      simp [Item.marked, Definition.fieldLines]
    rw [hmarked, trailing, closings, hopening]
    simp only [hopens]
    rw [hclosings, htrailing, trailing, closings, ClosingLine.recordEnded_eq_some hname]
    refine ⟨rfl, [⟨d.fieldLines, d.closing.text, d.closing.name, d.fieldLines⟩], rfl, ?_⟩
    intro c hc
    obtain rfl := List.mem_singleton.mp hc
    refine ⟨rfl, ?_, ?_⟩
    · -- A closing line without a comment has no gate
      rw [Closing.gate]
      split_ifs
      · rfl
      · exact declared_of_none hclosing
    · intro line hline
      rcases extend_eq (w := w) d.fieldLines d.closing.text with ⟨hnil, -⟩ | happend
      · rw [Closing.scanned, hnil] at hline
        cases hline
      · rw [Closing.scanned, happend] at hline
        rcases List.mem_append.mp hline with hline | hline
        · exact (hfields line hline).2
        · obtain rfl := List.mem_singleton.mp hline
          intro gate hgate
          rw [hclosing] at hgate
          cases hgate

/-- A header that defines nothing but records is clean. -/
theorem Header.clean_of_records {h : Header} (hplain : ∀ item ∈ h.items, item.Plain w) :
    h.Clean w := by
  suffices Codegen.trailing w [] (h.items.flatMap Item.marked) = [] ∧
      ∀ c ∈ Codegen.closings w [] (h.items.flatMap Item.marked),
        c.pending = c.own ∧ c.gate w = none ∧ ∀ line ∈ c.scanned w, Readable w line by
    obtain ⟨htrailing, hall⟩ := this
    refine ⟨fun c hc => (hall c hc).2.2, ?_, fun c hc => ?_⟩
    · have : h.trailing w = [] := htrailing
      rw [this]
      nofun
    · obtain ⟨hown, hgate, -⟩ := hall c hc
      exact ⟨fun field _ => by rw [hown], fun field v hv => by rw [hgate] at hv; cases hv⟩
  generalize h.items = items at hplain
  induction items with
  | nil => exact ⟨rfl, nofun⟩
  | cons item items ih =>
    rw [List.forall_mem_cons] at hplain
    obtain ⟨htrailing, these, hclosings, hthese⟩ :=
      stretch_item hplain.1 (items.flatMap Item.marked)
    obtain ⟨ihtrailing, ihall⟩ := ih hplain.2
    rw [List.flatMap_cons, htrailing, hclosings]
    exact ⟨ihtrailing, List.forall_mem_append.mpr ⟨hthese, ihall⟩⟩

/-! ## A gate for the next record -/

/-- `typedef struct {` -/
def anonymousStruct : OpeningLine where
  indent := []
  gap := [' ']
  tag := none
  space := [' ']
  rest := ['\n']
  indent_space := isSpace_nil
  gap_space := isGap_blank
  tag_identifier := nofun
  space_space := isSpace_blank

/-- `} foo_t;` -/
def closeFoo : ClosingLine where
  indent := []
  gap := [' ']
  name := "foo_t"
  space := []
  rest := ['\n']
  indent_space := isSpace_nil
  gap_space := isSpace_blank
  name_chars := ⟨by decide, List.all_eq_true.mp rfl⟩
  space_space := isSpace_nil

/-- `} es_bar_t;` -/
def closeBar : ClosingLine where
  indent := []
  gap := [' ']
  name := "es_bar_t"
  space := []
  rest := ['\n']
  indent_space := isSpace_nil
  gap_space := isSpace_blank
  name_chars := ⟨by decide, List.all_eq_true.mp rfl⟩
  space_space := isSpace_nil

/-- `typedef struct {`, a field with a version comment, `} foo_t;` -/
def foo : Definition := ⟨anonymousStruct, ["\tint a; // msg version >= 2\n".toList], closeFoo⟩

/-- `typedef struct {`, `} es_bar_t;` -/
def bar : Definition := ⟨anonymousStruct, [], closeBar⟩

/-- A structure with a gate and another name, and a record without gates behind it. -/
def leakingHeader : Header where
  source := ["typedef struct \x7b\n", "\tint a; // msg version >= 2\n", "\x7d foo_t;\n",
    "typedef struct \x7b\n", "\x7d es_bar_t;\n"].flatMap String.toList
  items := [.definition foo, .definition bar]
  layout := by decide

theorem leakingHeader_definitions : leakingHeader.definitions = [foo, bar] := rfl

/-- The gate of the first structure is given to the record behind it. -/
theorem leakingHeader_not_attributed :
    DefinedOnce [leakingHeader] ∧ ¬ VersionsAttributed asciiWords [leakingHeader] := by
  have hname : foo.closing.name ≠ bar.closing.name := by decide
  constructor
  · rw [DefinedOnce, List.flatMap_singleton, leakingHeader_definitions]
    simp [hname]
  · rintro ⟨versions, hscan, hattributed⟩
    have hrun : scanFieldVersions asciiWords [leakingHeader.source] =
        .ok [(("es_bar_t", "a"), 2)] := by decide +kernel
    rw [List.map_singleton, hrun] at hscan
    cases hscan
    -- The version would have to be in the definition of `es_bar_t`, which declares none
    obtain ⟨header, hheader, d, hd, hrecord, -, hv⟩ :=
      (hattributed "es_bar_t" "a" 2).mp (by decide)
    rw [List.mem_singleton.mp hheader, leakingHeader_definitions] at hd
    have hnone : lastVersion asciiWords bar.fieldLines "a" = none := by decide +kernel
    rcases List.mem_cons.mp hd with rfl | hd
    · exact hname hrecord
    · rw [List.mem_singleton.mp hd, hnone] at hv
      cases hv

/-- `} es_foo_t;` -/
def closeEsFoo : ClosingLine where
  indent := []
  gap := [' ']
  name := "es_foo_t"
  space := []
  rest := ['\n']
  indent_space := isSpace_nil
  gap_space := isSpace_blank
  name_chars := ⟨by decide, List.all_eq_true.mp rfl⟩
  space_space := isSpace_nil

/-- The field `a` is in `es_foo_t` since version 2. -/
def gatedFoo : Definition :=
  ⟨anonymousStruct, ["\tint a; // msg version >= 2\n".toList], closeEsFoo⟩

/-- It is in `es_bar_t` since version 3, behind a field without a gate. -/
def gatedBar : Definition :=
  ⟨anonymousStruct, ["\tint b;\n".toList, "\tint a; // msg version >= 3\n".toList], closeBar⟩

/-- Two records with gates. -/
def gatedHeader : Header where
  source := ["typedef struct \x7b\n", "\tint a; // msg version >= 2\n", "\x7d es_foo_t;\n",
    "typedef struct \x7b\n", "\tint b;\n", "\tint a; // msg version >= 3\n",
    "\x7d es_bar_t;\n"].flatMap String.toList
  items := [.definition gatedFoo, .definition gatedBar]
  layout := by decide +kernel

theorem readable_of_gate {line : List Char} {gate : Option (String × List Char)}
    (h : versionGate w line = gate) (hgate : ∀ found ∈ gate, ∃ v, integer found.2 = .ok v) :
    Readable w line := by
  intro found hfound
  exact hgate found (h ▸ hfound)

theorem gatedFoo_plain : (Item.definition gatedFoo).Plain asciiWords := by
  refine ⟨⟨"foo".toList, by decide, List.all_eq_true.mp rfl, by decide⟩, by decide +kernel, ?_⟩
  intro line hline
  rcases List.mem_cons.mp hline with rfl | hline
  · have hnone : versionGate asciiWords anonymousStruct.text = none := by decide +kernel
    exact ⟨by decide +kernel, readable_of_gate hnone nofun⟩
  · obtain rfl := List.mem_singleton.mp hline
    have hgate : versionGate asciiWords "\tint a; // msg version >= 2\n".toList =
        some ("a", ['2']) := by decide +kernel
    refine ⟨by decide +kernel, readable_of_gate hgate ?_⟩
    intro found hfound
    obtain rfl := Option.some.inj hfound
    exact ⟨2, rfl⟩

theorem gatedBar_plain : (Item.definition gatedBar).Plain asciiWords := by
  refine ⟨⟨"bar".toList, by decide, List.all_eq_true.mp rfl, by decide⟩, by decide +kernel, ?_⟩
  intro line hline
  rcases List.mem_cons.mp hline with rfl | hline
  · have hnone : versionGate asciiWords anonymousStruct.text = none := by decide +kernel
    exact ⟨by decide +kernel, readable_of_gate hnone nofun⟩
  rcases List.mem_cons.mp hline with rfl | hline
  · have hnone : versionGate asciiWords "\tint b;\n".toList = none := by decide +kernel
    exact ⟨by decide +kernel, readable_of_gate hnone nofun⟩
  · obtain rfl := List.mem_singleton.mp hline
    have hgate : versionGate asciiWords "\tint a; // msg version >= 3\n".toList =
        some ("a", ['3']) := by decide +kernel
    refine ⟨by decide +kernel, readable_of_gate hgate ?_⟩
    intro found hfound
    obtain rfl := Option.some.inj hfound
    exact ⟨3, rfl⟩

/-- Two fields of one name keep the gates of their records. -/
theorem gatedHeader_attributed : VersionsAttributed asciiWords [gatedHeader] := by
  refine (scanFieldVersions_attributed_iff asciiWords [gatedHeader]).1 ?_ ?_
  · have hname : gatedFoo.closing.name ≠ gatedBar.closing.name := by decide
    rw [DefinedOnce, List.flatMap_singleton,
      show gatedHeader.definitions = [gatedFoo, gatedBar] from rfl]
    simp [hname]
  · intro header hheader
    obtain rfl := List.mem_singleton.mp hheader
    apply Header.clean_of_records
    intro item hitem
    rcases List.mem_cons.mp hitem with rfl | hitem
    · exact gatedFoo_plain
    · obtain rfl := List.mem_singleton.mp hitem
      exact gatedBar_plain

end EndpointSecurity.Codegen
