import EndpointSecurity.ForStd.ExceptList
import EndpointSecurity.ForStd.List
import EndpointSecurity.Spec.Availability

/-!
# The tables of the events agree (`codegen/ir.rb`, `emit_ruby.rb`, `emit_c.rb`)

Ruby names an event by a table and C finds its data by another. Both are written from one list,
but the Ruby table is turned around by a hash, where the later of two entries stays, and the C
table is searched from the start, where the earlier one is found. Whatever header the list comes
from, `message.event_type` and `message.event` are of one event when the values of the constants
differ, and the symbols differ because of where the names have been found.

## Key results

- `explicitValue_eq_some`, `explicitValue_eq_none`: `explicit_value` reads the values of the AST
- `foldlM_scanConstant`: the events are the constants, numbered as C numbers them
- `toLower_injective`: names that the header scan has found keep apart in lower case
- `event_tables_agree`: a value and its symbol are found from each other, and a message of the
  event has the data of the symbol's member
-/

namespace EndpointSecurity.Codegen

open Regex

/-- The constants of an enumeration -/
def constants (enum : Node) : List Node := enum.inner.filter isConstantDecl

/-- The AST gives the constant a value: `text` is the numeral of the first node below it that has
    one, level by level. clang writes it as the value of the constant's initializer. -/
def HasValue (node : Node) (text : String) : Prop :=
  ∃ before initializer after, RoseTree.queueWalk node.inner = before ++ initializer :: after ∧
    (∀ other ∈ before, other.label.value = none) ∧ initializer.label.value = some text

/-- The AST gives the constant no value. -/
def HasNoValue (node : Node) : Prop :=
  ∀ below ∈ RoseTree.preorders node.inner, below.label.value = none

/-- The names of the constants and the values that C gives them, behind one with `value`. -/
inductive Numbered : Int → List Node → List (String × Int) → Prop where
  | nil (value : Int) : Numbered value [] []
  | given {value v : Int} {node : Node} {name text : String} {nodes : List Node}
      {pairs : List (String × Int)} :
      node.label.name = some name → HasValue node text → integerValue text = .ok v →
      Numbered v nodes pairs → Numbered value (node :: nodes) ((name, v) :: pairs)
  | next {value : Int} {node : Node} {name : String} {nodes : List Node}
      {pairs : List (String × Int)} :
      node.label.name = some name → HasNoValue node →
      Numbered (value + 1) nodes pairs →
      Numbered value (node :: nodes) ((name, value + 1) :: pairs)

/-- The value of a constant is the one in its first child, if that has one. -/
theorem HasValue.of_head {node child : Node} {rest : List Node} {text : String}
    (hinner : node.inner = child :: rest) (htext : child.label.value = some text) :
    HasValue node text := by
  rw [HasValue, hinner, RoseTree.queueWalk]
  exact ⟨[], child, _, rfl, fun _ hmem => absurd hmem List.not_mem_nil, htext⟩

/-- `explicit_value` reads the values of the AST. -/
theorem explicitValue_eq_some {node : Node} {v : Int} : explicitValue node = .ok (some v) ↔
    ∃ text, HasValue node text ∧ integerValue text = .ok v := by
  unfold explicitValue HasValue
  constructor
  · intro h
    split at h
    · next text hfind =>
      obtain ⟨v', hv', hsome⟩ := Except.map_eq_ok.mp h
      obtain rfl := Option.some.inj hsome
      exact ⟨text, RoseTree.queueFind_eq_some_iff.mp hfind, hv'⟩
    · cases h
  · rintro ⟨text, hvalue, hv⟩
    rw [RoseTree.queueFind_eq_some_iff.mpr hvalue]
    show (integerValue text).map some = _
    rw [hv]
    rfl

theorem explicitValue_eq_none {node : Node} :
    explicitValue node = .ok none ↔ HasNoValue node := by
  unfold explicitValue HasNoValue
  rw [← RoseTree.queueFind_eq_none_iff]
  constructor
  · intro h
    split at h
    · obtain ⟨_, -, hnone⟩ := Except.map_eq_ok.mp h
      cases hnone
    · assumption
  · intro h
    rw [h]

/-! ### Numerals -/

/-- A numeral has no zero in front. -/
theorem toDigits_head {n : Nat} (hn : 0 < n) {digits : List Char} :
    Nat.toDigits 10 n ≠ '0' :: digits := by
  induction n using Nat.strong_induction_on generalizing digits with
  | _ n ih =>
    intro h
    rw [Nat.toDigits_eq_if (by decide)] at h
    split at h
    · obtain ⟨hzero, -⟩ := List.cons.inj h
      exact hn.ne' (Nat.digitChar_eq_zero.mp hzero)
    · cases hhigh : Nat.toDigits 10 (n / 10) with
      | nil => exact Nat.toDigits_ne_nil hhigh
      | cons c rest =>
        rw [hhigh, List.cons_append] at h
        obtain ⟨rfl, -⟩ := List.cons.inj h
        exact ih (n / 10) (by omega) (by omega) hhigh

theorem integer_toDigits (n : Nat) : integer (Nat.toDigits 10 n) = .ok n := by
  have hvalue : ofDigits 10 (Nat.toDigits 10 n) = n := Nat.ofDigitChars_ten_toDigits
  rw [integer.eq_def]
  split
  · next digit rest h =>
    cases n with
    | zero => simp at h
    | succ n => exact absurd h (toDigits_head n.succ_pos)
  · rw [hvalue]

/-- The numeral that clang writes for a number is read as the number. -/
theorem integerValue_toString (v : Int) : integerValue (toString v) = .ok v := by
  have hdigits (n : Nat) :
      (Nat.toDigits 10 n).all Char.isDigit && !(Nat.toDigits 10 n).isEmpty := by
    rw [Bool.and_eq_true, List.all_eq_true]
    refine ⟨fun c hc => Nat.isDigit_of_mem_toDigits (by decide) (by decide) hc, ?_⟩
    simp
  rw [Int.toString_eq_repr, Int.repr_eq_if, integerValue]
  by_cases hv : 0 ≤ v
  · rw [if_pos hv, Nat.toList_repr]
    split
    · next digits h =>
      have := Nat.isDigit_of_mem_toDigits (by decide) (by decide)
        (h ▸ List.mem_cons_self : '-' ∈ Nat.toDigits 10 v.toNat)
      exact absurd this (by decide)
    · rw [if_pos (hdigits _), integer_toDigits]
      show Except.ok (v.toNat : Int) = _
      rw [Int.toNat_of_nonneg hv]
  · have hlist : ("-" ++ (-v).toNat.repr).toList = '-' :: Nat.toDigits 10 (-v).toNat := by
      rw [String.toList_append, Nat.toList_repr]
      rfl
    rw [if_neg hv]
    simp only [hlist]
    rw [if_pos (hdigits _), integer_toDigits]
    show Except.ok (-((-v).toNat : Int)) = _
    rw [Int.toNat_of_nonneg (by omega), Int.neg_neg]

/-- `explicit_value` reads a number that clang has written. -/
theorem HasValue.explicitValue {node : Node} {v : Int} (h : HasValue node (toString v)) :
    Codegen.explicitValue node = .ok (some v) :=
  explicitValue_eq_some.mpr ⟨_, h, integerValue_toString v⟩

/-! ### Events -/

/-- What `IR.event_types` takes from the name of an event and from the scan of the header. -/
structure Recorded (availability : Availability) (event : Event) : Prop where
  symbol : event.symbol = eventSymbolOf event.name
  minimumOs : ∃ version, availability.lookup event.name = some version ∧
    event.minimumOs = version.getD ""
  reserved : event.reserved = "reserved_".toList.isPrefixOf event.symbol.toList

/-- Name and value of an event -/
def Event.pair (event : Event) : String × Int := (event.name, event.value)

/-! ## The loop over the constants -/

section
variable {availability : Availability} {scan scan' : EventScan} {node : Node} {nodes : List Node}
  {pairs : List (String × Int)} {value : Int}

theorem constantValue_eq_ok {v : Int} : constantValue value node = .ok v ↔
    ∃ e, explicitValue node = .ok e ∧ v = e.getD (value + 1) :=
  Except.map_eq_ok

/-- The value that C gives the first constant is the one that the loops go on with. -/
theorem Numbered.uncons (h : Numbered value (node :: nodes) pairs) :
    ∃ name v rest, node.label.name = some name ∧ constantValue value node = .ok v ∧
      pairs = (name, v) :: rest ∧ Numbered v nodes rest := by
  cases h with
  | given hname hvalue hv hrest =>
    have hexp := explicitValue_eq_some.mpr ⟨_, hvalue, hv⟩
    exact ⟨_, _, _, hname, constantValue_eq_ok.mpr ⟨_, hexp, rfl⟩, rfl, hrest⟩
  | next hname hvalue hrest =>
    have hexp := explicitValue_eq_none.mpr hvalue
    exact ⟨_, _, _, hname, constantValue_eq_ok.mpr ⟨_, hexp, rfl⟩, rfl, hrest⟩

theorem scanConstant_of_not (h : isConstantDecl node = false) :
    scanConstant availability scan node = .ok scan := by
  simp [scanConstant, h, pure, Except.pure]

/-- What a constant does to the loop. -/
theorem scanConstant_cases (hc : isConstantDecl node = true)
    (h : scanConstant availability scan node = .ok scan') :
    constantValue scan.value node = .ok scan'.value ∧
      ((node.label.name = some lastConstant ∧ scan'.last = some scan'.value ∧
        scan'.entries = scan.entries) ∨
      ∃ event, node.label.name = some event.name ∧ event.name ≠ lastConstant ∧
        event.value = scan'.value ∧ Recorded availability event ∧ scan'.last = scan.last ∧
        scan'.entries = scan.entries ++ [event]) := by
  simp only [scanConstant, hc, Bool.not_true, Bool.false_eq_true, if_false] at h
  obtain ⟨v, hv, h⟩ := Except.bind_eq_ok.mp h
  by_cases hlast : node.label.name = some lastConstant
  · rw [if_pos hlast] at h
    cases h
    exact ⟨hv, .inl ⟨hlast, rfl, rfl⟩⟩
  · rw [if_neg hlast] at h
    obtain ⟨name, hname, h⟩ := Except.bind_eq_ok.mp h
    obtain ⟨version, hversion, h⟩ := Except.bind_eq_ok.mp h
    have hnode : node.label.name = some name := by
      unfold constantName at hname
      split at hname
      · next n hn => cases hname; exact hn
      · cases hname
    have hlookup : availability.lookup name = some version := by
      unfold fetchAvailability at hversion
      split at hversion
      · next v hv => cases hversion; exact hv
      · cases hversion
    cases h
    refine ⟨hv, .inr ⟨_, hnode, ?_, rfl, ⟨rfl, ⟨version, hlookup, rfl⟩, rfl⟩, rfl, rfl⟩⟩
    rintro rfl
    exact hlast hnode

/-- The loop gives the events the names and values of the constants, without the last one, and
    the last one's value to `last`. -/
theorem foldlM_scanConstant (hn : Numbered value (nodes.filter isConstantDecl) pairs)
    (hvalue : scan.value = value) (h : nodes.foldlM (scanConstant availability) scan = .ok scan') :
    ∃ events, scan'.entries = scan.entries ++ events ∧
      events.map Event.pair = pairs.filter (·.1 ≠ lastConstant) ∧
      (∀ event ∈ events, Recorded availability event) ∧
      scan'.last = (pairs.reverse.lookup lastConstant).or scan.last := by
  induction nodes generalizing scan value pairs with
  | nil =>
    cases hn
    cases h
    exact ⟨[], by simp⟩
  | cons node nodes ih =>
    rw [List.foldlM_cons] at h
    obtain ⟨mid, hmid, h⟩ := Except.bind_eq_ok.mp h
    cases hc : isConstantDecl node with
    | false =>
      rw [List.filter_cons_of_neg (by simp [hc])] at hn
      rw [scanConstant_of_not hc] at hmid
      cases hmid
      exact ih hn hvalue h
    | true =>
      rw [List.filter_cons_of_pos hc] at hn
      obtain ⟨hv, hcase⟩ := scanConstant_cases hc hmid
      obtain ⟨name, v, rest, hname, hv', rfl, hrest⟩ := hn.uncons
      obtain rfl : mid.value = v := by
        rw [hvalue, hv'] at hv
        exact (Except.ok.inj hv).symm
      obtain ⟨events, hentries, hpairs, hall, hlast⟩ := ih hrest rfl h
      rw [List.reverse_cons, List.lookup_append, Option.or_assoc]
      rcases hcase with ⟨hlname, hl, hsame⟩ | ⟨event, hename, hne, heval, hrec, hl, hsame⟩
      · obtain rfl : lastConstant = name := by simpa [hlname] using hname
        refine ⟨events, by rw [hentries, hsame], ?_, hall, ?_⟩
        · rw [hpairs, List.filter_cons_of_neg (by simp)]
        · rw [hlast, hl]
          simp
      · obtain rfl : event.name = name := by simpa [hename] using hname
        refine ⟨event :: events, ?_, ?_, List.forall_mem_cons.mpr ⟨hrec, hall⟩, ?_⟩
        · rw [hentries, hsame, List.append_assoc, List.singleton_append]
        · rw [List.map_cons, hpairs, List.filter_cons_of_pos (by simpa using hne), Event.pair,
            heval]
        · have hbeq : (lastConstant == event.name) = false := beq_eq_false_iff_ne.mpr hne.symm
          rw [hlast, hl, List.lookup_cons, hbeq]
          simp

end

/-! ## Names and symbols -/

theorem isConstant_lt {c : Char} (h : isConstant c) : c.toNat < 128 := by
  simp only [isConstant, isDecimal, Bool.or_eq_true, Bool.and_eq_true, decide_eq_true_eq,
    beq_iff_eq] at h
  have hZ : 'Z'.toNat = 90 := rfl
  have h9 : '9'.toNat = 57 := rfl
  rcases h with (h | h) | rfl
  · omega
  · omega
  · decide

theorem toUpper_toLower_ofNat : ∀ n < 128, isConstant (Char.ofNat n) →
    (Char.ofNat n).toLower.toUpper = Char.ofNat n := by
  decide

theorem toUpper_toLower {c : Char} (h : isConstant c) : c.toLower.toUpper = c := by
  have hofNat := toUpper_toLower_ofNat c.toNat (isConstant_lt h)
  rw [Char.ofNat_toNat] at hofNat
  exact hofNat h

theorem eventSymbolOf_toList {name : String} {rest : List Char}
    (h : name.toList = "ES_EVENT_TYPE_".toList ++ rest) :
    (eventSymbolOf name).toList = rest.map Char.toLower := by
  have hprefix : "ES_EVENT_TYPE_".toList.isPrefixOf name.toList := by
    rw [List.isPrefixOf_iff_prefix, h]
    exact List.prefix_append _ _
  have hlower : ∀ text : String, text.toLower.toList = text.toList.map Char.toLower :=
    fun _ => String.toList_map
  have hlength : "ES_EVENT_TYPE_".length = "ES_EVENT_TYPE_".toList.length := rfl
  rw [eventSymbolOf, hlower, deletePrefix, if_pos hprefix, String.toList_ofList, h, hlength,
    List.drop_left]

/-- Names that the scan of the header has found keep apart in lower case. -/
theorem toLower_injective {name name' : String} (h : IsEventName name) (h' : IsEventName name')
    (heq : eventSymbolOf name = eventSymbolOf name') : name = name' := by
  obtain ⟨rest, hname, hrest⟩ := h
  obtain ⟨rest', hname', hrest'⟩ := h'
  have hup : ∀ {cs : List Char}, (∀ c ∈ cs, isConstant c) →
      (cs.map Char.toLower).map Char.toUpper = cs := by
    intro cs hcs
    rw [List.map_map]
    exact (List.map_congr_left fun c hc => toUpper_toLower (hcs c hc)).trans (List.map_id cs)
  have hlists : rest = rest' := by
    rw [← hup hrest, ← eventSymbolOf_toList hname, heq, eventSymbolOf_toList hname', hup hrest']
  rw [← String.toList_inj, hname, hname', hlists]

/-! ## What `IR.event_types` gives -/

variable {w : WordClass} {root enum : Node} {source : List Char} {ir : EventTypes}
  {pairs : List (String × Int)}

/-- Success takes the scan, the enumeration and a last constant that counts the events. -/
theorem eventTypes_eq_ok (h : eventTypes w root source = .ok ir) :
    ∃ availability enum scan, scanAvailability w source = .ok availability ∧
      Ast.enumContaining root "ES_EVENT_TYPE_AUTH_EXEC" = .ok enum ∧
      enum.inner.foldlM (scanConstant availability) {} = .ok scan ∧
      scan.last = some ir.last ∧ scan.entries = ir.events ∧ ir.last = ir.events.length := by
  obtain ⟨availability, hav, h⟩ := Except.bind_eq_ok.mp h
  obtain ⟨enum, henum, h⟩ := Except.bind_eq_ok.mp h
  obtain ⟨scan, hscan, h⟩ := Except.bind_eq_ok.mp h
  refine ⟨availability, enum, scan, hav, henum, hscan, ?_⟩
  cases hlast : scan.last with
  | none =>
    simp only [hlast] at h
    cases h
  | some last =>
    simp only [hlast] at h
    split at h
    · next hcount =>
      cases h
      exact ⟨rfl, rfl, hcount⟩
    · cases h

/-- What a name has a version in is the name of an event. -/
theorem isEventName_of_recorded {availability : Availability} {event : Event}
    (h : scanAvailability w source = .ok availability) (hrec : Recorded availability event) :
    IsEventName event.name := by
  obtain ⟨version, hlookup, -⟩ := hrec.minimumOs
  rw [scanAvailability] at h
  split at h
  · cases h
  · cases h
    exact isEventName_of_scanned hlookup

/-- What is known of the events: they are the constants before the last one, and their symbols
    keep apart. -/
structure EventsOf (pairs : List (String × Int)) (ir : EventTypes) : Prop where
  eventPairs : ir.events.map Event.pair = pairs.filter (·.1 ≠ lastConstant)
  last : pairs.reverse.lookup lastConstant = some ir.last
  count : ir.last = ir.events.length
  symbolOf : ∀ event ∈ ir.events, event.symbol = eventSymbolOf event.name
  symbols : (pairs.map Prod.fst).Nodup → (ir.events.map (·.symbol)).Nodup

/-- Success makes events of the constants, with what the scan of the header has found. -/
theorem eventTypes_spec (h : eventTypes w root source = .ok ir)
    (henum : Ast.enumContaining root "ES_EVENT_TYPE_AUTH_EXEC" = .ok enum)
    (hpairs : Numbered (-1) (constants enum) pairs) :
    EventsOf pairs ir ∧ ∃ availability, scanAvailability w source = .ok availability ∧
      ∀ event ∈ ir.events, Recorded availability event := by
  obtain ⟨availability, enum', scan, hav, henum', hscan, hlast, hentries, hcount⟩ :=
    eventTypes_eq_ok h
  obtain rfl : enum = enum' := by
    rw [henum] at henum'
    cases henum'
    rfl
  obtain ⟨events, hevents, hmap, hall, hl⟩ := foldlM_scanConstant hpairs rfl hscan
  obtain rfl : ir.events = events := by rw [← hentries, hevents, List.nil_append]
  rw [hlast, Option.or_none] at hl
  refine ⟨⟨hmap, hl.symm, hcount, fun event he => (hall event he).symbol, fun hnames => ?_⟩,
    availability, hav, hall⟩
  have hnodup : (ir.events.map (·.name)).Nodup := by
    have heq : ir.events.map (·.name) = (ir.events.map Event.pair).map Prod.fst := by
      rw [List.map_map]
      rfl
    rw [heq, hmap]
    exact hnames.sublist (List.filter_sublist.map _)
  -- The symbols are the names in lower case, which are names that the scan has found
  have hsymbols : ir.events.map (·.symbol) = (ir.events.map (·.name)).map eventSymbolOf := by
    rw [List.map_map]
    exact List.map_congr_left fun event he => (hall event he).symbol
  rw [hsymbols]
  refine List.Nodup.map_on ?_ hnodup
  intro name hname name' hname' heq
  obtain ⟨event, he, rfl⟩ := List.mem_map.mp hname
  obtain ⟨event', he', rfl⟩ := List.mem_map.mp hname'
  exact toLower_injective (isEventName_of_recorded hav (hall event he))
    (isEventName_of_recorded hav (hall event' he')) heq

/-! ## The Ruby table -/

section
variable {event : Event}

/-- A hash by the symbols, which keep apart, has an entry for every event. -/
theorem foldl_store_symbol {ν : Type} (h : (ir.events.map (·.symbol)).Nodup) (f : Event → ν) :
    ir.events.foldl (fun entries event => Hash.store event.symbol (f event) entries) [] =
      ir.events.map fun event => (event.symbol, f event) := by
  have hfold := Hash.foldl_store_nil (ir.events.map fun event => (event.symbol, f event))
    (by rwa [List.map_map])
  rwa [List.foldl_map] at hfold

theorem symbolToValue_eq (h : (ir.events.map (·.symbol)).Nodup) :
    ir.symbolToValue = ir.events.map fun event => (event.symbol, event.value) :=
  foldl_store_symbol h (·.value)

theorem valueToSymbol_eq (h : (ir.events.map (·.symbol)).Nodup)
    (hvalues : (ir.events.map (·.value)).Nodup) :
    ir.valueToSymbol = ir.events.map fun event => (event.value, event.symbol) := by
  have hfold := Hash.foldl_store_nil (ir.events.map fun event => (event.value, event.symbol))
    (by rwa [List.map_map])
  rw [List.foldl_map] at hfold
  rw [EventTypes.valueToSymbol, symbolToValue_eq h, List.foldl_map]
  exact hfold

theorem value_eq_some (h : (ir.events.map (·.symbol)).Nodup) {symbol : String} {value : Int} :
    ir.value symbol = some value ↔
      ∃ event ∈ ir.events, event.symbol = symbol ∧ event.value = value := by
  rw [EventTypes.value, symbolToValue_eq h, Hash.lookup_eq_some_iff (by rwa [List.map_map])]
  simp only [List.mem_map, Prod.mk.injEq]

theorem symbol_eq_some (h : (ir.events.map (·.symbol)).Nodup)
    (hvalues : (ir.events.map (·.value)).Nodup) {symbol : String} {value : Int} :
    ir.symbol value = some symbol ↔
      ∃ event ∈ ir.events, event.value = value ∧ event.symbol = symbol := by
  rw [EventTypes.symbol, valueToSymbol_eq h hvalues,
    Hash.lookup_eq_some_iff (by rwa [List.map_map])]
  simp only [List.mem_map, Prod.mk.injEq]

end

/-! ## The last constant -/

/-- Without explicit values the constants count up. -/
theorem numbered_counts {value : Int} {nodes : List Node} (h : Numbered value nodes pairs)
    (himplicit : ∀ node ∈ nodes, HasNoValue node) :
    pairs.map Prod.snd = (List.range pairs.length).map fun i : Nat => value + 1 + (i : Int) := by
  induction h with
  | nil value => rfl
  | given hname hvalue hv _ _ =>
    have hexp := explicitValue_eq_some.mpr ⟨_, hvalue, hv⟩
    rw [explicitValue_eq_none.mpr (himplicit _ List.mem_cons_self)] at hexp
    cases hexp
  | @next value _ _ _ _ hname hexp _ ih =>
    rw [List.map_cons, ih fun node hnode => himplicit node (List.mem_cons_of_mem _ hnode),
      List.length_cons, List.range_succ_eq_map, List.map_cons, List.map_map]
    congr 1
    · simp
    · refine List.map_congr_left fun i _ => ?_
      show value + 1 + 1 + (i : Int) = value + 1 + (i.succ : Int)
      omega

/-- Where the constants count up, the one whose value is the number of events comes last. -/
theorem EventsOf.pairs_eq (hevents : EventsOf pairs ir) (hnames : (pairs.map Prod.fst).Nodup)
    (hcounts : pairs.map Prod.snd = (List.range pairs.length).map fun i : Nat => (i : Int)) :
    pairs = ir.events.map Event.pair ++ [(lastConstant, ir.last)] := by
  have hmem : (lastConstant, ir.last) ∈ pairs := by
    have hlookup := hevents.last
    rw [Hash.lookup_reverse hnames] at hlookup
    exact (Hash.lookup_eq_some_iff hnames).mp hlookup
  obtain ⟨before, after, hsplit⟩ := List.append_of_mem hmem
  have hcount := hevents.count
  have hpairs := hevents.eventPairs
  rw [hsplit] at hpairs hnames hcounts
  -- The names of the others differ from the last constant's
  rw [List.map_append, List.map_cons, List.nodup_append', List.nodup_cons] at hnames
  obtain ⟨-, ⟨hafter, -⟩, hdisjoint⟩ := hnames
  have hne : ∀ pair ∈ before ++ after, pair.1 ≠ lastConstant := by
    intro pair hpair heq
    rcases List.mem_append.mp hpair with hp | hp
    · exact hdisjoint (List.mem_map.mpr ⟨pair, hp, heq⟩) List.mem_cons_self
    · exact hafter (List.mem_map.mpr ⟨pair, hp, heq⟩)
  have hfilter : (before ++ (lastConstant, ir.last) :: after).filter (·.1 ≠ lastConstant) =
      before ++ after := by
    rw [List.filter_append, List.filter_cons_of_neg (by simp), ← List.filter_append,
      List.filter_eq_self]
    exact fun pair hpair => by simpa using hne pair hpair
  rw [hfilter] at hpairs
  -- Its value is its place, and also the number of the others
  have hplace : ir.last = before.length := by
    have hget := congrArg (·[before.length]?) hcounts
    simpa using hget
  have hlength : ir.events.length = before.length + after.length := by
    have hlen := congrArg List.length hpairs
    rwa [List.length_map, List.length_append] at hlen
  have hnil : after = [] := by
    apply List.eq_nil_of_length_eq_zero
    omega
  rw [hsplit, hpairs, hnil, List.append_nil]

theorem EventsOf.nodup_values (hevents : EventsOf pairs ir)
    (hvalues : (pairs.map Prod.snd).Nodup) : (ir.events.map (·.value)).Nodup := by
  have heq : ir.events.map (·.value) = (ir.events.map Event.pair).map Prod.snd := by
    rw [List.map_map]
    rfl
  rw [heq, hevents.eventPairs]
  exact hvalues.sublist (List.filter_sublist.map _)

/-- Where the constants count up, the numbers that have a symbol are those below the last one. -/
theorem EventsOf.symbol_isSome_iff (hevents : EventsOf pairs ir)
    (hnames : (pairs.map Prod.fst).Nodup) (hvalues : (pairs.map Prod.snd).Nodup)
    (hcounts : pairs.map Prod.snd = (List.range pairs.length).map fun i : Nat => (i : Int))
    {value : Int} : (ir.symbol value).isSome ↔ 0 ≤ value ∧ value < ir.last := by
  have hsymbol : (ir.symbol value).isSome ↔ value ∈ (ir.events.map Event.pair).map Prod.snd := by
    rw [Option.isSome_iff_exists, List.map_map, List.mem_map]
    constructor
    · rintro ⟨symbol, hs⟩
      obtain ⟨event, he, hv, -⟩ := (symbol_eq_some (hevents.symbols hnames)
        (hevents.nodup_values hvalues)).mp hs
      exact ⟨event, he, hv⟩
    · rintro ⟨event, he, hv⟩
      exact ⟨event.symbol, (symbol_eq_some (hevents.symbols hnames)
        (hevents.nodup_values hvalues)).mpr ⟨event, he, hv, rfl⟩⟩
  have hpairs := hevents.pairs_eq hnames hcounts
  rw [hpairs, List.map_append, List.length_append, List.length_map, List.length_singleton,
    List.range_succ, List.map_append] at hcounts
  obtain ⟨hrange, -⟩ := List.append_inj' hcounts rfl
  rw [hsymbol, hrange, hevents.count, List.mem_map]
  constructor
  · rintro ⟨i, hi, rfl⟩
    rw [List.mem_range] at hi
    omega
  · rintro ⟨hle, hlt⟩
    exact ⟨value.toNat, List.mem_range.mpr (by omega), by omega⟩

/-! ## The C table -/

/-- The member of `es_events_t` that a message of an event with the symbol has, when the records
    have both the member and its structure. -/
def memberView (layout : Layout) (records : List Record) (mem : FieldReader.Memory)
    (message : EventMessage) (strictVersion : Bool) (symbol : String) :
    Option FieldReader.View := do
  let record ← records.find? (·.name = memberSchema (eventMember symbol))
  let union ← records.find? (·.name = "es_events_t")
  let field ← union.fields.find? (·.name = eventMember symbol)
  let place := message.event + layout.offsetof "es_events_t" field.name
  let address := if field.type.toList.contains '*' then mem.pointer place else place
  if h : address = 0 then none
  else
    some {
      address := address
      schema := emitRecord layout.offsetof record
      messageVersion := message.version
      strictVersion := strictVersion
      address_ne := h }

section
variable {records : List Record} {layout : Layout} {mem : FieldReader.Memory}
  {message : EventMessage} {strictVersion : Bool}

theorem findSchema_emitSchemas (name : String) :
    FieldReader.findSchema (emitSchemas layout.offsetof records) name =
      (records.find? (·.name = name)).map (emitRecord layout.offsetof) := by
  rw [FieldReader.findSchema, emitSchemas, List.find?_map]
  rfl

theorem any_name_eq (name : String) :
    records.any (·.name = name) = (records.find? (·.name = name)).isSome := by
  rw [Bool.eq_iff_iff, List.any_eq_true, List.find?_isSome]

/-- An entry of the table is of the event's value. -/
theorem emitEvent_eventType {event : Event} {entry : EventSchema}
    (h : emitEvent layout records event = some entry) : entry.eventType = event.value := by
  simp only [emitEvent] at h
  split at h
  · cases h
  · obtain ⟨_, -, h⟩ := Option.bind_eq_some_iff.mp h
    obtain ⟨_, -, h⟩ := Option.bind_eq_some_iff.mp h
    cases h
    rfl

theorem emitEvent_eq (hrecords : (records.map (·.name)).Nodup) (event : Event) :
    emitEvent layout records event = (do
      let record ← records.find? (·.name = memberSchema (eventMember event.symbol))
      let union ← records.find? (·.name = "es_events_t")
      let field ← union.fields.find? (·.name = eventMember event.symbol)
      some {
        eventType := event.value
        offset := layout.offsetof "es_events_t" field.name
        schema := record.name
        size := layout.sizeof record.name
        indirect := field.type.toList.contains '*' }) := by
  simp only [emitEvent, any_name_eq, List.find?_key_reverse hrecords]
  cases hrecord : records.find? (·.name = memberSchema (eventMember event.symbol)) with
  | none => rfl
  | some record =>
    have hname : record.name = memberSchema (eventMember event.symbol) := by
      simpa using List.find?_some hrecord
    cases records.find? (·.name = "es_events_t") with
    | none => rfl
    | some union =>
      cases hfield : union.fields.find? (·.name = eventMember event.symbol) with
      | none => simp [hfield]
      | some field =>
        have hmember : field.name = eventMember event.symbol := by
          simpa using List.find?_some hfield
        simp [hfield, hname, hmember]

/-- A message of an event has the member of the event's symbol. -/
theorem eventWrap_eq (hrecords : (records.map (·.name)).Nodup)
    (hvalues : (ir.events.map (·.value)).Nodup) :
    eventWrap (emitSchemas layout.offsetof records) (emitEvents layout records ir) mem message
        strictVersion =
      (ir.events.find? (·.value = message.eventType)).bind fun event =>
        memberView layout records mem message strictVersion event.symbol := by
  have hfind : (emitEvents layout records ir).find? (·.eventType = message.eventType) =
      (ir.events.find? (·.value = message.eventType)).bind (emitEvent layout records) :=
    List.find?_filterMap_key (f := fun event : Event => event.value)
      (fun _ _ => emitEvent_eventType) hvalues message.eventType
  simp only [eventWrap, hfind]
  cases ir.events.find? (·.value = message.eventType) with
  | none => rfl
  | some event =>
    simp only [Option.bind_some, emitEvent_eq hrecords, memberView]
    cases hrecord : records.find? (·.name = memberSchema (eventMember event.symbol)) with
    | none => rfl
    | some record =>
      have hname : record.name = memberSchema (eventMember event.symbol) := by
        simpa using List.find?_some hrecord
      cases records.find? (·.name = "es_events_t") with
      | none => rfl
      | some union =>
        cases hfield : union.fields.find? (·.name = eventMember event.symbol) with
        | none => simp [hfield]
        | some field =>
          simp [hfield, hname, viewWrap, findSchema_emitSchemas, hrecord]

end

/-! ## The tables -/

/-- The constants' values are just those that have symbols. -/
theorem EventsOf.symbol_iff (hevents : EventsOf pairs ir) (hnames : (pairs.map Prod.fst).Nodup)
    (hvalues : (pairs.map Prod.snd).Nodup) {value : Int} {symbol : String} :
    ir.symbol value = some symbol ↔
      ∃ name, (name, value) ∈ pairs ∧ name ≠ lastConstant ∧ symbol = eventSymbolOf name := by
  rw [symbol_eq_some (hevents.symbols hnames) (hevents.nodup_values hvalues)]
  have hmem : ∀ name, (name, value) ∈ ir.events.map Event.pair ↔
      (name, value) ∈ pairs ∧ name ≠ lastConstant := by
    intro name
    rw [hevents.eventPairs, List.mem_filter, decide_eq_true_eq]
  constructor
  · rintro ⟨event, he, rfl, rfl⟩
    obtain ⟨hpair, hne⟩ := (hmem event.name).mp (List.mem_map.mpr ⟨event, he, rfl⟩)
    exact ⟨event.name, hpair, hne, hevents.symbolOf event he⟩
  · rintro ⟨name, hpair, hne, rfl⟩
    obtain ⟨event, he, hev⟩ := List.mem_map.mp ((hmem name).mpr ⟨hpair, hne⟩)
    obtain ⟨rfl, rfl⟩ := Prod.mk.inj hev
    exact ⟨event, he, rfl, hevents.symbolOf event he⟩

/-- The first event with a value is the one that the value's symbol names. -/
theorem find?_value_bind {β : Type} (hsymbols : (ir.events.map (·.symbol)).Nodup)
    (hvalues : (ir.events.map (·.value)).Nodup) (value : Int) (f : String → Option β) :
    ((ir.events.find? (·.value = value)).bind fun event => f event.symbol) =
      (ir.symbol value).bind f := by
  cases hfind : ir.events.find? (·.value = value) with
  | none =>
    have hnone : ir.symbol value = none := by
      rw [Option.eq_none_iff_forall_ne_some]
      intro symbol hs
      obtain ⟨event, he, hv, -⟩ := (symbol_eq_some hsymbols hvalues).mp hs
      exact List.find?_eq_none.mp hfind event he (decide_eq_true hv)
    rw [hnone, Option.bind_none, Option.bind_none]
  | some event =>
    have hv : event.value = value := by simpa using List.find?_some hfind
    have hsome : ir.symbol value = some event.symbol :=
      (symbol_eq_some hsymbols hvalues).mpr ⟨event, List.mem_of_find?_eq_some hfind, hv, rfl⟩
    rw [hsome, Option.bind_some, Option.bind_some]

/-- For whatever header the tables are written from: if its constants have different names and
    values, a value has a symbol iff the symbol has the value, the constants' values are just
    those that have symbols, and `message.event` is the member of the symbol that
    `message.event_type` is, or `nil` where the type has none. Where moreover no constant is given
    a value, the numbers that have symbols are those below `LAST`. -/
theorem event_tables_agree {records : List Record} (layout : Layout) (mem : FieldReader.Memory)
    (h : eventTypes w root source = .ok ir)
    (henum : Ast.enumContaining root "ES_EVENT_TYPE_AUTH_EXEC" = .ok enum)
    (hpairs : Numbered (-1) (constants enum) pairs) (hnames : (pairs.map Prod.fst).Nodup)
    (hvalues : (pairs.map Prod.snd).Nodup) (hrecords : (records.map (·.name)).Nodup) :
    (∀ value symbol, ir.symbol value = some symbol ↔ ir.value symbol = some value) ∧
      (∀ value symbol, ir.symbol value = some symbol ↔
        ∃ name, (name, value) ∈ pairs ∧ name ≠ lastConstant ∧ symbol = eventSymbolOf name) ∧
      (∀ message strictVersion,
        eventWrap (emitSchemas layout.offsetof records) (emitEvents layout records ir) mem message
            strictVersion =
          (ir.symbol message.eventType).bind
            (memberView layout records mem message strictVersion)) ∧
      ((∀ node ∈ constants enum, HasNoValue node) →
        ∀ value, (ir.symbol value).isSome ↔ 0 ≤ value ∧ value < ir.last) := by
  obtain ⟨hevents, -⟩ := eventTypes_spec h henum hpairs
  have hsymbols := hevents.symbols hnames
  have hnodup := hevents.nodup_values hvalues
  refine ⟨?_, ?_, ?_, ?_⟩
  · intro value symbol
    rw [symbol_eq_some hsymbols hnodup, value_eq_some hsymbols]
    exact exists_congr fun event => and_congr_right fun _ => And.comm
  · intro value symbol
    exact hevents.symbol_iff hnames hvalues
  · intro message strictVersion
    rw [eventWrap_eq hrecords hnodup, find?_value_bind hsymbols hnodup]
  · intro himplicit value
    apply hevents.symbol_isSome_iff hnames hvalues
    rw [numbered_counts hpairs himplicit]
    refine List.map_congr_left fun i _ => ?_
    omega

/-! ### A header with two events -/

/-- A constant without a value, as clang writes it. -/
def constantDecl (name : String) : Node :=
  .node { kind := some "EnumConstantDecl", name := some name } []

def twoEvents : Node :=
  .node { kind := some "EnumDecl" }
    [constantDecl "ES_EVENT_TYPE_AUTH_EXEC", constantDecl "ES_EVENT_TYPE_NOTIFY_EXIT",
      constantDecl lastConstant]

def twoEventsRoot : Node := .node { kind := some "TranslationUnitDecl" } [twoEvents]

def twoEventsText : List Char :=
  ["typedef enum \x7b\n", "// Available beginning in macOS 10.15\n", "ES_EVENT_TYPE_AUTH_EXEC,\n",
    "// Available beginning in macOS 13.0\n", "ES_EVENT_TYPE_NOTIFY_EXIT,\n",
    "ES_EVENT_TYPE_LAST\n", "\x7d es_event_type_t;\n"].flatMap String.toList

def twoEventTypes : EventTypes where
  events :=
    [⟨"ES_EVENT_TYPE_AUTH_EXEC", "auth_exec", 0, "10.15", false⟩,
      ⟨"ES_EVENT_TYPE_NOTIFY_EXIT", "notify_exit", 1, "13.0", false⟩]
  last := 2

def twoEventPairs : List (String × Int) :=
  [("ES_EVENT_TYPE_AUTH_EXEC", 0), ("ES_EVENT_TYPE_NOTIFY_EXIT", 1), (lastConstant, 2)]

theorem hasNoValue_constantDecl (name : String) : HasNoValue (constantDecl name) := nofun

theorem twoEvents_numbered : Numbered (-1) (constants twoEvents) twoEventPairs :=
  .next rfl (hasNoValue_constantDecl _) (.next rfl (hasNoValue_constantDecl _)
    (.next rfl (hasNoValue_constantDecl _) (.nil _)))

theorem enumContaining_twoEvents :
    Ast.enumContaining twoEventsRoot "ES_EVENT_TYPE_AUTH_EXEC" = .ok twoEvents := by
  rw [Ast.enumContaining, Ast.walk, RoseTree.stackWalk_eq_preorders]
  rfl

theorem scanConstant_constantDecl {availability : Availability} {scan : EventScan}
    {name : String} : scanConstant availability scan (constantDecl name) =
      if name = lastConstant then
        .ok { scan with value := scan.value + 1, last := some (scan.value + 1) }
      else (fetchAvailability availability name).map fun version =>
        { scan with
          value := scan.value + 1
          entries := scan.entries ++ [⟨name, eventSymbolOf name, scan.value + 1, version.getD "",
            "reserved_".toList.isPrefixOf (eventSymbolOf name).toList⟩] } := by
  have hc : isConstantDecl (constantDecl name) = true := rfl
  have hname : (constantDecl name).label.name = some name := rfl
  have hvalue : constantValue scan.value (constantDecl name) = .ok (scan.value + 1) := by
    rw [constantValue, explicitValue_eq_none.mpr (hasNoValue_constantDecl name)]
    rfl
  simp only [scanConstant, hc, hname, hvalue, constantName, Bool.not_true, Bool.false_eq_true,
    if_false, bind, Except.bind, Option.some.injEq]
  split
  · rfl
  · cases fetchAvailability availability name <;> rfl

theorem eventTypes_twoEvents :
    eventTypes asciiWords twoEventsRoot twoEventsText = .ok twoEventTypes := by
  have hscan : scanAvailability asciiWords twoEventsText = .ok
      [("ES_EVENT_TYPE_AUTH_EXEC", some "10.15"), ("ES_EVENT_TYPE_NOTIFY_EXIT", some "13.0")] := by
    decide +kernel
  have hinner : twoEvents.inner =
      ["ES_EVENT_TYPE_AUTH_EXEC", "ES_EVENT_TYPE_NOTIFY_EXIT", lastConstant].map constantDecl :=
    rfl
  rw [eventTypes, hscan, enumContaining_twoEvents]
  simp only [bind, Except.bind, hinner, List.map_cons, List.map_nil, List.foldlM_cons,
    scanConstant_constantDecl]
  decide +kernel

/-- `es_events_t` with the member of one event, and the structure of that. -/
def twoRecords : List Record :=
  [⟨"es_events_t", [⟨"exit", "es_event_exit_t", 1⟩]⟩, ⟨"es_event_exit_t", [⟨"stat", "int", 1⟩]⟩]

def exitMessage : EventMessage where
  eventType := 1
  version := 1
  event := 0x2000
  event_ne := by decide

/-- A message of the second event is one of its symbol and has the data of its member; the number
    of the last constant has no symbol. -/
theorem event_tables_agree_two :
    twoEventTypes.symbol 1 = some "notify_exit" ∧ twoEventTypes.value "notify_exit" = some 1 ∧
      (eventWrap (emitSchemas (fun _ _ => 0) twoRecords)
        (emitEvents ⟨fun _ _ => 0, fun _ => 4⟩ twoRecords twoEventTypes)
        ⟨fun _ => 0, fun _ => 0, fun _ => false⟩ exitMessage false).map (·.schema.name) =
          some "es_event_exit_t" ∧
      (twoEventTypes.symbol 2).isSome = false := by
  have hrecords : (twoRecords.map (·.name)).Nodup := by decide
  obtain ⟨hinverse, hsymbol, hwrap, hbelow⟩ := event_tables_agree ⟨fun _ _ => 0, fun _ => 4⟩
    ⟨fun _ => 0, fun _ => 0, fun _ => false⟩ eventTypes_twoEvents enumContaining_twoEvents
    twoEvents_numbered (by decide) (by decide) hrecords
  have hexit : twoEventTypes.symbol 1 = some "notify_exit" :=
    (hsymbol 1 "notify_exit").mpr
      ⟨"ES_EVENT_TYPE_NOTIFY_EXIT", by decide, by decide, by decide +kernel⟩
  refine ⟨hexit, (hinverse 1 "notify_exit").mp hexit, ?_, ?_⟩
  · rw [hwrap, show exitMessage.eventType = 1 from rfl, hexit]
    decide +kernel
  · have himplicit : ∀ node ∈ constants twoEvents, HasNoValue node := by
      intro node hnode
      obtain ⟨name, -, rfl⟩ : ∃ name ∈ ["ES_EVENT_TYPE_AUTH_EXEC", "ES_EVENT_TYPE_NOTIFY_EXIT",
          lastConstant], constantDecl name = node := List.mem_map.mp hnode
      exact hasNoValue_constantDecl name
    rw [Bool.eq_false_iff]
    exact fun hsome => absurd ((hbelow himplicit 2).mp hsome).2 (by decide)

/-! ## From which macOS on an event is supported -/

theorem supportedEvent_eq (hsymbols : (ir.events.map (·.symbol)).Nodup) {event : Event}
    (he : event ∈ ir.events) (runtime : List Nat) :
    Availability.supportedEvent ir runtime event.symbol =
      some (Availability.atLeast runtime (Availability.version event.minimumOs)) := by
  have hlookup : (Availability.eventMinOs ir).lookup event.symbol = some event.minimumOs := by
    rw [Availability.eventMinOs, foldl_store_symbol hsymbols,
      Hash.lookup_eq_some_iff (by rwa [List.map_map])]
    exact List.mem_map.mpr ⟨event, he, rfl⟩
  rw [Availability.supportedEvent, hlookup, Option.map_some]

/-- Every event of the header is supported from the version on that the latest comment up to the
    last line with its name gives, or everywhere when no comment comes before; and a later macOS
    has every event that an earlier one has. -/
theorem supported_as_commented (h : eventTypes w root source = .ok ir)
    (henum : Ast.enumContaining root "ES_EVENT_TYPE_AUTH_EXEC" = .ok enum)
    (hpairs : Numbered (-1) (constants enum) pairs) (hnames : (pairs.map Prod.fst).Nodup) :
    ∃ text, enumText source = some text ∧
      ∀ name value, (name, value) ∈ pairs → name ≠ lastConstant →
        ∃ version, AvailableFrom w (eventLines (eachLine text)) name version ∧
          (∀ runtime, Availability.supportedEvent ir runtime (eventSymbolOf name) =
            some (version.all fun v =>
              Availability.atLeast runtime (Availability.version v))) ∧
          ∀ runtime later, Availability.atLeast later runtime →
            Availability.supportedEvent ir runtime (eventSymbolOf name) = some true →
            Availability.supportedEvent ir later (eventSymbolOf name) = some true := by
  obtain ⟨hevents, availability, hav, hall⟩ := eventTypes_spec h henum hpairs
  have hsymbols := hevents.symbols hnames
  rw [scanAvailability] at hav
  split at hav
  · cases hav
  next text htext =>
    cases hav
    refine ⟨text, htext, fun name value hpair hne => ?_⟩
    obtain ⟨event, he, hev⟩ : ∃ event ∈ ir.events, event.pair = (name, value) := by
      apply List.mem_map.mp
      rw [hevents.eventPairs, List.mem_filter, decide_eq_true_eq]
      exact ⟨hpair, hne⟩
    obtain ⟨rfl, rfl⟩ := Prod.mk.inj hev
    have hrec := hall event he
    obtain ⟨version, hlookup, hminimum⟩ := hrec.minimumOs
    have hsupported := supportedEvent_eq hsymbols he
    rw [hrec.symbol] at hsupported
    refine ⟨version, (lookup_scanAvailabilityLines.mp hlookup).2, fun runtime => ?_, ?_⟩
    · rw [hsupported, hminimum]
      cases version with
      | none => rw [Option.all_none, Option.getD_none, Availability.atLeast_empty]
      | some v => rw [Option.all_some, Option.getD_some]
    · intro runtime later hlater hruntime
      rw [hsupported, Option.some.injEq] at hruntime ⊢
      exact Availability.atLeast_trans hlater hruntime

theorem supported_as_commented_two : Availability.supportedEvent twoEventTypes [14]
    (eventSymbolOf "ES_EVENT_TYPE_NOTIFY_EXIT") = some true := by
  obtain ⟨text, -, h⟩ := supported_as_commented eventTypes_twoEvents enumContaining_twoEvents
    twoEvents_numbered (by decide)
  obtain ⟨version, -, -, hlater⟩ :=
    h "ES_EVENT_TYPE_NOTIFY_EXIT" 1 (by decide) (by decide)
  exact hlater [13, 1] [14] (by decide) (by decide +kernel)

end EndpointSecurity.Codegen
