import EndpointSecurity.ForStd.ExceptList
import EndpointSecurity.Ruby.Muting
import EndpointSecurity.Spec.EventTables

/-!
# What is reported as muted can be muted again (`mute.c`, `lib/endpoint_security/client.rb`)

`muted_paths` turns numbers into symbols where there are any, and the methods that mute take
symbols only. So a reported item goes back to Endpoint Security as it came, if its kind and its
events have symbols; a single event that the tables do not know makes it fail. The client may be
closed meanwhile, and Endpoint Security may refuse any of the calls.

## Key results

- `reported_log`: a set that was obtained is released once, also when copying it raises
- `each_eq_ok`: a loop of calls succeeds when each call is taken after those before it
- `eventValues_eventNames`, `auditTokenFromValue_auditTokenValue`: what is converted to Ruby
  comes back as it was
- `muted_paths_round_trip`, `muted_processes_round_trip`: an item is returned for each mute, and
  muting again succeeds just for reports of what has symbols
-/

namespace EndpointSecurity.Muting

open Codegen (EventTypes)

/-- A symbol of a number has the number: an inverted hash has only pairs of the hash. -/
theorem value_of_symbol {ir : EventTypes} {value : Int} {symbol : String}
    (h : ir.symbol value = some symbol) : ir.value symbol = some value := by
  have hnodup : (ir.symbolToValue.map Prod.fst).Nodup := by
    have hfold : (((ir.events.map fun event => (event.symbol, event.value)).foldl
        (fun entries new => Hash.store new.1 new.2 entries) []).map Prod.fst).Nodup :=
      Hash.nodup_foldl_store _ List.nodup_nil
    rwa [List.foldl_map] at hfold
  have hmem : (value, symbol) ∈ ir.symbolToValue.map fun entry => (entry.2, entry.1) := by
    apply Hash.mem_of_lookup_foldl_store
    rw [List.foldl_map]
    exact h
  obtain ⟨entry, hentry, hpair⟩ := List.mem_map.mp hmem
  obtain ⟨rfl, rfl⟩ := Prod.mk.inj hpair
  exact (Hash.lookup_eq_some_iff hnodup).mpr hentry

variable {ir : EventTypes}

/-! ## Conversions -/

theorem eventNumber_bounds {word : Nat} (h : word < 4294967296) :
    -2147483648 ≤ eventNumber word ∧ eventNumber word < 2147483648 := by
  unfold eventNumber
  split <;> omega

theorem eventWord_eventNumber {word : Nat} (h : word < 4294967296) :
    eventWord (eventNumber word) = word := by
  unfold eventWord eventNumber
  split <;> omega

theorem num2int_eventNumber {word : Nat} (h : word < 4294967296) :
    num2int (eventNumber word) = .ok (eventNumber word) := by
  rw [num2int, if_pos (eventNumber_bounds h)]

/-- The name of a kind of paths goes back to its number. -/
theorem pathType_pathTypeName {type : Int} (h : type ∈ pathTypes.map Prod.snd) :
    pathType (pathTypeName (.number type)) = .ok type ∧ num2int type = .ok type := by
  have hall : ∀ value ∈ pathTypes.map Prod.snd,
      pathType (pathTypeName (.number value)) = .ok value ∧ num2int value = .ok value := by
    decide
  exact hall type h

theorem pathTypeName_of_not (type : Int) (h : type ∉ pathTypes.map Prod.snd) :
    pathTypeName (.number type) = .number type := by
  have hfind : pathTypes.find? (·.2 = type) = none := by
    rw [List.find?_eq_none]
    intro entry he heq
    exact h (List.mem_map.mpr ⟨entry, he, of_decide_eq_true heq⟩)
  rw [pathTypeName, hfind]

theorem eventValue_eventName {word : Nat}
    (h : (ir.symbol (eventNumber word)).isSome) :
    eventValue ir (eventName ir word) = .ok (eventNumber word) := by
  obtain ⟨symbol, hs⟩ := Option.isSome_iff_exists.mp h
  simp only [eventName, hs, eventValue, value_of_symbol hs]

theorem eventValue_of_unknown {word : Nat} (h : ir.symbol (eventNumber word) = none) :
    eventValue ir (eventName ir word) = .error .noMethod := by
  simp only [eventName, h, eventValue]

/-- The events of a reported mute have symbols. -/
def Known (ir : EventTypes) (events : MutedEvents) : Prop :=
  ∀ word ∈ events.words, (ir.symbol (eventNumber word)).isSome

/-- The names of the events of a reported mute. -/
def MutedEvents.names (ir : EventTypes) (events : MutedEvents) : List Name :=
  events.words.map (eventName ir)

/-- Events that have symbols go back to their numbers. -/
theorem eventValues_eventNames {events : MutedEvents} (h : Known ir events) :
    ∃ values, (events.names ir).mapM (eventValue ir) = .ok values ∧
      eventValues values = .ok events.words := by
  refine ⟨events.words.map eventNumber, ?_, ?_⟩
  · rw [MutedEvents.names, List.mapM_map]
    exact Except.mapM_of_forall fun word hword => eventValue_eventName (h word hword)
  · -- The numbers of 2^31 and above are negative in Ruby, and the cast takes them back
    have hlength : ¬ (events.words.map eventNumber).length > maxEvents := by
      rw [List.length_map]
      exact Nat.not_lt.mpr events.length_le
    have hback : ∀ word ∈ events.words,
        (num2int (eventNumber word)).map eventWord = .ok (id word) := by
      intro word hword
      rw [num2int_eventNumber (events.words_lt word hword)]
      exact congrArg Except.ok (eventWord_eventNumber (events.words_lt word hword))
    have hmap := Except.mapM_of_forall hback
    rw [List.map_id] at hmap
    rw [eventValues, if_neg hlength, List.mapM_map]
    exact hmap

/-- Only events that have symbols are converted. -/
theorem known_of_mapM {events : MutedEvents} {values : List Int}
    (h : (events.names ir).mapM (eventValue ir) = .ok values) : Known ir events := by
  intro word hword
  obtain ⟨value, -, hvalue⟩ := Except.exists_ok_of_mapM h (List.mem_map_of_mem hword)
  rw [Option.isSome_iff_ne_none]
  intro hnone
  rw [eventValue_of_unknown hnone] at hvalue
  cases hvalue

/-- The accessors of libbsm read the words of a token in their documented order. -/
structure Bsm.Documented (bsm : Bsm) : Prop where
  auid : ∀ token, bsm.auid token = token[0]
  euid : ∀ token, bsm.euid token = token[1]
  egid : ∀ token, bsm.egid token = token[2]
  ruid : ∀ token, bsm.ruid token = token[3]
  rgid : ∀ token, bsm.rgid token = token[4]
  pid : ∀ token, bsm.pid token = token[5]
  asid : ∀ token, bsm.asid token = token[6]
  pidversion : ∀ token, bsm.pidversion token = token[7]

theorem num2uint_uint2num (word : UInt32) : num2uint (uint2num word) = .ok word := by
  have hlt : word.toNat < 4294967296 := word.toNat_lt
  have hword : ((word.toNat : Int) % 4294967296).toNat = word.toNat := by omega
  rw [num2uint, uint2num, if_pos (by omega), hword, UInt32.ofNat_toNat]

theorem num2uint_bind {α : Type} (word : UInt32) (f : UInt32 → Except Error α) :
    (num2uint (uint2num word) >>= f) = f word :=
  Except.bind_of_ok (num2uint_uint2num word) f

/-- An audit token goes through Ruby as it is. -/
theorem auditTokenFromValue_auditTokenValue {bsm : Bsm} (h : bsm.Documented) (token : Token) :
    auditTokenFromValue (auditTokenValue bsm token) = .ok token := by
  rw [auditTokenFromValue, auditTokenValue, num2uint_bind, num2uint_bind, num2uint_bind,
    num2uint_bind, num2uint_bind, num2uint_bind, num2uint_bind, num2uint_bind,
    h.auid, h.euid, h.egid, h.ruid, h.rgid, h.pid, h.asid, h.pidversion]
  apply congrArg Except.ok
  apply Vector.ext
  intro i hi
  match i, hi with
  | 0, _ | 1, _ | 2, _ | 3, _ | 4, _ | 5, _ | 6, _ | 7, _ => rfl

/-! ## Reports -/

/-- The client is used by its process and is not closed. -/
def Surroundings.Usable (env : Surroundings) (log : List EsEvent) : Prop :=
  env.ownerPid = env.pid ∧ env.closed log = false

instance (env : Surroundings) (log : List EsEvent) : Decidable (env.Usable log) :=
  inferInstanceAs (Decidable (_ ∧ _))

variable {env : Surroundings} {log log' : List EsEvent}

theorem muteClient_of_usable (h : env.Usable log) : muteClient env log = (.ok (), log) := by
  show (if env.ownerPid ≠ env.pid then Raising.raise .forkedClient
    else if env.closed log then Raising.raise .clientClosed else pure () : Es Unit) log = _
  rw [if_neg (not_not.mpr h.1), h.2]
  rfl

/-- A check that raises has done nothing. -/
theorem muteClient_of_not (h : ¬env.Usable log) : ∃ e, muteClient env log = (.error e, log) := by
  show ∃ e, (if env.ownerPid ≠ env.pid then Raising.raise .forkedClient
    else if env.closed log then Raising.raise .clientClosed else pure () : Es Unit) log = _
  by_cases hpid : env.ownerPid = env.pid
  · have hclosed : env.closed log = true := by
      by_contra hopen
      exact h ⟨hpid, Bool.eq_false_iff.mpr hopen⟩
    rw [if_neg (not_not.mpr hpid), if_pos hclosed]
    exact ⟨_, rfl⟩
  · rw [if_pos hpid]
    exact ⟨_, rfl⟩

theorem muteClient_eq_ok {u : Unit} :
    muteClient env log = (.ok u, log') ↔ env.Usable log ∧ log = log' := by
  by_cases h : env.Usable log
  · simp [muteClient_of_usable h, h]
  · obtain ⟨e, he⟩ := muteClient_of_not h
    simp [he, h]

theorem newArray_eq_ok {length : Nat} {u : Unit} :
    newArray length = .ok u ↔ length ≤ arrayMax := by
  unfold newArray
  split
  · simpa using ‹length > arrayMax›
  · simpa using ‹¬length > arrayMax›

theorem eventSymbols_eq_ok {events : MutedEvents} {names : List Name} :
    eventSymbols ir events = .ok names ↔
      events.words.length ≤ arrayMax ∧ names = events.names ir := by
  unfold eventSymbols
  constructor
  · intro h
    obtain ⟨_, hlength, hnames⟩ := Except.bind_eq_ok.mp h
    exact ⟨newArray_eq_ok.mp hlength, (Except.ok.inj hnames).symm⟩
  · rintro ⟨hlength, rfl⟩
    rw [Except.bind_of_ok (newArray_eq_ok (u := ()).mpr hlength)]
    rfl

section
variable {α β : Type}

/-- There is room for an array of a set and for the arrays of its events. -/
def Fits (events : α → MutedEvents) (set : List α) : Prop :=
  set.length ≤ arrayMax ∧ ∀ muted ∈ set, (events muted).words.length ≤ arrayMax

/-- A set is copied when there is room for it, and then an item stands for each mute. -/
theorem copyMuted_eq_ok {copy : α → Except Error β} {item : α → β} {events : α → MutedEvents}
    (hcopy : ∀ muted made, copy muted = .ok made ↔
      (events muted).words.length ≤ arrayMax ∧ made = item muted)
    {set : List α} {items : List β} :
    copyMuted copy set = .ok items ↔ Fits events set ∧ items = set.map item := by
  have hmap : set.mapM copy = .ok items ↔
      (∀ muted ∈ set, (events muted).words.length ≤ arrayMax) ∧ items = set.map item := by
    constructor
    · intro h
      have hroom : ∀ muted ∈ set, (events muted).words.length ≤ arrayMax := by
        intro muted hmuted
        obtain ⟨made, -, hmade⟩ := Except.exists_ok_of_mapM h hmuted
        exact ((hcopy muted made).mp hmade).1
      have hall := Except.mapM_of_forall fun muted hmuted =>
        (hcopy muted (item muted)).mpr ⟨hroom muted hmuted, rfl⟩
      exact ⟨hroom, Except.ok.inj (h.symm.trans hall)⟩
    · rintro ⟨hroom, rfl⟩
      exact Except.mapM_of_forall fun muted hmuted =>
        (hcopy muted (item muted)).mpr ⟨hroom muted hmuted, rfl⟩
  unfold copyMuted Fits
  by_cases hlong : set.length > longMax
  · have hbig : ¬set.length ≤ arrayMax := by
      simp only [arrayMax, longMax] at hlong ⊢
      omega
    rw [if_pos hlong]
    exact iff_of_false nofun fun h => hbig h.1.1
  · rw [if_neg hlong]
    constructor
    · intro h
      obtain ⟨_, hlength, hitems⟩ := Except.bind_eq_ok.mp h
      obtain ⟨hroom, rfl⟩ := hmap.mp hitems
      exact ⟨⟨newArray_eq_ok.mp hlength, hroom⟩, rfl⟩
    · rintro ⟨⟨hlength, hroom⟩, hitems⟩
      show (newArray set.length >>= fun _ => set.mapM copy) = _
      rw [Except.bind_of_ok (newArray_eq_ok (u := ()).mpr hlength)]
      exact hmap.mpr ⟨hroom, hitems⟩

/-- A set that was obtained is released once, also when copying it raises. -/
theorem reported_log (env : Surroundings) (copy : α → Except Error β) (set : List α)
    (log : List EsEvent) :
    (reported env copy (.mutes set) log).2 =
      if env.Usable log then log ++ [.obtained, .released] else log := by
  by_cases husable : env.Usable log
  · rw [if_pos husable, reported, Raising.bind_of_ok (muteClient_of_usable husable)]
    show log ++ [.obtained] ++ [.released] = _
    rw [List.append_assoc, List.singleton_append]
  · obtain ⟨e, he⟩ := muteClient_of_not husable
    rw [if_neg husable, reported, Raising.bind_of_error he]

theorem reported_eq_ok {copy : α → Except Error β} {set : List α} {items : List β} :
    (reported env copy (.mutes set) log).1 = .ok items ↔
      env.Usable log ∧ copyMuted copy set = .ok items := by
  by_cases husable : env.Usable log
  · rw [reported, Raising.bind_of_ok (muteClient_of_usable husable)]
    exact (and_iff_right husable).symm
  · obtain ⟨e, he⟩ := muteClient_of_not husable
    rw [reported, Raising.bind_of_error he]
    exact iff_of_false nofun fun h => husable h.1

end

/-! ## Calls -/

/-- A call is made for the client, and Endpoint Security accepts it. -/
def Surroundings.Takes (env : Surroundings) (log : List EsEvent) (made : EsCall) : Prop :=
  env.Usable log ∧ env.accepts log made = true

theorem callEs_eq_ok {made : EsCall} {u : Unit} :
    callEs env made log = (.ok u, log') ↔
      env.accepts log made = true ∧ log ++ [.call made] = log' := by
  show (if env.accepts log made then pure () else Raising.raise .muteFailed : Es Unit)
    (log ++ [.call made]) = _ ↔ _
  cases haccepts : env.accepts log made with
  | false => simp
  | true => simp

/-- A call whose arguments can be converted is made, after the check. -/
theorem muteTarget_eq_ok {made : Except Error EsCall} {u : Unit} :
    muteTarget env made log = (.ok u, log') ↔
      ∃ call, made = .ok call ∧ env.Takes log call ∧ log ++ [.call call] = log' := by
  unfold muteTarget Surroundings.Takes
  simp only [Raising.bind_eq_ok, muteClient_eq_ok, Raising.ofExcept_eq_ok, callEs_eq_ok]
  constructor
  · rintro ⟨_, _, ⟨husable, rfl⟩, call, _, ⟨hcall, rfl⟩, haccepts, hlog⟩
    exact ⟨call, hcall, ⟨husable, haccepts⟩, hlog⟩
  · rintro ⟨call, hcall, ⟨husable, haccepts⟩, hlog⟩
    exact ⟨(), log, ⟨husable, rfl⟩, call, log, ⟨hcall, rfl⟩, haccepts, hlog⟩

section
variable {α β : Type} {callOf : α → EsCall} {Good : α → Prop}

/-- Each of a list is good, and its call is taken after the calls before it. -/
def AllTaken (env : Surroundings) (Good : α → Prop) (callOf : α → EsCall) (log : List EsEvent)
    (xs : List α) : Prop :=
  ∀ earlier x rest, xs = earlier ++ x :: rest →
    Good x ∧ env.Takes (log ++ earlier.map fun y => .call (callOf y)) (callOf x)

theorem allTaken_nil : AllTaken env Good callOf log [] := by
  intro earlier x rest h
  cases List.append_ne_nil_of_right_ne_nil earlier (List.cons_ne_nil x rest) h.symm

theorem allTaken_cons {x : α} {xs : List α} :
    AllTaken env Good callOf log (x :: xs) ↔
      (Good x ∧ env.Takes log (callOf x)) ∧
        AllTaken env Good callOf (log ++ [.call (callOf x)]) xs := by
  constructor
  · intro h
    constructor
    · have hx := h [] x xs rfl
      rwa [List.map_nil, List.append_nil] at hx
    · rintro earlier y rest rfl
      have hy := h (x :: earlier) y rest rfl
      rwa [List.map_cons, List.append_cons] at hy
  · rintro ⟨hx, hxs⟩ earlier y rest h
    cases earlier with
    | nil =>
      obtain ⟨rfl, rfl⟩ := List.cons.inj h
      rwa [List.map_nil, List.append_nil]
    | cons z earlier =>
      obtain ⟨rfl, rfl⟩ := List.cons.inj h
      rw [List.map_cons, List.append_cons]
      exact hxs earlier y rest rfl

/-- A loop of calls succeeds when each call is taken after those before it. -/
theorem each_eq_ok {act : α → Es Unit}
    (hact : ∀ x log log', act x log = (.ok (), log') ↔
      (Good x ∧ env.Takes log (callOf x)) ∧ log ++ [.call (callOf x)] = log') {xs : List α} :
    each act xs log = (.ok (), log') ↔
      AllTaken env Good callOf log xs ∧ log ++ xs.map (fun x => .call (callOf x)) = log' := by
  induction xs generalizing log with
  | nil => simp [each, allTaken_nil]
  | cons x xs ih =>
    have hlater : log ++ (x :: xs).map (fun x => .call (callOf x)) =
        log ++ [.call (callOf x)] ++ xs.map fun x => .call (callOf x) := by
      rw [List.map_cons, List.append_cons]
    rw [each, Raising.bind_eq_ok, allTaken_cons, hlater]
    constructor
    · rintro ⟨_, t, hx, hxs⟩
      obtain ⟨htaken, rfl⟩ := (hact x log t).mp hx
      obtain ⟨hrest, hlog⟩ := ih.mp hxs
      exact ⟨⟨htaken, hrest⟩, hlog⟩
    · rintro ⟨⟨htaken, hrest⟩, hlog⟩
      exact ⟨(), _, (hact x log _).mpr ⟨htaken, rfl⟩, ih.mpr ⟨hrest, hlog⟩⟩

theorem each_map (act : β → Es Unit) (item : α → β) (xs : List α) :
    each act (xs.map item) = each (fun x => act (item x)) xs := by
  induction xs with
  | nil => rfl
  | cons x xs ih => rw [List.map_cons, each, each, ih]

end

/-! ## Paths -/

/-- The item of a reported path. -/
def MutedPath.item (ir : EventTypes) (muted : MutedPath) : PathItem where
  type := pathTypeName (.number muted.type)
  path := muted.path
  events := muted.events.names ir

/-- The kind and the events have symbols, and the path is a C string. -/
structure Convertible (ir : EventTypes) (muted : MutedPath) : Prop where
  type : muted.type ∈ pathTypes.map Prod.snd
  path : 0 ∉ muted.path
  events : Known ir muted.events

/-- The call that mutes what is reported. -/
def MutedPath.call (muted : MutedPath) : EsCall :=
  callFor .mute (.path muted.path muted.type) muted.events.words

theorem copyMutedPath_eq_ok {muted : MutedPath} {made : PathItem} :
    copyMutedPath ir muted = .ok made ↔
      muted.events.words.length ≤ arrayMax ∧
        made = ⟨.number muted.type, muted.path, muted.events.names ir⟩ := by
  unfold copyMutedPath
  constructor
  · intro h
    obtain ⟨names, hnames, hmade⟩ := Except.bind_eq_ok.mp h
    obtain ⟨hlength, rfl⟩ := eventSymbols_eq_ok.mp hnames
    exact ⟨hlength, (Except.ok.inj hmade).symm⟩
  · rintro ⟨hlength, rfl⟩
    rw [Except.bind_of_ok (eventSymbols_eq_ok.mpr ⟨hlength, rfl⟩)]
    rfl

theorem mutePathCall_item {muted : MutedPath} (h : Convertible ir muted) {values : List Int}
    (hvalues : eventValues values = .ok muted.events.words) :
    mutePathCall .mute muted.path muted.type values = .ok muted.call := by
  unfold mutePathCall
  rw [Except.bind_of_ok (pathType_pathTypeName h.type).2, if_neg h.path]
  show (eventValues values >>= _) = _
  rw [Except.bind_of_ok hvalues]
  rfl

/-- Muting a reported path again makes its call, when it is convertible. -/
theorem mutePathEvents_item {muted : MutedPath} :
    mutePathEvents ir env (muted.item ir).path (muted.item ir).type (muted.item ir).events log =
        (.ok (), log') ↔
      (Convertible ir muted ∧ env.Takes log muted.call) ∧ log ++ [.call muted.call] = log' := by
  unfold mutePathEvents changePathMute
  simp only [Raising.bind_eq_ok, Raising.ofExcept_eq_ok, mutePath, muteTarget_eq_ok]
  constructor
  · rintro ⟨type, _, ⟨htype, rfl⟩, values, _, ⟨hvalues, rfl⟩, call, hcall, htakes, hlog⟩
    have hkind : muted.type ∈ pathTypes.map Prod.snd := by
      -- A kind without a name stays a number, which has no `to_sym`
      by_contra hnot
      rw [MutedPath.item, pathTypeName_of_not _ hnot] at htype
      cases htype
    have hpath : 0 ∉ muted.path := by
      intro hzero
      obtain ⟨_, -, hcall⟩ := Except.bind_eq_ok.mp hcall
      rw [if_pos (show 0 ∈ (muted.item ir).path from hzero)] at hcall
      cases hcall
    have hconvertible : Convertible ir muted := ⟨hkind, hpath, known_of_mapM hvalues⟩
    obtain ⟨values', hvalues', hwords⟩ := eventValues_eventNames hconvertible.events
    obtain rfl := Except.ok.inj (hvalues'.symm.trans hvalues)
    obtain rfl := Except.ok.inj ((pathType_pathTypeName hkind).1.symm.trans htype)
    obtain rfl := Except.ok.inj ((mutePathCall_item hconvertible hwords).symm.trans hcall)
    exact ⟨⟨hconvertible, htakes⟩, hlog⟩
  · rintro ⟨⟨hconvertible, htakes⟩, hlog⟩
    obtain ⟨values, hvalues, hwords⟩ := eventValues_eventNames hconvertible.events
    exact ⟨muted.type, log, ⟨(pathType_pathTypeName hconvertible.type).1, rfl⟩,
      values, log, ⟨hvalues, rfl⟩, muted.call, mutePathCall_item hconvertible hwords, htakes, hlog⟩

/-- Whatever paths Endpoint Security reports as muted to a client that can be used: the set is
    released once, whether or not it can be copied, and `muted_paths` returns an item for each
    path, just if there is room for the arrays. Muting these items again, then or later, succeeds
    just if the kinds and the events of all paths have symbols, the paths have no null byte, and
    each call finds a client that can be used and is accepted by Endpoint Security after the calls
    before it. The calls are then those that muted the paths, one for each and in order. -/
theorem muted_paths_round_trip (ir : EventTypes) (env env' : Surroundings)
    (set : List MutedPath) (log later : List EsEvent) :
    (mutedPaths ir env (.mutes set) log).2 =
        (if env.Usable log then log ++ [.obtained, .released] else log) ∧
      (∀ items, (mutedPaths ir env (.mutes set) log).1 = .ok items ↔
        (env.Usable log ∧ Fits MutedPath.events set) ∧ items = set.map (MutedPath.item ir)) ∧
      ∀ log', mutePathsAgain ir env' (set.map (MutedPath.item ir)) later = (.ok (), log') ↔
        AllTaken env' (Convertible ir) MutedPath.call later set ∧
          later ++ set.map (fun muted => .call muted.call) = log' := by
  have hcopy : ∀ items, copyMuted (copyMutedPath ir) set = .ok items ↔
      Fits MutedPath.events set ∧
        items = set.map fun muted => ⟨.number muted.type, muted.path, muted.events.names ir⟩ :=
    fun _ => copyMuted_eq_ok fun _ _ => copyMutedPath_eq_ok
  have hnamed : (set.map fun muted : MutedPath =>
        (⟨.number muted.type, muted.path, muted.events.names ir⟩ : PathItem)).map
          (fun item => { item with type := pathTypeName item.type }) =
      set.map (MutedPath.item ir) := by
    rw [List.map_map]
    rfl
  refine ⟨?_, fun items => ?_, fun log' => ?_⟩
  · rw [mutedPaths, Raising.run_bind_pure]
    exact reported_log env (copyMutedPath ir) set log
  · rw [mutedPaths, Raising.run_bind_pure]
    show Except.map _ _ = _ ↔ _
    simp only [Except.map_eq_ok, reported_eq_ok, hcopy]
    constructor
    · rintro ⟨_, ⟨husable, hfits, rfl⟩, rfl⟩
      exact ⟨⟨husable, hfits⟩, hnamed⟩
    · rintro ⟨⟨husable, hfits⟩, rfl⟩
      exact ⟨_, ⟨husable, hfits, rfl⟩, hnamed.symm⟩
  · rw [mutePathsAgain, each_map]
    apply each_eq_ok
    intro muted log log'
    exact mutePathEvents_item

/-- The path `/tmp`, literally, for `notify_exit` -/
def mutedTmp : MutedPath where
  type := 1
  path := [47, 116, 109, 112]
  path_length_le := by decide
  events := ⟨[1], by decide, by decide⟩

/-- A client that stays open in its process, and whose calls are all accepted. -/
def openClient : Surroundings where
  ownerPid := 501
  pid := 501
  closed _ := false
  accepts _ _ := true

theorem allTaken_openClient {α : Type} {Good : α → Prop} {callOf : α → EsCall} {xs : List α}
    (h : ∀ x ∈ xs, Good x) (log : List EsEvent) : AllTaken openClient Good callOf log xs := by
  rintro earlier x rest rfl
  exact ⟨h x (List.mem_append_right _ List.mem_cons_self), ⟨rfl, rfl⟩, rfl⟩

theorem muted_paths_round_trip_tmp : ∃ items,
    (mutedPaths Codegen.twoEventTypes openClient (.mutes [mutedTmp]) []).1 = .ok items ∧
      mutePathsAgain Codegen.twoEventTypes openClient items [] =
        (.ok (), [.call mutedTmp.call]) := by
  obtain ⟨-, hitems, hagain⟩ :=
    muted_paths_round_trip Codegen.twoEventTypes openClient openClient [mutedTmp] [] []
  have hfits : Fits MutedPath.events [mutedTmp] := by
    unfold Fits
    decide
  have hconvertible : Convertible Codegen.twoEventTypes mutedTmp :=
    ⟨by decide, by decide, by unfold Known; decide +kernel⟩
  refine ⟨_, (hitems _).mpr ⟨⟨⟨rfl, rfl⟩, hfits⟩, rfl⟩, (hagain _).mpr ⟨?_, rfl⟩⟩
  apply allTaken_openClient
  intro muted hmuted
  obtain rfl := List.mem_singleton.mp hmuted
  exact hconvertible

/-! ## Processes -/

/-- The item of a reported process. -/
def MutedProcess.item (ir : EventTypes) (bsm : Bsm) (muted : MutedProcess) : ProcessItem where
  token := auditTokenValue bsm muted.token
  events := muted.events.names ir

/-- The call that mutes what is reported. -/
def MutedProcess.call (muted : MutedProcess) : EsCall :=
  callFor .mute (.process muted.token) muted.events.words

theorem copyMutedProcess_eq_ok {bsm : Bsm} {muted : MutedProcess} {made : ProcessItem} :
    copyMutedProcess ir bsm muted = .ok made ↔
      muted.events.words.length ≤ arrayMax ∧ made = muted.item ir bsm := by
  unfold copyMutedProcess
  constructor
  · intro h
    obtain ⟨names, hnames, hmade⟩ := Except.bind_eq_ok.mp h
    obtain ⟨hlength, rfl⟩ := eventSymbols_eq_ok.mp hnames
    exact ⟨hlength, (Except.ok.inj hmade).symm⟩
  · rintro ⟨hlength, rfl⟩
    rw [Except.bind_of_ok (eventSymbols_eq_ok.mpr ⟨hlength, rfl⟩)]
    rfl

/-- Muting a reported process again makes its call, when its events have symbols. -/
theorem muteProcessEvents_item {bsm : Bsm} (hbsm : bsm.Documented) {muted : MutedProcess} :
    muteProcessEvents ir env (muted.item ir bsm).token (muted.item ir bsm).events log =
        (.ok (), log') ↔
      (Known ir muted.events ∧ env.Takes log muted.call) ∧
        log ++ [.call muted.call] = log' := by
  have hcall {values : List Int} (hwords : eventValues values = .ok muted.events.words) :
      muteProcessCall .mute (auditTokenValue bsm muted.token) values = .ok muted.call := by
    unfold muteProcessCall
    rw [Except.bind_of_ok (auditTokenFromValue_auditTokenValue hbsm _), Except.bind_of_ok hwords]
    rfl
  unfold muteProcessEvents changeProcessMute
  simp only [Raising.bind_eq_ok, Raising.ofExcept_eq_ok, muteProcess, muteTarget_eq_ok]
  constructor
  · rintro ⟨values, _, ⟨hvalues, rfl⟩, call, hmade, htakes, hlog⟩
    have hknown := known_of_mapM hvalues
    obtain ⟨values', hvalues', hwords⟩ := eventValues_eventNames hknown
    obtain rfl := Except.ok.inj (hvalues'.symm.trans hvalues)
    obtain rfl := Except.ok.inj ((hcall hwords).symm.trans hmade)
    exact ⟨⟨hknown, htakes⟩, hlog⟩
  · rintro ⟨⟨hknown, htakes⟩, hlog⟩
    obtain ⟨values, hvalues, hwords⟩ := eventValues_eventNames hknown
    exact ⟨values, log, ⟨hvalues, rfl⟩, muted.call, hcall hwords, htakes, hlog⟩

/-- Whatever processes Endpoint Security reports as muted to a client that can be used: the set is
    released once, whether or not it can be copied, and `muted_processes` returns an item for each
    process, just if there is room for the arrays. Muting these items again, then or later,
    succeeds just if all events have symbols and each call finds a client that can be used and is
    accepted by Endpoint Security after the calls before it. The calls are then those that muted
    the processes, with the same audit tokens, one for each and in order. -/
theorem muted_processes_round_trip (ir : EventTypes) (bsm : Bsm) (hbsm : bsm.Documented)
    (env env' : Surroundings) (set : List MutedProcess) (log later : List EsEvent) :
    (mutedProcesses ir bsm env (.mutes set) log).2 =
        (if env.Usable log then log ++ [.obtained, .released] else log) ∧
      (∀ items, (mutedProcesses ir bsm env (.mutes set) log).1 = .ok items ↔
        (env.Usable log ∧ Fits MutedProcess.events set) ∧
          items = set.map (MutedProcess.item ir bsm)) ∧
      ∀ log', muteProcessesAgain ir env' (set.map (MutedProcess.item ir bsm)) later =
          (.ok (), log') ↔
        AllTaken env' (fun muted => Known ir muted.events) MutedProcess.call later set ∧
          later ++ set.map (fun muted => .call muted.call) = log' := by
  refine ⟨reported_log env _ set log, fun items => ?_, fun log' => ?_⟩
  · have hcopy : copyMuted (copyMutedProcess ir bsm) set = .ok items ↔ _ :=
      copyMuted_eq_ok fun _ _ => copyMutedProcess_eq_ok
    rw [mutedProcesses, reported_eq_ok, hcopy, and_assoc]
  · rw [muteProcessesAgain, each_map]
    apply each_eq_ok
    intro muted log log'
    exact muteProcessEvents_item hbsm

/-- libbsm as it is documented -/
def libbsm : Bsm :=
  ⟨(·[5]), (·[7]), (·[3]), (·[1]), (·[4]), (·[2]), (·[6]), (·[0])⟩

/-- A process that is muted for all events -/
def mutedProcess : MutedProcess where
  token := #v[501, 501, 20, 501, 20, 4242, 100003, 4294967295]
  events := ⟨[], by decide, by decide⟩

theorem muted_processes_round_trip_all : ∃ items,
    (mutedProcesses Codegen.twoEventTypes libbsm openClient (.mutes [mutedProcess]) []).1 =
        .ok items ∧
      muteProcessesAgain Codegen.twoEventTypes openClient items [] =
        (.ok (), [.call mutedProcess.call]) := by
  obtain ⟨-, hitems, hagain⟩ := muted_processes_round_trip Codegen.twoEventTypes libbsm
    ⟨fun _ => rfl, fun _ => rfl, fun _ => rfl, fun _ => rfl, fun _ => rfl, fun _ => rfl,
      fun _ => rfl, fun _ => rfl⟩ openClient openClient [mutedProcess] [] []
  have hfits : Fits MutedProcess.events [mutedProcess] := by
    unfold Fits
    decide
  refine ⟨_, (hitems _).mpr ⟨⟨⟨rfl, rfl⟩, hfits⟩, rfl⟩, (hagain _).mpr ⟨?_, rfl⟩⟩
  apply allTaken_openClient
  intro muted hmuted word hword
  obtain rfl := List.mem_singleton.mp hmuted
  cases hword

end EndpointSecurity.Muting
