import EndpointSecurity.Spec.HeaderLines
import EndpointSecurity.ForStd.Substring

/-!
# Which events are taken for cacheable

The header says in the comment before the structure of an event whether verdicts on it may be
cached. The code generator does not look for that comment: it looks backwards from the brace that
closes the structure for the last comment that starts before it. That is the comment before the
structure if the structure has one, and no field has one of its own.

## Key results

- `mem_cacheableStructs`: which texts in a header make an event cacheable
- `EventStruct.fromLast_front`: the comment that is found for a structure
- `EventHeader.cacheableEvents_documented_iff`: when exactly the documented events are returned
- `EventStruct.clean_of_plain`: they are for structures with a comment of their own and no other
-/

namespace EndpointSecurity.Codegen

open Regex (Matches)
open Substring (fromLast rindex strstr)

/-! ## Headers of event structures -/

/-- The name of an event's structure. -/
def eventStruct (kind : List Char) : List Char := "es_event_".toList ++ (kind ++ "_t".toList)

/-- `} es_event_..._t;`, with spaces before the semicolon. -/
def IsEventClosing (kind tail text : List Char) : Prop :=
  ∃ space, (∀ c ∈ space, isSpace c) ∧ (kind ≠ [] ∧ ∀ c ∈ kind, isWord c) ∧
    (∀ c ∈ tail, isSpace c) ∧ text = '\x7d' :: (space ++ (eventStruct kind ++ (tail ++ [';'])))

/-- The text from the last start of a comment on has the phrase. -/
def KeyBefore (text : List Char) : Prop :=
  ∃ t, fromLast commentStart text = some t ∧ cacheKeyPhrase <:+: t

/-- The AUTH events, by their symbol. -/
def Event.IsAuth (e : Event) : Prop := "auth_".toList <+: e.symbol.toList

/-- What is behind `auth_` in the symbol. -/
def Event.kindName (e : Event) : String := deletePrefix "auth_" e.symbol

instance (e : Event) : Decidable e.IsAuth :=
  inferInstanceAs (Decidable ("auth_".toList <+: e.symbol.toList))

/-- `/** ... */`, which ends at its first `*/`. -/
def IsDocComment (text : List Char) : Prop :=
  ∃ inner, text = commentStart ++ inner ∧ inner.head? ≠ some '/' ∧
    Substring.EndsOnce "*/".toList inner

/-- The definition of an event's structure, with what stands between the one before and it. -/
structure EventStruct where
  lead : List Char
  /-- The comment right before the definition. -/
  comment : Option (List Char)
  gap : List Char
  /-- The definition from `typedef` to the closing brace, with the comments of its fields. -/
  body : List Char
  space : List Char
  kind : String
  tail : List Char
  comment_doc : ∀ c ∈ comment, IsDocComment c
  /-- If the structure has no comment of its own, what stands before it does not end in one. -/
  comment_none : comment = none → ∀ front c space, lead = front ++ (c ++ space) →
    (∀ d ∈ space, isSpace d) → ¬ IsDocComment c
  gap_space : ∀ c ∈ gap, isSpace c
  body_typedef : "typedef".toList <+: body
  space_space : ∀ c ∈ space, isSpace c
  kind_word : kind.toList ≠ [] ∧ ∀ c ∈ kind.toList, isWord c
  tail_space : ∀ c ∈ tail, isSpace c

/-- What stands before the closing brace. -/
def EventStruct.front (s : EventStruct) : List Char :=
  s.lead ++ (s.comment.getD [] ++ (s.gap ++ s.body))

/-- `} es_event_..._t;` -/
def EventStruct.closing (s : EventStruct) : List Char :=
  '\x7d' :: (s.space ++ (eventStruct s.kind.toList ++ (s.tail ++ [';'])))

def EventStruct.text (s : EventStruct) : List Char := s.front ++ s.closing

/-- The structure's own comment has the phrase. -/
def EventStruct.Documented (s : EventStruct) : Prop := ∃ c ∈ s.comment, cacheKeyPhrase <:+: c

instance (s : EventStruct) : Decidable s.Documented :=
  inferInstanceAs (Decidable (∃ c ∈ s.comment, cacheKeyPhrase <:+: c))

/-- The text that is searched for the phrase when `prior` stands before: from the last start of a
    comment in the body, if there is one, else from that in the structure's own comment, else
    from that in what stands before the structure. -/
def EventStruct.searched (prior : List Char) (s : EventStruct) : Option (List Char) :=
  match fromLast commentStart s.body, s.comment with
  | some t, _ => some t
  | none, some c => (fromLast commentStart c).map (· ++ (s.gap ++ s.body))
  | none, none => (fromLast commentStart (prior ++ s.lead)).map (· ++ (s.gap ++ s.body))

/-- The phrase is where it is searched for, and the name where it is matched, iff the structure's
    own comment has the phrase. -/
def EventStruct.Clean (prior : List Char) (s : EventStruct) : Prop :=
  s.Documented ↔ s.tail = [] ∧ ∃ t ∈ s.searched prior, cacheKeyPhrase <:+: t

/-- A header source that is a sequence of structures of events. -/
structure EventHeader where
  structs : List EventStruct
  trailer : List Char

def EventHeader.source (h : EventHeader) : List Char :=
  h.structs.flatMap EventStruct.text ++ h.trailer

/-- The structure stands behind this text. -/
def EventHeader.At (h : EventHeader) (prior : List Char) (s : EventStruct) : Prop :=
  ∃ before after, h.structs = before ++ s :: after ∧ prior = before.flatMap EventStruct.text

/-- The structure of the event has a comment of its own that says what its cache key is. -/
def EventHeader.Documents (h : EventHeader) (kind : String) : Prop :=
  ∃ s ∈ h.structs, s.kind = kind ∧ s.Documented

instance (h : EventHeader) (kind : String) : Decidable (h.Documents kind) :=
  inferInstanceAs (Decidable (∃ s ∈ h.structs, s.kind = kind ∧ s.Documented))

/-- The AUTH events whose structure is documented as cacheable. -/
def EventHeader.documentedEvents (h : EventHeader) (events : List Event) : List String :=
  (events.filter fun e => e.IsAuth ∧ h.Documents e.kindName).map (·.symbol)

/-- The structures of the AUTH events are clean, and what else looks like the end of such a
    structure stands behind the phrase only if the event is documented. -/
structure EventHeader.Clean (h : EventHeader) (events : List Event) : Prop where
  structs : ∀ prior s, h.At prior s → (∃ e ∈ events, e.IsAuth ∧ e.kindName = s.kind) →
    s.Clean prior
  others : ∀ e ∈ events, e.IsAuth → ∀ before text after,
    h.source = before ++ (text ++ after) → IsEventClosing e.kindName.toList [] text →
      (∀ prior s, h.At prior s → before ≠ prior ++ s.front) → KeyBefore before →
        h.Documents e.kindName

/-- No name is closed twice. -/
def EventHeader.ClosedOnce (h : EventHeader) : Prop :=
  ∀ kind tail tail' before before' text text' after after',
    h.source = before ++ (text ++ after) → h.source = before' ++ (text' ++ after') →
      IsEventClosing kind tail text → IsEventClosing kind tail' text' → before = before'

variable {previous : Option Char} {matched rest : List Char} {groups : List (List Char)}

/-! ## Ends of event structures -/

theorem eventStruct_def (kind : List Char) :
    eventStruct kind = "es_event_".toList ++ (kind ++ "_t".toList) := rfl

/-- What `eventEnd` matches: there may be no space before the semicolon. -/
theorem matches_eventEnd : Matches eventEnd previous matched rest groups ↔
    ∃ kind, IsEventClosing kind [] matched ∧ groups = [eventStruct kind] := by
  constructor
  · -- The brace, the spaces, the group and the semicolon, one after another
    rintro ⟨_, v, _, h, ⟨⟨c, hc, rfl⟩, rfl⟩, hv, rfl, rfl⟩
    obtain ⟨space, v, _, h, ⟨hspace, rfl⟩, hv, rfl, rfl⟩ := hv
    obtain ⟨name, v, _, h, ⟨g, hname, rfl⟩, hv, rfl, rfl⟩ := hv
    obtain ⟨_, _, _, _, ⟨⟨d, hd, rfl⟩, rfl⟩, ⟨rfl, rfl⟩, rfl, rfl⟩ := hv
    -- The group is `es_event_`, one word character or more, and `_t`
    obtain ⟨es, y, _, _, hes, hy, rfl, rfl⟩ := hname
    obtain ⟨kind, z, _, _, hkind, hz, rfl, rfl⟩ := hy
    obtain ⟨t, _, _, _, ht, ⟨rfl, rfl⟩, rfl, rfl⟩ := hz
    obtain ⟨rfl, rfl⟩ := Regex.matches_literal.mp hes
    obtain ⟨hne, hword, rfl⟩ := Regex.matches_many1.mp hkind
    obtain ⟨rfl, rfl⟩ := Regex.matches_literal.mp ht
    obtain rfl := eq_of_beq hc
    obtain rfl := eq_of_beq hd
    exact ⟨kind, ⟨space, hspace, ⟨hne, hword⟩, nofun, rfl⟩, rfl⟩
  · rintro ⟨kind, ⟨space, hspace, ⟨hne, hword⟩, -, rfl⟩, rfl⟩
    have hname : Matches (.all [.literal "es_event_".toList, .many1 isWord, .literal "_t".toList])
        (Regex.last (Regex.last previous ['\x7d']) space)
        ("es_event_".toList ++ (kind ++ "_t".toList)) ([';'] ++ rest) [] :=
      ⟨_, _, [], [], Regex.matches_literal.mpr ⟨rfl, rfl⟩,
        ⟨kind, _, [], [], Regex.matches_many1.mpr ⟨hne, hword, rfl⟩,
          ⟨_, [], [], [], Regex.matches_literal.mpr ⟨rfl, rfl⟩, ⟨rfl, rfl⟩, rfl, rfl⟩, rfl, rfl⟩,
        rfl, rfl⟩
    exact ⟨['\x7d'], _, [], _, ⟨⟨_, rfl, rfl⟩, rfl⟩, ⟨space, _, [], _, ⟨hspace, rfl⟩,
      ⟨_, [';'], _, [], ⟨[], hname, rfl⟩, ⟨[';'], [], [], [], ⟨⟨_, rfl, rfl⟩, rfl⟩, ⟨rfl, rfl⟩,
        rfl, rfl⟩, rfl, rfl⟩, rfl, rfl⟩, rfl, rfl⟩

theorem isWord_eventStruct {kind : List Char} (h : ∀ c ∈ kind, isWord c) :
    ∀ c ∈ eventStruct kind, isWord c := by
  have hes : ∀ c ∈ "es_event_".toList, isWord c := List.all_eq_true.mp rfl
  have ht : ∀ c ∈ "_t".toList, isWord c := List.all_eq_true.mp rfl
  simp only [eventStruct_def, List.forall_mem_append]
  exact ⟨hes, h, ht⟩

variable {kind kind' tail tail' text text' : List Char}

/-- There is no brace behind the first. -/
theorem IsEventClosing.exists_eq (h : IsEventClosing kind tail text) :
    ∃ u, text = '\x7d' :: u ∧ ∀ c ∈ u, c ≠ '\x7d' := by
  obtain ⟨space, hspace, ⟨-, hword⟩, htail, rfl⟩ := h
  have hnotspace : isSpace '\x7d' = false := by decide
  have hnotword : isWord '\x7d' = false := by decide
  -- Neither a space nor a word character is a brace
  have hspaces : ∀ l : List Char, (∀ c ∈ l, isSpace c) → ∀ c ∈ l, c ≠ '\x7d' := by
    rintro l hl _ hc rfl
    rw [hl _ hc] at hnotspace
    cases hnotspace
  refine ⟨_, rfl, ?_⟩
  simp only [List.forall_mem_append, List.forall_mem_singleton]
  refine ⟨hspaces _ hspace, ?_, hspaces _ htail, by decide⟩
  rintro _ hc rfl
  rw [isWord_eventStruct hword _ hc] at hnotword
  cases hnotword

theorem headed_eventEnd : eventEnd.Headed (· = '\x7d') := by
  intro previous matched rest groups hmatch
  obtain ⟨kind, hclosing, -⟩ := matches_eventEnd.mp hmatch
  obtain ⟨u, rfl, hu⟩ := hclosing.exists_eq
  exact ⟨_, u, rfl, rfl, hu⟩

theorem head_eventStruct (kind rest : List Char) :
    (eventStruct kind ++ rest).head? = some 'e' := by
  simp [eventStruct_def]

theorem eventStruct_inj (h : eventStruct kind = eventStruct kind') : kind = kind' :=
  List.append_cancel_right (List.append_cancel_left h)

/-- At one place only one structure can be closed. -/
theorem IsEventClosing.inj {rest' : List Char} (h : IsEventClosing kind tail text)
    (h' : IsEventClosing kind' tail' text') (htext : text ++ rest = text' ++ rest') :
    kind = kind' ∧ tail = tail' ∧ text = text' := by
  obtain ⟨space, hspace, ⟨-, hword⟩, htail, rfl⟩ := h
  obtain ⟨space', hspace', ⟨-, hword'⟩, htail', rfl⟩ := h'
  -- A name starts with a letter, and a semicolon belongs to none of the runs
  have he : ∀ kind rest : List Char, ∀ c ∈ (eventStruct kind ++ rest).head?, ¬ isSpace c := by
    intro kind rest c hc
    rw [head_eventStruct] at hc
    cases hc
    decide
  have hsemicolon : ∀ rest : List Char, ∀ p : Char → Bool, p ';' = false →
      ∀ c ∈ (';' :: rest).head?, ¬ p c :=
    fun rest p hp => List.forall_mem_head?_cons (by simp [hp])
  have hnotword : ∀ c, isSpace c → ¬ isWord c := fun c hc => by simp [isWord_of_isSpace hc]
  simp only [List.cons_append, List.append_assoc, List.cons.injEq, true_and, List.nil_append]
    at htext
  -- The spaces up to the name, the name, and the spaces behind it
  obtain ⟨hspaces, hrest⟩ := List.append_inj_of_class htext hspace hspace' (he _ _) (he _ _)
  obtain ⟨hname, hrest⟩ := List.append_inj_of_class hrest (isWord_eventStruct hword)
    (isWord_eventStruct hword')
    (head_append_of_isSpace htail hnotword (hsemicolon rest isWord (by decide)))
    (head_append_of_isSpace htail' hnotword (hsemicolon rest' isWord (by decide)))
  obtain ⟨htails, -⟩ := List.append_inj_of_class hrest htail htail'
    (hsemicolon rest isSpace (by decide)) (hsemicolon rest' isSpace (by decide))
  exact ⟨eventStruct_inj hname, htails, by rw [hspaces, hname, htails]⟩

/-! ## What is found before a brace -/

/-- The brace itself is no part of a start of a comment. -/
theorem cacheKeyAt_iff (before after : List Char) :
    cacheKeyAt (before ++ '\x7d' :: after) before.length ↔ KeyBefore before := by
  have hapart : Substring.Apart commentStart before ('\x7d' :: after) :=
    Substring.apart_of_head (List.forall_mem_head?_cons (by decide))
  rw [cacheKeyAt, hapart.rindex_append, List.take_left, KeyBefore, fromLast]
  -- Without the start of a comment there is nothing to search, on either side
  cases rindex before commentStart before.length with
  | none => simp
  | some start => simp [Substring.isSome_strstr]

/-- In the source, what closes the structure of the event stands behind the phrase. -/
def Closed (source kind : List Char) : Prop :=
  ∃ before text after, source = before ++ (text ++ after) ∧ IsEventClosing kind [] text ∧
    KeyBefore before

theorem mem_cacheableStructs {source : List Char} {name : String} :
    name ∈ cacheableStructs source ↔
      ∃ kind, Closed source kind ∧ name = .ofList (eventStruct kind) := by
  rw [cacheableStructs, List.mem_filterMap]
  constructor
  · rintro ⟨f, hf, hname⟩
    -- A match is a closing, and the position that is tested is that of its brace
    obtain ⟨hsource, hrun⟩ := (Regex.mem_scan headed_eventEnd).mp hf
    obtain ⟨kind, hclosing, hgroups⟩ := matches_eventEnd.mp (Regex.matches_of_run_head hrun).2
    obtain ⟨u, htext, -⟩ := hclosing.exists_eq
    split_ifs at hname with hkey
    rw [hsource, htext, List.cons_append, cacheKeyAt_iff] at hkey
    rw [hgroups] at hname
    exact ⟨kind, ⟨f.before, f.text, f.rest, hsource, hclosing, hkey⟩, (Option.some.inj hname).symm⟩
  · rintro ⟨kind, ⟨before, text, after, rfl, hclosing, hkey⟩, rfl⟩
    -- A closing can be matched where it stands
    have hmatch : Matches eventEnd (Regex.last none before) text after [eventStruct kind] :=
      matches_eventEnd.mpr ⟨kind, hclosing, rfl⟩
    obtain ⟨m, hm⟩ := Regex.exists_run_head hmatch
    obtain ⟨htext, hmatch'⟩ := Regex.matches_of_run_head hm
    obtain ⟨kind', hclosing', hgroups⟩ := matches_eventEnd.mp hmatch'
    -- Nothing else can be matched at this place
    obtain ⟨rfl, -, rfl⟩ := hclosing.inj hclosing' htext
    obtain rfl := List.append_cancel_left htext
    refine ⟨⟨m, before⟩, (Regex.mem_scan headed_eventEnd).mpr ⟨rfl, hm⟩, ?_⟩
    obtain ⟨u, hu, -⟩ := hclosing.exists_eq
    have hcache : cacheKeyAt (before ++ (m.text ++ m.rest)) before.length := by
      rw [hu, List.cons_append, cacheKeyAt_iff]
      exact hkey
    rw [if_pos hcache, hgroups]
    rfl

theorem deletePrefix_of_append {part text : String} {back : List Char}
    (h : text.toList = part.toList ++ back) : deletePrefix part text = .ofList back := by
  have hlength : part.length = part.toList.length := String.length_toList.symm
  rw [deletePrefix, h, if_pos (List.isPrefixOf_iff_prefix.mpr (List.prefix_append ..)), hlength,
    List.drop_left]

theorem deleteSuffix_of_append {part text : String} {front : List Char}
    (h : text.toList = front ++ part.toList) : deleteSuffix part text = .ofList front := by
  have hlength : text.length - part.length = front.length := by
    rw [← String.length_toList, ← String.length_toList, h, List.length_append, Nat.add_sub_cancel]
  rw [deleteSuffix, hlength, h, if_pos (List.isSuffixOf_iff_suffix.mpr (List.suffix_append ..)),
    List.take_left]

/-- What is left of the name of a structure is the name of its event. -/
theorem delete_eventStruct (kind : List Char) :
    deleteSuffix "_t" (deletePrefix "es_event_" (.ofList (eventStruct kind))) = .ofList kind := by
  have hfront : deletePrefix "es_event_" (.ofList (eventStruct kind)) =
      .ofList (kind ++ "_t".toList) := deletePrefix_of_append String.toList_ofList
  rw [hfront, deleteSuffix_of_append String.toList_ofList]

variable {source : List Char} {events : List Event}

theorem mem_suffixes {name : String} :
    name ∈ (cacheableStructs source).map
        (fun name => deleteSuffix "_t" (deletePrefix "es_event_" name)) ↔
      Closed source name.toList := by
  rw [List.mem_map]
  constructor
  · rintro ⟨struct, hstruct, rfl⟩
    obtain ⟨kind, hclosed, rfl⟩ := mem_cacheableStructs.mp hstruct
    rwa [delete_eventStruct, String.toList_ofList]
  · intro hclosed
    refine ⟨_, mem_cacheableStructs.mpr ⟨_, hclosed, rfl⟩, ?_⟩
    rw [delete_eventStruct, String.ofList_toList]

/-! ## The comment that is searched -/

namespace EventStruct

variable {s s' : EventStruct} {prior prior' : List Char}

/-- The definition starts with the `t` of `typedef`. -/
theorem head_body (s : EventStruct) : ∀ c ∈ s.body.head?, c ∉ commentStart := by
  obtain ⟨rest, hrest⟩ := s.body_typedef
  rw [← hrest]
  exact List.forall_mem_head?_cons (c := 't') (by decide)

/-- No start of a comment goes on from what stands before into the definition. -/
theorem apart_definition (s : EventStruct) (front : List Char) :
    Substring.Apart commentStart front (s.gap ++ s.body) := by
  -- The definition has a space or the `t` of `typedef` where a start would have to go on
  have hspace : ∀ c, isSpace c → ¬ commentStart.contains c := by
    intro c hc
    simp only [isSpace, Bool.or_eq_true, beq_iff_eq] at hc
    rcases hc with ((((rfl | rfl) | rfl) | rfl) | rfl) | rfl <;> decide
  have hbody : ∀ c ∈ s.body.head?, ¬ commentStart.contains c := fun c hc hmem =>
    s.head_body c hc (List.contains_iff_mem.mp hmem)
  refine Substring.apart_of_head fun c hc hmem => ?_
  exact head_append_of_isSpace s.gap_space hspace hbody c hc (List.contains_iff_mem.mpr hmem)

/-- The spaces before the definition have no start of a comment. -/
theorem fromLast_definition (s : EventStruct) :
    fromLast commentStart (s.gap ++ s.body) = fromLast commentStart s.body := by
  cases hbody : fromLast commentStart s.body with
  | some t => exact Substring.fromLast_append_of_some hbody
  | none =>
    have hgap : fromLast commentStart s.gap = none := by
      -- A start of a comment would be a space
      rw [Substring.fromLast_eq_none_iff]
      rintro hinfix
      have hslash : '/' ∈ s.gap := hinfix.subset (by decide)
      exact absurd (s.gap_space _ hslash) (by decide)
    have hapart : Substring.Apart commentStart s.gap s.body := Substring.apart_of_head s.head_body
    rw [Substring.fromLast_append_of_none (by decide) hapart hbody, hgap, Option.map_none]

/-- What is searched is the text from the last start of a comment before the closing brace on. -/
theorem fromLast_front (prior : List Char) (s : EventStruct) :
    fromLast commentStart (prior ++ s.front) = s.searched prior := by
  have hdefinition := s.fromLast_definition
  rw [front, searched]
  -- A comment in the body starts last, and that of the structure behind what stands before it
  cases hbody : fromLast commentStart s.body with
  | some t =>
    rw [hbody] at hdefinition
    have := Substring.fromLast_append_of_some (a := prior ++ (s.lead ++ s.comment.getD []))
      hdefinition
    simpa using this
  | none =>
    rw [hbody] at hdefinition
    cases hcomment : s.comment with
    | some c =>
      have happend := Substring.fromLast_append_of_none (by decide) (s.apart_definition c)
        hdefinition
      obtain ⟨inner, rfl, -⟩ := s.comment_doc c hcomment
      -- The comment has a start of one, its own
      cases hc : fromLast commentStart (commentStart ++ inner) with
      | none =>
        exact absurd (List.prefix_append ..).isInfix (Substring.fromLast_eq_none_iff.mp hc)
      | some t =>
        rw [hc, Option.map_some] at happend
        have := Substring.fromLast_append_of_some (a := prior ++ s.lead) happend
        simpa [hc] using this
    | none =>
      -- Without any of its own, the structure is left with the comment before it
      have := Substring.fromLast_append_of_none (by decide)
        (s.apart_definition (prior ++ s.lead)) hdefinition
      simpa using this

theorem keyBefore_iff (prior : List Char) (s : EventStruct) :
    KeyBefore (prior ++ s.front) ↔ ∃ t ∈ s.searched prior, cacheKeyPhrase <:+: t := by
  rw [KeyBefore, fromLast_front]
  rfl

theorem isEventClosing (s : EventStruct) : IsEventClosing s.kind.toList s.tail s.closing :=
  ⟨s.space, s.space_space, s.kind_word, s.tail_space, rfl⟩

end EventStruct

/-! ## Which events are returned -/

namespace EventHeader

variable {h : EventHeader} {s s' : EventStruct} {prior prior' : List Char} {e : Event}

theorem At.mem (hat : h.At prior s) : s ∈ h.structs := by
  obtain ⟨before, after, hstructs, -⟩ := hat
  rw [hstructs]
  simp

theorem exists_at (hs : s ∈ h.structs) : ∃ prior, h.At prior s := by
  obtain ⟨before, after, hstructs⟩ := List.append_of_mem hs
  exact ⟨_, before, after, hstructs, rfl⟩

theorem At.source_eq (hat : h.At prior s) :
    ∃ after, h.source = (prior ++ s.front) ++ (s.closing ++ after) := by
  obtain ⟨before, after, hstructs, rfl⟩ := hat
  refine ⟨after.flatMap EventStruct.text ++ h.trailer, ?_⟩
  rw [source, hstructs]
  simp [EventStruct.text]

/-- Structures that are closed at the same place are the same. -/
theorem At.eq (hat : h.At prior s) (hat' : h.At prior' s')
    (hplace : prior ++ s.front = prior' ++ s'.front) : s = s' := by
  obtain ⟨before, after, hstructs, rfl⟩ := hat
  obtain ⟨before', after', hstructs', rfl⟩ := hat'
  rw [hstructs] at hstructs'
  -- A structure that stands before another is closed before it
  have hlt : ∀ (s s' : EventStruct) (between : List EventStruct) (before : List EventStruct),
      before.flatMap EventStruct.text ++ s.front ≠
        (before ++ s :: between).flatMap EventStruct.text ++ s'.front := by
    intro s s' between before heq
    have := congrArg List.length heq
    simp [EventStruct.text, EventStruct.closing] at this
  -- Two places in one list: they are the same, or one comes first
  rcases List.append_eq_append_iff.mp hstructs' with ⟨between, hbefore, hafter⟩ |
    ⟨between, hbefore, hafter⟩
  · cases between with
    | nil => exact (List.cons.inj hafter).1
    | cons t between =>
      obtain ⟨rfl, -⟩ := List.cons.inj hafter
      rw [hbefore] at hplace
      exact absurd hplace (hlt s s' between before)
  · cases between with
    | nil => exact (List.cons.inj hafter).1.symm
    | cons t between =>
      obtain ⟨rfl, -⟩ := List.cons.inj hafter
      rw [hbefore] at hplace
      exact absurd hplace.symm (hlt s' s between before')

/-- What can be matched where a structure is closed is its closing. -/
theorem At.closing_eq {before text after kind tail : List Char} (hat : h.At prior s)
    (hsource : h.source = before ++ (text ++ after)) (hclosing : IsEventClosing kind tail text)
    (hbefore : before = prior ++ s.front) : kind = s.kind.toList ∧ tail = s.tail := by
  obtain ⟨after', hsource'⟩ := hat.source_eq
  rw [hsource', hbefore] at hsource
  obtain ⟨hkind, htail, -⟩ := hclosing.inj s.isEventClosing (List.append_cancel_left hsource).symm
  exact ⟨hkind, htail⟩

theorem At.closed (hat : h.At prior s) (htail : s.tail = []) (hkey : KeyBefore (prior ++ s.front)) :
    Closed h.source s.kind.toList := by
  obtain ⟨after, hsource⟩ := hat.source_eq
  exact ⟨_, s.closing, after, hsource, htail ▸ s.isEventClosing, hkey⟩

/-- In a clean header the closings behind the phrase are those of documented structures. -/
theorem Clean.closed_iff (hclean : h.Clean events) (he : e ∈ events) (hauth : e.IsAuth) :
    Closed h.source e.kindName.toList ↔ h.Documents e.kindName := by
  constructor
  · rintro ⟨before, text, after, hsource, hclosing, hkey⟩
    -- What closes the event is the closing of a structure, or stands anywhere else
    by_cases hplace : ∃ prior s, h.At prior s ∧ before = prior ++ s.front
    · obtain ⟨prior, s, hat, rfl⟩ := hplace
      obtain ⟨hkind, htail⟩ := hat.closing_eq hsource hclosing rfl
      have hname : e.kindName = s.kind := String.toList_inj.mp hkind
      have hdocumented : s.Documented := (hclean.structs prior s hat ⟨e, he, hauth, hname⟩).mpr
        ⟨htail.symm, (EventStruct.keyBefore_iff prior s).mp hkey⟩
      exact ⟨s, hat.mem, hname.symm, hdocumented⟩
    · refine hclean.others e he hauth before text after hsource hclosing ?_ hkey
      exact fun prior s hat hbefore => hplace ⟨prior, s, hat, hbefore⟩
  · rintro ⟨s, hs, hname, hdocumented⟩
    obtain ⟨prior, hat⟩ := exists_at hs
    obtain ⟨htail, hkey⟩ := (hclean.structs prior s hat ⟨e, he, hauth, hname.symm⟩).mp hdocumented
    rw [← hname]
    exact hat.closed htail ((EventStruct.keyBefore_iff prior s).mpr hkey)

/-- If no name is closed twice, the header has to be clean for that. -/
theorem ClosedOnce.clean (honce : h.ClosedOnce)
    (hall : ∀ e ∈ events, e.IsAuth → (Closed h.source e.kindName.toList ↔
      h.Documents e.kindName)) : h.Clean events := by
  constructor
  · rintro prior s hat ⟨e, he, hauth, hname⟩
    rw [EventStruct.Clean, ← EventStruct.keyBefore_iff]
    have hiff := hall e he hauth
    rw [hname] at hiff
    obtain ⟨after', hsource'⟩ := hat.source_eq
    constructor
    · -- The name is closed once, so the closing behind the phrase is that of the structure
      intro hdocumented
      obtain ⟨before, text, after, hsource, hclosing, hkey⟩ :=
        hiff.mpr ⟨s, hat.mem, rfl, hdocumented⟩
      have hplace : before = prior ++ s.front :=
        honce _ _ _ _ _ _ _ _ _ hsource hsource' hclosing s.isEventClosing
      exact ⟨(hat.closing_eq hsource hclosing hplace).2.symm, hplace ▸ hkey⟩
    · rintro ⟨htail, hkey⟩
      -- The documented structure of the same name is closed at the same place
      obtain ⟨s', hs', hname', hdocumented⟩ := hiff.mp (hat.closed htail hkey)
      obtain ⟨prior', hat'⟩ := exists_at hs'
      obtain ⟨after'', hsource''⟩ := hat'.source_eq
      have hplace : prior' ++ s'.front = prior ++ s.front := honce _ _ _ _ _ _ _ _ _ hsource''
        hsource' (hname' ▸ s'.isEventClosing) s.isEventClosing
      rwa [← hat'.eq hat hplace]
  · intro e he hauth before text after hsource hclosing _ hkey
    exact (hall e he hauth).mp ⟨before, text, after, hsource, hclosing, hkey⟩

/-- The documented events are returned iff for every event of the list a closing of its structure
    stands behind the phrase iff the structure is documented. -/
theorem cacheableEvents_eq_iff :
    cacheableEvents h.source events = h.documentedEvents events ↔
      ∀ e ∈ events, e.IsAuth → (Closed h.source e.kindName.toList ↔ h.Documents e.kindName) := by
  rw [cacheableEvents, documentedEvents, List.map_filter_eq_iff]
  · -- An event is returned iff it is an AUTH event and its name is one that was found
    refine forall₂_congr fun e he => ?_
    have hauth : "auth_".toList.isPrefixOf e.symbol.toList ↔ e.IsAuth := List.isPrefixOf_iff_prefix
    rw [Bool.eq_iff_iff, decide_eq_true_iff, Bool.and_eq_true, hauth, List.contains_iff_mem,
      mem_suffixes]
    exact and_congr_right_iff
  · -- The events of the list are told apart by their symbols
    intro e e' hsymbol
    rw [hsymbol]
  · intro e e' hsymbol
    have hauth : e.IsAuth ↔ e'.IsAuth := by
      unfold Event.IsAuth
      rw [hsymbol]
    have hkind : e.kindName = e'.kindName := by
      unfold Event.kindName
      rw [hsymbol]
    rw [Bool.eq_iff_iff, decide_eq_true_iff, decide_eq_true_iff, hauth, hkind]

/-- A clean header has exactly the documented events returned. If no name is closed twice in the
    header, they are returned only of a clean one. -/
theorem cacheableEvents_documented_iff (h : EventHeader) (events : List Event) :
    (h.Clean events → cacheableEvents h.source events = h.documentedEvents events) ∧
    (h.ClosedOnce →
      (cacheableEvents h.source events = h.documentedEvents events ↔ h.Clean events)) := by
  have hclean : h.Clean events → cacheableEvents h.source events = h.documentedEvents events :=
    fun hclean => cacheableEvents_eq_iff.mpr fun e he hauth => hclean.closed_iff he hauth
  exact ⟨hclean, fun honce => ⟨fun heq => honce.clean (cacheableEvents_eq_iff.mp heq), hclean⟩⟩

end EventHeader

/-! ## Structures with one comment -/

/-- A structure whose own comment is the only one, and the only place that can have the phrase;
    the only brace that closes is its own. -/
structure EventStruct.Plain (s : EventStruct) : Prop where
  tail : s.tail = []
  comment : ∃ c, s.comment = some c ∧ fromLast commentStart c = some c
  body : ¬ commentStart <:+: s.body
  phrase : ¬ cacheKeyPhrase <:+: s.gap ++ s.body
  brace : '\x7d' ∉ s.front

/-- A comment ends in a character that the phrase does not have. -/
theorem IsDocComment.getLast {c : List Char} (h : IsDocComment c) :
    ∀ d ∈ c.getLast?, d ∉ cacheKeyPhrase := by
  obtain ⟨inner, rfl, -, ⟨front, rfl⟩, -⟩ := h
  intro d hd
  rw [← List.append_assoc, List.getLast?_append] at hd
  obtain rfl : '/' = d := by simpa using hd
  decide

theorem EventStruct.clean_of_plain {s : EventStruct} (hplain : s.Plain) (prior : List Char) :
    s.Clean prior := by
  obtain ⟨c, hcomment, hlast⟩ := hplain.comment
  have hsearched : s.searched prior = some (c ++ (s.gap ++ s.body)) := by
    rw [searched, Substring.fromLast_eq_none_iff.mpr hplain.body, hcomment]
    simp [hlast]
  have hphrase : cacheKeyPhrase <:+: c ++ (s.gap ++ s.body) ↔ cacheKeyPhrase <:+: c := by
    -- The comment ends in a slash, so that the phrase does not go on behind it
    rw [Substring.infix_append_iff_of_last (s.comment_doc c hcomment).getLast,
      or_iff_left hplain.phrase]
  rw [Clean, Documented, hsearched, hcomment]
  simp [hplain.tail, hphrase]

/-- A brace in a sequence of such structures is the closing brace of one. -/
theorem exists_of_brace {structs : List EventStruct} {trailer before after : List Char}
    (hstructs : ∀ s ∈ structs, '\x7d' ∉ s.front) (htrailer : '\x7d' ∉ trailer)
    (h : structs.flatMap EventStruct.text ++ trailer = before ++ '\x7d' :: after) :
    ∃ front s back, structs = front ++ s :: back ∧
      before = front.flatMap EventStruct.text ++ s.front := by
  induction structs generalizing before with
  | nil =>
    rw [List.flatMap_nil, List.nil_append] at h
    exact absurd (by rw [h]; simp) htrailer
  | cons s structs ih =>
    rw [List.forall_mem_cons] at hstructs
    -- The brace is that of the first structure or stands behind its closing
    obtain ⟨u, hclosing, hu⟩ := s.isEventClosing.exists_eq
    rw [List.flatMap_cons, EventStruct.text, List.append_assoc, List.append_assoc, hclosing] at h
    obtain ⟨w, rfl, hrest⟩ := List.append_eq_append_cons_of_not_mem hstructs.1 h
    cases w with
    | nil => exact ⟨[], s, structs, rfl, by simp⟩
    | cons d w =>
      -- Behind the closing of this structure
      obtain ⟨rfl, hbehind⟩ := List.cons.inj hrest
      obtain ⟨w', rfl, hnext⟩ :=
        List.append_eq_append_cons_of_not_mem (fun hmem => hu _ hmem rfl) hbehind
      obtain ⟨front, s', back, rfl, rfl⟩ := ih hstructs.2 hnext
      refine ⟨s :: front, s', back, rfl, ?_⟩
      rw [List.flatMap_cons, EventStruct.text, hclosing]
      simp

/-- A header of such structures is clean. -/
theorem EventHeader.clean_of_plain {h : EventHeader} (hplain : ∀ s ∈ h.structs, s.Plain)
    (htrailer : '\x7d' ∉ h.trailer) (events : List Event) : h.Clean events := by
  constructor
  · intro prior s hat _
    exact EventStruct.clean_of_plain (hplain s hat.mem) prior
  · intro e _ _ before text after hsource hclosing hother _
    -- A closing starts with a brace, and there is one in each closing only
    obtain ⟨u, rfl, -⟩ := hclosing.exists_eq
    obtain ⟨front, s, back, hstructs, hbefore⟩ :=
      exists_of_brace (fun s hs => (hplain s hs).brace) htrailer hsource
    exact absurd hbefore (hother _ s ⟨front, back, hstructs, rfl⟩)

/-! ## A field with a comment -/

/-- `/** Cache key for this event type */` -/
def cacheKeyComment : List Char := "/** Cache key for this event type */".toList

theorem isDocComment_cacheKeyComment : ∀ c ∈ some cacheKeyComment, IsDocComment c := by
  intro c hc
  cases hc
  exact ⟨" Cache key for this event type */".toList, by decide, by decide, by decide⟩

/-- A structure with this comment before it and one field. -/
def documentedStruct (field : List Char) : EventStruct where
  lead := []
  comment := some cacheKeyComment
  gap := ['\n']
  body := "typedef struct \x7b\n\tint a; ".toList ++ field ++ ['\n']
  space := [' ']
  kind := "foo"
  tail := []
  comment_doc := isDocComment_cacheKeyComment
  comment_none := nofun
  gap_space := List.all_eq_true.mp rfl
  body_typedef := ⟨" struct \x7b\n\tint a; ".toList ++ field ++ ['\n'], by simp⟩
  space_space := isSpace_blank
  kind_word := ⟨by decide, List.all_eq_true.mp rfl⟩
  tail_space := isSpace_nil

/-- `auth_foo` -/
def authFoo : Event where
  name := "ES_EVENT_TYPE_AUTH_FOO"
  symbol := "auth_foo"
  value := 0
  minimumOs := "10.15"
  reserved := false

/-- The field has a comment, too. -/
def commentedField : EventHeader := ⟨[documentedStruct "/** a */".toList], ['\n']⟩

/-- The comment of the field is searched in place of the structure's own. -/
theorem commentedField_not_returned :
    cacheableEvents commentedField.source [authFoo] ≠
      commentedField.documentedEvents [authFoo] := by
  have hreturned : cacheableEvents commentedField.source [authFoo] = [] := by decide +kernel
  have hdocumented : commentedField.documentedEvents [authFoo] = ["auth_foo"] := by decide +kernel
  rw [hreturned, hdocumented]
  nofun

/-- `/** Cached by nobody */` -/
def otherComment : List Char := "/** Cached by nobody */".toList

/-- A structure with another comment before it. -/
def otherStruct : EventStruct where
  lead := ['\n']
  comment := some otherComment
  gap := ['\n']
  body := "typedef struct \x7b\n\tint b;\n".toList
  space := [' ']
  kind := "bar"
  tail := []
  comment_doc := by
    intro c hc
    cases hc
    exact ⟨" Cached by nobody */".toList, by decide, by decide, by decide⟩
  comment_none := nofun
  gap_space := List.all_eq_true.mp rfl
  body_typedef := ⟨" struct \x7b\n\tint b;\n".toList, rfl⟩
  space_space := isSpace_blank
  kind_word := ⟨by decide, List.all_eq_true.mp rfl⟩
  tail_space := isSpace_nil

/-- `auth_bar` -/
def authBar : Event := { authFoo with name := "ES_EVENT_TYPE_AUTH_BAR", symbol := "auth_bar" }

/-- The fields have no comments, and the structures have different ones. -/
def plainField : EventHeader := ⟨[documentedStruct [], otherStruct], ['\n']⟩

theorem plainField_returned : cacheableEvents plainField.source [authFoo, authBar] =
    plainField.documentedEvents [authFoo, authBar] := by
  have hdocumented : (documentedStruct []).Plain :=
    ⟨rfl, ⟨_, rfl, by decide +kernel⟩, by decide +kernel, by decide +kernel, by decide +kernel⟩
  have hother : otherStruct.Plain :=
    ⟨rfl, ⟨_, rfl, by decide +kernel⟩, by decide +kernel, by decide +kernel, by decide +kernel⟩
  refine (EventHeader.cacheableEvents_documented_iff plainField [authFoo, authBar]).1 ?_
  refine EventHeader.clean_of_plain ?_ (by decide) _
  intro s hs
  rcases List.mem_cons.mp hs with rfl | hs
  · exact hdocumented
  · obtain rfl := List.mem_singleton.mp hs
    exact hother

end EndpointSecurity.Codegen
