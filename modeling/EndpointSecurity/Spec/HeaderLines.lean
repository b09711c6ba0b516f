import EndpointSecurity.Codegen.HeaderScan
import EndpointSecurity.ForStd.List

/-!
# Lines of structure definitions

The two lines between which the definition of a structure stands, `typedef struct [tag] {` and
`} name;`, and what the regular expressions of the code generator make of them: every opening
line is recognised, and a closing line is if the name is `es_..._t`.

## Key results

- `OpeningLine.opens`: an opening line opens a definition
- `ClosingLine.recordEnded_eq_some`, `ClosingLine.recordEnded_eq_none`: which closing lines end one
-/

namespace EndpointSecurity.Codegen

open Regex (Matches)

variable {previous : Option Char} {matched rest : List Char} {groups : List (List Char)}

/-- `es_..._t`, an identifier. -/
def IsRecordName (name : List Char) : Prop :=
  ∃ middle, middle ≠ [] ∧ (∀ c ∈ middle, isWord c) ∧
    name = "es_".toList ++ (middle ++ "_t".toList)

/-- What `recordEnd` matches. -/
theorem matches_recordEnd : Matches recordEnd previous matched rest groups ↔
    lineStart previous (matched ++ rest).head? ∧ ∃ indent gap middle space,
      (∀ c ∈ indent, isSpace c) ∧ (∀ c ∈ gap, isSpace c) ∧ (∀ c ∈ middle, isWord c) ∧
      (∀ c ∈ space, isSpace c) ∧ middle ≠ [] ∧
      matched = indent ++ '\x7d' :: (gap ++ (("es_".toList ++ (middle ++ "_t".toList)) ++
        (space ++ [';']))) ∧
      groups = ["es_".toList ++ (middle ++ "_t".toList)] := by
  constructor
  · -- One part after another, from the start of the line to the semicolon
    rintro ⟨_, v, _, h, ⟨hstart, rfl, rfl⟩, hv, rfl, rfl⟩
    obtain ⟨indent, v, _, h, ⟨hindent, rfl⟩, hv, rfl, rfl⟩ := hv
    obtain ⟨_, v, _, h, ⟨⟨c, hc, rfl⟩, rfl⟩, hv, rfl, rfl⟩ := hv
    obtain ⟨gap, v, _, h, ⟨hgap, rfl⟩, hv, rfl, rfl⟩ := hv
    obtain ⟨name, v, _, h, ⟨g, hname, rfl⟩, hv, rfl, rfl⟩ := hv
    obtain ⟨space, v, _, h, ⟨hspace, rfl⟩, hv, rfl, rfl⟩ := hv
    obtain ⟨_, _, _, _, ⟨⟨d, hd, rfl⟩, rfl⟩, ⟨rfl, rfl⟩, rfl, rfl⟩ := hv
    -- The group is `es_`, one word character or more, and `_t`
    obtain ⟨es, y, _, _, hes, hy, rfl, rfl⟩ := hname
    obtain ⟨middle, z, _, _, hmiddle, hz, rfl, rfl⟩ := hy
    obtain ⟨t, _, _, _, ht, ⟨rfl, rfl⟩, rfl, rfl⟩ := hz
    obtain ⟨rfl, rfl⟩ := Regex.matches_literal.mp hes
    obtain ⟨hne, hword, rfl⟩ := Regex.matches_many1.mp hmiddle
    obtain ⟨rfl, rfl⟩ := Regex.matches_literal.mp ht
    obtain rfl := eq_of_beq hc
    obtain rfl := eq_of_beq hd
    exact ⟨hstart, indent, gap, middle, space, hindent, hgap, hword, hspace, hne, rfl, rfl⟩
  · -- And the other way round
    rintro ⟨hstart, indent, gap, middle, space, hindent, hgap, hmiddle, hspace, hne, rfl, rfl⟩
    have hname : Matches (.all [.literal "es_".toList, .many1 isWord, .literal "_t".toList])
        (Regex.last (Regex.last (Regex.last previous indent) ['\x7d']) gap)
        ("es_".toList ++ (middle ++ "_t".toList)) ((space ++ [';']) ++ rest) [] :=
      ⟨_, _, [], [], Regex.matches_literal.mpr ⟨rfl, rfl⟩,
        ⟨middle, _, [], [], Regex.matches_many1.mpr ⟨hne, hmiddle, rfl⟩,
          ⟨_, [], [], [], Regex.matches_literal.mpr ⟨rfl, rfl⟩, ⟨rfl, rfl⟩, rfl, rfl⟩, rfl, rfl⟩,
        rfl, rfl⟩
    exact ⟨[], _, [], _, ⟨hstart, rfl, rfl⟩, ⟨indent, _, [], _, ⟨hindent, rfl⟩,
      ⟨['\x7d'], _, [], _, ⟨⟨_, rfl, rfl⟩, rfl⟩, ⟨gap, _, [], _, ⟨hgap, rfl⟩,
        ⟨_, _, _, [], ⟨[], hname, rfl⟩, ⟨space, [';'], [], [], ⟨hspace, rfl⟩,
          ⟨[';'], [], [], [], ⟨⟨_, rfl, rfl⟩, rfl⟩, ⟨rfl, rfl⟩, rfl, rfl⟩, rfl, rfl⟩,
          rfl, rfl⟩, rfl, rfl⟩, rfl, rfl⟩, rfl, rfl⟩, rfl, rfl⟩

/-! ## Lines -/

/-- A line ends at its newline. -/
def IsLine (line : List Char) : Prop := ∀ u v, line = u ++ '\n' :: v → v = []

/-- A text is cut into lines. -/
theorem isLine_of_mem_eachLine {source line : List Char} (h : line ∈ eachLine source) :
    IsLine line := by
  -- Induction on the text; a line grows by one character in front
  induction source generalizing line with
  | nil => cases h
  | cons c source ih =>
    rw [eachLine] at h
    split_ifs at h with hc
    · rcases List.mem_cons.mp h with rfl | h
      · intro u v huv
        cases u with
        | nil => cases huv; rfl
        | cons d u => simp at huv
      · exact ih h
    · -- The character goes in front of the next line, which has no other newline either
      have hcons : ∀ tail, IsLine tail → IsLine (c :: tail) := by
        intro tail htail u v huv
        cases u with
        | nil => cases huv; exact absurd rfl hc
        | cons d u => cases huv; exact htail u v rfl
      cases hlines : eachLine source with
      | nil =>
        rw [hlines] at h
        obtain rfl := List.mem_singleton.mp h
        exact hcons [] fun u v huv => by simp at huv
      | cons first lines =>
        rw [hlines] at h ih
        rcases List.mem_cons.mp h with rfl | h
        · exact hcons first (ih List.mem_cons_self)
        · exact ih (List.mem_cons_of_mem _ h)

/-! ## Closing lines -/

/-- What a name may consist of: anything but spaces and the semicolon that ends it. -/
def isNameChar (c : Char) : Bool := !isSpace c && c != ';'

/-- `} name;` on a line of its own, with any text behind it. -/
structure ClosingLine where
  indent : List Char
  gap : List Char
  name : String
  space : List Char
  rest : List Char
  indent_space : ∀ c ∈ indent, isSpace c
  gap_space : ∀ c ∈ gap, isSpace c
  name_chars : name.toList ≠ [] ∧ ∀ c ∈ name.toList, isNameChar c
  space_space : ∀ c ∈ space, isSpace c

def ClosingLine.text (c : ClosingLine) : List Char :=
  c.indent ++ '\x7d' :: (c.gap ++ (c.name.toList ++ (c.space ++ ';' :: c.rest)))

theorem isSpace_nil : ∀ c ∈ ([] : List Char), isSpace c := by simp

theorem isSpace_blank : ∀ c ∈ [' '], isSpace c := List.all_eq_true.mp rfl

theorem isWord_of_isSpace {c : Char} (h : isSpace c) : isWord c = false := by
  -- The six characters of the class, one by one
  simp only [isSpace, Bool.or_eq_true, beq_iff_eq] at h
  rcases h with ((((rfl | rfl) | rfl) | rfl) | rfl) | rfl <;> decide

theorem isNameChar_of_isWord {c : Char} (h : isWord c) : isNameChar c := by
  have hspace : isSpace c = false := by
    rw [Bool.eq_false_iff]
    intro hs
    rw [isWord_of_isSpace hs] at h
    cases h
  have hne : c ≠ ';' := by
    rintro rfl
    exact absurd h (by decide)
  simp [isNameChar, hspace, hne]

/-- What follows spaces in a line, where no space does. -/
theorem head_append_of_isSpace {space tail : List Char} {p : Char → Bool}
    (hspace : ∀ c ∈ space, isSpace c) (hp : ∀ c, isSpace c → ¬ p c) (ht : ∀ c ∈ tail.head?, ¬ p c) :
    ∀ c ∈ (space ++ tail).head?, ¬ p c := by
  cases space with
  | nil => exact ht
  | cons d space => exact List.forall_mem_head?_cons (hp _ (hspace _ List.mem_cons_self))

/-- The name that a closing line ends in is the one that `recordEnd` can match in it. -/
theorem ClosingLine.name_of_matches {c : ClosingLine}
    (hmatch : Matches recordEnd none matched rest groups) (htext : c.text = matched ++ rest) :
    groups = [c.name.toList] ∧ IsRecordName c.name.toList := by
  obtain ⟨-, indent, gap, middle, space, hindent, hgap, hmiddle, hspace, hne, rfl, rfl⟩ :=
    matches_recordEnd.mp hmatch
  have hbrace : ∀ tail : List Char, ∀ d ∈ ('\x7d' :: tail).head?, ¬ isSpace d :=
    fun tail => List.forall_mem_head?_cons (by decide)
  have hsemicolon : ∀ tail : List Char, ∀ d ∈ (';' :: tail).head?, ¬ isNameChar d :=
    fun tail => List.forall_mem_head?_cons (by decide)
  have hname : ∀ d, isSpace d → ¬ isNameChar d := fun d hd => by simp [isNameChar, hd]
  have hnotspace : ∀ d, isNameChar d → ¬ isSpace d := fun d hd hs => hname d hs hd
  rw [ClosingLine.text, List.append_assoc] at htext
  -- Both have spaces up to the brace, spaces up to the name, and the name up to what follows it
  obtain ⟨-, htext⟩ := List.append_inj_of_class htext c.indent_space hindent (hbrace _) (hbrace _)
  rw [List.cons_append, List.cons.injEq, List.append_assoc] at htext
  obtain ⟨-, htext⟩ := List.append_inj_of_class htext.2 c.gap_space hgap
    (by
      obtain ⟨hne, hall⟩ := c.name_chars
      cases hcs : c.name.toList with
      | nil => exact absurd hcs hne
      | cons d ds =>
        exact List.forall_mem_head?_cons (hnotspace _ (hall _ (hcs ▸ List.mem_cons_self))))
    (List.forall_mem_head?_cons (c := 'e') (by decide))
  rw [List.append_assoc] at htext
  have hes : ∀ d ∈ "es_".toList, isNameChar d := List.all_eq_true.mp rfl
  have ht : ∀ d ∈ "_t".toList, isNameChar d := List.all_eq_true.mp rfl
  have hall : ∀ d ∈ "es_".toList ++ (middle ++ "_t".toList), isNameChar d := by
    simp only [List.forall_mem_append]
    exact ⟨hes, fun d hd => isNameChar_of_isWord (hmiddle d hd), ht⟩
  obtain ⟨heq, -⟩ := List.append_inj_of_class htext c.name_chars.2 hall
    (head_append_of_isSpace c.space_space hname (hsemicolon _))
    (by
      rw [List.append_assoc]
      exact head_append_of_isSpace hspace hname (hsemicolon _))
  exact ⟨by rw [heq], middle, hne, hmiddle, heq⟩

/-- A closing line whose name is `es_..._t` ends the definition of that record. -/
theorem ClosingLine.recordEnded_eq_some {c : ClosingLine} (h : IsRecordName c.name.toList) :
    recordEnded c.text = some c.name := by
  obtain ⟨middle, hne, hmiddle, hname⟩ := h
  have htext : c.text = (c.indent ++ '\x7d' :: (c.gap ++ (("es_".toList ++
      (middle ++ "_t".toList)) ++ (c.space ++ [';'])))) ++ c.rest := by
    rw [ClosingLine.text, hname]
    simp
  have hmatch : Matches recordEnd none _ c.rest _ := matches_recordEnd.mpr ⟨rfl, c.indent, c.gap,
    middle, c.space, c.indent_space, c.gap_space, hmiddle, c.space_space, hne, rfl, rfl⟩
  -- A match with nothing before it is the first one that the search comes to
  obtain ⟨found, hfound, hbefore⟩ := Regex.search_start hmatch
  rw [← htext] at hfound
  obtain ⟨hsplit, hsound⟩ := Regex.search_sound hfound
  rw [hbefore] at hsplit hsound
  -- Its group is the name, which has no space and no semicolon
  rw [recordEnded, hfound, Option.bind_some, (name_of_matches hsound hsplit).1]
  simp

/-- A closing line with any other name does not. -/
theorem ClosingLine.recordEnded_eq_none {c : ClosingLine} (h : ¬ IsRecordName c.name.toList)
    (hline : IsLine c.text) : recordEnded c.text = none := by
  rw [recordEnded, Option.bind_eq_none_iff]
  intro found hfound
  obtain ⟨hsplit, hmatch⟩ := Regex.search_sound hfound
  cases hbefore : found.before with
  | nil =>
    -- A match with nothing before it is that of the closing line itself
    rw [hbefore] at hsplit hmatch
    exact absurd (name_of_matches hmatch hsplit).2 h
  | cons d before =>
    exfalso
    obtain ⟨hstart, -⟩ := matches_recordEnd.mp hmatch
    obtain ⟨front, e, hfront⟩ : ∃ front e, found.before = front ++ [e] :=
      ⟨_, _, (List.dropLast_append_getLast (by rw [hbefore]; nofun)).symm⟩
    rw [hfront] at hstart hsplit
    have hlast : Regex.last none (front ++ [e]) = some e := by simp [Regex.last]
    -- `^` matches behind a newline, where nothing is left of the line
    rw [hlast, lineStart, Bool.and_eq_true, beq_iff_eq] at hstart
    obtain ⟨rfl, hsome⟩ := hstart
    have := hline front (found.text ++ found.rest) (by rw [hsplit]; simp)
    rw [this] at hsome
    cases hsome

/-! ## Opening lines -/

/-- An identifier. -/
def IsIdentifier (name : List Char) : Prop :=
  ∃ c cs, name = c :: cs ∧ isLetter c ∧ ∀ c ∈ cs, isWord c

/-- Spaces, and at least one. -/
def IsGap (gap : List Char) : Prop := gap ≠ [] ∧ ∀ c ∈ gap, isSpace c

theorem isGap_blank : IsGap [' '] := ⟨by simp, isSpace_blank⟩

/-- `typedef struct [tag] {` at the start of a line, with any text behind it. -/
structure OpeningLine where
  indent : List Char
  gap : List Char
  /-- The spaces before the tag, and the tag. -/
  tag : Option (List Char × List Char)
  space : List Char
  rest : List Char
  indent_space : ∀ c ∈ indent, isSpace c
  gap_space : IsGap gap
  tag_identifier : ∀ t ∈ tag, IsGap t.1 ∧ IsIdentifier t.2
  space_space : ∀ c ∈ space, isSpace c

def OpeningLine.tagText (o : OpeningLine) : List Char := o.tag.elim [] fun t => t.1 ++ t.2

/-- The line from `typedef` to the brace. -/
def OpeningLine.head (o : OpeningLine) : List Char :=
  "typedef".toList ++ (o.gap ++ ("struct".toList ++ (o.tagText ++ (o.space ++ ['\x7b']))))

def OpeningLine.text (o : OpeningLine) : List Char := o.indent ++ o.head ++ o.rest

/-- Spaces are no word characters in any encoding. -/
theorem WordClass.mem_of_isSpace (w : WordClass) {c : Char} (h : isSpace c) : w.mem c = false := by
  have hlt : c.toNat < 128 := by
    simp only [isSpace, Bool.or_eq_true, beq_iff_eq] at h
    rcases h with ((((rfl | rfl) | rfl) | rfl) | rfl) | rfl <;> decide
  rw [w.ascii c hlt, isWord_of_isSpace h]

/-- An opening line opens a definition. -/
theorem OpeningLine.opens (w : WordClass) (o : OpeningLine) : opens w o.text = true := by
  -- What stands before `typedef` is a space or nothing, so there is a word boundary
  have hboundary : wordBoundary w (Regex.last none o.indent) (o.head ++ o.rest).head? = true := by
    have hhead : (o.head ++ o.rest).head? = some 't' := rfl
    have ht : w.mem 't' = true := w.ascii 't' (by decide)
    have hindent : (Regex.last none o.indent).any w.mem = false := by
      cases hlast : o.indent.getLast? with
      | none => simp [Regex.last, hlast]
      | some c =>
        have hc := o.indent_space c (List.mem_of_getLast? hlast)
        simp [Regex.last, hlast, w.mem_of_isSpace hc]
    simp [wordBoundary, hhead, hindent, ht]
  -- With or without a tag
  have htag : ∀ previous rest, Matches (Regex.optional (.all [.many1 isSpace, .one isLetter,
      .many isWord])) previous o.tagText rest [] := by
    intro previous rest
    cases htag : o.tag with
    | none => exact .inr ⟨by rw [tagText, htag]; rfl, rfl⟩
    | some t =>
      obtain ⟨⟨hne, hgap⟩, c, cs, hname, hc, hcs⟩ := o.tag_identifier t htag
      refine .inl ⟨t.1, t.2, [], [], Regex.matches_many1.mpr ⟨hne, hgap, rfl⟩, ?_,
        by rw [tagText, htag]; rfl, rfl⟩
      exact ⟨[c], cs, [], [], ⟨⟨c, hc, rfl⟩, rfl⟩,
        ⟨cs, [], [], [], ⟨hcs, rfl⟩, ⟨rfl, rfl⟩, (List.append_nil cs).symm, rfl⟩, hname, rfl⟩
  refine Regex.search_isSome_iff.mpr ⟨o.indent, o.head, o.rest, [], rfl, ?_⟩
  exact ⟨[], o.head, [], [], ⟨hboundary, rfl, rfl⟩,
    ⟨_, _, [], [], Regex.matches_literal.mpr ⟨rfl, rfl⟩,
      ⟨o.gap, _, [], [], Regex.matches_many1.mpr ⟨o.gap_space.1, o.gap_space.2, rfl⟩,
        ⟨_, _, [], [], Regex.matches_literal.mpr ⟨rfl, rfl⟩,
          ⟨o.tagText, _, [], [], htag _ _,
            ⟨o.space, _, [], [], ⟨o.space_space, rfl⟩,
              ⟨['\x7b'], [], [], [], ⟨⟨_, rfl, rfl⟩, rfl⟩, ⟨rfl, rfl⟩, rfl, rfl⟩,
              rfl, rfl⟩, rfl, rfl⟩, rfl, rfl⟩, rfl, rfl⟩, rfl, rfl⟩, rfl, rfl⟩

end EndpointSecurity.Codegen
