import Mathlib.Logic.Relation
import EndpointSecurity.Spec.Accessors

/-!
# `to_h` and JSON

`to_h` is meant to give hashes, arrays and strings that JSON can carry, without losing a byte: a
string that is no text becomes a hash with its base64. `deep_copy` does this for the value of
every accessor; `Event#to_h` puts the arguments and the environment of an exec event beside
these copies as they are.

## Key results

- `Copied`: what a faithful copy of a value is
- `copied_iff_clean`: what `deep_copy` returns is one iff the arguments and the environment of
  every exec event in it are text
- `exists_deepCopy`: `deep_copy` returns
- `toH_copied_iff_clean`: both, for messages
-/

namespace EndpointSecurity.ObjectModel

open Relation (ReflTransGen)

/-! ## Faithful copies -/

/-- The string is text in its own encoding. -/
def Plain (bytes : List UInt8) (encoding : Encoding) : Prop :=
  encoding ≠ .binary ∧ encoding.valid bytes

instance (bytes : List UInt8) (encoding : Encoding) : Decidable (Plain bytes encoding) :=
  inferInstanceAs (Decidable (_ ∧ _))

/-- Values that JSON has, or turns into text: numbers, constants and times. -/
def Value.scalar : Value → Bool
  | .nil | .bool _ | .int _ | .symbol _ | .time .. => true
  | _ => false

/-- What `fds.map(&:to_h)` copies of a descriptor. -/
def descriptor : Value → Value
  | .nil => .hash []
  | value => value

/-- The entries that `Event#to_h` adds for an exec event are to be copies of these. -/
def View.execSources (w : View Value) : List (String × Value) :=
  [("args", .array (w.execArray .args)), ("env", .array (w.execArray .env)),
    ("fds", .array ((w.execArray .fds).map descriptor))]

/-- The values of the accessors, in the order of the fields. -/
def View.Fields (w : View Value) (fields : List (String × Value)) : Prop :=
  List.Forall₂ (fun name field => field.1 = name ∧
    ∃ stack, publicSend stack w name = .ok field.2) w.fieldNames fields

/-- The entries of `to_h` are to be copies of these: the values of the accessors, and what an
    exec event adds. -/
def View.Serves (w : View Value) (sources : List (String × Value)) : Prop :=
  ∃ fields, w.Fields fields ∧
    sources = fields ++ if w.viewClass = .event ∧ w.isExec then w.execSources else []

mutual

/-- `r` is a copy of `v` without views, field arrays and `Data` objects, and each of its strings
    is text with the bytes of the native string, or the base64 of these bytes. -/
inductive Copied : (v r : Value) → Prop where
  | scalar {v : Value} : v.scalar → Copied v v
  | text {bytes : List UInt8} {encoding : Encoding} :
      Plain bytes encoding → Copied (.string bytes encoding) (.string bytes encoding)
  | base64 {bytes data : List UInt8} {encoding : Encoding} :
      Base64.decode data = some bytes → Copied (.string bytes encoding) (base64Hash data)
  | array {items copies : List Value} :
      CopiedItems items copies → Copied (.array items) (.array copies)
  | fieldArray {items copies : List Value} :
      CopiedItems items copies → Copied (.fieldArray items) (.array copies)
  | hash {entries copies : List (String × Value)} :
      CopiedEntries entries copies → Copied (.hash entries) (.hash copies)
  | data {className : String} {members copies : List (String × Value)} :
      CopiedEntries members copies → Copied (.data className members) (.hash copies)
  | view {w : View Value} {sources copies : List (String × Value)} :
      w.Serves sources → CopiedEntries sources copies → Copied (.view w) (.hash copies)

inductive CopiedItems : (items copies : List Value) → Prop where
  | nil : CopiedItems [] []
  | cons {v r : Value} {items copies : List Value} :
      Copied v r → CopiedItems items copies → CopiedItems (v :: items) (r :: copies)

inductive CopiedEntries : (entries copies : List (String × Value)) → Prop where
  | nil : CopiedEntries [] []
  | cons {key : String} {v r : Value} {entries copies : List (String × Value)} :
      Copied v r → CopiedEntries entries copies →
      CopiedEntries ((key, v) :: entries) ((key, r) :: copies)

end

theorem copiedItems_iff {items copies : List Value} :
    CopiedItems items copies ↔ List.Forall₂ Copied items copies := by
  constructor
  · intro h
    induction items generalizing copies with
    | nil => cases h; exact .nil
    | cons item items ih =>
      cases h with
      | cons hfirst hrest => exact .cons hfirst (ih hrest)
  · intro h
    induction h with
    | nil => exact .nil
    | cons hfirst _ ih => exact .cons hfirst ih

theorem copiedEntries_iff {entries copies : List (String × Value)} :
    CopiedEntries entries copies ↔
      List.Forall₂ (fun entry copy => copy.1 = entry.1 ∧ Copied entry.2 copy.2)
        entries copies := by
  constructor
  · intro h
    induction entries generalizing copies with
    | nil => cases h; exact .nil
    | cons entry entries ih =>
      cases h with
      | cons hfirst hrest => exact .cons ⟨rfl, hfirst⟩ (ih hrest)
  · intro h
    induction h with
    | nil => exact .nil
    | @cons entry copy _ _ hfirst _ ih =>
      obtain ⟨key, v⟩ := entry
      obtain ⟨key', r⟩ := copy
      obtain ⟨hkey, hcopied⟩ := hfirst
      cases hkey
      exact .cons hcopied ih

/-- JSON has values like this: no view, field array or `Data` object is inside, and each string
    is text or the data of a base64 hash. -/
inductive Json : Value → Prop where
  | scalar {v : Value} : v.scalar → Json v
  | text {bytes : List UInt8} {encoding : Encoding} :
      Plain bytes encoding → Json (.string bytes encoding)
  | base64 {data : List UInt8} : (Base64.decode data).isSome → Json (base64Hash data)
  | array {items : List Value} : (∀ item ∈ items, Json item) → Json (.array items)
  | hash {entries : List (String × Value)} :
      (∀ entry ∈ entries, Json entry.2) → Json (.hash entries)

mutual

/-- A faithful copy is something that JSON has. -/
theorem Copied.json {v r : Value} : Copied v r → Json r
  | .scalar h => .scalar h
  | .text h => .text h
  | .base64 h => .base64 (by rw [h]; rfl)
  | .array h => .array h.json
  | .fieldArray h => .array h.json
  | .hash h => .hash h.json
  | .data h => .hash h.json
  | .view _ h => .hash h.json

theorem CopiedItems.json {items copies : List Value} :
    CopiedItems items copies → ∀ copy ∈ copies, Json copy
  | .nil => by simp
  | .cons hfirst hrest => List.forall_mem_cons.mpr ⟨hfirst.json, hrest.json⟩

theorem CopiedEntries.json {entries copies : List (String × Value)} :
    CopiedEntries entries copies → ∀ copy ∈ copies, Json copy.2
  | .nil => by simp
  | .cons hfirst hrest => List.forall_mem_cons.mpr ⟨hfirst.json, hrest.json⟩

end

/-! ## What is copied -/

/-- Copying `v` copies `child`. -/
inductive Child : (v child : Value) → Prop where
  | item {items : List Value} {child : Value} : child ∈ items → Child (.array items) child
  | fieldItem {items : List Value} {child : Value} :
      child ∈ items → Child (.fieldArray items) child
  | entry {entries : List (String × Value)} {entry : String × Value} :
      entry ∈ entries → Child (.hash entries) entry.2
  | member {className : String} {members : List (String × Value)} {member : String × Value} :
      member ∈ members → Child (.data className members) member.2
  | field {w : View Value} {name : String} {stack : Nat} {child : Value} :
      name ∈ w.fieldNames → publicSend stack w name = .ok child → Child (.view w) child
  | descriptor {w : View Value} {child : Value} :
      w.viewClass = .event → w.isExec → child ∈ w.fds → Child (.view w) child

/-- Copying `v` comes to a copy of the view `w`. -/
def Visits (v : Value) (w : View Value) : Prop := ReflTransGen Child v (.view w)

/-- Each argument and each entry of the environment of an exec event is text. -/
def View.ExecPlain (w : View Value) : Prop :=
  w.viewClass = .event → w.isExec →
    ∀ text : Text, some text ∈ w.args ++ w.env → Plain text.bytes text.encoding

/-- A method of a field's name gives the field or one of the lists of an exec event. -/
def View.Method.serves : View.Method → Bool
  | .exec _ => true
  | method => method.passes

/-- What holds of the native views of a message while strict versions are off: the names of the
    fields are different and none of them is hidden by a method that may raise, a file has a
    truncation to ask for, and the descriptors of an exec event are views. -/
structure View.Native (w : View Value) : Prop where
  lenient : w.strictVersion = false
  nodup : w.fieldNames.Nodup
  serves : ∀ name ∈ w.fieldNames, (View.methodFor w.viewClass name).serves
  truncation : ∀ name ∈ w.fieldNames, View.methodFor w.viewClass name = .path →
    truncationField w.fieldNames ∈ w.fieldNames
  exec : w.viewClass = .event → w.isExec → ∀ name ∈ w.fieldNames, name ∉ ["args", "env", "fds"]
  descriptors : ∀ fd ∈ w.fds, fd = .nil ∨ ∃ u, fd = .view u

/-- `P` holds of every view that copying `v` comes to. -/
def Everywhere (P : View Value → Prop) (v : Value) : Prop := ∀ w, Visits v w → P w

theorem everywhere_iff {P : View Value → Prop} {v : Value} :
    Everywhere P v ↔ (∀ w, v = .view w → P w) ∧ ∀ child, Child v child → Everywhere P child := by
  constructor
  · intro h
    refine ⟨fun w hw => h w (hw ▸ .refl), fun child hchild w hvisits => ?_⟩
    exact h w (.head hchild hvisits)
  · rintro ⟨hself, hchildren⟩ w hvisits
    rcases ReflTransGen.cases_head hvisits with hw | ⟨child, hchild, hvisits⟩
    · exact hself w hw
    · exact hchildren child hchild w hvisits

theorem Everywhere.child {P : View Value → Prop} {v child : Value} (h : Everywhere P v)
    (hchild : Child v child) : Everywhere P child :=
  (everywhere_iff.mp h).2 child hchild

theorem Everywhere.self {P : View Value → Prop} {w : View Value}
    (h : Everywhere P (.view w)) : P w := h w .refl

theorem everywhere_array {P : View Value → Prop} {items : List Value} :
    Everywhere P (.array items) ↔ ∀ item ∈ items, Everywhere P item := by
  refine ⟨fun h item hitem => h.child (.item hitem), fun h => everywhere_iff.mpr ⟨?_, ?_⟩⟩
  · intro w hw
    cases hw
  · rintro child (hchild | _)
    exact h child hchild

theorem everywhere_fieldArray {P : View Value → Prop} {items : List Value} :
    Everywhere P (.fieldArray items) ↔ ∀ item ∈ items, Everywhere P item := by
  refine ⟨fun h item hitem => h.child (.fieldItem hitem), fun h => everywhere_iff.mpr ⟨?_, ?_⟩⟩
  · intro w hw
    cases hw
  · intro child hchild
    cases hchild with
    | fieldItem hmem => exact h child hmem

theorem everywhere_hash {P : View Value → Prop} {entries : List (String × Value)} :
    Everywhere P (.hash entries) ↔ ∀ entry ∈ entries, Everywhere P entry.2 := by
  refine ⟨fun h entry hentry => h.child (.entry hentry), fun h => everywhere_iff.mpr ⟨?_, ?_⟩⟩
  · intro w hw
    cases hw
  · intro child hchild
    cases hchild with
    | entry hmem => exact h _ hmem

theorem everywhere_data {P : View Value → Prop} {className : String}
    {members : List (String × Value)} :
    Everywhere P (.data className members) ↔ ∀ member ∈ members, Everywhere P member.2 := by
  refine ⟨fun h member hmember => h.child (.member hmember), fun h => everywhere_iff.mpr ⟨?_, ?_⟩⟩
  · intro w hw
    cases hw
  · intro child hchild
    cases hchild with
    | member hmem => exact h _ hmem

/-- Nothing is inside a scalar or a string. -/
theorem everywhere_leaf {P : View Value → Prop} {v : Value}
    (hv : v.scalar ∨ ∃ bytes encoding, v = .string bytes encoding) : Everywhere P v := by
  refine everywhere_iff.mpr ⟨fun w hw => ?_, fun child hchild => ?_⟩
  · subst hw
    simp [Value.scalar] at hv
  · cases hchild <;> simp [Value.scalar] at hv

/-- The arguments and the environment of every exec event in `v` are text. -/
def Value.Clean (v : Value) : Prop := Everywhere View.ExecPlain v

/-- Every view in `v` is a native one. -/
def Value.Native (v : Value) : Prop := Everywhere View.Native v

/-! ## The entries of a view -/

/-- What an accessor gives does not depend on the stack. -/
theorem publicSend_unique {m n : Nat} {w : View Value} {name : String} {u v : Value}
    (hu : publicSend m w name = .ok u) (hv : publicSend n w name = .ok v) : u = v := by
  have hu := publicSend_mono (Nat.le_max_left m n) hu
  have hv := publicSend_mono (Nat.le_max_right m n) hv
  rw [hu] at hv
  exact Except.ok.inj hv

theorem View.Fields.unique {w : View Value} {fields fields' : List (String × Value)}
    (h : w.Fields fields) (h' : w.Fields fields') : fields' = fields := by
  unfold View.Fields at h h'
  generalize w.fieldNames = names at h h'
  induction h generalizing fields' with
  | nil => cases h'; rfl
  | @cons name field _ _ hfirst _ ih =>
    cases h' with
    | @cons _ field' _ _ hfirst' hrest' =>
      obtain ⟨hname, m, hm⟩ := hfirst
      obtain ⟨hname', n, hn⟩ := hfirst'
      rw [ih hrest', Prod.ext (hname'.trans hname.symm) (publicSend_unique hn hm)]

/-- The fields whose copies the entries of `to_h` are. -/
theorem CopiesFields.fields {stack : Nat} {w : View Value} {copies : List (String × Value)}
    (h : CopiesFields stack w copies) : ∃ fields, w.Fields fields ∧
      CopiesEntries stack fields copies := by
  unfold CopiesFields at h
  unfold View.Fields
  generalize w.fieldNames = names at h ⊢
  induction h with
  | nil => exact ⟨[], .nil, .nil⟩
  | @cons name copy _ _ hfirst _ ih =>
    obtain ⟨hname, value, hv, hc⟩ := hfirst
    obtain ⟨fields, hfields, hcopies⟩ := ih
    exact ⟨(name, value) :: fields, .cons ⟨rfl, stack, hv⟩ hfields, .cons ⟨hname, hc⟩ hcopies⟩

theorem View.serves_iff {w : View Value} {fields sources : List (String × Value)}
    (h : w.Fields fields) : w.Serves sources ↔
      sources = fields ++ if w.viewClass = .event ∧ w.isExec then w.execSources else [] := by
  constructor
  · rintro ⟨fields', hfields', hsources⟩
    rw [hsources, h.unique hfields']
  · exact fun hsources => ⟨fields, h, hsources⟩

/-- A copy of a view consists of copies of the values of its accessors. -/
theorem copied_view_iff {w : View Value} {fields copies : List (String × Value)}
    (h : w.Fields fields) : Copied (.view w) (.hash copies) ↔ CopiedEntries
      (fields ++ if w.viewClass = .event ∧ w.isExec then w.execSources else []) copies := by
  constructor
  · intro hcopied
    cases hcopied with
    | view hserves hentries =>
      rw [(View.serves_iff h).mp hserves] at hentries
      exact hentries
  · exact fun hentries => .view ((View.serves_iff h).mpr rfl) hentries

/-- What is inside a view: the values of its accessors, and the descriptors of an exec event. -/
theorem everywhere_view {P : View Value → Prop} {w : View Value}
    {fields : List (String × Value)} (h : w.Fields fields) :
    Everywhere P (.view w) ↔ P w ∧ (∀ field ∈ fields, Everywhere P field.2) ∧
      (w.viewClass = .event → w.isExec → ∀ fd ∈ w.fds, Everywhere P fd) := by
  have hnames : ∀ field ∈ fields, field.1 ∈ w.fieldNames ∧
      ∃ stack, publicSend stack w field.1 = .ok field.2 := by
    intro field hfield
    obtain ⟨i, hi, rfl⟩ := List.mem_iff_getElem.mp hfield
    have hlength : i < w.fieldNames.length := h.length_eq ▸ hi
    obtain ⟨hname, hsend⟩ := List.forall₂_iff_get.mp h |>.2 i hlength hi
    simp only [List.get_eq_getElem] at hname hsend
    exact ⟨hname ▸ List.getElem_mem hlength, hname ▸ hsend⟩
  have hvalues : ∀ name ∈ w.fieldNames, ∃ field ∈ fields, field.1 = name := by
    intro name hname
    obtain ⟨i, hi, rfl⟩ := List.mem_iff_getElem.mp hname
    have hlength : i < fields.length := h.length_eq ▸ hi
    have hget := (List.forall₂_iff_get.mp h |>.2 i hi hlength).1
    exact ⟨fields[i], List.getElem_mem hlength, by simpa using hget⟩
  constructor
  · intro hall
    refine ⟨hall.self, fun field hfield => ?_, fun hevent hexec fd hfd => ?_⟩
    · obtain ⟨hmem, stack, hsend⟩ := hnames field hfield
      exact hall.child (.field hmem hsend)
    · exact hall.child (.descriptor hevent hexec hfd)
  · rintro ⟨hself, hfields, hfds⟩
    refine everywhere_iff.mpr ⟨fun u hu => by cases hu; exact hself, fun child hchild => ?_⟩
    cases hchild with
    | field hname hsend =>
      obtain ⟨field, hfield, rfl⟩ := hvalues _ hname
      obtain ⟨-, stack, hsend'⟩ := hnames field hfield
      rw [publicSend_unique hsend hsend']
      exact hfields field hfield
    | descriptor hevent hexec hfd => exact hfds hevent hexec child hfd

/-! ## Copies of lists -/

/-- Two relations that agree with a property on the elements of a list agree with it on lists. -/
theorem forall₂_iff_forall {α β : Type} {R S : α → β → Prop} {P : α → Prop} {xs : List α}
    {ys : List β} (h : List.Forall₂ R xs ys) (hrs : ∀ x ∈ xs, ∀ y, R x y → (S x y ↔ P x)) :
    List.Forall₂ S xs ys ↔ ∀ x ∈ xs, P x := by
  induction h with
  | nil => simp
  | cons hfirst _ ih =>
    rw [List.forall₂_cons, List.forall_mem_cons, hrs _ (.head _) _ hfirst,
      ih fun x hx => hrs x (.tail _ hx)]

theorem copiedEntries_append {R : String × Value → String × Value → Prop}
    {fields copies entries entries' : List (String × Value)} (h : List.Forall₂ R fields copies) :
    CopiedEntries (fields ++ entries) (copies ++ entries') ↔
      CopiedEntries fields copies ∧ CopiedEntries entries entries' := by
  induction h with
  | nil => exact ⟨fun h => ⟨.nil, h⟩, fun h => h.2⟩
  | @cons field copy _ _ _ _ ih =>
    obtain ⟨key, v⟩ := field
    obtain ⟨key', r⟩ := copy
    constructor
    · intro hall
      cases hall with
      | cons hfirst hrest => exact ⟨.cons hfirst (ih.mp hrest).1, (ih.mp hrest).2⟩
    · rintro ⟨hcopied, hentries⟩
      cases hcopied with
      | cons hfirst hrest => exact .cons hfirst (ih.mpr ⟨hrest, hentries⟩)

theorem copiedEntries_cons {key : String} {v r : Value}
    {entries entries' : List (String × Value)} :
    CopiedEntries ((key, v) :: entries) ((key, r) :: entries') ↔
      Copied v r ∧ CopiedEntries entries entries' := by
  constructor
  · intro h
    cases h with
    | cons hfirst hrest => exact ⟨hfirst, hrest⟩
  · rintro ⟨hfirst, hrest⟩
    exact .cons hfirst hrest

theorem copied_array_iff {items copies : List Value} :
    Copied (.array items) (.array copies) ↔ List.Forall₂ Copied items copies := by
  rw [← copiedItems_iff]
  constructor
  · intro h
    cases h with
    | scalar hscalar => cases hscalar
    | array hitems => exact hitems
  · exact .array

theorem copied_fieldArray_iff {items copies : List Value} :
    Copied (.fieldArray items) (.array copies) ↔ List.Forall₂ Copied items copies := by
  rw [← copiedItems_iff]
  constructor
  · intro h
    cases h with
    | fieldArray hitems => exact hitems
  · exact .fieldArray

theorem copied_hash_iff {entries copies : List (String × Value)} :
    Copied (.hash entries) (.hash copies) ↔ CopiedEntries entries copies := by
  constructor
  · intro h
    cases h with
    | scalar hscalar => cases hscalar
    | hash hentries => exact hentries
  · exact .hash

theorem copied_data_iff {className : String} {members copies : List (String × Value)} :
    Copied (.data className members) (.hash copies) ↔ CopiedEntries members copies := by
  constructor
  · intro h
    cases h with
    | data hentries => exact hentries
  · exact .data

/-! ## The lists of an exec event -/

/-- A string is its own copy when it is text, and `nil` always is. -/
theorem copied_ofText_iff {text : Option Text} :
    Copied (.ofText text) (.ofText text) ↔
      ∀ t, text = some t → Plain t.bytes t.encoding := by
  cases text with
  | none => exact iff_of_true (.scalar rfl) (by simp)
  | some t =>
    constructor
    · rintro h _ ⟨⟩
      cases h with
      | scalar hscalar => cases hscalar
      | text hplain => exact hplain
    · exact fun h => .text (h t rfl)

theorem copied_texts_iff {texts : List (Option Text)} :
    Copied (.array (texts.map .ofText)) (.array (texts.map .ofText)) ↔
      ∀ t : Text, some t ∈ texts → Plain t.bytes t.encoding := by
  rw [copied_array_iff, List.forall₂_map_left_iff, List.forall₂_map_right_iff,
    List.forall₂_same]
  constructor
  · intro h t ht
    exact copied_ofText_iff.mp (h _ ht) t rfl
  · intro h text ht
    exact copied_ofText_iff.mpr fun t htext => h t (htext ▸ ht)

theorem setEntry_of_not_mem {key : String} {value : Value} {entries : List (String × Value)}
    (h : ∀ entry ∈ entries, entry.1 ≠ key) :
    setEntry key value entries = entries ++ [(key, value)] := by
  induction entries with
  | nil => rfl
  | cons entry entries ih =>
    rw [setEntry, if_neg (h entry (.head _)), ih fun e he => h e (.tail _ he)]
    rfl

/-- The entries of an exec event come after those of its fields. -/
theorem addExec_eq {w : View Value} {fds : List Value} {copies : List (String × Value)}
    (h : ∀ copy ∈ copies, copy.1 ∉ ["args", "env", "fds"]) :
    addExec w fds copies = copies ++ [("args", .array (w.execArray .args)),
      ("env", .array (w.execArray .env)), ("fds", .array fds)] := by
  have hne : ∀ key ∈ ["args", "env", "fds"], ∀ copy ∈ copies, copy.1 ≠ key :=
    fun key hkey copy hcopy heq => h copy hcopy (heq ▸ hkey)
  have henv : ∀ copy ∈ copies ++ [("args", .array (w.execArray .args))], copy.1 ≠ "env" := by
    intro copy hcopy
    rcases List.mem_append.mp hcopy with hcopy | hcopy
    · exact hne "env" (by decide) copy hcopy
    · rw [List.mem_singleton.mp hcopy]
      simp
  have hfds : ∀ copy ∈ copies ++ [("args", .array (w.execArray .args))] ++
      [("env", .array (w.execArray .env))], copy.1 ≠ "fds" := by
    intro copy hcopy
    rcases List.mem_append.mp hcopy with hcopy | hcopy
    · rcases List.mem_append.mp hcopy with hcopy | hcopy
      · exact hne "fds" (by decide) copy hcopy
      · rw [List.mem_singleton.mp hcopy]
        simp
    · rw [List.mem_singleton.mp hcopy]
      simp
  rw [addExec, setEntry_of_not_mem (hne "args" (by decide)), setEntry_of_not_mem henv,
    setEntry_of_not_mem hfds, List.append_assoc, List.append_assoc]
  rfl

theorem CopiesEntries.keys {stack : Nat} {entries copies : List (String × Value)}
    (h : CopiesEntries stack entries copies) : copies.map (·.1) = entries.map (·.1) := by
  induction h with
  | nil => rfl
  | cons hfirst _ ih => rw [List.map_cons, List.map_cons, hfirst.1, ih]

theorem View.Fields.keys {w : View Value} {fields : List (String × Value)} (h : w.Fields fields) :
    fields.map (·.1) = w.fieldNames := by
  unfold View.Fields at h
  generalize w.fieldNames = names at h ⊢
  induction h with
  | nil => rfl
  | cons hfirst _ ih => rw [List.map_cons, hfirst.1, ih]

/-! ## What `deep_copy` returns -/

/-- `to_h` of a view, from `to_h` of a descriptor. -/
theorem toH_of_valueToH {stack : Nat} {w : View Value} {r : Value}
    (h : valueToH stack (.view w) = .ok r) : toH stack w = .ok r := by
  cases stack with
  | zero => cases h
  | succ stack => exact toH_mono (Nat.le_succ stack) h

/-- Copies of entries are faithful when those of their values are. -/
theorem copiedEntries_iff_clean {stack : Nat} {entries copies : List (String × Value)}
    (h : CopiesEntries stack entries copies)
    (ih : ∀ entry ∈ entries, ∀ r, deepCopy stack entry.2 = .ok r →
      (Copied entry.2 r ↔ entry.2.Clean)) :
    CopiedEntries entries copies ↔ ∀ entry ∈ entries, entry.2.Clean := by
  rw [copiedEntries_iff]
  refine forall₂_iff_forall h fun entry hentry copy hcopy => ?_
  rw [← ih entry hentry copy.2 hcopy.2]
  exact and_iff_right hcopy.1

/-- The descriptors that `Event#to_h` copies. -/
theorem copied_descriptors_iff {stack : Nat} {w : View Value} {copies : List Value}
    (hnative : w.Native)
    (h : List.Forall₂ (fun fd copy => valueToH stack fd = .ok copy) w.fds copies)
    (ih : ∀ u, .view u ∈ w.fds → ∀ r, toH stack u = .ok r →
      (Copied (.view u) r ↔ Value.Clean (.view u))) :
    Copied (.array (w.fds.map descriptor)) (.array copies) ↔ ∀ fd ∈ w.fds, fd.Clean := by
  rw [copied_array_iff, List.forall₂_map_left_iff]
  refine forall₂_iff_forall h fun fd hfd copy hcopy => ?_
  rcases hnative.descriptors fd hfd with rfl | ⟨u, rfl⟩
  · -- `nil.to_h` is an empty hash.
    cases stack with
    | zero => cases hcopy
    | succ stack =>
      cases hcopy
      exact iff_of_true (.hash .nil) (everywhere_leaf (.inl rfl))
  · exact ih u hfd copy (toH_of_valueToH hcopy)

/-- `to_h` of a view returns a faithful copy iff what is in the view is clean. -/
theorem copied_toH_iff {stack : Nat} {w : View Value} {r : Value}
    (hnative : Value.Native (.view w))
    (ihcopy : ∀ v r, v.Native → deepCopy stack v = .ok r → (Copied v r ↔ v.Clean))
    (ihtoH : ∀ u r, Value.Native (.view u) → toH stack u = .ok r →
      (Copied (.view u) r ↔ Value.Clean (.view u)))
    (h : toH (stack + 1) w = .ok r) : Copied (.view w) r ↔ Value.Clean (.view w) := by
  obtain ⟨copies, hcopies, hr⟩ := toH_eq_ok.mp h
  obtain ⟨fields, hfields, hentries⟩ := hcopies.fields
  obtain ⟨hself, hnfields, hnfds⟩ := (everywhere_view hfields).mp hnative
  have hclean := copiedEntries_iff_clean hentries fun field hfield r hr =>
    ihcopy field.2 r (hnfields field hfield) hr
  by_cases hexec : w.viewClass = .event ∧ w.isExec
  · rw [if_pos hexec] at hr
    obtain ⟨fds, hfds, rfl⟩ := hr
    have hkeys : ∀ copy ∈ copies, copy.1 ∉ ["args", "env", "fds"] := fun copy hcopy => by
      have hmem : copy.1 ∈ copies.map (·.1) := List.mem_map_of_mem hcopy
      rw [hentries.keys, hfields.keys] at hmem
      exact hself.exec hexec.1 hexec.2 copy.1 hmem
    have hargs : w.execArray .args = w.args.map .ofText := by
      simp [View.execArray, View.execValues, hexec.2, View.exec]
    have henv : w.execArray .env = w.env.map .ofText := by
      simp [View.execArray, View.execValues, hexec.2, View.exec]
    have hdesc : w.execArray .fds = w.fds := by
      simp [View.execArray, View.execValues, hexec.2, View.exec]
    rw [hdesc] at hfds
    have hdescriptors := copied_descriptors_iff hself hfds fun u hu r hr =>
      ihtoH u r (hnfds hexec.1 hexec.2 _ hu) hr
    rw [addExec_eq hkeys, copied_view_iff hfields, if_pos hexec, View.execSources,
      copiedEntries_append hentries, copiedEntries_cons, copiedEntries_cons, copiedEntries_cons,
      hargs, henv, hdesc, hclean, copied_texts_iff, copied_texts_iff, hdescriptors,
      Value.Clean, everywhere_view hfields, View.ExecPlain]
    constructor
    · rintro ⟨hcleanFields, hplainArgs, hplainEnv, hcleanFds, -⟩
      refine ⟨fun _ _ text htext => ?_, hcleanFields, fun _ _ => hcleanFds⟩
      rcases List.mem_append.mp htext with htext | htext
      · exact hplainArgs text htext
      · exact hplainEnv text htext
    · rintro ⟨hplain, hcleanFields, hcleanFds⟩
      have hplain := hplain hexec.1 hexec.2
      exact ⟨hcleanFields, fun text htext => hplain text (List.mem_append_left _ htext),
        fun text htext => hplain text (List.mem_append_right _ htext),
        hcleanFds hexec.1 hexec.2, .nil⟩
  · rw [if_neg hexec] at hr
    subst hr
    rw [copied_view_iff hfields, if_neg hexec, List.append_nil, hclean, Value.Clean,
      everywhere_view hfields, View.ExecPlain]
    constructor
    · exact fun hcleanFields => ⟨fun hevent hisExec => absurd ⟨hevent, hisExec⟩ hexec,
        hcleanFields, fun hevent hisExec => absurd ⟨hevent, hisExec⟩ hexec⟩
    · exact fun h => h.2.1

/-- A string is copied faithfully, as text or as base64. -/
theorem copied_copyString (bytes : List UInt8) (encoding : Encoding) :
    Copied (.string bytes encoding) (copyString bytes encoding) := by
  unfold copyString
  split
  next hplain => exact .text hplain
  next => exact .base64 (Base64.decode_encode bytes)

theorem copied_iff_clean_step (stack : Nat) :
    (∀ v r, v.Native → deepCopy stack v = .ok r → (Copied v r ↔ v.Clean)) ∧
    ∀ w r, Value.Native (.view w) → toH stack w = .ok r →
      (Copied (.view w) r ↔ Value.Clean (.view w)) := by
  induction stack with
  | zero => exact ⟨fun _ _ _ h => (by cases h), fun _ _ _ h => (by cases h)⟩
  | succ stack ih =>
    obtain ⟨ihcopy, ihtoH⟩ := ih
    refine ⟨fun v r hnative h => ?_, fun w r hnative h => copied_toH_iff hnative ihcopy ihtoH h⟩
    cases v with
    | view w => exact ihtoH w r hnative h
    | array items =>
      obtain ⟨copies, hcopies, rfl⟩ := deepCopy_items.mp h
      rw [copied_array_iff, Value.Clean, everywhere_array]
      exact forall₂_iff_forall hcopies fun item hitem copy hcopy =>
        ihcopy item copy (everywhere_array.mp hnative item hitem) hcopy
    | fieldArray items =>
      obtain ⟨copies, hcopies, rfl⟩ := deepCopy_items.mp h
      rw [copied_fieldArray_iff, Value.Clean, everywhere_fieldArray]
      exact forall₂_iff_forall hcopies fun item hitem copy hcopy =>
        ihcopy item copy (everywhere_fieldArray.mp hnative item hitem) hcopy
    | hash entries =>
      obtain ⟨copies, hcopies, rfl⟩ := deepCopy_entries.mp h
      rw [copied_hash_iff, Value.Clean, everywhere_hash]
      exact copiedEntries_iff_clean hcopies fun entry hentry copy hcopy =>
        ihcopy entry.2 copy (everywhere_hash.mp hnative entry hentry) hcopy
    | data className members =>
      obtain ⟨copies, hcopies, rfl⟩ := deepCopy_entries.mp h
      rw [copied_data_iff, Value.Clean, everywhere_data]
      exact copiedEntries_iff_clean hcopies fun entry hentry copy hcopy =>
        ihcopy entry.2 copy (everywhere_data.mp hnative entry hentry) hcopy
    | string bytes encoding =>
      cases h
      exact iff_of_true (copied_copyString bytes encoding)
        (everywhere_leaf (.inr ⟨bytes, encoding, rfl⟩))
    | nil | bool _ | int _ | symbol _ | time _ _ =>
      cases h
      exact iff_of_true (.scalar rfl) (everywhere_leaf (.inl rfl))

/-- What `deep_copy` returns is a faithful copy iff the arguments and the environment of every
    exec event in the value are text. -/
theorem copied_iff_clean {stack : Nat} {v r : Value} (hnative : v.Native)
    (h : deepCopy stack v = .ok r) : Copied v r ↔ v.Clean :=
  (copied_iff_clean_step stack).1 v r hnative h

/-! ## `deep_copy` returns -/

theorem exists_deepCopy_items (items : List Value)
    (h : ∀ item ∈ items, ∃ stack r, deepCopy stack item = .ok r) :
    ∃ stack r, deepCopy stack (.array items) = .ok r ∧
      deepCopy stack (.fieldArray items) = .ok r := by
  obtain ⟨n, hn⟩ := exists_stack (P := fun n item => ∃ r, deepCopy n item = .ok r)
    (fun _ _ _ hmn ⟨r, hr⟩ => ⟨r, deepCopy_mono hmn hr⟩) items h
  obtain ⟨copies, hcopies⟩ := Except.exists_mapM_eq_ok hn
  have hitems := deepCopy_items.mpr ⟨copies, Except.mapM_eq_ok.mp hcopies, rfl⟩
  exact ⟨n + 1, .array copies, hitems, hitems⟩

theorem exists_deepCopy_entries (entries : List (String × Value))
    (h : ∀ entry ∈ entries, ∃ stack r, deepCopy stack entry.2 = .ok r) :
    ∃ stack r, deepCopy stack (.hash entries) = .ok r ∧
      ∀ className, deepCopy stack (.data className entries) = .ok r := by
  obtain ⟨n, hn⟩ := exists_stack (P := fun n entry => ∃ r, deepCopy n entry.2 = .ok r)
    (fun _ _ _ hmn ⟨r, hr⟩ => ⟨r, deepCopy_mono hmn hr⟩) entries h
  obtain ⟨copies, hcopies⟩ := Except.exists_mapM_eq_ok
    (f := fun entry : String × Value => (deepCopy n entry.2).map (entry.1, ·))
    fun entry hentry => by
      obtain ⟨r, hr⟩ := hn entry hentry
      exact ⟨(entry.1, r), by rw [hr]; rfl⟩
  have hentries := deepCopy_entries.mpr ⟨copies, mapM_entries.mp hcopies, rfl⟩
  exact ⟨n + 1, .hash copies, hentries, fun _ => hentries⟩

/-- The field of a native view is read as `nil` or as its value. -/
theorem View.Native.readField {w : View Value} (h : w.Native) {field : Field Value}
    (hf : field ∈ w.fields) :
    w.readField field.name = .ok .nil ∨ w.readField field.name = .ok field.value := by
  rw [View.readField_of_mem h.nodup hf, h.lenient]
  split
  · exact .inl rfl
  · exact .inr rfl

theorem methodFor_exec {c : ViewClass} {name : String} {kind : ExecKind}
    (h : View.methodFor c name = .exec kind) : c = .event ∧ name ∈ ["args", "env", "fds"] := by
  have hmem := mem_of_methodFor h (by simp)
  cases c <;> simp [View.ownMethods, View.nativeViewMethods] at hmem ⊢
  rcases hmem with ⟨rfl, -⟩ | ⟨rfl, -⟩ | ⟨rfl, -⟩ <;> simp

/-- The accessor of a field of a native view gives an empty list, or what is read as `nil` or as
    the value of the field. -/
theorem View.Native.accessor {w : View Value} (h : w.Native) {field : Field Value}
    (hf : field ∈ w.fields) :
    publicSend 1 w field.name = .ok (.fieldArray []) ∨
      publicSend 1 w field.name = .ok (exposed w.viewClass field.name .nil) ∨
      publicSend 1 w field.name = .ok (exposed w.viewClass field.name field.value) := by
  have hname : field.name ∈ w.fieldNames := List.mem_map_of_mem hf
  have hserves := h.serves field.name hname
  have htoH : View.methodFor w.viewClass field.name ≠ .toH := fun hm => by
    rw [hm] at hserves
    cases hserves
  rw [publicSend_call htoH]
  by_cases hpass : (View.methodFor w.viewClass field.name).passes
  · right
    have hpath : View.methodFor w.viewClass field.name = .path →
        ∃ truncated, w.methodMissing "path_truncated" true = .ok truncated := fun hm => by
      have htruncation := h.truncation field.name hname hm
      rw [View.methodMissing_truncation, if_pos htruncation]
      obtain ⟨field', hf', hname'⟩ := List.mem_map.mp htruncation
      rw [← hname']
      rcases h.readField hf' with hread | hread <;> rw [hread] <;> exact ⟨_, rfl⟩
    rcases h.readField hf with hread | hread
    · exact .inl (View.call_of_passes hname hpass hpath hread)
    · exact .inr (View.call_of_passes hname hpass hpath hread)
  · left
    cases hm : View.methodFor w.viewClass field.name with
    | exec kind =>
      -- A field that an exec list hides is in no exec event, where the lists are empty.
      obtain ⟨hevent, hexecName⟩ := methodFor_exec hm
      have hexec : ¬ w.isExec := fun hexec => h.exec hevent hexec field.name hname hexecName
      simp [View.call, View.execArray, View.execValues, hexec]
    | _ =>
      rw [hm] at hserves hpass
      first
        | exact absurd rfl hpass
        | cases hserves

/-- A value of an accessor can be copied when the native value can. -/
theorem exists_deepCopy_exposed {c : ViewClass} {name : String} {value : Value}
    (hvalue : ∃ stack r, deepCopy stack value = .ok r)
    (hitems : ∀ items, value = .array items → ∀ item ∈ items,
      ∃ stack r, deepCopy stack item = .ok r) :
    ∃ stack r, deepCopy stack (exposed c name value) = .ok r := by
  unfold exposed
  split
  · obtain ⟨stack, r, -, hr⟩ := exists_deepCopy_entries [("value", value)]
      fun entry hentry => by rw [List.mem_singleton.mp hentry]; exact hvalue
    exact ⟨stack, r, hr "CSFlags"⟩
  · split
    · exact hvalue
    · cases value with
      | array items =>
        obtain ⟨stack, r, -, hr⟩ := exists_deepCopy_items items (hitems items rfl)
        exact ⟨stack, r, hr⟩
      | _ => exact hvalue

theorem everywhere_exposed {P : View Value → Prop} {c : ViewClass} {name : String}
    {value : Value} : Everywhere P (exposed c name value) ↔ Everywhere P value := by
  unfold exposed
  split
  · rw [View.csFlags, everywhere_data]
    simp
  · split
    · exact Iff.rfl
    · cases value with
      | array items => rw [View.wrapArray, everywhere_fieldArray, everywhere_array]
      | _ => exact Iff.rfl

theorem View.isExec.event {w : View Value} (h : w.isExec) : w.viewClass = .event := by
  rw [View.viewClass, h]
  decide

theorem mem_execArray_fds {w : View Value} {fd : Value} (h : fd ∈ w.execArray .fds) :
    w.isExec ∧ fd ∈ w.fds := by
  by_cases hexec : w.isExec
  · exact ⟨hexec, by simpa [View.execArray, View.execValues, hexec, View.exec] using h⟩
  · simp [View.execArray, View.execValues, hexec] at h

/-- `deep_copy` returns, given enough stack. -/
theorem exists_deepCopy (v : Value) (hnative : v.Native) :
    ∃ stack r, deepCopy stack v = .ok r := by
  induction hsize : sizeOf v using Nat.strongRecOn generalizing v with
  | ind size ih =>
    subst hsize
    cases v with
    | array items =>
      obtain ⟨stack, r, hr, -⟩ := exists_deepCopy_items items fun item hitem => by
        have hlt : sizeOf item < sizeOf (Value.array items) := by
          have := List.sizeOf_lt_of_mem hitem
          simp only [Value.array.sizeOf_spec]
          omega
        exact ih _ hlt item (everywhere_array.mp hnative item hitem) rfl
      exact ⟨stack, r, hr⟩
    | fieldArray items =>
      obtain ⟨stack, r, -, hr⟩ := exists_deepCopy_items items fun item hitem => by
        have hlt : sizeOf item < sizeOf (Value.fieldArray items) := by
          have := List.sizeOf_lt_of_mem hitem
          simp only [Value.fieldArray.sizeOf_spec]
          omega
        exact ih _ hlt item (everywhere_fieldArray.mp hnative item hitem) rfl
      exact ⟨stack, r, hr⟩
    | hash entries =>
      obtain ⟨stack, r, hr, -⟩ := exists_deepCopy_entries entries fun entry hentry => by
        have hlt : sizeOf entry.2 < sizeOf (Value.hash entries) := by
          have := List.sizeOf_lt_of_mem hentry
          cases entry
          simp only [Value.hash.sizeOf_spec, Prod.mk.sizeOf_spec] at *
          omega
        exact ih _ hlt entry.2 (everywhere_hash.mp hnative entry hentry) rfl
      exact ⟨stack, r, hr⟩
    | data className members =>
      obtain ⟨stack, r, -, hr⟩ := exists_deepCopy_entries members fun entry hentry => by
        have hlt : sizeOf entry.2 < sizeOf (Value.data className members) := by
          have := List.sizeOf_lt_of_mem hentry
          cases entry
          simp only [Value.data.sizeOf_spec, Prod.mk.sizeOf_spec] at *
          omega
        exact ih _ hlt entry.2 (everywhere_data.mp hnative entry hentry) rfl
      exact ⟨stack, r, hr className⟩
    | string bytes encoding => exact ⟨1, _, rfl⟩
    | nil | bool _ | int _ | symbol _ | time _ _ => exact ⟨1, _, rfl⟩
    | view w =>
      have hself : w.Native := hnative.self
      have hfieldSize : ∀ field ∈ w.fields, sizeOf field.value < sizeOf (Value.view w) := by
        intro field hfield
        have := List.sizeOf_lt_of_mem hfield
        cases field
        cases w
        simp only [Value.view.sizeOf_spec, View.mk.sizeOf_spec, Field.mk.sizeOf_spec] at *
        omega
      have hfdSize : ∀ fd ∈ w.fds, sizeOf fd < sizeOf (Value.view w) := by
        intro fd hfd
        have := List.sizeOf_lt_of_mem hfd
        cases w
        simp only [Value.view.sizeOf_spec, View.mk.sizeOf_spec] at *
        omega
      have hfields : ∀ name ∈ w.fieldNames, ∃ value,
          (∃ stack, publicSend stack w name = .ok value) ∧
            ∃ stack copy, deepCopy stack value = .ok copy := by
        intro name hname
        obtain ⟨field, hfield, rfl⟩ := List.mem_map.mp hname
        rcases hself.accessor hfield with hsend | hsend | hsend
        · obtain ⟨stack, r, -, hr⟩ := exists_deepCopy_items [] (by simp)
          exact ⟨_, ⟨1, hsend⟩, stack, r, hr⟩
        · exact ⟨_, ⟨1, hsend⟩, exists_deepCopy_exposed ⟨1, .nil, rfl⟩ (fun _ h => by cases h)⟩
        · have hvalue := everywhere_exposed.mp (hnative.child (.field hname hsend))
          refine ⟨_, ⟨1, hsend⟩, exists_deepCopy_exposed
            (ih _ (hfieldSize field hfield) field.value hvalue rfl) fun items heq item hitem => ?_⟩
          rw [heq] at hvalue
          have hlt := List.sizeOf_lt_of_mem hitem
          have hfieldLt := hfieldSize field hfield
          rw [heq, Value.array.sizeOf_spec] at hfieldLt
          exact ih _ (by omega) item (everywhere_array.mp hvalue item hitem) rfl
      have hfds : ∀ fd ∈ w.execArray .fds, ∃ stack copy, valueToH stack fd = .ok copy := by
        intro fd hfd
        obtain ⟨hexec, hfd⟩ := mem_execArray_fds hfd
        rcases hself.descriptors fd hfd with rfl | ⟨u, rfl⟩
        · exact ⟨1, .hash [], rfl⟩
        · have hu : Value.Native (.view u) := hnative.child (.descriptor hexec.event hexec hfd)
          obtain ⟨stack, r, hr⟩ := ih _ (hfdSize _ hfd) (.view u) hu rfl
          cases stack with
          | zero => cases hr
          | succ stack => exact ⟨stack + 1, r, hr⟩
      obtain ⟨stack, r, hr⟩ := exists_toH hfields hfds
      exact ⟨stack + 1, r, hr⟩

/-! ## Messages -/

/-- The views of a message. -/
def Message.views (m : Message) : List (View Value) :=
  m.process.toList ++ m.thread.toList ++ m.event.toList

/-- The views of a message, and the views that their copies come to, are native ones. -/
def Message.Native (m : Message) : Prop := ∀ w ∈ m.views, Value.Native (.view w)

/-- The arguments and the environment of every exec event in the message are text. -/
def Message.Clean (m : Message) : Prop := ∀ w ∈ m.views, Value.Clean (.view w)

/-- An optional view as a value. -/
def optionalView : Option (View Value) → Value
  | none => .nil
  | some w => .view w

/-- `r` is a hash of the scalars of the message and faithful copies of its views. -/
def Message.Copied (m : Message) (r : Value) : Prop :=
  ∃ process thread event,
    r = .hash (m.scalars ++ [("process", process), ("thread", thread), ("event", event)]) ∧
    ObjectModel.Copied (optionalView m.process) process ∧
    ObjectModel.Copied (optionalView m.thread) thread ∧
    ObjectModel.Copied (optionalView m.event) event

theorem copied_optionalToH_iff {stack : Nat} {w : Option (View Value)} {r : Value}
    (hnative : ∀ u ∈ w.toList, Value.Native (.view u)) (h : optionalToH stack w = .ok r) :
    Copied (optionalView w) r ↔ ∀ u ∈ w.toList, Value.Clean (.view u) := by
  cases w with
  | none =>
    cases h
    exact iff_of_true (.scalar rfl) (by simp)
  | some w =>
    rw [optionalView, (copied_iff_clean_step stack).2 w r (hnative w (by simp)) h]
    simp

theorem exists_optionalToH {w : Option (View Value)}
    (hnative : ∀ u ∈ w.toList, Value.Native (.view u)) :
    ∃ stack r, optionalToH stack w = .ok r := by
  cases w with
  | none => exact ⟨0, .nil, rfl⟩
  | some w =>
    obtain ⟨stack, r, hr⟩ := exists_deepCopy (.view w) (hnative w (by simp))
    cases stack with
    | zero => cases hr
    | succ stack => exact ⟨stack, r, hr⟩

theorem optionalToH_mono {m n : Nat} (hmn : m ≤ n) {w : Option (View Value)} {r : Value}
    (h : optionalToH m w = .ok r) : optionalToH n w = .ok r := by
  cases w with
  | none => exact h
  | some w => exact toH_mono hmn h

theorem Message.toH_eq_ok {stack : Nat} {m : Message} {r : Value} :
    m.toH stack = .ok r ↔ ∃ process thread event,
      optionalToH stack m.process = .ok process ∧ optionalToH stack m.thread = .ok thread ∧
      optionalToH stack m.event = .ok event ∧
      r = .hash (m.scalars ++ [("process", process), ("thread", thread), ("event", event)]) := by
  have hdef : m.toH stack = (optionalToH stack m.process).bind fun process =>
      (optionalToH stack m.thread).bind fun thread =>
        (optionalToH stack m.event).bind fun event =>
          .ok (.hash (m.scalars ++
            [("process", process), ("thread", thread), ("event", event)])) := rfl
  simp only [hdef, Except.bind_eq_ok, Except.ok.injEq]
  constructor
  · rintro ⟨process, hp, thread, ht, event, he, rfl⟩
    exact ⟨process, thread, event, hp, ht, he, rfl⟩
  · rintro ⟨process, thread, event, hp, ht, he, rfl⟩
    exact ⟨process, hp, thread, ht, event, he, rfl⟩

theorem Message.exists_toH {m : Message} (hnative : m.Native) :
    ∃ stack r, m.toH stack = .ok r := by
  obtain ⟨a, process, hp⟩ := exists_optionalToH (w := m.process) fun u hu =>
    hnative u (List.mem_append_left _ (List.mem_append_left _ hu))
  obtain ⟨b, thread, ht⟩ := exists_optionalToH (w := m.thread) fun u hu =>
    hnative u (List.mem_append_left _ (List.mem_append_right _ hu))
  obtain ⟨c, event, he⟩ := exists_optionalToH (w := m.event) fun u hu =>
    hnative u (List.mem_append_right _ hu)
  exact ⟨max a (max b c), _, Message.toH_eq_ok.mpr ⟨process, thread, event,
    optionalToH_mono (by omega) hp, optionalToH_mono (by omega) ht,
    optionalToH_mono (by omega) he, rfl⟩⟩

/-- What `Message#to_h` returns is a faithful copy iff the message is clean. -/
theorem Message.copied_iff_clean {stack : Nat} {m : Message} {r : Value} (hnative : m.Native)
    (h : m.toH stack = .ok r) : m.Copied r ↔ m.Clean := by
  obtain ⟨process, thread, event, hp, ht, he, rfl⟩ := Message.toH_eq_ok.mp h
  have hprocess := copied_optionalToH_iff (fun u hu =>
    hnative u (List.mem_append_left _ (List.mem_append_left _ hu))) hp
  have hthread := copied_optionalToH_iff (fun u hu =>
    hnative u (List.mem_append_left _ (List.mem_append_right _ hu))) ht
  have hevent := copied_optionalToH_iff (fun u hu =>
    hnative u (List.mem_append_right _ hu)) he
  have hcopied : m.Copied
      (.hash (m.scalars ++ [("process", process), ("thread", thread), ("event", event)])) ↔
      ObjectModel.Copied (optionalView m.process) process ∧
        ObjectModel.Copied (optionalView m.thread) thread ∧
        ObjectModel.Copied (optionalView m.event) event := by
    constructor
    · rintro ⟨process', thread', event', heq, hrest⟩
      have hlist := List.append_cancel_left (Value.hash.inj heq)
      simp only [List.cons.injEq, Prod.mk.injEq, true_and, and_true] at hlist
      obtain ⟨rfl, rfl, rfl⟩ := hlist
      exact hrest
    · exact fun hrest => ⟨process, thread, event, rfl, hrest⟩
  rw [hcopied, hprocess, hthread, hevent, Message.Clean, Message.views]
  simp only [List.forall_mem_append, and_assoc]

/-- For every message of native views: `to_h` returns a hash whose strings are text with the
    native bytes or base64 of them, and in which no view, field array or `Data` object is left,
    iff the arguments and the environment of every exec event in it are text. -/
theorem toH_copied_iff_clean (m : Message) (hnative : m.Native) :
    (∃ stack r, m.toH stack = .ok r ∧ m.Copied r) ↔ m.Clean := by
  constructor
  · rintro ⟨stack, r, hr, hcopied⟩
    exact (Message.copied_iff_clean hnative hr).mp hcopied
  · intro hclean
    obtain ⟨stack, r, hr⟩ := Message.exists_toH hnative
    exact ⟨stack, r, hr, (Message.copied_iff_clean hnative hr).mpr hclean⟩

/-! ## Samples -/

/-- A native view whose fields are scalars and strings, and that has no descriptors. -/
theorem View.Native.everywhere_flat {P : View Value → Prop} {w : View Value} (h : w.Native)
    (hleaves : ∀ field ∈ w.fields, field.value.scalar ∨
      ∃ bytes encoding, field.value = .string bytes encoding) (hfds : w.fds = []) (hw : P w) :
    Everywhere P (.view w) := by
  refine everywhere_iff.mpr ⟨fun u hu => by cases hu; exact hw, fun child hchild => ?_⟩
  cases hchild with
  | field hname hsend =>
    obtain ⟨field, hfield, rfl⟩ := List.mem_map.mp hname
    rcases h.accessor hfield with hvalue | hvalue | hvalue <;>
      rw [publicSend_unique hsend hvalue]
    · exact everywhere_fieldArray.mpr (by simp)
    · exact everywhere_exposed.mpr (everywhere_leaf (.inl rfl))
    · exact everywhere_exposed.mpr (everywhere_leaf (hleaves field hfield))
  | descriptor _ _ hfd =>
    rw [hfds] at hfd
    cases hfd

/-- The process of the sample messages. -/
def sampleProcess : View Value where
  schema := "es_process_t"
  messageVersion := 7
  strictVersion := false
  fields := [⟨"ppid", 1, .int 1⟩, ⟨"is_es_client", 1, .bool false⟩,
    ⟨"codesigning_flags", 1, .int 1⟩, ⟨"signing_id", 1, .string [255] .utf8⟩]
  args := []
  env := []
  fds := []

/-- An exec event with one argument. -/
def sampleExec (argument : Text) : View Value where
  schema := "es_event_exec_t"
  messageVersion := 7
  strictVersion := false
  fields := [⟨"target", 1, .nil⟩, ⟨"dyld_exec_path", 7, .string [] .utf8⟩, ⟨"script", 2, .nil⟩,
    ⟨"cwd", 3, .nil⟩, ⟨"last_fd", 4, .int 2⟩, ⟨"image_cputype", 6, .int 0⟩,
    ⟨"image_cpusubtype", 6, .int 0⟩]
  args := [some argument]
  env := []
  fds := []

def sampleMessage (argument : Text) : Message where
  version := 7
  eventType := .symbol "notify_exec"
  actionType := .symbol "notify"
  result := some (.symbol "allow")
  seconds := 0
  nanoseconds := 0
  machTime := 0
  deadline := 0
  seqNum := some 0
  globalSeqNum := some 0
  process := some sampleProcess
  thread := none
  event := some (sampleExec argument)

theorem sampleProcess_native : sampleProcess.Native where
  lenient := rfl
  nodup := by decide
  serves := by decide
  truncation := by decide
  exec := by decide
  descriptors := by simp [sampleProcess]

theorem sampleExec_native (argument : Text) : (sampleExec argument).Native := by
  have hempty : (sampleExec ⟨[], .utf8⟩).Native :=
    ⟨rfl, by decide, by decide, by decide, by decide, by simp [sampleExec]⟩
  -- The fields do not depend on the argument.
  exact ⟨rfl, hempty.nodup, hempty.serves, hempty.truncation, hempty.exec, by simp [sampleExec]⟩

theorem sampleMessage_native (argument : Text) : (sampleMessage argument).Native := by
  have hprocess : Value.Native (.view sampleProcess) :=
    sampleProcess_native.everywhere_flat (by simp [sampleProcess, Value.scalar]) rfl
      sampleProcess_native
  have hexec : Value.Native (.view (sampleExec argument)) :=
    (sampleExec_native argument).everywhere_flat (by simp [sampleExec, Value.scalar]) rfl
      (sampleExec_native argument)
  intro w hw
  simp only [Message.views, sampleMessage, Option.toList, List.append_nil, List.cons_append,
    List.nil_append, List.mem_cons, List.not_mem_nil, or_false] at hw
  rcases hw with rfl | rfl
  · exact hprocess
  · exact hexec

theorem toH_copied_iff_clean_sample :
    ∃ stack r, (sampleMessage ⟨[108, 115], .utf8⟩).toH stack = .ok r ∧
      (sampleMessage ⟨[108, 115], .utf8⟩).Copied r := by
  refine (toH_copied_iff_clean _ (sampleMessage_native _)).mpr fun w hw => ?_
  simp only [Message.views, sampleMessage, Option.toList, List.append_nil, List.cons_append,
    List.nil_append, List.mem_cons, List.not_mem_nil, or_false] at hw
  rcases hw with rfl | rfl
  · exact sampleProcess_native.everywhere_flat (by simp [sampleProcess, Value.scalar]) rfl
      fun hevent => absurd hevent (by decide)
  · refine (sampleExec_native _).everywhere_flat (by simp [sampleExec, Value.scalar]) rfl
      fun _ _ text htext => ?_
    have htext : text = ⟨[108, 115], .utf8⟩ := by simpa [sampleExec] using htext
    rw [htext]
    decide +kernel

/-- The argument of an exec event that is no UTF-8 stays in `to_h` as it is. -/
theorem exec_argument_not_copied :
    ¬ ∀ m : Message, m.Native → ∃ stack r, m.toH stack = .ok r ∧ m.Copied r := by
  intro h
  have hnative := sampleMessage_native ⟨[255], .utf8⟩
  obtain ⟨stack, r, hr, hcopied⟩ := h (sampleMessage ⟨[255], .utf8⟩) hnative
  have hclean := (Message.copied_iff_clean hnative hr).mp hcopied
  have hplain : Plain [255] .utf8 := by
    refine hclean (sampleExec ⟨[255], .utf8⟩) (by simp [Message.views, sampleMessage]) _ .refl
      (by decide) rfl ⟨[255], .utf8⟩ ?_
    simp [sampleExec]
  revert hplain
  decide +kernel

end EndpointSecurity.ObjectModel
