import EndpointSecurity.Codegen.Records
import EndpointSecurity.ForStd.ExceptList
import EndpointSecurity.Spec.EventTables
import EndpointSecurity.Spec.FieldTypes

/-!
# What the reader knows of a record is what the header declares (`codegen/ir.rb`, `field.c`)

From the declarations of a record in the AST to the row of the schema table that `read_field`
finds there are a hash by typedef names, an array made unique by field names, a search through
the anonymous members and the version comments. A record that an `es_...` typedef names has a
schema, whose fields are those that C lets a program name, except the reserved ones.

`recursive_field` takes the first field of the name, level by level. For the field of an anonymous
member that is the right one when no nested structure has another field of its name.

## Key results

- `Ast.lookup_typedefs`: the hash of the typedefs has what the AST declares
- `find?_fieldDecls`: the fields of a record are those that C declares
- `reader_knows_header`: so `find_field` has them, and `__read_field` refuses every other name
- `acceptedIR`: what passes `validate_field_types!` is as the reader relies on
-/

namespace EndpointSecurity.Codegen

/-! ## Typedefs -/

namespace Ast

/-- The typedef of the name in the AST owns the declaration. -/
def Declares (accepts : Node → Bool) (root : Node) (name : String) (declared : Node) : Prop :=
  ∃ typedef ∈ walk root, typedef.label.kind = some "TypedefDecl" ∧
    typedef.label.name = some name ∧ "es_".toList <+: name.toList ∧
    (∃ first id, typedef.inner.head? = some first ∧ first.label.ownedTagDecl = some id ∧
      declared.label.id = some id) ∧
    declared ∈ walk root ∧ accepts declared

/-- An AST of a translation unit: the ids are distinct, the declarations that are looked for have
    ids, and typedefs of one name own one declaration. -/
structure WellFormed (accepts : Node → Bool) (root : Node) : Prop where
  ids : ∀ a ∈ walk root, ∀ b ∈ walk root, a.label.id = b.label.id → a.label.id ≠ none → a = b
  accepted : ∀ a ∈ walk root, accepts a → a.label.id ≠ none
  names : ∀ name a b, Declares accepts root name a → Declares accepts root name b → a = b

variable {accepts : Node → Bool} {root : Node} {name : String} {declared : Node}

/-- An AST whose ids are distinct, and whose typedefs have distinct names. -/
theorem WellFormed.of_nodup
    (hids : (((walk root).filter (·.label.id.isSome)).map (·.label.id)).Nodup)
    (haccepted : ∀ a ∈ walk root, accepts a → a.label.id ≠ none)
    (hnames : (((walk root).filter (·.label.kind = some "TypedefDecl")).map
      (·.label.name)).Nodup) : WellFormed accepts root := by
  have hdistinct : ∀ a ∈ walk root, ∀ b ∈ walk root, a.label.id = b.label.id →
      a.label.id ≠ none → a = b := by
    intro a ha b hb heq hne
    have hsome := Option.isSome_iff_ne_none.mpr hne
    exact List.inj_on_of_nodup_map hids (List.mem_filter.mpr ⟨ha, hsome⟩)
      (List.mem_filter.mpr ⟨hb, heq ▸ hsome⟩) heq
  refine ⟨hdistinct, haccepted, fun name a b ha hb => ?_⟩
  obtain ⟨s, hs, hskind, hsname, -, ⟨first, id, hfirst, hid, haid⟩, ha, haccepts⟩ := ha
  obtain ⟨t, ht, htkind, htname, -, ⟨first', id', hfirst', hid', hbid⟩, hb, -⟩ := hb
  -- One typedef has the name, and it owns the declaration of one id
  obtain rfl : s = t := List.inj_on_of_nodup_map hnames
    (List.mem_filter.mpr ⟨hs, decide_eq_true hskind⟩)
    (List.mem_filter.mpr ⟨ht, decide_eq_true htkind⟩) (hsname.trans htname.symm)
  obtain rfl := Option.some.inj (hfirst.symm.trans hfirst')
  obtain rfl := Option.some.inj (hid.symm.trans hid')
  exact hdistinct a ha b hb (haid.trans hbid.symm) (haccepted a ha haccepts)

theorem byId_eq_some (hwf : WellFormed accepts root) (haccepts : accepts declared)
    {id : Option String} : byId (walk root) id = some declared ↔
      declared ∈ walk root ∧ declared.label.id = id := by
  rw [byId]
  constructor
  · intro h
    have hid := List.find?_some h
    exact ⟨List.mem_reverse.mp (List.mem_of_find?_eq_some h), of_decide_eq_true hid⟩
  · rintro ⟨hmem, rfl⟩
    cases h : (walk root).reverse.find? (·.label.id = declared.label.id) with
    | none =>
      have hnot := List.find?_eq_none.mp h declared (List.mem_reverse.mpr hmem)
      simp at hnot
    | some found =>
      have hid : found.label.id = declared.label.id := by simpa using List.find?_some h
      have hfound := List.mem_reverse.mp (List.mem_of_find?_eq_some h)
      rw [hwf.ids declared hmem found hfound hid.symm (hwf.accepted declared hmem haccepts)]

/-- The pairs that the hash of the typedefs is made of are what the AST declares. -/
theorem declares_iff (hwf : WellFormed accepts root) :
    Declares accepts root name declared ↔ ∃ typedef ∈ walk root,
      typedef.label.kind = some "TypedefDecl" ∧ typedef.label.name = some name ∧
      "es_".toList.isPrefixOf name.toList ∧
      (byId (walk root) (typedef.inner.head?.bind (·.label.ownedTagDecl))).filter accepts =
        some declared := by
  simp only [Declares, List.isPrefixOf_iff_prefix, Option.filter_eq_some_iff]
  constructor
  · rintro ⟨typedef, hmem, hkind, hname, hes, ⟨first, id, hfirst, hid, hdid⟩, hdecl, haccepts⟩
    refine ⟨typedef, hmem, hkind, hname, hes, ?_, haccepts⟩
    rw [byId_eq_some hwf haccepts, hfirst, Option.bind_some, hid]
    exact ⟨hdecl, hdid⟩
  · rintro ⟨typedef, hmem, hkind, hname, hes, hfound, haccepts⟩
    obtain ⟨hdecl, hid⟩ := (byId_eq_some hwf haccepts).mp hfound
    refine ⟨typedef, hmem, hkind, hname, hes, ?_, hdecl, haccepts⟩
    -- What is found has an id, so the typedef owns it by that one
    cases hfirst : typedef.inner.head? with
    | none =>
      rw [hfirst, Option.bind_none] at hid
      exact absurd hid (hwf.accepted declared hdecl haccepts)
    | some first =>
      rw [hfirst, Option.bind_some] at hid
      cases howned : first.label.ownedTagDecl with
      | none =>
        rw [howned] at hid
        exact absurd hid (hwf.accepted declared hdecl haccepts)
      | some id => exact ⟨first, id, rfl, howned, howned ▸ hid⟩

theorem nodup_typedefs : ((typedefs accepts root).map Prod.fst).Nodup :=
  Hash.nodup_foldl_store _ List.nodup_nil

theorem typedefPair_eq_some {nodes : List Node} {typedef : Node} :
    typedefPair accepts nodes typedef = some (name, declared) ↔
      typedef.label.kind = some "TypedefDecl" ∧ typedef.label.name = some name ∧
        "es_".toList.isPrefixOf name.toList ∧
        (byId nodes (typedef.inner.head?.bind (·.label.ownedTagDecl))).filter accepts =
          some declared := by
  rw [typedefPair]
  cases hname : typedef.label.name with
  | none => simp
  | some n =>
    simp only [Option.some.injEq]
    split
    · next hcond =>
      simp only [Option.map_eq_some_iff, Prod.mk.injEq]
      constructor
      · rintro ⟨d, hd, rfl, rfl⟩
        exact ⟨hcond.1, rfl, hcond.2, hd⟩
      · rintro ⟨-, rfl, -, hd⟩
        exact ⟨declared, hd, rfl, rfl⟩
    · next hcond =>
      simp only [reduceCtorEq, false_iff]
      rintro ⟨hkind, rfl, hes, -⟩
      exact hcond ⟨hkind, hes⟩

/-- The hash of the typedefs has what the AST declares. -/
theorem lookup_typedefs (hwf : WellFormed accepts root) :
    (typedefs accepts root).lookup name = some declared ↔
      Declares accepts root name declared := by
  have hpairs : ∀ found, Declares accepts root name found ↔
      (name, found) ∈ (walk root).filterMap (typedefPair accepts (walk root)) := by
    intro found
    simp only [declares_iff hwf, List.mem_filterMap, typedefPair_eq_some]
  rw [typedefs, Hash.lookup_foldl_store, List.lookup_nil, Option.or_none]
  have hof : ∀ found,
      ((walk root).filterMap (typedefPair accepts (walk root))).reverse.lookup name = some found →
        Declares accepts root name found := by
    intro found h
    rw [hpairs, ← List.mem_reverse]
    exact Hash.mem_of_lookup h
  refine ⟨hof declared, fun h => ?_⟩
  -- The hash has one of the declarations of the name, and there is only one
  have hsome : (((walk root).filterMap (typedefPair accepts (walk root))).reverse.lookup
      name).isSome :=
    List.lookup_isSome_iff.mpr
      ⟨(name, declared), List.mem_reverse.mpr ((hpairs declared).mp h), by simp⟩
  obtain ⟨found, hfound⟩ := Option.isSome_iff_exists.mp hsome
  rw [hfound, hwf.names name found declared (hof found hfound) h]

end Ast

/-! ## Fields -/

/-- The structure or union of an anonymous member: its declaration has no name, and neither has
    the field that clang writes behind it. -/
def AnonymousMember (record member : Node) : Prop :=
  member.label.kind = some "RecordDecl" ∧ member.label.name = none ∧
    ∃ field, isFieldDecl field ∧ field.label.name = none ∧ [member, field] <:+: record.inner

/-- C lets a program name the field of the record: it is one of its own, or of an anonymous
    member. -/
inductive Declared (name : String) (field : Node) : Node → Prop
  | own {record : Node} (hmem : field ∈ record.inner) (hfield : isFieldDecl field)
      (hname : field.label.name = some name) : Declared name field record
  | anonymous {record member : Node} (hmember : AnonymousMember record member)
      (h : Declared name field member) : Declared name field record

/-- The field is one of an anonymous member of the record. -/
def Indirect (name : String) (field record : Node) : Prop :=
  ∃ member, AnonymousMember record member ∧ Declared name field member

/-- The record is declared as C demands and clang writes it, and its nested structures repeat no
    name of an indirect field. -/
structure ClearFields (record : Node) : Prop where
  /-- C: the names that a program may use are distinct. -/
  distinct : ∀ name f g, Declared name f record → Declared name g record → f = g
  /-- clang: the names of the indirect fields are those of the fields of anonymous members. -/
  indirect : ∀ name, (∃ child ∈ record.inner, child.label.kind = some "IndirectFieldDecl" ∧
    child.label.name = some name) ↔ ∃ field, Indirect name field record
  /-- The condition: below the record an indirect field is the only one of its name. C does not
      demand it, as the members of a nested structure with a name may be called the same. -/
  unshadowed : ∀ name field other, Indirect name field record →
    other ∈ RoseTree.preorders record.inner → isFieldDecl other →
    other.label.name = some name → other = field

/-- `field.dig("type", "desugaredQualType") || field.dig("type", "qualType")` -/
def qualType (field : Node) : Option String :=
  field.label.desugaredQualType.or field.label.qualType

def isReserved (name : String) : Bool := "reserved".toList.isPrefixOf name.toList

section
variable {record field : Node} {name : String}

theorem recursiveField_eq_some {n : Option String} (h : recursiveField record n = some field) :
    field ∈ RoseTree.preorders record.inner ∧ isFieldDecl field ∧ field.label.name = n := by
  obtain ⟨child, hchild, hif⟩ := RoseTree.queueFind_eq_some h
  split at hif
  · next hcond =>
    cases hif
    exact ⟨hchild, hcond⟩
  · cases hif

theorem exists_recursiveField (hmem : field ∈ RoseTree.preorders record.inner)
    (hfield : isFieldDecl field) :
    ∃ found, recursiveField record field.label.name = some found := by
  rw [← Option.ne_none_iff_exists']
  intro hnone
  have hnot := RoseTree.queueFind_eq_none_iff.mp hnone field hmem
  simp [hfield] at hnot

theorem Declared.fieldDecl (h : Declared name field record) :
    field ∈ RoseTree.preorders record.inner ∧ isFieldDecl field ∧
      field.label.name = some name := by
  induction h with
  | own hmem hfield hname => exact ⟨RoseTree.mem_preorders_of_mem hmem, hfield, hname⟩
  | @anonymous record member hmember _ ih =>
    obtain ⟨hbelow, hfield⟩ := ih
    obtain ⟨-, -, f, -, -, hwithin⟩ := hmember
    have hmem : member ∈ record.inner := hwithin.subset List.mem_cons_self
    exact ⟨RoseTree.mem_preorders_inner hmem hbelow, hfield⟩

theorem mem_fieldDecls_find (hclear : ClearFields record)
    (h : (fieldDecls record).find? (·.label.name = some name) = some field) :
    Declared name field record := by
  have hname : field.label.name = some name := by simpa using List.find?_some h
  rw [fieldDecls, List.find?_uniqBy] at h
  rcases List.mem_append.mp (List.mem_of_find?_eq_some h) with hdirect | hindirect
  · obtain ⟨hmem, hfield⟩ := List.mem_filter.mp hdirect
    rw [Bool.and_eq_true] at hfield
    exact .own hmem hfield.1 hname
  · obtain ⟨child, hchild, hfound⟩ := List.mem_filterMap.mp hindirect
    obtain ⟨hmem, hkind⟩ := List.mem_filter.mp hchild
    obtain ⟨hbelow, hfield, hsame⟩ := recursiveField_eq_some hfound
    -- An anonymous member has a field of this name, and no other is called so
    obtain ⟨declared, hdeclared⟩ := (hclear.indirect name).mp
      ⟨child, hmem, by simpa using hkind, hsame ▸ hname⟩
    obtain rfl := hclear.unshadowed name declared field hdeclared hbelow hfield hname
    obtain ⟨member, hmember, h⟩ := hdeclared
    exact .anonymous hmember h

/-- A name that C lets a program use has a declaration. -/
theorem exists_find_fieldDecls (hclear : ClearFields record) (h : Declared name field record) :
    ∃ found, (fieldDecls record).find? (·.label.name = some name) = some found := by
  rw [← Option.isSome_iff_exists, fieldDecls, List.find?_uniqBy, List.find?_isSome]
  obtain ⟨hbelow, hfield, hname⟩ := h.fieldDecl
  cases h with
  | own hmem =>
    refine ⟨field, List.mem_append_left _ (List.mem_filter.mpr ⟨hmem, ?_⟩), by simpa using hname⟩
    rw [Bool.and_eq_true, hname]
    exact ⟨hfield, rfl⟩
  | @anonymous _ member hmember h =>
    obtain ⟨indirect, hmem, hkind, hiname⟩ :=
      (hclear.indirect name).mpr ⟨field, member, hmember, h⟩
    -- The search below the record finds a declaration by the name of the indirect one
    obtain ⟨found, hfound⟩ := exists_recursiveField hbelow hfield
    rw [hname, ← hiname] at hfound
    refine ⟨found, List.mem_append_right _ (List.mem_filterMap.mpr
      ⟨indirect, List.mem_filter.mpr ⟨hmem, by simpa using hkind⟩, hfound⟩), ?_⟩
    have hsame := (recursiveField_eq_some hfound).2.2
    rw [hiname] at hsame
    simpa using hsame

/-- The declarations by a name are those that C lets a program name so. -/
theorem find?_fieldDecls (hclear : ClearFields record) :
    (fieldDecls record).find? (·.label.name = some name) = some field ↔
      Declared name field record := by
  refine ⟨mem_fieldDecls_find hclear, fun h => ?_⟩
  obtain ⟨found, hfound⟩ := exists_find_fieldDecls hclear h
  rw [hfound, hclear.distinct name found field (mem_fieldDecls_find hclear hfound) h]

/-! ## The rows of a record -/

variable {versions : Versions} {record' : Record} {f : Field}

/-- The row that a declaration gives. -/
theorem fieldOf_eq_ok {row : Option Field} (h : fieldOf versions name field = .ok row) :
    ∃ n, field.label.name = some n ∧
      ((isReserved n = true ∧ row = none) ∨ (isReserved n = false ∧ ∃ type,
        qualType field = some type ∧
          row = some ⟨n, normalizeType type, minimumVersion versions name n⟩)) := by
  simp only [fieldOf] at h
  cases hname : field.label.name with
  | none =>
    rw [hname] at h
    cases h
  | some n =>
    simp only [hname] at h
    refine ⟨n, rfl, ?_⟩
    split at h
    · next hreserved =>
      cases h
      exact .inl ⟨hreserved, rfl⟩
    · next hreserved =>
      cases htype : field.label.desugaredQualType.or field.label.qualType with
      | none =>
        rw [htype] at h
        cases h
      | some type =>
        simp only [htype] at h
        cases h
        exact .inr ⟨(Bool.not_eq_true _).mp hreserved, type, htype, rfl⟩

theorem recordOf_eq_ok (h : recordOf versions (name, record) = .ok record') :
    record'.name = name ∧ ∃ rows, (fieldDecls record).mapM (fieldOf versions name) = .ok rows ∧
      record'.fields = rows.filterMap id := by
  obtain ⟨rows, hrows, h⟩ := Except.bind_eq_ok.mp h
  cases h
  exact ⟨rfl, rows, hrows, rfl⟩

/-- A row has the name of its declaration. -/
theorem fieldOf_name {row : Field}
    (h : (fieldOf versions name field).toOption.join = some row) :
    some row.name = field.label.name := by
  cases hof : fieldOf versions name field with
  | error message =>
    rw [hof] at h
    cases h
  | ok found =>
    rw [hof] at h
    obtain ⟨n, hn, ⟨-, rfl⟩ | ⟨-, type, -, rfl⟩⟩ := fieldOf_eq_ok hof
    · cases h
    · cases h
      exact hn.symm

/-- The rows of a record are made of the declarations by their names. -/
theorem find?_fields (h : recordOf versions (name, record) = .ok record') (n : String) :
    record'.fields.find? (·.name = n) =
      ((fieldDecls record).find? (·.label.name = some n)).bind fun field =>
        (fieldOf versions name field).toOption.join := by
  obtain ⟨-, rows, hrows, hfields⟩ := recordOf_eq_ok h
  have hnodup : ((fieldDecls record).map (·.label.name)).Nodup := List.nodup_uniqBy _
  have hfind : ((fieldDecls record).filterMap fun field =>
      (fieldOf versions name field).toOption.join).find? (some ·.name = some n) =
        ((fieldDecls record).find? (·.label.name = some n)).bind fun field =>
          (fieldOf versions name field).toOption.join :=
    List.find?_filterMap_key (fun _ _ => fieldOf_name) hnodup (some n)
  rw [hfields, Except.filterMap_of_mapM hrows, ← hfind]
  simp only [Option.some.injEq]

theorem nodup_fields (h : recordOf versions (name, record) = .ok record') :
    (record'.fields.map (·.name)).Nodup := by
  obtain ⟨-, rows, hrows, hfields⟩ := recordOf_eq_ok h
  have hsublist : (((fieldDecls record).filterMap fun field =>
      (fieldOf versions name field).toOption.join).map fun row => some row.name).Sublist
        ((fieldDecls record).map (·.label.name)) :=
    List.map_filterMap_sublist (fun _ _ => fieldOf_name) _
  rw [hfields, Except.filterMap_of_mapM hrows]
  apply List.Nodup.of_map some
  rw [List.map_map]
  exact (List.nodup_uniqBy _).sublist hsublist

end

/-! ## The schema table -/

/-- `record&.fetch("completeDefinition", false)` -/
def isComplete (node : Node) : Bool := node.label.completeDefinition

section
variable {w : WordClass} {root node : Node} {sources : List (List Char)} {rs : List Record}
  {versions : Versions} {name : String}

theorem mapM_recordOf (h : records w root sources = .ok rs) :
    ∃ versions, scanFieldVersions w sources = .ok versions ∧
      (Ast.typedefRecords root).mapM (recordOf versions) = .ok rs :=
  Except.bind_eq_ok.mp h

theorem nodup_records (h : records w root sources = .ok rs) : (rs.map (·.name)).Nodup := by
  obtain ⟨versions, -, hrs⟩ := mapM_recordOf h
  have hnames : rs.map (·.name) = (Ast.typedefRecords root).map Prod.fst :=
    Except.map_of_mapM (fun _ _ hok => (recordOf_eq_ok hok).1) hrs
  rw [hnames]
  exact Ast.nodup_typedefs

theorem mapM_recordOf_versions (h : records w root sources = .ok rs)
    (hversions : scanFieldVersions w sources = .ok versions) :
    (Ast.typedefRecords root).mapM (recordOf versions) = .ok rs := by
  obtain ⟨versions', hversions', hrs⟩ := mapM_recordOf h
  rw [hversions] at hversions'
  cases hversions'
  exact hrs

theorem mem_typedefRecords (hwf : Ast.WellFormed isComplete root) :
    (name, node) ∈ Ast.typedefRecords root ↔ Ast.Declares isComplete root name node := by
  rw [← Ast.lookup_typedefs hwf]
  exact (Hash.lookup_eq_some_iff Ast.nodup_typedefs).symm

theorem exists_recordOf (hwf : Ast.WellFormed isComplete root)
    (h : records w root sources = .ok rs)
    (hversions : scanFieldVersions w sources = .ok versions)
    (hdeclares : Ast.Declares isComplete root name node) :
    ∃ record, recordOf versions (name, node) = .ok record := by
  obtain ⟨record, -, hok⟩ := Except.exists_ok_of_mapM (mapM_recordOf_versions h hversions)
    ((mem_typedefRecords hwf).mpr hdeclares)
  exact ⟨record, hok⟩

/-- The record of a declaration is in the table under the name of the typedef. -/
theorem find?_records (hwf : Ast.WellFormed isComplete root) (h : records w root sources = .ok rs)
    (hversions : scanFieldVersions w sources = .ok versions) {record : Record} :
    rs.find? (·.name = name) = some record ↔
      ∃ node, Ast.Declares isComplete root name node ∧
        recordOf versions (name, node) = .ok record := by
  have hrs := mapM_recordOf_versions h hversions
  constructor
  · intro hfind
    obtain ⟨⟨n, node⟩, hmem, hok⟩ := Except.exists_mem_of_mapM hrs (List.mem_of_find?_eq_some hfind)
    obtain rfl : record.name = name := by simpa using List.find?_some hfind
    obtain rfl : record.name = n := (recordOf_eq_ok hok).1
    exact ⟨node, (mem_typedefRecords hwf).mp hmem, hok⟩
  · rintro ⟨node, hdeclares, hok⟩
    obtain ⟨record', hmem, hok'⟩ := Except.exists_ok_of_mapM hrs
      ((mem_typedefRecords hwf).mpr hdeclares)
    obtain rfl : record = record' := by
      rw [hok] at hok'
      cases hok'
      rfl
    obtain rfl := (recordOf_eq_ok hok).1
    exact List.find?_key_of_nodup (nodup_records h) hmem

end

open FieldReader (findSchema findField readField)

section
variable {record : Record} {node field : Node} {versions : Versions} {name n : String}

/-- A declared field that is not reserved has a row. -/
theorem find?_fields_declared (h : recordOf versions (name, node) = .ok record)
    (hclear : ClearFields node) (hfield : Declared n field node)
    (hreserved : isReserved n = false) : ∃ type, qualType field = some type ∧
      record.fields.find? (·.name = n) =
        some ⟨n, normalizeType type, minimumVersion versions name n⟩ := by
  have hdecl := (find?_fieldDecls hclear).mpr hfield
  obtain ⟨-, rows, hrows, -⟩ := recordOf_eq_ok h
  obtain ⟨row, -, hrow⟩ := Except.exists_ok_of_mapM hrows (List.mem_of_find?_eq_some hdecl)
  obtain ⟨m, hm, hcase⟩ := fieldOf_eq_ok hrow
  obtain rfl : n = m := by simpa [hfield.fieldDecl.2.2] using hm
  rcases hcase with ⟨htrue, -⟩ | ⟨-, type, htype, rfl⟩
  · rw [hreserved] at htrue
    cases htrue
  · refine ⟨type, htype, ?_⟩
    rw [find?_fields h, hdecl, Option.bind_some, hrow]
    rfl

/-- Nothing else has one. -/
theorem find?_fields_none (h : recordOf versions (name, node) = .ok record)
    (hclear : ClearFields node) (hn : isReserved n = true ∨ ∀ field, ¬Declared n field node) :
    record.fields.find? (·.name = n) = none := by
  rw [find?_fields h]
  cases hdecl : (fieldDecls node).find? (·.label.name = some n) with
  | none => rfl
  | some field =>
    have hfield := mem_fieldDecls_find hclear hdecl
    rcases hn with hreserved | hnot
    · obtain ⟨-, rows, hrows, -⟩ := recordOf_eq_ok h
      obtain ⟨row, -, hrow⟩ := Except.exists_ok_of_mapM hrows (List.mem_of_find?_eq_some hdecl)
      obtain ⟨m, hm, hcase⟩ := fieldOf_eq_ok hrow
      obtain rfl : n = m := by simpa [hfield.fieldDecl.2.2] using hm
      rcases hcase with ⟨-, rfl⟩ | ⟨hfalse, -⟩
      · rw [Option.bind_some, hrow]
        rfl
      · rw [hreserved] at hfalse
        cases hfalse
    · exact absurd hfield (hnot field)

end

/-- A view knows the fields of its record. -/
theorem findField_emitRecord {layout : Layout} {view : FieldReader.View} {record : Record}
    (hview : view.schema = emitRecord layout.offsetof record) (n : String) :
    findField view n = (record.fields.find? (·.name = n)).map fun f =>
      ⟨f.name, f.type, layout.offsetof record.name f.name, f.minimumVersion⟩ := by
  rw [findField, hview, emitRecord, List.find?_map]
  rfl

/-- Whatever headers the schema table is written from, a schema is found for just the names of the
    complete records that the typedefs declare, and a view with it has just the fields that C lets
    a program name and that are not reserved: each with its normalized type, its offset and the
    version of its comment, while `__read_field` knows no other name. The nested structures of the
    record must not repeat a name of an indirect field. -/
theorem reader_knows_header {w : WordClass} {root : Node} {sources : List (List Char)}
    {rs : List Record} {versions : Versions} (layout : Layout) (mem : FieldReader.Memory)
    (enumerations : List Enumeration) (hwf : Ast.WellFormed isComplete root)
    (hversions : scanFieldVersions w sources = .ok versions)
    (h : records w root sources = .ok rs) (name : String) :
    ((findSchema (emitSchemas layout.offsetof rs) name).isSome ↔
      ∃ node, Ast.Declares isComplete root name node) ∧
    ∀ node, Ast.Declares isComplete root name node → ClearFields node →
      ∀ view : FieldReader.View,
        findSchema (emitSchemas layout.offsetof rs) name = some view.schema → ∀ n,
          (∀ field, Declared n field node → isReserved n = false → ∃ type,
            qualType field = some type ∧ findField view n = some
              ⟨n, normalizeType type, layout.offsetof name n,
                minimumVersion versions name n⟩) ∧
          ((isReserved n = true ∨ ∀ field, ¬Declared n field node) →
            readField (emitSchemas layout.offsetof rs) enumerations mem view n =
              .error .undefined) := by
  have hschema : ∀ schema, findSchema (emitSchemas layout.offsetof rs) name = some schema ↔
      ∃ record node, Ast.Declares isComplete root name node ∧
        recordOf versions (name, node) = .ok record ∧
        schema = emitRecord layout.offsetof record := by
    intro schema
    simp only [findSchema_emitSchemas, Option.map_eq_some_iff, find?_records hwf h hversions]
    constructor
    · rintro ⟨record, ⟨node, hdeclares, hok⟩, rfl⟩
      exact ⟨record, node, hdeclares, hok, rfl⟩
    · rintro ⟨record, node, hdeclares, hok, rfl⟩
      exact ⟨record, ⟨node, hdeclares, hok⟩, rfl⟩
  constructor
  · rw [Option.isSome_iff_exists]
    constructor
    · rintro ⟨schema, hfind⟩
      obtain ⟨record, node, hdeclares, -⟩ := (hschema schema).mp hfind
      exact ⟨node, hdeclares⟩
    · rintro ⟨node, hdeclares⟩
      obtain ⟨record, hok⟩ := exists_recordOf hwf h hversions hdeclares
      exact ⟨_, (hschema _).mpr ⟨record, node, hdeclares, hok, rfl⟩⟩
  · intro node hdeclares hclear view hview n
    obtain ⟨record, node', hdeclares', hok, hrecord⟩ := (hschema view.schema).mp hview
    obtain rfl : node = node' := hwf.names name node node' hdeclares hdeclares'
    have hname : record.name = name := (recordOf_eq_ok hok).1
    constructor
    · intro field hfield hreserved
      obtain ⟨type, htype, hfind⟩ := find?_fields_declared hok hclear hfield hreserved
      refine ⟨type, htype, ?_⟩
      rw [findField_emitRecord hrecord, hfind, Option.map_some, hname]
    · intro hn
      have hfind : findField view n = none := by
        rw [findField_emitRecord hrecord, find?_fields_none hok hclear hn, Option.map_none]
      rw [readField, hfind]

/-! ### A header with one record -/

/-- The declaration of a field of type `int`, as clang writes it. -/
def intDecl (id name : String) : Node :=
  .node { kind := some "FieldDecl", id := some id, name := some name, qualType := some "int" } []

/-- `union { int sig; }` -/
def oneUnion : Node :=
  .node { kind := some "RecordDecl", id := some "0x6", completeDefinition := true }
    [intDecl "0x7" "sig"]

/-- The fields that clang writes for a member without a name. -/
def oneMember : Node :=
  .node { kind := some "FieldDecl", id := some "0x8", qualType := some "union (anonymous)" } []

def oneIndirect : Node :=
  .node { kind := some "IndirectFieldDecl", id := some "0x9", name := some "sig" } []

/-- `struct { int pid; int reserved; union { int sig; }; }` -/
def oneRecord : Node :=
  .node { kind := some "RecordDecl", id := some "0x1", completeDefinition := true }
    [intDecl "0x2" "pid", intDecl "0x3" "reserved", oneUnion, oneMember, oneIndirect]

def oneTypedef : Node :=
  .node { kind := some "TypedefDecl", id := some "0x4", name := some "es_one_t" }
    [.node { kind := some "ElaboratedType", id := some "0x5", ownedTagDecl := some "0x1" } []]

def oneRecordRoot : Node :=
  .node { kind := some "TranslationUnitDecl", id := some "0x0" } [oneRecord, oneTypedef]

theorem walk_oneRecordRoot :
    Ast.walk oneRecordRoot = RoseTree.preorders [oneRecordRoot] :=
  RoseTree.stackWalk_eq_preorders _

theorem wellFormed_oneRecordRoot : Ast.WellFormed isComplete oneRecordRoot := by
  apply Ast.WellFormed.of_nodup
  · rw [walk_oneRecordRoot]
    decide
  · rw [walk_oneRecordRoot]
    decide
  · rw [walk_oneRecordRoot]
    decide

theorem declares_oneRecord : Ast.Declares isComplete oneRecordRoot "es_one_t" oneRecord := by
  have hmem : ∀ node ∈ [oneRecord, oneTypedef], node ∈ Ast.walk oneRecordRoot := by
    intro node hnode
    rw [walk_oneRecordRoot, RoseTree.preorders, RoseTree.preorder_eq]
    exact List.mem_append_left _
      (List.mem_cons_of_mem _ (RoseTree.mem_preorders_of_mem hnode))
  exact ⟨oneTypedef, hmem _ (by simp), rfl, rfl, by decide, ⟨_, _, rfl, rfl, rfl⟩,
    hmem _ (by simp), rfl⟩

theorem fieldDecls_oneRecord : fieldDecls oneRecord =
    [intDecl "0x2" "pid", intDecl "0x3" "reserved", intDecl "0x7" "sig"] := by
  have hfound : recursiveField oneRecord (some "sig") = some (intDecl "0x7" "sig") := by
    simp [recursiveField, RoseTree.queueFind, oneRecord, oneUnion, oneMember, oneIndirect, intDecl,
      isFieldDecl, RoseTree.label, RoseTree.inner]
  show List.uniqBy _ ([intDecl "0x2" "pid", intDecl "0x3" "reserved"] ++
    [oneIndirect].filterMap fun child => recursiveField oneRecord child.label.name) = _
  rw [List.filterMap_cons, show oneIndirect.label.name = some "sig" from rfl, hfound]
  rfl

theorem records_oneRecordRoot : records asciiWords oneRecordRoot [] =
    .ok [⟨"es_one_t", [⟨"pid", "int", 1⟩, ⟨"sig", "int", 1⟩]⟩] := by
  have hrow : recordOf [] ("es_one_t", oneRecord) =
      .ok ⟨"es_one_t", [⟨"pid", "int", 1⟩, ⟨"sig", "int", 1⟩]⟩ := by
    rw [recordOf, fieldDecls_oneRecord]
    decide +kernel
  have htypedefs : Ast.typedefRecords oneRecordRoot = [("es_one_t", oneRecord)] := by
    rw [Ast.typedefRecords, Ast.typedefs, walk_oneRecordRoot]
    rfl
  rw [records, htypedefs]
  show List.mapM _ _ = _
  rw [List.mapM_cons, hrow]
  rfl

theorem declared_oneUnion {name : String} {field : Node} (h : Declared name field oneUnion) :
    field = intDecl "0x7" "sig" := by
  cases h with
  | own hmem => exact List.mem_singleton.mp hmem
  | anonymous hmember =>
    obtain ⟨hkind, -, _, -, -, hwithin⟩ := hmember
    obtain rfl := List.mem_singleton.mp (hwithin.subset List.mem_cons_self)
    exact absurd hkind (by decide)

theorem indirect_oneRecord {name : String} {field : Node} :
    Indirect name field oneRecord ↔ name = "sig" ∧ field = intDecl "0x7" "sig" := by
  constructor
  · rintro ⟨member, ⟨hkind, -, _, -, -, hwithin⟩, h⟩
    -- The union is the only member that clang writes as a record
    have hone : member ∈ oneRecord.inner.filter (·.label.kind = some "RecordDecl") :=
      List.mem_filter.mpr ⟨hwithin.subset List.mem_cons_self, decide_eq_true hkind⟩
    obtain rfl : member = oneUnion := List.mem_singleton.mp hone
    obtain rfl := declared_oneUnion h
    exact ⟨(Option.some.inj h.fieldDecl.2.2).symm, rfl⟩
  · rintro ⟨rfl, rfl⟩
    exact ⟨oneUnion, ⟨rfl, rfl, oneMember, rfl, rfl,
      [intDecl "0x2" "pid", intDecl "0x3" "reserved"], [oneIndirect], rfl⟩,
      .own List.mem_cons_self rfl rfl⟩

theorem preorders_oneRecord : RoseTree.preorders oneRecord.inner =
    [intDecl "0x2" "pid", intDecl "0x3" "reserved", oneUnion, intDecl "0x7" "sig", oneMember,
      oneIndirect] := rfl

/-- A name below the record has one field. -/
theorem field_oneRecord {name : String} {f g : Node} (hf : f ∈ RoseTree.preorders oneRecord.inner)
    (hg : g ∈ RoseTree.preorders oneRecord.inner) (hfield : isFieldDecl f) (hgfield : isFieldDecl g)
    (hname : f.label.name = some name) (hgname : g.label.name = some name) : f = g := by
  rw [preorders_oneRecord] at hf hg
  have hnodup : (([intDecl "0x2" "pid", intDecl "0x3" "reserved", oneUnion, intDecl "0x7" "sig",
      oneMember, oneIndirect].filter isFieldDecl).map (·.label.name)).Nodup := by
    decide
  exact List.inj_on_of_nodup_map hnodup (List.mem_filter.mpr ⟨hf, hfield⟩)
    (List.mem_filter.mpr ⟨hg, hgfield⟩) (hname.trans hgname.symm)

theorem clearFields_oneRecord : ClearFields oneRecord where
  distinct name f g hf hg := by
    obtain ⟨hf, hfield, hname⟩ := hf.fieldDecl
    obtain ⟨hg, hgfield, hgname⟩ := hg.fieldDecl
    exact field_oneRecord hf hg hfield hgfield hname hgname
  indirect name := by
    simp only [indirect_oneRecord, exists_and_left, exists_eq, and_true]
    constructor
    · rintro ⟨child, hmem, hkind, hname⟩
      have hone : child ∈ oneRecord.inner.filter (·.label.kind = some "IndirectFieldDecl") :=
        List.mem_filter.mpr ⟨hmem, decide_eq_true hkind⟩
      obtain rfl : child = oneIndirect := List.mem_singleton.mp hone
      exact (Option.some.inj hname).symm
    · rintro rfl
      exact ⟨oneIndirect, by simp [oneRecord, RoseTree.inner], rfl, rfl⟩
  unshadowed name field other hfield hother hdecl hname := by
    obtain ⟨rfl, rfl⟩ := indirect_oneRecord.mp hfield
    refine field_oneRecord hother ?_ hdecl rfl hname rfl
    rw [preorders_oneRecord]
    simp

/-- A view of the record -/
def oneView : FieldReader.View where
  address := 0x3000
  schema := emitRecord (fun _ _ => 0) ⟨"es_one_t", [⟨"pid", "int", 1⟩, ⟨"sig", "int", 1⟩]⟩
  messageVersion := 1
  strictVersion := false
  address_ne := by decide

/-- The view knows the field of the anonymous member and not the reserved one. -/
theorem reader_knows_one : findField oneView "sig" = some ⟨"sig", "int", 0, 1⟩ ∧
    readField [oneView.schema] [] ⟨fun _ => 0, fun _ => 0, fun _ => false⟩ oneView "reserved" =
      .error .undefined := by
  obtain ⟨-, hfields⟩ := reader_knows_header ⟨fun _ _ => 0, fun _ => 0⟩
    ⟨fun _ => 0, fun _ => 0, fun _ => false⟩ [] wellFormed_oneRecordRoot rfl
    records_oneRecordRoot "es_one_t"
  have hfind : findSchema [oneView.schema] "es_one_t" = some oneView.schema := by decide +kernel
  have hview := hfields oneRecord declares_oneRecord clearFields_oneRecord oneView hfind
  constructor
  · obtain ⟨member, hmember, hdeclared⟩ := indirect_oneRecord.mpr ⟨rfl, rfl⟩
    obtain ⟨type, htype, hknown⟩ :=
      (hview "sig").1 _ (.anonymous hmember hdeclared) (by decide)
    obtain rfl := Option.some.inj htype
    rw [hknown]
    decide +kernel
  · exact (hview "reserved").2 (.inl (by decide +kernel))

/-! ## What the reader relies on -/

/-- What `validate_field_types!` lets pass is as the reader relies on: the names are distinct
    because a hash and an array made unique have them. -/
def acceptedIR {w : WordClass} {root : Node} {sources : List (List Char)} {rs : List Record}
    {es : List Enumeration} (h : records w root sources = .ok rs)
    (hnames : ∀ record ∈ rs, IsTypeName record.name) (henums : ∀ e ∈ es, IsTypeName e.name)
    (haccepted : validateFieldTypes rs es = .ok ()) : AcceptedIR where
  records := rs
  enumerations := es
  recordNames_nodup := nodup_records h
  fieldNames_nodup := fun record hrecord => by
    obtain ⟨versions, -, hrs⟩ := mapM_recordOf h
    obtain ⟨entry, -, hok⟩ := Except.exists_mem_of_mapM hrs hrecord
    exact nodup_fields hok
  recordNames := hnames
  enumNames := henums
  accepted := haccepted

/-! ## Enumerations -/

section
variable {root node : Node} {es : List Enumeration} {type : String} {nodes : List Node}
  {pairs : List (String × Int)} {value : Int} {entries : List EnumValue}

/-- `enum&.fetch("kind", nil) == "EnumDecl"` -/
def isEnumDecl (node : Node) : Bool := node.label.kind = some "EnumDecl"

/-- The entry of a constant -/
def enumValueOf (type : String) (pair : String × Int) : EnumValue :=
  ⟨pair.1, enumSymbolOf type pair.1, pair.2⟩

theorem scanEnumerator_of_not (h : isConstantDecl node = false) :
    scanEnumerator type (value, entries) node = .ok (value, entries) := by
  simp [scanEnumerator, h, pure, Except.pure]

theorem scanEnumerator_eq {name : String} {v : Int} (hc : isConstantDecl node = true)
    (hname : node.label.name = some name) (hv : constantValue value node = .ok v) :
    scanEnumerator type (value, entries) node =
      .ok (v, entries ++ [enumValueOf type (name, v)]) := by
  simp [scanEnumerator, hc, hv, hname, enumValueOf, pure, Except.pure, bind, Except.bind]

/-- The loop gives an entry to every constant. -/
theorem foldlM_scanEnumerator (type : String) (entries : List EnumValue)
    (hn : Numbered value (nodes.filter isConstantDecl) pairs) :
    ∃ value', nodes.foldlM (scanEnumerator type) (value, entries) =
      .ok (value', entries ++ pairs.map (enumValueOf type)) := by
  induction nodes generalizing value pairs entries with
  | nil =>
    cases hn
    exact ⟨value, by simp [pure, Except.pure]⟩
  | cons node nodes ih =>
    rw [List.foldlM_cons]
    cases hc : isConstantDecl node with
    | false =>
      rw [List.filter_cons_of_neg (by simp [hc])] at hn
      rw [scanEnumerator_of_not hc]
      exact ih entries hn
    | true =>
      rw [List.filter_cons_of_pos hc] at hn
      obtain ⟨name, v, rest, hname, hv, rfl, hrest⟩ := hn.uncons
      obtain ⟨value', h⟩ := ih (entries ++ [enumValueOf type (name, v)]) hrest
      refine ⟨value', ?_⟩
      rw [List.map_cons, List.append_cons, scanEnumerator_eq hc hname hv]
      exact h

theorem enumerationOf_eq (hn : Numbered (-1) (constants node) pairs) :
    enumerationOf (type, node) = .ok
      (if pairs = [] then none else some ⟨type, pairs.map (enumValueOf type)⟩) := by
  obtain ⟨value', h⟩ := foldlM_scanEnumerator type [] hn
  rw [List.nil_append] at h
  rw [enumerationOf, h]
  cases pairs <;> rfl

theorem enumerationOf_name {entry : String × Node} {found : Enumeration}
    (h : (enumerationOf entry).toOption.join = some found) : found.name = entry.1 := by
  cases hof : enumerationOf entry with
  | error message =>
    rw [hof] at h
    cases h
  | ok result =>
    rw [hof] at h
    obtain ⟨scan, -, hscan⟩ := Except.bind_eq_ok.mp hof
    split at hscan
    · cases hscan
      cases h
    · cases hscan
      cases h
      rfl

/-- The enumerations are made of the typedefs by their names. -/
theorem find?_enumerations (h : enumerations root = .ok es) (type : String) :
    es.find? (·.name = type) = ((Ast.typedefEnums root).find? (·.1 = type)).bind fun entry =>
      (enumerationOf entry).toOption.join := by
  obtain ⟨found, hfound, hes⟩ := Except.bind_eq_ok.mp h
  cases hes
  rw [Except.filterMap_of_mapM hfound]
  exact List.find?_filterMap_key (fun _ _ => enumerationOf_name) Ast.nodup_typedefs type

theorem find?_typedefEnums (hwf : Ast.WellFormed isEnumDecl root) {entry : String × Node} :
    (Ast.typedefEnums root).find? (·.1 = type) = some entry ↔
      entry.1 = type ∧ Ast.Declares isEnumDecl root type entry.2 := by
  rw [← Ast.lookup_typedefs hwf]
  constructor
  · intro h
    obtain rfl : entry.1 = type := by simpa using List.find?_some h
    exact ⟨rfl, (Hash.lookup_eq_some_iff Ast.nodup_typedefs).mpr (List.mem_of_find?_eq_some h)⟩
  · rintro ⟨rfl, h⟩
    exact List.find?_key_of_nodup Ast.nodup_typedefs
      ((Hash.lookup_eq_some_iff Ast.nodup_typedefs).mp h)

/-- Whatever header the tables are written from, a number of an enumeration that a typedef
    declares reads as the symbol of the last constant that C gives the number, or stays a number
    when there is none, as do all numbers of other types. -/
theorem enum_symbol_of_header (hwf : Ast.WellFormed isEnumDecl root)
    (h : enumerations root = .ok es) (type : String) (value : Int) :
    (∀ node pairs, Ast.Declares isEnumDecl root type node →
      Numbered (-1) (constants node) pairs → enumSymbol es type value =
        (pairs.reverse.find? (·.2 = value)).map fun pair => enumSymbolOf type pair.1) ∧
    ((∀ node, ¬ Ast.Declares isEnumDecl root type node) → enumSymbol es type value = none) := by
  constructor
  · intro node pairs hdeclares hpairs
    have hfind : (Ast.typedefEnums root).find? (·.1 = type) = some (type, node) :=
      (find?_typedefEnums hwf).mpr ⟨rfl, hdeclares⟩
    have hes : es.find? (·.name = type) =
        if pairs = [] then none else some ⟨type, pairs.map (enumValueOf type)⟩ := by
      rw [find?_enumerations h, hfind, Option.bind_some, enumerationOf_eq hpairs]
      rfl
    rw [enumSymbol, hes]
    split
    · next hnil =>
      rw [hnil]
      rfl
    · -- The entries are the constants with their symbols, in the same order
      have hentries : (pairs.map (enumValueOf type)).reverse.find? (·.value = value) =
          (pairs.reverse.find? (·.2 = value)).map (enumValueOf type) := by
        rw [← List.map_reverse, List.find?_map]
        rfl
      simp only [Option.bind_eq_bind, Option.bind_some, hentries]
      cases pairs.reverse.find? (·.2 = value) <;> rfl
  · intro hnot
    have hfind : (Ast.typedefEnums root).find? (·.1 = type) = none := by
      cases hentry : (Ast.typedefEnums root).find? (·.1 = type) with
      | none => rfl
      | some entry => exact absurd ((find?_typedefEnums hwf).mp hentry).2 (hnot entry.2)
    rw [enumSymbol, find?_enumerations h, hfind]
    rfl

end

/-! ### A header with one enumeration -/

/-- `ES_ACTION_TYPE_NOTIFY = 4` -/
def fourDecl : Node :=
  .node { kind := some "EnumConstantDecl", name := some "ES_ACTION_TYPE_NOTIFY" }
    [.node { kind := some "ConstantExpr", value := some "4" }
      [.node { kind := some "IntegerLiteral", value := some "4" } []]]

def oneEnum : Node :=
  .node { kind := some "EnumDecl", id := some "0x1" } [constantDecl "ES_ACTION_TYPE_AUTH", fourDecl]

def oneEnumTypedef : Node :=
  .node { kind := some "TypedefDecl", id := some "0x4", name := some "es_action_type_t" }
    [.node { kind := some "ElaboratedType", id := some "0x5", ownedTagDecl := some "0x1" } []]

def oneEnumRoot : Node :=
  .node { kind := some "TranslationUnitDecl", id := some "0x0" } [oneEnum, oneEnumTypedef]

theorem walk_oneEnumRoot : Ast.walk oneEnumRoot = RoseTree.preorders [oneEnumRoot] :=
  RoseTree.stackWalk_eq_preorders _

theorem wellFormed_oneEnumRoot : Ast.WellFormed isEnumDecl oneEnumRoot := by
  apply Ast.WellFormed.of_nodup
  · rw [walk_oneEnumRoot]
    decide
  · rw [walk_oneEnumRoot]
    decide
  · rw [walk_oneEnumRoot]
    decide

theorem declares_oneEnum :
    Ast.Declares isEnumDecl oneEnumRoot "es_action_type_t" oneEnum := by
  have hmem : ∀ node ∈ [oneEnum, oneEnumTypedef], node ∈ Ast.walk oneEnumRoot := by
    intro node hnode
    rw [walk_oneEnumRoot, RoseTree.preorders, RoseTree.preorder_eq]
    exact List.mem_append_left _
      (List.mem_cons_of_mem _ (RoseTree.mem_preorders_of_mem hnode))
  exact ⟨oneEnumTypedef, hmem _ (by simp), rfl, rfl, by decide, ⟨_, _, rfl, rfl, rfl⟩,
    hmem _ (by simp), rfl⟩

theorem oneEnum_numbered : Numbered (-1) (constants oneEnum)
    [("ES_ACTION_TYPE_AUTH", 0), ("ES_ACTION_TYPE_NOTIFY", 4)] :=
  .next rfl (hasNoValue_constantDecl _)
    (.given rfl (.of_head rfl rfl) (integerValue_toString 4) (.nil _))

theorem enumerations_oneEnumRoot : enumerations oneEnumRoot = .ok
    [⟨"es_action_type_t", [⟨"ES_ACTION_TYPE_AUTH", "auth", 0⟩,
      ⟨"ES_ACTION_TYPE_NOTIFY", "notify", 4⟩]⟩] := by
  have htypedefs : Ast.typedefEnums oneEnumRoot = [("es_action_type_t", oneEnum)] := by
    rw [Ast.typedefEnums, Ast.typedefs, walk_oneEnumRoot]
    rfl
  rw [enumerations, htypedefs, List.mapM_cons, enumerationOf_eq oneEnum_numbered]
  decide +kernel

theorem enum_symbol_of_one : enumSymbol [⟨"es_action_type_t",
    [⟨"ES_ACTION_TYPE_AUTH", "auth", 0⟩, ⟨"ES_ACTION_TYPE_NOTIFY", "notify", 4⟩]⟩]
    "es_action_type_t" 4 = some (enumSymbolOf "es_action_type_t" "ES_ACTION_TYPE_NOTIFY") :=
  (enum_symbol_of_header wellFormed_oneEnumRoot enumerations_oneEnumRoot "es_action_type_t" 4).1
    oneEnum _ declares_oneEnum oneEnum_numbered

end EndpointSecurity.Codegen
