import EndpointSecurity.Codegen.HeaderScan
import EndpointSecurity.ForStd.RoseTree

/-!
# The AST that clang writes (`codegen/ast.rb`)

`clang -ast-dump=json` prints a tree of JSON objects, the children of each under `inner`. The code
generator looks in it for an enumeration by one of its constants and for the records and
enumerations that an `es_...` typedef names.
-/

namespace EndpointSecurity.Codegen

/-- What the code generator reads of an object of the AST besides `inner`; `none` is a key that is
    not there. -/
structure NodeLabel where
  kind : Option String := none
  id : Option String := none
  name : Option String := none
  /-- `value`, as text -/
  value : Option String := none
  completeDefinition : Bool := false
  /-- `ownedTagDecl.id` -/
  ownedTagDecl : Option String := none
  /-- `type.qualType` -/
  qualType : Option String := none
  /-- `type.desugaredQualType` -/
  desugaredQualType : Option String := none
  deriving DecidableEq, Repr

abbrev Node := RoseTree NodeLabel

namespace Ast

/-- `AST#walk`: the end of `pending` is the head of the list here, so the children, which are
    pushed in reverse, come in order. -/
def walk (root : Node) : List Node := RoseTree.stackWalk [root]

/-- `AST#enum_containing`, or the text of the `CodegenError`. -/
def enumContaining (root : Node) (constant : String) : Except String Node :=
  let found := (walk root).find? fun node =>
    node.label.kind = some "EnumDecl" &&
      node.inner.any fun child => child.label.name = some constant
  match found with
  | some node => .ok node
  | none => .error s!"enum containing {constant} was not found"

/-- `by_id[id]`, where the hash has the last of several nodes with one id. Nodes without an id
    are under `nil`. -/
def byId (nodes : List Node) (id : Option String) : Option Node :=
  nodes.reverse.find? (·.label.id = id)

/-- The pair of `AST#typedef_records` and `AST#typedef_enums` for a typedef whose name has the
    prefix and which owns a declaration of the kind that is asked for. -/
def typedefPair (accepts : Node → Bool) (nodes : List Node) (node : Node) :
    Option (String × Node) :=
  match node.label.name with
  | some name =>
    if node.label.kind = some "TypedefDecl" ∧ "es_".toList.isPrefixOf name.toList then
      let declared := byId nodes (node.inner.head?.bind (·.label.ownedTagDecl))
      (declared.filter accepts).map (name, ·)
    else none
  | none => none

/-- The hash of these pairs; of two typedefs of one name it has the later. -/
def typedefs (accepts : Node → Bool) (root : Node) : List (String × Node) :=
  let nodes := walk root
  let pairs := nodes.filterMap (typedefPair accepts nodes)
  pairs.foldl (fun entries pair => Hash.store pair.1 pair.2 entries) []

/-- `AST#typedef_records` -/
def typedefRecords (root : Node) : List (String × Node) :=
  typedefs (·.label.completeDefinition) root

/-- `AST#typedef_enums` -/
def typedefEnums (root : Node) : List (String × Node) :=
  typedefs (·.label.kind = some "EnumDecl") root

end Ast

end EndpointSecurity.Codegen
