import Ridge.Entity.Mirror
import Ridge.Syntax.Ast

/-!
# Symbol tables

`ridge-resolve/src/symbol.rs` and `visibility.rs`: what a module declares at its top level, under
which visibility, and the workspace's index of class methods.
-/

namespace Ridge

/-! ## Declarations -/

/-- The modifier as it is written. -/
inductive Visibility where
  | private_ | pubInternal | pub
  deriving DecidableEq

/-- `Constructor`: an alternative of a union type. -/
inductive CtorDecl where
  | positional (name : String) (args : List TypeExpr)
  | record (name : String) (fields : List FieldDecl)

/-- `TypeBody`, with the parts that `TypeBody` of the schema derive leaves out. -/
inductive TopTypeBody where
  | record (fields : List FieldDecl)
  | union (alternatives : List CtorDecl)
  | alias (ty : TypeExpr)

/-- `TypeDecl`. -/
structure TopType where
  vis : Visibility
  name : String
  params : List String
  body : TopTypeBody
  deriving_ : List String
  isOpaque : Bool

/-- `FnDecl` at the top level: the declaration and its annotations. -/
structure TopFn where
  vis : Visibility
  decl : FnDecl
  /-- The annotation of each parameter, in order. -/
  paramTypes : List (Option TypeExpr)
  ret : Option TypeExpr

/-- `ClassDecl`, as far as method names go. A class takes no visibility. -/
structure TopClass where
  name : String
  /-- Each method with the number of its parameters. -/
  methods : List (String × Nat)

/-! ## Visibility -/

inductive ResolvedVisibility where
  | filePrivate | projectPrivate | namespaceInternal | pub
  deriving DecidableEq

def startsWithUnderscore (name : String) : Bool := name.toList.head? = some '_'

/-- An explicit modifier overrides the underscore. -/
def resolveVisibility (vis : Visibility) (name : String) : ResolvedVisibility :=
  match vis with
  | .private_ => if startsWithUnderscore name then .filePrivate else .projectPrivate
  | .pubInternal => .namespaceInternal
  | .pub => .pub

/-! ## Entries -/

abbrev ModuleId := Nat
abbrev SymbolId := Nat

inductive SymbolKind where
  | fn
  | const
  | type (arity : Nat) (isOpaque : Bool)
  | actor
  | constructor (ownerType : SymbolId) (variant arity : Nat) (isRecord : Bool)
      (ownerModule : ModuleId) (isOpaque : Bool)
  | fieldAccessor (ownerType : SymbolId) (field : String)
  deriving DecidableEq

structure SymbolEntry where
  id : SymbolId
  name : String
  kind : SymbolKind
  visibility : ResolvedVisibility
  deriving DecidableEq

/-- The entries in insertion order, and the names that a lookup finds. -/
structure SymbolTable where
  module : ModuleId
  entries : List SymbolEntry
  index : List (String × SymbolId)
  deriving DecidableEq

namespace SymbolTable

def empty (module : ModuleId) : SymbolTable := ⟨module, [], []⟩

/-- `SymbolTable::lookup`. -/
def lookup (table : SymbolTable) (name : String) : Option SymbolEntry :=
  (table.index.lookup name).bind (table.entries[·]?)

end SymbolTable

/-! ## Collection -/

/-- `TopLevelCollector`, with the names it rejects (`R005`). -/
structure Collector where
  table : SymbolTable
  duplicates : List String
  deriving DecidableEq

namespace Collector

/-- A name that is already in the index is rejected, and the first declaration stays. -/
def push (c : Collector) (name : String) (kind : SymbolKind) (visibility : ResolvedVisibility)
    (registerInIndex : Bool) : Collector × Option SymbolId :=
  if registerInIndex && (c.table.index.lookup name).isSome then
    (⟨c.table, c.duplicates ++ [name]⟩, none)
  else
    let id := c.table.entries.length
    let index := if registerInIndex then (name, id) :: c.table.index else c.table.index
    (⟨⟨c.table.module, c.table.entries ++ [⟨id, name, kind, visibility⟩], index⟩, c.duplicates⟩,
      some id)

/-- `push` where the caller has no use for the identifier. -/
def push_ (c : Collector) (name : String) (kind : SymbolKind) (visibility : ResolvedVisibility)
    (registerInIndex : Bool) : Collector :=
  (c.push name kind visibility registerInIndex).1

end Collector

/-! ### Generated names

`column_mirror.rs`. -/

def lowerFirst (s : String) : String :=
  match s.toList with
  | [] => ""
  | first :: rest => String.ofList (first.toLower :: rest)

variable (entity : String)

def mirrorTypeName : String := entity ++ "Cols"

def mirrorValueName : String := lowerFirst entity ++ "Cols"

def tableValueName : String := lowerFirst entity ++ "Table"

def insertCompanionTypeName : String := entity ++ "Insert"

def hasTableDerive (deriving_ : List String) : Bool := deriving_.contains "Table"

def hasSchemaDerive (deriving_ : List String) : Bool := deriving_.contains "Schema"

/-! ### Types -/

namespace Collector

variable (vis : ResolvedVisibility)

/-- The fields of a record, or of a record variant, under their owner. -/
def pushFields (owner : SymbolId) (c : Collector)
    (fields : List FieldDecl) : Collector :=
  fields.foldl (fun c field => c.push_ field.name (.fieldAccessor owner field.name) vis false) c

/-- The mirror type and the two values of `deriving (Table)`. -/
def pushTableDerive (entity : String) (c : Collector) : Collector :=
  let c := c.push_ (mirrorTypeName entity) (.type 0 false) vis true
  let c := c.push_ (mirrorValueName entity) .const vis true
  c.push_ (tableValueName entity) .const vis true

/-- The insert companion of `deriving (Schema)`. -/
def pushInsertCompanion (entity : String) (fields : List FieldDecl)
    (c : Collector) : Collector :=
  let arity := (fields.filter (fun f => !isGeneratedField f.name f.ty)).length
  match c.push (insertCompanionTypeName entity) (.type 0 false) vis true with
  | (c, none) => c
  | (c, some companion) =>
    c.push_ (insertCompanionTypeName entity)
      (.constructor companion 0 arity true c.table.module false) vis false

def pushRecord (d : TopType) (vis : ResolvedVisibility) (typeId : SymbolId)
    (fields : List FieldDecl) (c : Collector) : Collector :=
  let ctor := SymbolKind.constructor typeId 0 fields.length true c.table.module d.isOpaque
  let c := (c.push_ d.name ctor vis false).pushFields vis typeId fields
  let c := if hasTableDerive d.deriving_ then c.pushTableDerive vis d.name else c
  if hasSchemaDerive d.deriving_ && fields.any (fun f => isGeneratedField f.name f.ty) then
    c.pushInsertCompanion vis d.name fields
  else c

def pushVariant (d : TopType) (vis : ResolvedVisibility) (typeId : SymbolId) (c : Collector)
    (alt : CtorDecl × Nat) : Collector :=
  match alt with
  | (.positional name args, idx) =>
    c.push_ name (.constructor typeId idx args.length false c.table.module d.isOpaque) vis true
  | (.record name fields, idx) =>
    let ctor := SymbolKind.constructor typeId idx fields.length false c.table.module d.isOpaque
    match c.push name ctor vis true with
    | (c, none) => c
    | (c, some ctorId) => c.pushFields vis ctorId fields

def pushType (d : TopType) (c : Collector) : Collector :=
  let vis := resolveVisibility d.vis d.name
  match c.push d.name (.type d.params.length d.isOpaque) vis true with
  | (c, none) => c
  | (c, some typeId) =>
    match d.body with
    | .record fields => c.pushRecord d vis typeId fields
    | .union alternatives => alternatives.zipIdx.foldl (pushVariant d vis typeId) c
    | .alias _ => c

end Collector

/-! ### Functions -/

def peelParenTy : TypeExpr → TypeExpr
  | .paren inner => peelParenTy inner
  | ty => ty

/-- A concrete named type that the prelude gives no `ToText` instance. -/
def promotesToText : TypeExpr → Bool
  | .named name => name ≠ "Ordering"
  | .primitive name => name ∉ [.int, .float, .bool, .text, .timestamp, .decimal, .uuid]
  | _ => false

def isTextTy : TypeExpr → Bool
  | .primitive name => name = .text
  | .named name => name = "Text"
  | _ => false

/-- `is_auto_promoted_totext`: an instance method in disguise, which a lookup does not find. -/
def isAutoPromotedToText (d : TopFn) : Bool :=
  d.vis = .pub && d.decl.name.text = "toText" && d.decl.caps.isEmpty &&
    (match d.paramTypes with
      | [some ty] => promotesToText (peelParenTy ty)
      | _ => false) &&
    (d.ret.map peelParenTy).any isTextTy

/-! ### Items -/

/-- The dotted path, the `as` name and the item list. -/
structure ImportDecl where
  path : String
  aliasName : Option String
  items : Option (List String)

/-- A block of an actor or a method of an instance: parameters, then an expression. -/
structure Handler where
  params : List Param
  body : Expr

/-- A state field of an actor. -/
structure StateDecl where
  name : String
  ty : TypeExpr
  default : Option Expr

/-- `Item`. The annotations are those that stand inside the bodies. -/
inductive TopItem where
  | import_ (d : ImportDecl)
  | fn (d : TopFn) (annotations : List TypeExpr)
  | const (vis : Visibility) (name : String) (ty : TypeExpr) (value : Expr)
      (annotations : List TypeExpr)
  | type (d : TopType) (migrates : List Handler) (annotations : List TypeExpr)
  | actor (vis : Visibility) (name : String) (state : List StateDecl) (handlers : List Handler)
      (annotations : List TypeExpr)
  | class_ (d : TopClass)
  | instance_ (methods : List Handler)

namespace Collector

/-- Imports, classes and instances add no entry. -/
def visitItem (c : Collector) : TopItem → Collector
  | .import_ _ => c
  | .class_ _ => c
  | .instance_ _ => c
  | .fn d _ =>
    c.push_ d.decl.name.text .fn (resolveVisibility d.vis d.decl.name.text) (!isAutoPromotedToText d)
  | .const vis name _ _ _ => c.push_ name .const (resolveVisibility vis name) true
  | .type d _ _ => c.pushType d
  | .actor vis name _ _ _ => c.push_ name .actor (resolveVisibility vis name) true

end Collector

def collectSymbols (module : ModuleId) (ast : List TopItem) : Collector :=
  ast.foldl Collector.visitItem ⟨.empty module, []⟩

/-! ## Class methods -/

/-- What the index knows of a method: its class, its arity and the module of the class, where it is
not the prelude's. -/
structure MethodEntry where
  className : String
  arity : Nat
  module : Option ModuleId
  deriving DecidableEq

/-- The methods by name, and the names that two classes declare. -/
structure ClassMethodIndex where
  entries : List (String × MethodEntry)
  collisions : List (String × String × String)
  deriving DecidableEq

namespace ClassMethodIndex

def seedPrelude : ClassMethodIndex where
  entries := [("toText", ⟨"ToText", 1, none⟩), ("eq", ⟨"Eq", 2, none⟩),
    ("compare", ⟨"Ord", 2, none⟩), ("hash", ⟨"Hash", 2, none⟩), ("encode", ⟨"Encode", 1, none⟩),
    ("decode", ⟨"Decode", 1, none⟩), ("errorFrom", ⟨"ErrorFrom", 1, none⟩)]
  collisions := []

def addMethod (module : ModuleId) (className : String) (index : ClassMethodIndex)
    (method : String × Nat) : ClassMethodIndex :=
  match index.entries.lookup method.1 with
  | some existing =>
    if existing.className ≠ className ∧ index.collisions.lookup method.1 = none then
      ⟨index.entries, index.collisions ++ [(method.1, existing.className, className)]⟩
    else index
  | none => ⟨index.entries ++ [(method.1, ⟨className, method.2, some module⟩)], index.collisions⟩

variable (index : ClassMethodIndex)

def addItem (item : ModuleId × TopItem) : ClassMethodIndex :=
  match item.2 with
  | .class_ d => d.methods.foldl (addMethod item.1 d.name) index
  | _ => index

/-- `ClassMethodIndex::build`, over the modules in order. -/
def build (modules : List (List TopItem)) : ClassMethodIndex :=
  (modules.zipIdx.flatMap fun m => m.1.map fun item => (m.2, item)).foldl addItem seedPrelude

def lookup (name : String) : Option MethodEntry :=
  index.entries.lookup name

def declaringModule (name : String) : Option ModuleId :=
  (index.entries.lookup name).bind MethodEntry.module

end ClassMethodIndex

end Ridge
