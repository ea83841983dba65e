import Ridge.Entity.Codecs

/-!
# Deriving rows and schemas

The column names and conventions (`ridge-ast/src/column_mirror.rs`), and what `deriving (Row)` and
`deriving (Schema)` collect from a record declaration (`ridge-typecheck/src/derive.rs`).
-/

namespace Ridge

open Option

/-! ## Declarations -/

inductive PrimitiveType where
  | int | float | bool | text | unit | timestamp | decimal | uuid | bytes | date | time
  deriving DecidableEq

/-- `Type` of the syntax tree, without spans and the capabilities of a function type. -/
inductive TypeExpr where
  | primitive (name : PrimitiveType)
  | named (name : String)
  | app (head : String) (args : List TypeExpr)
  | tuple (elems : List TypeExpr)
  | list (elem : TypeExpr)
  | fn (params : List TypeExpr) (ret : TypeExpr)
  | paren (inner : TypeExpr)
  | var (name : String)
  | record (fields : List (String × TypeExpr)) (tail : Option String)

structure FieldDecl where
  name : String
  ty : TypeExpr

inductive TypeBody where
  | record (fields : List FieldDecl)
  | union
  | alias

structure TypeDecl where
  name : String
  body : TypeBody

/-! ## Names -/

/-- An underscore before an upper-case letter that follows a lower-case letter or a digit. -/
def toSnakeChars : List Char → Bool → List Char
  | [], _ => []
  | c :: s, prevLowerOrDigit =>
    if c.isUpper then
      if prevLowerOrDigit then '_' :: c.toLower :: toSnakeChars s false
      else c.toLower :: toSnakeChars s false
    else c :: toSnakeChars s (c.isLower || c.isDigit)

def toSnakeCase (s : String) : String := String.ofList (toSnakeChars s.toList false)

def isVowel (c : Char) : Bool := c ∈ ['a', 'e', 'i', 'o', 'u']

def pluralize (s : String) : String :=
  let stem := s.toList.dropLast
  if s.toList.getLast? = some 'y' ∧ stem.getLast?.any (fun c => !isVowel c) then
    String.ofList (stem ++ ['i', 'e', 's'])
  else if ['s'] <:+ s.toList ∨ ['x'] <:+ s.toList ∨ ['z'] <:+ s.toList ∨ ['c', 'h'] <:+ s.toList ∨
      ['s', 'h'] <:+ s.toList then
    String.ofList (s.toList ++ ['e', 's'])
  else String.ofList (s.toList ++ ['s'])

def tableSqlName (entity : String) : String := pluralize (toSnakeCase entity)

def columnSqlName (field : String) : String := toSnakeCase field

/-! ## What a field type is -/

def isOptionalType : TypeExpr → Bool
  | .paren inner => isOptionalType inner
  | .named name => name = "Option"
  | .app head _ => head = "Option"
  | _ => false

def isIntType : TypeExpr → Bool
  | .paren inner => isIntType inner
  | .app head (arg :: _) => if head = "Option" then isIntType arg else false
  | .primitive name => name = .int
  | _ => false

/-- The serial key: a non-null integer field `id`. -/
def isGeneratedField (fieldName : String) (ty : TypeExpr) : Bool :=
  fieldName = "id" && !isOptionalType ty && isIntType ty

def PrimitiveType.sqlScalar : PrimitiveType → Option SqlScalar
  | .int => some .int
  | .float => some .float
  | .bool => some .bool
  | .text => some .text
  | .unit => none
  | .timestamp => some .timestamp
  | .decimal => some .decimal
  | .uuid => some .uuid
  | .bytes => some .bytes
  | .date => some .date
  | .time => some .time

/-- The type names that `sql_primitive_type_name` knows. -/
def sqlScalarOfName (name : String) : Option SqlScalar :=
  [("Int", SqlScalar.int), ("Text", .text), ("Bool", .bool), ("Float", .float),
    ("Decimal", .decimal), ("Uuid", .uuid), ("Bytes", .bytes), ("Date", .date), ("Time", .time),
    ("Duration", .duration), ("JsonValue", .jsonValue)].lookup name

def sqlPrimitiveTypeName : TypeExpr → Option SqlScalar
  | .primitive name => name.sqlScalar
  | .named name => sqlScalarOfName name
  | .paren inner => sqlPrimitiveTypeName inner
  | _ => none

/-- The tag of a column's instance: the name of a base type, or `List` and one. -/
inductive SqlTag where
  | base (s : SqlScalar)
  | list (s : SqlScalar)
  deriving DecidableEq

def sqlListOrBase : TypeExpr → Option SqlTag
  | .paren inner => sqlListOrBase inner
  | .list elem => (sqlPrimitiveTypeName elem).map .list
  | .app head [arg] => if head = "List" then (sqlPrimitiveTypeName arg).map .list else none
  | ty => (sqlPrimitiveTypeName ty).map .base

/-- `(is_optional, sql_type_tag)`. -/
def sqlRowField : TypeExpr → Option (Bool × SqlTag)
  | .paren inner => sqlRowField inner
  | .app head [arg] =>
    if head = "Option" then (sqlListOrBase arg).map (true, ·)
    else (sqlListOrBase (.app head [arg])).map (false, ·)
  | ty => (sqlListOrBase ty).map (false, ·)

/-- The type the checker gives a field type, where its constructors are the prelude's. The prelude
is looked up before the declarations of the user. -/
def checkedType : TypeExpr → RowTy
  | .primitive name => (name.sqlScalar.map .scalar).getD .other
  | .named name =>
    ((if name = "Timestamp" then some SqlScalar.timestamp else sqlScalarOfName name).map
      .scalar).getD .other
  | .app head [arg] =>
    if head = "Option" then .option (checkedType arg)
    else if head = "List" then .list (checkedType arg) else .other
  | .list elem => .list (checkedType elem)
  | .paren inner => checkedType inner
  | _ => .other

/-! ## The derives -/

/-- `NoInstance`, with the class and, where a field is at fault, its name and type. -/
structure DeriveError where
  cls : String
  ty : String
  field : Option FieldDecl

/-- One field of `DerivedRowRecord`. -/
structure RowColumnSpec where
  fieldName : String
  column : String
  typeTag : SqlTag
  optional : Bool
  deriving DecidableEq

def generateRow (decl : TypeDecl) : Except DeriveError (List RowColumnSpec) :=
  match decl.body with
  | .record fields =>
    fields.mapM fun field =>
      match sqlRowField field.ty with
      | some (optional, typeTag) =>
        .ok ⟨field.name, columnSqlName field.name, typeTag, optional⟩
      | none => .error ⟨"Row", decl.name, some field⟩
  | _ => .error ⟨"Row", decl.name, none⟩

structure SchemaColumnSpec where
  fieldName : String
  column : String
  nullable : Bool
  primaryKey : Bool
  generation : Option Generation
  sqlTypeTag : Option SqlTag

/-- `DerivedSchemaRecord`. -/
structure SchemaSpec where
  entityName : String
  table : String
  columns : List SchemaColumnSpec

def schemaColumnSpec (field : FieldDecl) : SchemaColumnSpec where
  fieldName := field.name
  column := columnSqlName field.name
  nullable := isOptionalType field.ty
  primaryKey := field.name = "id"
  generation := if isGeneratedField field.name field.ty then some .identity else none
  sqlTypeTag := (sqlRowField field.ty).map Prod.snd

def generateSchema (decl : TypeDecl) : Except DeriveError SchemaSpec :=
  match decl.body with
  | .record fields => .ok ⟨decl.name, tableSqlName decl.name, fields.map schemaColumnSpec⟩
  | _ => .error ⟨"HasSchema", decl.name, none⟩

/-! ## The classification is the type's -/

variable {ty : TypeExpr}

theorem checkedType_primitive {s : SqlScalar} (h : sqlPrimitiveTypeName ty = some s) :
    checkedType ty = .scalar s := by
  fun_induction sqlPrimitiveTypeName ty with
  | case1 name =>
    show (name.sqlScalar.map RowTy.scalar).getD .other = _
    rw [h]
    rfl
  | case2 name =>
    have hname : name ≠ "Timestamp" := by
      rintro rfl
      exact nomatch h
    show ((if name = "Timestamp" then some SqlScalar.timestamp else sqlScalarOfName name).map
      RowTy.scalar).getD .other = _
    rw [if_neg hname, h]
    rfl
  | case3 inner ih => exact ih h
  | case4 => exact nomatch h

def SqlTag.rowTy : SqlTag → RowTy
  | .base s => .scalar s
  | .list s => .list (.scalar s)

def columnTy (optional : Bool) (tag : SqlTag) : RowTy :=
  if optional then .option tag.rowTy else tag.rowTy

variable {tag : SqlTag}

theorem checkedType_listOrBase (h : sqlListOrBase ty = some tag) : checkedType ty = tag.rowTy := by
  fun_induction sqlListOrBase ty with
  | case1 inner ih => exact ih h
  | case2 elem | case3 arg =>
    obtain ⟨s, hs, rfl⟩ := map_eq_some_iff.mp h
    exact congrArg RowTy.list (checkedType_primitive hs)
  | case4 => exact nomatch h
  | case5 ty =>
    obtain ⟨s, hs, rfl⟩ := map_eq_some_iff.mp h
    exact checkedType_primitive hs

theorem checkedType_rowField {optional : Bool} (h : sqlRowField ty = some (optional, tag)) :
    checkedType ty = columnTy optional tag ∧ isOptionalType ty = optional := by
  fun_induction sqlRowField ty with
  | case1 inner ih => exact ih h
  | case2 arg =>
    obtain ⟨t, ht, heq⟩ := map_eq_some_iff.mp h
    obtain ⟨rfl, rfl⟩ := Prod.mk.inj heq
    exact ⟨congrArg RowTy.option (checkedType_listOrBase ht), rfl⟩
  | case3 head arg hhead =>
    obtain ⟨t, ht, heq⟩ := map_eq_some_iff.mp h
    obtain ⟨rfl, rfl⟩ := Prod.mk.inj heq
    exact ⟨checkedType_listOrBase ht, decide_eq_false hhead⟩
  | case4 ty hparen happ =>
    obtain ⟨t, ht, heq⟩ := map_eq_some_iff.mp h
    obtain ⟨rfl, rfl⟩ := Prod.mk.inj heq
    refine ⟨checkedType_listOrBase ht, ?_⟩
    cases ty with
    | named name =>
      refine decide_eq_false ?_
      rintro rfl
      exact nomatch ht
    | app head args =>
      -- An application to any but one argument has no tag.
      rcases args with _ | ⟨a, _ | ⟨b, args⟩⟩
      · exact nomatch ht
      · exact (happ _ _ rfl).elim
      · exact nomatch ht
    | paren inner => exact (hparen _ rfl).elim
    | _ => rfl

end Ridge
