import Mathlib.Data.List.Basic

/-!
# std.sql, std.query — the values and plans the data layer moves

`stdlib/sql.ridge` gives the adapter-neutral column value `SqlValue` and column type `DbType`;
`stdlib/query.ridge` gives the query plan and the mutation plan, whose predicates are captured
`QExpr` trees (`ridge-types/src/builtins.rs`).

A `Float` is its 64 bits: the descriptor comparison `sameValue` compares exact bits and nothing
else here looks inside one. The literals of the rich scalars (`Decimal`, `Uuid`, `Bytes`, `Date`,
`Time`) carry the canonical text the compiler binds, an instant its epoch microseconds and an
interval its milliseconds.
-/

namespace Ridge

/-- A double by its bit pattern. -/
structure Float64 where
  bits : BitVec 64
  deriving DecidableEq

/-! ## Column values and column types -/

/-- The adapter-neutral column value. -/
inductive SqlValue where
  | sqlInt (n : Int)
  | sqlText (s : String)
  | sqlBool (b : Bool)
  | sqlFloat (x : Float64)
  | sqlNull
  | sqlInstant (micros : Int)
  | sqlDecimal (s : String)
  | sqlUuid (s : String)
  | sqlBytes (s : String)
  | sqlJson (s : String)
  | sqlDate (s : String)
  | sqlTime (s : String)
  | sqlInterval (ms : Int)
  | sqlArray (elems : List SqlValue)

/-- The dialect-neutral column type. -/
inductive DbType where
  | dbBoolean | dbInt | dbBigInt | dbFloat
  | dbDecimal (precision scale : Int)
  | dbText
  | dbVarchar (n : Int)
  | dbUuid | dbTimestamp | dbTimestampTz | dbBytes | dbSmallInt
  | dbChar (n : Int)
  | dbJson | dbJsonb | dbDate | dbTime | dbInterval
  | dbArray (elem : DbType)
  | dbRaw (sql : String)
  deriving DecidableEq

/-- A storage row: column names and their values, in the map's key order. -/
abbrev SqlRow := List (String × SqlValue)

section SameValue

mutual

/-- `sql_value_same`: the variant and, for a float, the exact bits. -/
def sameValue : SqlValue → SqlValue → Bool
  | .sqlInt a, .sqlInt b => a = b
  | .sqlText a, .sqlText b => a = b
  | .sqlBool a, .sqlBool b => a = b
  | .sqlFloat a, .sqlFloat b => a = b
  | .sqlNull, .sqlNull => true
  | .sqlInstant a, .sqlInstant b => a = b
  | .sqlDecimal a, .sqlDecimal b => a = b
  | .sqlUuid a, .sqlUuid b => a = b
  | .sqlBytes a, .sqlBytes b => a = b
  | .sqlJson a, .sqlJson b => a = b
  | .sqlDate a, .sqlDate b => a = b
  | .sqlTime a, .sqlTime b => a = b
  | .sqlInterval a, .sqlInterval b => a = b
  | .sqlArray as, .sqlArray bs => sameValues as bs
  | _, _ => false

def sameValues : List SqlValue → List SqlValue → Bool
  | [], [] => true
  | a :: as, b :: bs => sameValue a b && sameValues as bs
  | _, _ => false

end

mutual

theorem sameValue_iff : ∀ {a b : SqlValue}, sameValue a b = true ↔ a = b
  | .sqlArray as, b => by
    cases b <;> simp [sameValue]
    exact sameValues_iff
  | .sqlInt _, b | .sqlText _, b | .sqlBool _, b | .sqlFloat _, b
  | .sqlNull, b | .sqlInstant _, b | .sqlDecimal _, b
  | .sqlUuid _, b | .sqlBytes _, b | .sqlJson _, b
  | .sqlDate _, b | .sqlTime _, b | .sqlInterval _, b => by cases b <;> simp [sameValue]

theorem sameValues_iff : ∀ {as bs : List SqlValue}, sameValues as bs = true ↔ as = bs
  | [], bs => by cases bs <;> simp [sameValues]
  | a :: as, [] => by simp [sameValues]
  | a :: as, b :: bs => by
    rw [sameValues, Bool.and_eq_true, sameValue_iff, sameValues_iff, List.cons.injEq]

end

end SameValue

/-! ## Captured expression trees -/

/-- The tree a quoted predicate, projection or order key is captured as. -/
inductive QExpr where
  | qCol (c : String)
  | qLitInt (n : Int)
  | qLitText (s : String)
  | qLitBool (b : Bool)
  | qLitFloat (x : Float64)
  | qAnd (l r : QExpr)
  | qOr (l r : QExpr)
  | qNot (x : QExpr)
  | qEq (l r : QExpr)
  | qNe (l r : QExpr)
  | qLt (l r : QExpr)
  | qGt (l r : QExpr)
  | qLe (l r : QExpr)
  | qGe (l r : QExpr)
  | qProj (items : List (String × QExpr))
  | qColR (c : String)
  | qGroupKey
  | qAggCount
  | qAggSum (x : QExpr)
  | qAggAvg (x : QExpr)
  | qAggMin (x : QExpr)
  | qAggMax (x : QExpr)
  | qColAt (leaf : Int) (c : String)
  | qNotTrue (x : QExpr)
  | qLike (v p : QExpr)
  | qIn (v : QExpr) (items : List QExpr)
  | qAdd (l r : QExpr)
  | qSub (l r : QExpr)
  | qMul (l r : QExpr)
  | qDiv (l r : QExpr)
  | qMod (l r : QExpr)
  | qCase (c t f : QExpr)
  | qExists (table : String) (corr : QExpr)
  | qLitDecimal (text : String)
  | qLitUuid (text : String)
  | qLitInstant (micros : Int)
  | qLitBytes (hex : String)
  | qLitDate (iso : String)
  | qLitTime (iso : String)
  | qLitInterval (ms : Int)
  | qAggAvgInterval (x : QExpr)

def litValue : QExpr → Option SqlValue
  | .qLitInt n => some (.sqlInt n)
  | .qLitText s => some (.sqlText s)
  | .qLitBool b => some (.sqlBool b)
  | .qLitFloat x => some (.sqlFloat x)
  | .qLitDecimal s => some (.sqlDecimal s)
  | .qLitUuid s => some (.sqlUuid s)
  | .qLitInstant micros => some (.sqlInstant micros)
  | .qLitBytes hex => some (.sqlBytes hex)
  | .qLitDate iso => some (.sqlDate iso)
  | .qLitTime iso => some (.sqlTime iso)
  | .qLitInterval ms => some (.sqlInterval ms)
  | _ => none

/-! ## Plans -/

/-- A read: scans, set operations, refinements, joins, projections, aggregates and groups. -/
inductive QueryPlan where
  | planScan (table : String) (pred : QExpr) (orders : List (Bool × QExpr)) (limit offset : Int)
      (distinct : Bool)
  | planCombine (operation : String) (left right : QueryPlan)
  | planRefine (inner : QueryPlan) (pred : QExpr) (orders : List (Bool × QExpr))
      (limit offset : Int) (distinct : Bool)
  | planJoin (kind : String) (left right : QueryPlan) (condition postJoinFilter : QExpr)
      (orders : List (Bool × Int × QExpr)) (limit offset : Int) (distinct : Bool)
      (leftCols rightCols : List String)
  | planProject (projection : QExpr) (child : QueryPlan) (limit offset : Int) (distinct : Bool)
  | planAggregate (function : String) (column : QExpr) (leaf : Int) (child : QueryPlan)
  | planGroup (keyCol : String) (keyLeaf : Int) (cols : List (String × String × QExpr × Int))
      (having : QExpr) (child : QueryPlan)
  | planExists (child : QueryPlan)
  | planList (rows : List SqlRow)

/-- A write: the insert, upsert, update and delete shapes. -/
inductive MutationPlan where
  | mutInsert (table : String) (rows : List SqlRow) (identityCols : List String)
  | mutUpsert (table : String) (rows : List SqlRow) (conflictCols updateCols : List String)
  | mutUpdate (table : String) (changes : SqlRow) (pred : QExpr)
  | mutDelete (table : String) (pred : QExpr)
  | mutDeleteKeys (table : String) (keyCols : List String) (rows : List SqlRow)

def planUpsert (table : String) (rows : List SqlRow) (conflictCols updateCols : List String) :
    MutationPlan :=
  .mutUpsert table rows conflictCols updateCols

def planDeleteKeys (table : String) (keyCols : List String) (rows : List SqlRow) : MutationPlan :=
  .mutDeleteKeys table keyCols rows

/-! ## Errors -/

/-- A typed database error, as far as the runners look at it: its code and its message. -/
structure DbError where
  code : String
  message : String
  deriving DecidableEq

/-!
## std.schema — the schema descriptor of an entity

`stdlib/schema.ridge`: the column vocabulary (`Generation`, `FkAction`, `ForeignKey`), the
per-column descriptor and the per-table one. The phantom entity parameter carries no data and is
dropped, as `eraseSchema` drops it before a descriptor reaches a migration.
-/

/-! ## The descriptors -/

/-- How a column's value originates. -/
inductive Generation where
  | supplied
  | identity
  | defaultNow
  | defaultLit (v : SqlValue)
  | defaultRawSql (sql : String)
  | computed (e : QExpr)

inductive FkAction where
  | noAction | restrict | cascade | setNull | setDefault
  deriving DecidableEq

/-- A reference to a column of another table. -/
structure ForeignKey where
  table : String
  column : String
  onDelete : FkAction
  onUpdate : FkAction
  deriving DecidableEq

/-- `references table column`: no action on either event. -/
def references (table column : String) : ForeignKey :=
  ⟨table, column, .noAction, .noAction⟩

/-- One column of an entity. -/
structure ColumnSchema where
  name : String
  column : String
  ty : DbType
  nullable : Bool
  generation : Generation
  primaryKey : Bool
  unique : Bool
  indexed : Bool
  foreignKey : Option ForeignKey
  check : Option QExpr

/-- A supplied, non-key, unconstrained column. -/
def mkColumn (name column : String) (ty : DbType) (nullable : Bool) : ColumnSchema where
  name := name
  column := column
  ty := ty
  nullable := nullable
  generation := .supplied
  primaryKey := false
  unique := false
  indexed := false
  foreignKey := none
  check := none

/-- An entity: its table, its columns in declaration order and its table-level constraints. -/
structure EntitySchema where
  name : String
  table : String
  columns : List ColumnSchema
  primaryKeyColumns : List String
  uniqueConstraints : List (List String)

/-! ## What counts as a change of a column -/

def isIdentity : Generation → Bool
  | .identity => true
  | _ => false

def isComputed : Generation → Bool
  | .computed _ => true
  | _ => false

/-- `notSameDbType`, up to its final negation. -/
def sameDbType : DbType → DbType → Bool
  | .dbBoolean, .dbBoolean => true
  | .dbInt, .dbInt => true
  | .dbBigInt, .dbBigInt => true
  | .dbFloat, .dbFloat => true
  | .dbDecimal p s, .dbDecimal q t => p = q && s = t
  | .dbText, .dbText => true
  | .dbVarchar n, .dbVarchar m => n = m
  | .dbUuid, .dbUuid => true
  | .dbTimestamp, .dbTimestamp => true
  | .dbTimestampTz, .dbTimestampTz => true
  | .dbBytes, .dbBytes => true
  | .dbSmallInt, .dbSmallInt => true
  | .dbChar n, .dbChar m => n = m
  | .dbJson, .dbJson => true
  | .dbJsonb, .dbJsonb => true
  | .dbDate, .dbDate => true
  | .dbTime, .dbTime => true
  | .dbInterval, .dbInterval => true
  | .dbArray a, .dbArray b => sameDbType a b
  | .dbRaw a, .dbRaw b => a = b
  | _, _ => false

def notSameDbType (left right : DbType) : Bool := !sameDbType left right

/-- `notSameDefault`, up to its final negation: an identity or a computed column is never the
same as anything here, its callers exclude both. -/
def sameDefault : Generation → Generation → Bool
  | .supplied, .supplied => true
  | .defaultNow, .defaultNow => true
  | .defaultLit a, .defaultLit b => sameValue a b
  | .defaultRawSql a, .defaultRawSql b => a = b
  | _, _ => false

def notSameDefault (left right : Generation) : Bool := !sameDefault left right

/-- Whether the diff alters a column present in both snapshots. -/
def columnAltered (old new : ColumnSchema) : Bool :=
  if isIdentity old.generation || isIdentity new.generation then false
  else if isComputed old.generation || isComputed new.generation then false
  else notSameDbType old.ty new.ty || (old.nullable != new.nullable) ||
    notSameDefault old.generation new.generation

variable {a b : DbType}

theorem sameDbType_iff : sameDbType a b = true ↔ a = b := by
  induction a generalizing b with
  | dbArray a ih => cases b <;> simp [sameDbType, ih]
  | _ => cases b <;> simp [sameDbType]

theorem notSameDbType_eq_false : notSameDbType a b = false ↔ a = b := by
  rw [notSameDbType, Bool.not_eq_false', sameDbType_iff]

theorem sameDefault_iff {a b : Generation} (ha : isIdentity a = false)
    (ha' : isComputed a = false) : sameDefault a b = true ↔ a = b := by
  cases a <;> cases b <;> simp_all [sameDefault, isIdentity, isComputed, sameValue_iff]

def indexName (table column : String) : String := table ++ "_" ++ column ++ "_idx"

theorem indexName_injective {table column column' : String}
    (h : indexName table column = indexName table column') : column = column' := by
  simpa [indexName, String.append_assoc] using h

/-- `schema name table`: no columns yet. -/
def schema (name table : String) : EntitySchema :=
  ⟨name, table, [], [], []⟩

end Ridge
