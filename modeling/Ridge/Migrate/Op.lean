import Ridge.Data.Sql

/-!
# std.migrate — migration steps

`stdlib/migrate.ridge`: the typed steps a migration is made of, the tuple columns of the
hand-written DSL, and the migration record. A step reaches the database through at most one call
of the adapter's seam; `Statement` is that call with its arguments, and `MigrationOp.statement`
reads off `runStep` which one it is.
-/

namespace Ridge

/-! ## Steps -/

/-- A column of the tuple DSL. -/
structure Column where
  name : String
  ty : String
  nullable : Bool
  primaryKey : Bool
  unique : Bool
  deriving DecidableEq

def baseColumn (name ty : String) : Column := ⟨name, ty, false, false, false⟩

def intCol (name : String) : Column := baseColumn name "int"

/-- One step of a migration. -/
inductive MigrationOp where
  | createTable (table : String) (cols : List Column)
  | dropTable (table : String)
  | addColumn (table : String) (col : Column)
  | dropColumn (table col : String)
  | createIndex (name table : String) (cols : List String) (uniq : Bool)
  | createEntity (schema : EntitySchema)
  | addEntityColumn (table : String) (col : ColumnSchema)
  | alterColumn (table : String) (old new : ColumnSchema)
  | dropIndex (name : String)
  | seedRows (table : String) (keyCols : List String) (rows : List SqlRow)
  | unseedRows (table : String) (keyCols : List String) (rows : List SqlRow)
  | runSql (sql : String)
  | createView (name : String) (plan : QueryPlan)
  | dropView (name : String)

/-- A named, ordered batch of steps, with the steps that reverse it when it spells them out. -/
structure Migration where
  name : String
  steps : List MigrationOp
  down : Option (List MigrationOp)

/-- `migration name steps`: the reverse is left to be derived. -/
def migration (name : String) (steps : List MigrationOp) : Migration :=
  ⟨name, steps, none⟩

/-! ## The seam calls a step makes -/

/-- A column as the seam takes it: name, base type, nullable, primary key, unique. -/
abbrev ColTuple := String × String × Bool × Bool × Bool

def colTuple (c : Column) : ColTuple :=
  (c.name, c.ty, c.nullable, c.primaryKey, c.unique)

def colTuples : List Column → List ColTuple
  | [] => []
  | c :: rest => colTuple c :: colTuples rest

/-- A call of the adapter's schema, mutation or raw-SQL seam. -/
inductive Statement where
  | ddlCreate (table : String) (columns : List ColTuple)
  | ddlDrop (table : String)
  | ddlAddColumn (table : String) (column : ColTuple)
  | ddlDropColumn (table column : String)
  | ddlIndex (name table : String) (columns : List String) (unique : Bool)
  | ddlCreateEntity (schema : EntitySchema)
  | ddlAddEntityColumn (table : String) (column : ColumnSchema)
  | ddlAlterColumn (table : String) (old new : ColumnSchema)
  | ddlDropIndex (name : String)
  | runMutation (plan : MutationPlan)
  | rawExec (sql : String) (params : List SqlValue)
  | ddlCreateView (name : String) (plan : QueryPlan)
  | ddlDropView (name : String)

def memberText (x : String) : List String → Bool
  | [] => false
  | y :: rest => if x = y then true else memberText x rest

def dropColumns : List String → List String → List String
  | [], _ => []
  | c :: rest, drop =>
    if memberText c drop then dropColumns rest drop else c :: dropColumns rest drop

def rowColumnNames : SqlRow → List String
  | [] => []
  | (c, _) :: rest => c :: rowColumnNames rest

/-- The columns of a seed row an upsert overwrites: all but the keys. -/
def nonSeedKeyColumns (row : SqlRow) (keyCols : List String) : List String :=
  dropColumns (rowColumnNames row) keyCols

/-- The seam call of a step. A seed of no rows makes none. -/
def MigrationOp.statement : MigrationOp → Option Statement
  | createTable table cols => some (.ddlCreate table (colTuples cols))
  | dropTable table => some (.ddlDrop table)
  | addColumn table col => some (.ddlAddColumn table (colTuple col))
  | dropColumn table col => some (.ddlDropColumn table col)
  | createIndex name table cols uniq => some (.ddlIndex name table cols uniq)
  | createEntity schema => some (.ddlCreateEntity schema)
  | addEntityColumn table col => some (.ddlAddEntityColumn table col)
  | alterColumn table old new => some (.ddlAlterColumn table old new)
  | dropIndex name => some (.ddlDropIndex name)
  | seedRows _ _ [] => none
  | seedRows table keyCols (first :: rest) =>
    some (.runMutation (planUpsert table (first :: rest) keyCols
      (nonSeedKeyColumns first keyCols)))
  | unseedRows _ _ [] => none
  | unseedRows table keyCols (first :: rest) =>
    some (.runMutation (planDeleteKeys table keyCols (first :: rest)))
  | runSql sql => some (.rawExec sql [])
  | createView name plan => some (.ddlCreateView name plan)
  | dropView name => some (.ddlDropView name)

end Ridge
