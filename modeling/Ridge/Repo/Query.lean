import Ridge.Mem.Plan

/-!
# std.repo — queries over the in-memory adapter

The builder verbs of a `Query`, the plan it runs and its terminals (`stdlib/repo.ridge`). An answer
is what the terminal decodes into entities: the rows, or the cell, that the store's interpreter
sends back.
-/

namespace Ridge

/-- `quote_keep_all`. -/
def keepAllTree : QExpr := .qLitBool true

def quoteAnd (a b : QExpr) : QExpr := .qAnd a b

/-- `quote_not_true`. -/
def notTrue (a : QExpr) : QExpr := .qNotTrue a

inductive SortOrder where
  | asc | desc
  deriving DecidableEq

def isAscending : SortOrder → Bool
  | .asc => true
  | .desc => false

/-- A query under construction, its repository by the table's name. -/
structure Query where
  table : String
  pred : QExpr
  orders : List (Bool × QExpr)
  lim : Int
  off : Int
  dist : Bool
  plan : Option QueryPlan

inductive SetVerb where
  | union | unionAll | intersect | except
  deriving DecidableEq

def SetVerb.operation : SetVerb → String
  | .union => "UNION"
  | .unionAll => "UNION ALL"
  | .intersect => "INTERSECT"
  | .except => "EXCEPT"

def query (table : String) : Query where
  table := table
  pred := keepAllTree
  orders := []
  lim := -1
  off := 0
  dist := false
  plan := none

namespace Query

def filter (pred : QExpr) (q : Query) : Query := { q with pred := quoteAnd q.pred pred }

def orderBy (direction : SortOrder) (key : QExpr) (q : Query) : Query :=
  { q with orders := q.orders ++ [(isAscending direction, key)] }

def limit (n : Int) (q : Query) : Query := { q with lim := n }

def offset (n : Int) (q : Query) : Query := { q with off := n }

def distinct (q : Query) : Query := { q with dist := true }

/-- The plan a query runs, and that a set operation captures of it. -/
def planOf (q : Query) : QueryPlan :=
  match q.plan with
  | none => .planScan q.table q.pred q.orders q.lim q.off q.dist
  | some p => .planRefine p q.pred q.orders q.lim q.off q.dist

/-- The piped query is the left branch. -/
def combineWith (verb : SetVerb) (other q : Query) : Query :=
  { query q.table with plan := some (.planCombine verb.operation q.planOf other.planOf) }

end Query

/-! ## Terminals -/

inductive Aggregation where
  | sumOf | avgOf | minOf | maxOf
  deriving DecidableEq

def avgFuncFor : QExpr → String
  | .qAggAvgInterval _ => "AVG_INTERVAL"
  | _ => "AVG"

def Aggregation.func (column : QExpr) : Aggregation → String
  | .sumOf => "SUM"
  | .avgOf => avgFuncFor column
  | .minOf => "MIN"
  | .maxOf => "MAX"

def aggColumn : QExpr → QExpr
  | .qAggAvgInterval c => c
  | e => e

def aggLeafOf : QExpr → Int
  | .qColR _ => 1
  | .qColAt leaf _ => leaf
  | _ => 0

def aggLeaf : QExpr → Int
  | .qAggAvgInterval c => aggLeafOf c
  | e => aggLeafOf e

def aggColumnName : QExpr → String
  | .qCol c => c
  | .qColR c => c
  | .qColAt _ c => c
  | _ => ""

/-- `aggFunc`, `aggColExpr` and `aggColLeaf` of one grouped column. -/
def groupColLeaf : QExpr → String × QExpr × Int
  | .qGroupKey => ("KEY", keepAllTree, 0)
  | .qAggCount => ("COUNT", keepAllTree, 0)
  | .qAggSum c => ("SUM", c, aggLeafOf c)
  | .qAggAvg c => ("AVG", c, aggLeafOf c)
  | .qAggAvgInterval c => ("AVG_INTERVAL", c, aggLeafOf c)
  | .qAggMin c => ("MIN", c, aggLeafOf c)
  | .qAggMax c => ("MAX", c, aggLeafOf c)
  | _ => ("", keepAllTree, 0)

def groupColsLeaf : QExpr → List (String × String × QExpr × Int)
  | .qProj cols => cols.map fun c => (c.1, groupColLeaf c.2)
  | _ => []

/-- A terminal a query and a sequence share; `summarize` with the group key, the `having` tree and
the projection of its builder. -/
inductive Terminal where
  | toList
  | first
  | select (projection : QExpr)
  | selectFirst (projection : QExpr)
  | count
  | exists'
  | every (pred : QExpr)
  | aggregate (verb : Aggregation) (column : QExpr)
  | summarize (key havingTree projection : QExpr)

/-- What a terminal decodes. -/
inductive Answer where
  | rows (rows : List SqlRow)
  | row (row : Option SqlRow)
  | count (n : Int)
  | truth (b : Bool)
  | cell (v : Option SqlValue)
  | failed (e : DbError)
  deriving DecidableEq

def firstAggCell : List SqlRow → Option SqlValue
  | [] => none
  | row :: _ => row.head?.map Prod.snd

def aggCount (rows : List SqlRow) : Answer :=
  match firstAggCell rows with
  | none => .count 0
  | some (.sqlInt n) => .count n
  | some _ => .failed { code := "sql.decode.int", message := "expected a SQL integer" }

def nonEmpty {α : Type} : List α → Bool
  | [] => false
  | _ :: _ => true

def isWindowPaged (lim off : Int) : Bool := lim ≥ 0 || off > 0

def probeLim (lim : Int) : Int := if lim < 0 then 1 else if lim < 1 then lim else 1

namespace Query

section

variable (E : ErlRuntime) (tables : Tables)

variable (q : Query)

/-- `fetch` of a query's scan. -/
def fetchRows (lim : Int) : Eval (List SqlRow) :=
  memEvalPlan E tables (.planScan q.table q.pred q.orders lim q.off q.dist)

def queryRows : Eval (List SqlRow) :=
  match q.plan with
  | none => q.fetchRows E tables q.lim
  | some _ => memEvalPlan E tables q.planOf

/-- The plan of a query's `select` and `selectFirst`. -/
def selectPlan (projection : QExpr) (lim : Int) : QueryPlan :=
  .planProject projection (.planScan q.table q.pred q.orders (-1) 0 false) lim q.off q.dist

/-- `queryScalarPlan`. -/
def scalarPlan (func : String) (column : QExpr) : QueryPlan :=
  .planAggregate func column 0 (.planScan q.table q.pred q.orders q.lim q.off q.dist)

def countQuery : Eval Answer :=
  match q.plan with
  | none => do
    pure (aggCount (← memEvalPlan E tables (.planAggregate "COUNT" keepAllTree 0
      (.planScan q.table q.pred q.orders q.lim q.off q.dist))))
  | some p => do
    pure (.count (← memEvalPlan E tables
      (.planRefine p q.pred q.orders q.lim q.off q.dist)).length)

def existsQuery : Eval Answer :=
  match q.plan with
  | none => do pure (.truth (nonEmpty (← q.fetchRows E tables (probeLim q.lim))))
  | some p => do
    pure (.truth (nonEmpty (← memEvalPlan E tables
      (.planRefine p q.pred q.orders (probeLim q.lim) q.off q.dist))))

/-- The probe of `every` for a row that violates the predicate. -/
def everyPlan (pred : QExpr) : QueryPlan :=
  match q.plan with
  | none =>
    if isWindowPaged q.lim q.off then
      .planRefine (.planScan q.table q.pred q.orders q.lim q.off q.dist) (notTrue pred) [] 1 0 false
    else .planScan q.table (quoteAnd q.pred (notTrue pred)) [] 1 0 false
  | some p =>
    if isWindowPaged q.lim q.off then
      .planRefine (.planRefine p q.pred q.orders q.lim q.off q.dist) (notTrue pred) [] 1 0 false
    else .planRefine p (quoteAnd q.pred (notTrue pred)) [] 1 0 false

/-- `runGroups` of a query's `summarize`. -/
def groupPlan (key havingTree projection : QExpr) : QueryPlan :=
  .planGroup (aggColumnName key) (aggLeaf key) (groupColsLeaf projection) havingTree
    (.planScan q.table q.pred [] (-1) 0 false)

def run : Terminal → Eval Answer
  | .toList => .rows <$> q.queryRows E tables
  | .first =>
    match q.plan with
    | none => do pure (.row (← q.fetchRows E tables 1).head?)
    | some _ => do pure (.row (← memEvalPlan E tables q.planOf).head?)
  | .select projection => .rows <$> memEvalPlan E tables (q.selectPlan projection q.lim)
  | .selectFirst projection => do
    pure (.row (← memEvalPlan E tables (q.selectPlan projection 1)).head?)
  | .count => q.countQuery E tables
  | .exists' => q.existsQuery E tables
  | .every pred => do pure (.truth !nonEmpty (← memEvalPlan E tables (q.everyPlan pred)))
  | .aggregate verb column => do
    pure (.cell (firstAggCell (← memEvalPlan E tables
      (q.scalarPlan (verb.func column) (aggColumn column)))))
  | .summarize key havingTree projection =>
    .rows <$> memEvalPlan E tables (q.groupPlan key havingTree projection)

def singleManyError : DbError where
  code := "repo.single.many"
  message := "the query matched more than one row"

/-- A second row is an error. -/
def single : Eval Answer := do
  match ← q.fetchRows E tables 2 with
  | [] => pure (.row none)
  | [row] => pure (.row (some row))
  | _ :: _ :: _ => pure (.failed singleManyError)

end

end Query

/-! ## Pipelines -/

/-- A pipeline of builder verbs over tables; the right branch of a set operation is a pipeline too. -/
inductive Pipeline where
  | source (table : String)
  | filter (pred : QExpr) (p : Pipeline)
  | orderBy (direction : SortOrder) (key : QExpr) (p : Pipeline)
  | limit (n : Int) (p : Pipeline)
  | offset (n : Int) (p : Pipeline)
  | distinct (p : Pipeline)
  | combine (verb : SetVerb) (other p : Pipeline)

def Pipeline.toQuery : Pipeline → Query
  | .source table => query table
  | .filter pred p => p.toQuery.filter pred
  | .orderBy direction key p => p.toQuery.orderBy direction key
  | .limit n p => p.toQuery.limit n
  | .offset n p => p.toQuery.offset n
  | .distinct p => p.toQuery.distinct
  | .combine verb other p => Query.combineWith verb other.toQuery p.toQuery

end Ridge
