import Ridge.Repo.Terminals

/-!
# std.repo — a sequence and a repository answer alike

The verbs keep the builder of a sequence and that of a query over the same rows in step
(`Corresponds`), and each terminal then reads the same rows in both, as far as its plan for the
query carries what a set operation captured.
-/

/-!
## std.repo — sequences

A `Seq` lifts a list of records into the builder verbs of a query; its terminals run plans over the
list in process, without a store (`stdlib/repo.ridge`, `eval_plan_pure`).
-/

namespace Ridge

structure Seq where
  source : QueryPlan
  pred : QExpr
  orders : List (Bool × QExpr)
  lim : Int
  off : Int
  dist : Bool

/-- `from`, of the encoded records. -/
def seqFrom (rows : List SqlRow) : Seq where
  source := .planList rows
  pred := keepAllTree
  orders := []
  lim := -1
  off := 0
  dist := false

namespace Seq

def filter (pred : QExpr) (x : Seq) : Seq := { x with pred := quoteAnd x.pred pred }

def orderBy (direction : SortOrder) (key : QExpr) (x : Seq) : Seq :=
  { x with orders := x.orders ++ [(isAscending direction, key)] }

def limit (n : Int) (x : Seq) : Seq := { x with lim := n }

def offset (n : Int) (x : Seq) : Seq := { x with off := n }

variable (x : Seq)

def distinct : Seq := { x with dist := true }

def seqPlan : QueryPlan := .planRefine x.source x.pred x.orders x.lim x.off x.dist

def seqCombine (verb : SetVerb) (other x : Seq) : Seq where
  source := .planCombine verb.operation x.seqPlan other.seqPlan
  pred := keepAllTree
  orders := []
  lim := -1
  off := 0
  dist := false

def seqSelectPlan (projection : QExpr) (lim : Int) : QueryPlan :=
  .planProject projection (.planRefine x.source x.pred x.orders (-1) 0 false) lim x.off x.dist

def seqCountPlan (lim : Int) : QueryPlan := .planRefine x.source x.pred [] lim 0 false

def seqWindowPlan (lim : Int) : QueryPlan :=
  .planRefine x.source x.pred x.orders lim x.off x.dist

def seqScalarPlan (func : String) (column : QExpr) : QueryPlan :=
  .planAggregate func (aggColumn column) (aggLeaf column)
    (.planRefine x.source x.pred x.orders x.lim x.off x.dist)

section

variable (E : ErlRuntime)

/-- No table has rows. -/
def evalPlanPure (plan : QueryPlan) : Eval (List SqlRow) := memEvalPlan E [] plan

def run (x : Seq) : Terminal → Eval Answer
  | .toList => .rows <$> evalPlanPure E x.seqPlan
  | .first => do pure (.row (← evalPlanPure E x.seqPlan).head?)
  | .select projection => .rows <$> evalPlanPure E (x.seqSelectPlan projection x.lim)
  | .selectFirst projection => do
    pure (.row (← evalPlanPure E (x.seqSelectPlan projection 1)).head?)
  | .count => do pure (.count (← evalPlanPure E (x.seqWindowPlan x.lim)).length)
  | .exists' => do pure (.truth (nonEmpty (← evalPlanPure E (x.seqWindowPlan (probeLim x.lim)))))
  | .every pred => do
    pure (.truth !nonEmpty (← evalPlanPure E
      (.planRefine (x.seqWindowPlan x.lim) (notTrue pred) [] 1 0 false)))
  | .aggregate verb column => do
    pure (.cell (firstAggCell (← evalPlanPure E (x.seqScalarPlan (verb.func column) column))))
  | .summarize key havingTree projection =>
    .rows <$> evalPlanPure E (.planGroup (aggColumnName key) (aggLeaf key)
      (groupColsLeaf projection) havingTree (x.seqCountPlan (-1)))

end

end Seq

/-- The pipeline on sequences, its sources the lists that the tables of a store hold. -/
def Pipeline.toSeq (tables : Tables) : Pipeline → Seq
  | .source table => seqFrom (rowsOf table tables)
  | .filter pred p => (p.toSeq tables).filter pred
  | .orderBy direction key p => (p.toSeq tables).orderBy direction key
  | .limit n p => (p.toSeq tables).limit n
  | .offset n p => (p.toSeq tables).offset n
  | .distinct p => (p.toSeq tables).distinct
  | .combine verb other p => Seq.seqCombine verb (other.toSeq tables) (p.toSeq tables)

open Query

/-- No filter of a pipeline has an `EXISTS`. -/
def Pipeline.ExistsFree : Pipeline → Prop
  | .source _ => True
  | .filter pred p => memHasExists pred = false ∧ p.ExistsFree
  | .orderBy _ _ p | .limit _ p | .offset _ p | .distinct p => p.ExistsFree
  | .combine _ other p => other.ExistsFree ∧ p.ExistsFree

variable {E : ErlRuntime} {tables : Tables}

/-! ## The builders in step -/

def NotJoin (plan : QueryPlan) : Prop :=
  ∀ k l r c w o li of' d lc rc, plan ≠ .planJoin k l r c w o li of' d lc rc

structure Corresponds (E : ErlRuntime) (tables : Tables) (q : Query) (s : Seq) : Prop where
  pred : s.pred = q.pred
  orders : s.orders = q.orders
  lim : s.lim = q.lim
  off : s.off = q.off
  dist : s.dist = q.dist
  captured : q.Captured
  base : q.base E tables = Seq.evalPlanPure E s.source
  flat : NotJoin s.source
  plain : memHasExists q.pred = false

theorem eval_seq_refine {source : QueryPlan} (hflat : NotJoin source) (pred : QExpr)
    (orders : List (Bool × QExpr)) (lim off : Int) (dist : Bool) :
    Seq.evalPlanPure E (.planRefine source pred orders lim off dist) =
      (fun rows => memPaginate (memDistinct dist rows) lim off) <$>
        (Seq.evalPlanPure E source >>= fun rows =>
          memFilter (fun row => memPredStore E.doubles [] row pred) rows >>= memOrder E orders) := by
  have hmatches : ∀ rows, memRefineMatches E [] source pred rows =
      memFilter (fun row => memPredStore E.doubles [] row pred) rows := fun rows => by
    unfold memRefineMatches
    split
    · next h => exact absurd rfl (hflat _ _ _ _ _ _ _ _ _ _ _)
    · rfl
  unfold Seq.evalPlanPure
  rw [memEvalPlan_refine]
  simp only [hmatches]

section

variable {q : Query} {s : Seq}

/-- Whatever a terminal refines the rows of a sequence by, a query matches the same ones. -/
theorem Corresponds.matched (h : Corresponds E tables q s) (orders : List (Bool × QExpr))
    (lim off : Int) (dist : Bool) :
    Seq.evalPlanPure E (.planRefine s.source s.pred orders lim off dist) =
      (fun rows => memPaginate (memDistinct dist rows) lim off) <$>
        ({ q with orders := orders } : Query).matched E tables := by
  have hq : ({ q with orders := orders } : Query).Captured := h.captured
  have hbase : ({ q with orders := orders } : Query).base E tables =
      Seq.evalPlanPure E s.source := h.base
  rw [eval_seq_refine h.flat, matched_eq hq, hbase, h.pred]
  simp only [memPredStore_eq_memPred h.plain]

theorem Corresponds.planOf (h : Corresponds E tables q s) :
    Seq.evalPlanPure E s.seqPlan = memEvalPlan E tables q.planOf := by
  have heval : memEvalPlan E tables q.planOf = q.queryRows E tables := by
    unfold Query.planOf queryRows Query.planOf
    cases q.plan <;> rfl
  unfold Seq.seqPlan
  rw [heval, queryRows_eq, h.orders, h.matched, h.lim, h.off, h.dist]
  rfl

end

theorem corresponds (p : Pipeline) (hfree : p.ExistsFree) :
    Corresponds E tables p.toQuery (p.toSeq tables) := by
  induction p with
  | source table =>
    exact ⟨rfl, rfl, rfl, rfl, rfl, captured_toQuery (.source table), rfl,
      fun _ _ _ _ _ _ _ _ _ _ _ h => (nomatch h), rfl⟩
  | filter pred p ih =>
    have h := ih hfree.2
    refine ⟨congrArg (QExpr.qAnd · pred) h.pred, h.orders, h.lim, h.off, h.dist, h.captured,
      h.base, h.flat, ?_⟩
    exact Bool.or_eq_false_iff.mpr ⟨h.plain, hfree.1⟩
  | orderBy direction key p ih =>
    have h := ih hfree
    exact ⟨h.pred, congrArg (· ++ [(isAscending direction, key)]) h.orders, h.lim, h.off, h.dist,
      h.captured, h.base, h.flat, h.plain⟩
  | limit n p ih =>
    have h := ih hfree
    exact ⟨h.pred, h.orders, rfl, h.off, h.dist, h.captured, h.base, h.flat, h.plain⟩
  | offset n p ih =>
    have h := ih hfree
    exact ⟨h.pred, h.orders, h.lim, rfl, h.dist, h.captured, h.base, h.flat, h.plain⟩
  | distinct p ih =>
    have h := ih hfree
    exact ⟨h.pred, h.orders, h.lim, h.off, rfl, h.captured, h.base, h.flat, h.plain⟩
  | combine verb other p ihOther ih =>
    have hother := (ihOther hfree.1).planOf
    have hp := (ih hfree.2).planOf
    refine ⟨rfl, rfl, rfl, rfl, rfl, captured_toQuery (.combine verb other p), ?_,
      fun _ _ _ _ _ _ _ _ _ _ _ h => (nomatch h), rfl⟩
    show memEvalPlan E tables (.planCombine verb.operation p.toQuery.planOf other.toQuery.planOf) =
      memEvalPlan E [] (.planCombine verb.operation (p.toSeq tables).seqPlan
        (other.toSeq tables).seqPlan)
    rw [memEvalPlan_combine, memEvalPlan_combine, ← hp, ← hother]
    rfl

/-! ## Each terminal -/

/-- The sequence answers what the repository answers. -/
def Alike (E : ErlRuntime) (tables : Tables) (p : Pipeline) (t : Terminal) : Prop :=
  ∀ a, (p.toSeq tables).run E t = .ok a ↔ p.toQuery.run E tables t = .ok a

/-- A terminal that reads the same builder in both. -/
def ReadsAlike (E : ErlRuntime) (tables : Tables) (p : Pipeline) : Terminal → Prop
  | .toList | .count | .exists' => True
  | .first => p.toQuery.plan = none → p.toQuery.lim ≠ 0
  | .select _ | .selectFirst _ | .aggregate _ _ | .summarize _ _ _ => p.toQuery.plan = none
  | .every pred => memHasExists pred = false ∧
      ∃ rows, (p.toSeq tables).run E .toList = .ok (.rows rows)

section

variable {q : Query} {s : Seq}

section

variable (h : Corresponds E tables q s)
include h

theorem alike_toList : s.run E .toList = q.run E tables .toList := by
  unfold Seq.run Query.run
  dsimp only
  rw [h.planOf]
  unfold queryRows Query.planOf
  cases q.plan <;> rfl

theorem alike_first (hlim : q.plan = none → q.lim ≠ 0) :
    s.run E .first = q.run E tables .first := by
  unfold Seq.run Query.run
  dsimp only
  rw [h.planOf]
  cases hplan : q.plan with
  | some p => rfl
  | none =>
    have heval : memEvalPlan E tables q.planOf = q.page q.lim <$> q.matched E tables := by
      unfold Query.planOf
      rw [hplan]
      exact q.eval_scan hplan q.lim q.off q.dist
    dsimp only
    rw [heval, q.fetchRows_eq hplan]
    cases q.matched E tables with
    | error c => rfl
    | ok kept =>
      have hhead := head_page_one (hlim hplan) kept
      exact congrArg (fun r => Except.ok (Answer.row r)) hhead.symm

theorem alike_select (hplan : q.plan = none) (projection : QExpr) (lim : Int) :
    Seq.evalPlanPure E (s.seqSelectPlan projection lim) =
      memEvalPlan E tables (q.selectPlan projection lim) := by
  have hchild : Seq.evalPlanPure E (.planRefine s.source s.pred s.orders (-1) 0 false) =
      memEvalPlan E tables (.planScan q.table q.pred q.orders (-1) 0 false) := by
    rw [q.eval_scan hplan, h.orders, h.matched]
  unfold Seq.evalPlanPure at hchild ⊢
  unfold Seq.seqSelectPlan selectPlan
  rw [memEvalPlan_project, memEvalPlan_project, hchild, h.off, h.dist]

theorem alike_count : s.run E .count = q.run E tables .count := by
  have hwindow : Seq.evalPlanPure E (s.seqWindowPlan s.lim) = memEvalPlan E tables q.planOf :=
    h.planOf
  unfold Seq.run Query.run countQuery
  dsimp only
  rw [hwindow]
  unfold Query.planOf
  cases q.plan with
  | some p => rfl
  | none =>
    dsimp only
    rw [memEvalPlan_count]
    cases memEvalPlan E tables (.planScan q.table q.pred q.orders q.lim q.off q.dist) <;> rfl

theorem alike_exists : s.run E .exists' = q.run E tables .exists' := by
  have hwindow : Seq.evalPlanPure E (s.seqWindowPlan (probeLim s.lim)) =
      q.page (probeLim q.lim) <$> q.matched E tables := by
    unfold Seq.seqWindowPlan
    rw [h.orders, h.matched, h.lim, h.off, h.dist]
    rfl
  unfold Seq.run Query.run existsQuery
  dsimp only
  rw [hwindow]
  cases hplan : q.plan with
  | none =>
    dsimp only
    rw [q.fetchRows_eq hplan]
  | some p =>
    dsimp only
    rw [q.eval_refine hplan]
    rfl

theorem alike_aggregate (hplan : q.plan = none) (verb : Aggregation) (column : QExpr) :
    s.run E (.aggregate verb column) = q.run E tables (.aggregate verb column) := by
  have hchild : Seq.evalPlanPure E (.planRefine s.source s.pred s.orders s.lim s.off s.dist) =
      memEvalPlan E tables (.planScan q.table q.pred q.orders q.lim q.off q.dist) := by
    rw [q.eval_scan hplan, h.orders, h.matched, h.lim, h.off, h.dist]
  have hfunc := func_ne_count verb column
  unfold Seq.run Query.run Seq.seqScalarPlan scalarPlan
  unfold Seq.evalPlanPure at hchild ⊢
  dsimp only
  rw [memEvalPlan_aggregate hfunc, memEvalPlan_aggregate hfunc, hchild]

theorem alike_summarize (hplan : q.plan = none) (key havingTree projection : QExpr) :
    s.run E (.summarize key havingTree projection) =
      q.run E tables (.summarize key havingTree projection) := by
  have hchild : Seq.evalPlanPure E (s.seqCountPlan (-1)) =
      memEvalPlan E tables (.planScan q.table q.pred [] (-1) 0 false) := by
    have hplan' : ({ q with orders := [] } : Query).plan = none := hplan
    unfold Seq.seqCountPlan
    rw [h.matched]
    exact (({ q with orders := [] } : Query).eval_scan hplan' (-1) 0 false).symm
  unfold Seq.run Query.run groupPlan
  unfold Seq.evalPlanPure at hchild ⊢
  dsimp only
  rw [memEvalPlan_group, memEvalPlan_group, hchild]

theorem alike_every {pred : QExpr} (hpred : memHasExists pred = false) {rows : List SqlRow}
    (hrows : Seq.evalPlanPure E s.seqPlan = .ok rows) (a : Answer) :
    s.run E (.every pred) = .ok a ↔ q.run E tables (.every pred) = .ok a := by
  have hquery : q.queryRows E tables = .ok rows := by
    rw [h.planOf] at hrows
    unfold Query.planOf at hrows
    unfold queryRows Query.planOf
    cases hplan : q.plan with
    | none | some p =>
      rw [hplan] at hrows
      exact hrows
  have hsame : (fun row => memPredStore E.doubles tables row pred) =
      fun row => memPredStore E.doubles [] row pred := by
    funext row
    rw [memPredStore_eq_memPred hpred, memPredStore_eq_memPred hpred]
  rw [every_iff h.captured hquery, hsame]
  have hnot : NotJoin (s.seqWindowPlan s.lim) := fun _ _ _ _ _ _ _ _ _ _ _ he => nomatch he
  exact everyOf_iff_probe (fun _ => Iff.rfl) (eval_windowProbe hnot hrows) a

end

end

/-! ## All of them -/

end Ridge
