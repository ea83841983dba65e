import Ridge.Mem.Aggregate

/-!
# ridge_rt — the interpreter of query plans

`mem_eval_plan` (`runtime/ridge_rt.erl`). `lists:sort` with a comparison that need not be an order
is the runtime system's own: `Sorting` has what its documentation says.
-/

namespace Ridge

variable {child : QueryPlan}

/-- `lists:sort/2`: it rearranges the list, raises nothing of its own, and is a stable sort wherever
the comparison is a total preorder. -/
structure Sorting where
  sort : {α : Type} → (α → α → Eval Bool) → List α → Eval (List α)
  perm : ∀ {α : Type} {le : α → α → Eval Bool} {l l' : List α}, sort le l = .ok l' → l'.Perm l
  returns : ∀ {α : Type} {le : α → α → Eval Bool} {l : List α},
    (∀ a ∈ l, ∀ b ∈ l, ∃ c, le a b = .ok c) → ∃ l', sort le l = .ok l'
  stable : ∀ {α : Type} {le : α → α → Bool} {l : List α},
    (∀ a b, le a b || le b a) → (∀ a b c, le a b → le b c → le a c) →
    sort (fun a b => .ok (le a b)) l = .ok (l.mergeSort le)

/-- What the store's interpreter takes from the runtime system. -/
structure ErlRuntime where
  doubles : Doubles
  sorting : Sorting

variable (E : ErlRuntime)

/-! ## Order, distinct, page -/

/-- `mem_le`, `mem_le_pair` and `mem_le_nary`: the first key that tells two rows apart decides. -/
def memLeBy {α : Type} (key : QExpr → α → Eval (Option SqlValue)) :
    List (Bool × QExpr) → α → α → Eval Bool
  | [], _, _ => pure true
  | (asc, k) :: rest, a, b => do
    match memOrderCmp E.doubles (← key k a) (← key k b) with
    | .eq => memLeBy key rest a b
    | .lt => pure asc
    | .gt => pure !asc

/-- `mem_order`, `mem_order_pairs` and `mem_order_nary`. -/
def memOrderBy {α : Type} (key : QExpr → α → Eval (Option SqlValue)) (orders : List (Bool × QExpr))
    (rows : List α) : Eval (List α) :=
  match orders with
  | [] => .ok rows
  | o :: os => E.sorting.sort (memLeBy E key (o :: os)) rows

def memOrder (orders : List (Bool × QExpr)) (rows : List SqlRow) : Eval (List SqlRow) :=
  memOrderBy E (fun k row => memScalar E.doubles row k) orders rows

def memOrderNary (orders : List (Bool × Int × QExpr)) (rows : List SqlRow) : Eval (List SqlRow) :=
  memOrderBy E (fun k row => memNscalar E.doubles row k) (orders.map fun o => (o.1, o.2.2)) rows

/-- A joined pair, a side that matched nothing is `none`. -/
abbrev JoinPair := Option SqlRow × Option SqlRow

def memOrderPairs (orders : List (Bool × Int × QExpr)) (pairs : List JoinPair) :
    Eval (List JoinPair) :=
  memOrderBy E (fun k (p : JoinPair) => memJscalar E.doubles (p.1.getD []) (p.2.getD []) k)
    (orders.map fun o => (o.1, o.2.2)) pairs

/-- The first of equal rows stays. -/
def memDistinct (dist : Bool) (rows : List SqlRow) : List SqlRow :=
  if dist then
    (rows.foldl (fun acc row => if row ∈ acc then acc else row :: acc) []).reverse
  else rows

/-- A negative limit keeps all. -/
def memPaginate (rows : List SqlRow) (lim off : Int) : List SqlRow :=
  let dropped := if 0 < off then rows.drop off.toNat else rows
  if lim < 0 then dropped else dropped.take lim.toNat

def memFilter {α : Type} (test : α → Eval Bool) : List α → Eval (List α)
  | [] => pure []
  | x :: xs => do
    let keep ← test x
    let rest ← memFilter test xs
    pure (if keep then x :: rest else rest)

/-! ## Set operations -/

def memSetOp (operation : String) (l r : List SqlRow) : List SqlRow :=
  match operation with
  | "UNION" => memDistinct true (l ++ r)
  | "UNION ALL" => l ++ r
  | "INTERSECT" => memDistinct true (l.filter (· ∈ r))
  | "EXCEPT" => memDistinct true (l.filter (· ∉ r))
  | _ => l

/-! ## Joins of two tables -/

section

variable (tables : Tables) (cond where2 : QExpr)

/-- `mem_prefix_pair` and its outer forms: an unmatched side has no columns. -/
def memPrefixPair (p : JoinPair) : SqlRow :=
  mergeRow (memPrefixKeys (memLeafPrefix 0) (p.1.getD []))
    (memPrefixKeys (memLeafPrefix 1) (p.2.getD []))

def memWhere2Keeps (p : JoinPair) : Eval Bool :=
  memWhere2Pair E.doubles tables where2 (p.1.getD []) (p.2.getD [])

def memInnerPairsFor (l : SqlRow) (rightRows : List SqlRow) : Eval (List JoinPair) := do
  let matched ← memFilter (fun r => memJpred E.doubles l r cond) rightRows
  memFilter (memWhere2Keeps E tables where2) (matched.map fun r => (some l, some r))

/-- `mem_left_pairs_for` and `mem_full_left_pairs_for`. -/
def memLeftPairsFor (l : SqlRow) (rightRows : List SqlRow) : Eval (List JoinPair) := do
  match ← memFilter (fun r => memJpred E.doubles l r cond) rightRows with
  | [] => memFilter (memWhere2Keeps E tables where2) [(some l, none)]
  | matched => memFilter (memWhere2Keeps E tables where2) (matched.map fun r => (some l, some r))

def memRightPairsFor (r : SqlRow) (leftRows : List SqlRow) : Eval (List JoinPair) := do
  match ← memFilter (fun l => memJpred E.doubles l r cond) leftRows with
  | [] => memFilter (memWhere2Keeps E tables where2) [(none, some r)]
  | matched => memFilter (memWhere2Keeps E tables where2) (matched.map fun l => (some l, some r))

def memFullRightOnlyFor (r : SqlRow) (leftRows : List SqlRow) : Eval (List JoinPair) := do
  match ← memFilter (fun l => memJpred E.doubles l r cond) leftRows with
  | [] => memFilter (memWhere2Keeps E tables where2) [(none, some r)]
  | _ => pure []

/-- The pairs of a join by its kind; there is no clause for another. -/
def memJoinPairs (kind : String) (leftRows rightRows : List SqlRow) : Eval (List JoinPair) :=
  match kind with
  | "INNER" => List.flatten <$> leftRows.mapM fun l => memInnerPairsFor E tables cond where2 l rightRows
  | "LEFT" => List.flatten <$> leftRows.mapM fun l => memLeftPairsFor E tables cond where2 l rightRows
  | "RIGHT" => List.flatten <$> rightRows.mapM fun r => memRightPairsFor E tables cond where2 r leftRows
  | "FULL" => do
    let leftSide ← leftRows.mapM fun l => memLeftPairsFor E tables cond where2 l rightRows
    let rightOnly ← rightRows.mapM fun r => memFullRightOnlyFor E tables cond where2 r leftRows
    pure (leftSide.flatten ++ rightOnly.flatten)
  | _ => .error .functionClause

/-! ## Joins of more -/

variable (idx : Nat)

def memInnerStep (accRow : SqlRow) (leafRows : List SqlRow) : Eval (List SqlRow) := do
  let merges := leafRows.map fun rk => mergeRow accRow (memPrefixKeys (memLeafPrefix idx) rk)
  let matched ← memFilter (fun m => memNpred E.doubles m cond) merges
  memFilter (memWhere2Flat E.doubles tables (idx + 1) where2) matched

def memLeftStep (accRow : SqlRow) (leafRows : List SqlRow) : Eval (List SqlRow) := do
  let merges := leafRows.map fun rk => mergeRow accRow (memPrefixKeys (memLeafPrefix idx) rk)
  match ← memFilter (fun m => memNpred E.doubles m cond) merges with
  | [] => memFilter (memWhere2Flat E.doubles tables (idx + 1) where2) [accRow]
  | matched => memFilter (memWhere2Flat E.doubles tables (idx + 1) where2) matched

def memRightStep (rk : SqlRow) (acc : List SqlRow) : Eval (List SqlRow) := do
  let leafMap := memPrefixKeys (memLeafPrefix idx) rk
  match ← memFilter (fun m => memNpred E.doubles m cond) (acc.map fun a => mergeRow a leafMap) with
  | [] => memFilter (memWhere2Flat E.doubles tables (idx + 1) where2) [leafMap]
  | matched => memFilter (memWhere2Flat E.doubles tables (idx + 1) where2) matched

def memFullRightOnlyStep (rk : SqlRow) (acc : List SqlRow) : Eval (List SqlRow) := do
  let leafMap := memPrefixKeys (memLeafPrefix idx) rk
  match ← memFilter (fun m => memNpred E.doubles m cond) (acc.map fun a => mergeRow a leafMap) with
  | [] => memFilter (memWhere2Flat E.doubles tables (idx + 1) where2) [leafMap]
  | _ => pure []

def memJoinStep (kind : String) (acc leafRows : List SqlRow) : Eval (List SqlRow) :=
  match kind with
  | "INNER" => List.flatten <$> acc.mapM fun a => memInnerStep E tables cond where2 idx a leafRows
  | "LEFT" => List.flatten <$> acc.mapM fun a => memLeftStep E tables cond where2 idx a leafRows
  | "RIGHT" => List.flatten <$> leafRows.mapM fun rk => memRightStep E tables cond where2 idx rk acc
  | "FULL" => do
    let leftSide ← acc.mapM fun a => memLeftStep E tables cond where2 idx a leafRows
    let rightOnly ← leafRows.mapM fun rk => memFullRightOnlyStep E tables cond where2 idx rk acc
    pure (leftSide.flatten ++ rightOnly.flatten)
  | _ => .error .functionClause

end

/-- A step's kind, condition and post-join filter. -/
abbrev JoinStep := String × QExpr × QExpr

def memNaryFold (tables : Tables) (acc : List SqlRow) (idx : Nat) :
    List (List SqlRow) → List JoinStep → Eval (List SqlRow)
  | leafRows :: restLeaves, (kind, cond, where2) :: restSteps => do
    let acc ← memJoinStep E tables cond where2 idx kind acc leafRows
    memNaryFold tables acc (idx + 1) restLeaves restSteps
  | _, _ => pure acc

def memNaryProduct (tables : Tables) (steps : List JoinStep) :
    List (List SqlRow) → Eval (List SqlRow)
  | [] => pure []
  | rows₀ :: rest =>
    memNaryFold E tables (rows₀.map (memPrefixKeys (memLeafPrefix 0))) 1 rest steps

/-! ## Projections -/

/-- `mem_pcell` of an arithmetic cell: no value is `SqlNull`. -/
def memPcellArith (op : ArithOp) (a b : SqlValue) : Eval SqlValue := do
  pure ((← memArithApply E.doubles op (some a) (some b)).getD .sqlNull)

def memPcell (row : SqlRow) : QExpr → Eval SqlValue
  | .qCol c => .ok ((memLeftCell row c).getD .sqlNull)
  | .qColR c => .ok (cellOf (memLeafPrefix 1 ++ c) row)
  | .qColAt leaf c => .ok (cellOf (memLeafPrefix leaf ++ c) row)
  | .qAdd a b => do memPcellArith E .add (← memPcell row a) (← memPcell row b)
  | .qSub a b => do memPcellArith E .sub (← memPcell row a) (← memPcell row b)
  | .qMul a b => do memPcellArith E .mul (← memPcell row a) (← memPcell row b)
  | .qDiv a b => do memPcellArith E .div (← memPcell row a) (← memPcell row b)
  | .qMod a b => do memPcellArith E .mod (← memPcell row a) (← memPcell row b)
  | .qCase c t e => do
    if ← memNpred E.doubles row c then memPcell row t else memPcell row e
  | e => .ok ((litValue e).getD .sqlNull)

/-- `maps:from_list`, the last of a name counting. -/
def rowFromList (cells : List (String × SqlValue)) : SqlRow :=
  cells.foldl (fun row c => mergeRow row [c]) []

def memProjectPrefixed (proj : QExpr) (row : SqlRow) : Eval SqlRow :=
  match proj with
  | .qProj cols => rowFromList <$> cols.mapM fun c => do pure (c.1, ← memPcell E row c.2)
  | _ => .ok []

/-! ## Plans -/

/-- The leaves of a left-nested join and the steps that add them. -/
def memFlattenJoin : QueryPlan → List QueryPlan × List JoinStep
  | .planJoin kind left right cond where2 _ _ _ _ _ _ =>
    match left with
    | .planJoin .. =>
      let (leaves, steps) := memFlattenJoin left
      (leaves ++ [right], steps ++ [(kind, cond, where2)])
    | _ => ([left, right], [(kind, cond, where2)])
  | plan => ([plan], [])

def memRefineMatches (tables : Tables) (inner : QueryPlan) (pred : QExpr) (rows : List SqlRow) :
    Eval (List SqlRow) :=
  match inner with
  | .planJoin .. =>
    memFilter (memWhere2Flat E.doubles tables (memFlattenJoin inner).1.length pred) rows
  | _ => memFilter (fun row => memPredStore E.doubles tables row pred) rows

/-- The groups that are kept, by their keys. -/
def memGroupNary (rows : List SqlRow) (keyLeaf : Int) (keyCol : String)
    (cols : List (String × String × QExpr × Int)) (having : QExpr) : Eval (List SqlRow) := do
  let groups ← memGroupNaryBy E.doubles (memAggCol keyLeaf keyCol rows) rows
  let kept ← memFilter (fun g => memHavingNary E.doubles g.1 g.2 having) groups
  let sorted ← E.sorting.sort
    (fun a b => .ok (memOrderCmp E.doubles (some a.1) (some b.1) != .gt)) kept
  sorted.mapM fun g => rowFromList <$> memGroupNaryRow E.doubles cols g.1 g.2

mutual

def memEvalPlan (tables : Tables) : QueryPlan → Eval (List SqlRow)
  | .planScan table pred orders lim off dist => do
    let matched ← memFilter (fun row => memPredStore E.doubles tables row pred)
      (rowsOf table tables)
    pure (memPaginate (memDistinct dist (← memOrder E orders matched)) lim off)
  | .planCombine operation left right => do
    pure (memSetOp operation (← memEvalPlan tables left) (← memEvalPlan tables right))
  | .planRefine inner pred orders lim off dist => do
    let rows ← memEvalPlan tables inner
    let matched ← memRefineMatches E tables inner pred rows
    pure (memPaginate (memDistinct dist (← memOrder E orders matched)) lim off)
  | .planList rows => pure rows
  | .planExists child => do
    match ← memEvalPlan tables child with
    | [] => pure []
    | _ :: _ => pure [[("exists", .sqlInt 1)]]
  | .planJoin kind left right cond where2 orders lim off dist _ _ => do
    match left with
    | .planJoin .. =>
      -- A join of three or more: the rows of the leaves, folded step by step.
      let leafRows ← memLeafRows tables left
      let rightRows ← memEvalPlan tables right
      let flat ← memNaryProduct E tables ((memFlattenJoin left).2 ++ [(kind, cond, where2)])
        (leafRows ++ [rightRows])
      pure (memPaginate (memDistinct dist (← memOrderNary E orders flat)) lim off)
    | _ =>
      let leftRows ← memEvalPlan tables left
      let rightRows ← memEvalPlan tables right
      let pairs ← memJoinPairs E tables cond where2 kind leftRows rightRows
      let ordered ← memOrderPairs E orders pairs
      pure (memPaginate (memDistinct dist (ordered.map memPrefixPair)) lim off)
  | .planProject proj child lim off dist => do
    let rows ← memEvalPlan tables child
    let projected ← rows.mapM (memProjectPrefixed E proj)
    pure (memPaginate (memDistinct dist projected) lim off)
  | .planAggregate func column _ child => do
    let rows ← memEvalPlan tables child
    if func = "COUNT" then pure [[("agg", .sqlInt rows.length)]]
    else
      let v ← memAggValueQ E.doubles func column rows
      pure (if v = .sqlNull then [] else [[("agg", v)]])
  | .planGroup keyCol keyLeaf cols having child => do
    let rows ← memEvalPlan tables child
    memGroupNary E rows keyLeaf keyCol cols having

/-- The rows of the leaves of a join, as `mem_flatten_join` finds them. -/
def memLeafRows (tables : Tables) : QueryPlan → Eval (List (List SqlRow))
  | .planJoin _ left right _ _ _ _ _ _ _ _ => do
    match left with
    | .planJoin .. => pure ((← memLeafRows tables left) ++ [← memEvalPlan tables right])
    | _ => pure [← memEvalPlan tables left, ← memEvalPlan tables right]
  | _ => pure []

end

/-! ## What a plan comes to -/

variable {E} {tables : Tables}

attribute [grind =] memEvalPlan

variable {lim off : Int} {dist : Bool}

theorem memEvalPlan_refine {inner : QueryPlan} {pred : QExpr} {orders : List (Bool × QExpr)} :
    memEvalPlan E tables (.planRefine inner pred orders lim off dist) =
      (fun rows => memPaginate (memDistinct dist rows) lim off) <$>
        (memEvalPlan E tables inner >>= fun rows =>
          memRefineMatches E tables inner pred rows >>= memOrder E orders) := by
  conv_lhs => unfold memEvalPlan
  simp only [map_eq_pure_bind, bind_assoc]

theorem memEvalPlan_combine {operation : String} {left right : QueryPlan} :
    memEvalPlan E tables (.planCombine operation left right) =
      memEvalPlan E tables left >>= fun l =>
        memSetOp operation l <$> memEvalPlan E tables right := by
  conv_lhs => unfold memEvalPlan
  simp only [map_eq_pure_bind]

theorem memEvalPlan_project {proj : QExpr} :
    memEvalPlan E tables (.planProject proj child lim off dist) =
      memEvalPlan E tables child >>= fun rows =>
        (fun out => memPaginate (memDistinct dist out) lim off) <$>
          rows.mapM (memProjectPrefixed E proj) := by
  conv_lhs => unfold memEvalPlan
  simp only [map_eq_pure_bind]

variable {column : QExpr} {leaf : Int}

theorem memEvalPlan_count :
    memEvalPlan E tables (.planAggregate "COUNT" column leaf child) =
      (fun rows => [[("agg", .sqlInt rows.length)]]) <$> memEvalPlan E tables child := by
  conv_lhs => unfold memEvalPlan
  simp only [map_eq_pure_bind, if_true]

theorem memEvalPlan_aggregate {func : String} (hfunc : func ≠ "COUNT") :
    memEvalPlan E tables (.planAggregate func column leaf child) =
      memEvalPlan E tables child >>= fun rows =>
        (fun v => if v = .sqlNull then [] else [[("agg", v)]]) <$>
          memAggValueQ E.doubles func column rows := by
  conv_lhs => unfold memEvalPlan
  simp only [map_eq_pure_bind, if_neg hfunc]

theorem memEvalPlan_group {keyCol : String} {keyLeaf : Int}
    {cols : List (String × String × QExpr × Int)} {having : QExpr} :
    memEvalPlan E tables (.planGroup keyCol keyLeaf cols having child) =
      memEvalPlan E tables child >>= fun rows =>
        memGroupNary E rows keyLeaf keyCol cols having := by
  conv_lhs => unfold memEvalPlan

end Ridge
