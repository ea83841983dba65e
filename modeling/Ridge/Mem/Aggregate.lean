import Ridge.Mem.Value

/-!
# ridge_rt — aggregates and groups

`SUM`, `AVG`, `MIN` and `MAX` over the rows of a plan, the partition of a `GROUP BY` and the
interpreter of a `HAVING` tree (`runtime/ridge_rt.erl`).
-/

namespace Ridge

section

variable (D : Doubles)

/-! ## Folding numbers -/

/-- A number of the runtime. -/
inductive Num where
  | int (n : Int)
  | float (x : Float64)

def Num.toFloat : Num → Eval Float64
  | .int n => orBadarith (D.ofInt n)
  | .float x => .ok x

def Num.add : Num → Num → Eval Num
  | .int a, .int b => .ok (.int (a + b))
  | a, b => do .float <$> orBadarith (D.add (← a.toFloat D) (← b.toFloat D))

/-- `Sum / length(Values)`, of values there are. -/
def Num.divLength (count : Nat) : Num → Eval Float64
  | .int n => orBadarith (D.ratio n count)
  | .float x => do orBadarith (D.div x (← orBadarith (D.ofInt count)))

def decimalTextToFloat (s : String) : Eval Float64 :=
  let d := decimalOfText s
  orBadarith (D.ratio d.unscaled (10 ^ d.scale))

/-- There is a clause for numbers and intervals. -/
def memNum : SqlValue → Eval Num
  | .sqlInt n => .ok (.int n)
  | .sqlFloat x => .ok (.float x)
  | .sqlDecimal s => .float <$> decimalTextToFloat D s
  | .sqlInterval ms => .ok (.int ms)
  | _ => .error .functionClause

variable (values : List SqlValue)

def memNumsum : Eval Num :=
  values.foldlM (fun acc v => do acc.add D (← memNum D v)) (.int 0)

def isDecimalVal : SqlValue → Bool
  | .sqlDecimal _ => true
  | _ => false

def isIntervalVal : SqlValue → Bool
  | .sqlInterval _ => true
  | _ => false

def isFloatVal : SqlValue → Bool
  | .sqlFloat _ => true
  | _ => false

def decimalOfValue : SqlValue → Eval Decimal
  | .sqlDecimal s => .ok (decimalOfText s)
  | .sqlInt n => .ok ⟨n, 0⟩
  | _ => .error .functionClause

def memSumDecimal : Eval SqlValue := do
  let sum ← values.foldlM (fun acc v => do pure (decimalAdd acc (← decimalOfValue v))) ⟨0, 0⟩
  pure (.sqlDecimal (decimalToText sum))

/-- One addend of `mem_sum_interval`, whose only clause is an interval's. -/
def intervalOf : SqlValue → Eval Int
  | .sqlInterval ms => .ok ms
  | _ => .error .functionClause

def memSumInterval : Eval SqlValue := do
  let sum ← values.foldlM (fun acc v => do pure (acc + (← intervalOf v))) (0 : Int)
  pure (.sqlInterval sum)

def memSum : Eval SqlValue :=
  if values.any isDecimalVal then memSumDecimal values
  else if values.any isIntervalVal then memSumInterval values
  else do
    match ← memNumsum D values with
    | .float x => pure (.sqlFloat x)
    | .int n =>
      if values.any isFloatVal then pure (.sqlFloat (← orBadarith (D.ofInt n)))
      else pure (.sqlInt n)

/-! ## MIN and MAX -/

/-- A comparison key of `mem_key`, a term of the runtime. -/
inductive MemKey where
  | num (q : ℚ)
  | bool (b : Bool)
  | list (keys : List MemKey)
  | text (s : String)

mutual

/-- There is no clause for `SqlNull`. -/
def memKey : SqlValue → Eval MemKey
  | .sqlInt n => .ok (.num n)
  | .sqlInstant n => .ok (.num n)
  | .sqlFloat x => .ok (.num (D.value x))
  | .sqlText s => .ok (.text s)
  | .sqlDecimal s => do pure (.num (D.value (← decimalTextToFloat D s)))
  | .sqlUuid s => .ok (.text s)
  | .sqlBytes s => .ok (.text s)
  | .sqlJson s => .ok (.text s)
  | .sqlDate s => .ok (.text s)
  | .sqlTime s => .ok (.text s)
  | .sqlInterval ms => .ok (.num ms)
  | .sqlArray elems => do pure (.list (← memKeys elems))
  | .sqlBool b => .ok (.bool b)
  | .sqlNull => .error .functionClause

def memKeys : List SqlValue → Eval (List MemKey)
  | [] => .ok []
  | v :: vs => do pure ((← memKey v) :: (← memKeys vs))

end

/-- The kinds of terms in the runtime's order. -/
def MemKey.rank : MemKey → Nat
  | .num _ => 0
  | .bool _ => 1
  | .list _ => 2
  | .text _ => 3

mutual

/-- The runtime's order of terms. -/
def termCmp : MemKey → MemKey → Ordering
  | .num a, .num b => if a < b then .lt else if b < a then .gt else .eq
  | .bool a, .bool b => compare a b
  | .text a, .text b => if a < b then .lt else if b < a then .gt else .eq
  | .list as, .list bs => termsCmp as bs
  | a, b => compare a.rank b.rank

def termsCmp : List MemKey → List MemKey → Ordering
  | [], [] => .eq
  | [], _ :: _ => .lt
  | _ :: _, [] => .gt
  | a :: as, b :: bs =>
    match termCmp a b with
    | .eq => termsCmp as bs
    | o => o

end

inductive ExtremeDir where
  | min | max
  deriving DecidableEq

def memBetter : ExtremeDir → MemKey → MemKey → Bool
  | .min, a, b => termCmp a b = .lt
  | .max, a, b => termCmp a b = .gt

/-- `mem_extreme/3`. -/
def memExtreme (dir : ExtremeDir) : List SqlValue → SqlValue → Eval SqlValue
  | [], best => .ok best
  | v :: rest, best => do
    if memBetter dir (← memKey D v) (← memKey D best) then memExtreme dir rest v
    else memExtreme dir rest best

/-! ## An aggregate over rows -/

/-- Nothing to fold is `SqlNull`. -/
def memAgg (func : String) : List SqlValue → Eval SqlValue
  | [] => .ok .sqlNull
  | v :: rest =>
    match func with
    | "SUM" => memSum D (v :: rest)
    | "AVG" => do
      .sqlFloat <$> (← memNumsum D (v :: rest)).divLength D (rest.length + 1)
    | "AVG_INTERVAL" => do
      .sqlFloat <$> (← memNumsum D (v :: rest)).divLength D (rest.length + 1)
    | "MIN" => memExtreme D .min rest v
    | "MAX" => memExtreme D .max rest v
    | _ => .ok .sqlNull

/-- `t`, digits, `$`. -/
def memIsLeafKey (key : String) : Bool :=
  match key.toList with
  | 't' :: rest =>
    match rest.dropWhile Char.isDigit with
    | '$' :: _ => true
    | _ => false
  | _ => false

def memRowsPrefixed (rows : List SqlRow) : Bool := rows.any fun row => row.any fun c => memIsLeafKey c.1

/-- The folded key on each row, where it has a value. -/
def memAggValues (column : QExpr) (rows : List SqlRow) : Eval (List SqlValue) := do
  let eval := if memRowsPrefixed rows then memNscalar D else memScalar D
  let cells ← rows.mapM fun row => eval row column
  pure (cells.filterMap fun cell => cell.filter (· ≠ .sqlNull))

def memAggValueQ (func : String) (column : QExpr) (rows : List SqlRow) : Eval SqlValue := do
  memAgg D func (← memAggValues D column rows)

/-! ## HAVING -/

/-- `mem_agg_q_or_undef`. -/
def memAggQOrUndef (func : String) (column : QExpr) (rows : List SqlRow) :
    Eval (Option SqlValue) := do
  let v ← memAggValueQ D func column rows
  pure (if v = .sqlNull then none else some v)

def memHscalarNary (key : SqlValue) (rows : List SqlRow) : QExpr → Eval (Option SqlValue)
  | .qGroupKey => .ok (some key)
  | .qAggCount => .ok (some (.sqlInt rows.length))
  | .qAggSum node => memAggQOrUndef D "SUM" node rows
  | .qAggAvg node => memAggQOrUndef D "AVG" node rows
  | .qAggAvgInterval node => memAggQOrUndef D "AVG_INTERVAL" node rows
  | .qAggMin node => memAggQOrUndef D "MIN" node rows
  | .qAggMax node => memAggQOrUndef D "MAX" node rows
  | e => .ok (litValue e)

def memHrelateNary (cmp : SqlValue → SqlValue → Bool) (key : SqlValue) (rows : List SqlRow)
    (l r : QExpr) : Eval Bool := do
  pure (relate cmp (← memHscalarNary D key rows l) (← memHscalarNary D key rows r))

/-- A node it has no clause for keeps the group. -/
def memHavingNary (key : SqlValue) (rows : List SqlRow) : QExpr → Eval Bool
  | .qLitBool true => .ok true
  | .qAnd a b => do
    if ← memHavingNary key rows a then memHavingNary key rows b else pure false
  | .qOr a b => do
    if ← memHavingNary key rows a then pure true else memHavingNary key rows b
  | .qNot x => do pure !(← memHavingNary key rows x)
  | .qEq a b => memHrelateNary D memSqlEq key rows a b
  | .qNe a b => do pure !(← memHrelateNary D memSqlEq key rows a b)
  | .qLt a b => memHrelateNary D (memSqlLt D) key rows a b
  | .qGt a b => memHrelateNary D (memSqlLt D) key rows b a
  | .qLe a b => do pure !(← memHrelateNary D (memSqlLt D) key rows b a)
  | .qGe a b => do pure !(← memHrelateNary D (memSqlLt D) key rows a b)
  | _ => .ok true

/-! ## Groups -/

/-- The prefixed name, if a row has it. -/
def memAggCol (leaf : Int) (column : String) (rows : List SqlRow) : String :=
  let prefixed := memLeafPrefix leaf ++ column
  if rows.any fun row => row.any fun c => c.1 = prefixed then prefixed else column

mutual

/-- `==` of two values: two zeros are equal numbers and not the same term. -/
def termEq : SqlValue → SqlValue → Bool
  | .sqlFloat x, .sqlFloat y => D.value x = D.value y
  | .sqlArray as, .sqlArray bs => termsEq as bs
  | a, b => a = b

def termsEq : List SqlValue → List SqlValue → Bool
  | [], [] => true
  | a :: as, b :: bs => termEq a b && termsEq as bs
  | _, _ => false

end

/-- A group's rows grow by one, or a new group opens. `lists:keyfind` looks for a key by `==`, and
there is no clause for one that is not the same term. -/
def addToGroup (key : SqlValue) (row : SqlRow) :
    List (SqlValue × List SqlRow) → Eval (List (SqlValue × List SqlRow))
  | [] => .ok [(key, [row])]
  | (k, rows) :: groups =>
    if termEq D k key then
      if k = key then .ok ((k, rows ++ [row]) :: groups) else .error .caseClause
    else do pure ((k, rows) :: (← addToGroup key row groups))

/-- Groups in the order they are first seen. -/
def memGroupNaryBy (keyName : String) (rows : List SqlRow) :
    Eval (List (SqlValue × List SqlRow)) :=
  rows.foldlM (fun groups row => addToGroup D (cellOf keyName row) row groups) []

def memGroupNaryValue (func : String) (column : QExpr) (key : SqlValue) (rows : List SqlRow) :
    Eval SqlValue :=
  match func with
  | "KEY" => .ok key
  | "COUNT" => .ok (.sqlInt rows.length)
  | _ => memAggValueQ D func column rows

def memGroupNaryRow (cols : List (String × String × QExpr × Int)) (key : SqlValue)
    (rows : List SqlRow) : Eval SqlRow :=
  cols.mapM fun (name, func, column, _) => do
    pure (name, ← memGroupNaryValue D func column key rows)

end

end Ridge
