import Mathlib.Data.Rat.Floor
import Ridge.Store.Keeper

/-!
# ridge_rt — values in the in-memory store

Comparison, arithmetic and folding of `SqlValue`s as the store's interpreters do them
(`runtime/ridge_rt.erl`). An evaluation can raise, which ends the keeper's process: `Eval` carries
the reason. The arithmetic of doubles is the runtime system's own, a parameter here; it raises where
a result is out of range.
-/

namespace Ridge

/-- What an evaluation in the keeper's process may raise. -/
inductive Crash where
  | badarith
  | caseClause
  | functionClause
  | existsRequiresStore
  deriving DecidableEq

abbrev Eval := Except Crash

/-- The doubles of the runtime system: what one is worth, and its arithmetic, `none` where the
runtime raises `badarith`. -/
structure Doubles where
  value : Float64 → ℚ
  add : Float64 → Float64 → Option Float64
  sub : Float64 → Float64 → Option Float64
  mul : Float64 → Float64 → Option Float64
  div : Float64 → Float64 → Option Float64
  ofInt : Int → Option Float64
  ratio : Int → Int → Option Float64

/-- The result of an arithmetic operator, or `badarith`. -/
def orBadarith {α : Type} : Option α → Eval α
  | some x => .ok x
  | none => .error .badarith

variable {α β : Type}

variable {x : Eval α}

theorem eval_bind_eq_ok {f : α → Eval β} {b : β} :
    x >>= f = .ok b ↔ ∃ a, x = .ok a ∧ f a = .ok b := by
  cases x with
  | error c => exact ⟨fun h => (nomatch h), fun ⟨_, h, _⟩ => (nomatch h)⟩
  | ok a => exact ⟨fun h => ⟨a, rfl, h⟩, fun ⟨a', ha, h⟩ => by cases ha; exact h⟩

theorem eval_map_eq_ok {f : α → β} {b : β} : f <$> x = .ok b ↔ ∃ a, x = .ok a ∧ f a = b := by
  cases x with
  | error c => exact ⟨fun h => (nomatch h), fun ⟨_, h, _⟩ => (nomatch h)⟩
  | ok a =>
    refine ⟨fun h => ⟨a, rfl, ?_⟩, fun ⟨a', ha, h⟩ => ?_⟩
    · exact Except.ok.inj h
    · cases ha
      exact congrArg Except.ok h

instance : DecidableEq SqlValue := fun _ _ => decidable_of_iff _ sameValue_iff

/-! ## Decimals -/

/-- `{decimal, Unscaled, Scale}`. -/
structure Decimal where
  unscaled : Int
  scale : Nat
  deriving DecidableEq

def digitsValue (ds : List Char) : Nat :=
  ds.foldl (fun acc c => 10 * acc + (c.toNat - '0'.toNat)) 0

def decimalSign : List Char → Int × List Char
  | '-' :: r => (-1, r)
  | '+' :: r => (1, r)
  | r => (1, r)

def decimalDigits (s : List Char) : List Char × List Char := s.span Char.isDigit

/-- An exponent without digits is left unconsumed. -/
def decimalExponent : List Char → Int × List Char
  | c :: r =>
    if c = 'e' ∨ c = 'E' then
      let (sign, r₁) := decimalSign r
      match decimalDigits r₁ with
      | ([], _) => (0, c :: r)
      | (ds, r₂) => (sign * digitsValue ds, r₂)
    else (0, c :: r)
  | [] => (0, [])

def decimalNormalize (u scale : Int) : Decimal :=
  if scale < 0 then ⟨u * 10 ^ (-scale).toNat, 0⟩ else ⟨u, scale.toNat⟩

def decimalParse (s : List Char) : Option Decimal :=
  let (sign, r₁) := decimalSign s
  let (intDigits, r₂) := decimalDigits r₁
  let (fracDigits, r₃) :=
    match r₂ with
    | '.' :: afterDot => decimalDigits afterDot
    | _ => ([], r₂)
  let (exp, r₄) := decimalExponent r₃
  let allDigits := intDigits ++ fracDigits
  if r₄ = [] ∧ allDigits ≠ [] then
    some (decimalNormalize (sign * digitsValue allDigits) (fracDigits.length - exp))
  else none

/-- Malformed text is zero. -/
def decimalOfText (s : String) : Decimal := (decimalParse s.toList).getD ⟨0, 0⟩

def decimalToText (d : Decimal) : String :=
  if d.scale = 0 then toString d.unscaled
  else
    let digits := toString d.unscaled.natAbs
    let padded := (List.replicate (d.scale + 1 - digits.length) '0') ++ digits.toList
    let cut := padded.length - d.scale
    (if d.unscaled < 0 then "-" else "") ++
      String.ofList (padded.take cut) ++ "." ++ String.ofList (padded.drop cut)

/-- The two unscaled values at the larger of the scales. -/
def decimalAlign (a b : Decimal) : Int × Int :=
  let s := max a.scale b.scale
  (a.unscaled * 10 ^ (s - a.scale), b.unscaled * 10 ^ (s - b.scale))

def decimalAdd (a b : Decimal) : Decimal :=
  let (x, y) := decimalAlign a b
  ⟨x + y, max a.scale b.scale⟩

def decimalTextEq (x y : String) : Bool :=
  let (a, b) := decimalAlign (decimalOfText x) (decimalOfText y)
  a = b

def decimalTextLt (x y : String) : Bool :=
  let (a, b) := decimalAlign (decimalOfText x) (decimalOfText y)
  a < b

/-! ## Comparing -/

section

variable (D : Doubles)

/-- `mem_sql_cmp(eq, A, B)`. -/
def memSqlEq : SqlValue → SqlValue → Bool
  | .sqlDecimal x, .sqlDecimal y => decimalTextEq x y
  | a, b => a = b

/-- `mem_sql_cmp(lt, A, B)`: the ordered kinds, anything else is `false`. -/
def memSqlLt : SqlValue → SqlValue → Bool
  | .sqlInt x, .sqlInt y => x < y
  | .sqlText x, .sqlText y => x < y
  | .sqlFloat x, .sqlFloat y => D.value x < D.value y
  | .sqlInstant x, .sqlInstant y => x < y
  | .sqlDecimal x, .sqlDecimal y => decimalTextLt x y
  | .sqlUuid x, .sqlUuid y => x < y
  | .sqlBytes x, .sqlBytes y => x < y
  | .sqlJson x, .sqlJson y => x < y
  | .sqlDate x, .sqlDate y => x < y
  | .sqlTime x, .sqlTime y => x < y
  | .sqlInterval x, .sqlInterval y => x < y
  | _, _ => false

def memTruthy : SqlValue → Bool
  | .sqlBool b => b
  | _ => false

/-- What does not compare counts as equal. `none` is a cell that is not there. -/
def memOrderCmp : Option SqlValue → Option SqlValue → Ordering
  | some a, some b => if memSqlLt D a b then .lt else if memSqlLt D b a then .gt else .eq
  | _, _ => .eq

/-! ## LIKE and IN -/

mutual

/-- Subject, then pattern. -/
def rtLikeMatch : List Char → List Char → Bool
  | [], [] => true
  | s, '%' :: pRest => rtLikePct pRest s
  | c :: sRest, '\\' :: pc :: pRest => c = pc && rtLikeMatch sRest pRest
  | [], '\\' :: _ :: _ => false
  | _ :: sRest, '_' :: pRest => rtLikeMatch sRest pRest
  | c :: sRest, pc :: pRest => c = pc && rtLikeMatch sRest pRest
  | _, _ => false
termination_by s p => (p.length, s.length)

/-- The rest of the pattern at some suffix. -/
def rtLikePct (pRest : List Char) : List Char → Bool
  | [] => rtLikeMatch [] pRest
  | c :: sRest => rtLikeMatch (c :: sRest) pRest || rtLikePct pRest sRest
termination_by s => (pRest.length, s.length + 1)

end

def textLike (s p : String) : Bool := rtLikeMatch s.toList p.toList

def memLikePred : Option SqlValue → Option SqlValue → Bool
  | some (.sqlText s), some (.sqlText p) => textLike s p
  | _, _ => false

def memInPred (v : Option SqlValue) (items : List (Option SqlValue)) : Bool :=
  match v with
  | none | some .sqlNull => false
  | some v => items.any fun i => i = some v

/-! ## Arithmetic -/

inductive ArithOp where
  | add | sub | mul | div | mod
  deriving DecidableEq

def intArith : ArithOp → Int → Int → Option Int
  | .add, a, b => some (a + b)
  | .sub, a, b => some (a - b)
  | .mul, a, b => some (a * b)
  | .div, a, b => if b = 0 then none else some (a.tdiv b)
  | .mod, a, b => if b = 0 then none else some (a.tmod b)

/-- A zero divisor is no value, a result out of range raises. -/
def floatArith : ArithOp → Float64 → Float64 → Eval (Option Float64)
  | .add, a, b => some <$> orBadarith (D.add a b)
  | .sub, a, b => some <$> orBadarith (D.sub a b)
  | .mul, a, b => some <$> orBadarith (D.mul a b)
  | .div, a, b => if D.value b = 0 then .ok none else some <$> orBadarith (D.div a b)
  | .mod, _, _ => .ok none

def memArithApply (op : ArithOp) : Option SqlValue → Option SqlValue → Eval (Option SqlValue)
  | some (.sqlInt a), some (.sqlInt b) => .ok ((intArith op a b).map .sqlInt)
  | some (.sqlFloat a), some (.sqlFloat b) => (Option.map .sqlFloat) <$> floatArith D op a b
  | _, _ => .ok none

end

/-!
## ridge_rt — the interpreters of captured trees

`mem_pred`, `mem_jpred` and `mem_npred` with their `mem_scalar`, `mem_jscalar` and `mem_nscalar`
(`runtime/ridge_rt.erl`) walk the same tree and differ in where a column is read and in what an
`EXISTS` comes to: `Cells` is that difference. `mem_pred` of a store and `mem_corr` go down the
connectives as far as an `EXISTS` and hand everything else to the others.
-/

open Bool

/-- Where an interpreter reads columns, and what it answers to an `EXISTS`. -/
structure Cells where
  col : String → Option SqlValue
  colR : String → Option SqlValue
  colAt : Int → String → Option SqlValue
  exists' : Eval Bool

section

variable (D : Doubles)

/-- `mem_relate` and its duals: an operand without a value fails the comparison. -/
def relate (cmp : SqlValue → SqlValue → Bool) : Option SqlValue → Option SqlValue → Bool
  | some a, some b => cmp a b
  | _, _ => false

mutual

/-- An operand's value; `none` is `undefined`. -/
def scalarWith (c : Cells) : QExpr → Eval (Option SqlValue)
  | .qCol name => .ok (c.col name)
  | .qColR name => .ok (c.colR name)
  | .qColAt leaf name => .ok (c.colAt leaf name)
  | .qAdd a b => do memArithApply D .add (← scalarWith c a) (← scalarWith c b)
  | .qSub a b => do memArithApply D .sub (← scalarWith c a) (← scalarWith c b)
  | .qMul a b => do memArithApply D .mul (← scalarWith c a) (← scalarWith c b)
  | .qDiv a b => do memArithApply D .div (← scalarWith c a) (← scalarWith c b)
  | .qMod a b => do memArithApply D .mod (← scalarWith c a) (← scalarWith c b)
  | .qCase cond t e => do if ← predWith c cond then scalarWith c t else scalarWith c e
  | e => .ok (litValue e)

/-- Whether a row satisfies the tree. -/
def predWith (c : Cells) : QExpr → Eval Bool
  | .qAnd a b => do if ← predWith c a then predWith c b else pure false
  | .qOr a b => do if ← predWith c a then pure true else predWith c b
  | .qNot x => do pure !(← predWith c x)
  | .qNotTrue x => do pure !(← predWith c x)
  | .qEq a b => do pure (relate memSqlEq (← scalarWith c a) (← scalarWith c b))
  | .qNe a b => do pure !(relate memSqlEq (← scalarWith c a) (← scalarWith c b))
  | .qLt a b => do pure (relate (memSqlLt D) (← scalarWith c a) (← scalarWith c b))
  | .qGt a b => do pure (relate (memSqlLt D) (← scalarWith c b) (← scalarWith c a))
  | .qLe a b => do pure !(relate (memSqlLt D) (← scalarWith c b) (← scalarWith c a))
  | .qGe a b => do pure !(relate (memSqlLt D) (← scalarWith c a) (← scalarWith c b))
  | .qLike v p => do pure (memLikePred (← scalarWith c v) (← scalarWith c p))
  | .qIn v items => do pure (memInPred (← scalarWith c v) (← scalarsWith c items))
  | .qCol name => .ok (memTruthy ((c.col name).getD .sqlNull))
  | .qColR name => .ok (memTruthy ((c.colR name).getD .sqlNull))
  | .qColAt leaf name => .ok (memTruthy ((c.colAt leaf name).getD .sqlNull))
  | .qLitBool b => .ok b
  | .qCase cond t e => do if ← predWith c cond then predWith c t else predWith c e
  | .qExists _ _ => c.exists'
  | _ => .ok false

def scalarsWith (c : Cells) : List QExpr → Eval (List (Option SqlValue))
  | [] => pure []
  | e :: es => do pure ((← scalarWith c e) :: (← scalarsWith c es))

end

/-! ## The three interpreters -/

variable (row : SqlRow)

/-- `maps:find(Column, Row)`. -/
def rowFind (column : String) : Option SqlValue :=
  (row.find? fun c => c.1 = column).map Prod.snd

/-- One table's row; an `EXISTS` needs the store, which is not at hand. -/
def bareCells : Cells where
  col := rowFind row
  colR := fun _ => none
  colAt := fun _ _ => none
  exists' := .error .existsRequiresStore

def memScalar (e : QExpr) : Eval (Option SqlValue) := scalarWith D (bareCells row) e

/-- `mem_pred/2`. -/
def memPred (e : QExpr) : Eval Bool := predWith D (bareCells row) e

/-- The two rows of a join condition. -/
def pairCells (l r : SqlRow) : Cells where
  col := rowFind l
  colR := rowFind r
  colAt := fun _ _ => none
  exists' := .ok false

def memJscalar (l r : SqlRow) (e : QExpr) : Eval (Option SqlValue) :=
  scalarWith D (pairCells l r) e

def memJpred (l r : SqlRow) (e : QExpr) : Eval Bool := predWith D (pairCells l r) e

def memLeafPrefix (leaf : Int) : String := "t" ++ toString leaf ++ "$"

/-- Under the prefix of leaf 0, or bare. -/
def memLeftCell (column : String) : Option SqlValue :=
  match rowFind row (memLeafPrefix 0 ++ column) with
  | none => rowFind row column
  | some v => some v

/-- A join's flat row, each leaf's columns under its prefix. -/
def flatCells : Cells where
  col := memLeftCell row
  colR := fun c => rowFind row (memLeafPrefix 1 ++ c)
  colAt := fun leaf c => rowFind row (memLeafPrefix leaf ++ c)
  exists' := .ok false

def memNscalar (e : QExpr) : Eval (Option SqlValue) := scalarWith D (flatCells row) e

def memNpred (e : QExpr) : Eval Bool := predWith D (flatCells row) e

/-! ## With the store -/

def memPrefixKeys (pre : String) (row : SqlRow) : SqlRow := row.map fun c => (pre ++ c.1, c.2)

/-- `lists:any` of a test that may raise. -/
def anyEval {α : Type} (test : α → Eval Bool) : List α → Eval Bool
  | [] => pure false
  | x :: xs => do if ← test x then pure true else anyEval test xs

/-- A probe's inner row joins the flat row under the next leaf's prefix. -/
def memCorr (tables : Tables) (nextLeaf : Nat) : QExpr → SqlRow → Eval Bool
  | .qAnd a b, row => do
    if ← memCorr tables nextLeaf a row then memCorr tables nextLeaf b row else pure false
  | .qOr a b, row => do
    if ← memCorr tables nextLeaf a row then pure true else memCorr tables nextLeaf b row
  | .qNot x, row => do pure !(← memCorr tables nextLeaf x row)
  | .qNotTrue x, row => do pure !(← memCorr tables nextLeaf x row)
  | .qCase c t e, row => do
    if ← memCorr tables nextLeaf c row then memCorr tables nextLeaf t row
    else memCorr tables nextLeaf e row
  | .qExists table corr, row =>
    anyEval (fun inner => memCorr tables (nextLeaf + 1) corr
      (mergeRow row (memPrefixKeys (memLeafPrefix nextLeaf) inner))) (rowsOf table tables)
  | e, row => memNpred D row e

/-- `mem_pred/4`: one table's row is leaf 0 of its probes. -/
def memPredStore (tables : Tables) (row : SqlRow) : QExpr → Eval Bool
  | .qAnd a b => do if ← memPredStore tables row a then memPredStore tables row b else pure false
  | .qOr a b => do if ← memPredStore tables row a then pure true else memPredStore tables row b
  | .qNot x => do pure !(← memPredStore tables row x)
  | .qNotTrue x => do pure !(← memPredStore tables row x)
  | .qCase c t e => do
    if ← memPredStore tables row c then memPredStore tables row t else memPredStore tables row e
  | .qExists table corr =>
    memCorr D tables 1 (.qExists table corr) (memPrefixKeys (memLeafPrefix 0) row)
  | e => memPred D row e

def memHasExists : QExpr → Bool
  | .qExists _ _ => true
  | .qAnd a b => memHasExists a || memHasExists b
  | .qOr a b => memHasExists a || memHasExists b
  | .qNot x => memHasExists x
  | .qNotTrue x => memHasExists x
  | .qCase c t e => memHasExists c || memHasExists t || memHasExists e
  | _ => false

/-- `mem_where2_pair`. -/
def memWhere2Pair (tables : Tables) (where2 : QExpr) (l r : SqlRow) : Eval Bool :=
  if memHasExists where2 then
    memCorr D tables 2 where2
      (mergeRow (memPrefixKeys (memLeafPrefix 0) l) (memPrefixKeys (memLeafPrefix 1) r))
  else memJpred D l r where2

/-- `mem_where2_flat`. -/
def memWhere2Flat (tables : Tables) (nextLeaf : Nat) (where2 : QExpr) (row : SqlRow) : Eval Bool :=
  if memHasExists where2 then memCorr D tables nextLeaf where2 row else memNpred D row where2

end

/-! ## Trees without a probe -/

section

variable {D : Doubles} {tables : Tables}

/-- Without an `EXISTS` the store is not looked at. -/
theorem memPredStore_eq_memPred {row : SqlRow} {e : QExpr} (h : memHasExists e = false) :
    memPredStore D tables row e = memPred D row e := by
  cases e with
  | qAnd a b | qOr a b =>
    unfold memHasExists at h
    obtain ⟨ha, hb⟩ := or_eq_false_iff.mp h
    unfold memPredStore
    rw [memPredStore_eq_memPred ha, memPredStore_eq_memPred hb]
    conv_rhs => unfold memPred predWith
    rfl
  | qNot x | qNotTrue x =>
    unfold memHasExists at h
    unfold memPredStore
    rw [memPredStore_eq_memPred h]
    conv_rhs => unfold memPred predWith
    rfl
  | qCase c t e =>
    unfold memHasExists at h
    obtain ⟨h, he⟩ := or_eq_false_iff.mp h
    obtain ⟨hc, ht⟩ := or_eq_false_iff.mp h
    unfold memPredStore
    rw [memPredStore_eq_memPred hc, memPredStore_eq_memPred ht, memPredStore_eq_memPred he]
    conv_rhs => unfold memPred predWith
    rfl
  | qExists => cases h
  | _ => rfl

theorem memCorr_eq_memNpred {n : Nat} {row : SqlRow} {e : QExpr} (h : memHasExists e = false) :
    memCorr D tables n e row = memNpred D row e := by
  cases e with
  | qAnd a b | qOr a b =>
    unfold memHasExists at h
    obtain ⟨ha, hb⟩ := or_eq_false_iff.mp h
    unfold memCorr
    rw [memCorr_eq_memNpred ha, memCorr_eq_memNpred hb]
    conv_rhs => unfold memNpred predWith
    rfl
  | qNot x | qNotTrue x =>
    unfold memHasExists at h
    unfold memCorr
    rw [memCorr_eq_memNpred h]
    conv_rhs => unfold memNpred predWith
    rfl
  | qCase c t e =>
    unfold memHasExists at h
    obtain ⟨h, he⟩ := or_eq_false_iff.mp h
    obtain ⟨hc, ht⟩ := or_eq_false_iff.mp h
    unfold memCorr
    rw [memCorr_eq_memNpred hc, memCorr_eq_memNpred ht, memCorr_eq_memNpred he]
    conv_rhs => unfold memNpred predWith
    rfl
  | qExists => cases h
  | _ => rfl

end

end Ridge
