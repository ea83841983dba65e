import Ridge.Lib.Kleene
import Ridge.Mem.Value

/-!
# std.query — the truth of a captured tree

How SQL reads the text a captured tree renders to: three truth values, a comparison with NULL is
UNKNOWN, a clause keeps what is TRUE. A scope gives each leaf of the query its row, a side that an
outer join left unmatched the empty one; a cell that is not there and a cell that holds `SqlNull`
are both NULL. Values compare by what they are worth: decimals and floats as numbers, arrays element
by element.
-/

namespace Ridge

open Kleene (Truth)

/-! ## Values -/

def Decimal.value (d : Decimal) : ℚ := d.unscaled / 10 ^ d.scale

section

variable (D : Doubles)

mutual

/-- `a = b` of two values there are. -/
def valueEq : SqlValue → SqlValue → Bool
  | .sqlDecimal x, .sqlDecimal y => (decimalOfText x).value = (decimalOfText y).value
  | .sqlFloat x, .sqlFloat y => D.value x = D.value y
  | .sqlArray as, .sqlArray bs => valuesEq as bs
  | a, b => a = b

def valuesEq : List SqlValue → List SqlValue → Bool
  | [], [] => true
  | a :: as, b :: bs => valueEq a b && valuesEq as bs
  | _, _ => false

end

mutual

/-- `a < b` of two values there are; in an array NULL comes last. -/
def valueLt : SqlValue → SqlValue → Bool
  | .sqlInt x, .sqlInt y => x < y
  | .sqlText x, .sqlText y => x < y
  | .sqlBool x, .sqlBool y => !x && y
  | .sqlFloat x, .sqlFloat y => D.value x < D.value y
  | .sqlInstant x, .sqlInstant y => x < y
  | .sqlDecimal x, .sqlDecimal y => (decimalOfText x).value < (decimalOfText y).value
  | .sqlUuid x, .sqlUuid y => x < y
  | .sqlBytes x, .sqlBytes y => x < y
  | .sqlJson x, .sqlJson y => x < y
  | .sqlDate x, .sqlDate y => x < y
  | .sqlTime x, .sqlTime y => x < y
  | .sqlInterval x, .sqlInterval y => x < y
  | .sqlArray as, .sqlArray bs => valuesLt as bs
  | .sqlNull, _ => false
  | _, .sqlNull => true
  | _, _ => false

def valuesLt : List SqlValue → List SqlValue → Bool
  | [], _ :: _ => true
  | a :: as, b :: bs => valueLt a b || (valueEq D a b && valuesLt as bs)
  | _, _ => false

end

def present : Option SqlValue → Option SqlValue
  | some .sqlNull => none
  | v => v

/-- A comparison, UNKNOWN where an operand is NULL. -/
def sqlRelate (cmp : SqlValue → SqlValue → Bool) (a b : Option SqlValue) : Truth :=
  match present a, present b with
  | some a, some b => some (cmp a b)
  | _, _ => none

def sqlEq (a b : Option SqlValue) : Truth := sqlRelate (valueEq D) a b

def sqlLt (a b : Option SqlValue) : Truth := sqlRelate (valueLt D) a b

def sqlBoolean (v : Option SqlValue) : Truth :=
  match present v with
  | some (.sqlBool b) => some b
  | some _ => some false
  | none => none

def sqlLike (v p : Option SqlValue) : Truth :=
  sqlRelate (fun
    | .sqlText s, .sqlText p => textLike s p
    | _, _ => false) v p

/-- The disjunction of the equations. -/
def sqlIn (v : Option SqlValue) (items : List (Option SqlValue)) : Truth :=
  Kleene.any (items.map (sqlEq D v))

def floatResult : ArithOp → Float64 → Float64 → Option Float64
  | .add, x, y => D.add x y
  | .sub, x, y => D.sub x y
  | .mul, x, y => D.mul x y
  | .div, x, y => if D.value y = 0 then none else D.div x y
  | .mod, _, _ => none

/-- NULL where an operand is NULL; a quotient by zero has no value. -/
def sqlArith (op : ArithOp) (a b : Option SqlValue) : Option SqlValue :=
  match a, b with
  | some (.sqlInt x), some (.sqlInt y) => (intArith op x y).map .sqlInt
  | some (.sqlFloat x), some (.sqlFloat y) => (floatResult D op x y).map .sqlFloat
  | _, _ => none

end

/-! ## Trees -/

/-- Each leaf's row. -/
abbrev Scope := Int → SqlRow

section

variable (D : Doubles) (tables : Tables)

mutual

/-- An operand's value, with `n` leaves in scope. -/
def sqlScalar (n : Nat) (s : Scope) : QExpr → Option SqlValue
  | .qCol c => rowFind (s 0) c
  | .qColR c => rowFind (s 1) c
  | .qColAt leaf c => rowFind (s leaf) c
  | .qAdd a b => sqlArith D .add (sqlScalar n s a) (sqlScalar n s b)
  | .qSub a b => sqlArith D .sub (sqlScalar n s a) (sqlScalar n s b)
  | .qMul a b => sqlArith D .mul (sqlScalar n s a) (sqlScalar n s b)
  | .qDiv a b => sqlArith D .div (sqlScalar n s a) (sqlScalar n s b)
  | .qMod a b => sqlArith D .mod (sqlScalar n s a) (sqlScalar n s b)
  | .qCase c t e =>
    if Kleene.holds (sqlPred n s c) then sqlScalar n s t else sqlScalar n s e
  | e => litValue e

/-- The truth of a predicate; an `EXISTS` is about the next leaf. -/
def sqlPred (n : Nat) (s : Scope) : QExpr → Truth
  | .qAnd a b => Kleene.and (sqlPred n s a) (sqlPred n s b)
  | .qOr a b => Kleene.or (sqlPred n s a) (sqlPred n s b)
  | .qNot x => Kleene.not (sqlPred n s x)
  | .qNotTrue x => some !Kleene.holds (sqlPred n s x)
  | .qEq a b => sqlEq D (sqlScalar n s a) (sqlScalar n s b)
  | .qNe a b => Kleene.not (sqlEq D (sqlScalar n s a) (sqlScalar n s b))
  | .qLt a b => sqlLt D (sqlScalar n s a) (sqlScalar n s b)
  | .qGt a b => sqlLt D (sqlScalar n s b) (sqlScalar n s a)
  -- The orders are total: `a <= b` is that `b < a` does not hold.
  | .qLe a b => Kleene.not (sqlLt D (sqlScalar n s b) (sqlScalar n s a))
  | .qGe a b => Kleene.not (sqlLt D (sqlScalar n s a) (sqlScalar n s b))
  | .qLike v p => sqlLike (sqlScalar n s v) (sqlScalar n s p)
  | .qIn v items => sqlIn D (sqlScalar n s v) (sqlScalars n s items)
  | .qCol c => sqlBoolean (rowFind (s 0) c)
  | .qColR c => sqlBoolean (rowFind (s 1) c)
  | .qColAt leaf c => sqlBoolean (rowFind (s leaf) c)
  | .qCase c t e => if Kleene.holds (sqlPred n s c) then sqlPred n s t else sqlPred n s e
  | .qExists table corr =>
    some ((rowsOf table tables).any fun inner =>
      Kleene.holds (sqlPred (n + 1) (Function.update s n inner) corr))
  | e => sqlBoolean (litValue e)

def sqlScalars (n : Nat) (s : Scope) : List QExpr → List (Option SqlValue)
  | [] => []
  | e :: es => sqlScalar n s e :: sqlScalars n s es

end

/-- The truth of a `HAVING` tree over the group's values. -/
def sqlHaving (value : QExpr → Option SqlValue) : QExpr → Truth
  | .qAnd a b => Kleene.and (sqlHaving value a) (sqlHaving value b)
  | .qOr a b => Kleene.or (sqlHaving value a) (sqlHaving value b)
  | .qNot x => Kleene.not (sqlHaving value x)
  | .qEq a b => sqlEq D (value a) (value b)
  | .qNe a b => Kleene.not (sqlEq D (value a) (value b))
  | .qLt a b => sqlLt D (value a) (value b)
  | .qGt a b => sqlLt D (value b) (value a)
  | .qLe a b => Kleene.not (sqlLt D (value b) (value a))
  | .qGe a b => Kleene.not (sqlLt D (value a) (value b))
  | e => sqlBoolean (value e)

end

end Ridge
