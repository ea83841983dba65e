import Ridge.Syntax.Ast
import Ridge.Types.Ty
import Ridge.CoreErlang.Rules

/-!
# Which operation an operator becomes

The operators that compute: `+ - * / % **`, `++` and the unary `-`. The checker decides which
operand types it accepts (`infer_binary` and the unary arm of `infer_expr`,
`ridge-typecheck/src/infer.rs`); lowering picks a function of the standard library from the
types the checker recorded, with guesses from the shape of the operands where it recorded none
(`ridge-lower/src/operators.rs`).

The operands of a binary operator have been unified when the arms below look at them, so one
type stands for both.
-/

namespace Ridge

/-- The type constructors the operators are about, out of `BuiltinTyCons`. -/
structure OperandTyCons where
  int : TyConId
  float : TyConId
  text : TyConId
  list : TyConId
  distinct : [int, float, text, list].Nodup

/-- The binary operators whose operands are numbers, texts or lists. -/
inductive CalcOp where
  | add | sub | mul | div | mod | pow | concat
  deriving DecidableEq

/-- An operator at work on its operands. -/
inductive OperatorExpr where
  | binary (op : CalcOp) (lhs rhs : Expr)
  | neg (expr : Expr)

/-- Where an operator stands. -/
inductive OperatorPlace where
  | function | lambda | guard | stateDefault | handler | instanceMethod | constant
  deriving DecidableEq

/-- The checker infers the expressions of a place. It has no arm for the default of a state
field (`ActorMember::State`). -/
def OperatorPlace.inferred : OperatorPlace → Bool
  | .stateDefault => false
  | _ => true

section

variable (B : OperandTyCons)

/-! ## What the checker accepts -/

/-- The errors of the two arms. -/
inductive OperandError where
  | arithmeticOnNonNumeric (op : String) (found : Ty)
  | typeMismatch (expected found : Ty)

/-- The spelling of an operator in `ArithmeticOnNonNumeric`. -/
def CalcOp.symbol : CalcOp → String
  | .add => "+"
  | .sub => "-"
  | .mul => "*"
  | .div => "/"
  | .mod => "%"
  | .pow => "**"
  | .concat => "?"

/-- `infer_binary`, once both operands have the type `ty`: a concrete constructor has to be a
number for the arithmetic operators, and nothing is asked of the operands of `++`. -/
def inferBinary (op : CalcOp) (ty : Ty) : Except OperandError Ty :=
  match op with
  | .concat => .ok ty
  | op =>
    match ty with
    | .con id _ =>
      if id ≠ B.int ∧ id ≠ B.float then .error (.arithmeticOnNonNumeric op.symbol ty)
      else .ok ty
    | ty => .ok ty

/-- The unary arm of `infer_expr`: a `Float` stays, anything else has to unify with `Int`. -/
def inferNeg (ty : Ty) : Except OperandError Ty :=
  match ty with
  | .con id args =>
    if id = B.float then .ok ty
    else if id = B.int ∧ args = [] then .ok (.con B.int [])
    else .error (.typeMismatch ty (.con B.int []))
  | .var _ => .ok (.con B.int [])
  | .error => .ok (.con B.int [])
  | ty => .error (.typeMismatch ty (.con B.int []))

def inferOperator (e : OperatorExpr) (ty : Ty) : Except OperandError Ty :=
  match e with
  | .binary op _ _ => inferBinary B op ty
  | .neg _ => inferNeg B ty

/-! ## What lowering selects -/

/-- `resolve_lhs_type`: the type recorded for an operand, or `Type::Error`. -/
def recordedType (place : OperatorPlace) (ty : Ty) : Ty :=
  if place.inferred then ty else .error

/-- `is_float`. -/
def isFloatTy : Ty → Bool
  | .con id _ => id = B.float
  | _ => false

/-- `is_list`. -/
def isListTy : Ty → Bool
  | .con id _ => id = B.list
  | _ => false

mutual

/-- The expression has the shape of one that yields a `Float`. -/
def looksLikeFloat : Expr → Bool
  | .literal (.float _ _) => true
  | .paren inner _ => looksLikeFloat inner
  | .unary _ inner _ => looksLikeFloat inner
  | .binary _ lhs rhs _ => looksLikeFloat lhs || looksLikeFloat rhs
  | .call (.qualified q) _ _ => q.segments.head?.any fun seg => seg.text = "Float"
  | .call (.fieldAccess (.ident id) _ _) _ _ => id.text = "Float"
  | .qualified q => q.segments.head?.any fun seg => seg.text = "Float"
  | .ite _ thenBranch elseBranch _ => looksLikeFloat thenBranch || looksLikeFloatOpt elseBranch
  | .block region => looksLikeFloatLast region.stmts
  | _ => false

def looksLikeFloatOpt : Option Expr → Bool
  | none => false
  | some e => looksLikeFloat e

/-- The last statement of a block. -/
def looksLikeFloatLast : List Expr → Bool
  | [] => false
  | [e] => looksLikeFloat e
  | _ :: e :: es => looksLikeFloatLast (e :: es)

end

/-- A function of the standard library: its module and its name. -/
abbrev StdlibName := String × String

/-- `op_to_symbol`, for the operators that compute. -/
def opToSymbol (op : CalcOp) (lhsTy : Ty) : StdlibName :=
  match op with
  | .add => if isFloatTy B lhsTy then ("std.float", "add") else ("std.int", "add")
  | .sub => if isFloatTy B lhsTy then ("std.float", "sub") else ("std.int", "sub")
  | .mul => if isFloatTy B lhsTy then ("std.float", "mul") else ("std.int", "mul")
  | .div => if isFloatTy B lhsTy then ("std.float", "div") else ("std.int", "div")
  | .mod => ("std.int", "mod")
  | .pow => ("std.int", "pow")
  | .concat => if isListTy B lhsTy then ("std.list", "concat") else ("std.text", "concat")

def opToSymbolWithFallback (op : CalcOp) (lhsTy rhsTy : Ty) (lhs rhs : Expr) : StdlibName :=
  if op = .div ∧ !isFloatTy B lhsTy ∧ !isFloatTy B rhsTy ∧
      (looksLikeFloat lhs || looksLikeFloat rhs) then ("std.float", "div")
  else
    let effectiveLhsTy :=
      match lhsTy with
      | .error => if isFloatTy B rhsTy then rhsTy else lhsTy
      | lhsTy => lhsTy
    opToSymbol B op effectiveLhsTy

/-- `lower_binary` and `lower_unary`: the function that is called. -/
def lowerOperator (place : OperatorPlace) (e : OperatorExpr) (ty : Ty) : StdlibName :=
  let recorded := recordedType place ty
  match e with
  | .binary op lhs rhs => opToSymbolWithFallback B op recorded recorded lhs rhs
  | .neg _ => if isFloatTy B recorded then ("std.float", "neg") else ("std.int", "neg")

end

/-!
## What the selected operation does on the host

The primitives of `stdlib_map.rs` (`PRIMITIVE_ENTRIES`), the range test that code generation
puts around the ones that are wider than `Int` (`int_range.rs`), and the functions of the
standard library that the remaining operators call (`mod` and `pow` of `int.ridge`, `concat` of
`text.ridge` and of `list.ridge`).

Doubles and the order of the host's terms are the host's own: `HostArith` takes them as
parameters. An operation on doubles that answers `none` is one that raises `badarith`.
-/

/-- The host's doubles, and its order of terms. -/
structure HostArith where
  ofInt : Int → Option Float64
  add : Float64 → Float64 → Option Float64
  sub : Float64 → Float64 → Option Float64
  mul : Float64 → Float64 → Option Float64
  div : Float64 → Float64 → Option Float64
  neg : Float64 → Float64
  le : CErlVal → CErlVal → Bool
  le_int : ∀ a b : Int, le (.int a) (.int b) = decide (a ≤ b)

/-- How a call of the host ends: with a value, or with the reason it raises. -/
abbrev HostEnd : Type := Except CErlVal CErlVal

/-- The call behind another one. -/
def HostEnd.andThen (r : HostEnd) (f : CErlVal → HostEnd) : HostEnd :=
  match r with
  | .error reason => .error reason
  | .ok v => f v

def badarith : CErlVal := .atom "badarith"

def badarg : CErlVal := .atom "badarg"

/-! ## The operations of `erlang` -/

namespace HostArith

variable (H : HostArith)

def asDouble : CErlVal → Option Float64
  | .float x => some x
  | .int n => H.ofInt n
  | _ => none

def onDoubles (op : Float64 → Float64 → Option Float64) (v w : CErlVal) : HostEnd :=
  match H.asDouble v, H.asDouble w with
  | some x, some y =>
    match op x y with
    | some z => .ok (.float z)
    | none => .error badarith
  | _, _ => .error badarith

/-- `+`, `-` and `*`: exact on two integers, and on doubles otherwise. -/
def arith (ints : Int → Int → Int) (doubles : Float64 → Float64 → Option Float64)
    (v w : CErlVal) : HostEnd :=
  match v, w with
  | .int a, .int b => .ok (.int (ints a b))
  | v, w => H.onDoubles doubles v w

/-- `div` and `rem` take integers only. -/
def intOnly (op : Int → Int → Int) (v w : CErlVal) : HostEnd :=
  match v, w with
  | .int a, .int b => if b = 0 then .error badarith else .ok (.int (op a b))
  | _, _ => .error badarith

def minus : CErlVal → HostEnd
  | .int a => .ok (.int (-a))
  | .float x => .ok (.float (H.neg x))
  | _ => .error badarith

def truth (b : Bool) : CErlVal := .atom (if b then "true" else "false")

/-- `erlang:and/2`. -/
def conj : CErlVal → CErlVal → HostEnd
  | .atom "true", .atom "true" => .ok (truth true)
  | .atom "true", .atom "false" => .ok (truth false)
  | .atom "false", .atom "true" => .ok (truth false)
  | .atom "false", .atom "false" => .ok (truth false)
  | _, _ => .error badarg

/-- The functions of `erlang` that the operators and the range test call. -/
def erlang (name : String) (vs : List CErlVal) : HostEnd :=
  match vs with
  | [v] => if name = "-" then H.minus v else .error badarg
  | [v, w] =>
    if name = "+" then H.arith (· + ·) H.add v w
    else if name = "-" then H.arith (· - ·) H.sub v w
    else if name = "*" then H.arith (· * ·) H.mul v w
    else if name = "/" then H.onDoubles H.div v w
    else if name = "div" then intOnly Int.tdiv v w
    else if name = "rem" then intOnly Int.tmod v w
    else if name = "=<" then .ok (truth (H.le v w))
    else if name = "and" then conj v w
    else .error badarg
  | _ => .error badarg

end HostArith

/-! ## The range of `Int` -/

/-- `INT_MIN` and `INT_MAX`. -/
def intMin : Int := -9223372036854775808
def intMax : Int := 9223372036854775807

/-- `FIXNUM_MIN` and `FIXNUM_MAX`. -/
def fixnumMin : Int := -576460752303423488
def fixnumMax : Int := 576460752303423487

/-- A value of type `Int`. -/
def InIntRange (n : Int) : Prop := intMin ≤ n ∧ n ≤ intMax

instance (n : Int) : Decidable (InIntRange n) := inferInstanceAs (Decidable (_ ∧ _))

def outOfRange (label : String) (v : CErlVal) : CErlVal :=
  .tuple [.atom "ridge_int_out_of_range", .binary label.toUTF8.toList, v]

/-- What the guard of a clause of the test says of the value. -/
def HostArith.isWithin (H : HostArith) (lo hi : Int) (v : CErlVal) : Bool :=
  H.le (.int lo) v && H.le v (.int hi)

/-- What the test makes of a value. -/
def HostArith.narrowed (H : HostArith) (label : String) (v : CErlVal) : HostEnd :=
  if H.isWithin fixnumMin fixnumMax v || H.isWithin intMin intMax v then .ok v
  else .error (outOfRange label v)

/-! ## The primitives -/

inductive ResultFit where
  | exact
  | widerThanInt
  deriving DecidableEq

/-- An entry of `PRIMITIVE_ENTRIES` whose target is a function of `erlang`. -/
structure PrimitiveEntry where
  name : StdlibName
  target : String
  arity : Nat
  fit : ResultFit

def primitiveEntries : List PrimitiveEntry :=
  [⟨("std.int", "add"), "+", 2, .widerThanInt⟩,
    ⟨("std.int", "sub"), "-", 2, .widerThanInt⟩,
    ⟨("std.int", "mul"), "*", 2, .widerThanInt⟩,
    ⟨("std.int", "div"), "div", 2, .widerThanInt⟩,
    ⟨("std.int", "rem"), "rem", 2, .exact⟩,
    ⟨("std.int", "neg"), "-", 1, .widerThanInt⟩,
    ⟨("std.float", "add"), "+", 2, .exact⟩,
    ⟨("std.float", "sub"), "-", 2, .exact⟩,
    ⟨("std.float", "mul"), "*", 2, .exact⟩,
    ⟨("std.float", "div"), "/", 2, .exact⟩,
    ⟨("std.float", "neg"), "-", 1, .exact⟩]

/-- The characters behind the last full stop. -/
def lastSegment (chars : List Char) : List Char :=
  (chars.reverse.takeWhile (· ≠ '.')).reverse

/-- `std.int`, `add` reads `Int.add`. -/
def ridgeLabel (name : StdlibName) : String :=
  match lastSegment name.1.toList with
  | [] => name.2
  | c :: rest => String.ofList (c.toUpper :: rest) ++ "." ++ name.2

namespace PrimitiveEntry

/-- What the call answers. -/
def run (H : HostArith) (entry : PrimitiveEntry) (vs : List CErlVal) : HostEnd :=
  HostEnd.andThen (H.erlang entry.target vs) fun v =>
    match entry.fit with
    | .exact => .ok v
    | .widerThanInt => H.narrowed (ridgeLabel entry.name) v

end PrimitiveEntry

def primitiveOf (name : StdlibName) : Option PrimitiveEntry :=
  primitiveEntries.find? fun entry => entry.name = name

def runPrimitive (H : HostArith) (name : StdlibName) (vs : List CErlVal) : HostEnd :=
  match primitiveOf name with
  | some entry => if vs.length = entry.arity then entry.run H vs else .error (.atom "undef")
  | none => .error (.atom "undef")

end Ridge
