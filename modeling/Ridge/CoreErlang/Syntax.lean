import Ridge.Ir.Expr

/-!
# Core Erlang

The abstract syntax of `core_ast.rs`: what code generation builds for a function body. A
`receive` has no constructor: it is built for the server loop only, never for an expression.
-/

namespace Ridge

inductive CErlLit where
  | int (n : Int)
  | float (x : Float64)
  | atom (name : String)
  | binary (bytes : List UInt8)
  | nil
  | emptyTuple
  deriving DecidableEq

inductive CErlPat where
  | var (name : String)
  | lit (value : CErlLit)
  | tuple (elems : List CErlPat)
  | cons (head tail : CErlPat)
  | alias (var : String) (inner : CErlPat)
  -- `lower_pat` writes every key as a literal.
  | mapPat (entries : List (CErlLit × CErlPat))
  | wild

mutual

inductive CErlExpr where
  | lit (value : CErlLit)
  | var (name : String)
  | funOf (params : List String) (body : CErlExpr)
  | apply (callee : CErlExpr) (args : List CErlExpr)
  | call (module fnName : String) (args : List CErlExpr)
  | primOp (name : String) (args : List CErlExpr)
  | localFnRef (name : String) (arity : Nat)
  | letIn (var : String) (value body : CErlExpr)
  -- A tuple is taken apart; its variables reach over what consumes the first of them.
  | bindTuple (result : String) (state : List String) (value : CErlExpr)
  | letRec (defs : List (String × Nat × CErlExpr)) (body : CErlExpr)
  | case (scrutinee : CErlExpr) (clauses : List CErlClause)
  | seq (first rest : CErlExpr)
  | tuple (elems : List CErlExpr)
  | cons (head tail : CErlExpr)
  | listLit (elems : List CErlExpr)
  | mapLit (pairs : List (CErlExpr × CErlExpr))
  | mapUpdate (base : CErlExpr) (updates : List (CErlExpr × CErlExpr))
  | tryOf (body : CErlExpr) (ofs catches : List CErlClause)

inductive CErlClause where
  | mk (pattern : CErlPat) (guard body : CErlExpr)

end

namespace CErlClause

def pattern : CErlClause → CErlPat
  | .mk pattern _ _ => pattern

def guard : CErlClause → CErlExpr
  | .mk _ guard _ => guard

def body : CErlClause → CErlExpr
  | .mk _ _ body => body

end CErlClause

def litTrue : CErlExpr := .lit (.atom "true")

/-! ## Variables -/

mutual

def CErlPat.vars : CErlPat → List String
  | .var name => [name]
  | .lit _ => []
  | .tuple elems => patsVars elems
  | .cons head tail => head.vars ++ tail.vars
  | .alias var inner => var :: inner.vars
  | .mapPat entries => entriesVars entries
  | .wild => []

def patsVars : List CErlPat → List String
  | [] => []
  | p :: ps => p.vars ++ patsVars ps

def entriesVars : List (CErlLit × CErlPat) → List String
  | [] => []
  | (_, p) :: ps => p.vars ++ entriesVars ps

end

mutual

/-- The variables that an expression reads and does not bind around the place it reads them.
What a `bindTuple` binds counts as read from outside: its reach ends elsewhere. -/
def CErlExpr.freeVars : CErlExpr → List String
  | .lit _ => []
  | .var name => [name]
  | .funOf params body => body.freeVars.filter (· ∉ params)
  | .apply callee args => callee.freeVars ++ freeVarsList args
  | .call _ _ args => freeVarsList args
  | .primOp _ args => freeVarsList args
  | .localFnRef _ _ => []
  | .letIn var value body => value.freeVars ++ body.freeVars.filter (· ≠ var)
  | .bindTuple _ _ value => value.freeVars
  | .letRec defs body => freeVarsDefs defs ++ body.freeVars
  | .case scrutinee clauses => scrutinee.freeVars ++ freeVarsClauses clauses
  | .seq first rest => first.freeVars ++ rest.freeVars
  | .tuple elems => freeVarsList elems
  | .cons head tail => head.freeVars ++ tail.freeVars
  | .listLit elems => freeVarsList elems
  | .mapLit pairs => freeVarsPairs pairs
  | .mapUpdate base updates => base.freeVars ++ freeVarsPairs updates
  | .tryOf body ofs catches => body.freeVars ++ (freeVarsClauses ofs ++ freeVarsClauses catches)

def freeVarsList : List CErlExpr → List String
  | [] => []
  | e :: es => e.freeVars ++ freeVarsList es

def freeVarsPairs : List (CErlExpr × CErlExpr) → List String
  | [] => []
  | (k, v) :: ps => k.freeVars ++ (v.freeVars ++ freeVarsPairs ps)

def freeVarsDefs : List (String × Nat × CErlExpr) → List String
  | [] => []
  | (_, _, f) :: ds => f.freeVars ++ freeVarsDefs ds

def freeVarsClauses : List CErlClause → List String
  | [] => []
  | .mk pattern guard body :: cs =>
    (guard.freeVars ++ body.freeVars).filter (· ∉ pattern.vars) ++ freeVarsClauses cs

end

mutual

/-- The variables that the `bindTuple`s of an expression may leave bound behind it. -/
def CErlExpr.exports : CErlExpr → List String
  | .lit _ => []
  | .var _ => []
  | .funOf _ _ => []
  | .apply callee args => callee.exports ++ exportsList args
  | .call _ _ args => exportsList args
  | .primOp _ args => exportsList args
  | .localFnRef _ _ => []
  | .letIn _ value body => value.exports ++ body.exports
  | .bindTuple result state value => result :: (state ++ value.exports)
  | .letRec _ body => body.exports
  | .case scrutinee _ => scrutinee.exports
  | .seq first rest => first.exports ++ rest.exports
  | .tuple elems => exportsList elems
  | .cons head tail => head.exports ++ tail.exports
  | .listLit elems => exportsList elems
  | .mapLit pairs => exportsPairs pairs
  | .mapUpdate base updates => base.exports ++ exportsPairs updates
  | .tryOf _ _ _ => []

def exportsList : List CErlExpr → List String
  | [] => []
  | e :: es => e.exports ++ exportsList es

def exportsPairs : List (CErlExpr × CErlExpr) → List String
  | [] => []
  | (k, v) :: ps => k.exports ++ (v.exports ++ exportsPairs ps)

end

variable {e : CErlExpr} {es : List CErlExpr}

theorem freeVars_subset_list (h : e ∈ es) : e.freeVars ⊆ freeVarsList es := by
  induction es with
  | nil => cases h
  | cons e' es ih =>
    intro x hx
    rw [freeVarsList, List.mem_append]
    rcases List.mem_cons.mp h with rfl | h
    · exact .inl hx
    · exact .inr (ih h hx)

theorem exports_subset_list (h : e ∈ es) : e.exports ⊆ exportsList es := by
  induction es with
  | nil => cases h
  | cons e' es ih =>
    intro x hx
    rw [exportsList, List.mem_append]
    rcases List.mem_cons.mp h with rfl | h
    · exact .inl hx
    · exact .inr (ih h hx)

/-!
## Guards

The calls that a clause guard may make, the scan that looks for any other, and the expressions
that Erlang accepts as a guard.
-/

def isErlangGuardBif (fnName : String) (arity : Nat) : Bool :=
  match arity with
  | 0 => fnName = "self"
  | 1 =>
    fnName ∈ ["abs", "bit_size", "bnot", "byte_size", "ceil", "float", "floor", "hd",
      "is_atom", "is_binary", "is_bitstring", "is_boolean", "is_float", "is_function",
      "is_integer", "is_list", "is_map", "is_number", "is_pid", "is_port", "is_reference",
      "is_tuple", "length", "map_size", "node", "not", "round", "size", "tl", "trunc",
      "tuple_size", "-", "+"]
  | 2 =>
    fnName ∈ ["and", "band", "binary_part", "bor", "bsl", "bsr", "bxor", "div", "element",
      "is_function", "is_map_key", "is_record", "map_get", "max", "min", "or", "rem", "xor",
      "+", "-", "*", "/", "<", ">", "=:=", "=/=", "==", "/=", "=<", ">="]
  | 3 => fnName ∈ ["binary_part", "is_record"]
  | _ => false

/-- A call that Erlang admits in a guard. -/
def isGuardCall (module fnName : String) (arity : Nat) : Bool :=
  module = "erlang" && isErlangGuardBif fnName arity

namespace CErlExpr

mutual

def containsNonBifCall : CErlExpr → Bool
  | .lit _ => false
  | .var _ => false
  | .localFnRef _ _ => false
  | .call module fnName args => !isGuardCall module fnName args.length || anyNonBifCall args
  | .apply _ _ => true
  | .primOp _ _ => true
  | .funOf _ body => body.containsNonBifCall
  | .bindTuple _ _ value => value.containsNonBifCall
  | .letIn _ value body => value.containsNonBifCall || body.containsNonBifCall
  | .letRec defs body => defsNonBifCall defs || body.containsNonBifCall
  | .case scrutinee clauses => scrutinee.containsNonBifCall || clausesNonBifCall clauses
  | .seq first rest => first.containsNonBifCall || rest.containsNonBifCall
  | .tuple elems => anyNonBifCall elems
  | .listLit elems => anyNonBifCall elems
  | .cons head tail => head.containsNonBifCall || tail.containsNonBifCall
  | .mapLit pairs => pairsNonBifCall pairs
  | .mapUpdate base updates => base.containsNonBifCall || pairsNonBifCall updates
  | .tryOf body ofs catches =>
    body.containsNonBifCall || clausesNonBifCall ofs || clausesNonBifCall catches

def anyNonBifCall : List CErlExpr → Bool
  | [] => false
  | e :: es => e.containsNonBifCall || anyNonBifCall es

def pairsNonBifCall : List (CErlExpr × CErlExpr) → Bool
  | [] => false
  | (k, v) :: ps => k.containsNonBifCall || v.containsNonBifCall || pairsNonBifCall ps

def defsNonBifCall : List (String × Nat × CErlExpr) → Bool
  | [] => false
  | (_, _, f) :: ds => f.containsNonBifCall || defsNonBifCall ds

def clausesNonBifCall : List CErlClause → Bool
  | [] => false
  | .mk _ guard body :: cs =>
    guard.containsNonBifCall || body.containsNonBifCall || clausesNonBifCall cs

end

mutual

/-- An Erlang guard expression: a term built from literals, variables and calls of guard BIFs. A
branch, a binding, a function value or a sequence is no guard. -/
def isGuardExpr : CErlExpr → Bool
  | .lit _ => true
  | .var _ => true
  | .call module fnName args => isGuardCall module fnName args.length && allGuardExprs args
  | .tuple elems => allGuardExprs elems
  | .listLit elems => allGuardExprs elems
  | .cons head tail => head.isGuardExpr && tail.isGuardExpr
  | .mapLit pairs => allGuardPairs pairs
  | .mapUpdate base updates => base.isGuardExpr && allGuardPairs updates
  | .localFnRef _ _ => false
  | .apply _ _ => false
  | .primOp _ _ => false
  | .funOf _ _ => false
  | .bindTuple _ _ _ => false
  | .letIn _ _ _ => false
  | .letRec _ _ => false
  | .case _ _ => false
  | .seq _ _ => false
  | .tryOf _ _ _ => false

def allGuardExprs : List CErlExpr → Bool
  | [] => true
  | e :: es => e.isGuardExpr && allGuardExprs es

def allGuardPairs : List (CErlExpr × CErlExpr) → Bool
  | [] => true
  | (k, v) :: ps => k.isGuardExpr && v.isGuardExpr && allGuardPairs ps

end

end CErlExpr

end Ridge
