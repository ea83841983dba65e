import Ridge.CoreErlang.Syntax
import Ridge.Lib.Approx

/-!
# Running Core Erlang

An evaluator with a bound on its depth. A run reads and writes a world, and the variables and
local functions in scope at the point it has reached. A closure keeps the variables it reads.
Functions of other modules and the primitive operations are foreign code.
-/

namespace Ridge

/-- A term of the host. -/
inductive CErlVal where
  | int (n : Int)
  | float (x : Float64)
  | atom (name : String)
  | binary (bytes : List UInt8)
  | nil
  | cons (head tail : CErlVal)
  | tuple (elems : List CErlVal)
  | map (pairs : List (CErlVal × CErlVal))
  | closure (params : List String) (body : CErlExpr) (vars : List (String × CErlVal))
      (fns : List ((String × Nat) × CErlVal))
  -- A function of a `letrec`: it is closed over the definitions it belongs to.
  | recFun (params : List String) (body : CErlExpr) (defs : List (String × Nat × CErlExpr))
      (vars : List (String × CErlVal)) (fns : List ((String × Nat) × CErlVal))
  -- A function of the module.
  | localFn (name : String) (arity : Nat)
  -- A raw stack trace.
  | stack

/-- How an evaluation leaves. -/
inductive CErlStop where
  | raised (cls : String) (reason : CErlVal)
  | timeout

abbrev CErlVars : Type := String → Option CErlVal

abbrev CErlFns : Type := List ((String × Nat) × CErlVal)

structure CErlState (W : Type) where
  world : W
  vars : CErlVars
  fns : CErlFns

abbrev CErlRun (W α : Type) : Type := Early (CErlState W) CErlStop α

/-- A module, and the code outside of it: the guard BIFs, which only look at the world, the
functions of other modules, the primitive operations and the equality of terms. -/
structure CErlMachine (W : Type) where
  fns : String → Nat → Option (List String × CErlExpr)
  guardBif : String → List CErlVal → W → Except CErlVal CErlVal
  call : String → String → List CErlVal → W → Foreign W CErlVal (String × CErlVal)
  primOp : String → List CErlVal → W → Foreign W CErlVal (String × CErlVal)
  same : CErlVal → CErlVal → Bool

namespace CErlVal

def ofLit : CErlLit → CErlVal
  | .int n => .int n
  | .float x => .float x
  | .atom name => .atom name
  | .binary bytes => .binary bytes
  | .nil => .nil
  | .emptyTuple => .tuple []

def isLit : CErlVal → CErlLit → Bool
  | .int n, .int k => n = k
  | .float x, .float y => x = y
  | .atom a, .atom b => a = b
  | .binary a, .binary b => a = b
  | .nil, .nil => true
  | .tuple [], .emptyTuple => true
  | _, _ => false

def isTrue : CErlVal → Bool
  | .atom a => a = "true"
  | _ => false

def ofList : List CErlVal → CErlVal
  | [] => .nil
  | v :: vs => .cons v (ofList vs)

def putKey (same : CErlVal → CErlVal → Bool) (key value : CErlVal) :
    List (CErlVal × CErlVal) → List (CErlVal × CErlVal)
  | [] => [(key, value)]
  | (k, v) :: rest =>
    if same k key then (k, value) :: rest else (k, v) :: putKey same key value rest

/-- Associates keys with values, both given in turn. -/
def putKeys (same : CErlVal → CErlVal → Bool) (pairs : List (CErlVal × CErlVal)) :
    List CErlVal → List (CErlVal × CErlVal)
  | key :: value :: rest => putKeys same (putKey same key value pairs) rest
  | _ => pairs

def lookupLit (key : CErlLit) : List (CErlVal × CErlVal) → Option CErlVal
  | [] => none
  | (k, v) :: rest => if k.isLit key then some v else lookupLit key rest

end CErlVal

mutual

def CErlPat.match : CErlPat → CErlVal → Option (List (String × CErlVal))
  | .var name, v => some [(name, v)]
  | .lit value, v => if v.isLit value then some [] else none
  | .tuple elems, .tuple vs => matchPats elems vs
  | .cons head tail, .cons v w =>
    match head.match v, tail.match w with
    | some bs, some bs' => some (bs ++ bs')
    | _, _ => none
  | .alias var inner, v => (inner.match v).map ((var, v) :: ·)
  | .mapPat entries, .map pairs => matchEntries entries pairs
  | .wild, _ => some []
  | _, _ => none

def matchPats : List CErlPat → List CErlVal → Option (List (String × CErlVal))
  | [], [] => some []
  | p :: ps, v :: vs =>
    match p.match v, matchPats ps vs with
    | some bs, some bs' => some (bs ++ bs')
    | _, _ => none
  | _, _ => none

def matchEntries : List (CErlLit × CErlPat) → List (CErlVal × CErlVal) →
    Option (List (String × CErlVal))
  | [], _ => some []
  | (key, p) :: ps, pairs =>
    match CErlVal.lookupLit key pairs with
    | none => none
    | some v =>
      match p.match v, matchEntries ps pairs with
      | some bs, some bs' => some (bs ++ bs')
      | _, _ => none

end

/-! ## Scopes -/

/-- Later bindings shadow earlier ones. -/
def bindVars : List (String × CErlVal) → CErlVars → CErlVars
  | [], vars => vars
  | (x, v) :: bs, vars => bindVars bs (Function.update vars x (some v))

def lookupFn (name : String) (arity : Nat) : CErlFns → Option CErlVal
  | [] => none
  | (key, v) :: rest => if key = (name, arity) then some v else lookupFn name arity rest

/-- The variables among `names` that are bound. -/
def captured (vars : CErlVars) (names : List String) : List (String × CErlVal) :=
  names.filterMap fun x => (vars x).map (x, ·)

namespace CErlRun

variable {W α : Type}

def raise (cls : String) (reason : CErlVal) : CErlRun W α := Early.leave (.raised cls reason)

/-- A closed scope: what it binds, and what is exported into it, ends with it. -/
def inScope (bs : List (String × CErlVal)) (m : CErlRun W α) : CErlRun W α :=
  Early.within (fun s => { s with vars := bindVars bs s.vars })
    (fun s s' => { s with world := s'.world }) m

/-- The scope of a `let` variable: anything exported from inside of it stays. -/
def withVar (x : String) (v : CErlVal) (m : CErlRun W α) : CErlRun W α :=
  Early.within (fun s => { s with vars := Function.update s.vars x (some v) })
    (fun s s' => { s' with vars := Function.update s'.vars x (s.vars x), fns := s.fns }) m

/-- The scope of local functions. -/
def withFns (fns : CErlFns) (m : CErlRun W α) : CErlRun W α :=
  Early.within (fun s => { s with fns := fns ++ s.fns }) (fun s s' => { s' with fns := s.fns }) m

/-- The body of a function, over its own variables. -/
def frame (vars : CErlVars) (fns : CErlFns) (m : CErlRun W α) : CErlRun W α :=
  Early.within (fun s => { s with vars := vars, fns := fns })
    (fun s s' => { s with world := s'.world }) m

def readVar (x : String) : CErlRun W CErlVal :=
  Early.bind (Early.read fun s => s.vars x) fun
    | some v => Early.pure v
    | none => raise "error" (.tuple [.atom "unbound_var", .atom x])

/-- A local function in scope, or else a function of the module. -/
def readFn (name : String) (arity : Nat) : CErlRun W CErlVal :=
  Early.read fun s => (lookupFn name arity s.fns).getD (.localFn name arity)

/-- A function value keeps the variables its body reads. -/
def capture (params : List String) (body : CErlExpr) : CErlRun W CErlVal :=
  Early.read fun s =>
    .closure params body (captured s.vars (body.freeVars.filter (· ∉ params))) s.fns

/-- The functions of a `letrec`. -/
def recFuns (defs : List (String × Nat × CErlExpr)) (vars : List (String × CErlVal))
    (fns : CErlFns) : CErlFns :=
  defs.map fun d =>
    match d with
    | (name, arity, .funOf params body) => ((name, arity), .recFun params body defs vars fns)
    | (name, arity, _) => ((name, arity), .localFn name arity)

/-- Takes the tuple of a `bindTuple` apart: its variables stay bound. -/
def exportTuple (names : List String) (v : CErlVal) : CErlRun W CErlVal :=
  match v with
  | .tuple (first :: rest) =>
    if names.length = rest.length + 1 then
      Early.bind (Early.modify fun s =>
        { s with vars := bindVars (names.zip (first :: rest)) s.vars }) fun _ => Early.pure first
    else raise "error" (.atom "invalid_result_scope_state")
  | _ => raise "error" (.atom "invalid_result_scope_state")

/-- Where foreign code meets a run: it sees the world, and what is raised. -/
def seam : Seam (CErlState W) W CErlStop (String × CErlVal) where
  world := CErlState.world
  setWorld := fun w s => { s with world := w }
  raise := fun x => .raised x.1 x.2
  caught
    | .raised cls reason => some (cls, reason)
    | .timeout => none

/-- A guard that raises does not hold, and no guard has an effect. -/
def guardTest (m : CErlRun W CErlVal) : CErlRun W Bool := fun s =>
  match (m s).1 with
  | .ok v => (.ok v.isTrue, s)
  | .error (.raised _ _) => (.ok false, s)
  | .error .timeout => (.error .timeout, s)

/-- How the body of a `try` ended. -/
def tryEnd : Except CErlStop α → Except CErlStop (Except (String × CErlVal) α)
  | .ok v => .ok (.ok v)
  | .error (.raised cls reason) => .ok (.error (cls, reason))
  | .error .timeout => .error .timeout

end CErlRun

section Eval

variable {W : Type} (M : CErlMachine W) (ev : CErlExpr → CErlRun W CErlVal)

/-- Calls a function value. -/
def applyVal (f : CErlVal) (args : List CErlVal) : CErlRun W CErlVal :=
  match f with
  | .closure params body vars fns =>
    if params.length = args.length then
      CErlRun.frame (bindVars (vars ++ params.zip args) fun _ => none) fns (ev body)
    else CErlRun.raise "error" (.atom "badarity")
  | .recFun params body defs vars fns =>
    if params.length = args.length then
      CErlRun.frame (bindVars (vars ++ params.zip args) fun _ => none)
        (CErlRun.recFuns defs vars fns ++ fns) (ev body)
    else CErlRun.raise "error" (.atom "badarity")
  | .localFn name arity =>
    match M.fns name arity with
    | some (params, body) =>
      if params.length = args.length then
        CErlRun.frame (bindVars (params.zip args) fun _ => none) [] (ev body)
      else CErlRun.raise "error" (.atom "badarity")
    | none => CErlRun.raise "error" (.atom "undef")
  | f => CErlRun.raise "error" (.tuple [.atom "badfun", f])

def runForeign (code : W → Foreign W CErlVal (String × CErlVal)) : CErlRun W CErlVal :=
  Early.bind (Early.read CErlState.world) fun w =>
    Foreign.run CErlRun.seam (applyVal M ev) (code w)

def callRemote (module fnName : String) (vs : List CErlVal) : CErlRun W CErlVal :=
  if isGuardCall module fnName vs.length then
    Early.bind (Early.read fun s => M.guardBif fnName vs s.world) fun
      | .ok v => Early.pure v
      | .error reason => CErlRun.raise "error" reason
  else
    match module, fnName, vs with
    | "erlang", "error", [reason] => CErlRun.raise "error" reason
    | _, _, _ => runForeign M ev (M.call module fnName vs)

/-- Selects a clause: the first whose pattern matches and whose guard holds. -/
def selectClause (v : CErlVal) : List CErlClause → CErlRun W CErlVal
  | [] => CErlRun.raise "error" (.tuple [.atom "case_clause", v])
  | .mk pattern guard body :: clauses =>
    match pattern.match v with
    | none => selectClause v clauses
    | some bs =>
      Early.bind (CErlRun.inScope bs (CErlRun.guardTest (ev guard))) fun holds =>
        if holds then CErlRun.inScope bs (ev body) else selectClause v clauses

/-- The operands of a list of pairs, in the order in which they are evaluated. -/
def pairOperands : List (CErlExpr × CErlExpr) → List CErlExpr
  | [] => []
  | (k, v) :: ps => k :: v :: pairOperands ps

/-- What an expression does, given what its parts do. -/
def evalStep : CErlExpr → CErlRun W CErlVal
  | .lit value => Early.pure (.ofLit value)
  | .var name => CErlRun.readVar name
  | .funOf params body => CErlRun.capture params body
  | .apply callee args =>
    Early.bind (ev callee) fun f => Early.bind (Early.all (args.map ev)) (applyVal M ev f)
  | .call module fnName args =>
    Early.bind (Early.all (args.map ev)) (callRemote M ev module fnName)
  | .primOp name args =>
    Early.bind (Early.all (args.map ev)) fun vs => runForeign M ev (M.primOp name vs)
  | .localFnRef name arity => CErlRun.readFn name arity
  | .letIn var value body => Early.bind (ev value) fun v => CErlRun.withVar var v (ev body)
  | .bindTuple result state value =>
    Early.bind (ev value) (CErlRun.exportTuple (result :: state))
  | .letRec defs body =>
    Early.bind (Early.read fun s =>
      CErlRun.recFuns defs (captured s.vars (freeVarsDefs defs)) s.fns) fun fns =>
        CErlRun.withFns fns (ev body)
  | .case scrutinee clauses => Early.bind (ev scrutinee) fun v => selectClause ev v clauses
  | .seq first rest => Early.bind (ev first) fun _ => ev rest
  | .tuple elems => Early.bind (Early.all (elems.map ev)) fun vs => Early.pure (.tuple vs)
  | .cons head tail =>
    Early.bind (ev head) fun v => Early.bind (ev tail) fun w => Early.pure (.cons v w)
  | .listLit elems => Early.bind (Early.all (elems.map ev)) fun vs => Early.pure (.ofList vs)
  | .mapLit pairs =>
    Early.bind (Early.all ((pairOperands pairs).map ev)) fun vs =>
      Early.pure (.map (CErlVal.putKeys M.same [] vs))
  | .mapUpdate base updates =>
    Early.bind (ev base) fun b =>
      Early.bind (Early.all ((pairOperands updates).map ev)) fun vs =>
        match b with
        | .map pairs => Early.pure (.map (CErlVal.putKeys M.same pairs vs))
        | b => CErlRun.raise "error" (.tuple [.atom "badmap", b])
  | .tryOf body ofs catches =>
    Early.bind (Early.ending CErlRun.tryEnd (CErlRun.inScope [] (ev body))) fun
      | .ok v => selectClause ev v ofs
      | .error (cls, reason) => selectClause ev (.tuple [.atom cls, reason, .stack]) catches

end Eval

/-- Evaluation to a depth of `n`. -/
def eval {W : Type} (M : CErlMachine W) : Nat → CErlExpr → CErlRun W CErlVal
  | 0, _ => Early.leave .timeout
  | n + 1, e => evalStep M (eval M n) e

/-- An expression ends with `r`, whatever depth that takes. -/
def Evaluates {W : Type} (M : CErlMachine W) (e : CErlExpr) (s : CErlState W)
    (r : Except CErlStop CErlVal) (s' : CErlState W) : Prop :=
  Early.Yields .timeout (fun n => eval M n e) s r s'

end Ridge
