import Mathlib.Data.List.Basic

/-!
# Applications and their lowering

The application of a function to arguments, as the parser leaves it: a call, a pipe into a call or
into a callee, or the callee alone, as a value. `lowerApp` is what lowering makes of it: `lower_expr`
on a call, `lower_pipe`, and a name on its own (`core.rs`, `pipe.rs`, `function_value.rs`). An
argument expression and a computed callee are lowered elsewhere and stand for themselves. A trailing
`?` binds looser than a pipe, so the application under it is one of these.
-/

namespace Ridge.Applied

/-- The compiler-known functions of `std.actor`. -/
inductive ActorOp where
  | tryAsk | send
  deriving DecidableEq

/-- The type recorded at a name: a function of `n` parameters, or an alias of one. -/
inductive Recorded where
  | fn (n : Nat)
  | aliased (n : Nat)

namespace Recorded

/-- The parameters, with aliases looked through. -/
def params : Recorded → Nat
  | .fn n => n
  | .aliased n => n

/-- The parameters of a type that is `Type::Fn` itself. -/
def fnParams : Recorded → Option Nat
  | .fn n => some n
  | .aliased _ => none

end Recorded

/-- What an identifier or a qualified name is bound to: a local function value, a function of some
module with the dictionaries its constraints take here, a constant that holds a function, a method
of a dictionary (`pinned`: its instance is found at the call), or a function of `std.actor`. -/
inductive Named (F : Type) where
  | localValue (name : String)
  | function (f : F) (dicts : List Nat)
  | constant (name : String)
  | method (dict : Nat) (name : String) (pinned : Bool)
  | actor (op : ActorOp)

/-- The constructors: those of the prelude, and those of declared unions. -/
inductive Ctor where
  | prelude (name : String)
  | union (name : String)

/-- The expressions whose value is the function: those a pipe takes, and the rest. -/
inductive Shape where
  | fieldAccess | lambda | accessor | other

inductive Head (F : Type) where
  | named (name : Named F) (ty : Recorded)
  | ctor (c : Ctor)
  | computed (shape : Shape)

/-- A callee, in parentheses or not. -/
structure Callee (F : Type) where
  head : Head F
  parens : Bool

/-- An argument: an expression, the literal `()`, or a handler's label with its payload. A label
that is also a name in scope is `bound`. -/
inductive Arg where
  | expr
  | unit
  | message (bound : Bool)

inductive App (F : Type) where
  | call (callee : Callee F) (args : List Arg)
  /-- `lhs |> f args`, or `lhs |> (f args)`. -/
  | pipeCall (lhs : Arg) (callee : Callee F) (args : List Arg) (parens : Bool)
  /-- `lhs |> f`. -/
  | pipe (lhs : Arg) (callee : Callee F)
  | value (callee : Callee F)

/-! ## Intermediate representation -/

/-- `IrExpr`, as far as applications use it. `arg i` is the `i`-th argument expression (`unit`: a
`()` literal), `callee` a computed callee, `param j` the `j`-th parameter of the lambda around it. -/
inductive Ir (F : Type) where
  | arg (i : Nat) (unit : Bool)
  | callee
  | localValue (name : String)
  | param (j : Nat)
  | function (f : F)
  | constant (name : String)
  | actor (op : ActorOp)
  | prelude (name : String)
  | dict (d : Nat)
  | method (dict : Nat) (name : String)
  | call (callee : Ir F) (args : List (Ir F))
  | lambda (params : Nat) (body : Ir F)
  | construct (name : String) (fields : List (Ir F))
  | tryAsk (handle payload timeout : Ir F)
  | actorSend (handle payload : Ir F)

inductive LowerError where
  /-- `L999`: a handler's label, lowered as a name that is bound to nothing. -/
  | noBinding
  /-- `L102`. -/
  | unknownPipeRhsShape
  deriving DecidableEq

variable {F : Type}

/-! ## Lowering -/

/-- `lower_ident`, `lower_qualified`. -/
def lowerName : Named F → Ir F
  | .localValue x => .localValue x
  | .function f _ => .function f
  | .constant c => .constant c
  | .method d m _ => .method d m
  | .actor op => .actor op

/-- `lower_expr` on a constructor without a record body. -/
def lowerCtor : Ctor → Ir F
  | .prelude c => .prelude c
  | .union c => .construct c []

/-- `lower_call_target`. -/
def lowerTarget : Head F → Ir F
  | .named name _ => lowerName name
  | .ctor c => lowerCtor c
  | .computed _ => .callee

/-- `build_dict_args`. -/
def dictArgs : Head F → List (Ir F)
  | .named (.function _ dicts) _ => dicts.map .dict
  | _ => []

/-- `lookup_callee_type`. -/
def calleeType : Head F → Option Recorded
  | .named _ ty => some ty
  | _ => none

/-- `lower_expr` on an argument. -/
def lowerArg (i : Nat) : Arg → Except LowerError (Ir F)
  | .expr => .ok (.arg i false)
  | .unit => .ok (.arg i true)
  | .message bound => if bound then .ok (.arg i false) else .error .noBinding

/-- The arguments from the `i`-th on. -/
def lowerArgsFrom (i : Nat) : List Arg → Except LowerError (List (Ir F))
  | [] => .ok []
  | a :: as =>
    match lowerArg i a, lowerArgsFrom (i + 1) as with
    | .ok ir, .ok irs => .ok (ir :: irs)
    | .error e, _ => .error e
    | _, .error e => .error e

def callArgsWithoutNullaryUnit (args : List Arg) (ty : Option Recorded) : List Arg :=
  match args, ty with
  | [.unit], some ty => if ty.params = 0 then [] else args
  | _, _ => args

/-- `wrap_partial_application_if_needed`: the lambda takes the parameters that are left. -/
def wrapPartialApplication (target : Ir F) (dicts args : List (Ir F)) (ty : Option Recorded) :
    Ir F :=
  match ty.bind Recorded.fnParams with
  | none => .call target (dicts ++ args)
  | some total =>
    if total ≤ args.length then .call target (dicts ++ args)
    else .lambda (total - args.length)
      (.call target (dicts ++ args ++ (List.range (total - args.length)).map .param))

/-- `lower_tryask_call`: the payload of the message, not its label, is evaluated. -/
def lowerTryAsk : Ir F := .tryAsk (.arg 0 false) (.arg 1 false) (.arg 2 false)

/-- `lower_actor_send_call`. -/
def lowerActorSend : Ir F := .actorSend (.arg 0 false) (.arg 1 false)

/-- The call path shared by names, constructors and computed callees. -/
def lowerGenericCall (head : Head F) (args : List Arg) : Except LowerError (Ir F) :=
  match lowerArgsFrom 0 (callArgsWithoutNullaryUnit args (calleeType head)) with
  | .error e => .error e
  | .ok irs =>
    match head with
    | .ctor (.union c) => .ok (.construct c irs)
    | head => .ok (wrapPartialApplication (lowerTarget head) (dictArgs head) irs (calleeType head))

/-- `lower_expr` on a call. A parenthesised class method takes the general path. -/
def lowerCall (callee : Callee F) (args : List Arg) : Except LowerError (Ir F) :=
  match callee.head, callee.parens with
  | .named (.method d m true) ty, false =>
    match lowerArgsFrom 0 (callArgsWithoutNullaryUnit args (some ty)) with
    | .error e => .error e
    | .ok irs => .ok (.call (.method d m) irs)
  | .named (.actor .tryAsk) ty, false =>
    if args.length = 3 then .ok lowerTryAsk
    else lowerGenericCall (.named (.actor .tryAsk) ty) args
  | .named (.actor .send) ty, false =>
    if args.length = 2 then .ok lowerActorSend
    else lowerGenericCall (.named (.actor .send) ty) args
  | head, _ => lowerGenericCall head args

/-- `lower_pipe` into a call, its own parentheses peeled: the piped argument comes last. -/
def lowerPipeCall (lhs : Arg) (callee : Callee F) (args : List Arg) : Except LowerError (Ir F) :=
  match lowerArgsFrom 0 (args ++ [lhs]) with
  | .error e => .error e
  | .ok irs => .ok (.call (lowerTarget callee.head) (dictArgs callee.head ++ irs))

/-- The callees a pipe takes without arguments. -/
def pipeable : Head F → Bool
  | .named _ _ => true
  | .ctor _ => false
  | .computed .other => false
  | .computed _ => true

/-- `lower_pipe` into a callee. -/
def lowerPipe (lhs : Arg) (callee : Callee F) : Except LowerError (Ir F) :=
  if pipeable callee.head then lowerPipeCall lhs callee [] else .error .unknownPipeRhsShape

/-- A name that takes dictionaries is a value that has them. -/
def closeConstraints (head : Head F) : Ir F :=
  match (calleeType head).bind Recorded.fnParams, dictArgs head with
  | some n, d :: ds =>
    .lambda n (.call (lowerTarget head) (d :: ds ++ (List.range n).map .param))
  | _, _ => lowerTarget head

def lowerApp : App F → Except LowerError (Ir F)
  | .call callee args => lowerCall callee args
  | .pipeCall lhs callee args _ => lowerPipeCall lhs callee args
  | .pipe lhs callee => lowerPipe lhs callee
  | .value callee => .ok (closeConstraints callee.head)

/-- The lambdas of an expression are of `n` parameters each. -/
inductive Ir.LambdasOf (n : Nat) : Ir F → Prop
  | arg (i u) : Ir.LambdasOf n (.arg i u)
  | callee : Ir.LambdasOf n .callee
  | localValue (x) : Ir.LambdasOf n (.localValue x)
  | param (j) : Ir.LambdasOf n (.param j)
  | function (f) : Ir.LambdasOf n (.function f)
  | constant (c) : Ir.LambdasOf n (.constant c)
  | actor (op) : Ir.LambdasOf n (.actor op)
  | prelude (c) : Ir.LambdasOf n (.prelude c)
  | dict (d) : Ir.LambdasOf n (.dict d)
  | method (d m) : Ir.LambdasOf n (.method d m)
  | call {c as} (hc : Ir.LambdasOf n c) (has : ∀ a ∈ as, Ir.LambdasOf n a) :
    Ir.LambdasOf n (.call c as)
  | lambda {body} (hbody : Ir.LambdasOf n body) : Ir.LambdasOf n (.lambda n body)
  | construct {c as} (has : ∀ a ∈ as, Ir.LambdasOf n a) : Ir.LambdasOf n (.construct c as)
  | tryAsk {h p t} (hh : Ir.LambdasOf n h) (hp : Ir.LambdasOf n p) (ht : Ir.LambdasOf n t) :
    Ir.LambdasOf n (.tryAsk h p t)
  | actorSend {h p} (hh : Ir.LambdasOf n h) (hp : Ir.LambdasOf n p) :
    Ir.LambdasOf n (.actorSend h p)

/-!
## Running an application

What the code emitted for a lowered application does (`lower_call`, `lower_construct` and
`lower_symbol` of code generation): the argument expressions it evaluates, and its value. Beside it,
what the application means: the function applied to all its arguments at once.
-/

/-- Values: `fn` is a function of the program, `closure` a lambda that lowering built. -/
inductive Val (F D : Type) where
  | base (d : D)
  | fn (f : F)
  | tagged (name : String) (payload : List (Val F D))
  | closure (params : Nat) (body : Ir F)

/-- The evaluation of the `i`-th argument expression, or of a computed callee. -/
inductive Event where
  | arg (i : Nat)
  | callee
  deriving DecidableEq

/-- The functions of a program and the payloads of its unions. A function takes its dictionaries
before its parameters. -/
structure World (F D : Type) where
  arity : F → Nat
  run : F → List (Val F D) → Val F D
  payload : String → Nat
  tryAsk : Val F D → Val F D → Val F D → Val F D
  actorSend : Val F D → Val F D → Val F D

/-- The values, where an application is evaluated, of what it is made of. -/
structure Site (F D : Type) where
  arg : Nat → Val F D
  callee : Val F D
  localValue : String → Val F D
  constant : String → Val F D
  dict : Nat → Val F D
  method : Nat → String → Val F D

/-- The payload of a prelude constructor. -/
def preludeArity (name : String) : Option Nat :=
  if name ∈ ["None", "JNull"] then some 0
  else if name ∈ ["Some", "Ok", "Err", "JBool", "JInt", "JFloat", "JText", "JList", "JObject",
    "JObjectFields"] then some 1
  else none

variable {F D : Type} (W : World F D) (S : Site F D)

/-- A function value called with as many arguments as it takes. -/
def callValue (v : Val F D) (vs : List (Val F D)) : Option (Val F D) :=
  match v with
  | .fn f => if vs.length = W.arity f then some (W.run f vs) else none
  | _ => none

/-- The only argument is the literal `()`. -/
def isUnitCall : List (Ir F) → Bool
  | [.arg _ true] => true
  | _ => false

mutual

/-- What evaluating an expression evaluates, and its value; `none` where the emitted code does not
compile or raises. The lambdas of a lowered application are not called where they are built. -/
def eval (ps : List (Val F D)) : Ir F → Option (List Event × Val F D)
  | .arg i _ => some ([.arg i], S.arg i)
  | .callee => some ([.callee], S.callee)
  | .localValue x => some ([], S.localValue x)
  | .param j => (ps[j]?).map fun v => ([], v)
  | .function f => some ([], .fn f)
  | .constant c => some ([], S.constant c)
  | .actor _ => none
  | .prelude c => if preludeArity c = some 0 then some ([], .tagged c []) else none
  | .dict d => some ([], S.dict d)
  | .method d m => some ([], S.method d m)
  | .lambda n body => some ([], .closure n body)
  | .construct c fields => (evalAll ps fields).map fun r => (r.1, .tagged c r.2)
  | .tryAsk h p t =>
    match eval ps h, eval ps p, eval ps t with
    | some (l, h), some (m, p), some (k, t) => some (l ++ m ++ k, W.tryAsk h p t)
    | _, _, _ => none
  | .actorSend h p =>
    match eval ps h, eval ps p with
    | some (l, h), some (m, p) => some (l ++ m, W.actorSend h p)
    | _, _ => none
  | .call callee args =>
    match callee with
    | .function f =>
      -- `f ()` of a function that takes nothing passes nothing
      if W.arity f = 0 ∧ isUnitCall args then some ([], W.run f [])
      else (evalAll ps args).bind fun r => (callValue W (.fn f) r.2).map fun v => (r.1, v)
    | .prelude c => (evalAll ps args).bind fun r =>
      if preludeArity c = some r.2.length then some (r.1, .tagged c r.2) else none
    | .actor _ => none
    | callee => (eval ps callee).bind fun f => (evalAll ps args).bind fun r =>
      (callValue W f.2 r.2).map fun v => (f.1 ++ r.1, v)

def evalAll (ps : List (Val F D)) : List (Ir F) → Option (List Event × List (Val F D))
  | [] => some ([], [])
  | e :: es =>
    match eval ps e, evalAll ps es with
    | some (l, v), some (m, vs) => some (l ++ m, v :: vs)
    | _, _ => none

end

section Equations

variable {W S} (ps : List (Val F D))

theorem evalAll_cons (e : Ir F) (es : List (Ir F)) : evalAll W S ps (e :: es) =
    match eval W S ps e, evalAll W S ps es with
    | some (l, v), some (m, vs) => some (l ++ m, v :: vs)
    | _, _ => none := rfl

theorem eval_arg (i : Nat) (u : Bool) : eval W S ps (.arg i u) = some ([.arg i], S.arg i) := rfl

theorem eval_param (j : Nat) : eval W S ps (.param j) = (ps[j]?).map fun v => ([], v) := rfl

theorem eval_lambda (n : Nat) (body : Ir F) :
    eval W S ps (.lambda n body) = some ([], .closure n body) := rfl

theorem eval_prelude (c : String) : eval W S ps (.prelude c) =
    if preludeArity c = some 0 then some ([], .tagged c []) else none := rfl

theorem eval_call_value {e : Ir F} (args : List (Ir F)) (hf : ∀ f, e ≠ .function f)
    (hp : ∀ c, e ≠ .prelude c) (ha : ∀ op, e ≠ .actor op) :
    eval W S ps (.call e args) = (eval W S ps e).bind fun f =>
      (evalAll W S ps args).bind fun r =>
        (callValue W f.2 r.2).map fun v => (f.1 ++ r.1, v) := by
  cases e with
  | function f => exact absurd rfl (hf f)
  | prelude c => exact absurd rfl (hp c)
  | actor op => exact absurd rfl (ha op)
  | arg _ _ | callee | localValue _ | param _ | constant _ | dict _ | method _ _ | call _ _
  | lambda _ _ | construct _ _ | tryAsk _ _ _ | actorSend _ _ => rfl

end Equations

/-- A value applied to arguments. -/
def applyVal (v : Val F D) (vs : List (Val F D)) : Option (Val F D) :=
  match v with
  | .closure n body => if vs.length = n then (eval W S vs body).map Prod.snd else none
  | v => callValue W v vs

/-! ## Meaning -/

/-- The parameters of a callee. -/
def params : Head F → Nat
  | .named (.actor .tryAsk) _ => 3
  | .named (.actor .send) _ => 2
  | .named _ ty => ty.params
  | .ctor (.prelude c) => (preludeArity c).getD 0
  | .ctor (.union c) => W.payload c
  | .computed _ =>
    match S.callee with
    | .fn f => W.arity f
    | _ => 0

/-- The callee applied to the values of all its arguments. -/
def full (head : Head F) (vs : List (Val F D)) : Option (Val F D) :=
  match head with
  | .named (.localValue x) _ => callValue W (S.localValue x) vs
  | .named (.function f dicts) _ => callValue W (.fn f) (dicts.map S.dict ++ vs)
  | .named (.constant c) _ => callValue W (S.constant c) vs
  | .named (.method d m _) _ => callValue W (S.method d m) vs
  | .named (.actor .tryAsk) _ =>
    match vs with
    | [h, p, t] => some (W.tryAsk h p t)
    | _ => none
  | .named (.actor .send) _ =>
    match vs with
    | [h, p] => some (W.actorSend h p)
    | _ => none
  | .ctor (.prelude c) => some (.tagged c vs)
  | .ctor (.union c) => some (.tagged c vs)
  | .computed _ => callValue W S.callee vs

/-- The value is a function of `n` parameters. -/
def IsFn (v : Val F D) (n : Nat) : Prop := ∃ f, v = .fn f ∧ W.arity f = n

/-- What the checker knows of a callee: its value is a function of its parameters. -/
def Typed : Head F → Prop
  | .named (.localValue x) ty => IsFn W (S.localValue x) ty.params
  | .named (.function f dicts) ty => ty.fnParams = some ty.params ∧
    W.arity f = dicts.length + ty.params
  | .named (.constant c) ty => IsFn W (S.constant c) ty.params
  | .named (.method d m _) ty => IsFn W (S.method d m) ty.params
  | .named (.actor _) _ => True
  | .ctor (.prelude c) => (preludeArity c).isSome = true
  | .ctor (.union _) => True
  | .computed _ => ∃ n, IsFn W S.callee n

def Head.isActor : Head F → Bool
  | .named (.actor _) _ => true
  | _ => false

def Head.isCtor : Head F → Bool
  | .ctor _ => true
  | _ => false

def Arg.isMessage : Arg → Bool
  | .message _ => true
  | _ => false

/-- A message stands where a function of `std.actor` takes one, and nowhere else. -/
def Placed (head : Head F) (args : List Arg) : Prop :=
  ∀ i a, args[i]? = some a → (a.isMessage = true ↔ head.isActor = true ∧ i = 1)

/-- The values of the arguments from the `i`-th on. -/
def argVals (i k : Nat) : List (Val F D) := (List.range' i k).map S.arg

/-- The applications the checker accepts, of a function of `n` parameters. A function of `std.actor`
takes all its arguments at once, by its name; `f ()` calls a function that takes nothing; what stands
in parentheses after a pipe is itself the function. -/
def Accepted (n : Nat) : App F → Prop
  | .call callee args => Typed W S callee.head ∧ params W S callee.head = n ∧
    Placed callee.head args ∧
    (callee.head.isActor = true → callee.parens = false ∧ args.length = n) ∧
    (n = 0 → args = [.unit] ∧ callee.head.isCtor = false) ∧
    (0 < n → 0 < args.length ∧ args.length ≤ n)
  | .pipeCall lhs callee args false => Typed W S callee.head ∧ params W S callee.head = n ∧
    Placed callee.head (args ++ [lhs]) ∧
    (callee.head.isActor = true → callee.parens = false ∧ args.length + 1 = n) ∧
    0 < args.length ∧ args.length + 1 ≤ n
  | .pipeCall lhs callee args true => Typed W S callee.head ∧ callee.head.isActor = false ∧
    Placed callee.head (args ++ [lhs]) ∧ 0 < args.length ∧ 0 < n ∧
    (args.length + n = params W S callee.head ∨
      ∃ g, full W S callee.head (if params W S callee.head = 0 then [] else
        argVals S 0 args.length) = some g ∧ IsFn W g n ∧
        (params W S callee.head = args.length ∨ params W S callee.head = 0 ∧ args = [.unit]))
  | .pipe lhs callee => Typed W S callee.head ∧ params W S callee.head = n ∧ 0 < n ∧
    callee.head.isActor = false ∧ lhs.isMessage = false
  | .value callee => Typed W S callee.head ∧ params W S callee.head = n

/-- How many arguments are given. -/
def given : App F → Nat
  | .call callee args => if params W S callee.head = 0 then 0 else args.length
  | .pipeCall _ _ args parens => if parens then 1 else args.length + 1
  | .pipe _ _ => 1
  | .value _ => 0

def calleeEvents : Head F → List Event
  | .computed _ => [.callee]
  | _ => []

def argEvents (i k : Nat) : List Event := (List.range' i k).map .arg

/-- The expressions of the application, each once. -/
def expected : App F → List Event
  | .call callee args => calleeEvents callee.head ++
    (if params W S callee.head = 0 then [] else argEvents 0 args.length)
  | .pipeCall _ callee args _ => calleeEvents callee.head ++
    (if params W S callee.head = 0 then argEvents args.length 1 else argEvents 0 (args.length + 1))
  | .pipe _ callee => calleeEvents callee.head ++ argEvents 0 1
  | .value callee => calleeEvents callee.head

/-- The full call: the arguments given, and the rest. -/
def whole (rest : List (Val F D)) : App F → Option (Val F D)
  | .call callee args => full W S callee.head
    ((if params W S callee.head = 0 then [] else argVals S 0 args.length) ++ rest)
  | .pipeCall _ callee args parens =>
    if parens = true ∧ params W S callee.head ≤ args.length then
      (full W S callee.head (if params W S callee.head = 0 then [] else
        argVals S 0 args.length)).bind fun g => callValue W g (S.arg args.length :: rest)
    else full W S callee.head (argVals S 0 (args.length + 1) ++ rest)
  | .pipe _ callee => full W S callee.head (S.arg 0 :: rest)
  | .value callee => full W S callee.head rest

/-- The application is applied to all its arguments: it is not a function that waits for more. -/
def Saturated (n : Nat) : App F → Prop
  | .value callee => callee.head.isCtor = true ∧ n = 0
  | app => given W S app = n

/-- The application is one thing: lowering reports no error, each of its expressions is evaluated
once, when the application is, its value applied to the remaining arguments is the full call's, and
the lambdas are of as many parameters as arguments remain. -/
def OneThing (n : Nat) (app : App F) : Prop :=
  ∃ ir log v, lowerApp app = .ok ir ∧ ir.LambdasOf (n - given W S app) ∧
    eval W S [] ir = some (log, v) ∧ log.Perm (expected W S app) ∧
    ∀ rest : List (Val F D), rest.length = n - given W S app →
      (Saturated W S n app → whole W S rest app = some v) ∧
      (¬ Saturated W S n app → ∃ r, applyVal W S v rest = some r ∧ whole W S rest app = some r)

end Ridge.Applied
