import Ridge.Lib.Early
import Ridge.Codegen.Host

/-!
# The machine that runs functions

Values, patterns and the operations of the strict forms, shared by the two readings of a
function body. Code that is not Ridge code (the runtime, the host's own functions) is a
parameter: it may answer, raise, and call back the function values it is given.
-/

namespace Ridge

/-- A value of the host. A closure keeps the lambda it was made from, the values it captured and,
for a recursive inner function, its own name. -/
inductive HostVal where
  | int (n : Int)
  | float (x : Float64)
  | text (s : String)
  | atom (name : String)
  | nil
  | cons (head tail : HostVal)
  | tuple (elems : List HostVal)
  | record (fields : List (String × HostVal))
  | fnRef (sym : SymbolRef)
  | closure (self : Option String) (params : List String) (body : IrExpr)
      (env : List (String × HostVal))

abbrev Locals : Type := List (String × HostVal)

namespace HostVal

def ofList : List HostVal → HostVal
  | [] => .nil
  | v :: vs => .cons v (ofList vs)

/-- `lower_lit`. -/
def ofLit : IrLit → HostVal
  | .int n => .int n
  | .float x => .float x
  | .bool true => .atom "true"
  | .bool false => .atom "false"
  | .text s => .text s
  | .unit => .atom "ok"
  | .emptyList => .nil

/-- Whether a value is a literal's. -/
def isLit : HostVal → IrLit → Bool
  | .int n, .int k => n = k
  | .float x, .float y => x = y
  | .text s, .text t => s = t
  | .atom a, .bool b => a = if b then "true" else "false"
  | .atom a, .unit => a = "ok"
  | .nil, .emptyList => true
  | _, _ => false

def isTrue : HostVal → Bool
  | .atom a => a = "true"
  | _ => false

end HostVal

def lookupName (name : String) : Locals → Option HostVal
  | [] => none
  | (x, v) :: rest => if x = name then some v else lookupName name rest

/-- Rewrites the innermost variable of the name. -/
def assignName (name : String) (value : HostVal) : Locals → Locals
  | [] => []
  | (x, v) :: rest => if x = name then (x, value) :: rest else (x, v) :: assignName name value rest

mutual

def matchPat : IrPat → HostVal → Option Locals
  | .wild, _ => some []
  | .lit value, v => if v.isLit value then some [] else none
  | .bind name none, v => some [(name, v)]
  | .bind name (some inner), v => (matchPat inner v).map ((name, v) :: ·)
  | .ctor (.constructor .record _) fields _, .record values => matchFields fields values
  | .ctor (.constructor .unionVariant name) [] [], .atom a => if a = name then some [] else none
  | .ctor (.constructor .unionVariant name) fields args, .tuple (.atom a :: vs) =>
    if a = name then
      -- Positional patterns first, then those of named fields.
      match matchElems args (vs.take args.length), matchNamed fields (vs.drop args.length) with
      | some bs, some bs' => some (bs ++ bs')
      | _, _ => none
    else none
  | .ctor (.prelude name) _ args, v =>
    match preludeTag name, args, v with
    | some (tag, true), [arg], .tuple [.atom a, payload] =>
      if a = tag then matchPat arg payload else none
    | some (tag, false), _, .atom a => if a = tag then some [] else none
    | _, _, _ => none
  | .tuple elems, .tuple vs => matchElems elems vs
  | .cons head tail, .cons v w =>
    match matchPat head v, matchPat tail w with
    | some bs, some bs' => some (bs ++ bs')
    | _, _ => none
  | .nil, .nil => some []
  | _, _ => none

def matchElems : List IrPat → List HostVal → Option Locals
  | [], [] => some []
  | p :: ps, v :: vs =>
    match matchPat p v, matchElems ps vs with
    | some bs, some bs' => some (bs ++ bs')
    | _, _ => none
  | _, _ => none

def matchNamed : List (String × IrPat) → List HostVal → Option Locals
  | [], [] => some []
  | (_, p) :: ps, v :: vs =>
    match matchPat p v, matchNamed ps vs with
    | some bs, some bs' => some (bs ++ bs')
    | _, _ => none
  | _, _ => none

def matchFields : List (String × IrPat) → Locals → Option Locals
  | [], _ => some []
  | (key, p) :: ps, values =>
    match lookupName key values with
    | none => none
    | some v =>
      match matchPat p v, matchFields ps values with
      | some bs, some bs' => some (bs ++ bs')
      | _, _ => none

end

/-! ## States and leaving -/

/-- What the world and the local variables of the running function are. -/
structure Store (W : Type) where
  world : W
  locals : Locals

/-- The record of an operand that a field read off a record literal leaves out. -/
structure Discard (W : Type) where
  before : Store W
  value : Bool
  after : Store W

/-- The operand ended in a value and changed nothing. -/
def Discard.Silent {W : Type} (d : Discard W) : Prop := d.value = true ∧ d.after = d.before

/-- A store, with what is written down about a run. `unlanded` counts the early exits executed
where no code waits for them, `escapes` the control throws that left the function they were
raised in. -/
structure RunState (W : Type) where
  store : Store W
  unlanded : Nat
  discards : List (Discard W)
  escapes : Nat

/-- How a computation leaves. -/
inductive Leave where
  | returned (value : HostVal)
  | exited (value : HostVal)
  | raised (cls : String) (reason : HostVal)
  | timeout

abbrev HostRun (W α : Type) : Type := Early (RunState W) Leave α

/-- `lower_control_exit`: the reason of a control throw. -/
def controlReason (tag : ControlTag) (value : HostVal) : HostVal :=
  .tuple [.atom tag.atom, value]

/-- The control throw that a host exception is, as the catch frames tell it. -/
def controlOf (cls : String) (reason : HostVal) : Option (ControlTag × HostVal) :=
  if cls = "throw" then
    match reason with
    | .tuple [.atom tag, value] =>
      if tag = ControlTag.ridgeReturn.atom then some (.ridgeReturn, value)
      else if tag = ControlTag.ridgeResultExit.atom then some (.ridgeResultExit, value)
      else none
    | _ => none
  else none

/-! ## Code outside the language -/

/-- What code outside the language does with its operands: it answers or raises, after any
number of calls of the function values it was given. -/
inductive HostProg (W : Type) where
  | done (answer : Except (String × HostVal) HostVal) (world : W)
  | call (f : HostVal) (args : List HostVal) (world : W)
      (rest : Except (String × HostVal) HostVal → W → HostProg W)

/-- An answer that is not one of the private control throws. -/
def Uncontrolled (answer : Except (String × HostVal) HostVal) : Prop :=
  ∀ cls reason, answer = .error (cls, reason) → controlOf cls reason = none

/-- The control tags are private: the program raises one only if a call it made did. -/
inductive HostProg.Private {W : Type} : HostProg W → Prop where
  | done {answer world} (h : Uncontrolled answer) : Private (.done answer world)
  | call {f args world rest} (h : ∀ answer w, Uncontrolled answer → Private (rest answer w)) :
      Private (.call f args world rest)

/-- A function of the program. -/
structure IrFn where
  params : List String
  body : IrExpr

/-- A program, with the code it calls that is not its own. -/
structure Machine (W : Type) where
  tables : CodegenTables
  beamModule : SymbolRef → String
  fns : SymbolRef → Option IrFn
  host : HostOp → List HostVal → W → HostProg W
  host_private : ∀ op args world, (host op args world).Private

namespace HostRun

variable {W α : Type}

def raise (cls : String) (reason : HostVal) : HostRun W α := Early.leave (.raised cls reason)

/-- A shape that lowering rejects is never run; both readings stop at it alike. -/
def rejected : HostRun W α := raise "error" (.atom "rejected")

/-- Runs `m` with further local variables. -/
def withLocals (bindings : Locals) (m : HostRun W α) : HostRun W α :=
  Early.within
    (fun s => { s with store := { s.store with locals := bindings ++ s.store.locals } })
    (fun _ s => { s with store := { s.store with
      locals := s.store.locals.drop bindings.length } }) m

/-- Runs a function body over its own local variables. -/
def withFrame (frame : Locals) (m : HostRun W α) : HostRun W α :=
  Early.within
    (fun s => { s with store := { s.store with locals := frame } })
    (fun s₀ s => { s with store := { s.store with locals := s₀.store.locals } }) m

def readLocal (name : String) : HostRun W HostVal :=
  Early.bind (Early.read fun s => lookupName name s.store.locals) fun
    | some v => Early.pure v
    | none => raise "error" (.tuple [.atom "unbound", .text name])

def setLocal (name : String) (value : HostVal) : HostRun W Unit :=
  Early.modify fun s => { s with store := { s.store with
    locals := assignName name value s.store.locals } }

/-- A function value captures the variables at their current values. -/
def capture (self : Option String) (params : List String) (body : IrExpr) : HostRun W HostVal :=
  Early.read fun s => .closure self params body s.store.locals

def setWorld (world : W) : HostRun W Unit :=
  Early.modify fun s => { s with store := { s.store with world := world } }

variable (m : HostRun W HostVal)

/-- How a call ended, as code that catches exceptions sees it. -/
def answering : HostRun W (Except (String × HostVal) HostVal) :=
  Early.ending (fun
    | .ok v => .ok (.ok v)
    | .error (.raised cls reason) => .ok (.error (cls, reason))
    | .error e => .error e) m

/-- A guard kept in its clause fails where it raises. -/
def keptGuard : HostRun W Bool :=
  Early.ending (fun
    | .ok v => .ok v.isTrue
    | .error (.raised _ _) => .ok false
    | .error e => .error e) m

def liftedGuard : HostRun W Bool :=
  Early.bind m fun v => Early.pure v.isTrue

def guardValue (kept : Bool) (m : HostRun W HostVal) : HostRun W Bool :=
  if kept then keptGuard m else liftedGuard m

end HostRun

/-! ## Operations -/

/-- `maps:merge/2`. -/
def mergeFields : Locals → Locals → Locals
  | fields, [] => fields
  | fields, (key, v) :: rest =>
    mergeFields (if (lookupName key fields).isSome then assignName key v fields
      else fields ++ [(key, v)]) rest

/-- `lower_construct` and the constructor calls: a record is a map, a variant a tagged tuple or
a bare atom. -/
def constructed (ctor : SymbolRef) (keys : List String) (vs : List HostVal) : HostVal :=
  match ctor with
  | .constructor .record _ => .record (keys.zip vs)
  | .constructor .unionVariant name => if vs.isEmpty then .atom name else .tuple (.atom name :: vs)
  | .prelude name =>
    let tag := ((preludeTag name).map Prod.fst).getD name
    if vs.isEmpty then .atom tag else .tuple (.atom tag :: vs)
  | _ => .atom "undefined"

/-- The child specification of `lower_child_spec`. -/
def childSpecOf (beamModule : String) (actor : SymbolRef) (vs : List HostVal) : HostVal :=
  let name := match actor with
    | .actorType _ name => name
    | _ => ""
  .record [("id", .text name.toLower),
    ("start", .tuple [.atom beamModule, .atom "start_link", .ofList vs]),
    ("restart", .atom "permanent"), ("shutdown", .int 5000)]

section Operations

variable {W : Type} (M : Machine W) (apply : HostVal → List HostVal → HostRun W HostVal)

/-- Runs code outside the language; `apply` calls a function value. -/
def runHostProg : HostProg W → HostRun W HostVal
  | .done answer world =>
    Early.bind (HostRun.setWorld world) fun _ =>
      match answer with
      | .ok v => Early.pure v
      | .error (cls, reason) => HostRun.raise cls reason
  | .call f args world rest =>
    Early.bind (HostRun.setWorld world) fun _ =>
      Early.bind (HostRun.answering (apply f args)) fun answer =>
        Early.bind (Early.read fun s => s.store.world) fun world =>
          runHostProg (rest answer world)

def hostCall (op : HostOp) (vs : List HostVal) : HostRun W HostVal :=
  Early.bind (Early.read fun s => s.store.world) fun world =>
    runHostProg apply (M.host op vs world)

/-- What an operation does with its operands' values. -/
def perform (op : HostOp) (vs : List HostVal) : HostRun W HostVal :=
  match op, vs with
  | .apply, f :: args => apply f args
  | .callSymbol sym, args => apply (.fnRef sym) args
  | .construct ctor keys, vs => Early.pure (constructed ctor keys vs)
  | .mapUpdate _ keys, .record fields :: vs => Early.pure (.record (mergeFields fields (keys.zip vs)))
  | .mapUpdate _ _, v :: _ => HostRun.raise "error" (.tuple [.atom "badmap", v])
  | .mapsGet key, [.record fields] =>
    match lookupName key fields with
    | some v => Early.pure v
    | none => HostRun.raise "error" (.tuple [.atom "badkey", .atom key])
  | .mapsGet _, [v] => HostRun.raise "error" (.tuple [.atom "badmap", v])
  | .listLit, vs => Early.pure (.ofList vs)
  | .tuple, vs => Early.pure (.tuple vs)
  | .cons, [v, w] => Early.pure (.cons v w)
  | .childSpec actor, vs => Early.pure (childSpecOf (M.beamModule actor) actor vs)
  | op, vs => hostCall M apply op vs

/-- A symbol read as a value: a constant is evaluated, anything else names a function. -/
def symbolValue (sym : SymbolRef) : HostRun W HostVal :=
  if M.tables.isConst sym then apply (.fnRef sym) [] else Early.pure (.fnRef sym)

/-- Selects a clause. `guard` is the value of the arm's guard, if it has one. -/
def matchClause (pat : IrPat) (v : HostVal) (guard : Option (HostRun W Bool))
    (body next : HostRun W HostVal) : HostRun W HostVal :=
  match matchPat pat v with
  | none => next
  | some bindings =>
    match guard with
    | none => HostRun.withLocals bindings body
    | some guard =>
      Early.bind (HostRun.withLocals bindings guard) fun taken =>
        if taken then HostRun.withLocals bindings body else next

def unmatched (v : HostVal) : HostRun W HostVal :=
  HostRun.raise "error" (.tuple [.atom "case_clause", v])

end Operations

end Ridge
