import Ridge.Codegen.Machine

/-!
# What a function body means

The reading of the IR in which early exits are structural: a `return` ends the function, inner
function or lambda around it, a `?` of a `try` block ends that block. The order of evaluation is
left to right.

The run keeps two counts that the meaning does not depend on: the early exits executed where the
emitted code has nothing waiting for them, and the operands that a field read off a record
literal leaves out of the emitted code.
-/

namespace Ridge

/-- Where an expression stands in its function. -/
structure Place where
  /-- The function's code is framed: one of its returns was found outside tail position. -/
  framed : Bool
  /-- Inside an operand of a record update of that function. -/
  update : Bool
  /-- Inside a `try` block of that function. -/
  inTry : Bool

namespace HostRun

variable {W α : Type}

/-- A `return` under a record update of an unframed function. -/
def noteReturn (p : Place) : HostRun W Unit :=
  Early.modify fun s =>
    if !p.framed && p.update then { s with unlanded := s.unlanded + 1 } else s

/-- A `?` of a `try` block outside every `try` block. -/
def noteExit (p : Place) : HostRun W Unit :=
  Early.modify fun s => if p.inTry then s else { s with unlanded := s.unlanded + 1 }

/-- How a run ends where a `return` of it lands. -/
def landReturn : Except Leave HostVal → Except Leave HostVal
  | .error (.returned v) => .ok v
  | r => r

variable (m : HostRun W HostVal)

/-- A function yields the value of a `return` in it. -/
def returnHere : HostRun W HostVal := Early.ending landReturn m

/-- A `try` block yields the value of an exit, or wraps its own. -/
def exitHere : HostRun W HostVal :=
  Early.ending (fun
    | .ok v => .ok (.tuple [.atom "ok", v])
    | .error (.exited v) => .ok v
    | r => r) m

/-- An exit does not leave its function. -/
def boundary : HostRun W HostVal :=
  Early.ending (fun
    | .error (.exited v) => .error (.raised "error" (.tuple [.atom "nocatch", v]))
    | r => r) (returnHere m)

def endsInValue : Except Leave α → Bool
  | .ok _ => true
  | .error _ => false

/-- Runs an operand that the emitted code leaves out, and writes down what it did. -/
def discarded : HostRun W HostVal := fun s =>
  ((m s).1, { s with
    store := (m s).2.store
    discards := s.discards ++ [⟨s.store, endsInValue (m s).1, (m s).2.store⟩] })

end HostRun

def hasKey (name : String) (fields : List (String × IrExpr)) : Bool :=
  fields.any fun f => f.1 = name

section Source

variable {W : Type} (M : Machine W) (apply : HostVal → List HostVal → HostRun W HostVal)

/-- A call of a named symbol, over the computations of its operands. -/
def runStaticCall (sym : SymbolRef) (operands : List (HostRun W HostVal)) : HostRun W HostVal :=
  match calleeError sym operands.length with
  | some _ => HostRun.rejected
  | none =>
    match sym with
    | .constructor _ _ => Early.bind (Early.all operands) (perform M apply (.construct sym []))
    | .prelude _ => Early.bind (Early.all operands) (perform M apply (.construct sym []))
    | _ =>
      if isIdentityCall sym then operands.headD HostRun.rejected
      else Early.bind (Early.all operands) (perform M apply (.callSymbol sym))

def whenHandler (message : SymbolRef) (m : HostRun W HostVal) : HostRun W HostVal :=
  match message with
  | .handler _ _ _ => m
  | _ => HostRun.rejected

def whenActor (actor : SymbolRef) (m : HostRun W HostVal) : HostRun W HostVal :=
  match actor with
  | .actorType _ _ => m
  | _ => HostRun.rejected

mutual

def runSource (p : Place) : IrExpr → HostRun W HostVal
  | .lit (.float x) => if x.isNonFinite then HostRun.rejected else Early.pure (.float x)
  | .lit value => Early.pure (.ofLit value)
  | .local name => HostRun.readLocal name
  | .symbol sym => symbolValue M apply sym
  | .listLit elems => Early.bind (Early.all (runEach p elems)) (perform M apply .listLit)
  | .tuple elems => Early.bind (Early.all (runEach p elems)) (perform M apply .tuple)
  | .cons head tail =>
    Early.bind (Early.all [runSource p head, runSource p tail]) (perform M apply .cons)
  | .letIn (.bind name none) (.lambda params source) body =>
    Early.bind
      (HostRun.capture (if referencesLocal name source then some name else none) params source)
      fun v => HostRun.withLocals [(name, v)] (runSource p body)
  | .letIn (.bind name none) value body =>
    Early.bind (runSource p value) fun v => HostRun.withLocals [(name, v)] (runSource p body)
  | .letIn pat value body =>
    Early.bind (runSource p value) fun v =>
      matchClause pat v none (runSource p body) (unmatched v)
  | .varIn name value body =>
    Early.bind (runSource p value) fun v => HostRun.withLocals [(name, v)] (runSource p body)
  | .assign _ _ => HostRun.rejected
  | .ret value =>
    Early.bind (runSource p value) fun v =>
      Early.bind (HostRun.noteReturn p) fun _ => Early.leave (.returned v)
  | .functionScope body =>
    HostRun.returnHere
      (runSource { framed := hasNonTailReturn body, update := false, inTry := p.inTry } body)
  | .resultScope body => HostRun.exitHere (runSource { p with inTry := true } body)
  | .resultExit value =>
    Early.bind (runSource p value) fun v =>
      Early.bind (HostRun.noteExit p) fun _ => Early.leave (.exited v)
  | .block stmts => runBlock p stmts
  | .match scrutinee arms => Early.bind (runSource p scrutinee) fun v => runArms p arms v
  | .lambda params body => HostRun.capture none params body
  | .call (.symbol sym) args =>
    let operands := runEach p args
    if M.tables.isConst sym then
      Early.bind (Early.all (symbolValue M apply sym :: operands)) (perform M apply .apply)
    else runStaticCall M apply sym
      (if skipsFirst M.tables sym args then operands.tail else operands)
  | .call callee args =>
    Early.bind (Early.all (runSource p callee :: runEach p args)) (perform M apply .apply)
  | .construct ctor fields =>
    match constructorError ctor fields.length with
    | some _ => HostRun.rejected
    | none =>
      Early.bind (Early.all (runFields p fields))
        (perform M apply (.construct ctor (fields.map Prod.fst)))
  | .recordUpdate base updates =>
    Early.bind
      (Early.all (runSource { p with update := true } base ::
        runFields { p with update := true } updates))
      (perform M apply
        (.mapUpdate (lowerExpr M.tables base).isStaticMap (updates.map Prod.fst)))
  | .field (.construct (.constructor .record ctor) fields) name =>
    if hasKey name fields then runLiteral p name fields none
    else Early.bind (Early.all [Early.bind (Early.all (runFields p fields))
        (perform M apply (.construct (.constructor .record ctor) (fields.map Prod.fst)))])
      (perform M apply (.mapsGet name))
  | .field base name =>
    Early.bind (Early.all [runSource p base]) (perform M apply (.mapsGet name))
  | .send handle message args =>
    whenHandler message (Early.bind (Early.all (runSource p handle :: runEach p args))
      (perform M apply (.sendOp message)))
  | .ask handle message args timeout =>
    whenHandler message
      (Early.bind (Early.all (runSource p handle :: (runEach p args ++ runTimeout p timeout)))
        (perform M apply (.tryAsk message (.of timeout))))
  | .tryAsk handle message args timeout =>
    whenHandler message
      (Early.bind (Early.all (runSource p handle :: (runEach p args ++ runTimeout p timeout)))
        (perform M apply (.tryAsk message (.of timeout))))
  | .actorSend handle message args =>
    whenHandler message (Early.bind (Early.all (runSource p handle :: runEach p args))
      (perform M apply (.sendFn message)))
  | .spawn actor args =>
    whenActor actor (Early.bind (Early.all (runEach p args)) (perform M apply (.spawnActor actor)))
  | .childSpec actor args =>
    whenActor actor (Early.bind (Early.all (runEach p args)) (perform M apply (.childSpec actor)))

def runEach (p : Place) : List IrExpr → List (HostRun W HostVal)
  | [] => []
  | e :: es => runSource p e :: runEach p es

def runFields (p : Place) : List (String × IrExpr) → List (HostRun W HostVal)
  | [] => []
  | (_, e) :: fs => runSource p e :: runFields p fs

def runTimeout (p : Place) : IrTimeout → List (HostRun W HostVal)
  | .none => []
  | .never => []
  | .millis e => [runSource p e]

/-- A record literal of which one field is read: the first of the name. The others are what the
emitted code leaves out. -/
def runLiteral (p : Place) (name : String) :
    List (String × IrExpr) → Option HostVal → HostRun W HostVal
  | [], some v => Early.pure v
  | [], none => HostRun.rejected
  | (key, e) :: fs, none =>
    if key = name then Early.bind (runSource p e) fun v => runLiteral p name fs (some v)
    else Early.bind (HostRun.discarded (runSource p e)) fun _ => runLiteral p name fs none
  | (_, e) :: fs, some v =>
    Early.bind (HostRun.discarded (runSource p e)) fun _ => runLiteral p name fs (some v)

def runBlock (p : Place) : List IrExpr → HostRun W HostVal
  | [] => HostRun.rejected
  | [e] => runSource p e
  | .assign (.local name) value :: rest =>
    Early.bind (runSource p value) fun v =>
      Early.bind (HostRun.setLocal name v) fun _ => runBlock p rest
  | .assign (.stateField _) _ :: _ => HostRun.rejected
  | .letIn _ _ _ :: _ => HostRun.rejected
  | .varIn _ _ _ :: _ => HostRun.rejected
  | e :: rest => Early.bind (runSource p e) fun _ => runBlock p rest

def runArms (p : Place) : List IrArm → HostVal → HostRun W HostVal
  | [], v => unmatched v
  | .mk pat none body :: arms, v =>
    matchClause pat v none (runSource p body) (runArms p arms v)
  | .mk pat (some guard) body :: arms, v =>
    matchClause pat v
      (some (HostRun.guardValue (!containsNonBifCall M.tables (lowerExpr M.tables guard))
        (runSource p guard)))
      (runSource p body) (runArms p arms v)

end

end Source

variable {W : Type}

/-- A call of a function value, nested at most `n` deep. -/
def Machine.source (M : Machine W) : Nat → HostVal → List HostVal → HostRun W HostVal
  | 0, _, _ => Early.leave .timeout
  | n + 1, f, args =>
    match f with
    | .closure self params body env =>
      if params.length = args.length then
        HostRun.withFrame (params.zip args ++ (self.toList.map (·, f) ++ env))
          (HostRun.boundary (runSource M (M.source n)
            { framed := hasNonTailReturn body, update := false, inTry := false } body))
      else HostRun.raise "error" (.atom "badarity")
    | .fnRef sym =>
      match M.fns sym with
      | some fn =>
        if fn.params.length = args.length then
          HostRun.withFrame (fn.params.zip args)
            (HostRun.boundary (runSource M (M.source n)
              { framed := hasNonTailReturn fn.body, update := false, inTry := false }
              fn.body))
        else HostRun.raise "error" (.atom "undef")
      | none => hostCall M (M.source n) (.callSymbol sym) args
    | _ => HostRun.raise "error" (.tuple [.atom "badfun", f])

/-!
## What the emitted code does

The emitted code knows values and exceptions only. A control exit is a throw with a private
tag; a catch frame takes the throws of its own tag and raises every other exception again.
-/

namespace HostRun

variable {α : Type}

/-- `wrap_with_control_catch`: the value of a throw with the frame's tag, any other exception
again, and a value as it is or wrapped in `ok`. -/
def catchControl (tag : ControlTag) (wrapOk : Bool) (m : HostRun W HostVal) : HostRun W HostVal :=
  Early.ending (fun
    | .ok v => .ok (if wrapOk then .tuple [.atom "ok", v] else v)
    | .error (.raised cls reason) =>
      match controlOf cls reason with
      | some (thrown, v) => if thrown = tag then .ok v else .error (.raised cls reason)
      | none => .error (.raised cls reason)
    | .error e => .error e) m

def throwsOwn (isOwn : ControlTag → Bool) : Except Leave α → Bool
  | .error (.raised cls reason) => (controlOf cls reason).any fun thrown => isOwn thrown.1
  | _ => false

/-- Writes down the control throws that leave the code they are raised for. -/
def watch (isOwn : ControlTag → Bool) (m : HostRun W HostVal) : HostRun W HostVal := fun s =>
  ((m s).1,
    if throwsOwn isOwn (m s).1 then { (m s).2 with escapes := (m s).2.escapes + 1 } else (m s).2)

end HostRun

section Emitted

variable {W : Type} (M : Machine W) (apply : HostVal → List HostVal → HostRun W HostVal)

mutual

def runHost : Host → HostRun W HostVal
  | .lit value => Early.pure (.ofLit value)
  | .var name => HostRun.readLocal name
  | .symbol sym => symbolValue M apply sym
  | .funOf params source _ => HostRun.capture none params source
  | .operate op operands => Early.bind (Early.all (runOperands operands)) (perform M apply op)
  | .letVar name value body =>
    Early.bind (runHost value) fun v => HostRun.withLocals [(name, v)] (runHost body)
  | .letRec name params source _ body =>
    Early.bind (HostRun.capture (some name) params source) fun v =>
      HostRun.withLocals [(name, v)] (runHost body)
  | .case scrutinee clauses => Early.bind (runHost scrutinee) fun v => runClauses clauses v
  | .letCell name value body =>
    Early.bind (runHost value) fun v => HostRun.withLocals [(name, v)] (runHost body)
  | .assign name value rest =>
    Early.bind (runHost value) fun v =>
      Early.bind (HostRun.setLocal name v) fun _ => runHost rest
  | .seq first rest => Early.bind (runHost first) fun _ => runHost rest
  | .throw tag value =>
    Early.bind (runHost value) fun v => HostRun.raise "throw" (controlReason tag v)
  | .tryControl tag wrapOk body => HostRun.catchControl tag wrapOk (runHost body)
  | .mark body => HostRun.watch (· = .ridgeReturn) (runHost body)
  | .reject _ => HostRun.rejected

def runOperands : List Host → List (HostRun W HostVal)
  | [] => []
  | h :: hs => runHost h :: runOperands hs

def runClauses : List HostClause → HostVal → HostRun W HostVal
  | [], v => unmatched v
  | .mk pat none _ body :: clauses, v =>
    matchClause pat v none (runHost body) (runClauses clauses v)
  | .mk pat (some guard) kept body :: clauses, v =>
    matchClause pat v (some (HostRun.guardValue kept (runHost guard))) (runHost body)
      (runClauses clauses v)

end

end Emitted

variable {W : Type}

/-- A call of a function value by the emitted code, nested at most `n` deep. -/
def Machine.emitted (M : Machine W) : Nat → HostVal → List HostVal → HostRun W HostVal
  | 0, _, _ => Early.leave .timeout
  | n + 1, f, args =>
    match f with
    | .closure self params body env =>
      if params.length = args.length then
        HostRun.withFrame (params.zip args ++ (self.toList.map (·, f) ++ env))
          (HostRun.watch (fun _ => true) (runHost M (M.emitted n) (lowerFnBody M.tables body)))
      else HostRun.raise "error" (.atom "badarity")
    | .fnRef sym =>
      match M.fns sym with
      | some fn =>
        if fn.params.length = args.length then
          HostRun.withFrame (fn.params.zip args)
            (HostRun.watch (fun _ => true)
              (runHost M (M.emitted n) (lowerFnBody M.tables fn.body)))
        else HostRun.raise "error" (.atom "undef")
      | none => hostCall M (M.emitted n) (.callSymbol sym) args
    | _ => HostRun.raise "error" (.tuple [.atom "badfun", f])

end Ridge
