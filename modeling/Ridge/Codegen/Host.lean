import Ridge.Codegen.Return

/-!
# Lowering to the host's control forms

What `expr.rs`, `messaging.rs` and `return_.rs` emit for an IR expression, seen as a tree of
host operations. The control forms are the emitted ones (throws, catch frames, sequences,
clauses); a strict form is one operation over its operands, in the order in which they are
evaluated. Variable names and the versions of a reassigned `var` are kept as the source writes
them: how they are renamed is a question of its own.
-/

namespace Ridge

/-- The tag of a private control throw. -/
inductive ControlTag where
  | ridgeReturn
  | ridgeResultExit
  deriving DecidableEq

def ControlTag.atom : ControlTag → String
  | .ridgeReturn => "ridge_return"
  | .ridgeResultExit => "ridge_result_exit"

/-- The timeout operand of an ask, when it is not an expression of its own. -/
inductive TimeoutKind where
  | default
  | infinity
  | millis
  deriving DecidableEq

/-- What a strict form does once its operands are values. -/
inductive HostOp where
  | apply
  | callSymbol (sym : SymbolRef)
  | construct (ctor : SymbolRef) (keys : List String)
  | mapUpdate (native : Bool) (keys : List String)
  | mapsGet (key : String)
  | listLit
  | tuple
  | cons
  | sendOp (message : SymbolRef)
  | tryAsk (message : SymbolRef) (timeout : TimeoutKind)
  | spawnActor (actor : SymbolRef)
  | childSpec (actor : SymbolRef)
  | sendFn (message : SymbolRef)
  deriving DecidableEq

/-- An IR shape that has no lowering. -/
inductive CodegenError where
  | nonFiniteFloat
  | assignOutsideBlock
  | stateFieldAssign (name : String)
  | emptyBlock
  | continuationFormInBlock
  | fieldCount (name : String) (expected got : Nat)
  | notAConstructor (sym : SymbolRef)
  | notACallee (sym : SymbolRef)
  | argCount (sym : SymbolRef) (expected got : Nat)
  | notAHandler (sym : SymbolRef)
  | notAnActorType (sym : SymbolRef)
  deriving DecidableEq

mutual

/-- The emitted code. -/
inductive Host where
  | lit (value : IrLit)
  | var (name : String)
  | symbol (sym : SymbolRef)
  -- A `fun`: the code it was given and the lambda body that code was lowered from.
  | funOf (params : List String) (source : IrExpr) (code : Host)
  | operate (op : HostOp) (operands : List Host)
  | letVar (name : String) (value body : Host)
  | letRec (name : String) (params : List String) (source : IrExpr) (code body : Host)
  | case (scrutinee : Host) (clauses : List HostClause)
  | letCell (name : String) (value body : Host)
  | assign (name : String) (value rest : Host)
  | seq (first rest : Host)
  | throw (tag : ControlTag) (value : Host)
  | tryControl (tag : ControlTag) (wrapOk : Bool) (body : Host)
  -- Emits nothing: the place where the code of an inner function begins.
  | mark (body : Host)
  -- Lowering stops here: no code is emitted for the body.
  | reject (err : CodegenError)

/-- A clause. A guard is kept in the clause, or lifted into its body. -/
inductive HostClause where
  | mk (pat : IrPat) (guard : Option Host) (kept : Bool) (body : Host)

end

/-- What lowering looks up: the arities and constants in scope, and the bridge of `std`. -/
structure CodegenTables where
  isConst : SymbolRef → Bool
  zeroArity : SymbolRef → Bool
  guardBif : SymbolRef → Nat → Bool
  valueCalls : SymbolRef → Bool

/-- `json_ctor_tag`, with the tags `lower_construct` gives to the other prelude constructors. -/
def preludeTag : String → Option (String × Bool)
  | "JNull" => some ("json_null", false)
  | "JBool" => some ("json_bool", true)
  | "JInt" => some ("json_int", true)
  | "JFloat" => some ("json_float", true)
  | "JText" => some ("json_text", true)
  | "JList" => some ("json_list", true)
  | "JObject" => some ("json_object", true)
  | "JObjectFields" => some ("json_object_fields", true)
  | "None" => some ("none", false)
  | "Some" => some ("some", true)
  | "Ok" => some ("ok", true)
  | "Err" => some ("error", true)
  | _ => none

/-- The field count `lower_construct` and `lower_prelude_call` ask of a constructor. -/
def constructorError (ctor : SymbolRef) (count : Nat) : Option CodegenError :=
  match ctor with
  | .constructor _ _ => none
  | .prelude name =>
    match preludeTag name with
    | none => some (.notAConstructor ctor)
    | some (_, payload) =>
      let expected := if payload then 1 else 0
      if count = expected then none else some (.fieldCount name expected count)
  | _ => some (.notAConstructor ctor)

/-- `is_nan() || is_infinite()`: the exponent bits are all ones. -/
def Float64.isNonFinite (x : Float64) : Bool :=
  (x.bits.extractLsb' 52 11) = 2047#11

namespace Host

/-- `cerl_is_static_map`. -/
def isStaticMap : Host → Bool
  | .operate (.construct (.constructor .record _) _) _ => true
  | .operate (.mapUpdate native _) _ => native
  | _ => false

end Host

/-- Whether the operation itself is a call that the host refuses in a clause guard. -/
def HostOp.nonBif (T : CodegenTables) (op : HostOp) (count : Nat) : Bool :=
  match op with
  | .apply => true
  | .callSymbol sym => !T.guardBif sym count
  | .mapUpdate native _ => !native
  | .mapsGet _ => true
  | .sendOp _ => true
  | .tryAsk _ _ => true
  | .spawnActor _ => true
  | .sendFn _ => true
  | .construct _ _ => false
  | .listLit => false
  | .tuple => false
  | .cons => false
  | .childSpec _ => false

mutual

def containsNonBifCall (T : CodegenTables) : Host → Bool
  | .lit _ => false
  | .var _ => false
  | .symbol sym => T.valueCalls sym
  | .funOf _ _ code => containsNonBifCall T code
  | .operate op operands => op.nonBif T operands.length || anyNonBifCall T operands
  | .letVar _ value body => containsNonBifCall T value || containsNonBifCall T body
  | .letRec _ _ _ code body => containsNonBifCall T code || containsNonBifCall T body
  | .case scrutinee clauses => containsNonBifCall T scrutinee || clausesNonBifCall T clauses
  | .letCell _ value body => containsNonBifCall T value || containsNonBifCall T body
  | .assign _ value rest => containsNonBifCall T value || containsNonBifCall T rest
  | .seq first rest => containsNonBifCall T first || containsNonBifCall T rest
  | .throw _ _ => true
  | .tryControl _ _ _ => true
  | .mark body => containsNonBifCall T body
  | .reject _ => true

def anyNonBifCall (T : CodegenTables) : List Host → Bool
  | [] => false
  | h :: hs => containsNonBifCall T h || anyNonBifCall T hs

def clausesNonBifCall (T : CodegenTables) : List HostClause → Bool
  | [] => false
  | .mk _ none _ body :: cs => containsNonBifCall T body || clausesNonBifCall T cs
  | .mk _ (some guard) _ body :: cs =>
    containsNonBifCall T guard || containsNonBifCall T body || clausesNonBifCall T cs

end

/-- Whether a call's operands begin with one that is not emitted: the `()` given to a function
of no parameters, and the provider named by `std.op.evidence`. -/
def skipsFirst (T : CodegenTables) (sym : SymbolRef) (args : List IrExpr) : Bool :=
  match sym, args with
  | .stdlib "std.op" "evidence", [.symbol _, _, _] => true
  | _, [.lit .unit] => T.zeroArity sym
  | _, _ => false

/-- What a call of a named symbol does, or why it cannot be lowered. -/
def calleeError (sym : SymbolRef) (count : Nat) : Option CodegenError :=
  match sym with
  | .constructor .record _ => some (.notACallee sym)
  | .constructor .unionVariant _ => none
  | .prelude name =>
    match preludeTag name with
    | none => some (.notACallee sym)
    | some (_, payload) =>
      let expected := if payload then 1 else 0
      if count = expected then none else some (.argCount sym expected count)
  | .handler _ _ _ => some (.notACallee sym)
  | .actorType _ _ => some (.notACallee sym)
  | .method _ _ => some (.notACallee sym)
  | .stdlib "std.text" "toText" => if count = 1 then none else some (.argCount sym 1 count)
  | .stdlib _ _ => none
  | .local _ _ => none
  | .external _ _ => none

/-- The identity shortcut of `lower_call_to_stdlib`: `std.text.toText` is its argument. -/
def isIdentityCall (sym : SymbolRef) : Bool := sym = .stdlib "std.text" "toText"

/-- `lower_static_call` on lowered operands. -/
def staticCall (sym : SymbolRef) (operands : List Host) : Host :=
  match calleeError sym operands.length with
  | some err => .reject err
  | none =>
    match sym with
    | .constructor _ _ => .operate (.construct sym []) operands
    | .prelude _ => .operate (.construct sym []) operands
    | _ =>
      if isIdentityCall sym then operands.headD (.reject (.argCount sym 1 0))
      else .operate (.callSymbol sym) operands

def TimeoutKind.of : IrTimeout → TimeoutKind
  | .none => .default
  | .never => .infinity
  | .millis _ => .millis

/-- A message is named by a handler symbol. -/
def withHandler (message : SymbolRef) (h : Host) : Host :=
  match message with
  | .handler _ _ _ => h
  | _ => .reject (.notAHandler message)

def withActor (actor : SymbolRef) (h : Host) : Host :=
  match actor with
  | .actorType _ _ => h
  | _ => .reject (.notAnActorType actor)

mutual

/-- Stripping tail returns does not grow an expression. -/
theorem sizeOf_elideTailInner : ∀ (e : IrExpr) (t : Bool),
    sizeOf (elideTailInner e t) ≤ sizeOf e
  | .ret value, true => by
    have := sizeOf_elideTailInner value true
    simp only [elideTailInner, IrExpr.ret.sizeOf_spec]
    omega
  | .block stmts, t => by
    have := sizeOf_elideBlock stmts t
    simp only [elideTailInner, IrExpr.block.sizeOf_spec]
    omega
  | .match scrutinee arms, t => by
    have := sizeOf_elideTailInner scrutinee false
    have := sizeOf_elideArms arms t
    simp only [elideTailInner, IrExpr.match.sizeOf_spec]
    omega
  | .letIn pat value body, t => by
    have := sizeOf_elideTailInner value false
    have := sizeOf_elideTailInner body t
    simp only [elideTailInner, IrExpr.letIn.sizeOf_spec]
    omega
  | .varIn name value body, t => by
    have := sizeOf_elideTailInner value false
    have := sizeOf_elideTailInner body t
    simp only [elideTailInner, IrExpr.varIn.sizeOf_spec]
    omega
  | .ret _, false | .lit _, _ | .local _, _ | .symbol _, _
  | .call _ _, _ | .lambda _ _, _ | .construct _ _, _
  | .recordUpdate _ _, _ | .field _ _, _ | .listLit _, _ | .tuple _, _
  | .cons _ _, _ | .assign _ _, _ | .functionScope _, _
  | .resultScope _, _ | .resultExit _, _ | .send _ _ _, _
  | .ask _ _ _ _, _ | .spawn _ _, _ | .childSpec _ _, _
  | .tryAsk _ _ _ _, _ | .actorSend _ _ _, _ => by simp [elideTailInner]

theorem sizeOf_elideBlock : ∀ (es : List IrExpr) (t : Bool),
    sizeOf (elideBlock es t) ≤ sizeOf es
  | [], _ => by simp [elideBlock]
  | [e], t => by
    have := sizeOf_elideTailInner e t
    simp only [elideBlock, List.cons.sizeOf_spec]
    omega
  | e :: e' :: es, t => by
    have := sizeOf_elideTailInner e false
    have := sizeOf_elideBlock (e' :: es) t
    simp only [elideBlock, List.cons.sizeOf_spec] at this ⊢
    omega

theorem sizeOf_elideArms : ∀ (arms : List IrArm) (t : Bool),
    sizeOf (elideArms arms t) ≤ sizeOf arms
  | [], _ => by simp [elideArms]
  | .mk pat guard body :: arms, t => by
    have := sizeOf_elideTailInner body t
    have := sizeOf_elideArms arms t
    simp only [elideArms, List.cons.sizeOf_spec, IrArm.mk.sizeOf_spec]
    omega

end

/-!
## Lowering

`lower_body_in_scope` with the functions it calls for lambdas, calls, fields and messages, and
`lower_fn_body`, which frames a body or strips its tail returns.
-/

/-- `body_references_local`, as `letrec_detect.rs` walks a body (a record update is not walked). -/
def referencesLocal (name : String) : IrExpr → Bool := go
where
  go : IrExpr → Bool
    | .local x => x == name
    | .block stmts => goList stmts
    | .letIn _ value body => go value || go body
    | .varIn _ value body => go value || go body
    | .match scrutinee arms => go scrutinee || goArms arms
    | .call callee args => go callee || goList args
    | .lambda _ body => go body
    | .resultScope body => go body
    | .functionScope body => go body
    | .ret value => go value
    | .resultExit value => go value
    | .assign _ value => go value
    | .construct _ fields => goFields fields
    | .field base _ => go base
    | .tuple elems => goList elems
    | .listLit elems => goList elems
    | .cons head tail => go head || go tail
    | .ask handle _ args timeout => go handle || goList args || goTimeout timeout
    | .tryAsk handle _ args timeout => go handle || goList args || goTimeout timeout
    | .send handle _ args => go handle || goList args
    | .actorSend handle _ args => go handle || goList args
    | .spawn _ args => goList args
    | .childSpec _ args => goList args
    | .lit _ => false
    | .symbol _ => false
    | .recordUpdate _ _ => false
  goList : List IrExpr → Bool
    | [] => false
    | e :: es => go e || goList es
  goFields : List (String × IrExpr) → Bool
    | [] => false
    | (_, e) :: fs => go e || goFields fs
  goArms : List IrArm → Bool
    | [] => false
    | .mk _ none body :: arms => go body || goArms arms
    | .mk _ (some guard) body :: arms => go guard || go body || goArms arms
  goTimeout : IrTimeout → Bool
    | .none => false
    | .never => false
    | .millis e => go e

mutual

/-- `lower_body_in_scope`. -/
def lowerExpr (T : CodegenTables) : IrExpr → Host
  | .lit (.float x) => if x.isNonFinite then .reject .nonFiniteFloat else .lit (.float x)
  | .lit value => .lit value
  | .local name => .var name
  | .symbol sym => .symbol sym
  | .listLit elems => .operate .listLit (lowerList T elems)
  | .tuple elems => .operate .tuple (lowerList T elems)
  | .cons head tail => .operate .cons [lowerExpr T head, lowerExpr T tail]
  | .letIn (.bind name none) (.lambda params source) body =>
    let code := lowerFnBody T source
    if referencesLocal name source then .letRec name params source code (lowerExpr T body)
    else .letVar name (.funOf params source code) (lowerExpr T body)
  | .letIn (.bind name none) value body => .letVar name (lowerExpr T value) (lowerExpr T body)
  | .letIn pat value body => .case (lowerExpr T value) [.mk pat none true (lowerExpr T body)]
  | .varIn name value body => .letCell name (lowerExpr T value) (lowerExpr T body)
  | .assign (.local _) _ => .reject .assignOutsideBlock
  | .assign (.stateField name) _ => .reject (.stateFieldAssign name)
  | .ret value => .throw .ridgeReturn (lowerExpr T value)
  | .functionScope body => .mark (lowerFnBody T body)
  | .resultScope body => .tryControl .ridgeResultExit true (lowerExpr T body)
  | .resultExit value => .throw .ridgeResultExit (lowerExpr T value)
  | .block stmts => lowerBlock T stmts
  | .match scrutinee arms => .case (lowerExpr T scrutinee) (lowerArms T arms)
  | .lambda params body => .funOf params body (lowerFnBody T body)
  | .call (.symbol sym) args =>
    let operands := lowerList T args
    if T.isConst sym then .operate .apply (.symbol sym :: operands)
    else staticCall sym (if skipsFirst T sym args then operands.tail else operands)
  | .call callee args => .operate .apply (lowerExpr T callee :: lowerList T args)
  | .construct ctor fields =>
    match constructorError ctor fields.length with
    | some err => .reject err
    | none => .operate (.construct ctor (fields.map Prod.fst)) (lowerFields T fields)
  | .recordUpdate base updates =>
    let base := lowerExpr T base
    .operate (.mapUpdate base.isStaticMap (updates.map Prod.fst))
      (base :: lowerFields T updates)
  | .field base name => lowerField T base name
  | .send handle message args =>
    withHandler message (.operate (.sendOp message) (lowerExpr T handle :: lowerList T args))
  | .ask handle message args timeout =>
    withHandler message (.operate (.tryAsk message (.of timeout))
      (lowerExpr T handle :: (lowerList T args ++ lowerTimeout T timeout)))
  | .tryAsk handle message args timeout =>
    withHandler message (.operate (.tryAsk message (.of timeout))
      (lowerExpr T handle :: (lowerList T args ++ lowerTimeout T timeout)))
  | .actorSend handle message args =>
    withHandler message (.operate (.sendFn message) (lowerExpr T handle :: lowerList T args))
  | .spawn actor args => withActor actor (.operate (.spawnActor actor) (lowerList T args))
  | .childSpec actor args => withActor actor (.operate (.childSpec actor) (lowerList T args))
termination_by e => (sizeOf e, 0)

/-- `lower_fn_body`, also the routing of `lower_lambda` and of a function scope: frame the body
if a return is not in tail position, else strip the tail returns. -/
def lowerFnBody (T : CodegenTables) (body : IrExpr) : Host :=
  if hasNonTailReturn body then .tryControl .ridgeReturn false (lowerExpr T body)
  else lowerExpr T (elideTailReturns body)
termination_by (sizeOf body, 1)
decreasing_by
  · exact Prod.Lex.right _ (by decide)
  · have := sizeOf_elideTailInner body true
    simp only [elideTailReturns, Prod.lex_def]
    omega

/-- A field of a record literal is the field's own expression. -/
def lowerField (T : CodegenTables) (base : IrExpr) (name : String) : Host :=
  match base with
  | .construct (.constructor .record ctor) fields =>
    match lowerFieldOf T name fields with
    | some value => value
    | none => .operate (.mapsGet name) [lowerExpr T (.construct (.constructor .record ctor) fields)]
  | base => .operate (.mapsGet name) [lowerExpr T base]
termination_by (sizeOf base, 1)

def lowerFieldOf (T : CodegenTables) (name : String) : List (String × IrExpr) → Option Host
  | [] => none
  | (key, e) :: fs => if key = name then some (lowerExpr T e) else lowerFieldOf T name fs
termination_by fs => (sizeOf fs, 0)

def lowerList (T : CodegenTables) : List IrExpr → List Host
  | [] => []
  | e :: es => lowerExpr T e :: lowerList T es
termination_by es => (sizeOf es, 0)

def lowerFields (T : CodegenTables) : List (String × IrExpr) → List Host
  | [] => []
  | (_, e) :: fs => lowerExpr T e :: lowerFields T fs
termination_by fs => (sizeOf fs, 0)

def lowerTimeout (T : CodegenTables) : IrTimeout → List Host
  | .none => []
  | .never => []
  | .millis e => [lowerExpr T e]
termination_by t => (sizeOf t, 0)

/-- `lower_block_stmts`. -/
def lowerBlock (T : CodegenTables) : List IrExpr → Host
  | [] => .reject .emptyBlock
  | [e] => lowerExpr T e
  | .assign (.local name) value :: rest => .assign name (lowerExpr T value) (lowerBlock T rest)
  | .assign (.stateField name) _ :: _ => .reject (.stateFieldAssign name)
  | .letIn _ _ _ :: _ => .reject .continuationFormInBlock
  | .varIn _ _ _ :: _ => .reject .continuationFormInBlock
  | e :: rest => .seq (lowerExpr T e) (lowerBlock T rest)
termination_by es => (sizeOf es, 0)

/-- The arms of a match; a guard with a call the host refuses there is lifted. -/
def lowerArms (T : CodegenTables) : List IrArm → List HostClause
  | [] => []
  | .mk pat none body :: arms => .mk pat none true (lowerExpr T body) :: lowerArms T arms
  | .mk pat (some guard) body :: arms =>
    let guard := lowerExpr T guard
    .mk pat (some guard) (!containsNonBifCall T guard) (lowerExpr T body) :: lowerArms T arms
termination_by arms => (sizeOf arms, 0)

end

end Ridge
