import Ridge.Syntax.Ast
import Ridge.Unify.Unify

/-!
# Message sites in the checker

`infer_send`, `infer_ask`, `infer_tryask` and `infer_actor_send` (`ridge-typecheck/src/actor.rs`),
with the pass over all sites after inference (`explicit_calls.rs`). What the checker does with the
expressions of a site is the parameter `inferExpr`. Next to its type, a site hands back which
handler it was checked against, if any, and what became of its arguments.
-/

namespace Ridge.Messages

open Run Reports

/-- An `on` member: its parameters as they reach the clause of the handler, its declared reply type,
and the type its body was given. -/
structure Handler where
  name : String
  params : List (String × Ty)
  ret : Option Ty
  body : Ty

structure Actor where
  name : String
  handlers : List Handler

/-- `TypeError`, as far as message sites report it. -/
inductive MessageError where
  | sendOnNonActor (found : Ty)
  | askOnNonActor (found : Ty)
  | unknownActorHandler (actor handler : String)
  | arityMismatch (callee : String) (expected found : Nat)
  | mismatch (e : TypeError)
  | askTimeoutNotInt (found : Ty)
  | askTimeoutNegative (literal : String)
  | internal (detail : String)
  | missingInvocationMarker (handler : String) ( needsReceiverAnnotation : Bool)

/-- The state of the checker, as far as message sites use it. -/
structure Sites where
  tables : InferCtx
  /-- `nullary_message_sites`. -/
  nullary : List Span
  /-- `message_parameter_counts`. -/
  counts : List (Span × Nat)

abbrev MessageM (α : Type) : Type := Run Sites Empty MessageError α

/-- The declarations a site reads. -/
structure Actors where
  workspace : Workspace
  /-- The declarations of kind `Actor`. -/
  actor : TyConId → Option Actor
  /-- The declarations of kind `Builtin`. -/
  isBuiltin : TyConId → Bool
  handle : TyConId
  result : TyConId
  unit : TyConId
  int : TyConId
  askError : Option TyConId
  sendError : Option TyConId
  handle_builtin : isBuiltin handle = true
  builtin_not_actor : ∀ id, isBuiltin id = true → actor id = none
  result_plain : result ∉ workspace.builtins.projections

def Actors.reply (A : Actors) (h : Handler) : Ty := h.ret.getD (.con A.unit [])

/-- An argument that was type-checked: its position, its type, and that of the parameter. -/
structure CheckedArg where
  position : Nat
  found : Ty
  declared : Ty

/-- The handler a site was checked against: its actor, its index there, and the arguments. -/
structure CheckedSite where
  actor : TyConId
  handler : Nat
  args : List CheckedArg

/-- The literal `()` as the only argument. -/
def isMarker : List Expr → Bool
  | [.unit _] => true
  | _ => false

def peelParens : Expr → Expr
  | .paren inner _ => peelParens inner
  | e => e

def extractHandlerCall : Expr → Option (String × List Expr)
  | .ident id => some (id.text, [])
  | .call (.ident id) args _ => some (id.text, args)
  | _ => none

/-- The first handler of the name, with its index. -/
def Actor.find (decl : Actor) (name : String) : Option (Handler × Nat) :=
  decl.handlers.zipIdx.find? fun p => p.1.name = name

/-- The digits of an integer literal, without the sign of its base. -/
def literalDigits : Literal → Option (String × String)
  | .intDec raw _ | .intBin raw _ | .intOct raw _ | .intHex raw _ =>
    let base := String.ofList (raw.toList.take 2)
    some (raw, if base ∈ ["0b", "0B", "0o", "0O", "0x", "0X"] then
      String.ofList (raw.toList.drop 2) else raw)
  | _ => none

/-- An ASCII hexadecimal digit. -/
def isHexDigit (c : Char) : Bool := c.isDigit || ('a' ≤ c && c ≤ 'f') || ('A' ≤ c && c ≤ 'F')

def negativeIntLiteral (e : Expr) : Option String :=
  match peelParens e with
  | .unary .neg operand _ =>
    match peelParens operand with
    | .literal lit => (literalDigits lit).bind fun (raw, digits) =>
      if digits.toList.any fun c => isHexDigit c && c ≠ '0' then some ("-" ++ raw) else none
    | _ => none
  | _ => none

section
variable (A : Actors) (n : Nat) (inferExpr : Expr → MessageM Ty)

def report (e : MessageError) : MessageM Unit := record fun _ => e

def shallow (t : Ty) : MessageM Ty := read fun s => s.tables.shallowResolve n t

def deep (t : Ty) : MessageM Ty := read fun s => s.tables.deepResolve A.workspace n t

def freshTy : MessageM Ty := modifyGet fun s =>
  (.var s.tables.freshTyvid.1, { s with tables := s.tables.freshTyvid.2 })

/-- `unify`, its failure reported as `onFailure` says. -/
def unifyOr (t u : Ty) (onFailure : TypeError → MessageError) : MessageM Bool := fun s =>
  match unify A.workspace n t u s.tables with
  | none => none
  | some (.ok _, σ, _) => some (.ok true, { s with tables := σ }, [])
  | some (.error e, σ, _) => some (.ok false, { s with tables := σ }, [onFailure e])

/-! ## The receiver -/

/-- The actor a type constructor declares. -/
def actorOf (id : TyConId) : Option (TyConId × Actor) := (A.actor id).map fun decl => (id, decl)

def actorHead : Ty → Option (TyConId × Actor)
  | .con id _ => actorOf A id
  | _ => none

/-- The first argument of a built-in type. -/
def innerActor : List Ty → MessageM (Option (TyConId × Actor))
  | [] => pure none
  | inner :: _ => do
    let t ← shallow n inner
    pure (actorHead A t)

/-- `resolve_actor_type`, of a resolved type: an actor, or a built-in type over one. -/
def resolveActorCon : Ty → MessageM (Option (TyConId × Actor))
  | .con id args =>
    match actorOf A id with
    | some found => pure (some found)
    | none => if A.isBuiltin id then innerActor A n args else pure none
  | _ => pure none

def resolveActorType (ty : Ty) : MessageM (Option (TyConId × Actor)) := do
  let t ← shallow n ty
  resolveActorCon A n t

/-- The type of the receiver is not known yet, or not at all. -/
def isUnknown : Ty → Bool
  | .var _ => true
  | .error => true
  | _ => false

/-! ## The arguments -/

/-- Arguments against parameters, pairwise. -/
def inferArgs : List (Expr × Ty) → Nat → MessageM (List CheckedArg)
  | [], _ => pure []
  | (arg, param) :: rest, i => do
    let t ← inferExpr arg
    let _ ← unifyOr A n t param .mismatch
    let checks ← inferArgs rest (i + 1)
    pure (⟨i, t, param⟩ :: checks)

variable (span : Span)

def mark (h : Handler) : MessageM Unit := modify fun s => { s with
  counts := (span, h.params.length) :: s.counts
  nullary := s.nullary.filter (· ≠ span) }

/-- A lone `()` for a handler without parameters stands for no payload. -/
def checkHandlerArgs (actor : String) (h : Handler) (args : List Expr) :
    MessageM (List CheckedArg) := do
  mark span h
  if h.params.isEmpty && isMarker args then
    modify fun s => { s with nullary := span :: s.nullary }
    let _ ← inferExpr (args.headD (.unit span))
    pure []
  else if args.length ≠ h.params.length then
    report (.arityMismatch (actor ++ "." ++ h.name) h.params.length args.length)
    pure []
  else inferArgs A n inferExpr (args.zip (h.params.map Prod.snd)) 0

/-! ## Sites -/

def inferKnown (id : TyConId) (decl : Actor) (name : String) (args : List Expr)
    (typed : Handler → MessageM Ty) : MessageM (Ty × Option CheckedSite) :=
  match decl.find name with
  | none => do
    report (.unknownActorHandler decl.name name)
    pure (.error, none)
  | some (h, i) => do
    let checks ← checkHandlerArgs A n inferExpr span decl.name h args
    let t ← typed h
    pure (t, some ⟨id, i, checks⟩)

def inferResolved (receiver : Ty) (message : Option (String × List Expr))
    (nonActor : Ty → MessageError) (typed : Handler → MessageM Ty) :
    Option (TyConId × Actor) → MessageM (Ty × Option CheckedSite)
  | none => do
    report (nonActor receiver)
    pure (.error, none)
  | some (id, decl) =>
    match message with
    | none => do
      report (.internal "message is neither Ident nor Call")
      pure (.error, none)
    | some (name, args) => inferKnown A n inferExpr span id decl name args typed

/-- The common body of the four sites: `absorbed` is the type of a site whose receiver is not known
yet. -/
def inferMessage (handle : Expr) (message : Option (String × List Expr))
    (absorbed : MessageM Ty) (nonActor : Ty → MessageError) (typed : Handler → MessageM Ty) :
    MessageM (Ty × Option CheckedSite) := do
  let receiver ← inferExpr handle
  let resolved ← deep A n receiver
  if isUnknown resolved then
    let t ← absorbed
    pure (t, none)
  else
    let found ← resolveActorType A n receiver
    inferResolved A n inferExpr span receiver message nonActor typed found

def unitTy : Ty := .con A.unit []

def inferSend (handle message : Expr) (span : Span) : MessageM (Ty × Option CheckedSite) :=
  inferMessage A n inferExpr span handle (extractHandlerCall message) (pure (unitTy A))
    .sendOnNonActor fun _ => pure (unitTy A)

def checkAskTimeout (ms : Expr) : MessageM Unit := do
  let t ← inferExpr ms
  let isInt ← unifyOr A n t (.con A.int []) fun _ => .askTimeoutNotInt t
  match isInt, negativeIntLiteral ms with
  | true, some literal => report (.askTimeoutNegative literal)
  | _, _ => pure ()

/-- `timeout never` carries no expression. -/
def checkTimeout : Option AskTimeout → MessageM Unit
  | some (.millis ms) => checkAskTimeout A n inferExpr ms
  | _ => pure ()

def askResultType (h : Handler) : MessageM Ty :=
  match A.askError with
  | some id => pure (.con A.result [A.reply h, .con id []])
  | none => do
    report (.internal "ask: std.actor.AskError is not registered")
    pure .error

def inferAsk (handle : Expr) (message : Ident) (args : List Expr) (timeout : Option AskTimeout)
    (span : Span) : MessageM (Ty × Option CheckedSite) :=
  inferMessage A n inferExpr span handle (some (message.text, args)) freshTy .askOnNonActor
    fun h => do
      checkTimeout A n inferExpr timeout
      askResultType A h

/-- `infer_tryask`, of the three arguments it takes. -/
def inferTryAsk (callee handle message ms : Expr) (span : Span) :
    MessageM (Ty × Option CheckedSite) := do
  let _ ← inferExpr callee
  inferMessage A n inferExpr span handle (extractHandlerCall (peelParens message)) freshTy
    .askOnNonActor fun h => do
      checkAskTimeout A n inferExpr ms
      askResultType A h

/-- `infer_actor_send`, of the two arguments it takes. -/
def inferActorSend (callee handle message : Expr) (span : Span) :
    MessageM (Ty × Option CheckedSite) := do
  let _ ← inferExpr callee
  inferMessage A n inferExpr span handle (extractHandlerCall (peelParens message)) freshTy
    .sendOnNonActor fun _ =>
      match A.sendError with
      | some id => pure (.con A.result [unitTy A, .con id []])
      | none => do
        report (.internal "Actor.send: 'SendError' union not found in arena")
        pure .error

/-! ## After inference -/

def unalias : Ty → Ty
  | .aliased _ body => unalias body
  | t => t

/-- The actor an exported receiver type names: the actor itself, or behind a handle. -/
def receiverActor (ty : Ty) : Option TyConId :=
  match ty with
  | .con head args =>
    if head = A.handle then
      match args.head?.map unalias with
      | some (.con actor _) => some actor
      | _ => none
    else some head
  | _ => none

/-- The parameter count of a site, as inference left it or else from the exported type of
its receiver. -/
def arity (counts : List (Span × Nat)) (span : Span) (exported : Ty) (name : String) :
    Option Nat :=
  (counts.lookup span).or do
    let id ← receiverActor A (unalias exported)
    let decl ← A.actor id
    (decl.find name).map fun p => p.1.params.length

/-- The marker `collect` adds. -/
def collectMarker (count : Option Nat) (args : List Expr) : Bool :=
  count = some 0 && isMarker args

/-- What `collect` finds wrong with a site: a handler without parameters, or an unknown receiver,
and no argument at all. -/
def collectError (count : Option Nat) (exported : Ty) (name : String) (args : List Expr) :
    Option MessageError :=
  let needsReceiver := count = none && isUnknownVar (unalias exported)
  if args.isEmpty && (count = some 0 || needsReceiver) then
    some (.missingInvocationMarker name needsReceiver)
  else none
where
  isUnknownVar : Ty → Bool
    | .var _ => true
    | _ => false

end

end Ridge.Messages
