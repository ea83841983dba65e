import Ridge.ToText.Instances
import Ridge.Lib.Json

/-!
# Running a rendering

The code a rendering lowers to is a small part of the core language: literals, locals, references
to functions and dictionaries, projections, calls, and a match on a variant. What it computes is
stated over an arbitrary world of values, standard library functions and dictionaries.
-/

namespace Ridge

open Evidence

/-- What an expression evaluates to: a value, a dictionary, a function from dictionaries to a
dictionary (the constant of a parametric instance), or a function. -/
inductive Rt (V D : Type) where
  | value (v : V)
  | dict (d : D)
  | factory (k : InstanceKey)
  | fn (f : List V → Option V)

def Rt.value? {V D : Type} : Rt V D → Option V
  | .value v => some v
  | _ => none

def Rt.dict? {V D : Type} : Rt V D → Option D
  | .dict d => some d
  | _ => none

/-- The run-time environment of a program. -/
structure World where
  V : Type
  D : Type
  text : String → V
  host : String → String → List V → Option V
  /-- The dictionary the caller passes for a constraint. -/
  param : Constraint → D
  /-- An instance at the dictionaries of its context. -/
  instantiate : InstanceKey → List D → D
  /-- The dictionary of a built-in rendering, which is written out where it is used. -/
  synth : ToTextTarget → D
  /-- `maps:get` of a method. -/
  method : D → String → Option (List V → Option V)
  field : V → String → Option V
  variant : V → Option (String × List V)
  symbol : SymbolRef → Option (Rt V D)
  /-- The rest of the core language. -/
  other : (String → Option (Rt V D)) → IrExpr → Option (Rt V D)
  concat : ∀ a b, host "std.text" "concat" [text a, text b] = some (text (a ++ b))
  synth_toText : ∀ t v, (method (synth t) "toText").bind (· [v]) =
    match t.symbol with
    | none => some v
    | some (m, f) => host m f [v]

namespace World

variable (W : World)

abbrev Env := String → Option (Rt W.V W.D)

def Env.bindAll {W : World} (env : W.Env) (binds : List (String × W.V)) : W.Env :=
  binds.foldl (fun e p x => if x = p.1 then some (.value p.2) else e x) env

/-! ## Patterns -/

mutual
/-- What a pattern of a derived arm binds. -/
def matchPat : IrPat → W.V → Option (List (String × W.V))
  | .wild, _ => some []
  | .bind x none, v => some [(x, v)]
  | .ctor (.constructor .unionVariant name) [] args, v =>
    match W.variant v with
    | some (name', vs) => if name = name' then matchPats args vs else none
    | none => none
  | .ctor (.constructor .record _) fields [], v => matchFields fields v
  | _, _ => none

def matchPats : List IrPat → List W.V → Option (List (String × W.V))
  | [], [] => some []
  | p :: ps, v :: vs => (matchPat p v).bind fun a => (matchPats ps vs).map (a ++ ·)
  | _, _ => none

def matchFields : List (String × IrPat) → W.V → Option (List (String × W.V))
  | [], _ => some []
  | (l, p) :: fs, v =>
    (W.field v l).bind fun w => (matchPat p w).bind fun a => (matchFields fs v).map (a ++ ·)
end

/-! ## Expressions -/

/-- A function is applied to values, the constant of a parametric instance to dictionaries. -/
def applyRt : Rt W.V W.D → List (Rt W.V W.D) → Option (Rt W.V W.D)
  | .fn f, args => (args.mapM Rt.value?).bind fun vs => (f vs).map .value
  | .factory k, args => (args.mapM Rt.dict?).map fun ds => .dict (W.instantiate k ds)
  | _, _ => none

/-- A method of a dictionary or a field of a record; a function has neither. -/
def projectRt (base : Rt W.V W.D) (name : String) : Option (Rt W.V W.D) :=
  match base with
  | .dict d => (W.method d name).map .fn
  | .value v => (W.field v name).map .value
  | _ => none

mutual
def eval (env : W.Env) : IrExpr → Option (Rt W.V W.D)
  | .lit (.text s) => some (.value (W.text s))
  | .local x => env x
  | .symbol (.stdlib m f) => some (.fn (W.host m f))
  | .symbol s => W.symbol s
  | .field base name => (eval env base).bind fun r => W.projectRt r name
  | .call callee args =>
    (eval env callee).bind fun r => (evalAll env args).bind fun rs => W.applyRt r rs
  | .match scrutinee arms =>
    (eval env scrutinee).bind fun
      | .value v => evalArms env v arms
      | _ => none
  | e => W.other env e

def evalAll (env : W.Env) : List IrExpr → Option (List (Rt W.V W.D))
  | [] => some []
  | e :: es => (eval env e).bind fun r => (evalAll env es).map (r :: ·)

/-- The first arm whose pattern matches; derived arms have no guard. -/
def evalArms (env : W.Env) (v : W.V) : List IrArm → Option (Rt W.V W.D)
  | [] => none
  | .mk pat none body :: arms =>
    match W.matchPat pat v with
    | some binds => eval (env.bindAll binds) body
    | none => evalArms env v arms
  | .mk _ (some _) _ :: _ => none
end

attribute [grind =] eval evalAll

/-! ## Dictionaries -/

/-- An instance at its dictionaries; the built-in renderings have no constant. -/
def apply (C : TextCtx) (k : InstanceKey) (ds : List W.D) : W.D :=
  match C.builtinOf k with
  | some t => W.synth t
  | none => W.instantiate k ds

def dictionary (C : TextCtx) (plan : DictPlan) : W.D := plan.run W.param (W.apply C)

/-- A value rendered through a dictionary. -/
def renderWith (d : W.D) (v : W.V) : Option W.V := (W.method d "toText").bind (· [v])

/-- The environment and the constants are those of the function being lowered: each constraint in
scope has its parameter, each instance its constant, a function where the instance has a context. -/
structure Linked (C : TextCtx) (W : World) (env : W.Env) : Prop where
  params : ∀ c ∈ C.currentFnConstraints, env (C.dictParam c) = some (.dict (W.param c))
  constants : ∀ id info, C.instances totextClass [id] = some info →
    W.symbol (C.dictSymbol id info) =
      some (if info.ctxConstraints = [] then .dict (W.instantiate ⟨totextClass, [id]⟩ [])
        else .factory ⟨totextClass, [id]⟩)

end World

/-! ## Well-typed worlds -/

/-- The values of each type and the dictionaries that are evidence for each goal. A dictionary of
`ToText` takes the values of its type to texts; what the caller passes is evidence for what it was
asked for, and an instance keeps its promise when its context is kept. -/
structure Typing (C : TextCtx) (W : World) where
  is : Ty → W.V → Prop
  good : Goal → W.D → Prop
  toText : ∀ t d v, good (.toText t) d → is t v → ∃ s, W.renderWith d v = some (W.text s)
  param : ∀ c g, Assumes C.currentFnConstraints c g → good g (W.param c)
  inst : ∀ k g premises ds, Concludes C.instances k g premises → List.Forall₂ good premises ds →
    good g (W.apply C k ds)

/-- Evidence for `ToText` at a type renders every value of that type to a text. -/
theorem Typing.renders {C : TextCtx} {W : World} (T : Typing C W) {t : Ty} {plan : DictPlan}
    {v : W.V} (h : EvidenceFor C (.toText t) plan) (hv : T.is t v) :
    ∃ s, W.renderWith (W.dictionary C plan) v = some (W.text s) :=
  T.toText t _ v (Proves.good T.param T.inst h) hv

/-! ## Rendering code -/

/-- A call of the target's function; the identity needs none. -/
def ToTextTarget.call (t : ToTextTarget) (arg : IrExpr) : IrExpr :=
  match t.symbol with
  | none => arg
  | some (m, f) => .call (.symbol (.stdlib m f)) [arg]

namespace World

variable {W : World}

theorem eval_text (env : W.Env) (s : String) :
    W.eval env (.lit (.text s)) = some (.value (W.text s)) := by rw [World.eval]

theorem eval_local (env : W.Env) (x : String) : W.eval env (.local x) = env x := by
  rw [World.eval]

variable {env : W.Env}

theorem eval_target {arg : IrExpr} {v : W.V} (t : ToTextTarget)
    (h : W.eval env arg = some (.value v)) :
    W.eval env (t.call arg) = (W.renderWith (W.synth t) v).map .value := by
  rw [World.renderWith, W.synth_toText]
  unfold ToTextTarget.call
  cases ht : t.symbol with
  | none => simpa using h
  | some p =>
    show W.eval env (.call (.symbol (.stdlib p.1 p.2)) [arg]) = _
    rw [World.eval, World.eval, World.evalAll, h, World.evalAll]
    rfl

/-- Projecting `toText` out of a dictionary and applying it. -/
theorem eval_method {dict arg : IrExpr} {d : W.D} {v : W.V} (hd : W.eval env dict = some (.dict d))
    (h : W.eval env arg = some (.value v)) :
    W.eval env (.call (.field dict "toText") [arg]) = (W.renderWith d v).map .value := by
  rw [World.eval, World.eval, World.evalAll, hd, h, World.evalAll, World.renderWith]
  show ((W.method d "toText").map Rt.fn).bind _ = _
  cases W.method d "toText" with
  | none => rfl
  | some f => rfl

/-- `std.text.concat` of two texts. -/
theorem eval_concat {a b : IrExpr} {s t : String} (ha : W.eval env a = some (.value (W.text s)))
    (hb : W.eval env b = some (.value (W.text t))) :
    W.eval env (.call (.symbol (.stdlib "std.text" "concat")) [a, b]) =
      some (.value (W.text (s ++ t))) := by
  rw [World.eval, World.eval, World.evalAll, World.evalAll, ha, hb, World.evalAll]
  show (W.host "std.text" "concat" [W.text s, W.text t]).map Rt.value = _
  rw [W.concat]
  rfl

end World

/-!
## Lowering interpolated strings

`ridge-typecheck/src/interp.rs`: which holes are accepted; `ridge-lower/src/interp.rs`: what each
hole is rendered with, and the fold that joins the pieces.
-/

open List

/-! ## Text segments -/

/-- `u32::from_str_radix(hex, 16)` and `char::from_u32`. -/
def codePoint (hex : List Char) : Option Char :=
  let digits := if hex.head? = some '+' then hex.tail else hex
  match digits.mapM Json.hexValue with
  | some (d :: ds) =>
    let n := (d :: ds).foldl (fun n d => 16 * n + d) 0
    if h : n.isValidChar then some (Char.ofNatAux n h) else none
  | _ => none

/-- `decode_text_escapes`. -/
def decodeEscapes : List Char → List Char
  | [] => []
  | '\\' :: 'n' :: s => '\n' :: decodeEscapes s
  | '\\' :: 't' :: s => '\t' :: decodeEscapes s
  | '\\' :: 'r' :: s => '\r' :: decodeEscapes s
  | '\\' :: '0' :: s => '\x00' :: decodeEscapes s
  | '\\' :: '"' :: s => '"' :: decodeEscapes s
  | '\\' :: '\\' :: s => '\\' :: decodeEscapes s
  | '\\' :: '$' :: s => '$' :: decodeEscapes s
  | '\\' :: 'u' :: '{' :: s =>
    let hex := s.takeWhile (· != '}')
    let rest := decodeEscapes ((s.dropWhile (· != '}')).tail)
    match codePoint hex with
    | some c => c :: rest
    | none => '\\' :: 'u' :: '{' :: (hex ++ '}' :: rest)
  -- the character after `\u` is taken even where it is no brace
  | '\\' :: 'u' :: _ :: s => '\\' :: 'u' :: '{' :: '}' :: decodeEscapes s
  | ['\\', 'u'] => ['\\', 'u', '{', '}']
  | '\\' :: c :: s => '\\' :: c :: decodeEscapes s
  | c :: s => c :: decodeEscapes s
  termination_by s => s.length
  decreasing_by
    all_goals simp_wf
    all_goals try omega
    have := (List.dropWhile_sublist (· != '}') (l := s)).length_le
    omega

def decodeTextEscapes (raw : String) : String := String.ofList (decodeEscapes raw.toList)

/-! ## Holes -/

/-- `${e}`: the lowered expression, the type the checker resolved for it, and whether that type
reached the side table the lowering reads. An interpolation written in a field of a record literal
whose type is imported has no entry there. -/
structure Hole where
  inner : IrExpr
  ty : Ty
  recorded : Bool

inductive InterpPiece where
  | text (raw : String)
  | expr (hole : Hole)

mutual
/-- The variables of the signature under check become those of its scheme. -/
def Ty.abstractRigids : Ty → Ty
  | .rigid id _ => .var id
  | .con id args => .con id (Ty.abstractRigidsAll args)
  | .fn params ret caps => .fn (Ty.abstractRigidsAll params) ret.abstractRigids caps
  | .tuple ts => .tuple (Ty.abstractRigidsAll ts)
  | .record fields tail => .record (Ty.abstractRigidsFields fields) tail
  | .aliased name body => .aliased name body.abstractRigids
  | .var v => .var v
  | .error => .error

def Ty.abstractRigidsAll : List Ty → List Ty
  | [] => []
  | t :: ts => t.abstractRigids :: Ty.abstractRigidsAll ts

def Ty.abstractRigidsFields : List Field → List Field
  | [] => []
  | (l, t) :: fs => (l, t.abstractRigids) :: Ty.abstractRigidsFields fs
end

/-- What the checker knows of a variable of the signature under check. -/
structure RigidInfo where
  givens : List ClassId
  complete : Bool

/-- The type a hole leaves the checker with. -/
def Hole.exported (h : Hole) : Ty := h.ty.abstractRigids

/-- `lookup_expr_type`. -/
def Hole.recordedType (h : Hole) : Option Ty := if h.recorded then some h.exported else none

inductive LowerError where
  | toTextLowering
  deriving DecidableEq

namespace TextCtx

variable (C : TextCtx)

/-- Whether a hole is accepted. The arguments of a constructor are not looked
at, and a free variable is left to the constraint solver. -/
def checkHoleToText (rigids : Nat → Option RigidInfo) : Ty → Bool
  | .error => true
  | .var _ => true
  | .rigid id _ => (rigids id).any fun i => i.givens.contains totextClass || !i.complete
  | .con id _ => (C.instances totextClass [id]).isSome
  | _ => false

/-- The arms of `wrap_to_text` for the built-in types. -/
def closedToText (id : TyConId) : Option ToTextTarget :=
  if id = C.builtins.text then some .identity
  else if id = C.builtins.int then some (.module "std.int" "toText")
  else if id = C.builtins.float then some (.module "std.float" "toText")
  else if id = C.builtins.bool then some (.module "std.bool" "toText")
  else if id = C.builtins.timestamp then some (.module "std.time" "toIso")
  else if id = C.builtins.decimal then some (.module "std.decimal" "toText")
  else if id = C.builtins.uuid then some (.module "std.uuid" "toText")
  else if id = C.builtins.error then some (.module "std.error" "toText")
  else if id = C.builtins.ordering then some .ordering
  else none

/-- The instance's constant, with no sub-dictionaries. -/
def tryInstanceToText (inner : IrExpr) (id : TyConId) : Option IrExpr :=
  (C.instances totextClass [id]).map fun info =>
    .call (.field (.symbol (C.dictSymbol id info)) "toText") [inner]

/-- The first `ToText` constraint in scope. -/
def tryDictToText (inner : IrExpr) : Option IrExpr :=
  (C.currentFnConstraints.find? (·.cls = totextClass)).map fun c =>
    .call (.field (.local (C.dictParam c)) "toText") [inner]

def wrapToText (inner : IrExpr) : Option Ty → IrExpr × List LowerError
  | some (.con id _) =>
    match C.closedToText id with
    | some t => (t.call inner, [])
    | none =>
      match actorErrorToTextFn C.stdlibTycon id with
      | some bridge => ((ToTextTarget.actorError bridge).call inner, [])
      | none =>
        match C.tryInstanceToText inner id with
        | some call => (call, [])
        | none => (inner, [.toTextLowering])
  | some (.var _) =>
    match C.tryDictToText inner with
    | some call => (call, [])
    | none => (inner, [.toTextLowering])
  | some .error => (inner, [])
  | some _ => (inner, [.toTextLowering])
  -- not knowing a type is no fault of the program
  | none => (inner, [])

def lowerPart : InterpPiece → IrExpr × List LowerError
  | .text raw => (.lit (.text (decodeTextEscapes raw)), [])
  | .expr h => C.wrapToText h.inner h.recordedType

def makeConcatCall (lhs rhs : IrExpr) : IrExpr :=
  .call (.symbol (.stdlib "std.text" "concat")) [lhs, rhs]

/-- `lower_interp`, with `lower_interp_full` where there is more than one segment of text. -/
def lowerInterp : List InterpPiece → IrExpr
  | [] => .lit (.text "")
  | [.text raw] => .lit (.text raw)
  | part :: parts =>
    (parts.map fun p => (C.lowerPart p).1).foldl makeConcatCall (C.lowerPart part).1

/-- The diagnostics of an interpolation. -/
def interpErrors (parts : List InterpPiece) : List LowerError :=
  parts.flatMap fun p => (C.lowerPart p).2

end TextCtx

theorem TextCtx.closedToText_eq (C : TextCtx) (id : TyConId) :
    C.closedToText id = builtinTarget C.builtins id := by
  -- the two tables list the same rows in different orders
  have hd := C.builtins.distinct
  simp only [nodup_cons, mem_cons, not_or, not_mem_nil, not_false_eq_true,
    nodup_nil, and_true] at hd
  unfold TextCtx.closedToText builtinTarget
  split_ifs <;> grind

/-- The holes of an interpolation. -/
def InterpPiece.hole? : InterpPiece → Option Hole
  | .text _ => none
  | .expr h => some h

end Ridge
