import Ridge.Unify.Projection
import Ridge.Lib.UnificationTable
import Ridge.Lib.Run

/-!
# The inference context — tables and resolution

`ridge-typecheck/src/ctx.rs`, as far as unification goes: the three unification tables and the
functions that read them. Resolution follows bindings, so on a table whose bindings form a
cycle it does not return; every function here takes fuel and answers `none` when it runs out.
What follows the fuel is the source's recursion, one unit a call.

The two occurs checks live here as well (`ridge-typecheck/src/unify.rs`): they only read.
-/

namespace Ridge

/-- The unification tables of type, capability-row and record-row variables. -/
structure InferCtx where
  tyvids : UnificationTable Ty
  capvids : UnificationTable CapRow
  rowvids : UnificationTable Row

namespace InferCtx

/-- The tables of a fresh context. -/
def new : InferCtx := ⟨.empty, .empty, .empty⟩

def freshTyvid (σ : InferCtx) : TyVid × InferCtx :=
  (σ.tyvids.newKey.1, { σ with tyvids := σ.tyvids.newKey.2 })

def freshCapvid (σ : InferCtx) : CapVid × InferCtx :=
  (σ.capvids.newKey.1, { σ with capvids := σ.capvids.newKey.2 })

def freshRowvid (σ : InferCtx) : RowVid × InferCtx :=
  (σ.rowvids.newKey.1, { σ with rowvids := σ.rowvids.newKey.2 })

section
variable (σ : InferCtx)

/-! ## Resolution -/

/-- Peel bound row variables off the tail, gathering their fields. -/
def resolveRow : Nat → List Field → RowTail → Option (List Field × RowTail)
  | 0, _, _ => none
  | _ + 1, out, .closed => some (out, .closed)
  | n + 1, out, .opened rv =>
    let root := σ.rowvids.find rv
    match σ.rowvids.probeValue root with
    | none => some (out, .opened root)
    | some row => resolveRow n (out ++ row.fields) row.tail

/-- Follow variables and peel aliases until a constructor shows. -/
def shallowResolve : Nat → Ty → Option Ty
  | 0, _ => none
  | n + 1, .var v =>
    let root := σ.tyvids.find v
    match σ.tyvids.probeValue root with
    | some bound => shallowResolve n bound
    | none => some (.var root)
  | n + 1, .aliased _ body => shallowResolve n body
  | _ + 1, t => some t

def shallowResolveCaps : Nat → CapRow → Option CapRow
  | 0, _ => none
  | n + 1, .union rows => rows.foldlM
      (fun acc row => (shallowResolveCaps n row).map acc.unionWith) (.concrete .PURE)
  | n + 1, .var v =>
    let root := σ.capvids.find v
    match σ.capvids.probeValue root with
    | some bound => shallowResolveCaps n bound
    | none => some (.var root)
  | _ + 1, .concrete s => some (.concrete s)

/-- Resolve everywhere, reduce projections, keep alias wrappers. -/
def deepResolve (W : Workspace) : Nat → Ty → Option Ty
  | 0, _ => none
  | n + 1, .var v => do
    match ← shallowResolve σ n (.var v) with
    | .var w => some (.var w)
    | other => deepResolve W n other
  | n + 1, .con id args => do
    let args ← args.mapM (deepResolve W n)
    some (W.project id args)
  | n + 1, .fn params ret caps => do
    let params ← params.mapM (deepResolve W n)
    let ret ← deepResolve W n ret
    let caps ← shallowResolveCaps σ n caps
    some (.fn params ret caps)
  | n + 1, .tuple ts => do
    let ts ← ts.mapM (deepResolve W n)
    some (.tuple ts)
  | n + 1, .aliased name body => do
    let body ← deepResolve W n body
    some (.aliased name body)
  | n + 1, .record fields tail => do
    let (peeled, tail) ← resolveRow σ n fields tail
    let resolved ← peeled.mapM fun f => (deepResolve W n f.2).map fun t => (f.1, t)
    some (.mkRecord resolved tail)
  | _ + 1, .error => some .error
  | _ + 1, t => some t

/-! ## Occurs checks -/

/-- Does the type variable `v` appear free in `t`? A record is searched through its
own fields only. -/
def occurs : Nat → TyVid → Ty → Option Bool
  | 0, _, _ => none
  | n + 1, v, .var w =>
    let vr := σ.tyvids.find v
    let wr := σ.tyvids.find w
    if vr = wr then some true
    else match σ.tyvids.probeValue wr with
      | some bound => occurs n v bound
      | none => some false
  | n + 1, v, .con _ args => args.anyM (occurs n v)
  | n + 1, v, .fn params ret _ => do
    if ← params.anyM (occurs n v) then some true else occurs n v ret
  | n + 1, v, .tuple ts => ts.anyM (occurs n v)
  | n + 1, v, .record fields _ => fields.anyM fun f => occurs n v f.2
  | n + 1, v, .aliased _ body => occurs n v body
  | _ + 1, _, _ => some false

mutual
/-- Does the row variable `rv` occur in `{ fields | tail }`? -/
def rowOccurs : Nat → RowVid → List Field → RowTail → Option Bool
  | 0, _, _, _ => none
  | n + 1, rv, fields, .opened t => do
    let rvRoot := σ.rowvids.find rv
    let tRoot := σ.rowvids.find t
    if rvRoot = tRoot then some true
    else
      let behind ← match σ.rowvids.probeValue tRoot with
        | some row => rowOccurs n rv row.fields row.tail
        | none => some false
      if behind then some true else fields.anyM fun f => tyOccursRowvid n rv f.2
  | n + 1, rv, fields, .closed => fields.anyM fun f => tyOccursRowvid n rv f.2

/-- Does the row variable `rv` occur anywhere in `t`? -/
def tyOccursRowvid : Nat → RowVid → Ty → Option Bool
  | 0, _, _ => none
  | n + 1, rv, t => do
    match ← shallowResolve σ n t with
    | .record fields tail => rowOccurs n rv fields tail
    | .con _ args => args.anyM (tyOccursRowvid n rv)
    | .fn params ret _ =>
      if ← params.anyM (tyOccursRowvid n rv) then some true else tyOccursRowvid n rv ret
    | .tuple ts => ts.anyM (tyOccursRowvid n rv)
    | .aliased _ body => tyOccursRowvid n rv body
    | _ => some false
end

end

end InferCtx

/-!
## Unification errors

The errors `unify` raises, with the texts and types they carry (`ridge-typecheck/src/error.rs`,
and the error builders at the end of `unify.rs`). Spans are left out: `unify` fills every one of
them with the same dummy.
-/

/-- How a diagnostic names a type. -/
inductive TypeDesc where
  | ty (t : Ty)
  | text (s : String)
  | phrase (s : String)

inductive TypeError where
  /-- T001. -/
  | typeMismatch (expected found : TypeDesc) (hint : Option String)
  | occursCheck (var ty : TypeDesc)
  | arityMismatch (callee : String) (expected found : Nat) (hint : Option String)
  | tupleWidthMismatch (expected found : Nat)
  /-- T037. -/
  | rowMismatch (expected found : TypeDesc) (missingFields extraFields : List String)
  /-- T047. -/
  | insertShapeFullEntity (entity companion : String) (omitted : List String)

/-- What the journal of a unification records: every binding of a type or row variable, with
the tables it was made in, and every projection reduced at the head of an operand. -/
inductive UnifyEvent where
  | bindTy (σ : InferCtx) (x : TyVid) (t : Ty)
  | bindRow (σ : InferCtx) (rv : RowVid) (row : Row)
  | reduced (head : TyConId) (args : List Ty)

abbrev UnifyM := Run InferCtx TypeError UnifyEvent

/-! ## Texts -/

def Capability.name : Capability → String
  | .io => "io"
  | .fs => "fs"
  | .net => "net"
  | .time => "time"
  | .random => "random"
  | .env => "env"
  | .proc => "proc"
  | .spawn => "spawn"
  | .ffi => "ffi"
  | .db => "db"

/-- The capabilities in the order `Display for CapabilitySet` lists them. -/
def Capability.all : List Capability :=
  [.io, .fs, .net, .time, .random, .env, .proc, .spawn, .ffi, .db]

/-- `Display for CapabilitySet`. -/
def CapabilitySet.display (s : CapabilitySet) : String :=
  "\x7b" ++ " ".intercalate ((Capability.all.filter s.contains).map Capability.name) ++ "\x7d"

def capabilityDescription : CapRow → String
  | .concrete s => s.display
  | .union _ => "combined callback capabilities"
  | .var _ => "callback capabilities"

/-- The walk of `curry_hint` down a chain of one-argument functions. -/
def curryChain (expectedArity : Nat) : Nat → Ty → Option String
  | len, .fn params ret _ =>
    if params.length ≠ 1 then none
    else if len + 1 = expectedArity then
      some s!"the argument is a curried `fn x1 -> fn x2 -> … -> body` chain ({len + 1} single-arg lambdas); pass an uncurried `fn x1 x2 -> body` ({len + 1}-arg lambda) instead"
    else curryChain expectedArity (len + 1) ret
  | _, _ => none

/-- The found side is a chain of one-argument functions as long as the expected
arity. -/
def curryHint (expectedArity foundArity : Nat) (foundRet : Ty) : Option String :=
  if expectedArity ≤ 1 ∨ foundArity ≠ 1 then none else curryChain expectedArity 1 foundRet

/-! ## Declarations the messages consult -/

namespace Workspace

variable (W : Workspace)

def findDecl (id : TyConId) : Option TyConDecl := W.tyconDecls.find? fun d => d.id = id

def tyconName (id : TyConId) : Option String := (W.findDecl id).map (·.name)

def omittedColumns (entity companion : TyConId) : List String :=
  let fields (id : TyConId) : List String :=
    match W.findDecl id with
    | some { kind := .record schema, .. } => schema.fields.map (·.name)
    | _ => []
  (fields entity).filter fun f => f ∉ fields companion

/-- A full entity where its insert companion is wanted. -/
def insertShapeFullEntity (expected found : Ty) : Option TypeError :=
  match found with
  | .con entityId [] => do
    let companionId ← match expected with
      | .con cid cargs =>
        if cargs.isEmpty ∧ W.insertShapeEntities cid = some entityId then some cid
        else if cid = W.builtins.insertShape ∧ cargs.length = 1 then W.insertShapes entityId
        else none
      | _ => none
    let entity ← W.tyconName entityId
    let companion ← W.tyconName companionId
    some (.insertShapeFullEntity entity companion (W.omittedColumns entityId companionId))
  | _ => none

/-- An anonymous record literal where a named record is expected. -/
def recordCtorHint (expected found : Ty) : Option String :=
  match expected, found with
  | .con id _, .record fields _ =>
    match W.findDecl id with
    | some { kind := .record schema, isAnon := false, name := record, .. } =>
      if fields.all fun f => schema.fields.any fun g => g.name = f.1 then
        let names := ", ".intercalate (fields.map fun f => f.1 ++ " = …")
        some ("record literals name their constructor — write `" ++ record ++ " \x7b " ++ names
          ++ " \x7d`, not `\x7b " ++ names ++ " \x7d`")
      else none
    | _ => none
  | _, _ => none

/-! ## Raising the errors -/

/-- T001, or T047 where a full entity stands for its companion. -/
def mismatch {α : Type} (n : Nat) (expected found : Ty) : UnifyM α := do
  let expected ← Run.read fun σ => σ.deepResolve W n expected
  let found ← Run.read fun σ => σ.deepResolve W n found
  match W.insertShapeFullEntity expected found with
  | some err => Run.fail err
  | none =>
    Run.fail (.typeMismatch (.ty expected) (.ty found) (W.recordCtorHint expected found))

/-- T037 with the labels only one side has. -/
def rowMismatch {α : Type} (n : Nat) (f₁ : List Field) (t₁ : RowTail) (f₂ : List Field)
    (t₂ : RowTail) (only₁ only₂ : List Field) : UnifyM α := do
  let expected ← Run.read fun σ => σ.deepResolve W n (.mkRecord f₁ t₁)
  let found ← Run.read fun σ => σ.deepResolve W n (.mkRecord f₂ t₂)
  Run.fail (.rowMismatch (.ty expected) (.ty found) (only₁.map (·.1)) (only₂.map (·.1)))

/-- The occurs-check failure of a type variable. -/
def occursCheckTy {α : Type} (n : Nat) (x : TyVid) (t : Ty) : UnifyM α := do
  let named ← Run.read fun σ => σ.deepResolve W n (.var x)
  let inside ← Run.read fun σ => σ.deepResolve W n t
  Run.fail (.occursCheck (.ty named) (.ty inside))

/-- The occurs-check failure of a row variable, which has no letter to print. -/
def occursCheckRow {α : Type} (n : Nat) (fields : List Field) (tail : RowTail) : UnifyM α := do
  let inside ← Run.read fun σ => σ.deepResolve W n (.mkRecord fields tail)
  Run.fail (.occursCheck (.phrase "this record") (.ty inside))

end Workspace

end Ridge
