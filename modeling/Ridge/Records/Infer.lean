import Ridge.Records.Checker
import Ridge.Syntax.Ast

/-!
# The inference of record expressions

`ridge-typecheck/src/records.rs`, with `infer_record_lit` and the record arm of `infer_expr`
(`infer.rs`). Every function hands back the type of the expression and, for the initialisers it
type-checked, what it checked them against. What the checker does with an expression that is the
value of an initialiser is the parameter `inferExpr`.
-/

namespace Ridge

open Run CheckM

/-- What the type of an initialiser was compared with: the type of a declared field; nothing, where
the field has the type of its initialiser; nothing yet, an obligation being left behind. -/
inductive Against where
  | declared (ty : Ty)
  | own (ty : Ty)
  | posed (r : RecordRequirement)

/-- An initialiser that was type-checked, by its position in the source. -/
structure Judged where
  init : Nat
  found : Ty
  against : Against

/-- What the record arm makes of an expression: a constructor that is used as a value, or a
construction. -/
inductive TypedRecord where
  | value (ty : Ty)
  | built (ty : Ty) (judged : List Judged)

def TypedRecord.ofBuilt (r : Ty × List Judged) : TypedRecord := .built r.1 r.2

namespace RecordCtor

/-- The name a constructor is looked up by: of a qualified one, the last segment. -/
def text : RecordCtor → String
  | .bare name => name.text
  | .qualified path => (path.segments.getLast?.map Ident.text).getD ""

/-- The whole of a qualified name. -/
def dotted : RecordCtor → Option String
  | .bare _ => none
  | .qualified path => some (".".intercalate (path.segments.map Ident.text))

end RecordCtor

namespace RecordSchema

def fieldTy (S : RecordSchema) (name : String) : Option Ty :=
  (S.fields.find? fun f => f.name = name).map RecordField.ty

def declares (S : RecordSchema) (name : String) : Bool := S.fields.any fun f => f.name = name

end RecordSchema

namespace Declarations

def recordVariantOf (name : String) (decl : TyConDecl) : Option (List TyVid × RecordSchema) :=
  match decl.kind with
  | .union schema =>
    match schema.variants.find? fun v => v.name = name with
    | some ⟨_, .record payload⟩ => some (schema.params, payload)
    | _ => none
  | _ => none

/-- The first declaration of the arena with a record-payload variant of
the name. -/
def findRecordVariant (P : Declarations) (name : String) :
    Option (TyConId × List TyVid × RecordSchema) :=
  P.workspace.tyconDecls.zipIdx.findSome? fun d =>
    (recordVariantOf name d.1).map fun v => (d.2, v)

def variantScheme (name : String) (decl : TyConDecl) : Option Scheme :=
  match decl.kind with
  | .union schema =>
    match schema.variants.find? fun v => v.name = name with
    | some ⟨_, .nullary⟩ => some (scheme schema [])
    | some ⟨_, .positional tys⟩ => some (scheme schema tys)
    | _ => none
  | _ => none
where
  scheme (schema : UnionSchema) (params : List Ty) : Scheme :=
    ⟨schema.params, [], [], .fn params (.con decl.id (schema.params.map .var)) (.concrete .PURE), []⟩

def userVariantScheme (P : Declarations) (name : String) : Option Scheme :=
  P.workspace.tyconDecls.findSome? (variantScheme name)

end Declarations

def opaqueFieldViolation (P : Declarations) (id : TyConId) (current : Option Nat) : Bool :=
  match P.opaqueIn id with
  | none => false
  | some owner => current.isSome && current ≠ owner

section
variable (P : Declarations) (n : Nat) (inferExpr : Expr → CheckM Ty)

/-! ## Initialisers -/

/-- The type of an initialiser; the shorthand is a use of the name. -/
def initType (place : String) (fi : FieldInit) : CheckM Ty :=
  match fi.value with
  | some e => inferExpr e
  | none => do
    match ← envLookup fi.name.text with
    | some scheme => instantiate scheme
    | none => emitInternal ("shorthand field '" ++ fi.name.text ++ "' not in scope" ++ place)

/-- The first initialiser of the name, with its position. -/
def findInit (name : String) (inits : List FieldInit) : Option (FieldInit × Nat) :=
  inits.zipIdx.find? fun p => p.1.name.text = name

/-! ## Constructions -/

/-- The first pass: initialisers of fields that are not declared. -/
def reportUnknown (record : String) (schema : RecordSchema) (fi : FieldInit) : CheckM Unit :=
  if schema.declares fi.name.text then pure () else report (.unknownFieldOf record fi.name.text)

def inferDeclaredField (record : String) (params : List TyVid) (args : List Ty)
    (inits : List FieldInit) (f : RecordField) : CheckM (List Judged) :=
  let expected := substituteSchema f.ty params args
  match findInit f.name inits with
  | none => do
    report (.missingField record f.name)
    pure []
  | some (fi, i) => do
    let found ← initType inferExpr "" fi
    let _ ← unifyOrReport P n expected found
    pure [⟨i, found, .declared expected⟩]

/-- The second pass: every declared field in turn. -/
def inferDeclared (record : String) (params : List TyVid) (args : List Ty)
    (inits : List FieldInit) : List RecordField → CheckM (List Judged)
  | [] => pure []
  | f :: fs => do
    let here ← inferDeclaredField P n inferExpr record params args inits f
    let rest ← inferDeclared record params args inits fs
    pure (here ++ rest)

/-- The common body of the two constructions: `params` are instantiated afresh, and the fields of
`schema` are over them. -/
def inferFieldsOf (record : String) (params : List TyVid) (schema : RecordSchema)
    (owner : TyConId) (inits : List FieldInit) : CheckM (Ty × List Judged) := do
  let args ← freshTys params.length
  forEach (reportUnknown record schema) inits
  let checks ← inferDeclared P n inferExpr record params args inits schema.fields
  pure (.con owner args, checks)

def inferRecordConstruction (schema : RecordSchema) (owner : TyConId) (record : String)
    (inits : List FieldInit) : CheckM (Ty × List Judged) :=
  inferFieldsOf P n inferExpr record schema.params schema owner inits

/-- The parameters are the union's. -/
def inferRecordVariantConstruction (unionParams : List TyVid) (schema : RecordSchema)
    (owner : TyConId) (variant : String) (inits : List FieldInit) :
    CheckM (Ty × List Judged) :=
  inferFieldsOf P n inferExpr variant unionParams schema owner inits

/-! ## Literals -/

def inferLitFields : List (FieldInit × Nat) → CheckM (List (String × Ty) × List Judged)
  | [] => pure ([], [])
  | (fi, i) :: rest => do
    let raw ← initType inferExpr "" fi
    let t ← deep P n raw
    let (fields, checks) ← inferLitFields rest
    pure ((fi.name.text, t) :: fields, ⟨i, raw, .own t⟩ :: checks)

def inferRecordLit (inits : List FieldInit) : CheckM (Ty × List Judged) := do
  let (fields, checks) ← inferLitFields P n inferExpr inits.zipIdx
  pure (.mkRecord fields .closed, checks)

/-! ## Updates -/

/-- An initialiser of an update whose receiver has the fields of `declared`. -/
def inferUpdate (declared : String → Option Ty) (unknown : String → CheckM Unit) (fi : FieldInit)
    (i : Nat) : CheckM (List Judged) :=
  match declared fi.name.text with
  | none => do
    unknown fi.name.text
    pure []
  | some expected => do
    let found ← initType inferExpr " in with-update" fi
    let _ ← unifyOrReport P n expected found
    pure [⟨i, found, .declared expected⟩]

/-- One pass over the initialisers of an update. -/
def inferUpdates (declared : String → Option Ty) (unknown : String → CheckM Unit) :
    List (FieldInit × Nat) → CheckM (List Judged)
  | [] => pure []
  | (fi, i) :: rest => do
    let here ← inferUpdate P n inferExpr declared unknown fi i
    let judged ← inferUpdates declared unknown rest
    pure (here ++ judged)

/-- The initialisers of an update whose receiver is not known yet. -/
def poseUpdates (receiver : Ty) : List (FieldInit × Nat) → CheckM (List Judged)
  | [] => pure []
  | (fi, i) :: rest => do
    let found ← initType inferExpr " in with-update" fi
    let module ← read fun s => some s.currentModule
    let r : RecordRequirement := ⟨receiver, some (fi.name.text, found), module⟩
    remember r
    let checks ← poseUpdates receiver rest
    pure (⟨i, found, .posed r⟩ :: checks)

def inferUnresolvedWith (receiver : Ty) (inits : List FieldInit) : CheckM (List Judged) := do
  let module ← read fun s => some s.currentModule
  if inits.isEmpty then remember ⟨receiver, none, module⟩
  poseUpdates inferExpr receiver inits.zipIdx

/-- `infer_record_with`, with `infer_structural_with` for a structural receiver. -/
def inferRecordWith (baseTy : Ty) (inits : List FieldInit) : CheckM (Ty × List Judged) := do
  let base ← deep P n baseTy
  match base with
  | .var _ => do
    let checks ← inferUnresolvedWith inferExpr base inits
    pure (base, checks)
  | .error => pure (.error, [])
  | .record rowFields _ => do
    let checks ← inferUpdates P n inferExpr (fun name => rowFields.lookup name)
      (fun name => report (.unknownField base name)) inits.zipIdx
    pure (base, checks)
  | .con id args =>
    match P.recordSchema id with
    | none => do
      report (.withOnNonRecord base)
      pure (.error, [])
    | some schema => do
      let current ← read fun s => some s.currentModule
      if opaqueFieldViolation P id current then
        report (.opaqueFieldAccess (P.name id) ((inits.head?.map (·.name.text)).getD ""))
        pure (.error, [])
      else
        forEach (reportUnknown (P.name id) schema) inits
        let checks ← inferUpdates P n inferExpr
          (fun name => (schema.fieldTy name).map (substituteSchema · schema.params args))
          (fun _ => pure ()) inits.zipIdx
        pure (base, checks)
  | other => do
    report (.withOnNonRecord other)
    pure (.error, [])

/-! ## The record arm -/

/-- A constructor without parameters denotes its value. -/
def autoApply : Ty → Ty
  | .fn [] ret _ => ret
  | t => t

variable (ctor : RecordCtor)

/-- The scheme a constructor's name has in scope. -/
def lookupCtor : CheckM (Option Scheme) := do
  let whole ← match ctor.dotted with
    | some d => envLookup d
    | none => pure none
  let last ← envLookup ctor.text
  pure ((whole.or last).or (ctor.dotted.bind fun _ => P.userVariantScheme ctor.text))

/-- The record constructor a module can see under the name, where no scheme answered. -/
def inferUserTycon (inits : List FieldInit) :
    CheckM (Ty × List Judged) :=
  match P.userTycons ctor.text with
  | some id =>
    match P.decl id with
    | some ⟨_, _, .record schema, _⟩ =>
      inferRecordConstruction P n inferExpr schema id ctor.text inits
    | some ⟨_, _, .union _, _⟩ => do
      match ← envLookup ctor.text with
      | some scheme => do
        let t ← instantiate scheme
        pure (t, [])
      | none => do
        report (.notAConstructor ctor.text)
        pure (.error, [])
    | some _ => do
      report (.notAConstructor ctor.text)
      pure (.error, [])
    | none => do
      let t ← emitInternal ("TyConDecl not found for '" ++ ctor.text ++ "'")
      pure (t, [])
  | none => do
    forEach (fun fi => match fi.value with
      | some e => do
        let _ ← inferExpr e
        pure ()
      | none => pure ()) inits
    match ← lookupCtor P ctor with
    | some scheme => do
      let t ← instantiate scheme
      pure (t, [])
    | none =>
      match ctor with
      | .qualified _ => do
        report (.notAConstructor ctor.text)
        pure (.error, [])
      | .bare _ => pure (.error, [])

/-- A constructor's name without initialisers: the value or the function it denotes. -/
def inferCtorValue : CheckM (Option Ty) := do
  match ← lookupCtor P ctor with
  | some scheme => do
    let t ← instantiate scheme
    pure (some (autoApply t))
  | none =>
    match P.preludeScheme ctor.text with
    | some scheme => do
      let t ← instantiate scheme
      pure (some (autoApply t))
    | none => pure none

/-- The record arm of `infer_expr`. -/
def inferRecord (inits : List FieldInit) : CheckM TypedRecord :=
  match P.findRecordVariant ctor.text with
  | some (owner, params, schema) => do
    let r ← inferRecordVariantConstruction P n inferExpr params schema owner ctor.text inits
    pure (.ofBuilt r)
  | none =>
    if inits.isEmpty then
      if ctor.dotted.isNone && P.preludeTycon ctor.text then do
        report (.notAConstructor ctor.text)
        pure (.value .error)
      else do
        match ← inferCtorValue P ctor with
        | some t => pure (.value t)
        | none => do
          let r ← inferUserTycon P n inferExpr ctor inits
          pure (.ofBuilt r)
    else do
      let r ← inferUserTycon P n inferExpr ctor inits
      pure (.ofBuilt r)

end

end Ridge
