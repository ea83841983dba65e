import Ridge.ToText.Holes
import Ridge.Entity.Mirror

/-!
# Derived `ToText`

`ridge-typecheck/src/derive.rs`: what `deriving (ToText)` records of a declaration;
`ridge-lower/src/item.rs`: the method it lowers to; `ridge-typecheck/src/tycon_collect.rs`: the
type a written type stands for.
-/

namespace Ridge

/-! ## Written types -/

/-- `PrimitiveType::name`. -/
def PrimitiveType.name : PrimitiveType → String
  | .int => "Int"
  | .float => "Float"
  | .bool => "Bool"
  | .text => "Text"
  | .unit => "Unit"
  | .timestamp => "Timestamp"
  | .decimal => "Decimal"
  | .uuid => "Uuid"
  | .bytes => "Bytes"
  | .date => "Date"
  | .time => "Time"

mutual
def Ty.substituteTyvars (σ : List (TyVid × Ty)) : Ty → Ty
  | .var v => (σ.lookup v).getD (.var v)
  | .rigid id name => .rigid id name
  | .con id args => .con id (Ty.substituteAll σ args)
  | .fn params ret caps => .fn (Ty.substituteAll σ params) (ret.substituteTyvars σ) caps
  | .tuple ts => .tuple (Ty.substituteAll σ ts)
  | .record fields tail => .record (Ty.substituteFields σ fields) tail
  | .aliased name body => .aliased name (body.substituteTyvars σ)
  | .error => .error

def Ty.substituteAll (σ : List (TyVid × Ty)) : List Ty → List Ty
  | [] => []
  | t :: ts => t.substituteTyvars σ :: Ty.substituteAll σ ts

def Ty.substituteFields (σ : List (TyVid × Ty)) : List Field → List Field
  | [] => []
  | (l, t) :: fs => (l, t.substituteTyvars σ) :: Ty.substituteFields σ fs
end

/-- The tables a written type is read with: the type parameters in scope, the prelude, the types of
the workspace as the module names them, the types the compiler declares, the rest of the arena, and
the bodies of transparent aliases. -/
structure TypeScope where
  primitive : PrimitiveType → TyConId
  list : TyConId
  params : String → Option TyVid
  prelude : String → Option TyConId
  userTycons : String → Option TyConId
  compilerNames : String → Option TyConId
  arena : String → Option TyConId
  aliasBody : TyConId → Option (List TyVid × Ty)
  /-- `is_compiler_own_type_name`. -/
  compilerOwn : String → Bool
  /-- The capabilities written on a function type. -/
  caps : List TypeExpr → TypeExpr → CapRow
  /-- The variable allocated for a name no parameter binds. -/
  freshTyvid : String → TyVid
  freshRowvid : String → RowVid

def wrapAlias (id : TyConId) (params : List TyVid) (body : Ty) (args : List Ty) : Ty :=
  .aliased id (if params = [] then body else body.substituteTyvars (params.zip args))

namespace TypeScope

variable (S : TypeScope)

mutual
def astTypeToRidgeType : TypeExpr → Ty
  | .primitive name => .con (S.primitive name) []
  | .named n =>
    if S.compilerOwn n then .error
    else match S.params n with
    | some v => .var v
    | none =>
      match S.prelude n with
      | some id => .con id []
      | none =>
        match S.userTycons n with
        | some id =>
          match S.aliasBody id with
          | some ([], body) => wrapAlias id [] body []
          | _ => .con id []
        | none =>
          match S.arena n with
          | some id => .con id []
          | none => .error
  | .app n args =>
    if S.compilerOwn n then .error
    else
      let tys := astTypesToRidgeTypes args
      match S.prelude n with
      | some id => .con id tys
      | none =>
        match (S.userTycons n).or (S.arena n) with
        | some id =>
          match S.aliasBody id with
          | some (params, body) =>
            if params.length = tys.length then wrapAlias id params body tys else .con id tys
          | none => .con id tys
        | none => .error
  | .tuple elems => .tuple (astTypesToRidgeTypes elems)
  | .list elem => .con S.list [astTypeToRidgeType elem]
  | .fn params ret =>
    .fn (astTypesToRidgeTypes params) (astTypeToRidgeType ret) (S.caps params ret)
  | .paren inner => astTypeToRidgeType inner
  | .var n => .var ((S.params n).getD (S.freshTyvid n))
  | .record fields tail =>
    Ty.mkRecord (astFieldsToRidgeFields fields)
      (match tail with | some r => .opened (S.freshRowvid r) | none => .closed)

def astTypesToRidgeTypes : List TypeExpr → List Ty
  | [] => []
  | t :: ts => astTypeToRidgeType t :: astTypesToRidgeTypes ts

def astFieldsToRidgeFields : List (String × TypeExpr) → List Field
  | [] => []
  | (l, t) :: fs => (l, astTypeToRidgeType t) :: astFieldsToRidgeFields fs
end

/-- A bare name only. -/
def resolveAstTypeToTyconId : TypeExpr → Option TyConId
  | .primitive name => S.compilerNames name.name
  | .named n => (S.userTycons n).or (S.compilerNames n)
  | _ => none

end TypeScope

/-! ## Deriving -/

/-- `Constructor`. -/
inductive Alternative where
  | positional (name : String) (args : List TypeExpr)
  | record (name : String) (fields : List FieldDecl)

/-- `TypeBody`, with the alternatives of a union. -/
inductive DerivableBody where
  | record (fields : List FieldDecl)
  | union (alternatives : List Alternative)
  | aliasOf (ty : TypeExpr)

structure DerivingDecl where
  name : String
  isOpaque : Bool
  body : DerivableBody
  /-- The class as the clause spells it: `ToText`, or its other name `Show`. -/
  className : String

/-- A variant of `DerivedToTextUnion`: the constructor's name, its number of slots, their type
constructors, and the field names of a record variant. -/
structure ToTextVariant where
  ctorName : String
  payloadCount : Nat
  payloadTycons : List (Option TyConId)
  fieldNames : Option (List String)

/-- The `ToText` bodies of `DerivedMethodBody`. -/
inductive ToTextBody where
  | record (fieldNames : List String) (fieldTycons : List (Option TyConId))
  | union (variants : List ToTextVariant)
  | delegated (fieldName : String) (innerTycon : TyConId)

namespace TypeScope

variable (S : TypeScope)

def Alternative.toVariant : Alternative → ToTextVariant
  | .positional name args => ⟨name, args.length, args.map S.resolveAstTypeToTyconId, none⟩
  | .record name fields =>
    ⟨name, fields.length, fields.map fun f => S.resolveAstTypeToTyconId f.ty,
      some (fields.map FieldDecl.name)⟩

def generateToText : DerivableBody → ToTextBody
  | .record fields =>
    .record (fields.map FieldDecl.name) (fields.map fun f => S.resolveAstTypeToTyconId f.ty)
  | .union alternatives => .union (alternatives.map (Alternative.toVariant S))
  | .aliasOf _ => .record [] []

/-- The one field and its constructor. -/
def recognizeNewtype : DerivableBody → Option (String × TyConId)
  | .record [field] => (S.resolveAstTypeToTyconId field.ty).map (field.name, ·)
  | _ => none

/-- The branch of `derive_instances` for `ToText`. An opaque wrapper delegates where the clause
says `ToText`, and is refused when its inner type has no instance; nothing is asked of the fields
of any other declaration. -/
def deriveToText (C : TextCtx) (decl : DerivingDecl) : Option ToTextBody :=
  match (if decl.isOpaque then S.recognizeNewtype decl.body else none) with
  | some (field, inner) =>
    if decl.className = "ToText" then
      if (C.instances totextClass [inner]).isSome then some (.delegated field inner) else none
    else some (S.generateToText decl.body)
  | none => some (S.generateToText decl.body)

end TypeScope

/-! ## The derived method -/

namespace TextCtx

variable (C : TextCtx)

/-- The rows of `wrap_to_text_by_tycon`; `Text` and every other type are passed through. -/
def fieldTarget (id : TyConId) : ToTextTarget :=
  if id = C.builtins.int then .module "std.int" "toText"
  else if id = C.builtins.float then .module "std.float" "toText"
  else if id = C.builtins.bool then .module "std.bool" "toText"
  else if id = C.builtins.timestamp then .module "std.time" "toIso"
  else if id = C.builtins.decimal then .module "std.decimal" "toText"
  else if id = C.builtins.uuid then .module "std.uuid" "toText"
  else if id = C.builtins.error then .module "std.error" "toText"
  else if id = C.builtins.ordering then .ordering
  else .identity

def wrapToTextByTycon (arg : IrExpr) (id : TyConId) : IrExpr := (C.fieldTarget id).call arg

/-- A field or a payload, wrapped where its constructor is known. -/
def renderSlot (tycon : Option TyConId) (arg : IrExpr) : IrExpr :=
  match tycon with
  | some id => C.wrapToTextByTycon arg id
  | none => arg

/-- The text of the chunks written so far, then one slot after another: a separator before every
slot but the first, its label, its value. -/
def appendSlots (acc : IrExpr) (idx : Nat) : List (Option String × IrExpr) → IrExpr
  | [] => acc
  | (label, value) :: slots =>
    let acc := if 0 < idx then makeConcatCall acc (.lit (.text ", ")) else acc
    let acc := match label with
      | some l => makeConcatCall acc (.lit (.text (l ++ " = ")))
      | none => acc
    appendSlots (makeConcatCall acc value) (idx + 1) slots

def buildToTextRecordBody (typeName : String) (fieldNames : List String)
    (fieldTycons : List (Option TyConId)) : IrExpr :=
  if fieldNames = [] then .lit (.text typeName)
  else
    makeConcatCall
      (appendSlots (.lit (.text (typeName ++ " \x7b "))) 0
        (fieldNames.zipIdx.map fun (field, idx) =>
          (some field, C.renderSlot (fieldTycons[idx]?).join (.field (.local "x") field))))
      (.lit (.text " \x7d"))

def buildToTextUnionArmBody (v : ToTextVariant) : IrExpr :=
  if v.payloadCount = 0 then .lit (.text v.ctorName)
  else
    makeConcatCall
      (appendSlots
        (.lit (.text (if v.fieldNames.isSome then v.ctorName ++ " \x7b " else v.ctorName ++ "("))) 0
        ((List.range v.payloadCount).map fun i =>
          (v.fieldNames.bind (·[i]?),
            C.renderSlot (v.payloadTycons[i]?).join (.local ("_p" ++ toString i)))))
      (.lit (.text (if v.fieldNames.isSome then " \x7d" else ")")))

def buildUnionVariantBindPat (ctorName : String) (binds : List IrPat)
    (fieldNames : Option (List String)) : IrPat :=
  match fieldNames with
  | some names =>
    .ctor (.constructor .unionVariant ctorName) []
      [.ctor (.constructor .record ctorName) (names.zip binds) []]
  | none => .ctor (.constructor .unionVariant ctorName) [] binds

/-- The parameter and the body of the derived method (`lower_derived_instance`,
`build_delegated_instance`). -/
def lowerDerivedToText (typeName : String) : ToTextBody → String × IrExpr
  | .record fieldNames fieldTycons =>
    ("x", C.buildToTextRecordBody typeName fieldNames fieldTycons)
  | .union variants =>
    ("x", .match (.local "x") (variants.map fun v =>
      .mk (buildUnionVariantBindPat v.ctorName
        ((List.range v.payloadCount).map fun i => .bind ("_p" ++ toString i) none) v.fieldNames)
        none (C.buildToTextUnionArmBody v)))
  | .delegated field inner =>
    ("__d0", C.wrapToTextByTycon (.field (.local "__d0") field) inner)

end TextCtx

end Ridge
