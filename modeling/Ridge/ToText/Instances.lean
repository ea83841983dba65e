import Ridge.Ir.Expr
import Ridge.Types.Ty
import Ridge.Lib.Evidence
import Std.Data.String.ToNat

/-!
# Dictionaries of `ToText`

The constraints in scope and the instances of a program (`ridge-types/src/constraint.rs`,
`ridge-typecheck/src/class_env.rs`), the built-in renderings (`ridge-lower/src/prelude_dict.rs`),
and which dictionary is evidence for a class at a type. At run time a dictionary is a map from
method names to functions; a parametric instance is a function of the dictionaries of its context.
-/

namespace Ridge

open Evidence List

abbrev ClassId := Nat

def totextClass : ClassId := 0

/-- A class at a tuple of type variables. -/
structure Constraint where
  cls : ClassId
  tys : List TyVid
  deriving DecidableEq

/-- The name of the parameter that carries a constraint's dictionary. -/
def Constraint.dictParamName (c : Constraint) (className : String) : String :=
  c.tys.foldl (fun out v => out ++ "_" ++ Nat.repr v) ("$dict_" ++ className)

/-- The part of `InstanceInfo` that dictionaries are built from: the context, each constraint with
the positions of its variables among the arguments of the head. -/
structure InstanceInfo where
  ctxConstraints : List (ClassId × List Nat)
  defModule : Option Nat
  deriving DecidableEq

/-- The constructors with a built-in rendering, out of `BuiltinTyCons`. -/
structure TextTyCons where
  int : TyConId
  float : TyConId
  bool : TyConId
  text : TyConId
  timestamp : TyConId
  decimal : TyConId
  uuid : TyConId
  error : TyConId
  ordering : TyConId
  distinct : [int, float, bool, text, timestamp, decimal, uuid, error, ordering].Nodup

/-- How a built-in value is turned into text. -/
inductive ToTextTarget where
  | identity
  | ordering
  | module (module name : String)
  | actorError (bridge : String)
  deriving DecidableEq

/-- The standard library function of a target, and none for the identity. -/
def ToTextTarget.symbol : ToTextTarget → Option (String × String)
  | .identity => none
  | .ordering => some ("std.list", "_orderingToText")
  | .module m f => some (m, f)
  | .actorError bridge => some ("std.actor", bridge)

/-- The error unions of `std.actor` with their private bridges. -/
def actorErrorBridges : List (String × String) :=
  [("AskError", "_askErrorToText"), ("SendError", "_sendErrorToText"),
    ("ExitReason", "_exitReasonToText"), ("SupError", "_supErrorToText")]

section

variable (b : TextTyCons) (stdlibTycon : String → Option TyConId)

def actorErrorToTextFn (id : TyConId) : Option String :=
  (actorErrorBridges.find? fun e => stdlibTycon e.1 = some id).map (·.2)

/-- The rows of `prelude_totext_target` for the built-in types. -/
def builtinTarget (id : TyConId) : Option ToTextTarget :=
  if id = b.text then some .identity
  else if id = b.ordering then some .ordering
  else if id = b.int then some (.module "std.int" "toText")
  else if id = b.float then some (.module "std.float" "toText")
  else if id = b.bool then some (.module "std.bool" "toText")
  else if id = b.timestamp then some (.module "std.time" "toIso")
  else if id = b.error then some (.module "std.error" "toText")
  else if id = b.decimal then some (.module "std.decimal" "toText")
  else if id = b.uuid then some (.module "std.uuid" "toText")
  else none

def preludeTotextTarget (id : TyConId) : Option ToTextTarget :=
  match actorErrorToTextFn stdlibTycon id with
  | some bridge => some (.actorError bridge)
  | none => builtinTarget b id

end

/-- The `$inst_` constant of an instance, in the module that declares it or else in the module of
the head's type. -/
def instanceSymbol (name : String) (moduleId : Nat) (defModule tyconModule : Option Nat) :
    SymbolRef :=
  match defModule.filter (· ≠ moduleId) with
  | some m => .external m name
  | none =>
    match tyconModule.filter (· ≠ moduleId) with
    | some m => .external m name
    | none => .local name moduleId

/-- What lowering a function body reads: the tables of the workspace, and the constraints in
scope. -/
structure TextCtx where
  builtins : TextTyCons
  stdlibTycon : String → Option TyConId
  instances : ClassId → List TyConId → Option InstanceInfo
  className : ClassId → String
  tyconName : TyConId → String
  /-- The module that declares a type; none for what the compiler declares. -/
  tyconModule : TyConId → Option Nat
  moduleId : Nat
  currentFnConstraints : List Constraint
  /-- `ToText` is a class of one parameter. -/
  totext_unary : ∀ c ∈ currentFnConstraints, c.cls = totextClass → ∃ v, c.tys = [v]
  /-- `std.actor`'s unions are types of their own. -/
  actorErrors_fresh : ∀ id, (actorErrorToTextFn stdlibTycon id).isSome →
    builtinTarget builtins id = none
  /-- `register_prelude_instances` has every type with a built-in rendering, without a context. -/
  prelude : ∀ id, (preludeTotextTarget builtins stdlibTycon id).isSome →
    ∃ info, instances totextClass [id] = some info ∧ info.ctxConstraints = []
  /-- Two constants of one name in one module do not compile. -/
  symbols_distinct : ∀ i j info info', instances totextClass [i] = some info →
    instances totextClass [j] = some info' →
    instanceSymbol ("$inst_" ++ className totextClass ++ "_" ++ tyconName i) moduleId
        info.defModule (tyconModule i) =
      instanceSymbol ("$inst_" ++ className totextClass ++ "_" ++ tyconName j) moduleId
        info'.defModule (tyconModule j) → i = j

namespace TextCtx

variable (C : TextCtx)

def target (id : TyConId) : Option ToTextTarget := preludeTotextTarget C.builtins C.stdlibTycon id

/-- The constant `$inst_ToText_T`. -/
def dictSymbol (tycon : TyConId) (info : InstanceInfo) : SymbolRef :=
  instanceSymbol ("$inst_" ++ C.className totextClass ++ "_" ++ C.tyconName tycon) C.moduleId
    info.defModule (C.tyconModule tycon)

/-- The name under which a constraint's dictionary is passed. -/
def dictParam (c : Constraint) : String := c.dictParamName (C.className c.cls)

end TextCtx

/-! ## Evidence -/

/-- A class at a tuple of types. -/
structure Goal where
  cls : ClassId
  tys : List Ty

/-- `ToText` at a type. -/
def Goal.toText (t : Ty) : Goal := ⟨totextClass, [t]⟩

/-- An instance by its class and head. -/
structure InstanceKey where
  cls : ClassId
  head : List TyConId
  deriving DecidableEq

/-- The built-in rendering of an instance of `ToText`. -/
def TextCtx.builtinOf (C : TextCtx) (k : InstanceKey) : Option ToTextTarget :=
  if k.cls = totextClass then k.head.head?.bind C.target else none

@[simp] theorem TextCtx.builtinOf_totext (C : TextCtx) (id : TyConId) :
    C.builtinOf ⟨totextClass, [id]⟩ = C.target id := rfl

abbrev DictPlan := ProofTree Constraint InstanceKey

def Ty.deepPeelAlias : Ty → Ty
  | .aliased _ body => body.deepPeelAlias
  | t => t

/-- A constraint in scope is evidence for its class at its own variables, and for nothing else. -/
def Assumes (constraints : List Constraint) (c : Constraint) (g : Goal) : Prop :=
  c ∈ constraints ∧ g.cls = c.cls ∧ g.tys.map Ty.deepPeelAlias = c.tys.map Ty.var

/-- An instance is evidence for its class at its head, given evidence for its context at the
arguments the context's constraints point to. -/
def Concludes (instances : ClassId → List TyConId → Option InstanceInfo) (k : InstanceKey)
    (g : Goal) (premises : List Goal) : Prop :=
  ∃ info args, instances k.cls k.head = some info ∧ g.cls = k.cls ∧
    g.tys.map Ty.deepPeelAlias = (k.head.zip args).map (fun p => Ty.con p.1 p.2) ∧
    args.length = k.head.length ∧
    List.Forall₂ (fun (c : ClassId × List Nat) (p : Goal) =>
      p.cls = c.1 ∧ List.Forall₂ (fun slot t => args.flatten[slot]? = some t) c.2 p.tys)
      info.ctxConstraints premises

/-- `plan` is evidence for `goal`. -/
def EvidenceFor (C : TextCtx) (goal : Goal) (plan : DictPlan) : Prop :=
  Proves (Assumes C.currentFnConstraints) (Concludes C.instances) goal plan

variable {plan : DictPlan}

/-- A variable has no instance: its evidence is a constraint on that very variable. -/
theorem EvidenceFor.var {C : TextCtx} {v : TyVid} (h : EvidenceFor C (.toText (.var v)) plan) :
    plan = .given ⟨totextClass, [v]⟩ ∧ ⟨totextClass, [v]⟩ ∈ C.currentFnConstraints := by
  cases h with
  | @given c _ h =>
    obtain ⟨hmem, hcls, htys⟩ := h
    have hc : c = ⟨totextClass, [v]⟩ := by
      cases c with
      | mk cls tys =>
        simp only [Goal.toText, map_cons, map_nil, Ty.deepPeelAlias] at hcls htys
        cases tys with
        | nil => simp at htys
        | cons w ws =>
          rw [map_cons, cons.injEq, Ty.var.injEq, nil_eq,
            map_eq_nil_iff] at htys
          rw [hcls, htys.1, htys.2]
    exact ⟨congrArg ProofTree.given hc, hc ▸ hmem⟩
  | @rule k _ _ _ h _ _ =>
    obtain ⟨info, args, _, _, htys, hlen, _⟩ := h
    cases hh : k.head.zip args with
    | nil => rw [hh] at htys; simp [Goal.toText] at htys
    | cons p ps => rw [hh] at htys; simp [Goal.toText, Ty.deepPeelAlias] at htys

variable {id : TyConId} {args : List Ty}

/-- The evidence at a constructor is an instance of that constructor. -/
theorem EvidenceFor.con {C : TextCtx} {t : Ty} (ht : t.deepPeelAlias = .con id args)
    (h : EvidenceFor C (.toText t) plan) :
    ∃ info premises, plan = .rule ⟨totextClass, [id]⟩ premises ∧
      C.instances totextClass [id] = some info ∧
      info.ctxConstraints.length = premises.length := by
  cases h with
  | given h =>
    obtain ⟨-, -, htys⟩ := h
    simp only [Goal.toText, map_cons, map_nil, ht] at htys
    cases hc : (List.map Ty.var _) with
    | nil => rw [hc] at htys; simp at htys
    | cons p ps =>
      rw [hc] at htys
      obtain ⟨v, _, hv⟩ := mem_map.mp (hc ▸ mem_cons_self : p ∈ List.map Ty.var _)
      rw [cons.injEq] at htys
      rw [← htys.1] at hv
      simp at hv
  | @rule k _ _ trees h hlength hpremises =>
    obtain ⟨info, as, hinfo, hcls, htys, hlen, hctx⟩ := h
    simp only [Goal.toText, map_cons, map_nil, ht] at htys hcls
    cases k with
    | mk cls head =>
      cases head with
      | nil => simp at htys
      | cons i is =>
        cases as with
        | nil => simp at hlen
        | cons a as =>
          simp only [length_cons] at hlen
          rw [zip_cons_cons, map_cons, cons.injEq, Ty.con.injEq, nil_eq,
            map_eq_nil_iff, zip_eq_nil_iff] at htys
          have his : is = [] := by
            rcases htys.2 with h | h
            · exact h
            · rw [h] at hlen
              exact length_eq_zero_iff.mp (by simpa using hlen.symm)
          refine ⟨info, trees, ?_, ?_, hctx.length_eq.trans hlength⟩
          · rw [hcls, htys.1.1, his]
          · rw [hcls, htys.1.1, ← his]
            exact hinfo

/-- An instance without a context is evidence at every use of its constructor. -/
theorem EvidenceFor.ground {C : TextCtx} {t : Ty} {info : InstanceInfo}
    (ht : t.deepPeelAlias = .con id args) (hinfo : C.instances totextClass [id] = some info)
    (hctx : info.ctxConstraints = []) :
    EvidenceFor C (.toText t) (.rule ⟨totextClass, [id]⟩ []) := by
  have hconcludes : Concludes C.instances ⟨totextClass, [id]⟩ (.toText t) [] := by
    refine ⟨info, [args], hinfo, rfl, ?_, rfl, ?_⟩
    · simp [Goal.toText, ht]
    · rw [hctx]
      exact .nil
  exact .rule hconcludes rfl (by simp)

/-- A constraint on a variable is evidence at that variable. -/
theorem EvidenceFor.assumed {C : TextCtx} {v : TyVid}
    (h : ⟨totextClass, [v]⟩ ∈ C.currentFnConstraints) :
    EvidenceFor C (.toText (.var v)) (.given ⟨totextClass, [v]⟩) :=
  .given ⟨h, rfl, rfl⟩

end Ridge
