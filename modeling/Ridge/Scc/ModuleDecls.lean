import Ridge.Syntax.Ast
import Ridge.Scc.TarjanOrder

/-!
# The call graph of a module

`build_call_graph` and `collect_called_names` of `ridge-typecheck/src/scc.rs`. The declarations
are numbered in source order. The sets of called declarations are hash sets: `called` lists the
members of one, and the graph has them in whatever order the set is enumerated.

`NamedIn` says which names the collector sees, without the collector: those of identifiers that
no expression of an `isOpaque` form encloses.
-/

namespace Ridge

open Relation List

mutual
/-- The declarations whose names occur, in the positions the collector visits. -/
def collectCalledNames {δ : Type} (nameToId : String → Option δ) : Expr → List δ
  | .ident id => (nameToId id.text).toList
  | .call callee args _ =>
    collectCalledNames nameToId callee ++ collectCalledAll nameToId args
  | .lambda _ body _ => collectCalledNames nameToId body
  | .block ⟨stmts, _⟩ => collectCalledAll nameToId stmts
  | .try ⟨stmts, _⟩ _ => collectCalledAll nameToId stmts
  | .let _ value _ => collectCalledNames nameToId value
  | .var _ value _ => collectCalledNames nameToId value
  | .ret value _ => collectCalledNames nameToId value
  | .assign target value _ =>
    collectCalledNames nameToId target ++ collectCalledNames nameToId value
  | .ite cond thenBranch elseBranch _ =>
    collectCalledNames nameToId cond ++ collectCalledNames nameToId thenBranch ++
      collectCalledOpt nameToId elseBranch
  | .is subject _ _ => collectCalledNames nameToId subject
  | .match scrutinee arms _ =>
    collectCalledNames nameToId scrutinee ++ collectCalledArms nameToId arms
  | .binary _ lhs rhs _ => collectCalledNames nameToId lhs ++ collectCalledNames nameToId rhs
  | .pipe lhs rhs _ => collectCalledNames nameToId lhs ++ collectCalledNames nameToId rhs
  | .unary _ expr _ => collectCalledNames nameToId expr
  | .tuple elems _ => collectCalledAll nameToId elems
  | .list elems _ => collectCalledAll nameToId elems
  | .paren inner _ => collectCalledNames nameToId inner
  | .propagate inner _ => collectCalledNames nameToId inner
  | .innerFn ⟨_, _, _, .expr body, _⟩ _ => collectCalledNames nameToId body
  | .innerFn ⟨_, _, _, .ffi, _⟩ _ => []
  | .innerFn ⟨_, _, _, .primitive, _⟩ _ => []
  | .guard cond ⟨stmts, _⟩ _ =>
    collectCalledNames nameToId cond ++ collectCalledAll nameToId stmts
  -- "These don't contain intra-module fn references that matter for SCCs."
  | .literal _ => []
  | .unit _ => []
  | .qualified _ => []
  | .fieldAccessorFn _ _ => []
  | .record _ _ _ => []
  | .with _ _ _ => []
  | .fieldAccess _ _ _ => []
  | .interp _ _ => []
  | .send _ _ _ => []
  | .ask _ _ _ _ _ => []
  | .spawn _ _ _ => []
  | .childSpec _ _ _ => []
  | .recordLit fields _ => collectCalledFields nameToId fields

def collectCalledAll {δ : Type} (nameToId : String → Option δ) : List Expr → List δ
  | [] => []
  | e :: es => collectCalledNames nameToId e ++ collectCalledAll nameToId es

def collectCalledOpt {δ : Type} (nameToId : String → Option δ) : Option Expr → List δ
  | none => []
  | some e => collectCalledNames nameToId e

def collectCalledArms {δ : Type} (nameToId : String → Option δ) :
    List (MatchArmOf Expr) → List δ
  | [] => []
  | ⟨_, guard, body, _⟩ :: arms =>
    collectCalledNames nameToId body ++ collectCalledOpt nameToId guard ++
      collectCalledArms nameToId arms

def collectCalledFields {δ : Type} (nameToId : String → Option δ) :
    List (FieldInitOf Expr) → List δ
  | [] => []
  | ⟨_, value, _⟩ :: fields =>
    collectCalledOpt nameToId value ++ collectCalledFields nameToId fields
end

/-! ## What the collector sees -/

/-- The forms the collector does not look into. -/
def Expr.isOpaque : Expr → Bool
  | .record _ _ _ | .with _ _ _ | .fieldAccess _ _ _ | .interp _ _ | .send _ _ _
  | .ask _ _ _ _ _ | .spawn _ _ _ | .childSpec _ _ _ => true
  | _ => false

/-- An identifier of this name stands in the expression, below no opaque form. -/
inductive NamedIn (x : String) : Expr → Prop where
  | ident (id : Ident) (h : id.text = x) : NamedIn x (.ident id)
  | child (e c : Expr) (hform : e.isOpaque = false) (hc : c ∈ e.children) (h : NamedIn x c) :
    NamedIn x e

section Collector

variable {δ : Type} (nameToId : String → Option δ)

theorem collectCalledAll_eq (es : List Expr) :
    collectCalledAll nameToId es = es.flatMap (collectCalledNames nameToId) := by
  induction es with
  | nil => simp [collectCalledAll]
  | cons e es ih => simp [collectCalledAll, ih]

theorem collectCalledOpt_eq (o : Option Expr) :
    collectCalledOpt nameToId o = o.toList.flatMap (collectCalledNames nameToId) := by
  cases o <;> simp [collectCalledOpt]

variable {d : δ}

theorem mem_collectCalledArms (arms : List (MatchArmOf Expr)) :
    d ∈ collectCalledArms nameToId arms ↔
      ∃ c ∈ arms.flatMap MatchArmOf.exprs, d ∈ collectCalledNames nameToId c := by
  induction arms with
  | nil => simp [collectCalledArms]
  | cons arm arms ih =>
    obtain ⟨pattern, guard, body, span⟩ := arm
    simp only [collectCalledArms, mem_append, ih, collectCalledOpt_eq, mem_flatMap,
      flatMap_cons, MatchArmOf.exprs, mem_singleton]
    grind

theorem mem_collectCalledFields (fields : List (FieldInitOf Expr)) :
    d ∈ collectCalledFields nameToId fields ↔
      ∃ c ∈ fields.flatMap FieldInitOf.exprs, d ∈ collectCalledNames nameToId c := by
  induction fields with
  | nil => simp [collectCalledFields]
  | cons field fields ih =>
    obtain ⟨name, value, span⟩ := field
    simp only [collectCalledFields, mem_append, ih, collectCalledOpt_eq, mem_flatMap,
      flatMap_cons, FieldInitOf.exprs]
    grind

/-- One turn of the collector: the identifier itself, or what it finds in the children of a form
that is not opaque. -/
theorem mem_collectCalledNames (e : Expr) :
    d ∈ collectCalledNames nameToId e ↔
      (∃ id, e = .ident id ∧ nameToId id.text = some d) ∨
      (e.isOpaque = false ∧ ∃ c ∈ e.children, d ∈ collectCalledNames nameToId c) := by
  cases e
  case innerFn decl span =>
    obtain ⟨caps, name, params, body, span'⟩ := decl
    cases body <;> simp [collectCalledNames, Expr.children, Expr.isOpaque, BodyOf.exprs]
  case «match» => simp [collectCalledNames, Expr.children, Expr.isOpaque, mem_collectCalledArms]
  case recordLit =>
    simp [collectCalledNames, Expr.children, Expr.isOpaque, mem_collectCalledFields]
  all_goals
    simp [collectCalledNames, Expr.children, Expr.isOpaque, collectCalledAll_eq,
      collectCalledOpt_eq]

theorem mem_collectCalledNames_iff (e : Expr) :
    d ∈ collectCalledNames nameToId e ↔ ∃ x, NamedIn x e ∧ nameToId x = some d := by
  constructor
  · induction e using Expr.inductionOn with
    | _ e ih =>
      rw [mem_collectCalledNames]
      rintro (⟨id, rfl, hid⟩ | ⟨hform, c, hc, hd⟩)
      · exact ⟨id.text, .ident id rfl, hid⟩
      · obtain ⟨x, hx, hid⟩ := ih c hc hd
        exact ⟨x, .child e c hform hc hx, hid⟩
  · rintro ⟨x, hx, hid⟩
    induction hx with
    | ident id h =>
      subst h
      exact (mem_collectCalledNames nameToId _).mpr (.inl ⟨id, rfl, hid⟩)
    | child e c hform hc _ ih =>
      exact (mem_collectCalledNames nameToId e).mpr (.inr ⟨hform, c, hc, ih⟩)

end Collector

/-! ## The graph -/

variable (decls : List FnDecl)

/-- A later declaration of a name replaces an earlier one. -/
def nameToId (x : String) : Option (Fin decls.length) :=
  (List.finRange decls.length).reverse.find? fun i => (decls.get i).name.text = x

/-- The set `called` of a declaration. -/
def called (i : Fin decls.length) : List (Fin decls.length) :=
  match (decls.get i).body with
  | .expr e => (collectCalledNames (nameToId decls) e).dedup
  -- a body-less declaration contributes no call-graph edges
  | .ffi => []
  | .primitive => []

/-- `adj` has the sets of called declarations, each in some order. -/
def Enumerates (adj : Fin decls.length → List (Fin decls.length)) : Prop :=
  ∀ i, (adj i).Perm (called decls i)

/-- `build_call_graph`, the hash sets being enumerated as `adj`. -/
def buildCallGraph (adj : Fin decls.length → List (Fin decls.length)) :
    CallGraph :=
  ⟨decls.length, adj⟩

end Ridge

/-!
# Checking the functions of a module

`typecheck_module_decls` of `ridge-typecheck/src/scc.rs`, as far as the names of the functions go:
which component is inferred under which bindings of the module's outermost frame. Types and
schemes are left out; a binding records whose scheme it is, and whether it is the one the
component works with or the generalised one.
-/

/-!
## Free names

The names an expression looks up outside itself, by the scopes of `ridge-resolve/src/walker.rs`
and `ridge-typecheck/src/infer.rs`: a block binds its `let`s, `var`s and inner functions for the
statements after them; lambdas, inner functions and match arms bind their parameters and pattern
variables; a record field without a value is a use of the variable of its own name.

The head of a message is a handler label and not a name.
-/

namespace Ridge

/-- What an expression stands for: a value, or the message of a send, or the message argument of
`std.actor.tryAsk` and `std.actor.send`, which may be parenthesised. -/
inductive Role where
  | value | sent | passed
  deriving DecidableEq

/-- The names a statement binds for the rest of its block. -/
def Expr.binds : Expr → List String
  | .let pat _ _ => pat.binders
  | .var name _ _ => [name.text]
  | .innerFn decl _ => [decl.name.text]
  | _ => []

def without (bound names : List String) : List String := names.filter (· ∉ bound)

section FreeNames

-- the resolver bound this callee to `std.actor.tryAsk` or `std.actor.send`
variable (isMessageFn : Expr → Bool)

mutual
def freeNames : Role → Expr → List String
  | .value, .ident id => [id.text]
  | .sent, .ident _ => []
  | .passed, .ident _ => []
  | .sent, .call (.ident _) args _ => freeNamesAll args
  | .passed, .call (.ident _) args _ => freeNamesAll args
  | .passed, .paren inner _ => freeNames .passed inner
  | _, .paren inner _ => freeNames .value inner
  | _, .call callee args _ =>
    freeNames .value callee ++
      (if isMessageFn callee then freeNamesMessage args else freeNamesAll args)
  | _, .is subject _ _ => freeNames .value subject
  | _, .literal _ => []
  | _, .unit _ => []
  | _, .qualified _ => []
  | _, .interp parts _ => freeNamesParts parts
  | _, .list elems _ => freeNamesAll elems
  | _, .tuple elems _ => freeNamesAll elems
  | _, .fieldAccessorFn _ _ => []
  | _, .binary _ lhs rhs _ => freeNames .value lhs ++ freeNames .value rhs
  | _, .unary _ expr _ => freeNames .value expr
  | _, .fieldAccess base _ _ => freeNames .value base
  | _, .pipe lhs rhs _ => freeNames .value lhs ++ freeNames .value rhs
  | _, .lambda params body _ =>
    without (params.flatMap Pattern.binders) (freeNames .value body)
  | _, .innerFn ⟨_, name, params, .expr body, _⟩ _ =>
    without (name.text :: params.flatMap Param.binders) (freeNames .value body)
  | _, .innerFn ⟨_, _, _, .ffi, _⟩ _ => []
  | _, .innerFn ⟨_, _, _, .primitive, _⟩ _ => []
  | _, .record _ fields _ => freeNamesFields fields
  | _, .recordLit fields _ => freeNamesFields fields
  | _, .with base fields _ => freeNames .value base ++ freeNamesFields fields
  | _, .ask handle _ args none _ => freeNames .value handle ++ freeNamesAll args
  | _, .ask handle _ args (some .never) _ => freeNames .value handle ++ freeNamesAll args
  | _, .ask handle _ args (some (.millis ms)) _ =>
    freeNames .value handle ++ freeNamesAll args ++ freeNames .value ms
  | _, .send handle message _ => freeNames .value handle ++ freeNames .sent message
  | _, .spawn _ args _ => freeNamesAll args
  | _, .childSpec _ args _ => freeNamesAll args
  | _, .propagate inner _ => freeNames .value inner
  | _, .ite cond thenBranch elseBranch _ =>
    freeNames .value cond ++ freeNames .value thenBranch ++ freeNamesOpt elseBranch
  | _, .match scrutinee arms _ => freeNames .value scrutinee ++ freeNamesArms arms
  | _, .try ⟨stmts, _⟩ _ => freeNamesBlock stmts
  | _, .guard cond ⟨stmts, _⟩ _ => freeNames .value cond ++ freeNamesBlock stmts
  | _, .ret value _ => freeNames .value value
  | _, .let _ value _ => freeNames .value value
  | _, .var _ value _ => freeNames .value value
  | _, .assign target value _ => freeNames .value target ++ freeNames .value value
  | _, .block ⟨stmts, _⟩ => freeNamesBlock stmts

def freeNamesAll : List Expr → List String
  | [] => []
  | e :: es => freeNames .value e ++ freeNamesAll es

/-- The arguments of a call that passes a message: the handle, the message, the rest. -/
def freeNamesMessage : List Expr → List String
  | [] => []
  | [handle] => freeNames .value handle
  | handle :: message :: rest =>
    freeNames .value handle ++ freeNames .passed message ++ freeNamesAll rest

def freeNamesOpt : Option Expr → List String
  | none => []
  | some e => freeNames .value e

/-- Every statement binds for those after it. -/
def freeNamesBlock : List Expr → List String
  | [] => []
  | stmt :: stmts => freeNames .value stmt ++ without stmt.binds (freeNamesBlock stmts)

def freeNamesParts : List (InterpPartOf Expr) → List String
  | [] => []
  | .text _ _ :: parts => freeNamesParts parts
  | .expr e _ :: parts => freeNames .value e ++ freeNamesParts parts

def freeNamesFields : List (FieldInitOf Expr) → List String
  | [] => []
  | ⟨name, none, _⟩ :: fields => name.text :: freeNamesFields fields
  | ⟨_, some value, _⟩ :: fields => freeNames .value value ++ freeNamesFields fields

def freeNamesArms : List (MatchArmOf Expr) → List String
  | [] => []
  | ⟨pattern, guard, body, _⟩ :: arms =>
    without pattern.binders (freeNamesOpt guard ++ freeNames .value body) ++ freeNamesArms arms
end

/-- The free names of a declaration's body, its parameters being bound. -/
def FnDeclOf.freeNames (decl : FnDecl) : List String :=
  match decl.body with
  | .expr e => without (decl.params.flatMap Param.binders) (Ridge.freeNames isMessageFn .value e)
  | .ffi => []
  | .primitive => []

end FreeNames

open CallGraph TarjanState List

/-- What the outermost frame binds a name to. -/
inductive TopBinding (n : Nat) where
  /-- Something seeded before the functions are checked. -/
  | seeded
  /-- The type a function of the component has while its component is inferred. -/
  | inScc (did : Fin n)
  | generalised (did : Fin n)
  deriving DecidableEq

abbrev TopEnv (n : Nat) := String → Option (TopBinding n)

/-- The outermost frame before the functions are checked. -/
def seededEnv {n : Nat} (seeded : List String) : TopEnv n :=
  fun x => if x ∈ seeded then some .seeded else none

section

variable (decls : List FnDecl)
  -- `is_auto_promoted_totext`: such a function leaves the name to the class method
  (isAutoPromoted : FnDecl → Bool) {done : List (Fin decls.length)}

/-- Bind the name of a function, unless it is auto-promoted. -/
def bindName (binding : Fin decls.length → TopBinding decls.length) (env : TopEnv decls.length)
    (did : Fin decls.length) : TopEnv decls.length :=
  if isAutoPromoted (decls.get did) then env
  else Function.update env (decls.get did).name.text (some (binding did))

/-- Step a: the names of the component, bound to the types its bodies are inferred with. -/
def bindScc (env : TopEnv decls.length) (scc : List (Fin decls.length)) : TopEnv decls.length :=
  scc.foldl (bindName decls isAutoPromoted .inScc) env

def hasExprBody (did : Fin decls.length) : Bool :=
  match (decls.get did).body with
  | .expr _ => true
  | .ffi => false
  | .primitive => false

/-- Body-less functions are bound at once, the others after them. -/
def writeBackSchemes (env : TopEnv decls.length) (scc : List (Fin decls.length)) :
    TopEnv decls.length :=
  (scc.filter (hasExprBody decls)).foldl (bindName decls isAutoPromoted .generalised)
    ((scc.filter fun did => !hasExprBody decls did).foldl
      (bindName decls isAutoPromoted .generalised) env)

/-- The components in the order they are checked, each with the environment its bodies are
inferred in. -/
def inferences : List (List (Fin decls.length)) → TopEnv decls.length →
    List (List (Fin decls.length) × TopEnv decls.length)
  | [], _ => []
  | scc :: sccs, env =>
    let env := bindScc decls isAutoPromoted env scc
    (scc, env) :: inferences sccs (writeBackSchemes decls isAutoPromoted env scc)

/-- `typecheck_module_decls` on an outermost frame that binds the names `seeded`. -/
def typecheckModuleDecls (adj : Fin decls.length → List (Fin decls.length))
    (seeded : List String) : List (List (Fin decls.length) × TopEnv decls.length) :=
  inferences decls isAutoPromoted (tarjanSccs (buildCallGraph decls adj)) (seededEnv seeded)

/-! ## The environment of a component -/

/-- A top-level function goes by the name `x`. -/
def Named (x : String) (did : Fin decls.length) : Prop :=
  (decls.get did).name.text = x ∧ isAutoPromoted (decls.get did) = false

variable {decls isAutoPromoted} {x : String} {env : TopEnv decls.length}
  {dids scc : List (Fin decls.length)}

/-- Binding the names of some functions binds each name to one of its functions. -/
theorem foldl_bindName (isAutoPromoted : FnDecl → Bool) (x : String) (env : TopEnv decls.length)
    (binding : Fin decls.length → TopBinding decls.length) (dids : List (Fin decls.length)) :
    (∃ did ∈ dids, Named decls isAutoPromoted x did ∧
      dids.foldl (bindName decls isAutoPromoted binding) env x = some (binding did)) ∨
    ((∀ did ∈ dids, ¬ Named decls isAutoPromoted x did) ∧
      dids.foldl (bindName decls isAutoPromoted binding) env x = env x) := by
  induction dids generalizing env with
  | nil => exact .inr ⟨by simp, rfl⟩
  | cons d dids ih =>
    rcases ih (bindName decls isAutoPromoted binding env d) with
      ⟨did, hmem, hnamed, heq⟩ | ⟨hnone, heq⟩
    · exact .inl ⟨did, mem_cons_of_mem _ hmem, hnamed, heq⟩
    · by_cases hd : Named decls isAutoPromoted x d
      · refine .inl ⟨d, mem_cons_self, hd, ?_⟩
        rw [foldl_cons, heq, bindName, hd.2, ← hd.1]
        simp
      · refine .inr ⟨forall_mem_cons.mpr ⟨hd, hnone⟩, ?_⟩
        rw [foldl_cons, heq, bindName]
        split
        · rfl
        · next hpromoted =>
          have hne : x ≠ (decls.get d).name.text := fun h =>
            hd ⟨h.symm, by simpa using hpromoted⟩
          exact Function.update_of_ne hne _ _

/-- Writing back a component replaces the bindings of its names by generalised ones. -/
theorem writeBackSchemes_apply (env : TopEnv decls.length) (scc : List (Fin decls.length))
    (x : String) :
    (∃ did ∈ scc, Named decls isAutoPromoted x did ∧
      writeBackSchemes decls isAutoPromoted env scc x = some (.generalised did)) ∨
    ((∀ did ∈ scc, ¬ Named decls isAutoPromoted x did) ∧
      writeBackSchemes decls isAutoPromoted env scc x = env x) := by
  unfold writeBackSchemes
  rcases foldl_bindName isAutoPromoted x
      ((scc.filter fun did => !hasExprBody decls did).foldl
        (bindName decls isAutoPromoted .generalised) env)
      .generalised (scc.filter (hasExprBody decls)) with ⟨did, hmem, hnamed, heq⟩ | ⟨hnone, heq⟩
  · exact .inl ⟨did, mem_of_mem_filter hmem, hnamed, heq⟩
  rcases foldl_bindName isAutoPromoted x env .generalised
      (scc.filter fun did => !hasExprBody decls did) with
    ⟨did, hmem, hnamed, heq'⟩ | ⟨hnone', heq'⟩
  · exact .inl ⟨did, mem_of_mem_filter hmem, hnamed, heq.trans heq'⟩
  · refine .inr ⟨fun did hmem hnamed => ?_, heq.trans heq'⟩
    cases hbody : hasExprBody decls did with
    | true => exact hnone did (mem_filter.mpr ⟨hmem, hbody⟩) hnamed
    | false => exact hnone' did (mem_filter.mpr ⟨hmem, by simp [hbody]⟩) hnamed

variable (decls isAutoPromoted) in
/-- What the frame knows when the functions `done` have been checked. -/
structure Checked (done : List (Fin decls.length)) (env : TopEnv decls.length) : Prop where
  bound : ∀ {x did}, did ∈ done → Named decls isAutoPromoted x did →
    ∃ did', Named decls isAutoPromoted x did' ∧ env x = some (.generalised did')
  generalised : ∀ {x did}, env x = some (.generalised did) →
    did ∈ done ∧ Named decls isAutoPromoted x did
  notInScc : ∀ {x did}, env x ≠ some (.inScc did)

variable (decls isAutoPromoted) in
/-- A name of a function is bound to a function of the component or to a generalised scheme. -/
def Available (scc : List (Fin decls.length)) (env : TopEnv decls.length) (x : String) : Prop :=
  ∃ did, Named decls isAutoPromoted x did ∧
    (did ∈ scc ∧ env x = some (.inScc did) ∨ env x = some (.generalised did))

/-- While a component is inferred, its own names and those checked before are available, and no
others. -/
theorem available_iff (h : Checked decls isAutoPromoted done env) :
    Available decls isAutoPromoted scc (bindScc decls isAutoPromoted env scc) x ↔
      ∃ did, Named decls isAutoPromoted x did ∧ (did ∈ scc ∨ did ∈ done) := by
  rcases foldl_bindName isAutoPromoted x env .inScc scc with
    ⟨d, hmem, hnamed, heq⟩ | ⟨hnone, heq⟩
  · exact ⟨fun _ => ⟨d, hnamed, .inl hmem⟩, fun _ => ⟨d, hnamed, .inl ⟨hmem, heq⟩⟩⟩
  · constructor
    · rintro ⟨did, hnamed, ⟨hmem, -⟩ | henv⟩
      · exact absurd hnamed (hnone did hmem)
      · rw [bindScc, heq] at henv
        exact ⟨did, hnamed, .inr (h.generalised henv).1⟩
    · rintro ⟨did, hnamed, hmem | hmem⟩
      · exact absurd hnamed (hnone did hmem)
      · obtain ⟨did', hnamed', henv⟩ := h.bound hmem hnamed
        exact ⟨did', hnamed', .inr (heq.trans henv)⟩

theorem Checked.step (h : Checked decls isAutoPromoted done env) (scc : List (Fin decls.length)) :
    Checked decls isAutoPromoted (done ++ scc)
      (writeBackSchemes decls isAutoPromoted (bindScc decls isAutoPromoted env scc) scc) := by
  have hcases : ∀ x,
      (∃ did ∈ scc, Named decls isAutoPromoted x did ∧
        writeBackSchemes decls isAutoPromoted (bindScc decls isAutoPromoted env scc) scc x
          = some (.generalised did)) ∨
      ((∀ did ∈ scc, ¬ Named decls isAutoPromoted x did) ∧
        writeBackSchemes decls isAutoPromoted (bindScc decls isAutoPromoted env scc) scc x
          = env x) := by
    intro x
    refine (writeBackSchemes_apply _ scc x).imp_right fun ⟨hnone, heq⟩ => ⟨hnone, ?_⟩
    rcases foldl_bindName isAutoPromoted x env .inScc scc with
      ⟨did, hmem, hnamed, -⟩ | ⟨-, heq'⟩
    · exact absurd hnamed (hnone did hmem)
    · exact heq.trans heq'
  refine ⟨fun {x did} hmem hnamed => ?_, fun {x did} henv => ?_, fun {x did} henv => ?_⟩
  · rcases hcases x with ⟨did', -, hnamed', heq⟩ | ⟨hnone, heq⟩
    · exact ⟨did', hnamed', heq⟩
    · rw [heq]
      exact h.bound ((mem_append.mp hmem).resolve_right fun hs => hnone did hs hnamed) hnamed
  · rcases hcases x with ⟨did', hmem, hnamed', heq⟩ | ⟨hnone, heq⟩
    · rw [heq, Option.some.injEq, TopBinding.generalised.injEq] at henv
      subst henv
      exact ⟨mem_append_right _ hmem, hnamed'⟩
    · obtain ⟨hmem, hnamed⟩ := h.generalised (heq.symm.trans henv)
      exact ⟨mem_append_left _ hmem, hnamed⟩
  · rcases hcases x with ⟨did', -, -, heq⟩ | ⟨-, heq⟩
    · rw [heq, Option.some.injEq] at henv
      cases henv
    · exact h.notInScc (heq.symm.trans henv)

theorem checked_seeded (decls : List FnDecl) (isAutoPromoted : FnDecl → Bool)
    (seeded : List String) : Checked decls isAutoPromoted [] (seededEnv seeded) := by
  unfold seededEnv
  refine ⟨fun {x did} hmem => absurd hmem not_mem_nil, fun {x did} henv => ?_,
    fun {x did} henv => ?_⟩
  · split at henv <;> cases henv
  · split at henv <;> cases henv

/-- Every component is inferred when exactly the ones before it have been checked. -/
theorem inferences_cases {sccs : List (List (Fin decls.length))}
    (h : Checked decls isAutoPromoted done env) {p : List (Fin decls.length) × TopEnv decls.length}
    (hp : p ∈ inferences decls isAutoPromoted sccs env) :
    ∃ before after env', sccs = before ++ p.1 :: after ∧
      Checked decls isAutoPromoted (done ++ before.flatten) env' ∧
      p.2 = bindScc decls isAutoPromoted env' p.1 := by
  induction sccs generalizing env done with
  | nil => cases hp
  | cons scc sccs ih =>
    rcases mem_cons.mp hp with rfl | hp
    · exact ⟨[], sccs, env, rfl, by simpa using h, rfl⟩
    · obtain ⟨before, after, env', hsplit, hchecked, henv⟩ := ih (h.step scc) hp
      refine ⟨scc :: before, after, env', by rw [hsplit]; rfl, ?_, henv⟩
      rwa [flatten_cons, ← append_assoc]

theorem mem_inferences {sccs before after : List (List (Fin decls.length))}
    (h : Checked decls isAutoPromoted done env) (hsplit : sccs = before ++ scc :: after) :
    ∃ env', Checked decls isAutoPromoted (done ++ before.flatten) env' ∧
      (scc, bindScc decls isAutoPromoted env' scc) ∈
        inferences decls isAutoPromoted sccs env := by
  subst hsplit
  induction before generalizing env done with
  | nil => exact ⟨env, by simpa using h, mem_cons_self⟩
  | cons scc' before ih =>
    obtain ⟨env', hchecked, hmem⟩ := ih (h.step scc')
    refine ⟨env', ?_, mem_cons_of_mem _ hmem⟩
    rwa [flatten_cons, ← append_assoc]

end

/-!
## Dependency order

When the bodies of a component are inferred, a name that occurs free in them and belongs to a
top-level function should be bound to a function of the component or to a generalised scheme. The
order comes from what the collector sees, the names that occur free from what inference looks up;
the two differ below the opaque forms.
-/

open Relation

section

variable (decls : List FnDecl) (isAutoPromoted : FnDecl → Bool) (isMessageFn : Expr → Bool)

/-- Every component is inferred with the functions that its bodies name at hand. -/
def CheckedInDependencyOrder (adj : Fin decls.length → List (Fin decls.length))
    (seeded : List String) : Prop :=
  ∀ p ∈ typecheckModuleDecls decls isAutoPromoted adj seeded,
    ∀ i ∈ p.1, ∀ x ∈ (decls.get i).freeNames isMessageFn,
      (∃ did, Named decls isAutoPromoted x did) → Available decls isAutoPromoted p.1 p.2 x

/-- `j` is named in the body of `i`, below no opaque form. -/
def Calls (i j : Fin decls.length) : Prop :=
  ∃ e x, (decls.get i).body = .expr e ∧ NamedIn x e ∧ nameToId decls x = some j

/-- A chain of such references. -/
def DependsOn (i j : Fin decls.length) : Prop := ReflTransGen (Calls decls) i j

/-- Some function on which `j` is needed is declared before all that need `i`. -/
def NeededBefore (j i : Fin decls.length) : Prop :=
  ∃ s, DependsOn decls s j ∧ ∀ t, DependsOn decls t i → s < t

end

variable {decls : List FnDecl} {isAutoPromoted : FnDecl → Bool} {isMessageFn : Expr → Bool}
  {adj : Fin decls.length → List (Fin decls.length)} {seeded : List String}

variable {i j : Fin decls.length}

theorem mem_called : j ∈ called decls i ↔ Calls decls i j := by
  unfold called Calls
  cases hbody : (decls.get i).body with
  | expr e => simp [mem_collectCalledNames_iff]
  | ffi => simp
  | primitive => simp

/-- However the hash sets are enumerated, the graph has the references the collector sees. -/
theorem reaches_buildCallGraph (h : Enumerates decls adj) :
    (buildCallGraph decls adj).Reaches i j ↔ DependsOn decls i j := by
  have hedge : (buildCallGraph decls adj).Edge = Calls decls := by
    funext i j
    exact propext ((h i).mem_iff.trans mem_called)
  show ReflTransGen (buildCallGraph decls adj).Edge i j ↔ ReflTransGen (Calls decls) i j
  exact hedge ▸ Iff.rfl

theorem startsEarlier_buildCallGraph (h : Enumerates decls adj) :
    (buildCallGraph decls adj).StartsEarlier j i ↔ NeededBefore decls j i :=
  exists_congr fun _ => and_congr (reaches_buildCallGraph h)
    (forall_congr' fun _ => imp_congr (reaches_buildCallGraph h) Iff.rfl)

/-- In every enumeration of the hash sets the components are inferred in dependency order, if and
only if of the functions that go by a name that occurs free in `i`, one is such that `i` depends
on it or that it is needed before. -/
theorem checkedInDependencyOrder_iff (decls : List FnDecl) (isAutoPromoted : FnDecl → Bool)
    (isMessageFn : Expr → Bool) (seeded : List String) :
    (∀ adj, Enumerates decls adj →
      CheckedInDependencyOrder decls isAutoPromoted isMessageFn adj seeded) ↔
    ∀ i, ∀ x ∈ (decls.get i).freeNames isMessageFn, (∃ did, Named decls isAutoPromoted x did) →
      ∃ did, Named decls isAutoPromoted x did ∧
        (DependsOn decls i did ∨ NeededBefore decls did i) := by
  constructor
  · intro h i x hx hex
    -- the enumeration that leads straight to `i`
    set adj := nearerFirst (called decls) i with hadj
    have henum : Enumerates decls adj := nearerFirst_perm (called decls) i
    obtain ⟨scc, hscc, hi⟩ := List.mem_flatten.mp (mem_tarjanSccs (buildCallGraph decls adj) i)
    obtain ⟨before, after, hsplit⟩ := List.append_of_mem hscc
    obtain ⟨env, hchecked, hp⟩ := mem_inferences
      (checked_seeded decls isAutoPromoted seeded) hsplit
    obtain ⟨did, hnamed, hdid⟩ := (available_iff hchecked).mp (h adj henum _ hp i hi x hx hex)
    refine ⟨did, hnamed, ?_⟩
    by_contra hnot
    have hcalled : Enumerates decls (called decls) := fun _ => .refl _
    rw [not_or, ← reaches_buildCallGraph hcalled, ← startsEarlier_buildCallGraph hcalled] at hnot
    have hlater := not_mem_of_precedes hsplit hi
      (precedes_nearerFirst (called decls) hnot.1 hnot.2)
    exact hdid.elim hlater.1 hlater.2
  · intro h adj henum p hp i hi x hx hex
    obtain ⟨before, after, env, hsplit, hchecked, henv⟩ :=
      inferences_cases (checked_seeded decls isAutoPromoted seeded) hp
    obtain ⟨did, hnamed, hdid⟩ := h i x hx hex
    rw [henv, available_iff hchecked]
    rw [← reaches_buildCallGraph henum, ← startsEarlier_buildCallGraph henum] at hdid
    exact ⟨did, hnamed, mem_of_split hsplit hi hdid⟩

/-! ## A reference the collector misses -/

/-- `fn f = $"{g ()}"`, and after it `fn g = "x"`. -/
def interpolatingModule : List FnDecl :=
  [{ caps := [], name := ⟨"f", ⟨3, 4⟩⟩, params := [],
     body := .expr (.interp
       [.expr (.call (.ident ⟨"g", ⟨10, 11⟩⟩) [.unit ⟨12, 14⟩] ⟨10, 14⟩) ⟨9, 15⟩] ⟨7, 16⟩),
     span := ⟨0, 16⟩ },
   { caps := [], name := ⟨"g", ⟨20, 21⟩⟩, params := [],
     body := .expr (.literal (.text "x" ⟨24, 27⟩)),
     span := ⟨17, 27⟩ }]

instance (decls : List FnDecl) (isAutoPromoted : FnDecl → Bool) (x : String) :
    DecidablePred (Named decls isAutoPromoted x) :=
  fun _ => inferInstanceAs (Decidable (_ ∧ _))

/-- `f` is inferred first, with `g` unbound. -/
theorem interpolated_call_unbound :
    ¬ (∀ adj, Enumerates interpolatingModule adj →
      CheckedInDependencyOrder interpolatingModule (fun _ => false) (fun _ => false) adj []) := by
  intro h
  have hchecked := h (called interpolatingModule) fun _ => .refl _
  have hfree : "g" ∈ (interpolatingModule.get ⟨0, by decide⟩).freeNames fun _ => false := by decide
  have hmem : ∃ p ∈ typecheckModuleDecls interpolatingModule (fun _ => false)
      (called interpolatingModule) [], ⟨0, by decide⟩ ∈ p.1 ∧ p.2 "g" = none := by decide
  obtain ⟨p, hp, hi, hnone⟩ := hmem
  obtain ⟨did, -, ⟨-, henv⟩ | henv⟩ := hchecked p hp _ hi "g" hfree ⟨⟨1, by decide⟩, by decide⟩
  · rw [hnone] at henv
    cases henv
  · rw [hnone] at henv
    cases henv

end Ridge
