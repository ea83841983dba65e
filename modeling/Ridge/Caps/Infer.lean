import Ridge.Syntax.Ast
import Ridge.Types.Ty

/-!
# Capability inference

`ridge-typecheck/src/caps_infer.rs`: the walker that computes which capabilities evaluating an
expression takes. It runs after type inference and reads the types recorded there.

`InferSees` says what it collects, without the rows: the contributions of the calls, asks, spawns
and pipes that stand outside the forms it does not enter (`entersForCaps`).
-/

namespace Ridge

/-- The kinds of nodes that types are recorded at. -/
inductive NodeKind where
  | expr | block | try
  deriving DecidableEq

/-- What a scheme in the environment is read for. -/
structure CalleeScheme where
  capVars : List CapVid
  ty : Ty

/-- What the capability passes read. -/
structure CapsCtx where
  /-- `node_id_map` and `node_types_accum`: the type recorded at a node, deep-resolved. -/
  nodeType : Span → NodeKind → Option Ty
  env : String → Option CalleeScheme
  /-- `resolve_hof_caps`: a fresh instance of the scheme, its callback rows unified with those of
  the arguments. Only a callee without a recorded type comes to this. -/
  resolveHofCaps : CalleeScheme → List Expr → CapabilitySet

def concreteCaps : CapRow → CapabilitySet
  | .concrete set => set
  | .union rows => concreteCapsAll .PURE rows
  | .var _ => .PURE
where
  concreteCapsAll : CapabilitySet → List CapRow → CapabilitySet
    | acc, [] => acc
    | acc, row :: rows => concreteCapsAll (acc.union (concreteCaps row)) rows

section

variable (ctx : CapsCtx)

/-! ## Recorded types -/

def typedExprType (e : Expr) : Option Ty :=
  ctx.nodeType e.span <| match e with
    | .block _ => .block
    | .try _ _ => .try
    | _ => .expr

def typedExprRow (e : Expr) : Option CapRow :=
  match typedExprType ctx e with
  | some (.fn _ _ caps) => some caps
  | _ => none

def typedExprCaps (e : Expr) : Option CapabilitySet :=
  match typedExprRow ctx e with
  | some (.concrete caps) => some caps
  | _ => none

/-! ## Callees without a recorded function type -/

def QualifiedName.full (q : QualifiedName) : String :=
  ".".intercalate (q.segments.map Ident.text)

def schemeOfCallee : Expr → Option CalleeScheme
  | .ident id => ctx.env id.text
  | .qualified q => ctx.env q.full
  | _ => none

def capsFromSchemeFn (scheme : CalleeScheme) : CapabilitySet :=
  match scheme.ty with
  | .fn _ _ (.concrete set) => set
  | _ => .PURE

def capsOfExpr (e : Expr) : CapabilitySet :=
  match typedExprCaps ctx e with
  | some caps => caps
  | none =>
    match schemeOfCallee ctx e with
    | some scheme => capsFromSchemeFn scheme
    | none => .PURE

def capsOfCallee (callee : Expr) (args : List Expr) : CapabilitySet :=
  match typedExprCaps ctx callee with
  | some caps => caps
  | none =>
    match schemeOfCallee ctx callee with
    | none => capsOfExpr ctx callee
    | some scheme =>
      if scheme.capVars.isEmpty then capsFromSchemeFn scheme
      else ctx.resolveHofCaps scheme args

def calleeCapRow (callee : Expr) (args : List Expr) : CapRow :=
  match typedExprType ctx callee with
  | some (.fn params _ caps) =>
    -- a partial call constructs a closure; its body is still latent
    if args.length < params.length then .concrete .PURE else caps
  | _ => .concrete (capsOfCallee ctx callee args)

/-! ## The walker -/

mutual
def inferCapRow : Expr → CapRow
  | .literal _ => .concrete .PURE
  | .unit _ => .concrete .PURE
  | .ident _ => .concrete .PURE
  | .qualified _ => .concrete .PURE
  | .send _ _ _ => .concrete .PURE
  | .lambda _ _ _ => .concrete .PURE
  | .fieldAccessorFn _ _ => .concrete .PURE
  | .innerFn _ _ => .concrete .PURE
  | .call callee args _ =>
    ((calleeCapRow ctx callee args).unionWith (inferCapRowAll (.concrete .PURE) args)).unionWith
      (inferCapRow callee)
  | .pipe lhs rhs _ =>
    ((inferCapRow lhs).unionWith (inferCapRow rhs)).unionWith
      ((typedExprRow ctx rhs).getD (.concrete .PURE))
  | .ask _ _ _ _ _ => .concrete (.singleton .time)
  | .spawn _ _ _ => .concrete (.singleton .spawn)
  | .try ⟨stmts, _⟩ _ => inferCapRowAll (.concrete .PURE) stmts
  | .block ⟨stmts, _⟩ => inferCapRowAll (.concrete .PURE) stmts
  | .guard cond ⟨stmts, _⟩ _ =>
    (inferCapRow cond).unionWith (inferCapRowAll (.concrete .PURE) stmts)
  | .ite cond thenBranch none _ => (inferCapRow cond).unionWith (inferCapRow thenBranch)
  | .ite cond thenBranch (some elseBranch) _ =>
    ((inferCapRow cond).unionWith (inferCapRow thenBranch)).unionWith (inferCapRow elseBranch)
  | .is subject _ _ => inferCapRow subject
  | .match scrutinee arms _ => inferCapRowArms (inferCapRow scrutinee) arms
  | .let _ value _ => inferCapRow value
  | .var _ value _ => inferCapRow value
  | .ret value _ => inferCapRow value
  | .assign target value _ => (inferCapRow target).unionWith (inferCapRow value)
  | .propagate inner _ => inferCapRow inner
  | .paren inner _ => inferCapRow inner
  | .binary _ lhs rhs _ => (inferCapRow lhs).unionWith (inferCapRow rhs)
  | .unary _ expr _ => inferCapRow expr
  | .tuple elems _ => inferCapRowAll (.concrete .PURE) elems
  | .list elems _ => inferCapRowAll (.concrete .PURE) elems
  | .childSpec _ args _ => inferCapRowAll (.concrete .PURE) args
  | .record _ fields _ => inferCapRowFields (.concrete .PURE) fields
  | .recordLit fields _ => inferCapRowFields (.concrete .PURE) fields
  | .with base fields _ => inferCapRowFields (inferCapRow base) fields
  | .fieldAccess base _ _ => inferCapRow base
  | .interp parts _ => inferCapRowParts (.concrete .PURE) parts

def inferCapRowAll (acc : CapRow) : List Expr → CapRow
  | [] => acc
  | e :: es => inferCapRowAll (acc.unionWith (inferCapRow e)) es

def inferCapRowArms (acc : CapRow) : List (MatchArmOf Expr) → CapRow
  | [] => acc
  | ⟨_, none, body, _⟩ :: arms => inferCapRowArms (acc.unionWith (inferCapRow body)) arms
  | ⟨_, some guard, body, _⟩ :: arms =>
    inferCapRowArms ((acc.unionWith (inferCapRow guard)).unionWith (inferCapRow body)) arms

def inferCapRowFields (acc : CapRow) : List (FieldInitOf Expr) → CapRow
  | [] => acc
  | ⟨_, none, _⟩ :: fields => inferCapRowFields acc fields
  | ⟨_, some value, _⟩ :: fields =>
    inferCapRowFields (acc.unionWith (inferCapRow value)) fields

def inferCapRowParts (acc : CapRow) : List (InterpPartOf Expr) → CapRow
  | [] => acc
  | .text _ _ :: parts => inferCapRowParts acc parts
  | .expr e _ :: parts => inferCapRowParts (acc.unionWith (inferCapRow e)) parts
end

/-- `infer_caps`. The rows come out of deep-resolved types, so there is nothing left to resolve in
them. -/
def inferCaps (e : Expr) : CapabilitySet := concreteCaps (inferCapRow ctx e)

def inferCapsBlock (block : Block) : CapabilitySet :=
  concreteCaps (inferCapRowAll ctx (.concrete .PURE) block.stmts)

end

/-! ## The concrete part of a row -/

namespace CapRow

theorem partsAll_fst (rows : List CapRow) (acc : CapabilitySet)
    (h : ∀ r ∈ rows, concreteCaps r = (parts r).1) :
    concreteCaps.concreteCapsAll acc rows = acc.union (partsAll rows).1 := by
  induction rows generalizing acc with
  | nil => simp [concreteCaps.concreteCapsAll, partsAll, ← CapabilitySet.PURE_eq_bot]
  | cons r rows ih =>
    rw [concreteCaps.concreteCapsAll, ih _ fun r' hr' => h r' (List.mem_cons_of_mem _ hr'),
      h r List.mem_cons_self, partsAll, Prod.fst_sup, ← CapabilitySet.union_eq_sup,
      CapabilitySet.union_assoc]

theorem concreteCaps_eq (row : CapRow) : concreteCaps row = (parts row).1 := by
  induction row using CapRow.inductionOn with
  | concrete s => rfl
  | var v => rfl
  | union rows ih =>
    rw [concreteCaps, partsAll_fst rows _ ih, parts, CapabilitySet.PURE_union]

/-- A row requires the capability `c`. -/
def Requires (row : CapRow) (c : Capability) : Prop := (concreteCaps row).contains c = true

@[simp] theorem requires_unionWith (a b : CapRow) (c : Capability) :
    (a.unionWith b).Requires c ↔ a.Requires c ∨ b.Requires c := by
  simp only [Requires, concreteCaps_eq, parts_unionWith, Prod.fst_sup,
    ← CapabilitySet.union_eq_sup, CapabilitySet.contains_union, Bool.or_eq_true]

@[simp] theorem requires_concrete (s : CapabilitySet) (c : Capability) :
    (CapRow.concrete s).Requires c ↔ s.contains c = true := Iff.rfl

end CapRow

/-! ## What the walker sees -/

/-- The forms whose subexpressions the walker looks at. -/
def Expr.entersForCaps : Expr → Bool
  | .send _ _ _ | .lambda _ _ _ | .innerFn _ _ | .ask _ _ _ _ _ | .spawn _ _ _ => false
  | _ => true

/-- The walker comes across a contribution of `c`. -/
inductive InferSees (ctx : CapsCtx) : Expr → Capability → Prop where
  | callee {callee args span c} (h : (calleeCapRow ctx callee args).Requires c) :
    InferSees ctx (.call callee args span) c
  | piped {lhs rhs span row c} (hrow : typedExprRow ctx rhs = some row) (h : row.Requires c) :
    InferSees ctx (.pipe lhs rhs span) c
  | ask {handle message args timeout span} :
    InferSees ctx (.ask handle message args timeout span) .time
  | spawn {actor args span} : InferSees ctx (.spawn actor args span) .spawn
  | child {e x c} (henters : e.entersForCaps = true) (hx : x ∈ e.children)
    (h : InferSees ctx x c) : InferSees ctx e c

section

variable {ctx : CapsCtx} {c : Capability}

variable (acc : CapRow)

theorem requires_inferCapRowAll (es : List Expr) :
    (inferCapRowAll ctx acc es).Requires c ↔
      acc.Requires c ∨ ∃ x ∈ es, (inferCapRow ctx x).Requires c := by
  induction es generalizing acc with
  | nil => simp [inferCapRowAll]
  | cons e es ih =>
    rw [inferCapRowAll, ih]
    simp [or_assoc]

theorem requires_inferCapRowArms (arms : List (MatchArmOf Expr)) :
    (inferCapRowArms ctx acc arms).Requires c ↔
      acc.Requires c ∨ ∃ x ∈ arms.flatMap MatchArmOf.exprs, (inferCapRow ctx x).Requires c := by
  induction arms generalizing acc with
  | nil => simp [inferCapRowArms]
  | cons arm arms ih =>
    obtain ⟨pattern, guard, body, span⟩ := arm
    cases guard with
    | none | some guard =>
      rw [inferCapRowArms, ih]
      simp [MatchArmOf.exprs, or_assoc]

theorem requires_inferCapRowFields (fields : List (FieldInitOf Expr)) :
    (inferCapRowFields ctx acc fields).Requires c ↔
      acc.Requires c ∨
        ∃ x ∈ fields.flatMap FieldInitOf.exprs, (inferCapRow ctx x).Requires c := by
  induction fields generalizing acc with
  | nil => simp [inferCapRowFields]
  | cons field fields ih =>
    obtain ⟨name, value, span⟩ := field
    cases value with
    | none =>
      rw [inferCapRowFields, ih]
      simp [FieldInitOf.exprs]
    | some value =>
      rw [inferCapRowFields, ih]
      simp [FieldInitOf.exprs, or_assoc]

theorem requires_inferCapRowParts (parts : List (InterpPartOf Expr)) :
    (inferCapRowParts ctx acc parts).Requires c ↔
      acc.Requires c ∨
        ∃ x ∈ parts.flatMap InterpPartOf.exprs, (inferCapRow ctx x).Requires c := by
  induction parts generalizing acc with
  | nil => simp [inferCapRowParts]
  | cons part parts ih =>
    cases part with
    | text raw span =>
      rw [inferCapRowParts, ih]
      simp [InterpPartOf.exprs]
    | expr e span =>
      rw [inferCapRowParts, ih]
      simp [InterpPartOf.exprs, or_assoc]

/-- What an expression contributes itself. -/
def ownRequires (ctx : CapsCtx) (e : Expr) (c : Capability) : Prop :=
  match e with
  | .call callee args _ => (calleeCapRow ctx callee args).Requires c
  | .pipe _ rhs _ => ((typedExprRow ctx rhs).getD (.concrete .PURE)).Requires c
  | .ask _ _ _ _ _ => c = .time
  | .spawn _ _ _ => c = .spawn
  | _ => False

/-- One turn of the walker. -/
theorem requires_inferCapRow (e : Expr) :
    (inferCapRow ctx e).Requires c ↔
      ownRequires ctx e c ∨
        (e.entersForCaps = true ∧ ∃ x ∈ e.children, (inferCapRow ctx x).Requires c) := by
  cases e
  case call callee args span =>
    simp only [inferCapRow, ownRequires, Expr.entersForCaps, Expr.children,
      CapRow.requires_unionWith, requires_inferCapRowAll, List.exists_mem_cons_iff]
    simp
    exact or_assoc.trans (or_congr_right or_comm)
  case pipe lhs rhs span =>
    simp only [inferCapRow, ownRequires, Expr.entersForCaps, Expr.children,
      CapRow.requires_unionWith, List.exists_mem_cons_iff]
    simp
    tauto
  case ite cond thenBranch elseBranch span =>
    cases elseBranch <;>
      simp [inferCapRow, ownRequires, Expr.entersForCaps, Expr.children, or_assoc]
  all_goals
    simp [inferCapRow, ownRequires, Expr.entersForCaps, Expr.children, requires_inferCapRowAll,
      requires_inferCapRowArms, requires_inferCapRowFields, requires_inferCapRowParts, eq_comm]

theorem inferSees_of_own {e : Expr} (h : ownRequires ctx e c) : InferSees ctx e c := by
  cases e <;> try exact h.elim
  case call callee args span => exact .callee h
  case pipe lhs rhs span =>
    cases hrow : typedExprRow ctx rhs with
    | none => simp [ownRequires, hrow] at h
    | some row => exact .piped hrow (by simpa [ownRequires, hrow] using h)
  case ask => exact h ▸ .ask
  case spawn => exact h ▸ .spawn

/-- The walker returns what it sees. -/
theorem contains_inferCaps (e : Expr) :
    (inferCaps ctx e).contains c = true ↔ InferSees ctx e c := by
  show (inferCapRow ctx e).Requires c ↔ InferSees ctx e c
  constructor
  · induction e using Expr.inductionOn with
    | _ e ih =>
      rw [requires_inferCapRow]
      rintro (hown | ⟨henters, x, hx, hc⟩)
      · exact inferSees_of_own hown
      · exact .child henters hx (ih x hx hc)
  · intro h
    induction h with
    | callee h => exact (requires_inferCapRow _).mpr (.inl h)
    | piped hrow h =>
      exact (requires_inferCapRow _).mpr (.inl (by simpa [ownRequires, hrow] using h))
    | ask | spawn => exact (requires_inferCapRow _).mpr (.inl rfl)
    | child henters hx _ ih => exact (requires_inferCapRow _).mpr (.inr ⟨henters, _, hx, ih⟩)

end

end Ridge
