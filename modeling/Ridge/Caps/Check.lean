import Ridge.Caps.Infer

/-!
# Capability checking

`ridge-typecheck/src/caps_check.rs`. A declaration is checked twice: the inferred set against the
declared one, and, by a second walker, every call, ask and spawn against the effective set. The
errors the source pushes to `ctx.errors` are returned.
-/

namespace Ridge

open List

/-- What kind of declaration a `T014` was raised against. -/
inductive CapDeclKind where
  | const | fn | handler | init | terminate | onDown | innerFn
  deriving DecidableEq

inductive CapError where
  /-- `T014` -/
  | capabilityNotDeclared (decl : String) (kind : CapDeclKind)
      (declared inferred missing : CapabilitySet) (span : Span)
  /-- `T018` -/
  | callerCapabilityInsufficient (caller callee : String) (missing : CapabilitySet) (span : Span)

def capsFromAstSlice (caps : List Capability) : CapabilitySet :=
  caps.foldl (fun cs c => cs.union (.singleton c)) .PURE

section

variable (ctx : CapsCtx)

/-- The recorded type when its row is concrete, else the scheme of the name. -/
def callSiteCaps (callee : Expr) : CapabilitySet :=
  match typedExprCaps ctx callee with
  | some caps => caps
  | none =>
    match schemeOfCallee ctx callee with
    | some scheme => capsFromSchemeFn scheme
    | none => .PURE

def exprName : Expr → String
  | .ident id => id.text
  | .qualified q => q.full
  | _ => "<expr>"

/-- Check 2: what a call site takes is in the effective set of the enclosing declaration. -/
def checkSite (caller callee : String) (caps effective : CapabilitySet) (span : Span) :
    List CapError :=
  if caps.isSubset effective then []
  else [.callerCapabilityInsufficient caller callee (caps.difference effective) span]

/-- Check 4: an inner function declares no more than the enclosing effective set. -/
def checkInnerFn (decl : FnDecl) (effective : CapabilitySet) (span : Span) : List CapError :=
  let innerDeclared := capsFromAstSlice decl.caps
  if innerDeclared.isSubset effective then []
  else [.capabilityNotDeclared decl.name.text .innerFn effective innerDeclared
    (innerDeclared.difference effective) span]

mutual
def checkBody (name : String) (effective : CapabilitySet) : Expr → List CapError
  | .literal _ => []
  | .unit _ => []
  | .ident _ => []
  | .qualified _ => []
  | .fieldAccessorFn _ _ => []
  | .call callee args span =>
    checkSite name (exprName callee) (callSiteCaps ctx callee) effective span ++
      checkBody name effective callee ++ checkBodyAll name effective args
  | .pipe lhs rhs _ => checkBody name effective lhs ++ checkBody name effective rhs
  | .send handle message _ => checkBody name effective handle ++ checkBody name effective message
  | .ask handle _ args _ span =>
    checkSite name "ask" (.singleton .time) effective span ++
      checkBody name effective handle ++ checkBodyAll name effective args
  | .spawn _ args span =>
    checkSite name "spawn" (.singleton .spawn) effective span ++ checkBodyAll name effective args
  | .childSpec _ args _ => checkBodyAll name effective args
  | .innerFn ⟨caps, innerName, params, .expr body, declSpan⟩ span =>
    checkInnerFn ⟨caps, innerName, params, .expr body, declSpan⟩ effective span ++
      checkBody innerName.text
        (if caps.isEmpty then inferCaps ctx body else capsFromAstSlice caps) body
  | .innerFn ⟨caps, innerName, params, .ffi, declSpan⟩ span =>
    checkInnerFn ⟨caps, innerName, params, .ffi, declSpan⟩ effective span
  | .innerFn ⟨caps, innerName, params, .primitive, declSpan⟩ span =>
    checkInnerFn ⟨caps, innerName, params, .primitive, declSpan⟩ effective span
  | .lambda params body span =>
    checkBody name
      ((typedExprCaps ctx (.lambda params body span)).getD (inferCaps ctx body)) body
  | .block ⟨stmts, _⟩ => checkBodyAll name effective stmts
  | .try ⟨stmts, _⟩ _ => checkBodyAll name effective stmts
  | .guard cond ⟨stmts, _⟩ _ =>
    checkBody name effective cond ++ checkBodyAll name effective stmts
  | .ite cond thenBranch none _ =>
    checkBody name effective cond ++ checkBody name effective thenBranch
  | .ite cond thenBranch (some elseBranch) _ =>
    checkBody name effective cond ++ checkBody name effective thenBranch ++
      checkBody name effective elseBranch
  | .is subject _ _ => checkBody name effective subject
  | .match scrutinee arms _ =>
    checkBody name effective scrutinee ++ checkBodyArms name effective arms
  | .let _ value _ => checkBody name effective value
  | .var _ value _ => checkBody name effective value
  | .ret value _ => checkBody name effective value
  | .assign target value _ => checkBody name effective target ++ checkBody name effective value
  | .propagate inner _ => checkBody name effective inner
  | .paren inner _ => checkBody name effective inner
  | .binary _ lhs rhs _ => checkBody name effective lhs ++ checkBody name effective rhs
  | .unary _ expr _ => checkBody name effective expr
  | .tuple elems _ => checkBodyAll name effective elems
  | .list elems _ => checkBodyAll name effective elems
  | .record _ fields _ => checkBodyFields name effective fields
  | .recordLit fields _ => checkBodyFields name effective fields
  | .with base fields _ => checkBody name effective base ++ checkBodyFields name effective fields
  | .fieldAccess base _ _ => checkBody name effective base
  | .interp parts _ => checkBodyParts name effective parts

def checkBodyAll (name : String) (effective : CapabilitySet) : List Expr → List CapError
  | [] => []
  | e :: es => checkBody name effective e ++ checkBodyAll name effective es

def checkBodyArms (name : String) (effective : CapabilitySet) :
    List (MatchArmOf Expr) → List CapError
  | [] => []
  | ⟨_, none, body, _⟩ :: arms =>
    checkBody name effective body ++ checkBodyArms name effective arms
  | ⟨_, some guard, body, _⟩ :: arms =>
    checkBody name effective guard ++ checkBody name effective body ++
      checkBodyArms name effective arms

def checkBodyFields (name : String) (effective : CapabilitySet) :
    List (FieldInitOf Expr) → List CapError
  | [] => []
  | ⟨_, none, _⟩ :: fields => checkBodyFields name effective fields
  | ⟨_, some value, _⟩ :: fields =>
    checkBody name effective value ++ checkBodyFields name effective fields

def checkBodyParts (name : String) (effective : CapabilitySet) :
    List (InterpPartOf Expr) → List CapError
  | [] => []
  | .text _ _ :: parts => checkBodyParts name effective parts
  | .expr e _ :: parts => checkBody name effective e ++ checkBodyParts name effective parts
end

variable (declName : String)

/-- Check 3: the inferred set is in the declared one. -/
def checkDeclared (kind : CapDeclKind) (declared : Option CapabilitySet)
    (inferred : CapabilitySet) (declSpan : Span) : List CapError :=
  match declared with
  | some declaredSet =>
    if inferred.isSubset declaredSet then []
    else [.capabilityNotDeclared declName kind declaredSet inferred
      (inferred.difference declaredSet) declSpan]
  -- a file-private declaration: the inferred set is canonical
  | none => []

/-- The effective set, and the errors. -/
def checkCapsDeclKind (declared : Option CapabilitySet) (body : Expr)
    (declSpan : Span) (kind : CapDeclKind) : CapabilitySet × List CapError :=
  let inferred := inferCaps ctx body
  let effective := declared.getD inferred
  (effective,
    checkDeclared declName kind declared inferred declSpan ++ checkBody ctx declName effective body)

def checkCapsDecl (declared : Option CapabilitySet) (body : Expr)
    (declSpan : Span) : CapabilitySet × List CapError :=
  checkCapsDeclKind ctx declName declared body declSpan .fn

/-- `check_caps_block`, for the bodies that are blocks. -/
def checkCapsBlock (kind : CapDeclKind) (declared : Option CapabilitySet)
    (block : Block) (declSpan : Span) : CapabilitySet × List CapError :=
  let inferred := inferCapsBlock ctx block
  let effective := declared.getD inferred
  (effective, checkDeclared declName kind declared inferred declSpan ++
    checkBodyAll ctx declName effective block.stmts)

end

/-! ## A run without errors -/

section

variable {ctx : CapsCtx} {name : String} {effective : CapabilitySet}

variable {span : Span}

theorem checkSite_eq_nil {callee : String} {caps : CapabilitySet} :
    checkSite name callee caps effective span = [] ↔
      ∀ c, caps.contains c = true → effective.contains c = true := by
  unfold checkSite
  rw [← CapabilitySet.isSubset_iff]
  split
  · next h => simp [h]
  · next h => simp [h]

theorem checkBodyAll_eq_nil {es : List Expr} :
    checkBodyAll ctx name effective es = [] ↔ ∀ x ∈ es, checkBody ctx name effective x = [] := by
  induction es with
  | nil => simp [checkBodyAll]
  | cons e es ih => simp [checkBodyAll, ih]

theorem checkBodyArms_eq_nil {arms : List (MatchArmOf Expr)} :
    checkBodyArms ctx name effective arms = [] ↔
      ∀ x ∈ arms.flatMap MatchArmOf.exprs, checkBody ctx name effective x = [] := by
  induction arms with
  | nil => simp [checkBodyArms]
  | cons arm arms ih =>
    obtain ⟨pattern, guard, body, span⟩ := arm
    cases guard with
    | none | some guard =>
      rw [checkBodyArms, append_eq_nil_iff, ih, flatMap_cons, forall_mem_append]
      simp [MatchArmOf.exprs]

theorem checkBodyFields_eq_nil {fields : List (FieldInitOf Expr)} :
    checkBodyFields ctx name effective fields = [] ↔
      ∀ x ∈ fields.flatMap FieldInitOf.exprs, checkBody ctx name effective x = [] := by
  induction fields with
  | nil => simp [checkBodyFields]
  | cons field fields ih =>
    obtain ⟨fieldName, value, span⟩ := field
    cases value with
    | none =>
      rw [checkBodyFields, ih, flatMap_cons, forall_mem_append]
      simp [FieldInitOf.exprs]
    | some value =>
      rw [checkBodyFields, append_eq_nil_iff, ih, flatMap_cons, forall_mem_append]
      simp [FieldInitOf.exprs]

theorem checkBodyParts_eq_nil {parts : List (InterpPartOf Expr)} :
    checkBodyParts ctx name effective parts = [] ↔
      ∀ x ∈ parts.flatMap InterpPartOf.exprs, checkBody ctx name effective x = [] := by
  induction parts with
  | nil => simp [checkBodyParts]
  | cons part parts ih =>
    cases part with
    | text raw span =>
      rw [checkBodyParts, ih, flatMap_cons, forall_mem_append]
      simp [InterpPartOf.exprs]
    | expr e span =>
      rw [checkBodyParts, append_eq_nil_iff, ih, flatMap_cons, forall_mem_append]
      simp [InterpPartOf.exprs]

/-- The subexpressions checked against the same effective set: all but the bodies of lambdas and
inner functions, and the timeout of an ask. -/
def Expr.checkedChildren : Expr → List Expr
  | .lambda _ _ _ => []
  | .innerFn _ _ => []
  | .ask handle _ args _ _ => handle :: args
  | e => e.children

/-- Where the walker reports nothing, it reports nothing further down. -/
theorem checkBody_children {e : Expr} (h : checkBody ctx name effective e = []) :
    ∀ x ∈ e.checkedChildren, checkBody ctx name effective x = [] := by
  cases e
  case ite cond thenBranch elseBranch span =>
    cases elseBranch <;>
      simpa [checkBody, Expr.checkedChildren, Expr.children, and_assoc] using h
  case lambda | innerFn => simp [Expr.checkedChildren]
  case literal | unit | ident | qualified | fieldAccessorFn =>
    simp [Expr.checkedChildren, Expr.children]
  case call callee args span =>
    simp only [checkBody, append_eq_nil_iff, checkBodyAll_eq_nil] at h
    simpa [Expr.checkedChildren, Expr.children] using And.intro h.1.2 h.2
  case ask handle message args timeout span =>
    simp only [checkBody, append_eq_nil_iff, checkBodyAll_eq_nil] at h
    simpa [Expr.checkedChildren] using And.intro h.1.2 h.2
  case spawn actor args span =>
    simp only [checkBody, append_eq_nil_iff, checkBodyAll_eq_nil] at h
    simpa [Expr.checkedChildren, Expr.children] using h.2
  all_goals
    simpa [checkBody, Expr.checkedChildren, Expr.children, checkBodyAll_eq_nil,
      checkBodyArms_eq_nil, checkBodyFields_eq_nil, checkBodyParts_eq_nil] using h

variable {args : List Expr}

theorem checkBody_call {callee : Expr}
    (h : checkBody ctx name effective (.call callee args span) = []) {c : Capability}
    (hc : (callSiteCaps ctx callee).contains c = true) : effective.contains c = true := by
  simp only [checkBody, append_eq_nil_iff] at h
  exact checkSite_eq_nil.mp h.1.1 c hc

theorem checkDeclared_eq_nil {kind : CapDeclKind} {declared inferred : CapabilitySet}
    {declSpan : Span} :
    checkDeclared name kind (some declared) inferred declSpan = [] ↔
      ∀ c, inferred.contains c = true → declared.contains c = true := by
  rw [← CapabilitySet.isSubset_iff]
  unfold checkDeclared
  dsimp only
  split
  · next h => simp [h]
  · next h => simp [h]

end

end Ridge
