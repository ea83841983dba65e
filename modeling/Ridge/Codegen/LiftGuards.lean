import Ridge.CoreErlang.Frame

/-!
# Lifting guards out of a match

`lift_guarded_match` of `expr.rs`, and the end of `lower_body_in_scope` for a match: an arm whose
guard makes a call that a clause guard may not make tries its guard in the body of its clause,
and goes on with the arms after it through a function without parameters.
-/

namespace Ridge

open List

structure LoweredArm where
  pattern : CErlPat
  guard : CErlExpr
  body : CErlExpr

namespace LoweredArm

def guardIsSafe (arm : LoweredArm) : Bool := !arm.guard.containsNonBifCall

/-- A kept guard stays in its clause. -/
def keptClause (arm : LoweredArm) : CErlClause := .mk arm.pattern arm.guard arm.body

end LoweredArm

def ssaVar (base : String) (idx : Nat) : String :=
  if idx = 0 then base else base ++ toString idx

/-- The variable the scrutinee of a lifted match is bound to. -/
def scrutVar (idx : Nat) : String := ssaVar "V_MatchScrut" idx

/-- The variable of the arms after a lifted arm. -/
def restVar (depth : Nat) : String := "V_LiftedRest" ++ toString depth

def invokeRest (depth : Nat) : CErlExpr := .apply (.var (restVar depth)) []

/-- What follows the last arm, when its guard is lifted. -/
def noArmLeft : CErlExpr := .call "erlang" "error" [.lit (.atom "case_clause")]

def LoweredArm.liftedClause (depth : Nat) (arm : LoweredArm) : CErlClause :=
  .mk arm.pattern litTrue
    (.case arm.guard
      [.mk (.lit (.atom "true")) litTrue arm.body, .mk .wild litTrue (invokeRest depth)])

/-- `lift_guarded_match_at_depth`. `clauses` are those of the arms already passed. -/
def liftGuardedMatchAtDepth (scrut : String) (depth : Nat) (clauses : List CErlClause) :
    List LoweredArm → CErlExpr
  | [] => .case (.var scrut) clauses
  | arm :: arms =>
    if arm.guardIsSafe then
      liftGuardedMatchAtDepth scrut depth (clauses ++ [arm.keptClause]) arms
    else
      let rest :=
        match arms with
        | [] => noArmLeft
        | _ :: _ => liftGuardedMatchAtDepth scrut (depth + 1) [] arms
      .letIn (restVar depth) (.funOf [] rest)
        (.case (.var scrut)
          (clauses ++ [arm.liftedClause depth, .mk .wild litTrue (invokeRest depth)]))

def liftGuardedMatch (scrut : String) (arms : List LoweredArm) : CErlExpr :=
  liftGuardedMatchAtDepth scrut 0 [] arms

/-- `IrExpr::Match`, once its parts are lowered. `idx` numbers the scrutinee's variable. -/
def lowerMatch (idx : Nat) (scrutinee : CErlExpr) (arms : List LoweredArm) : CErlExpr :=
  if arms.all LoweredArm.guardIsSafe then .case scrutinee (arms.map LoweredArm.keptClause)
  else .letIn (scrutVar idx) scrutinee (liftGuardedMatch (scrutVar idx) arms)

/-! ## The clauses of one level -/

def levelClauses (depth : Nat) : List LoweredArm → List CErlClause
  | [] => []
  | arm :: arms =>
    if arm.guardIsSafe then arm.keptClause :: levelClauses depth arms
    else [arm.liftedClause depth, .mk .wild litTrue (invokeRest depth)]

/-- The arms after the first lifted arm, if there is one. -/
def afterLifted : List LoweredArm → Option (List LoweredArm)
  | [] => none
  | arm :: arms => if arm.guardIsSafe then afterLifted arms else some arms

def restExpr (scrut : String) (depth : Nat) : List LoweredArm → CErlExpr
  | [] => noArmLeft
  | arm :: arms => liftGuardedMatchAtDepth scrut (depth + 1) [] (arm :: arms)

section Level

variable {scrut : String} {depth : Nat} {clauses : List CErlClause} {arm : LoweredArm}
  {arms : List LoweredArm}

attribute [grind =] liftGuardedMatchAtDepth levelClauses afterLifted

theorem lift_of_safe (h : arm.guardIsSafe = true) :
    liftGuardedMatchAtDepth scrut depth clauses (arm :: arms) =
      liftGuardedMatchAtDepth scrut depth (clauses ++ [arm.keptClause]) arms := by
  simp only [liftGuardedMatchAtDepth, if_pos h]

theorem lift_of_lifted (h : ¬ arm.guardIsSafe = true) :
    liftGuardedMatchAtDepth scrut depth clauses (arm :: arms) =
      .letIn (restVar depth) (.funOf [] (restExpr scrut depth arms))
        (.case (.var scrut)
          (clauses ++ [arm.liftedClause depth, .mk .wild litTrue (invokeRest depth)])) := by
  simp only [liftGuardedMatchAtDepth, if_neg h]
  cases arms <;> rfl

/-- The code of a list of arms is one level of clauses, over the function of the later arms. -/
theorem liftGuardedMatchAtDepth_eq (scrut : String) (depth : Nat) (clauses : List CErlClause)
    (arms : List LoweredArm) : liftGuardedMatchAtDepth scrut depth clauses arms =
      match afterLifted arms with
      | none => .case (.var scrut) (clauses ++ levelClauses depth arms)
      | some rest => .letIn (restVar depth) (.funOf [] (restExpr scrut depth rest))
          (.case (.var scrut) (clauses ++ levelClauses depth arms)) := by
  induction arms generalizing clauses with
  | nil => simp only [liftGuardedMatchAtDepth, afterLifted, levelClauses, append_nil]
  | cons arm arms ih =>
    by_cases h : arm.guardIsSafe = true
    · rw [lift_of_safe h, ih]
      simp only [afterLifted, levelClauses, if_pos h, append_assoc, singleton_append]
    · rw [lift_of_lifted h]
      simp only [afterLifted, levelClauses, if_neg h]

end Level

theorem length_afterLifted {arms rest : List LoweredArm} (h : afterLifted arms = some rest) :
    rest.length < arms.length := by
  induction arms with
  | nil => cases h
  | cons arm arms ih =>
    rw [afterLifted] at h
    split at h
    · exact Nat.lt_succ_of_lt (ih h)
    · cases h
      exact Nat.lt_succ_self _

theorem afterLifted_subset {arms rest : List LoweredArm} (h : afterLifted arms = some rest) :
    rest ⊆ arms := by
  induction arms with
  | nil => cases h
  | cons arm arms ih =>
    rw [afterLifted] at h
    split at h
    · exact fun x hx => mem_cons_of_mem _ (ih h hx)
    · cases h
      exact subset_cons_self _ _

/-- Where every guard is kept, no arm is lifted. -/
theorem afterLifted_eq_none {arms : List LoweredArm} (h : arms.all LoweredArm.guardIsSafe = true) :
    afterLifted arms = none ∧ ∀ depth, levelClauses depth arms = arms.map LoweredArm.keptClause := by
  induction arms with
  | nil => exact ⟨rfl, fun _ => rfl⟩
  | cons arm arms ih =>
    simp only [all_cons, Bool.and_eq_true] at h
    refine ⟨?_, fun depth => ?_⟩
    · rw [afterLifted, if_pos h.1]
      exact (ih h.2).1
    · rw [levelClauses, if_pos h.1, (ih h.2).2 depth, map_cons]

/-! ## The variables of the arms -/

def LoweredArm.reads (arm : LoweredArm) : List String :=
  (arm.guard.freeVars ++ arm.body.freeVars).filter (· ∉ arm.pattern.vars)

/-- Whether `x` names one of the variables that the lifting makes up. -/
def GeneratedVar (scrut x : String) : Prop := x = scrut ∨ ∃ depth, x = restVar depth

/-- No variable of the arms is called like one that the lifting makes up. -/
def ArmsFresh (scrut : String) (arms : List LoweredArm) : Prop :=
  ∀ arm ∈ arms, ∀ x ∈ arm.pattern.vars ++ (arm.guard.freeVars ++ arm.body.freeVars) ++
    arm.guard.exports, ¬ GeneratedVar scrut x

theorem ArmsFresh.mono {scrut : String} {arms arms' : List LoweredArm}
    (h : ArmsFresh scrut arms) (hsub : arms' ⊆ arms) : ArmsFresh scrut arms' :=
  fun arm harm => h arm (hsub harm)

theorem scrutVar_ne_restVar (idx depth : Nat) : scrutVar idx ≠ restVar depth := by
  intro h
  have h2 := congrArg (fun s => s.toList[2]?) h
  simp only [scrutVar, ssaVar, restVar] at h2
  split at h2
  · simp [String.toList_append] at h2
  · simp [String.toList_append] at h2

/-!
## What a match means

The ordered reading of a match: the arms are tried from the first, and an arm is taken if its
pattern matches and its guard evaluates to true. A reading of its own says what a guard that
raises does, at every place alike.
-/

open Early

/-- What a guard that raises does: its arm is passed over, or it leaves the match. -/
inductive GuardRaise where
  | skips
  | propagates

/-- The value of a guard. -/
def guardEnd (d : GuardRaise) : Except CErlStop CErlVal → Except CErlStop Bool
  | .ok v => .ok v.isTrue
  | .error (.raised cls reason) =>
    match d with
    | .skips => .ok false
    | .propagates => .error (.raised cls reason)
  | .error .timeout => .error .timeout

section Reading

variable {W : Type} (d : GuardRaise) (ev : CErlExpr → CErlRun W CErlVal)

/-- Tries one arm whose pattern has matched. -/
def tryArm (arm : LoweredArm) : CErlRun W (Option CErlVal) :=
  bind (ending (guardEnd d) (ev arm.guard)) fun taken =>
    if taken then bind (ev arm.body) fun v => pure (some v) else pure none

/-- The value of the arm that is taken, if one is. -/
def orderedArms (v : CErlVal) : List LoweredArm → CErlRun W (Option CErlVal)
  | [] => pure none
  | arm :: arms =>
    match arm.pattern.match v with
    | none => orderedArms v arms
    | some bs =>
      bind (CErlRun.inScope bs (tryArm d ev arm)) fun
        | some v => pure (some v)
        | none => orderedArms v arms

/-- The scrutinee is evaluated, once, and then the arms are tried. -/
def orderedMatch (scrutinee : CErlExpr) (arms : List LoweredArm) : CErlRun W (Option CErlVal) :=
  bind (ev scrutinee) fun v => orderedArms d ev v arms

end Reading

/-! ## Comparing ends -/

/-- A reason that says no clause matched, with or without the value. -/
inductive IsCaseClause : CErlVal → Prop where
  | bare : IsCaseClause (.atom "case_clause")
  | withValue (v : CErlVal) : IsCaseClause (.tuple [.atom "case_clause", v])

/-- The end of the code that stands for an end of the reading. -/
inductive Renders : Except CErlStop (Option CErlVal) → Except CErlStop CErlVal → Prop where
  | value (v : CErlVal) : Renders (.ok (some v)) (.ok v)
  | noArm (reason : CErlVal) (h : IsCaseClause reason) :
      Renders (.ok none) (.error (.raised "error" reason))
  | left (e : CErlStop) : Renders (.error e) (.error e)

section Meaning

variable {W : Type} (M : CErlMachine W)

/-- The ordered reading of a match ends with `r` in `s'`. -/
def Means (d : GuardRaise) (scrutinee : CErlExpr) (arms : List LoweredArm) (s : CErlState W)
    (r : Except CErlStop (Option CErlVal)) (s' : CErlState W) : Prop :=
  Yields .timeout (fun n => orderedMatch d (eval M n) scrutinee arms) s r s'

/-- The code emitted for a match does, from the state `s`, what the match means: it ends when the
reading does, alike and in the same state, and every guard kept in a clause is one Erlang accepts
there. -/
structure MatchFaithful (d : GuardRaise) (idx : Nat) (scrutinee : CErlExpr)
    (arms : List LoweredArm) (s : CErlState W) : Prop where
  guards : ∀ arm ∈ arms, arm.guardIsSafe = true → arm.guard.isGuardExpr = true
  sound : ∀ r s', Evaluates M (lowerMatch idx scrutinee arms) s r s' →
    ∃ r₀, Means M d scrutinee arms s r₀ s' ∧ Renders r₀ r
  complete : ∀ r₀ s', Means M d scrutinee arms s r₀ s' →
    ∃ r, Evaluates M (lowerMatch idx scrutinee arms) s r s' ∧ Renders r₀ r

/-- The arms end in the exception `e` and do nothing else. -/
def OnlyRaises (v : CErlVal) (arms : List LoweredArm) (s : CErlState W) (e : CErlStop) : Prop :=
  ∃ r₀, Yields .timeout (fun n => orderedArms .skips (eval M n) v arms) s r₀ s ∧
    Renders r₀ (.error e)

/-- Of the guards tried before an arm is taken, none that is lifted out of its clause raises; or
else the arms after it only raise the same. -/
def LiftedGuardsEnd (v : CErlVal) : List LoweredArm → CErlState W → Prop
  | [], _ => True
  | arm :: arms, s =>
    match arm.pattern.match v with
    | none => LiftedGuardsEnd v arms s
    | some bs => ∀ r s₁, Evaluates M arm.guard { s with vars := bindVars bs s.vars } r s₁ →
        match r with
        | .ok g => g.isTrue = false → LiftedGuardsEnd v arms { s with world := s₁.world }
        | .error e =>
          if arm.guardIsSafe then LiftedGuardsEnd v arms { s with world := s₁.world }
          else OnlyRaises M v arms { s with world := s₁.world } e

end Meaning

end Ridge
