import Ridge.Ir.Expr

/-!
# Early returns of a function body

The walker that decides whether a function body needs a catch frame, and the rewrite that
strips the returns of a body that needs none (`return_.rs`).
-/

namespace Ridge

open Bool

mutual

/-- A `return` outside tail position. Lambdas and function scopes
own their returns, so the walk stops there. -/
def hasNonTailReturnInner : IrExpr → Bool → Bool
  | .ret value, inTail => !inTail || hasNonTailReturnInner value false
  | .resultScope body, _ => hasNonTailReturnInner body false
  | .resultExit value, _ => hasNonTailReturnInner value false
  | .assign _ value, _ => hasNonTailReturnInner value false
  | .block stmts, inTail => blockNonTailReturn stmts inTail
  | .match scrutinee arms, inTail =>
    hasNonTailReturnInner scrutinee false || armsNonTailReturn arms inTail
  | .letIn _ value body, inTail =>
    hasNonTailReturnInner value false || hasNonTailReturnInner body inTail
  | .varIn _ value body, inTail =>
    hasNonTailReturnInner value false || hasNonTailReturnInner body inTail
  | .call callee args, _ => hasNonTailReturnInner callee false || anyNonTailReturn args
  | .construct _ fields, _ => fieldsNonTailReturn fields
  | .field base _, _ => hasNonTailReturnInner base false
  | .tuple elems, _ => anyNonTailReturn elems
  | .listLit elems, _ => anyNonTailReturn elems
  | .cons head tail, _ => hasNonTailReturnInner head false || hasNonTailReturnInner tail false
  | .ask handle _ args timeout, _ =>
    hasNonTailReturnInner handle false || anyNonTailReturn args || timeoutNonTailReturn timeout
  | .tryAsk handle _ args timeout, _ =>
    hasNonTailReturnInner handle false || anyNonTailReturn args || timeoutNonTailReturn timeout
  | .send handle _ args, _ => hasNonTailReturnInner handle false || anyNonTailReturn args
  | .actorSend handle _ args, _ => hasNonTailReturnInner handle false || anyNonTailReturn args
  | .spawn _ args, _ => anyNonTailReturn args
  | .childSpec _ args, _ => anyNonTailReturn args
  -- The source's `_ => false`: a record update falls in here with the leaves.
  | .lit _, _ => false
  | .local _, _ => false
  | .symbol _, _ => false
  | .lambda _ _, _ => false
  | .functionScope _, _ => false
  | .recordUpdate _ _, _ => false

/-- The operands of a strict form. -/
def anyNonTailReturn : List IrExpr → Bool
  | [] => false
  | e :: es => hasNonTailReturnInner e false || anyNonTailReturn es

def fieldsNonTailReturn : List (String × IrExpr) → Bool
  | [] => false
  | (_, e) :: fs => hasNonTailReturnInner e false || fieldsNonTailReturn fs

/-- The statements of a block: the last one is in tail position iff the block is. -/
def blockNonTailReturn : List IrExpr → Bool → Bool
  | [], _ => false
  | [e], inTail => hasNonTailReturnInner e inTail
  | e :: es, inTail => hasNonTailReturnInner e false || blockNonTailReturn es inTail

def armsNonTailReturn : List IrArm → Bool → Bool
  | [], _ => false
  | arm :: arms, inTail => armNonTailReturn arm inTail || armsNonTailReturn arms inTail

def armNonTailReturn : IrArm → Bool → Bool
  | .mk _ none body, inTail => hasNonTailReturnInner body inTail
  | .mk _ (some guard) body, inTail =>
    hasNonTailReturnInner guard false || hasNonTailReturnInner body inTail

def timeoutNonTailReturn : IrTimeout → Bool
  | .none => false
  | .never => false
  | .millis e => hasNonTailReturnInner e false

end

def hasNonTailReturn (body : IrExpr) : Bool := hasNonTailReturnInner body true

mutual

/-- A `return` in tail position becomes its value. -/
def elideTailInner : IrExpr → Bool → IrExpr
  | .ret value, true => elideTailInner value true
  | .block stmts, inTail => .block (elideBlock stmts inTail)
  | .match scrutinee arms, inTail =>
    .match (elideTailInner scrutinee false) (elideArms arms inTail)
  | .letIn pat value body, inTail =>
    .letIn pat (elideTailInner value false) (elideTailInner body inTail)
  | .varIn name value body, inTail =>
    .varIn name (elideTailInner value false) (elideTailInner body inTail)
  | e, _ => e

def elideBlock : List IrExpr → Bool → List IrExpr
  | [], _ => []
  | [e], inTail => [elideTailInner e inTail]
  | e :: es, inTail => elideTailInner e false :: elideBlock es inTail

def elideArms : List IrArm → Bool → List IrArm
  | [], _ => []
  | .mk pat guard body :: arms, inTail =>
    .mk pat guard (elideTailInner body inTail) :: elideArms arms inTail

end

def elideTailReturns (body : IrExpr) : IrExpr := elideTailInner body true

/-! ## Tail position -/

/-- The forms with a tail position in them. -/
def IrExpr.hasTail : IrExpr → Bool
  | .ret _ => true
  | .block _ => true
  | .match _ _ => true
  | .letIn _ _ _ => true
  | .varIn _ _ _ => true
  | _ => false

variable {e : IrExpr}

theorem elideTailInner_of_not (h : e.hasTail = false) (t : Bool) : elideTailInner e t = e := by
  cases e
  case ret => simp [IrExpr.hasTail] at h
  case block => simp [IrExpr.hasTail] at h
  case «match» => simp [IrExpr.hasTail] at h
  case letIn => simp [IrExpr.hasTail] at h
  case varIn => simp [IrExpr.hasTail] at h
  all_goals rfl

/-- Nor does the walker ask where such a form stands. -/
theorem hasNonTailReturnInner_of_not (h : e.hasTail = false) (t : Bool) :
    hasNonTailReturnInner e t = hasNonTailReturnInner e false := by
  cases e
  case ret => simp [IrExpr.hasTail] at h
  case block => simp [IrExpr.hasTail] at h
  case «match» => simp [IrExpr.hasTail] at h
  case letIn => simp [IrExpr.hasTail] at h
  case varIn => simp [IrExpr.hasTail] at h
  all_goals rfl

mutual

/-- What is fine outside tail position is fine in it. -/
theorem hasNonTailReturnInner_true : ∀ e : IrExpr, hasNonTailReturnInner e false = false →
    hasNonTailReturnInner e true = false
  | .ret value, h => by simp [hasNonTailReturnInner] at h
  | .block stmts, h => by
    simp only [hasNonTailReturnInner] at h ⊢
    exact blockNonTailReturn_true stmts h
  | .match scrutinee arms, h => by
    simp only [hasNonTailReturnInner, or_eq_false_iff] at h ⊢
    exact ⟨h.1, armsNonTailReturn_true arms h.2⟩
  | .letIn pat value body, h | .varIn name value body, h => by
    simp only [hasNonTailReturnInner, or_eq_false_iff] at h ⊢
    exact ⟨h.1, hasNonTailReturnInner_true body h.2⟩
  -- No other form asks where it stands.
  | .lit _, h => h
  | .local _, h => h
  | .symbol _, h => h
  | .call _ _, h => h
  | .lambda _ _, h => h
  | .construct _ _, h => h
  | .recordUpdate _ _, h => h
  | .field _ _, h => h
  | .listLit _, h => h
  | .tuple _, h => h
  | .cons _ _, h => h
  | .assign _ _, h => h
  | .functionScope _, h => h
  | .resultScope _, h => h
  | .resultExit _, h => h
  | .send _ _ _, h => h
  | .ask _ _ _ _, h => h
  | .spawn _ _, h => h
  | .childSpec _ _, h => h
  | .tryAsk _ _ _ _, h => h
  | .actorSend _ _ _, h => h

theorem blockNonTailReturn_true : ∀ es : List IrExpr, blockNonTailReturn es false = false →
    blockNonTailReturn es true = false
  | [], h => h
  | [e], h => by
    simp only [blockNonTailReturn] at h ⊢
    exact hasNonTailReturnInner_true e h
  | e :: e' :: es, h => by
    simp only [blockNonTailReturn, or_eq_false_iff] at h ⊢
    exact ⟨h.1, blockNonTailReturn_true (e' :: es) h.2⟩

theorem armsNonTailReturn_true : ∀ arms : List IrArm, armsNonTailReturn arms false = false →
    armsNonTailReturn arms true = false
  | [], h => h
  | .mk pat none body :: arms, h => by
    simp only [armsNonTailReturn, armNonTailReturn, or_eq_false_iff] at h ⊢
    exact ⟨hasNonTailReturnInner_true body h.1, armsNonTailReturn_true arms h.2⟩
  | .mk pat (some guard) body :: arms, h => by
    simp only [armsNonTailReturn, armNonTailReturn, or_eq_false_iff] at h ⊢
    exact ⟨⟨h.1.1, hasNonTailReturnInner_true body h.1.2⟩, armsNonTailReturn_true arms h.2⟩

end

theorem elideBlock_ne_nil (e : IrExpr) (es : List IrExpr) (t : Bool) :
    elideBlock (e :: es) t ≠ [] := by
  cases es with
  | nil | cons e' es => simp [elideBlock]

mutual

/-- Outside tail position nothing is stripped. -/
theorem elideTailInner_false : ∀ e : IrExpr, elideTailInner e false = e
  | .block stmts => by rw [elideTailInner, elideBlock_false stmts]
  | .match scrutinee arms => by
    rw [elideTailInner, elideTailInner_false scrutinee, elideArms_false arms]
  | .letIn pat value body | .varIn name value body => by
    rw [elideTailInner, elideTailInner_false value, elideTailInner_false body]
  | .ret _ => rfl
  | .lit _ => rfl
  | .local _ => rfl
  | .symbol _ => rfl
  | .call _ _ => rfl
  | .lambda _ _ => rfl
  | .construct _ _ => rfl
  | .recordUpdate _ _ => rfl
  | .field _ _ => rfl
  | .listLit _ => rfl
  | .tuple _ => rfl
  | .cons _ _ => rfl
  | .assign _ _ => rfl
  | .functionScope _ => rfl
  | .resultScope _ => rfl
  | .resultExit _ => rfl
  | .send _ _ _ => rfl
  | .ask _ _ _ _ => rfl
  | .spawn _ _ => rfl
  | .childSpec _ _ => rfl
  | .tryAsk _ _ _ _ => rfl
  | .actorSend _ _ _ => rfl

theorem elideBlock_false : ∀ es : List IrExpr, elideBlock es false = es
  | [] => rfl
  | [e] => by rw [elideBlock, elideTailInner_false e]
  | e :: e' :: es => by
    rw [elideBlock, elideTailInner_false e, elideBlock_false (e' :: es)]
    simp

theorem elideArms_false : ∀ arms : List IrArm, elideArms arms false = arms
  | [] => rfl
  | .mk pat guard body :: arms => by
    rw [elideArms, elideTailInner_false body, elideArms_false arms]

end

end Ridge
