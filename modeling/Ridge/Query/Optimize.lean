import Ridge.Query.Truth

/-!
# Constants folded out of a predicate

`optimize` (`stdlib/query.ridge`) folds the predicates of a plan before an SQL backend renders it.
The store in memory reads them as they were captured.
-/

namespace Ridge

open Kleene

def isFalse : QExpr → Bool
  | .qLitBool b => !b
  | _ => false

def isAlwaysTrue : QExpr → Bool
  | .qLitBool b => b
  | _ => false

def andOf (l r : QExpr) : QExpr :=
  if isFalse l then .qLitBool false
  else if isFalse r then .qLitBool false
  else if isAlwaysTrue l then r
  else if isAlwaysTrue r then l
  else .qAnd l r

def orOf (l r : QExpr) : QExpr :=
  if isAlwaysTrue l then .qLitBool true
  else if isAlwaysTrue r then .qLitBool true
  else if isFalse l then r
  else if isFalse r then l
  else .qOr l r

def notOf : QExpr → QExpr
  | .qLitBool b => .qLitBool !b
  | .qNot y => y
  | x => .qNot x

def simplifyPred : QExpr → QExpr
  | .qAnd l r => andOf (simplifyPred l) (simplifyPred r)
  | .qOr l r => orOf (simplifyPred l) (simplifyPred r)
  | .qNot x => notOf (simplifyPred x)
  | e => e

section

variable {e l r : QExpr}

@[grind =] theorem isFalse_iff : isFalse e ↔ e = .qLitBool false := by
  cases e <;> simp [isFalse]

@[grind =] theorem isAlwaysTrue_iff : isAlwaysTrue e ↔ e = .qLitBool true := by
  cases e <;> simp [isAlwaysTrue]

/-- No constant stands below a connective, and no negation below a negation. -/
def Folded : QExpr → Prop
  | .qAnd a b | .qOr a b => (∀ c, a ≠ .qLitBool c) ∧ (∀ c, b ≠ .qLitBool c) ∧ Folded a ∧ Folded b
  | .qNot a => (∀ c, a ≠ .qLitBool c) ∧ (∀ b, a ≠ .qNot b) ∧ Folded a
  | _ => True

theorem ne_lit (hf : ¬ isFalse e) (ht : ¬ isAlwaysTrue e) (c : Bool) : e ≠ .qLitBool c := by
  cases c <;> grind

theorem folded_simplifyPred (e : QExpr) : Folded (simplifyPred e) := by
  fun_induction simplifyPred e with
  | case1 l r ihl ihr =>
    fun_cases andOf (simplifyPred l) (simplifyPred r) <;> grind [Folded, ne_lit]
  | case2 l r ihl ihr =>
    fun_cases orOf (simplifyPred l) (simplifyPred r) <;> grind [Folded, ne_lit]
  | case3 x ih =>
    generalize simplifyPred x = e at ih ⊢
    cases e <;> grind [Folded, notOf]
  | case4 e =>
    cases e <;> grind [Folded]

end

/-! ## What it means -/

section

variable {D : Doubles} {tables : Tables} {n : Nat} {s : Scope} {l r : QExpr}

theorem sqlPred_lit (b : Bool) : sqlPred D tables n s (.qLitBool b) = some b := by
  unfold sqlPred
  cases b <;> rfl

theorem and_some_true (v : Truth) : and v (some true) = v := by rcases v with _ | (_ | _) <;> rfl

theorem or_some_false (v : Truth) : or v (some false) = v := by rcases v with _ | (_ | _) <;> rfl

theorem sqlPred_andOf :
    sqlPred D tables n s (andOf l r) = and (sqlPred D tables n s l) (sqlPred D tables n s r) := by
  fun_cases andOf l r with
  | case5 => conv_lhs => unfold sqlPred
  | _ => grind [sqlPred_lit, Kleene.and, and_some_true]

theorem sqlPred_orOf :
    sqlPred D tables n s (orOf l r) = or (sqlPred D tables n s l) (sqlPred D tables n s r) := by
  fun_cases orOf l r with
  | case5 => conv_lhs => unfold sqlPred
  | _ => grind [sqlPred_lit, Kleene.or, or_some_false]

theorem sqlPred_notOf : sqlPred D tables n s (notOf l) = not (sqlPred D tables n s l) := by
  cases l with
  | qLitBool b => rw [notOf, sqlPred_lit, sqlPred_lit, Kleene.not]
  | qNot y =>
    conv_rhs => unfold sqlPred
    rw [notOf]
    rcases sqlPred D tables n s y with _ | (_ | _) <;> rfl
  | _ => conv_lhs => unfold notOf sqlPred

theorem sqlPred_simplifyPred (e : QExpr) :
    sqlPred D tables n s (simplifyPred e) = sqlPred D tables n s e := by
  fun_induction simplifyPred e with
  | case1 l r ihl ihr =>
    rw [sqlPred_andOf, ihl, ihr]
    conv_rhs => unfold sqlPred
  | case2 l r ihl ihr =>
    rw [sqlPred_orOf, ihl, ihr]
    conv_rhs => unfold sqlPred
  | case3 x ih =>
    rw [sqlPred_notOf, ih]
    conv_rhs => unfold sqlPred
  | case4 => rfl

end

/-! ## The store -/

section

variable {D : Doubles} {tables : Tables} {f : QExpr → Eval Bool} {e l r : QExpr} {v : Bool}

/-- An interpreter that takes the connectives as `mem_pred` does: it looks at a second operand only
where the first leaves the answer open. -/
structure Connectives (f : QExpr → Eval Bool) : Prop where
  lit (b : Bool) : f (.qLitBool b) = .ok b
  and (a b : QExpr) : f (.qAnd a b) = do if ← f a then f b else pure false
  or (a b : QExpr) : f (.qOr a b) = do if ← f a then pure true else f b
  not (a : QExpr) : f (.qNot a) = do pure !(← f a)

namespace Connectives

variable (hf : Connectives f)

include hf

theorem and_ok : f (.qAnd l r) = .ok v ↔
    f l = .ok false ∧ v = false ∨ f l = .ok true ∧ f r = .ok v := by
  rw [hf.and]
  rcases f l with _ | (_ | _) <;> simp [pure, Except.pure, bind, Except.bind, eq_comm]

theorem or_ok : f (.qOr l r) = .ok v ↔
    f l = .ok true ∧ v = true ∨ f l = .ok false ∧ f r = .ok v := by
  rw [hf.or]
  rcases f l with _ | (_ | _) <;> simp [pure, Except.pure, bind, Except.bind, eq_comm]

theorem not_ok : f (.qNot l) = .ok v ↔ f l = .ok !v := by
  rw [hf.not]
  rcases f l with _ | (_ | _) <;> cases v <;> simp [pure, Except.pure, bind, Except.bind]

/-- Where the tree has an answer the folded tree has the same. -/
theorem simplified (h : f e = .ok v) : f (simplifyPred e) = .ok v := by
  fun_induction simplifyPred e generalizing v with
  | case1 l r ihl ihr =>
    have h := hf.and_ok.mp h
    fun_cases andOf (simplifyPred l) (simplifyPred r) <;> grind [hf.lit, hf.and_ok]
  | case2 l r ihl ihr =>
    have h := hf.or_ok.mp h
    fun_cases orOf (simplifyPred l) (simplifyPred r) <;> grind [hf.lit, hf.or_ok]
  | case3 x ih =>
    have h := ih (hf.not_ok.mp h)
    generalize simplifyPred x = e at h
    cases e <;> grind [notOf, hf.lit, hf.not_ok]
  | case4 => exact h

end Connectives

theorem connectives_predWith (c : Cells) : Connectives (predWith D c) where
  lit _ := by unfold predWith; rfl
  and _ _ := by conv_lhs => unfold predWith
  or _ _ := by conv_lhs => unfold predWith
  not _ := by conv_lhs => unfold predWith

theorem connectives_memPredStore (row : SqlRow) : Connectives (memPredStore D tables row) where
  lit _ := by unfold memPredStore memPred predWith; rfl
  and _ _ := by conv_lhs => unfold memPredStore
  or _ _ := by conv_lhs => unfold memPredStore
  not _ := by conv_lhs => unfold memPredStore

theorem connectives_memCorr (n : Nat) (row : SqlRow) :
    Connectives fun e => memCorr D tables n e row where
  lit _ := by unfold memCorr memNpred predWith; rfl
  and _ _ := by conv_lhs => unfold memCorr
  or _ _ := by conv_lhs => unfold memCorr
  not _ := by conv_lhs => unfold memCorr

/-- The interpreters of the store, each at the rows it reads. -/
inductive ReadsPred (D : Doubles) (tables : Tables) : (QExpr → Eval Bool) → Prop where
  | row (row : SqlRow) : ReadsPred D tables (memPred D row)
  | store (row : SqlRow) : ReadsPred D tables (memPredStore D tables row)
  | pair (l r : SqlRow) : ReadsPred D tables (memJpred D l r)
  | flat (row : SqlRow) : ReadsPred D tables (memNpred D row)
  | probe (n : Nat) (row : SqlRow) : ReadsPred D tables fun e => memCorr D tables n e row

theorem ReadsPred.connectives (h : ReadsPred D tables f) : Connectives f := by
  cases h with
  | row row => exact connectives_predWith (bareCells row)
  | store row => exact connectives_memPredStore row
  | pair l r => exact connectives_predWith (pairCells l r)
  | flat row => exact connectives_predWith (flatCells row)
  | probe n row => exact connectives_memCorr n row

/-- Folding its constants leaves a predicate without one below a connective, with the truth it has
in SQL whatever the rows in scope hold, NULL or not, and with the answer of each interpreter of the
store that has one for it; what raised may no longer be looked at. -/
theorem folding_keeps_answers (D : Doubles) (tables : Tables) (e : QExpr) :
    Folded (simplifyPred e) ∧
      (∀ n s, sqlPred D tables n s (simplifyPred e) = sqlPred D tables n s e) ∧
      ∀ f, ReadsPred D tables f → ∀ v, f e = .ok v → f (simplifyPred e) = .ok v :=
  ⟨folded_simplifyPred e, fun _ _ => sqlPred_simplifyPred e,
    fun _ hf _ => hf.connectives.simplified⟩

end

end Ridge
