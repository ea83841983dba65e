import Ridge.Mem.Compare
import Ridge.Mem.Rows

/-!
# ridge_rt — trees that raise nothing

Walking a tree raises at two places: float arithmetic whose result is out of range, and an `EXISTS`
met where the store is not at hand, which is below an operand of a one-table predicate. `QuietPred`
is that neither is reached; with it an interpreter answers, and only with it.
-/

namespace Ridge

section

variable {D : Doubles}

theorem answers_memArithApply {op : ArithOp} {a b : Option SqlValue} :
    Answers (memArithApply D op a b) ↔ Fits D op a b := by
  refine ⟨fun h => ?_, fun h => ⟨_, memArithApply_eq h⟩⟩
  unfold Fits
  split
  · next x y =>
      exact answers_map.mp h
  · trivial

end

section

variable (D : Doubles) (c : Cells)

mutual

/-- No arithmetic out of range and no `EXISTS` without the store is reached in an operand. -/
def QuietScalar : QExpr → Prop
  | .qAdd a b =>
    QuietScalar a ∧ QuietScalar b ∧
      ∀ x y, scalarWith D c a = .ok x → scalarWith D c b = .ok y → Fits D .add x y
  | .qSub a b =>
    QuietScalar a ∧ QuietScalar b ∧
      ∀ x y, scalarWith D c a = .ok x → scalarWith D c b = .ok y → Fits D .sub x y
  | .qMul a b =>
    QuietScalar a ∧ QuietScalar b ∧
      ∀ x y, scalarWith D c a = .ok x → scalarWith D c b = .ok y → Fits D .mul x y
  | .qDiv a b =>
    QuietScalar a ∧ QuietScalar b ∧
      ∀ x y, scalarWith D c a = .ok x → scalarWith D c b = .ok y → Fits D .div x y
  | .qMod a b =>
    QuietScalar a ∧ QuietScalar b ∧
      ∀ x y, scalarWith D c a = .ok x → scalarWith D c b = .ok y → Fits D .mod x y
  | .qCase cond t e =>
    QuietPred cond ∧ (predWith D c cond = .ok true → QuietScalar t) ∧
      (predWith D c cond = .ok false → QuietScalar e)
  | _ => True

/-- The same of a predicate, as far as it is evaluated. -/
def QuietPred : QExpr → Prop
  | .qAnd a b => QuietPred a ∧ (predWith D c a = .ok true → QuietPred b)
  | .qOr a b => QuietPred a ∧ (predWith D c a = .ok false → QuietPred b)
  | .qNot x | .qNotTrue x => QuietPred x
  | .qEq a b | .qNe a b | .qLt a b | .qGt a b | .qLe a b | .qGe a b | .qLike a b =>
    QuietScalar a ∧ QuietScalar b
  | .qIn v items => QuietScalar v ∧ QuietScalars items
  | .qCase cond t e =>
    QuietPred cond ∧ (predWith D c cond = .ok true → QuietPred t) ∧
      (predWith D c cond = .ok false → QuietPred e)
  | .qExists _ _ => Answers c.exists'
  | _ => True

def QuietScalars : List QExpr → Prop
  | [] => True
  | e :: es => QuietScalar e ∧ QuietScalars es

end

end

section

variable {D : Doubles} {c : Cells}

mutual

theorem answers_scalarWith {e : QExpr} :
    Answers (scalarWith D c e) ↔ QuietScalar D c e := by
  cases e with
  | qAdd a b | qSub a b | qMul a b | qDiv a b | qMod a b =>
    unfold scalarWith QuietScalar
    rw [answers_bind₂, answers_scalarWith, answers_scalarWith]
    simp only [answers_memArithApply]
  | qCase cond t e =>
    unfold scalarWith QuietScalar
    rw [answers_bind_ite, answers_predWith, answers_scalarWith, answers_scalarWith]
  | _ => exact iff_of_true (answers_ok _) trivial

theorem answers_predWith {e : QExpr} :
    Answers (predWith D c e) ↔ QuietPred D c e := by
  cases e with
  | qAnd a b =>
    unfold predWith QuietPred
    rw [answers_bind_ite, answers_predWith, answers_predWith]
    exact and_congr_right fun _ => and_iff_left fun _ => answers_pure false
  | qOr a b =>
    unfold predWith QuietPred
    rw [answers_bind_ite, answers_predWith, answers_predWith]
    exact and_congr_right fun _ => and_iff_right fun _ => answers_pure true
  | qNot x | qNotTrue x =>
    unfold predWith QuietPred
    rw [answers_bind_pure, answers_predWith]
  | qEq a b | qNe a b | qLt a b | qGe a b | qLike v p =>
    unfold predWith QuietPred
    rw [answers_bind₂_pure, answers_scalarWith, answers_scalarWith]
  | qGt a b | qLe a b =>
    -- The operands are evaluated the other way round.
    unfold predWith QuietPred
    rw [answers_bind₂_pure, answers_scalarWith, answers_scalarWith, and_comm]
  | qIn v items =>
    unfold predWith QuietPred
    rw [answers_bind₂_pure, answers_scalarWith, answers_scalarsWith]
  | qCase cond t e =>
    unfold predWith QuietPred
    rw [answers_bind_ite, answers_predWith, answers_predWith, answers_predWith]
  | qExists _ _ => exact Iff.rfl
  | _ => exact iff_of_true (answers_ok _) trivial

theorem answers_scalarsWith : ∀ {es : List QExpr},
    Answers (scalarsWith D c es) ↔ QuietScalars D c es
  | [] => iff_of_true (answers_pure []) trivial
  | e :: es => by
    unfold scalarsWith QuietScalars
    rw [answers_bind₂_pure, answers_scalarWith, answers_scalarsWith]

end

end

/-! ## With the store -/

section

variable (D : Doubles) (tables : Tables)

/-- What `mem_corr` reaches of a tree raises nothing. -/
def QuietCorr (nextLeaf : Nat) : QExpr → SqlRow → Prop
  | .qAnd a b, row =>
    QuietCorr nextLeaf a row ∧
      (memCorr D tables nextLeaf a row = .ok true → QuietCorr nextLeaf b row)
  | .qOr a b, row =>
    QuietCorr nextLeaf a row ∧
      (memCorr D tables nextLeaf a row = .ok false → QuietCorr nextLeaf b row)
  | .qNot x, row | .qNotTrue x, row => QuietCorr nextLeaf x row
  | .qCase cond t e, row =>
    QuietCorr nextLeaf cond row ∧
      (memCorr D tables nextLeaf cond row = .ok true → QuietCorr nextLeaf t row) ∧
      (memCorr D tables nextLeaf cond row = .ok false → QuietCorr nextLeaf e row)
  | .qExists table corr, row =>
    UpToFirst
      (fun inner => QuietCorr (nextLeaf + 1) corr
        (mergeRow row (memPrefixKeys (memLeafPrefix nextLeaf) inner)))
      (fun inner => isTrue (memCorr D tables (nextLeaf + 1) corr
        (mergeRow row (memPrefixKeys (memLeafPrefix nextLeaf) inner))))
      (rowsOf table tables)
  | e, row => QuietPred D (flatCells row) e

/-- What `mem_pred` of a store reaches of a tree raises nothing. -/
def QuietStore (row : SqlRow) : QExpr → Prop
  | .qAnd a b => QuietStore row a ∧ (memPredStore D tables row a = .ok true → QuietStore row b)
  | .qOr a b => QuietStore row a ∧ (memPredStore D tables row a = .ok false → QuietStore row b)
  | .qNot x | .qNotTrue x => QuietStore row x
  | .qCase cond t e =>
    QuietStore row cond ∧ (memPredStore D tables row cond = .ok true → QuietStore row t) ∧
      (memPredStore D tables row cond = .ok false → QuietStore row e)
  | .qExists table corr =>
    QuietCorr D tables 1 (.qExists table corr) (memPrefixKeys (memLeafPrefix 0) row)
  | e => QuietPred D (bareCells row) e

def QuietWhere2Pair (where2 : QExpr) (l r : SqlRow) : Prop :=
  if memHasExists where2 then
    QuietCorr D tables 2 where2
      (mergeRow (memPrefixKeys (memLeafPrefix 0) l) (memPrefixKeys (memLeafPrefix 1) r))
  else QuietPred D (pairCells l r) where2

def QuietWhere2Flat (nextLeaf : Nat) (where2 : QExpr) (row : SqlRow) : Prop :=
  if memHasExists where2 then QuietCorr D tables nextLeaf where2 row
  else QuietPred D (flatCells row) where2

end

section

variable {D : Doubles} {tables : Tables}

theorem answers_memCorr {e : QExpr} {n : Nat} {row : SqlRow} :
    Answers (memCorr D tables n e row) ↔ QuietCorr D tables n e row := by
  cases e with
  | qAnd a b =>
    unfold memCorr QuietCorr
    rw [answers_bind_ite, answers_memCorr, answers_memCorr]
    exact and_congr_right fun _ => and_iff_left fun _ => answers_pure false
  | qOr a b =>
    unfold memCorr QuietCorr
    rw [answers_bind_ite, answers_memCorr, answers_memCorr]
    exact and_congr_right fun _ => and_iff_right fun _ => answers_pure true
  | qNot x | qNotTrue x =>
    unfold memCorr QuietCorr
    rw [answers_bind_pure, answers_memCorr]
  | qCase cond t e =>
    unfold memCorr QuietCorr
    rw [answers_bind_ite, answers_memCorr, answers_memCorr, answers_memCorr]
  | qExists table corr =>
    unfold memCorr QuietCorr
    rw [answers_anyEval]
    simp only [answers_memCorr]
  | _ => exact answers_predWith

theorem answers_memPredStore {row : SqlRow} {e : QExpr} :
    Answers (memPredStore D tables row e) ↔ QuietStore D tables row e := by
  cases e with
  | qAnd a b =>
    unfold memPredStore QuietStore
    rw [answers_bind_ite, answers_memPredStore, answers_memPredStore]
    exact and_congr_right fun _ => and_iff_left fun _ => answers_pure false
  | qOr a b =>
    unfold memPredStore QuietStore
    rw [answers_bind_ite, answers_memPredStore, answers_memPredStore]
    exact and_congr_right fun _ => and_iff_right fun _ => answers_pure true
  | qNot x | qNotTrue x =>
    unfold memPredStore QuietStore
    rw [answers_bind_pure, answers_memPredStore]
  | qCase cond t e =>
    unfold memPredStore QuietStore
    rw [answers_bind_ite, answers_memPredStore, answers_memPredStore, answers_memPredStore]
  | qExists table corr => exact answers_memCorr
  | _ => exact answers_predWith

theorem answers_memWhere2Pair {where2 : QExpr} {l r : SqlRow} :
    Answers (memWhere2Pair D tables where2 l r) ↔ QuietWhere2Pair D tables where2 l r := by
  unfold memWhere2Pair QuietWhere2Pair
  split
  · exact answers_memCorr
  · exact answers_predWith

theorem answers_memWhere2Flat {n : Nat} {where2 : QExpr} {row : SqlRow} :
    Answers (memWhere2Flat D tables n where2 row) ↔ QuietWhere2Flat D tables n where2 row := by
  unfold memWhere2Flat QuietWhere2Flat
  split
  · exact answers_memCorr
  · exact answers_predWith

end

end Ridge
