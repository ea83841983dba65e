import Ridge.Mem.Grouping
import Ridge.Mem.QuietFold

/-!
# ridge_rt — plans that raise nothing

What a plan reaches, part by part: the tests of a filter and of a join, the cells of a projection,
the folds of an aggregate, the values of a `HAVING` tree and of a group. `lists:sort` is asked to
return.
-/

namespace Ridge

open List

variable {rightRows leftRows leafRows : List SqlRow} {idx : Nat}

/-! ## HAVING and groups -/

section

variable (D : Doubles)

def QuietOperand (rows : List SqlRow) : QExpr → Prop
  | .qAggSum node => QuietAggValue D "SUM" node rows
  | .qAggAvg node => QuietAggValue D "AVG" node rows
  | .qAggAvgInterval node => QuietAggValue D "AVG_INTERVAL" node rows
  | .qAggMin node => QuietAggValue D "MIN" node rows
  | .qAggMax node => QuietAggValue D "MAX" node rows
  | _ => True

def QuietHaving (key : SqlValue) (rows : List SqlRow) : QExpr → Prop
  | .qAnd a b =>
    QuietHaving key rows a ∧ (memHavingNary D key rows a = .ok true → QuietHaving key rows b)
  | .qOr a b =>
    QuietHaving key rows a ∧ (memHavingNary D key rows a = .ok false → QuietHaving key rows b)
  | .qNot x => QuietHaving key rows x
  | .qEq a b | .qNe a b | .qLt a b | .qGt a b | .qLe a b | .qGe a b =>
    QuietOperand D rows a ∧ QuietOperand D rows b
  | _ => True

def QuietGroupCell (rows : List SqlRow) (col : String × String × QExpr × Int) : Prop :=
  col.2.1 ≠ "KEY" → col.2.1 ≠ "COUNT" → QuietAggValue D col.2.1 col.2.2.1 rows

end

section

variable {D : Doubles} {key : SqlValue} {rows : List SqlRow}

theorem answers_memHscalarNary {e : QExpr} :
    Answers (memHscalarNary D key rows e) ↔ QuietOperand D rows e := by
  cases e <;> first
    | exact iff_of_true (answers_ok _) trivial
    | exact answers_bind_pure.trans answers_memAggValueQ

variable {cmp : SqlValue → SqlValue → Bool}

variable {a b : QExpr}

theorem answers_memHrelateNary :
    Answers (memHrelateNary D cmp key rows a b) ↔ QuietOperand D rows a ∧ QuietOperand D rows b := by
  unfold memHrelateNary
  rw [answers_bind₂_pure, answers_memHscalarNary, answers_memHscalarNary]

theorem answers_not_memHrelateNary :
    Answers (do pure !(← memHrelateNary D cmp key rows a b) : Eval Bool) ↔
      QuietOperand D rows a ∧ QuietOperand D rows b := by
  rw [answers_bind_pure, answers_memHrelateNary]

theorem answers_memHavingNary {e : QExpr} :
    Answers (memHavingNary D key rows e) ↔ QuietHaving D key rows e := by
  cases e with
  | qAnd a b =>
    unfold memHavingNary QuietHaving
    rw [answers_bind_ite, answers_memHavingNary, answers_memHavingNary]
    exact and_congr_right fun _ => and_iff_left fun _ => answers_pure false
  | qOr a b =>
    unfold memHavingNary QuietHaving
    rw [answers_bind_ite, answers_memHavingNary, answers_memHavingNary]
    exact and_congr_right fun _ => and_iff_right fun _ => answers_pure true
  | qNot x =>
    unfold memHavingNary QuietHaving
    rw [answers_bind_pure, answers_memHavingNary]
  | qEq a b | qLt a b => exact answers_memHrelateNary
  | qNe a b | qGe a b => exact answers_not_memHrelateNary
  | qGt a b => exact answers_memHrelateNary.trans and_comm
  | qLe a b => exact answers_not_memHrelateNary.trans and_comm
  | qLitBool b => cases b <;> exact iff_of_true (answers_ok _) trivial
  | _ => exact iff_of_true (answers_ok _) trivial

theorem answers_memGroupNaryValue {func : String} {column : QExpr} :
    Answers (memGroupNaryValue D func column key rows) ↔
      (func ≠ "KEY" → func ≠ "COUNT" → QuietAggValue D func column rows) := by
  unfold memGroupNaryValue
  split
  · exact iff_of_true (answers_ok _) fun h => absurd rfl h
  · exact iff_of_true (answers_ok _) fun _ h => absurd rfl h
  · next hkey hcount =>
    exact answers_memAggValueQ.trans ⟨fun h _ _ => h, fun h => h hkey hcount⟩

theorem answers_memGroupNaryRow {cols : List (String × String × QExpr × Int)} :
    Answers (memGroupNaryRow D cols key rows) ↔ ∀ col ∈ cols, QuietGroupCell D rows col := by
  unfold memGroupNaryRow
  rw [answers_mapM]
  refine forall₂_congr fun col _ => ?_
  exact answers_bind_pure.trans answers_memGroupNaryValue

end

/-! ## Joins -/

section

variable {α β : Type}

/-- What a row's matches reach: the condition on every candidate, the filter on each match, and on
the row alone if there is none. -/
structure QuietMatch (test : α → Eval Bool) (quiet kept : α → Prop) (unmatched : Prop)
    (candidates : List α) : Prop where
  cond : ∀ c ∈ candidates, quiet c
  alone : (∀ c ∈ candidates, test c = .ok false) → unmatched
  matched : ∀ c ∈ candidates, test c = .ok true → kept c

variable {test : α → Eval Bool}

variable {l : List α}

theorem memFilter_eq_nil : memFilter test l = .ok [] ↔ ∀ x ∈ l, test x = .ok false := by
  rw [memFilter_eq_ok]
  refine ⟨fun h x hx => ?_, fun h => ⟨fun x hx => ⟨false, h x hx⟩, ?_⟩⟩
  · obtain ⟨b, hb⟩ := h.1 x hx
    have hnot := filter_eq_nil_iff.mp h.2.symm x hx
    rw [hb, isTrue_ok] at hnot
    rw [hb, Bool.eq_false_of_not_eq_true hnot]
  · refine (filter_eq_nil_iff.mpr fun x hx => ?_).symm
    rw [h x hx]
    exact Bool.false_ne_true

theorem mem_memFilter {l l' : List α} (h : memFilter test l = .ok l') {x : α} :
    x ∈ l' ↔ x ∈ l ∧ test x = .ok true := by
  obtain ⟨hall, rfl⟩ := memFilter_eq_ok.mp h
  rw [mem_filter]
  refine and_congr_right fun hx => ?_
  obtain ⟨b, hb⟩ := hall x hx
  rw [hb, isTrue_ok, Except.ok.injEq]

theorem answers_matches {quiet kept : α → Prop} {unmatched : Prop} {candidates : List α}
    {rest : List α → Eval β} (hquiet : ∀ c, Answers (test c) ↔ quiet c)
    (halone : Answers (rest []) ↔ unmatched)
    (heach : ∀ m ms, Answers (rest (m :: ms)) ↔ ∀ c ∈ m :: ms, kept c) :
    Answers (memFilter test candidates >>= rest) ↔
      QuietMatch test quiet kept unmatched candidates := by
  rw [answers_bind, answers_memFilter]
  refine ⟨fun ⟨htests, h⟩ => ⟨fun c hc => (hquiet c).mp (htests c hc), fun hnone => ?_,
    fun c hc htrue => ?_⟩, fun h => ⟨fun c hc => (hquiet c).mpr (h.cond c hc), fun l hl => ?_⟩⟩
  · exact halone.mp (h [] (memFilter_eq_nil.mpr hnone))
  · obtain ⟨l, hl⟩ := answers_memFilter.mpr htests
    have hmem : c ∈ l := (mem_memFilter hl).mpr ⟨hc, htrue⟩
    have hl' := h l hl
    cases l with
    | nil => exact absurd hmem not_mem_nil
    | cons m ms => exact (heach m ms).mp hl' c hmem
  · cases l with
    | nil => exact halone.mpr (h.alone (memFilter_eq_nil.mp hl))
    | cons m ms =>
      refine (heach m ms).mpr fun c hc => ?_
      obtain ⟨hmem, htrue⟩ := (mem_memFilter hl).mp hc
      exact h.matched c hmem htrue

variable {keep : β → Eval Bool}

theorem answers_memFilter_map {g : α → β} :
    Answers (memFilter keep (l.map g)) ↔ ∀ c ∈ l, Answers (keep (g c)) := by
  rw [answers_memFilter]
  exact forall_mem_map

theorem answers_memFilter_singleton {x : β} : Answers (memFilter keep [x]) ↔ Answers (keep x) := by
  rw [answers_memFilter]
  exact forall_mem_singleton

end

section

variable (E : ErlRuntime) (tables : Tables) (cond where2 : QExpr)

def QuietLeftRow (unmatched : Prop) (l : SqlRow) (rightRows : List SqlRow) : Prop :=
  QuietMatch (fun r => memJpred E.doubles l r cond) (fun r => QuietPred E.doubles (pairCells l r) cond)
    (fun r => QuietWhere2Pair E.doubles tables where2 l r) unmatched rightRows

def QuietRightRow (kept : SqlRow → Prop) (r : SqlRow) (leftRows : List SqlRow) : Prop :=
  QuietMatch (fun l => memJpred E.doubles l r cond) (fun l => QuietPred E.doubles (pairCells l r) cond)
    kept (QuietWhere2Pair E.doubles tables where2 [] r) leftRows

/-- A join of two tables, by its kind. -/
def QuietJoin (kind : String) (leftRows rightRows : List SqlRow) : Prop :=
  match kind with
  | "INNER" => ∀ l ∈ leftRows, QuietLeftRow E tables cond where2 True l rightRows
  | "LEFT" =>
    ∀ l ∈ leftRows,
      QuietLeftRow E tables cond where2 (QuietWhere2Pair E.doubles tables where2 l []) l rightRows
  | "RIGHT" =>
    ∀ r ∈ rightRows, QuietRightRow E tables cond where2
      (fun l => QuietWhere2Pair E.doubles tables where2 l r) r leftRows
  | "FULL" =>
    (∀ l ∈ leftRows,
      QuietLeftRow E tables cond where2 (QuietWhere2Pair E.doubles tables where2 l []) l rightRows) ∧
      ∀ r ∈ rightRows, QuietRightRow E tables cond where2 (fun _ => True) r leftRows
  | _ => False

/-- The rows that a composite row, or a leaf's, is merged into. -/
def QuietMerges (unmatched : Prop) (kept : SqlRow → Prop) (merges : List SqlRow) : Prop :=
  QuietMatch (fun m => memNpred E.doubles m cond) (fun m => QuietPred E.doubles (flatCells m) cond)
    kept unmatched merges

/-- A step of a longer join, by its kind. -/
def QuietStep (idx : Nat) (kind : String) (acc leafRows : List SqlRow) : Prop :=
  let keeps := QuietWhere2Flat E.doubles tables (idx + 1) where2
  let leaf := memPrefixKeys (memLeafPrefix idx)
  match kind with
  | "INNER" =>
    ∀ a ∈ acc, QuietMerges E cond True keeps (leafRows.map fun rk => mergeRow a (leaf rk))
  | "LEFT" =>
    ∀ a ∈ acc, QuietMerges E cond (keeps a) keeps (leafRows.map fun rk => mergeRow a (leaf rk))
  | "RIGHT" =>
    ∀ rk ∈ leafRows,
      QuietMerges E cond (keeps (leaf rk)) keeps (acc.map fun a => mergeRow a (leaf rk))
  | "FULL" =>
    (∀ a ∈ acc,
      QuietMerges E cond (keeps a) keeps (leafRows.map fun rk => mergeRow a (leaf rk))) ∧
      ∀ rk ∈ leafRows,
        QuietMerges E cond (keeps (leaf rk)) (fun _ => True)
          (acc.map fun a => mergeRow a (leaf rk))
  | _ => False

end

section

variable (E : ErlRuntime) (tables : Tables)

/-- The steps of a longer join, each over the rows of the one before. -/
def QuietNaryFold (acc : List SqlRow) (idx : Nat) : List (List SqlRow) → List JoinStep → Prop
  | leafRows :: restLeaves, (kind, cond, where2) :: restSteps =>
    QuietStep E tables cond where2 idx kind acc leafRows ∧
      ∀ acc', memJoinStep E tables cond where2 idx kind acc leafRows = .ok acc' →
        QuietNaryFold acc' (idx + 1) restLeaves restSteps
  | _, _ => True

def QuietNary (steps : List JoinStep) : List (List SqlRow) → Prop
  | [] => True
  | rows₀ :: rest =>
    QuietNaryFold E tables (rows₀.map (memPrefixKeys (memLeafPrefix 0))) 1 rest steps

end

section

variable {E : ErlRuntime} {tables : Tables} {cond where2 : QExpr}

theorem answers_memWhere2Keeps {p : JoinPair} :
    Answers (memWhere2Keeps E tables where2 p) ↔
      QuietWhere2Pair E.doubles tables where2 (p.1.getD []) (p.2.getD []) :=
  answers_memWhere2Pair

theorem answers_memLeftPairsFor {l : SqlRow} :
    Answers (memLeftPairsFor E tables cond where2 l rightRows) ↔
      QuietLeftRow E tables cond where2 (QuietWhere2Pair E.doubles tables where2 l []) l rightRows :=
  answers_matches (fun _ => answers_predWith)
    (answers_memFilter_singleton.trans answers_memWhere2Keeps) fun _ _ =>
      answers_memFilter_map.trans (forall₂_congr fun _ _ => answers_memWhere2Keeps)

theorem answers_memFullRightOnlyFor {r : SqlRow} :
    Answers (memFullRightOnlyFor E tables cond where2 r leftRows) ↔
      QuietRightRow E tables cond where2 (fun _ => True) r leftRows :=
  answers_matches (fun _ => answers_predWith)
    (answers_memFilter_singleton.trans answers_memWhere2Keeps) fun _ _ =>
      iff_of_true (answers_pure []) fun _ _ => trivial

/-- The rows that each element contributes. -/
theorem answers_flatten_mapM {α β : Type} {f : α → Eval (List β)} {quiet : α → Prop} {l : List α}
    (h : ∀ a, Answers (f a) ↔ quiet a) :
    Answers (List.flatten <$> l.mapM f) ↔ ∀ a ∈ l, quiet a := by
  rw [answers_map, answers_mapM]
  exact forall₂_congr fun a _ => h a

variable {kind : String}

theorem not_quietJoin (hinner : kind ≠ "INNER") (hleft : kind ≠ "LEFT") (hright : kind ≠ "RIGHT")
    (hfull : kind ≠ "FULL") : ¬ QuietJoin E tables cond where2 kind leftRows rightRows := by
  intro h
  unfold QuietJoin at h
  split at h
  · exact hinner rfl
  · exact hleft rfl
  · exact hright rfl
  · exact hfull rfl
  · exact h

theorem answers_memJoinPairs :
    Answers (memJoinPairs E tables cond where2 kind leftRows rightRows) ↔
      QuietJoin E tables cond where2 kind leftRows rightRows := by
  unfold memJoinPairs
  split
  · exact answers_flatten_mapM fun _ => answers_matches (fun _ => answers_predWith)
      (iff_of_true (answers_pure []) trivial) fun _ _ =>
        answers_memFilter_map.trans (forall₂_congr fun _ _ => answers_memWhere2Keeps)
  · exact answers_flatten_mapM fun _ => answers_memLeftPairsFor
  · exact answers_flatten_mapM fun _ => answers_matches (fun _ => answers_predWith)
      (answers_memFilter_singleton.trans answers_memWhere2Keeps) fun _ _ =>
        answers_memFilter_map.trans (forall₂_congr fun _ _ => answers_memWhere2Keeps)
  · rw [answers_bind₂, answers_mapM, answers_mapM]
    simp only [answers_memLeftPairsFor, answers_memFullRightOnlyFor]
    exact and_congr_right fun _ => and_iff_left fun _ _ _ _ => answers_pure _
  · next hinner hleft hright hfull =>
    exact iff_of_false (not_answers_error _) (not_quietJoin hinner hleft hright hfull)

theorem answers_memLeftStep {accRow : SqlRow} :
    Answers (memLeftStep E tables cond where2 idx accRow leafRows) ↔
      QuietMerges E cond (QuietWhere2Flat E.doubles tables (idx + 1) where2 accRow)
        (QuietWhere2Flat E.doubles tables (idx + 1) where2)
        (leafRows.map fun rk => mergeRow accRow (memPrefixKeys (memLeafPrefix idx) rk)) :=
  answers_matches (fun _ => answers_predWith)
    (answers_memFilter_singleton.trans answers_memWhere2Flat) fun _ _ =>
      answers_memFilter.trans (forall₂_congr fun _ _ => answers_memWhere2Flat)

variable {acc : List SqlRow}

theorem answers_memFullRightOnlyStep {rk : SqlRow} :
    Answers (memFullRightOnlyStep E tables cond where2 idx rk acc) ↔
      QuietMerges E cond
        (QuietWhere2Flat E.doubles tables (idx + 1) where2 (memPrefixKeys (memLeafPrefix idx) rk))
        (fun _ => True) (acc.map fun a => mergeRow a (memPrefixKeys (memLeafPrefix idx) rk)) :=
  answers_matches (fun _ => answers_predWith)
    (answers_memFilter_singleton.trans answers_memWhere2Flat) fun _ _ =>
      iff_of_true (answers_pure []) fun _ _ => trivial

theorem not_quietStep (hinner : kind ≠ "INNER") (hleft : kind ≠ "LEFT") (hright : kind ≠ "RIGHT")
    (hfull : kind ≠ "FULL") : ¬ QuietStep E tables cond where2 idx kind acc leafRows := by
  intro h
  unfold QuietStep at h
  dsimp only at h
  split at h
  · exact hinner rfl
  · exact hleft rfl
  · exact hright rfl
  · exact hfull rfl
  · exact h

theorem answers_memJoinStep :
    Answers (memJoinStep E tables cond where2 idx kind acc leafRows) ↔
      QuietStep E tables cond where2 idx kind acc leafRows := by
  unfold memJoinStep
  split
  · exact answers_flatten_mapM fun _ => answers_matches (fun _ => answers_predWith)
      (iff_of_true (answers_pure []) trivial) fun _ _ =>
        answers_memFilter.trans (forall₂_congr fun _ _ => answers_memWhere2Flat)
  · exact answers_flatten_mapM fun _ => answers_memLeftStep
  · exact answers_flatten_mapM fun _ => answers_matches (fun _ => answers_predWith)
      (answers_memFilter_singleton.trans answers_memWhere2Flat) fun _ _ =>
        answers_memFilter.trans (forall₂_congr fun _ _ => answers_memWhere2Flat)
  · rw [answers_bind₂, answers_mapM, answers_mapM]
    simp only [answers_memLeftStep, answers_memFullRightOnlyStep]
    exact and_congr_right fun _ => and_iff_left fun _ _ _ _ => answers_pure _
  · next hinner hleft hright hfull =>
    exact iff_of_false (not_answers_error _) (not_quietStep hinner hleft hright hfull)

theorem answers_memNaryFold : ∀ {steps : List JoinStep} {leaves : List (List SqlRow)} {idx : Nat}
    {acc : List SqlRow},
    Answers (memNaryFold E tables acc idx leaves steps) ↔
      QuietNaryFold E tables acc idx leaves steps
  | (kind, cond, where2) :: steps, leafRows :: leaves, idx, acc => by
    unfold memNaryFold QuietNaryFold
    rw [answers_bind, answers_memJoinStep]
    simp only [answers_memNaryFold]
  | [], [], _, _ | [], _ :: _, _, _ | _ :: _, [], _, _ => iff_of_true (answers_pure _) trivial

theorem answers_memNaryProduct {steps : List JoinStep} {leaves : List (List SqlRow)} :
    Answers (memNaryProduct E tables steps leaves) ↔ QuietNary E tables steps leaves := by
  cases leaves with
  | nil => exact iff_of_true (answers_pure []) trivial
  | cons rows₀ rest => exact answers_memNaryFold

end

/-! ## Projections -/

section

variable (E : ErlRuntime)

def QuietCell (row : SqlRow) : QExpr → Prop
  | .qAdd a b =>
    QuietCell row a ∧ QuietCell row b ∧
      ∀ x y, memPcell E row a = .ok x → memPcell E row b = .ok y →
        Fits E.doubles .add (some x) (some y)
  | .qSub a b =>
    QuietCell row a ∧ QuietCell row b ∧
      ∀ x y, memPcell E row a = .ok x → memPcell E row b = .ok y →
        Fits E.doubles .sub (some x) (some y)
  | .qMul a b =>
    QuietCell row a ∧ QuietCell row b ∧
      ∀ x y, memPcell E row a = .ok x → memPcell E row b = .ok y →
        Fits E.doubles .mul (some x) (some y)
  | .qDiv a b =>
    QuietCell row a ∧ QuietCell row b ∧
      ∀ x y, memPcell E row a = .ok x → memPcell E row b = .ok y →
        Fits E.doubles .div (some x) (some y)
  | .qMod a b =>
    QuietCell row a ∧ QuietCell row b ∧
      ∀ x y, memPcell E row a = .ok x → memPcell E row b = .ok y →
        Fits E.doubles .mod (some x) (some y)
  | .qCase c t e =>
    QuietPred E.doubles (flatCells row) c ∧
      (memNpred E.doubles row c = .ok true → QuietCell row t) ∧
      (memNpred E.doubles row c = .ok false → QuietCell row e)
  | _ => True

def QuietProjection (proj : QExpr) (row : SqlRow) : Prop :=
  match proj with
  | .qProj cols => ∀ col ∈ cols, QuietCell E row col.2
  | _ => True

end

section

variable {E : ErlRuntime} {row : SqlRow}

theorem answers_memPcellArith {op : ArithOp} {a b : SqlValue} :
    Answers (memPcellArith E op a b) ↔ Fits E.doubles op (some a) (some b) := by
  unfold memPcellArith
  rw [answers_bind_pure, answers_memArithApply]

theorem answers_memPcell {e : QExpr} : Answers (memPcell E row e) ↔ QuietCell E row e := by
  cases e with
  | qAdd a b | qSub a b | qMul a b | qDiv a b | qMod a b =>
    unfold memPcell QuietCell
    rw [answers_bind₂, answers_memPcell, answers_memPcell]
    simp only [answers_memPcellArith]
  | qCase c t e =>
    unfold memPcell QuietCell
    rw [answers_bind_ite, answers_memPcell, answers_memPcell]
    exact and_congr_left fun _ => answers_predWith
  | _ => exact iff_of_true (answers_ok _) trivial

theorem answers_memProjectPrefixed {proj : QExpr} :
    Answers (memProjectPrefixed E proj row) ↔ QuietProjection E proj row := by
  cases proj with
  | qProj cols =>
    unfold memProjectPrefixed QuietProjection
    rw [answers_map, answers_mapM]
    refine forall₂_congr fun col _ => ?_
    rw [answers_bind_pure, answers_memPcell]
  | _ => exact iff_of_true (answers_ok _) trivial

end

/-! ## Plans -/

section

variable (E : ErlRuntime) (tables : Tables)

/-- The rows a refinement filters. -/
def QuietRefine (inner : QueryPlan) (pred : QExpr) (rows : List SqlRow) : Prop :=
  match inner with
  | .planJoin .. =>
    ∀ row ∈ rows, QuietWhere2Flat E.doubles tables (memFlattenJoin inner).1.length pred row
  | _ => ∀ row ∈ rows, QuietStore E.doubles tables row pred

/-- The keys, each group's tests, and the row of each group that is kept. -/
def QuietGroups (rows : List SqlRow) (keyLeaf : Int) (keyCol : String)
    (cols : List (String × String × QExpr × Int)) (having : QExpr) : Prop :=
  KeysApart E.doubles (rows.map (cellOf (memAggCol keyLeaf keyCol rows))) ∧
    ∀ groups, memGroupNaryBy E.doubles (memAggCol keyLeaf keyCol rows) rows = .ok groups →
      ∀ g ∈ groups, QuietHaving E.doubles g.1 g.2 having ∧
        (memHavingNary E.doubles g.1 g.2 having = .ok true →
          ∀ col ∈ cols, QuietGroupCell E.doubles g.2 col)

mutual

/-- Nothing a plan reaches raises. -/
def QuietPlan : QueryPlan → Prop
  | .planScan table pred orders _ _ _ =>
    (∀ row ∈ rowsOf table tables, QuietStore E.doubles tables row pred) ∧
      ∀ matched, memFilter (fun row => memPredStore E.doubles tables row pred)
        (rowsOf table tables) = .ok matched → Answers (memOrder E orders matched)
  | .planCombine _ left right => QuietPlan left ∧ QuietPlan right
  | .planRefine inner pred orders _ _ _ =>
    QuietPlan inner ∧ ∀ rows, memEvalPlan E tables inner = .ok rows →
      QuietRefine E tables inner pred rows ∧
        ∀ matched, memRefineMatches E tables inner pred rows = .ok matched →
          Answers (memOrder E orders matched)
  | .planList _ => True
  | .planExists child => QuietPlan child
  | .planJoin kind left right cond where2 orders _ _ _ _ _ =>
    match left with
    | .planJoin .. =>
      QuietLeaves left ∧ QuietPlan right ∧
        ∀ leafRows rightRows, memLeafRows E tables left = .ok leafRows →
          memEvalPlan E tables right = .ok rightRows →
          QuietNary E tables ((memFlattenJoin left).2 ++ [(kind, cond, where2)])
            (leafRows ++ [rightRows]) ∧
          ∀ flat, memNaryProduct E tables ((memFlattenJoin left).2 ++ [(kind, cond, where2)])
            (leafRows ++ [rightRows]) = .ok flat → Answers (memOrderNary E orders flat)
    | _ =>
      QuietPlan left ∧ QuietPlan right ∧
        ∀ leftRows rightRows, memEvalPlan E tables left = .ok leftRows →
          memEvalPlan E tables right = .ok rightRows →
          QuietJoin E tables cond where2 kind leftRows rightRows ∧
          ∀ pairs, memJoinPairs E tables cond where2 kind leftRows rightRows = .ok pairs →
            Answers (memOrderPairs E orders pairs)
  | .planProject proj child _ _ _ =>
    QuietPlan child ∧ ∀ rows, memEvalPlan E tables child = .ok rows →
      ∀ row ∈ rows, QuietProjection E proj row
  | .planAggregate func column _ child =>
    QuietPlan child ∧ ∀ rows, memEvalPlan E tables child = .ok rows →
      func ≠ "COUNT" → QuietAggValue E.doubles func column rows
  | .planGroup keyCol keyLeaf cols having child =>
    QuietPlan child ∧ ∀ rows, memEvalPlan E tables child = .ok rows →
      QuietGroups E rows keyLeaf keyCol cols having

def QuietLeaves : QueryPlan → Prop
  | .planJoin _ left right _ _ _ _ _ _ _ _ =>
    match left with
    | .planJoin .. => QuietLeaves left ∧ QuietPlan right
    | _ => QuietPlan left ∧ QuietPlan right
  | _ => True

end

end

section

variable {E : ErlRuntime} {tables : Tables}

theorem answers_memRefineMatches {inner : QueryPlan} {pred : QExpr} {rows : List SqlRow} :
    Answers (memRefineMatches E tables inner pred rows) ↔ QuietRefine E tables inner pred rows := by
  cases inner with
  | planJoin =>
    exact answers_memFilter.trans (forall₂_congr fun _ _ => answers_memWhere2Flat)
  | _ => exact answers_memFilter.trans (forall₂_congr fun _ _ => answers_memPredStore)

theorem answers_memGroupNary {rows : List SqlRow} {keyLeaf : Int} {keyCol : String}
    {cols : List (String × String × QExpr × Int)} {having : QExpr} :
    Answers (memGroupNary E rows keyLeaf keyCol cols having) ↔
      QuietGroups E rows keyLeaf keyCol cols having := by
  unfold memGroupNary QuietGroups
  rw [answers_bind, answers_memGroupNaryBy]
  refine and_congr_right fun _ => forall₂_congr fun groups _ => ?_
  rw [answers_bind, answers_memFilter]
  refine ⟨fun ⟨htests, h⟩ g hg => ⟨answers_memHavingNary.mp (htests g hg), fun htrue => ?_⟩,
    fun h => ⟨fun g hg => answers_memHavingNary.mpr (h g hg).1, fun kept hkept => ?_⟩⟩
  · obtain ⟨kept, hkept⟩ := answers_memFilter.mpr htests
    obtain ⟨hsort, hrows⟩ := answers_bind.mp (h kept hkept)
    obtain ⟨sorted, hsorted⟩ := hsort
    have hmem : g ∈ sorted :=
      (E.sorting.perm hsorted).mem_iff.mpr ((mem_memFilter hkept).mpr ⟨hg, htrue⟩)
    have hrow := answers_mapM.mp (hrows sorted hsorted) g hmem
    exact answers_memGroupNaryRow.mp (answers_map.mp hrow)
  · -- The keys of two groups always compare.
    refine answers_bind.mpr ⟨E.sorting.returns fun a _ b _ => ⟨_, rfl⟩, fun sorted hsorted => ?_⟩
    refine answers_mapM.mpr fun g hg => ?_
    have hmem := (E.sorting.perm hsorted).mem_iff.mp hg
    obtain ⟨hgroup, htrue⟩ := (mem_memFilter hkept).mp hmem
    exact answers_map.mpr (answers_memGroupNaryRow.mpr ((h g hgroup).2 htrue))

mutual

theorem answers_memEvalPlan : ∀ {plan : QueryPlan},
    Answers (memEvalPlan E tables plan) ↔ QuietPlan E tables plan
  | .planScan table pred orders lim off dist => by
    unfold memEvalPlan QuietPlan
    rw [answers_bind, answers_memFilter]
    simp only [answers_memPredStore, answers_bind, answers_pure, implies_true, and_true]
  | .planCombine operation left right => by
    unfold memEvalPlan QuietPlan
    rw [answers_bind₂_pure, answers_memEvalPlan, answers_memEvalPlan]
  | .planRefine inner pred orders lim off dist => by
    unfold memEvalPlan QuietPlan
    rw [answers_bind, answers_memEvalPlan]
    simp only [answers_memRefineMatches, answers_bind, answers_pure, implies_true, and_true]
  | .planList rows => iff_of_true (answers_pure rows) trivial
  | .planExists child => by
    unfold memEvalPlan QuietPlan
    rw [answers_bind, answers_memEvalPlan]
    refine and_iff_left fun rows _ => ?_
    cases rows with
    | nil | cons _ _ => exact answers_pure _
  | .planJoin kind left right cond where2 orders lim off dist lc rc => by
    have hleft : Answers (memEvalPlan E tables left) ↔ QuietPlan E tables left :=
      answers_memEvalPlan
    have hleaves : Answers (memLeafRows E tables left) ↔ QuietLeaves E tables left :=
      answers_memLeafRows
    have hright : Answers (memEvalPlan E tables right) ↔ QuietPlan E tables right :=
      answers_memEvalPlan
    unfold memEvalPlan QuietPlan
    cases left with
    | planJoin =>
      show Answers (_ >>= fun leafRows => _ >>= fun rightRows => _) ↔ _
      rw [answers_bind₂, hleaves, hright]
      simp only [answers_bind, answers_memNaryProduct, answers_pure, implies_true, and_true]
    | _ =>
      show Answers (_ >>= fun leftRows => _ >>= fun rightRows => _) ↔ _
      rw [answers_bind₂, hleft, hright]
      simp only [answers_bind, answers_memJoinPairs, answers_pure, implies_true, and_true]
  | .planProject proj child lim off dist => by
    unfold memEvalPlan QuietPlan
    rw [answers_bind, answers_memEvalPlan]
    simp only [answers_bind, answers_mapM, answers_memProjectPrefixed, answers_pure, implies_true,
      and_true]
  | .planAggregate func column leaf child => by
    unfold memEvalPlan QuietPlan
    rw [answers_bind, answers_memEvalPlan]
    simp only [answers_ite, answers_bind, answers_memAggValueQ, answers_pure, implies_true,
      and_true, true_and]
  | .planGroup keyCol keyLeaf cols having child => by
    unfold memEvalPlan QuietPlan
    rw [answers_bind, answers_memEvalPlan]
    simp only [answers_memGroupNary]

theorem answers_memLeafRows : ∀ {plan : QueryPlan},
    Answers (memLeafRows E tables plan) ↔ QuietLeaves E tables plan
  | .planJoin kind left right cond where2 orders lim off dist lc rc => by
    have hleft : Answers (memEvalPlan E tables left) ↔ QuietPlan E tables left :=
      answers_memEvalPlan
    have hleaves : Answers (memLeafRows E tables left) ↔ QuietLeaves E tables left :=
      answers_memLeafRows
    have hright : Answers (memEvalPlan E tables right) ↔ QuietPlan E tables right :=
      answers_memEvalPlan
    unfold memLeafRows QuietLeaves
    cases left with
    | planJoin =>
      show Answers (_ >>= fun leafRows => _ >>= fun rightRows => _) ↔ _
      rw [answers_bind₂_pure, hleaves, hright]
    | _ =>
      show Answers (_ >>= fun leftRows => _ >>= fun rightRows => _) ↔ _
      rw [answers_bind₂_pure, hleft, hright]
  | .planScan _ _ _ _ _ _ | .planCombine _ _ _ | .planRefine _ _ _ _ _ _ | .planList _
  | .planExists _ | .planProject _ _ _ _ _ | .planAggregate _ _ _ _ | .planGroup _ _ _ _ _ =>
    iff_of_true (answers_pure []) trivial

end

end

end Ridge
