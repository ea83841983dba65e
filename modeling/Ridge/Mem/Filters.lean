import Ridge.Mem.Reading

/-!
# ridge_rt — the store filters as SQL does

A clause keeps what is TRUE. Over trees that are read faithfully from `false` each interpreter of
the store keeps a row, or a group, iff SQL does.
-/

namespace Ridge

open Kleene

open Kleene (reading holds)

section

variable {D : Doubles} {tables : Tables} {n : Nat} {s : Scope} {row : SqlRow}

/-! ## With the store -/

/-- A tree that is no connective and no `EXISTS` is handed to `mem_npred`. -/
theorem memCorr_eq {e : QExpr} {u : Bool} {n : Nat} {s : Scope} {row : SqlRow}
    (hrow : FlatRow s n row) (h : FaithfulPred D tables .flat true u n s e) :
    memCorr D tables n e row = .ok (reading u (sqlPred D tables n s e)) := by
  cases e with
  | qAnd a b =>
    unfold FaithfulPred at h
    unfold memCorr sqlPred
    rw [memCorr_eq hrow h.1, reading_and]
    cases hread : reading u (sqlPred D tables n s a) with
    | true => exact memCorr_eq hrow (h.2 hread)
    | false => rfl
  | qOr a b =>
    unfold FaithfulPred at h
    unfold memCorr sqlPred
    rw [memCorr_eq hrow h.1, reading_or]
    cases hread : reading u (sqlPred D tables n s a) with
    | true => rfl
    | false => exact memCorr_eq hrow (h.2 hread)
  | qNot x =>
    unfold FaithfulPred at h
    unfold memCorr sqlPred
    rw [memCorr_eq hrow h, reading_not]
    rfl
  | qNotTrue x =>
    unfold FaithfulPred at h
    unfold memCorr sqlPred
    rw [memCorr_eq hrow h, holds_eq_reading]
    rfl
  | qCase cond t e =>
    unfold FaithfulPred at h
    unfold memCorr sqlPred
    rw [memCorr_eq hrow h.1, holds_eq_reading]
    rw [holds_eq_reading] at h
    cases hread : reading false (sqlPred D tables n s cond) with
    | true | false =>
      rw [hread] at h
      exact memCorr_eq hrow h.2
  | qExists table corr =>
    unfold FaithfulPred at h
    unfold memCorr sqlPred
    refine anyEval_eq (fun inner hinner => ?_) h.2
    rw [holds_eq_reading]
    exact memCorr_eq (hrow.extend inner) hinner
  | _ => exact predWith_eq (represents_flatCells hrow) h

/-- One table's row. -/
def rowScope (row : SqlRow) : Scope := Function.update (fun _ => []) 0 row

/-- The two rows of a join; the empty one where a side is unmatched. -/
def pairScope (l r : SqlRow) : Scope := Function.update (rowScope l) 1 r

theorem represents_rowScope (row : SqlRow) : RowForm.bare.Represents (rowScope row) (bareCells row) :=
  represents_bareCells rfl

theorem represents_pairScope (l r : SqlRow) :
    RowForm.pair.Represents (pairScope l r) (pairCells l r) where
  col _ _ := rfl
  colR _ _ := rfl
  colAt _ _ hname := (hname (by decide)).symm

theorem memPredStore_eq {e : QExpr} {u : Bool}
    (h : FaithfulPred D tables .bare true u 1 (rowScope row) e) :
    memPredStore D tables row e = .ok (reading u (sqlPred D tables 1 (rowScope row) e)) := by
  cases e with
  | qAnd a b =>
    unfold FaithfulPred at h
    unfold memPredStore sqlPred
    rw [memPredStore_eq h.1, reading_and]
    cases hread : reading u (sqlPred D tables 1 (rowScope row) a) with
    | true => exact memPredStore_eq (h.2 hread)
    | false => rfl
  | qOr a b =>
    unfold FaithfulPred at h
    unfold memPredStore sqlPred
    rw [memPredStore_eq h.1, reading_or]
    cases hread : reading u (sqlPred D tables 1 (rowScope row) a) with
    | true => rfl
    | false => exact memPredStore_eq (h.2 hread)
  | qNot x =>
    unfold FaithfulPred at h
    unfold memPredStore sqlPred
    rw [memPredStore_eq h, reading_not]
    rfl
  | qNotTrue x =>
    unfold FaithfulPred at h
    unfold memPredStore sqlPred
    rw [memPredStore_eq h, holds_eq_reading]
    rfl
  | qCase cond t e =>
    unfold FaithfulPred at h
    unfold memPredStore sqlPred
    rw [memPredStore_eq h.1, holds_eq_reading]
    rw [holds_eq_reading] at h
    cases hread : reading false (sqlPred D tables 1 (rowScope row) cond) with
    | true | false =>
      rw [hread] at h
      exact memPredStore_eq h.2
  | qExists table corr =>
    have hflat : FaithfulPred D tables .flat true u 1 (rowScope row) (.qExists table corr) := by
      unfold FaithfulPred at h ⊢
      exact h
    unfold memPredStore
    exact memCorr_eq (FlatRow.single row) hflat
  | _ => exact predWith_eq (represents_rowScope row) h

/-! ## HAVING -/

section

variable (D) (key : SqlValue) (rows : List SqlRow) (value : QExpr → Option SqlValue)

/-- The group's value of an operand is what the store folds it to. -/
def Folds (e : QExpr) : Prop := memHscalarNary D key rows e = .ok (value e)

/-- A `HAVING` tree has a clause for each node, and its tests lean the way they are read. -/
def FaithfulHaving (u : Bool) : QExpr → Prop
  | .qLitBool b => b = true ∧ Folds D key rows value (.qLitBool b)
  | .qAnd a b =>
    FaithfulHaving u a ∧ (reading u (sqlHaving D value a) = true → FaithfulHaving u b)
  | .qOr a b =>
    FaithfulHaving u a ∧ (reading u (sqlHaving D value a) = false → FaithfulHaving u b)
  | .qNot x => FaithfulHaving (!u) x
  | .qEq a b =>
    Folds D key rows value a ∧ Folds D key rows value b ∧ FaithfulEq D u (value a) (value b)
  | .qNe a b =>
    Folds D key rows value a ∧ Folds D key rows value b ∧ FaithfulEq D (!u) (value a) (value b)
  | .qLt a b =>
    Folds D key rows value a ∧ Folds D key rows value b ∧ FaithfulLt D u (value a) (value b)
  | .qGt a b =>
    Folds D key rows value a ∧ Folds D key rows value b ∧ FaithfulLt D u (value b) (value a)
  | .qLe a b =>
    Folds D key rows value a ∧ Folds D key rows value b ∧ FaithfulLt D (!u) (value b) (value a)
  | .qGe a b =>
    Folds D key rows value a ∧ Folds D key rows value b ∧ FaithfulLt D (!u) (value a) (value b)
  | _ => False

end

section

variable {key : SqlValue} {rows : List SqlRow} {value : QExpr → Option SqlValue}

theorem memHrelateNary_eq {cmp : SqlValue → SqlValue → Bool} {a b : QExpr}
    (ha : Folds D key rows value a) (hb : Folds D key rows value b) :
    memHrelateNary D cmp key rows a b = .ok (relate cmp (value a) (value b)) := by
  unfold memHrelateNary
  rw [ha, hb]
  rfl

theorem memHavingNary_eq {e : QExpr} {u : Bool} (h : FaithfulHaving D key rows value u e) :
    memHavingNary D key rows e = .ok (reading u (sqlHaving D value e)) := by
  cases e with
  | qLitBool b =>
    unfold FaithfulHaving at h
    obtain ⟨rfl, hfold⟩ := h
    have hvalue : value (.qLitBool true) = some (.sqlBool true) := (Except.ok.inj hfold).symm
    unfold sqlHaving
    rw [hvalue]
    rfl
  | qAnd a b =>
    unfold FaithfulHaving at h
    unfold memHavingNary sqlHaving
    rw [memHavingNary_eq h.1, reading_and]
    cases hread : reading u (sqlHaving D value a) with
    | true => exact memHavingNary_eq (h.2 hread)
    | false => rfl
  | qOr a b =>
    unfold FaithfulHaving at h
    unfold memHavingNary sqlHaving
    rw [memHavingNary_eq h.1, reading_or]
    cases hread : reading u (sqlHaving D value a) with
    | true => rfl
    | false => exact memHavingNary_eq (h.2 hread)
  | qNot x =>
    unfold FaithfulHaving at h
    unfold memHavingNary sqlHaving
    rw [memHavingNary_eq h, reading_not]
    rfl
  | qEq a b =>
    unfold FaithfulHaving at h
    unfold memHavingNary sqlHaving
    rw [memHrelateNary_eq h.1 h.2.1, relate_memSqlEq h.2.2]
  | qNe a b =>
    unfold FaithfulHaving at h
    unfold memHavingNary sqlHaving
    rw [memHrelateNary_eq h.1 h.2.1, relate_memSqlEq h.2.2, reading_not]
    rfl
  | qLt a b =>
    unfold FaithfulHaving at h
    unfold memHavingNary sqlHaving
    rw [memHrelateNary_eq h.1 h.2.1, relate_memSqlLt h.2.2]
  | qGt a b =>
    unfold FaithfulHaving at h
    unfold memHavingNary sqlHaving
    rw [memHrelateNary_eq h.2.1 h.1, relate_memSqlLt h.2.2]
  | qLe a b =>
    unfold FaithfulHaving at h
    unfold memHavingNary sqlHaving
    rw [memHrelateNary_eq h.2.1 h.1, relate_memSqlLt h.2.2, reading_not]
    rfl
  | qGe a b =>
    unfold FaithfulHaving at h
    unfold memHavingNary sqlHaving
    rw [memHrelateNary_eq h.1 h.2.1, relate_memSqlLt h.2.2, reading_not]
    rfl
  | _ => exact False.elim h

end

/-! ## The filters -/

/-- Each interpreter keeps what is TRUE, of a tree that is read faithfully at `false`. -/
theorem filters_as_sql (D : Doubles) (tables : Tables) :
    (∀ row e, FaithfulPred D tables .bare false false 1 (rowScope row) e →
      memPred D row e = .ok (holds (sqlPred D tables 1 (rowScope row) e))) ∧
    (∀ row e, FaithfulPred D tables .bare true false 1 (rowScope row) e →
      memPredStore D tables row e = .ok (holds (sqlPred D tables 1 (rowScope row) e))) ∧
    (∀ l r e, FaithfulPred D tables .pair false false 2 (pairScope l r) e →
      memJpred D l r e = .ok (holds (sqlPred D tables 2 (pairScope l r) e))) ∧
    (∀ s n row e, FlatRow s n row → FaithfulPred D tables .flat false false n s e →
      memNpred D row e = .ok (holds (sqlPred D tables n s e))) ∧
    (∀ s n row e, FlatRow s n row → FaithfulPred D tables .flat true false n s e →
      memCorr D tables n e row = .ok (holds (sqlPred D tables n s e))) ∧
    (∀ key rows value e, FaithfulHaving D key rows value false e →
      memHavingNary D key rows e = .ok (holds (sqlHaving D value e))) := by
  refine ⟨fun row e h => ?_, fun row e h => ?_, fun l r e h => ?_, fun s n row e hrow h => ?_,
    fun s n row e hrow h => ?_, fun key rows value e h => ?_⟩
  · rw [holds_eq_reading]
    exact predWith_eq (represents_rowScope row) h
  · rw [holds_eq_reading]
    exact memPredStore_eq h
  · rw [holds_eq_reading]
    exact predWith_eq (represents_pairScope l r) h
  · rw [holds_eq_reading]
    exact predWith_eq (represents_flatCells hrow) h
  · rw [holds_eq_reading]
    exact memCorr_eq hrow h
  · rw [holds_eq_reading]
    exact memHavingNary_eq h

end

section

def adult : QExpr := .qGt (.qCol "age") (.qLitInt 18)

def authorIs : QExpr := .qEq (.qCol "id") (.qColR "author")

def hasPost : QExpr := .qExists "posts" authorIs

def onePost : Tables := [("posts", [[("author", .sqlInt 1)]])]

def severalRows : QExpr := .qGt .qAggCount (.qLitInt 1)

def twoCounted : QExpr → Option SqlValue
  | .qAggCount => some (.sqlInt 2)
  | e => litValue e

theorem hasPost_faithful (form : RowForm) :
    FaithfulPred .ieee onePost form true false 1 (rowScope [("id", .sqlInt 1)]) hasPost := by
  unfold hasPost FaithfulPred
  refine ⟨rfl, ⟨?_, fun _ => trivial⟩⟩
  unfold authorIs FaithfulPred FaithfulScalar
  exact ⟨fun _ => .inl (by decide), nofun, trivial⟩

theorem adult_filters_as_sql :
    (memPred .ieee [("age", .sqlNull)] adult =
      .ok (holds (sqlPred .ieee onePost 1 (rowScope [("age", .sqlNull)]) adult))) ∧
    (memPredStore .ieee onePost [("id", .sqlInt 1)] hasPost =
      .ok (holds (sqlPred .ieee onePost 1 (rowScope [("id", .sqlInt 1)]) hasPost))) ∧
    (memJpred .ieee [("id", .sqlInt 1)] [] authorIs =
      .ok (holds (sqlPred .ieee onePost 2 (pairScope [("id", .sqlInt 1)] []) authorIs))) ∧
    (memNpred .ieee (memPrefixKeys (memLeafPrefix 0) [("age", .sqlNull)]) adult =
      .ok (holds (sqlPred .ieee onePost 1 (rowScope [("age", .sqlNull)]) adult))) ∧
    (memCorr .ieee onePost 1 hasPost (memPrefixKeys (memLeafPrefix 0) [("id", .sqlInt 1)]) =
      .ok (holds (sqlPred .ieee onePost 1 (rowScope [("id", .sqlInt 1)]) hasPost))) ∧
    (memHavingNary .ieee (.sqlInt 7) [[], []] severalRows =
      .ok (holds (sqlHaving .ieee twoCounted severalRows))) := by
  obtain ⟨hpred, hstore, hjpred, hnpred, hcorr, hhaving⟩ := filters_as_sql .ieee onePost
  refine ⟨hpred _ _ ?_, hstore _ _ (hasPost_faithful _), hjpred _ _ _ ?_,
    hnpred _ _ _ _ (FlatRow.single _) ?_, hcorr _ _ _ _ (FlatRow.single _) (hasPost_faithful _),
    hhaving _ _ _ _ ?_⟩
  · unfold adult FaithfulPred FaithfulScalar
    exact ⟨nofun, rfl, rfl⟩
  · unfold authorIs FaithfulPred FaithfulScalar
    exact ⟨nofun, nofun, rfl, nofun⟩
  · unfold adult FaithfulPred FaithfulScalar
    exact ⟨fun _ => .inl (by decide), rfl, rfl⟩
  · unfold severalRows FaithfulHaving
    exact ⟨rfl, rfl, trivial⟩

end

/-- `age <= 18` is UNKNOWN of a row without an age, and the store keeps the row. -/
theorem missing_age_kept :
    memPred .ieee [("age", .sqlNull)] (.qLe (.qCol "age") (.qLitInt 18)) = .ok true ∧
      holds (sqlPred .ieee [] 1 (rowScope [("age", .sqlNull)])
        (.qLe (.qCol "age") (.qLitInt 18))) = false := by
  refine ⟨?_, ?_⟩
  · unfold memPred predWith scalarWith
    rfl
  · unfold sqlPred sqlScalar
    rfl

end Ridge
