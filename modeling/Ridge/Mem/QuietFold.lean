import Ridge.Mem.Quiet

/-!
# ridge_rt — folds that raise nothing

`SUM` and `AVG` have a clause for numbers and intervals only and their running sum is a number of
the runtime; `MIN` and `MAX` have none for a NULL inside an array; a decimal is turned into a double
by `AVG`, `MIN` and `MAX`. An aggregate answers iff the values folded stay within that.
-/

namespace Ridge

open List

variable {values : List SqlValue}

section

variable (D : Doubles)

/-! ## Values that can be folded -/

/-- The decimal's double is in range. -/
def DecimalFits (text : String) : Prop := Answers (decimalTextToFloat D text)

/-- A number, with a double if it is a decimal. -/
def NumFits : SqlValue → Prop
  | .sqlInt _ | .sqlFloat _ | .sqlInterval _ => True
  | .sqlDecimal s => DecimalFits D s
  | _ => False

/-- The running sum stays in range. -/
def SumFits : Num → List SqlValue → Prop
  | _, [] => True
  | acc, v :: vs =>
    NumFits D v ∧ ∀ n, memNum D v = .ok n →
      Answers (acc.add D n) ∧ ∀ acc', acc.add D n = .ok acc' → SumFits acc' vs

def isDecimalOrInt : SqlValue → Bool
  | .sqlDecimal _ | .sqlInt _ => true
  | _ => false

def QuietSum (values : List SqlValue) : Prop :=
  if values.any isDecimalVal then ∀ v ∈ values, isDecimalOrInt v = true
  else if values.any isIntervalVal then ∀ v ∈ values, isIntervalVal v = true
  else SumFits D (.int 0) values

def QuietAvg (values : List SqlValue) : Prop :=
  SumFits D (.int 0) values ∧
    ∀ sum, memNumsum D values = .ok sum → Answers (sum.divLength D values.length)

mutual

/-- No NULL inside, and every decimal has a double. -/
def KeyFits : SqlValue → Prop
  | .sqlDecimal s => DecimalFits D s
  | .sqlArray elems => KeysFit elems
  | .sqlNull => False
  | _ => True

def KeysFit : List SqlValue → Prop
  | [] => True
  | v :: vs => KeyFits v ∧ KeysFit vs

end

/-- One value is its own extreme, uncompared. -/
def QuietExtreme (values : List SqlValue) : Prop :=
  1 < values.length → ∀ v ∈ values, KeyFits D v

/-- What the aggregate folds is within its clauses. -/
def QuietAgg (func : String) (values : List SqlValue) : Prop :=
  values ≠ [] →
    match func with
    | "SUM" => QuietSum D values
    | "AVG" | "AVG_INTERVAL" => QuietAvg D values
    | "MIN" | "MAX" => QuietExtreme D values
    | _ => True

/-- The cells an aggregate over these rows reads. -/
def aggCells (rows : List SqlRow) (row : SqlRow) : Cells :=
  if memRowsPrefixed rows then flatCells row else bareCells row

def QuietAggValue (func : String) (column : QExpr) (rows : List SqlRow) : Prop :=
  (∀ row ∈ rows, QuietScalar D (aggCells rows row) column) ∧
    ∀ values, memAggValues D column rows = .ok values → QuietAgg D func values

end

section

variable {D : Doubles}

variable {v : SqlValue}

theorem answers_memNum : Answers (memNum D v) ↔ NumFits D v := by
  cases v <;> first
    | exact iff_of_true (answers_ok _) trivial
    | exact iff_of_false (not_answers_error _) False.elim
    | exact answers_map

theorem answers_memNumsum {acc : Num} :
    Answers (values.foldlM (fun acc v => do acc.add D (← memNum D v)) acc) ↔
      SumFits D acc values := by
  induction values generalizing acc with
  | nil => exact iff_of_true (answers_pure acc) trivial
  | cons v vs ih =>
    unfold SumFits
    rw [answers_foldlM_cons, answers_bind, answers_memNum, and_assoc]
    refine and_congr_right fun hv => ?_
    obtain ⟨n, hn⟩ := answers_memNum.mpr hv
    rw [hn]
    refine ⟨fun h n' hn' => ?_, fun h => ⟨fun n' hn' => (h n' hn').1, fun acc' hacc => ?_⟩⟩
    · exact ⟨h.1 n' hn', fun acc' hacc => ih.mp (h.2 acc' (by cases hn'; exact hacc))⟩
    · exact ih.mpr ((h n rfl).2 acc' hacc)

theorem answers_decimalOfValue : Answers (decimalOfValue v) ↔ isDecimalOrInt v = true := by
  cases v <;> first
    | exact iff_of_true (answers_ok _) rfl
    | exact iff_of_false (not_answers_error _) Bool.false_ne_true

theorem answers_intervalOf : Answers (intervalOf v) ↔ isIntervalVal v = true := by
  cases v <;> first
    | exact iff_of_true (answers_ok _) rfl
    | exact iff_of_false (not_answers_error _) Bool.false_ne_true

/-- A sum that is still an integer has met no float. -/
theorem no_float_of_numsum_int {acc : Num} {n : Int}
    (h : values.foldlM (fun acc v => do acc.add D (← memNum D v)) acc = .ok (.int n)) :
    (∃ m, acc = .int m) ∧ values.any isFloatVal = false := by
  induction values generalizing acc with
  | nil => exact ⟨⟨n, Except.ok.inj h⟩, rfl⟩
  | cons v vs ih =>
    rw [foldlM_cons] at h
    obtain ⟨acc', hstep, hrest⟩ := eval_bind_eq_ok.mp h
    obtain ⟨m, hm, hadd⟩ := eval_bind_eq_ok.mp hstep
    obtain ⟨⟨k, rfl⟩, hnone⟩ := ih hrest
    -- Only two integers add up to an integer.
    have hints : (∃ a, acc = .int a) ∧ ∃ b, m = .int b := by
      cases acc with
      | int a =>
        cases m with
        | int b => exact ⟨⟨a, rfl⟩, b, rfl⟩
        | float y =>
          obtain ⟨x, _, hx⟩ := eval_bind_eq_ok.mp hadd
          obtain ⟨y, _, hy⟩ := eval_bind_eq_ok.mp hx
          obtain ⟨_, _, hz⟩ := eval_map_eq_ok.mp hy
          cases hz
      | float x =>
        obtain ⟨x, _, hx⟩ := eval_bind_eq_ok.mp hadd
        obtain ⟨y, _, hy⟩ := eval_bind_eq_ok.mp hx
        obtain ⟨_, _, hz⟩ := eval_map_eq_ok.mp hy
        cases hz
    obtain ⟨hacc, b, rfl⟩ := hints
    refine ⟨hacc, ?_⟩
    rw [List.any_cons, hnone, Bool.or_false]
    cases v <;> first
      | rfl
      | cases hm

theorem answers_memSum : Answers (memSum D values) ↔ QuietSum D values := by
  unfold memSum QuietSum
  split
  · unfold memSumDecimal
    rw [answers_bind, answers_foldlM_pure]
    simp only [answers_decimalOfValue]
    exact and_iff_left fun _ _ => answers_pure _
  · split
    · unfold memSumInterval
      rw [answers_bind, answers_foldlM_pure]
      simp only [answers_intervalOf]
      exact and_iff_left fun _ _ => answers_pure _
    · unfold memNumsum
      rw [answers_bind, answers_memNumsum]
      refine and_iff_left fun sum hsum => ?_
      cases sum with
      | float x => exact answers_pure _
      | int n =>
        show Answers (if values.any isFloatVal then _ else _)
        rw [(no_float_of_numsum_int hsum).2]
        exact answers_pure _

mutual

theorem answers_memKey : ∀ {v : SqlValue}, Answers (memKey D v) ↔ KeyFits D v
  | .sqlDecimal s => by
    unfold memKey KeyFits
    rw [answers_bind]
    exact and_iff_left fun _ _ => answers_pure _
  | .sqlArray elems => by
    unfold memKey KeyFits
    rw [answers_bind_pure, answers_memKeys]
  | .sqlNull => iff_of_false (not_answers_error _) False.elim
  | .sqlInt _ | .sqlText _ | .sqlBool _ | .sqlFloat _ | .sqlInstant _ | .sqlUuid _ | .sqlBytes _
  | .sqlJson _ | .sqlDate _ | .sqlTime _ | .sqlInterval _ => iff_of_true (answers_ok _) trivial

theorem answers_memKeys : ∀ {vs : List SqlValue}, Answers (memKeys D vs) ↔ KeysFit D vs
  | [] => iff_of_true (answers_ok _) trivial
  | v :: vs => by
    unfold memKeys KeysFit
    rw [answers_bind₂_pure, answers_memKey, answers_memKeys]

end

variable {rest : List SqlValue}

variable {dir : ExtremeDir}

theorem answers_memExtreme {best : SqlValue} :
    Answers (memExtreme D dir rest best) ↔
      (rest ≠ [] → KeyFits D best) ∧ ∀ v ∈ rest, KeyFits D v := by
  induction rest generalizing best with
  | nil => exact iff_of_true (answers_ok best) ⟨fun h => absurd rfl h, nofun⟩
  | cons v rest ih =>
    unfold memExtreme
    rw [answers_bind₂, answers_memKey, answers_memKey, forall_mem_cons]
    refine ⟨fun ⟨hv, hbest, h⟩ => ⟨fun _ => hbest, hv, ?_⟩, fun ⟨hbest, hv, h⟩ => ?_⟩
    · obtain ⟨k, hk⟩ := answers_memKey.mpr hv
      obtain ⟨b, hb⟩ := answers_memKey.mpr hbest
      have hrest := h k b hk hb
      by_cases hbetter : memBetter dir k b = true
      · rw [if_pos hbetter] at hrest
        exact (ih.mp hrest).2
      · rw [if_neg hbetter] at hrest
        exact (ih.mp hrest).2
    · refine ⟨hv, hbest (cons_ne_nil _ _), fun k b _ _ => ?_⟩
      by_cases hbetter : memBetter dir k b = true
      · rw [if_pos hbetter]
        exact ih.mpr ⟨fun _ => hv, h⟩
      · rw [if_neg hbetter]
        exact ih.mpr ⟨fun _ => hbest (cons_ne_nil _ _), h⟩

theorem answers_memExtreme_cons :
    Answers (memExtreme D dir rest v) ↔ QuietExtreme D (v :: rest) := by
  rw [answers_memExtreme]
  unfold QuietExtreme
  rw [forall_mem_cons]
  cases rest with
  | nil => exact iff_of_true ⟨fun h => absurd rfl h, nofun⟩ fun h => absurd h (Nat.lt_irrefl 1)
  | cons w rest =>
    refine ⟨fun h _ => ⟨h.1 (cons_ne_nil _ _), h.2⟩, fun h => ?_⟩
    have hlength : 1 < (v :: w :: rest).length := by
      rw [length_cons, length_cons]
      omega
    exact ⟨fun _ => (h hlength).1, (h hlength).2⟩

theorem answers_memAvg :
    Answers (do .sqlFloat <$> (← memNumsum D (v :: rest)).divLength D (rest.length + 1) :
      Eval SqlValue) ↔ QuietAvg D (v :: rest) := by
  unfold QuietAvg
  rw [answers_bind]
  unfold memNumsum
  rw [answers_memNumsum]
  simp only [answers_map, length_cons]

variable {func : String}

theorem answers_memAgg : Answers (memAgg D func values) ↔ QuietAgg D func values := by
  cases values with
  | nil => exact iff_of_true (answers_ok _) fun h => absurd rfl h
  | cons v rest =>
    have hne : v :: rest ≠ [] := cons_ne_nil _ _
    unfold QuietAgg
    show Answers (match func with
      | "SUM" => memSum D (v :: rest)
      | "AVG" | "AVG_INTERVAL" => do
        .sqlFloat <$> (← memNumsum D (v :: rest)).divLength D (rest.length + 1)
      | "MIN" => memExtreme D .min rest v
      | "MAX" => memExtreme D .max rest v
      | _ => .ok .sqlNull) ↔ _
    split
    · exact answers_memSum.trans ⟨fun h _ => h, fun h => h hne⟩
    · exact answers_memAvg.trans ⟨fun h _ => h, fun h => h hne⟩
    · exact answers_memAvg.trans ⟨fun h _ => h, fun h => h hne⟩
    · exact answers_memExtreme_cons.trans ⟨fun h _ => h, fun h => h hne⟩
    · exact answers_memExtreme_cons.trans ⟨fun h _ => h, fun h => h hne⟩
    · exact iff_of_true (answers_ok _) fun _ => trivial

theorem answers_memAggValueQ {column : QExpr} {rows : List SqlRow} :
    Answers (memAggValueQ D func column rows) ↔ QuietAggValue D func column rows := by
  have hcells : ∀ row, (if memRowsPrefixed rows then memNscalar D else memScalar D) row column =
      scalarWith D (aggCells rows row) column := by
    intro row
    unfold aggCells
    split <;> rfl
  unfold memAggValueQ QuietAggValue
  rw [answers_bind]
  simp only [answers_memAgg]
  refine and_congr_left fun _ => ?_
  unfold memAggValues
  rw [answers_bind, answers_mapM]
  simp only [hcells, answers_scalarWith]
  exact and_iff_left fun _ _ => answers_pure _

end

end Ridge
