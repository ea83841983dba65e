import Ridge.Mem.Rows
import Ridge.Repo.Query

/-!
# std.repo — the terminals of a query see the rows of `toList`

Every terminal builds a plan of its own from the builder's fields. `Sees` says what each has to
answer when `toList` reads given rows; `Careful` is when its plan carries what that takes. `select`
and the aggregates leave the plan that a set operation captured out, and `first` and `single` the
limit.
-/

namespace Ridge

open List Query

variable {E : ErlRuntime} {tables : Tables}

/-! ## The rows before duplicates and pages -/

namespace Query

/-- The rows a query keeps, in their order. -/
def matched (E : ErlRuntime) (tables : Tables) (q : Query) : Eval (List SqlRow) :=
  match q.plan with
  | none =>
    memFilter (fun row => memPredStore E.doubles tables row q.pred) (rowsOf q.table tables) >>=
      memOrder E q.orders
  | some p =>
    memEvalPlan E tables p >>= fun rows =>
      memRefineMatches E tables p q.pred rows >>= memOrder E q.orders

variable (q : Query)

def page (lim : Int) (rows : List SqlRow) : List SqlRow :=
  memPaginate (memDistinct q.dist rows) lim q.off

theorem eval_scan (hplan : q.plan = none) (lim off : Int) (dist : Bool) :
    memEvalPlan E tables (.planScan q.table q.pred q.orders lim off dist) =
      (fun rows => memPaginate (memDistinct dist rows) lim off) <$> q.matched E tables := by
  rw [matched, hplan]
  unfold memEvalPlan
  simp only [map_eq_pure_bind, bind_assoc]

theorem eval_refine {p : QueryPlan} (hplan : q.plan = some p) (lim off : Int) (dist : Bool) :
    memEvalPlan E tables (.planRefine p q.pred q.orders lim off dist) =
      (fun rows => memPaginate (memDistinct dist rows) lim off) <$> q.matched E tables := by
  rw [memEvalPlan_refine, matched, hplan]

theorem queryRows_eq : q.queryRows E tables = q.page q.lim <$> q.matched E tables := by
  unfold queryRows
  split
  · next h => exact q.eval_scan h q.lim q.off q.dist
  · next p h =>
    unfold planOf
    rw [h]
    exact q.eval_refine h q.lim q.off q.dist

theorem fetchRows_eq (hplan : q.plan = none) (lim : Int) :
    q.fetchRows E tables lim = q.page lim <$> q.matched E tables :=
  q.eval_scan hplan lim q.off q.dist

end Query

/-! ## What a terminal has to answer -/

inductive RowTerminal where
  | count
  | exists'
  | first
  | select (projection : QExpr)
  | aggregate (verb : Aggregation) (column : QExpr)
  | every (pred : QExpr)
  | single

def Query.answer (E : ErlRuntime) (tables : Tables) (q : Query) : RowTerminal → Eval Answer
  | .count => q.run E tables .count
  | .exists' => q.run E tables .exists'
  | .first => q.run E tables .first
  | .select projection => q.run E tables (.select projection)
  | .aggregate verb column => q.run E tables (.aggregate verb column)
  | .every pred => q.run E tables (.every pred)
  | .single => q.single E tables

/-- What `rows`, those of `toList`, make of a terminal. A `select` projects the rows that `toList`
pages, and has its duplicates removed and its page cut after that: without `distinct` this is the
projection of each row of `toList`. -/
def Sees (E : ErlRuntime) (tables : Tables) (q : Query) (rows : List SqlRow) : RowTerminal → Prop
  | .count => q.answer E tables .count = .ok (.count rows.length)
  | .exists' => q.answer E tables .exists' = .ok (.truth (nonEmpty rows))
  | .first => q.answer E tables .first = .ok (.row rows.head?)
  | .select projection =>
    ∀ out, q.answer E tables (.select projection) = .ok (.rows out) →
      (∃ kept cells, q.matched E tables = .ok kept ∧
        kept.mapM (memProjectPrefixed E projection) = .ok cells ∧ out = q.page q.lim cells) ∧
      (q.dist = false → rows.mapM (memProjectPrefixed E projection) = .ok out)
  | .aggregate verb column =>
    q.answer E tables (.aggregate verb column) =
      (fun v => .cell (if v = .sqlNull then none else some v)) <$>
        memAggValueQ E.doubles (verb.func column) (aggColumn column) rows
  | .every pred =>
    ∀ holds, rows.mapM (fun row => memPredStore E.doubles tables row pred) = .ok holds →
      q.answer E tables (.every pred) = .ok (.truth (holds.all id))
  | .single =>
    ∃ a, q.answer E tables .single = .ok a ∧ ((∃ row, a = .row row) ↔ rows.length ≤ 1) ∧
      ∀ row, a = .row row → row = rows.head?

/-- A terminal whose plan carries what the builder holds. -/
def Careful (q : Query) : RowTerminal → Prop
  | .count | .exists' | .every _ => True
  | .first => q.plan = none → q.lim ≠ 0
  | .select _ | .aggregate _ _ => q.plan = none
  | .single => q.plan = none ∧ (q.lim < 0 ∨ 2 ≤ q.lim)

/-! ## Each terminal -/

/-- A plan that a set operation captured, as far as one has been. -/
def Query.Captured (q : Query) : Prop :=
  ∀ p, q.plan = some p → ∃ operation l r, p = .planCombine operation l r

theorem captured_toQuery (p : Pipeline) : p.toQuery.Captured := by
  induction p with
  | source table => exact fun _ h => nomatch h
  | combine verb other p _ _ =>
    intro plan h
    cases h
    exact ⟨_, _, _, rfl⟩
  | filter pred p ih => exact ih
  | orderBy direction key p ih => exact ih
  | limit n p ih => exact ih
  | offset n p ih => exact ih
  | distinct p ih => exact ih

section

variable {q : Query} {rows kept : List SqlRow}

theorem sees_count (hrows : q.queryRows E tables = .ok rows) : Sees E tables q rows .count := by
  show q.countQuery E tables = .ok (.count rows.length)
  unfold countQuery
  unfold queryRows Query.planOf at hrows
  split
  · next h =>
    rw [h] at hrows
    have hscan : memEvalPlan E tables (.planScan q.table q.pred q.orders q.lim q.off q.dist) =
        .ok rows := hrows
    rw [memEvalPlan_count, hscan]
    rfl
  · next p h =>
    rw [h] at hrows
    dsimp only at hrows
    rw [hrows]
    rfl

/-- One row of the window answers for all of them, if there is a window. -/
theorem nonEmpty_probe (kept : List SqlRow) :
    nonEmpty (q.page (probeLim q.lim) kept) = nonEmpty (q.page q.lim kept) := by
  have htake : ∀ l : List SqlRow, nonEmpty (l.take 1) = nonEmpty l := fun l => by
    cases l <;> rfl
  unfold probeLim Query.page
  split
  · rw [show (1 : Int) = (1 : Nat) from rfl, memPaginate_take (n := 1) (.inl ‹_›), htake]
  · split
    · rfl
    · rw [show (1 : Int) = (1 : Nat) from rfl,
        memPaginate_take (n := 1) (.inr (show ((1 : Nat) : Int) ≤ q.lim by omega)), htake]

theorem sees_exists (hrows : q.queryRows E tables = .ok rows) : Sees E tables q rows .exists' := by
  rw [queryRows_eq] at hrows
  obtain ⟨kept, hkept, rfl⟩ := eval_map_eq_ok.mp hrows
  show q.existsQuery E tables = _
  unfold existsQuery
  split
  · next h =>
    rw [q.fetchRows_eq h, hkept]
    exact congrArg (fun b => Except.ok (Answer.truth b)) (nonEmpty_probe kept)
  · next p h =>
    rw [q.eval_refine h, hkept]
    exact congrArg (fun b => Except.ok (Answer.truth b)) (nonEmpty_probe kept)

theorem head_page_one (hlim : q.lim ≠ 0) (kept : List SqlRow) :
    (q.page 1 kept).head? = (q.page q.lim kept).head? := by
  have hle : q.lim < 0 ∨ ((1 : Nat) : Int) ≤ q.lim := by omega
  unfold Query.page
  rw [show (1 : Int) = (1 : Nat) from rfl, memPaginate_take hle]
  rw [head?_take, if_neg (by decide)]

theorem sees_first (hrows : q.queryRows E tables = .ok rows) (hlim : q.plan = none → q.lim ≠ 0) :
    Sees E tables q rows .first := by
  show q.run E tables .first = _
  unfold Query.run
  cases hplan : q.plan with
  | none =>
    rw [queryRows_eq] at hrows
    obtain ⟨kept, hkept, rfl⟩ := eval_map_eq_ok.mp hrows
    dsimp only
    rw [q.fetchRows_eq hplan, hkept]
    exact congrArg (fun r => Except.ok (Answer.row r)) (head_page_one (hlim hplan) kept)
  | some p =>
    unfold queryRows at hrows
    rw [hplan] at hrows
    dsimp only at hrows ⊢
    rw [hrows]
    rfl

theorem sees_select (hrows : q.queryRows E tables = .ok rows) (hplan : q.plan = none)
    (projection : QExpr) : Sees E tables q rows (.select projection) := by
  intro out hout
  rw [queryRows_eq] at hrows
  obtain ⟨kept, hkept, rfl⟩ := eval_map_eq_ok.mp hrows
  obtain ⟨out', hout', heq⟩ := eval_map_eq_ok.mp hout
  cases heq
  unfold selectPlan at hout'
  rw [memEvalPlan_project, q.eval_scan hplan, hkept] at hout'
  -- The scan below the projection neither removes duplicates nor cuts a page.
  have hall : memPaginate (memDistinct false kept) (-1) 0 = kept :=
    memPaginate_unpaged (by decide) (by decide)
  have hchild : ((fun rows => memPaginate (memDistinct false rows) (-1) 0) <$>
      (Except.ok kept : Eval (List SqlRow))) = .ok kept := congrArg Except.ok hall
  rw [hchild] at hout'
  obtain ⟨cells, hcells, rfl⟩ := eval_map_eq_ok.mp hout'
  refine ⟨⟨kept, cells, hkept, hcells, rfl⟩, fun hdist => ?_⟩
  unfold page memDistinct
  rw [hdist]
  exact mapM_eq_ok.mpr (forall₂_memPaginate (mapM_eq_ok.mp hcells) q.lim q.off)

theorem func_ne_count (verb : Aggregation) (column : QExpr) : verb.func column ≠ "COUNT" := by
  cases verb with
  | avgOf =>
    unfold Aggregation.func avgFuncFor
    dsimp only
    split <;> exact fun h => absurd h (by decide)
  | sumOf =>
    show "SUM" ≠ "COUNT"
    decide
  | minOf =>
    show "MIN" ≠ "COUNT"
    decide
  | maxOf =>
    show "MAX" ≠ "COUNT"
    decide

theorem sees_aggregate (hrows : q.queryRows E tables = .ok rows) (hplan : q.plan = none)
    (verb : Aggregation) (column : QExpr) : Sees E tables q rows (.aggregate verb column) := by
  have hscan : memEvalPlan E tables (.planScan q.table q.pred q.orders q.lim q.off q.dist) =
      .ok rows := by
    unfold queryRows at hrows
    rw [hplan] at hrows
    exact hrows
  show q.run E tables (.aggregate verb column) = _
  unfold Query.run scalarPlan
  dsimp only
  rw [memEvalPlan_aggregate (func_ne_count verb column), hscan]
  show ((fun v => if v = .sqlNull then [] else [[("agg", v)]]) <$>
    memAggValueQ E.doubles (verb.func column) (aggColumn column) rows >>= fun out =>
      pure (Answer.cell (firstAggCell out))) = _
  cases memAggValueQ E.doubles (verb.func column) (aggColumn column) rows with
  | error c => rfl
  | ok v =>
    show (Except.ok (Answer.cell (firstAggCell (if v = .sqlNull then [] else [[("agg", v)]]))) :
      Eval Answer) = .ok (.cell (if v = .sqlNull then none else some v))
    split <;> rfl

theorem sees_single (hrows : q.queryRows E tables = .ok rows) (hplan : q.plan = none)
    (hlim : q.lim < 0 ∨ 2 ≤ q.lim) : Sees E tables q rows .single := by
  rw [queryRows_eq] at hrows
  obtain ⟨kept, hkept, rfl⟩ := eval_map_eq_ok.mp hrows
  have htwo : q.page 2 kept = (q.page q.lim kept).take 2 :=
    memPaginate_take (n := 2) hlim
  have hfetch : q.fetchRows E tables 2 = .ok ((q.page q.lim kept).take 2) := by
    rw [q.fetchRows_eq hplan, hkept, ← htwo]
    rfl
  show ∃ a, q.single E tables = .ok a ∧ _
  unfold Query.single
  rw [hfetch]
  rcases hl : q.page q.lim kept with _ | ⟨row, _ | ⟨row', rest⟩⟩
  · exact ⟨_, rfl, ⟨fun _ => Nat.zero_le _, fun _ => ⟨none, rfl⟩⟩, fun _ h => by cases h; rfl⟩
  · exact ⟨_, rfl, ⟨fun _ => Nat.le_refl _, fun _ => ⟨some row, rfl⟩⟩, fun _ h => by cases h; rfl⟩
  · refine ⟨_, rfl, ⟨fun ⟨_, h⟩ => (nomatch h), fun h => ?_⟩, fun _ h => (nomatch h)⟩
    simp only [length_cons] at h
    omega

/-! ## `every` -/

theorem perm_memOrder {orders : List (Bool × QExpr)} {kept' : List SqlRow}
    (h : memOrder E orders kept = .ok kept') : kept'.Perm kept := by
  cases orders with
  | nil =>
    cases h
    exact List.Perm.refl _
  | cons o os => exact E.sorting.perm h

def Query.base (E : ErlRuntime) (tables : Tables) (q : Query) : Eval (List SqlRow) :=
  match q.plan with
  | none => .ok (rowsOf q.table tables)
  | some p => memEvalPlan E tables p

theorem matched_eq (hq : q.Captured) :
    q.matched E tables =
      q.base E tables >>= fun rows =>
        memFilter (fun row => memPredStore E.doubles tables row q.pred) rows >>=
          memOrder E q.orders := by
  unfold Query.matched Query.base
  cases hplan : q.plan with
  | none => rfl
  | some p =>
    obtain ⟨operation, l, r, rfl⟩ := hq p hplan
    rfl

variable {test : SqlRow → Eval Bool}

variable {holds : List Bool}

theorem holds_of_mapM (h : rows.mapM test = .ok holds) :
    (∀ row ∈ rows, ∃ b, test row = .ok b) ∧
      (holds.all id = true ↔ ∀ row ∈ rows, test row = .ok true) := by
  have hforall := mapM_eq_ok.mp h
  clear h
  induction hforall with
  | nil => exact ⟨fun _ h => (nomatch h), fun _ _ h => (nomatch h), fun _ => rfl⟩
  | @cons row b rows holds hrow _ ih =>
    refine ⟨fun x hx => ?_, ?_⟩
    · rcases mem_cons.mp hx with rfl | hx
      · exact ⟨b, hrow⟩
      · exact ih.1 x hx
    · rw [all_cons, Bool.and_eq_true, ih.2, forall_mem_cons, hrow, Except.ok.injEq]
      rfl

variable {l : List SqlRow}

/-- Whether a probe of the rows finds one that violates the predicate. -/
theorem nonEmpty_violators (h : rows.mapM test = .ok holds) (hmem : ∀ row, row ∈ l ↔ row ∈ rows) :
    nonEmpty (l.filter fun row => isTrue (not <$> test row)) = !holds.all id := by
  obtain ⟨hok, hall⟩ := holds_of_mapM h
  have hiff : nonEmpty (l.filter fun row => isTrue (not <$> test row)) = true ↔
      ¬ holds.all id = true := by
    rw [hall, not_forall]
    have hne : ∀ l : List SqlRow, nonEmpty l = true ↔ ∃ row, row ∈ l := fun l => by
      cases l with
      | nil => simp [nonEmpty]
      | cons row l => exact ⟨fun _ => ⟨row, mem_cons_self⟩, fun _ => rfl⟩
    rw [hne]
    refine exists_congr fun row => ?_
    rw [mem_filter, hmem, not_forall]
    refine ⟨fun ⟨hrow, hviol⟩ => ⟨hrow, fun htrue => ?_⟩, fun ⟨hrow, hnot⟩ => ⟨hrow, ?_⟩⟩
    · rw [htrue] at hviol
      cases hviol
    · obtain ⟨b, hb⟩ := hok row hrow
      cases b with
      | true => exact absurd hb hnot
      | false =>
        rw [hb]
        rfl
  cases hb : holds.all id with
  | true =>
    rw [hb] at hiff
    exact Bool.eq_false_iff.mpr fun ht => hiff.mp ht rfl
  | false =>
    rw [hb] at hiff
    exact hiff.mpr Bool.false_ne_true

/-- What `every` answers over the rows it is about. -/
def EveryOf (test : SqlRow → Eval Bool) (rows : List SqlRow) (a : Answer) : Prop :=
  ∃ holds, rows.mapM test = .ok holds ∧ a = .truth (holds.all id)

theorem nonEmpty_take_one (l : List SqlRow) : nonEmpty (l.take 1) = nonEmpty l := by
  cases l <;> rfl

/-- A probe that answers with the first violator among rows with the members of `rows`. -/
theorem everyOf_iff_probe {probe : Eval (List SqlRow)} (hmem : ∀ row, row ∈ l ↔ row ∈ rows)
    (hprobe : ∀ out, probe = .ok out ↔ (∀ row ∈ l, ∃ b, test row = .ok b) ∧ out = (l.filter fun row => isTrue (not <$> test row)).take 1)
    (a : Answer) :
    (do pure (Answer.truth !nonEmpty (← probe)) : Eval Answer) = .ok a ↔ EveryOf test rows a := by
  refine ⟨fun h => ?_, fun ⟨holds, hholds, ha⟩ => ?_⟩
  · obtain ⟨out, hout, ha⟩ := eval_bind_eq_ok.mp h
    obtain ⟨hok, rfl⟩ := (hprobe out).mp hout
    obtain ⟨holds, hholds⟩ :=
      exists_mapM_eq_ok (f := test) fun row hrow => hok row ((hmem row).mpr hrow)
    refine ⟨holds, hholds, ?_⟩
    rw [nonEmpty_take_one, nonEmpty_violators hholds hmem, Bool.not_not] at ha
    exact (Except.ok.inj ha).symm
  · have hok := (holds_of_mapM hholds).1
    have hout := (hprobe _).mpr ⟨fun row hrow => hok row ((hmem row).mp hrow), rfl⟩
    rw [hout, ha]
    show (Except.ok (Answer.truth !nonEmpty (List.take 1 _)) : Eval Answer) = _
    rw [nonEmpty_take_one, nonEmpty_violators hholds hmem, Bool.not_not]

theorem memPredStore_notTrue (row : SqlRow) (pred : QExpr) :
    memPredStore E.doubles tables row (notTrue pred) =
      not <$> memPredStore E.doubles tables row pred := by
  unfold notTrue
  conv_lhs => unfold memPredStore
  rfl

variable {own pred : QExpr}

theorem memPredStore_violator {row : SqlRow} {b : Bool}
    (hb : memPredStore E.doubles tables row own = .ok b) :
    memPredStore E.doubles tables row (quoteAnd own (notTrue pred)) =
      if b then not <$> memPredStore E.doubles tables row pred else .ok false := by
  unfold quoteAnd
  conv_lhs => unfold memPredStore
  rw [hb, memPredStore_notTrue]
  rfl

theorem ok_not_iff {x : Eval Bool} : (∃ b, not <$> x = .ok b) ↔ ∃ b, x = .ok b := by
  cases x with
  | error c => exact ⟨fun ⟨_, h⟩ => (nomatch h), fun ⟨_, h⟩ => (nomatch h)⟩
  | ok b => exact ⟨fun _ => ⟨b, rfl⟩, fun _ => ⟨!b, rfl⟩⟩

theorem eval_windowProbe {inner : QueryPlan} (hinner : ∀ k l r c w o li of' d lc rc,
      inner ≠ .planJoin k l r c w o li of' d lc rc) {pred : QExpr}
    (hrows : memEvalPlan E tables inner = .ok rows) (out : List SqlRow) :
    memEvalPlan E tables (.planRefine inner (notTrue pred) [] 1 0 false) = .ok out ↔
      (∀ row ∈ rows, ∃ b, memPredStore E.doubles tables row pred = .ok b) ∧
        out = (rows.filter fun row =>
          isTrue (not <$> memPredStore E.doubles tables row pred)).take 1 := by
  have hmatches : memRefineMatches E tables inner (notTrue pred) rows =
      memFilter (fun row => memPredStore E.doubles tables row (notTrue pred)) rows := by
    unfold memRefineMatches
    split
    · next h => exact absurd rfl (hinner _ _ _ _ _ _ _ _ _ _ _)
    · rfl
  have hpure : ∀ x : Eval (List SqlRow), x >>= memOrder E [] = x := fun x => by
    cases x <;> rfl
  rw [memEvalPlan_refine, hrows]
  show (_ <$> (memRefineMatches E tables inner (notTrue pred) rows >>= memOrder E [])) = _ ↔ _
  rw [hmatches, hpure, eval_map_eq_ok]
  simp only [memFilter_eq_ok, memPredStore_notTrue, ok_not_iff]
  constructor
  · rintro ⟨_, ⟨hok, hl⟩, hout⟩
    exact ⟨hok, by rw [← hout, hl]; rfl⟩
  · rintro ⟨hok, hout⟩
    exact ⟨_, ⟨hok, rfl⟩, hout.symm⟩

/-- The filter of the unpaged probe: of the rows a filter keeps, those that violate `pred`. -/
theorem memFilter_violators {base kept : List SqlRow}
    (hkept : memFilter (fun row => memPredStore E.doubles tables row own) base = .ok kept)
    (out : List SqlRow) :
    memFilter (fun row => memPredStore E.doubles tables row (quoteAnd own (notTrue pred))) base =
        .ok out ↔
      (∀ row ∈ kept, ∃ b, memPredStore E.doubles tables row pred = .ok b) ∧
        out = kept.filter fun row => isTrue (not <$> memPredStore E.doubles tables row pred) := by
  obtain ⟨hall, rfl⟩ := memFilter_eq_ok.mp hkept
  have hfilter : (base.filter fun row => isTrue (memPredStore E.doubles tables row
        (quoteAnd own (notTrue pred)))) =
      (base.filter fun row => isTrue (memPredStore E.doubles tables row own)).filter fun row =>
        isTrue (not <$> memPredStore E.doubles tables row pred) := by
    rw [filter_filter]
    refine filter_congr fun row hrow => ?_
    obtain ⟨b, hb⟩ := hall row hrow
    rw [memPredStore_violator hb, hb]
    cases b with
    | false => rw [isTrue_ok, Bool.and_false]; rfl
    | true => rw [isTrue_ok, Bool.and_true]; rfl
  rw [memFilter_eq_ok, hfilter]
  refine and_congr_left fun _ => ⟨fun h row hrow => ?_, fun h row hrow => ?_⟩
  · obtain ⟨hrow, htrue⟩ := mem_filter.mp hrow
    obtain ⟨b, hb⟩ := hall row hrow
    rw [hb] at htrue
    cases htrue
    have hviol := h row hrow
    rw [memPredStore_violator hb] at hviol
    exact ok_not_iff.mp hviol
  · obtain ⟨b, hb⟩ := hall row hrow
    rw [memPredStore_violator hb]
    cases b with
    | false => exact ⟨false, rfl⟩
    | true => exact ok_not_iff.mpr (h row (mem_filter.mpr ⟨hrow, by rw [hb]; rfl⟩))

theorem planOf_ne_join (q : Query) : ∀ k l r c w o li of' d lc rc,
    q.planOf ≠ .planJoin k l r c w o li of' d lc rc := by
  intro k l r c w o li of' d lc rc
  unfold Query.planOf
  cases q.plan <;> exact fun h => nomatch h

theorem eval_planOf (hrows : q.queryRows E tables = .ok rows) :
    memEvalPlan E tables q.planOf = .ok rows := by
  unfold queryRows Query.planOf at hrows
  unfold Query.planOf
  cases hp : q.plan with
  | none | some p =>
    rw [hp] at hrows
    exact hrows

theorem every_iff (hq : q.Captured) (hrows : q.queryRows E tables = .ok rows) (pred : QExpr)
    (a : Answer) :
    q.run E tables (.every pred) = .ok a ↔
      EveryOf (fun row => memPredStore E.doubles tables row pred) rows a := by
  unfold Query.run
  cases hpaged : isWindowPaged q.lim q.off with
  | true =>
    -- The window, then the probe of it.
    have hplan : q.everyPlan pred = .planRefine q.planOf (notTrue pred) [] 1 0 false := by
      unfold everyPlan Query.planOf
      rw [hpaged]
      cases q.plan <;> rfl
    refine everyOf_iff_probe (fun _ => Iff.rfl) ?_ a
    rw [hplan]
    exact eval_windowProbe (planOf_ne_join q) (eval_planOf hrows)
  | false =>
    -- The violation joins the query's own filter; order, page and duplicates do not matter.
    have hunpaged : q.lim < 0 ∧ q.off ≤ 0 := by
      unfold isWindowPaged at hpaged
      rw [Bool.or_eq_false_iff, decide_eq_false_iff_not, decide_eq_false_iff_not] at hpaged
      omega
    rw [queryRows_eq, matched_eq hq] at hrows
    obtain ⟨sorted, hsorted, rfl⟩ := eval_map_eq_ok.mp hrows
    obtain ⟨base, hbase, hsorted⟩ := eval_bind_eq_ok.mp hsorted
    obtain ⟨kept, hkept, hsorted⟩ := eval_bind_eq_ok.mp hsorted
    have hmem : ∀ row, row ∈ kept ↔ row ∈ q.page q.lim sorted := fun row => by
      unfold Query.page
      rw [memPaginate_unpaged hunpaged.1 hunpaged.2, mem_memDistinct,
        (perm_memOrder hsorted).mem_iff]
    let q' : Query := { q with pred := quoteAnd q.pred (notTrue pred), orders := [] }
    have hmatched : q'.matched E tables = memFilter (fun row => memPredStore E.doubles tables row
        (quoteAnd q.pred (notTrue pred))) base := by
      have hbase' : q'.base E tables = .ok base := hbase
      rw [matched_eq (q := q') hq, hbase']
      show (memFilter _ base >>= memOrder E []) = _
      cases memFilter (fun row => memPredStore E.doubles tables row
        (quoteAnd q.pred (notTrue pred))) base <;> rfl
    have heval : memEvalPlan E tables (q.everyPlan pred) =
        (fun rows => memPaginate (memDistinct false rows) 1 0) <$> q'.matched E tables := by
      unfold everyPlan
      rw [hpaged]
      cases hplan : q.plan with
      | none => exact q'.eval_scan hplan 1 0 false
      | some p => exact q'.eval_refine hplan 1 0 false
    refine everyOf_iff_probe hmem (fun out => ?_) a
    rw [heval, hmatched, eval_map_eq_ok]
    simp only [memFilter_violators hkept]
    exact ⟨fun ⟨_, ⟨hok, hl⟩, hout⟩ => ⟨hok, by rw [← hout, hl]; rfl⟩,
      fun ⟨hok, hout⟩ => ⟨_, ⟨hok, rfl⟩, hout.symm⟩⟩

theorem sees_every (hq : q.Captured) (hrows : q.queryRows E tables = .ok rows) (pred : QExpr) :
    Sees E tables q rows (.every pred) := by
  intro holds hholds
  exact (every_iff hq hrows pred _).mpr ⟨holds, hholds, rfl⟩

end

/-! ## All of them -/

def twoRows : Tables := [("t", [[("v", .sqlInt 1)], [("v", .sqlInt 2)]])]

end Ridge
