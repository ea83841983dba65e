import Ridge.Mem.QuietPlan

/-!
# ridge_rt — the interpreter of mutation plans

`mem_mutation_affected` and what it rests on (`runtime/ridge_rt.erl`): the rows an insert completes,
an upsert merges, an update changes and a delete takes out. Only a predicate can raise.
-/

namespace Ridge

open List

/-! ## Identity columns -/

/-- One past the highest integer of the column. -/
def memNextId (rows : List SqlRow) (col : String) : Int :=
  let vals := rows.filterMap fun row =>
    match rowFind row col with
    | some (.sqlInt n) => some n
    | _ => none
  match vals with
  | [] => 1
  | n :: ns => ns.foldl max n + 1

/-- A column the row has keeps its own value. -/
def memFillRowIdentity (identityCols : List String) (row : SqlRow) (counters : String → Int) :
    SqlRow × (String → Int) :=
  identityCols.foldl (fun (acc : SqlRow × (String → Int)) c =>
    match rowFind acc.1 c with
    | some _ => acc
    | none =>
      (mergeRow acc.1 [(c, .sqlInt (acc.2 c))],
        fun c' => if c' = c then acc.2 c + 1 else acc.2 c'))
    (row, counters)

def memFillIdentity (existing rows : List SqlRow) (identityCols : List String) : List SqlRow :=
  match identityCols with
  | [] => rows
  | _ =>
    (rows.foldl (fun (acc : List SqlRow × (String → Int)) row =>
      let (filled, counters) := memFillRowIdentity identityCols row acc.2
      (acc.1 ++ [filled], counters))
      ([], memNextId existing)).1

/-! ## Upserts -/

/-- No conflict column, no conflict. -/
def memRowConflicts (row newRow : SqlRow) (conflictCols : List String) : Bool :=
  match conflictCols with
  | [] => false
  | cols => cols.all fun c =>
    match rowFind row c, rowFind newRow c with
    | some v, some w => v = w
    | _, _ => false

def memApplyExcluded (oldRow newRow : SqlRow) (updateCols : List String) : SqlRow :=
  updateCols.foldl (fun acc c =>
    match rowFind newRow c with
    | some v => mergeRow acc [(c, v)]
    | none => acc) oldRow

/-- What one upsert row did. -/
inductive UpsertMatch where
  | none
  | nothing
  | updated (merged : SqlRow)

/-- The first row in conflict, updated if there are columns to update. -/
def memUpsertMatch (newRow : SqlRow) (conflictCols updateCols : List String) :
    List SqlRow → List SqlRow × UpsertMatch
  | [] => ([], .none)
  | row :: rows =>
    if memRowConflicts row newRow conflictCols then
      if updateCols.isEmpty then (row :: rows, .nothing)
      else
        let merged := memApplyExcluded row newRow updateCols
        (merged :: rows, .updated merged)
    else
      let (rows', found) := memUpsertMatch newRow conflictCols updateCols rows
      (row :: rows', found)

/-- The rows, and those affected so far. -/
def memUpsertOne (conflictCols updateCols : List String) (acc : List SqlRow × List SqlRow)
    (newRow : SqlRow) : List SqlRow × List SqlRow :=
  match memUpsertMatch newRow conflictCols updateCols acc.1 with
  | (_, .none) => (acc.1 ++ [newRow], acc.2 ++ [newRow])
  | (rows, .nothing) => (rows, acc.2)
  | (rows, .updated merged) => (rows, acc.2 ++ [merged])

/-! ## Updates and deletes -/

section

variable (E : ErlRuntime) (tables : Tables)

/-- The rows, and those that changed. No change touches nothing. -/
def memUpdateRowsAff (changes : SqlRow) (tree : QExpr) (rows : List SqlRow) :
    Eval (List SqlRow × List SqlRow) :=
  match changes with
  | [] => pure (rows, [])
  | _ => do
    let matched ← rows.mapM fun row => memPredStore E.doubles tables row tree
    let tested := rows.zip matched
    pure (tested.map fun t => if t.2 then mergeRow t.1 changes else t.1,
      (tested.filter Prod.snd).map fun t => mergeRow t.1 changes)

/-- `lists:partition`: what the test is true of, and the rest. -/
def memPartition {α : Type} (test : α → Eval Bool) (l : List α) : Eval (List α × List α) := do
  let matched ← l.mapM test
  let tested := l.zip matched
  pure ((tested.filter Prod.snd).map Prod.fst, (tested.filter fun t => !t.2).map Prod.fst)

def memMutationAffected : MutationPlan → Eval (Tables × List SqlRow)
  | .mutInsert table rows identityCols => do
    let existing := rowsOf table tables
    let filled := memFillIdentity existing rows identityCols
    pure (setRows table (existing ++ filled) tables, filled)
  | .mutUpsert table rows conflictCols updateCols => do
    let (final, affected) :=
      rows.foldl (memUpsertOne conflictCols updateCols) (rowsOf table tables, [])
    pure (setRows table final tables, affected)
  | .mutUpdate table changes tree => do
    let (updated, affected) ← memUpdateRowsAff E tables changes tree (rowsOf table tables)
    pure (setRows table updated tables, affected)
  | .mutDelete table tree => do
    let (removed, kept) ← memPartition (fun row => memPredStore E.doubles tables row tree)
      (rowsOf table tables)
    pure (setRows table kept tables, removed)
  | .mutDeleteKeys table keyCols seedRows => do
    let hit := fun row => seedRows.any fun seed => memRowConflicts row seed keyCols
    pure (setRows table ((rowsOf table tables).filter fun row => !hit row) tables,
      (rowsOf table tables).filter hit)

def MutationPlan.target : MutationPlan → String
  | .mutInsert table _ _ | .mutUpsert table _ _ _ | .mutUpdate table _ _ | .mutDelete table _
  | .mutDeleteKeys table _ _ => table

/-- The predicate of an update that changes something, or of a delete, is quiet on every row. -/
def QuietMutation : MutationPlan → Prop
  | .mutUpdate table changes tree =>
    changes ≠ [] → ∀ row ∈ rowsOf table tables, QuietStore E.doubles tables row tree
  | .mutDelete table tree => ∀ row ∈ rowsOf table tables, QuietStore E.doubles tables row tree
  | _ => True

end

def memReturningRow (cols : List String) (row : SqlRow) : SqlRow :=
  if cols.isEmpty then row else cols.filterMap fun c => row.find? fun d => d.1 = c

section

variable {E : ErlRuntime} {tables : Tables}

theorem answers_memUpdateRowsAff {changes : SqlRow} {tree : QExpr} {rows : List SqlRow} :
    Answers (memUpdateRowsAff E tables changes tree rows) ↔
      (changes ≠ [] → ∀ row ∈ rows, QuietStore E.doubles tables row tree) := by
  cases changes with
  | nil => exact iff_of_true (answers_pure _) fun h => absurd rfl h
  | cons c cs =>
    show Answers (rows.mapM _ >>= _) ↔ _
    rw [answers_bind_pure, answers_mapM]
    simp only [answers_memPredStore]
    exact ⟨fun h _ => h, fun h => h (cons_ne_nil _ _)⟩

variable {plan : MutationPlan}

theorem answers_memMutationAffected :
    Answers (memMutationAffected E tables plan) ↔ QuietMutation E tables plan := by
  cases plan with
  | mutUpdate table changes tree =>
    show Answers (memUpdateRowsAff E tables changes tree _ >>= _) ↔ _
    exact answers_bind_pure.trans answers_memUpdateRowsAff
  | mutDelete table tree =>
    show Answers (memPartition _ _ >>= _) ↔ _
    rw [answers_bind_pure, memPartition, answers_bind_pure, answers_mapM]
    exact forall₂_congr fun _ _ => answers_memPredStore
  | _ => exact iff_of_true (answers_pure _) trivial

theorem rowsOf_setRows_of_ne {table table' : String} (h : table' ≠ table) (rows : List SqlRow) :
    rowsOf table' (setRows table rows tables) = rowsOf table' tables := by
  have hfind : ∀ l : Tables,
      ((l.map fun t => if t.1 = table then (table, rows) else t).find? fun t => t.1 = table') =
        l.find? fun t => t.1 = table' := by
    intro l
    induction l with
    | nil => rfl
    | cons t l ih =>
      rw [map_cons, find?_cons, find?_cons, ih]
      by_cases ht : t.1 = table
      · rw [if_pos ht, decide_eq_false h.symm, decide_eq_false fun ht' => h (ht'.symm.trans ht)]
      · rw [if_neg ht]
  unfold rowsOf setRows
  split
  · rw [hfind]
  · rw [find?_append, find?_cons, decide_eq_false h.symm]
    cases tables.find? fun t => t.1 = table' <;> rfl

theorem memMutationAffected_other {out : Tables × List SqlRow}
    (h : memMutationAffected E tables plan = .ok out) {table : String} (hne : table ≠ plan.target) :
    rowsOf table out.1 = rowsOf table tables := by
  cases plan with
  | mutInsert t rows cols | mutUpsert t rows conflict update =>
    cases h
    exact rowsOf_setRows_of_ne hne _
  | mutUpdate t changes tree | mutDelete t tree =>
    obtain ⟨res, _, hout⟩ := eval_bind_eq_ok.mp h
    cases hout
    exact rowsOf_setRows_of_ne hne _
  | mutDeleteKeys t cols seeds =>
    cases h
    exact rowsOf_setRows_of_ne hne _

end

end Ridge
