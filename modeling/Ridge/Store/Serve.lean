import Ridge.Mem.Mutation

/-!
# ridge_rt — the keeper serves its requests

One process holds every table of every store, and runs the interpreters itself: a raise ends it, and
all the rows with it. `Keeper.serve` is the keeper's turn with the interpreters that may raise; where
it answers it is the turn of `Keeper.step`.
-/

namespace Ridge

open List

variable {out : Keeper × KeeperReply}

section

variable (E : ErlRuntime)

/-- The interpreters as far as they answer. -/
def MemInterp.ofRuntime : MemInterp where
  pred tables tree row := isTrue (memPredStore E.doubles tables row tree)
  evalPlan tables plan := (memEvalPlan E tables plan).toOption.getD []
  mutationAffected tables plan := (memMutationAffected E tables plan).toOption.getD (tables, [])

namespace Keeper

/-- One turn of `mem_keeper_loop`. -/
def serve (k : Keeper) : KeeperRequest → Eval (Keeper × KeeperReply)
  | .delete table tree => do
    let rows := rowsOf table k.tables
    let kept ← memFilter (fun row => do pure !(← memPredStore E.doubles k.tables row tree)) rows
    pure ({ k with tables := setRows table kept k.tables }, .count (rows.length - kept.length))
  | .update table changes tree => do
    let (updated, changed) ← memUpdateRowsAff E k.tables changes tree (rowsOf table k.tables)
    pure ({ k with tables := setRows table updated k.tables }, .count changed.length)
  | .runPlan plan => do pure (k, .rows (← memEvalPlan E k.tables plan))
  | .runMutation plan => do
    let (tables, rows) ← memMutationAffected E k.tables plan
    pure ({ k with tables := tables }, .count rows.length)
  | .runMutationReturning plan cols => do
    let (tables, rows) ← memMutationAffected E k.tables plan
    pure ({ k with tables := tables }, .rows (rows.map (memReturningRow cols)))
  | request => .ok (k.step (.ofRuntime E) request)

end Keeper

/-- A request to the process that holds every store. -/
def deliver (stores : Nat → Keeper) (id : Nat) (request : KeeperRequest) :
    Eval ((Nat → Keeper) × KeeperReply) := do
  let (k, reply) ← (stores id).serve E request
  pure (Function.update stores id k, reply)

/-- Nothing that the request has the keeper evaluate raises. -/
def QuietRequest (tables : Tables) : KeeperRequest → Prop
  | .delete table tree => ∀ row ∈ rowsOf table tables, QuietStore E.doubles tables row tree
  | .update table changes tree =>
    changes ≠ [] → ∀ row ∈ rowsOf table tables, QuietStore E.doubles tables row tree
  | .runPlan plan => QuietPlan E tables plan
  | .runMutation plan | .runMutationReturning plan _ => QuietMutation E tables plan
  | _ => True

/-- The tables a request may change; a rollback restores them all. -/
def KeeperRequest.touches : KeeperRequest → String → Bool
  | .createTable t, table | .dropTable t, table | .insert t _, table | .delete t _, table
  | .update t _ _, table => t = table
  | .unrecordMigration _, table => Keeper.migrationsTable = table
  | .runMutation plan, table | .runMutationReturning plan _, table => plan.target = table
  | .rollbackTx, _ => true
  | .beginTx, _ | .beginTxLevel _, _ | .commitTx, _ | .all _, _ | .getRows _ _ _, _
  | .runPlan _, _ => false

end

section

variable {E : ErlRuntime} {k : Keeper}

/-! ## A turn that answers -/

theorem length_sub_filter_not {α : Type} (p : α → Bool) (l : List α) :
    l.length - (l.filter fun x => !p x).length = l.countP p := by
  induction l with
  | nil => rfl
  | cons x l ih =>
    have hle := length_filter_le (fun x => !p x) l
    rw [filter_cons, countP_cons, length_cons]
    cases p x with
    | true =>
      show l.length + 1 - (l.filter fun x => !p x).length = l.countP p + 1
      omega
    | false =>
      show l.length + 1 - ((l.filter fun x => !p x).length + 1) = l.countP p
      omega

variable {rows : List SqlRow}

theorem zip_of_mapM {test : SqlRow → Eval Bool} {matched : List Bool}
    (h : rows.mapM test = .ok matched) :
    rows.zip matched = rows.map fun row => (row, isTrue (test row)) := by
  have hall := mapM_eq_ok.mp h
  clear h
  induction hall with
  | nil => rfl
  | cons hrow _ ih =>
    rw [zip_cons_cons, map_cons, ih, hrow]
    rfl

variable {tables : Tables} {tree : QExpr}

theorem memUpdateRowsAff_eq_ok {changes : SqlRow} {out : List SqlRow × List SqlRow}
    (h : memUpdateRowsAff E tables changes tree rows = .ok out) :
    let hit := fun row => !changes.isEmpty && isTrue (memPredStore E.doubles tables row tree)
    out.1 = (rows.map fun row => if hit row then mergeRow row changes else row) ∧
      out.2.length = rows.countP hit := by
  cases changes with
  | nil =>
    cases h
    refine ⟨(map_id rows).symm, ?_⟩
    exact (countP_eq_zero.mpr fun _ _ => Bool.false_ne_true).symm
  | cons c cs =>
    obtain ⟨matched, hmatched, hout⟩ := eval_bind_eq_ok.mp h
    cases hout
    dsimp only
    rw [zip_of_mapM hmatched]
    refine ⟨map_map, ?_⟩
    rw [length_map, ← countP_eq_length_filter, countP_map]
    rfl

variable {table : String}

theorem serve_delete_eq_step (h : k.serve E (.delete table tree) = .ok out) :
    out = k.step (.ofRuntime E) (.delete table tree) := by
  obtain ⟨kept, hkept, hout⟩ := eval_bind_eq_ok.mp h
  cases hout
  obtain ⟨hall, rfl⟩ := memFilter_eq_ok.mp hkept
  have htest : ∀ row ∈ rowsOf table k.tables,
      isTrue (do pure !(← memPredStore E.doubles k.tables row tree)) =
        !isTrue (memPredStore E.doubles k.tables row tree) := by
    intro row hrow
    obtain ⟨b, hb⟩ := hall row hrow
    obtain ⟨b', hb', _⟩ := eval_bind_eq_ok.mp hb
    rw [hb']
    rfl
  rw [filter_congr htest, length_sub_filter_not]
  rfl

variable {request : KeeperRequest}

/-- Where the keeper answers, its turn is the turn of the keeper over interpreters that are total. -/
theorem serve_eq_step (h : k.serve E request = .ok out) : out = k.step (.ofRuntime E) request := by
  have htotal : ∀ {α : Type} {x : Eval α} {a d : α}, x = .ok a → x.toOption.getD d = a := by
    intro α x a d hx
    rw [hx]
    rfl
  cases request with
  | delete table tree => exact serve_delete_eq_step h
  | update table changes tree =>
    obtain ⟨res, hres, hout⟩ := eval_bind_eq_ok.mp h
    cases hout
    obtain ⟨hrows, hcount⟩ := memUpdateRowsAff_eq_ok hres
    rw [hrows, hcount]
    rfl
  | runPlan plan =>
    obtain ⟨rows, hrows, hout⟩ := eval_bind_eq_ok.mp h
    cases hout
    show _ = (k, KeeperReply.rows ((memEvalPlan E k.tables plan).toOption.getD []))
    rw [htotal hrows]
  | runMutation plan | runMutationReturning plan cols =>
    obtain ⟨res, hres, hout⟩ := eval_bind_eq_ok.mp h
    cases hout
    have haffected : (MemInterp.ofRuntime E).mutationAffected k.tables plan = res := htotal hres
    rw [← haffected]
    rfl
  | _ => exact (Except.ok.inj h).symm

/-! ## Requests the keeper survives -/

theorem answers_serve : Answers (k.serve E request) ↔ QuietRequest E k.tables request := by
  cases request with
  | delete table tree =>
    show Answers (memFilter _ _ >>= _) ↔ _
    rw [answers_bind_pure, answers_memFilter]
    refine forall₂_congr fun row _ => ?_
    rw [answers_bind_pure, answers_memPredStore]
  | update table changes tree =>
    show Answers (memUpdateRowsAff _ _ _ _ _ >>= _) ↔ _
    exact answers_bind_pure.trans answers_memUpdateRowsAff
  | runPlan plan =>
    show Answers (memEvalPlan _ _ _ >>= _) ↔ _
    exact answers_bind_pure.trans answers_memEvalPlan
  | runMutation plan | runMutationReturning plan cols =>
    show Answers (memMutationAffected _ _ _ >>= _) ↔ _
    exact answers_bind_pure.trans answers_memMutationAffected
  | _ => exact iff_of_true (answers_ok _) trivial

theorem rowsOf_filter_ne {table table' : String} (h : table' ≠ table) :
    rowsOf table' (tables.filter fun t => t.1 ≠ table) = rowsOf table' tables := by
  unfold rowsOf
  rw [find?_filter]
  have hboth : (fun t : String × List SqlRow =>
      decide (decide (t.1 ≠ table) = true ∧ decide (t.1 = table') = true)) =
        fun t => decide (t.1 = table') := by
    funext t
    refine decide_eq_decide.mpr ⟨fun ht => of_decide_eq_true ht.2, fun ht => ⟨?_, ?_⟩⟩
    · exact decide_eq_true (ht ▸ h)
    · exact decide_eq_true ht
  rw [hboth]

theorem pushTx_tables (k : Keeper) (level : String) : (k.pushTx level).tables = k.tables := by
  unfold Keeper.pushTx
  split <;> rfl

/-- A turn leaves a table it does not touch as it was. -/
theorem serve_other (h : k.serve E request = .ok out) (hother : request.touches table = false) :
    rowsOf table out.1.tables = rowsOf table k.tables := by
  have hstep := serve_eq_step h
  cases request with
  | beginTx =>
    rw [hstep]
    exact congrArg (rowsOf table) (pushTx_tables k _)
  | beginTxLevel level =>
    have hif : k.step (.ofRuntime E) (.beginTxLevel level) =
        if k.txStack.isEmpty || k.txLevel = some level then (k.pushTx level, .unit)
        else (k, .error Keeper.isolationMismatch) := rfl
    rw [hstep, hif]
    split
    · exact congrArg (rowsOf table) (pushTx_tables k _)
    · rfl
  | commitTx =>
    rw [hstep]
    obtain ⟨tables, stack, level⟩ := k
    cases stack <;> rfl
  | rollbackTx => cases hother
  | createTable t =>
    rw [hstep]
    exact rowsOf_setRows_of_ne (of_decide_eq_false hother ∘ Eq.symm) _
  | dropTable t =>
    rw [hstep]
    exact rowsOf_filter_ne (of_decide_eq_false hother ∘ Eq.symm)
  | insert t row =>
    rw [hstep]
    exact rowsOf_setRows_of_ne (of_decide_eq_false hother ∘ Eq.symm) _
  | all t | getRows t column key => rw [hstep]; rfl
  | delete t tree | unrecordMigration name | update t changes tree =>
    rw [hstep]
    exact rowsOf_setRows_of_ne (of_decide_eq_false hother ∘ Eq.symm) _
  | runPlan plan => rw [hstep]; rfl
  | runMutation plan | runMutationReturning plan cols =>
    obtain ⟨res, hres, hout⟩ := eval_bind_eq_ok.mp h
    cases hout
    exact memMutationAffected_other hres (of_decide_eq_false hother ∘ Eq.symm)

/-- The keeper replies, and no other table or store loses its rows. -/
def Survives (E : ErlRuntime) (stores : Nat → Keeper) (id : Nat) (request : KeeperRequest) : Prop :=
  ∃ stores' reply, deliver E stores id request = .ok (stores', reply) ∧
    (∀ id', id' ≠ id → stores' id' = stores id') ∧
    ∀ table, request.touches table = false →
      rowsOf table (stores' id).tables = rowsOf table (stores id).tables

end

end Ridge
