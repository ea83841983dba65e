import Ridge.Migrate.Runner

/-!
# ridge_rt — the in-memory keeper

`mem_keeper_loop` (`runtime/ridge_rt.erl`) serves every process that uses a store, one request at a
time, and does not look at who sent it. This is its state for one store (`mem_slice`,
`mem_tx_stack`, `mem_tx_level`) and what each request does to it. The two interpreters it runs,
of predicates and of plans, are parameters here.
-/

namespace Ridge

/-- The keeper's state for one store: its tables, its transaction snapshots, newest first, and the
isolation level of the outermost one. -/
structure Keeper where
  tables : Tables
  txStack : List Tables
  txLevel : Option String

/-- A request to the keeper about one store, less the closing of the store. -/
inductive KeeperRequest where
  | beginTx
  | beginTxLevel (level : String)
  | commitTx
  | rollbackTx
  | createTable (table : String)
  | dropTable (table : String)
  | insert (table : String) (row : SqlRow)
  | all (table : String)
  | getRows (table column : String) (key : SqlValue)
  | delete (table : String) (tree : QExpr)
  | unrecordMigration (name : String)
  | update (table : String) (changes : SqlRow) (tree : QExpr)
  | runPlan (plan : QueryPlan)
  | runMutation (plan : MutationPlan)
  | runMutationReturning (plan : MutationPlan) (cols : List String)

inductive KeeperReply where
  | unit
  | count (n : Nat)
  | rows (rows : List SqlRow)
  | error (e : DbError)

/-- What the keeper runs: `mem_pred`, `mem_eval_plan` and `mem_mutation_affected`. -/
structure MemInterp where
  pred : Tables → QExpr → SqlRow → Bool
  evalPlan : Tables → QueryPlan → List SqlRow
  mutationAffected : Tables → MutationPlan → Tables × List SqlRow

/-- `maps:get(Key, State, [])`. -/
def rowsOf (table : String) (tables : Tables) : List SqlRow :=
  ((tables.find? fun t => t.1 = table).map Prod.snd).getD []

/-- `State#{Key => Rows}`. -/
def setRows (table : String) (rows : List SqlRow) (tables : Tables) : Tables :=
  if tables.any fun t => t.1 = table then
    tables.map fun t => if t.1 = table then (table, rows) else t
  else tables ++ [(table, rows)]

/-- `maps:get(Column, Row, 'SqlNull')`. -/
def cellOf (column : String) (row : SqlRow) : SqlValue :=
  ((row.find? fun c => c.1 = column).map Prod.snd).getD .sqlNull

/-- `maps:merge(Row, Changes)`. -/
def mergeRow (row changes : SqlRow) : SqlRow :=
  row.map (fun c => ((changes.find? fun d => d.1 = c.1).getD c)) ++
    changes.filter fun d => !row.any fun c => c.1 = d.1

namespace Keeper

def migrationsTable : String := "_ridge_migrations"

def isolationMismatch : DbError where
  code := "db.tx.isolation_mismatch"
  message := "a nested transaction cannot change the isolation level of the transaction already open"

section

variable (I : MemInterp)

def write (tables : Tables) : KeeperRequest → Tables
  | .createTable table => setRows table (rowsOf table tables) tables
  | .dropTable table => tables.filter fun t => t.1 ≠ table
  | .insert table row => setRows table (rowsOf table tables ++ [row]) tables
  | .delete table tree =>
    setRows table ((rowsOf table tables).filter fun r => !I.pred tables tree r) tables
  | .unrecordMigration name =>
    setRows migrationsTable ((rowsOf migrationsTable tables).filter fun r =>
      !sameValue (cellOf "name" r) (.sqlText name)) tables
  | .update table changes tree =>
    setRows table ((rowsOf table tables).map fun r =>
      if !changes.isEmpty && I.pred tables tree r then mergeRow r changes else r) tables
  | .runMutation plan => (I.mutationAffected tables plan).1
  | .runMutationReturning plan _ => (I.mutationAffected tables plan).1
  | .beginTx | .beginTxLevel _ | .commitTx | .rollbackTx | .all _ | .getRows _ _ _
  | .runPlan _ => tables

/-- What a request that leaves the transactions alone answers. -/
def reply (tables : Tables) : KeeperRequest → KeeperReply
  | .all table => .rows (rowsOf table tables)
  | .getRows table column key =>
    .rows ((rowsOf table tables).filter fun r => sameValue (cellOf column r) key)
  | .delete table tree => .count ((rowsOf table tables).countP fun r => I.pred tables tree r)
  | .update table changes tree =>
    .count ((rowsOf table tables).countP fun r => !changes.isEmpty && I.pred tables tree r)
  | .runPlan plan => .rows (I.evalPlan tables plan)
  | .runMutation plan => .count (I.mutationAffected tables plan).2.length
  | .runMutationReturning plan cols =>
    .rows ((I.mutationAffected tables plan).2.map fun r =>
      if cols.isEmpty then r
      else cols.filterMap fun c => r.find? fun d => d.1 = c)
  | .beginTx | .beginTxLevel _ | .commitTx | .rollbackTx | .createTable _ | .dropTable _
  | .insert _ _ | .unrecordMigration _ => .unit

variable (k : Keeper)

/-- Push a snapshot; the outermost one sets the level. -/
def pushTx (level : String) : Keeper :=
  match k.txStack with
  | [] => { k with txStack := [k.tables], txLevel := some level }
  | stack => { k with txStack := k.tables :: stack }

def levelAfter (rest : List Tables) : Option String :=
  match rest with
  | [] => none
  | _ => k.txLevel

/-- One turn of `mem_keeper_loop`. -/
def step : KeeperRequest → Keeper × KeeperReply
  | .beginTx => (k.pushTx "serializable", .unit)
  | .beginTxLevel level =>
    if k.txStack.isEmpty || k.txLevel = some level then (k.pushTx level, .unit)
    else (k, .error isolationMismatch)
  | .commitTx =>
    match k.txStack with
    | _ :: rest => ({ k with txStack := rest, txLevel := k.levelAfter rest }, .unit)
    | [] => (k, .unit)
  | .rollbackTx =>
    match k.txStack with
    | top :: rest => (⟨top, rest, k.levelAfter rest⟩, .unit)
    | [] => (k, .unit)
  | request => ({ k with tables := write I k.tables request }, reply I k.tables request)

/-- The keeper as a value under its snapshots. -/
def view : Snapshots Tables := ⟨k.tables, k.txStack⟩

/-- A request as an act on a store with transactions. A refused begin does nothing. -/
def act : KeeperRequest → TxAct Tables
  | .beginTx => .opens
  | .beginTxLevel level =>
    if k.txStack.isEmpty || k.txLevel = some level then .opens else .nothing
  | .commitTx => .commit
  | .rollbackTx => .rollback
  | .all _ | .getRows _ _ _ | .runPlan _ => .nothing
  | request => .write fun tables => write I tables request

theorem view_pushTx (level : String) : (k.pushTx level).view = k.view.push := by
  unfold pushTx
  split
  · next h => rw [Snapshots.push, view, view, h]
  · rfl

/-- The keeper serves a request as the shared stack does. -/
theorem view_step (r : KeeperRequest) : (step I k r).1.view = k.view.act (k.act I r) := by
  cases r with
  | beginTx => exact view_pushTx k _
  | beginTxLevel level =>
    by_cases h : (k.txStack.isEmpty || k.txLevel = some level) = true
    · have hstep : step I k (.beginTxLevel level) = (k.pushTx level, .unit) := if_pos h
      have hact : k.act I (.beginTxLevel level) = .opens := if_pos h
      rw [hstep, hact]
      exact view_pushTx k level
    · have hstep : step I k (.beginTxLevel level) = (k, .error isolationMismatch) := if_neg h
      have hact : k.act I (.beginTxLevel level) = .nothing := if_neg h
      rw [hstep, hact]
      rfl
  | commitTx | rollbackTx =>
    obtain ⟨tables, stack, level⟩ := k
    cases stack <;> rfl
  | _ => rfl

end

end Keeper

/-!
## ridge_rt — transactions of several processes on one store

Each process asks for its own begins, commits and rollbacks, and the keeper answers them from one
stack per store. What the processes mean is the `History` of their requests; `isolated_iff` says on
which runs the keeper's tables, and the transactions it has open, are the ones of that history.
-/

open List

namespace Keeper

variable {ι : Type}

/-- The store before its first request. -/
def empty : Keeper := ⟨[], [], none⟩

section

variable (I : MemInterp)

def run (k : Keeper) (requests : List (ι × KeeperRequest)) : Keeper :=
  requests.foldl (fun k r => (step I k r.2).1) k

def acts (k : Keeper) : List (ι × KeeperRequest) → List (ι × TxAct Tables)
  | [] => []
  | (i, r) :: rest => (i, k.act I r) :: acts (step I k r).1 rest

theorem run_append (k : Keeper) (done more : List (ι × KeeperRequest)) :
    k.run I (done ++ more) = (k.run I done).run I more := foldl_append

theorem acts_append (k : Keeper) (done more : List (ι × KeeperRequest)) :
    k.acts I (done ++ more) = k.acts I done ++ (k.run I done).acts I more := by
  induction done generalizing k with
  | nil => rfl
  | cons r done ih => exact congrArg _ (ih _)

theorem length_acts (k : Keeper) (requests : List (ι × KeeperRequest)) :
    (k.acts I requests).length = requests.length := by
  induction requests generalizing k with
  | nil => rfl
  | cons r rest ih => exact congrArg (· + 1) (ih _)

theorem acts_take (k : Keeper) (requests : List (ι × KeeperRequest)) (n : Nat) :
    k.acts I (requests.take n) = (k.acts I requests).take n := by
  induction requests generalizing k n with
  | nil => rw [take_nil]; exact take_nil.symm
  | cons r rest ih =>
    cases n with
    | zero => rfl
    | succ n => exact congrArg (_ :: ·) (ih _ n)

variable [DecidableEq ι]

variable (requests : List (ι × KeeperRequest))

/-- The store of a run from the beginning, its snapshots marked with the processes that opened
them, beside the history of the requests. -/
def account : Shared ι Tables :=
  (Shared.init empty.tables).run (empty.acts I requests)

/-- After every request, the tables are the ones of the history: a process that rolls back takes
its own writes away and no others, the rest stays. And the open transactions are the ones the
history has open, each of its own process. -/
def Isolated : Prop :=
  ∀ done, done <+: requests →
    (empty.run I done).tables = (account I done).history.contents empty.tables ∧
    ∀ i, Shared.count i (account I done).marks = (account I done).history.depth i

/-- A commit or rollback comes from the process whose transaction is the newest one open, and what
other processes wrote since a snapshot that is restored would leave that snapshot as it is. -/
def InTurn : Prop :=
  ∀ done i r, done ++ [(i, r)] <+: requests →
    Shared.Sound (account I done) i ((empty.run I done).act I r)

theorem store_account : (account I requests).store = (empty.run I requests).view := by
  induction requests using List.reverseRecOn with
  | nil => rfl
  | append_singleton done step ih =>
    have hacts := acts_append I empty done [step]
    unfold account at ih ⊢
    rw [hacts, Shared.run_append, run_append]
    show ((Shared.run _ (empty.acts I done)).store).act _ = _
    rw [ih]
    exact (view_step I (empty.run I done) step.2).symm

/-- The keeper isolates the processes of a run iff every request of the run comes in turn. -/
theorem isolated_iff (requests : List (ι × KeeperRequest)) :
    Isolated I requests ↔ InTurn I requests := by
  have hiff := Shared.agrees_iff empty.tables (empty.acts I requests)
  have htake : ∀ n, account I (requests.take n)
      = (Shared.init empty.tables).run ((empty.acts I requests).take n) := fun n => by
    unfold account
    rw [acts_take]
  constructor
  · intro h done i r hp
    -- What the keeper holds after a part of the run is what the marked store holds.
    have hag : ∀ part, part <+: empty.acts I requests →
        Shared.Agrees empty.tables ((Shared.init empty.tables).run part) := by
      intro part hpart
      rw [prefix_iff_eq_take.mp hpart, ← htake]
      have hdone := h (requests.take part.length) <| take_prefix _ _
      refine ⟨?_, hdone.2⟩
      rw [store_account]
      exact hdone.1
    have hacts : empty.acts I (done ++ [(i, r)])
        = empty.acts I done ++ [(i, (empty.run I done).act I r)] := acts_append I empty done _
    refine hiff.mp hag (empty.acts I done) i _ ?_
    rw [← hacts, prefix_iff_eq_take.mp hp, acts_take]
    exact take_prefix _ _
  · intro h done hp
    have hsound : ∀ part i t, part ++ [(i, t)] <+: empty.acts I requests →
        Shared.Sound ((Shared.init empty.tables).run part) i t := by
      intro part i t hpart
      have hlen := hpart.length_le
      rw [length_append, length_singleton, length_acts] at hlen
      have hlt : part.length < requests.length := hlen
      have hcut : requests.take (part.length + 1)
          = requests.take part.length ++ [requests[part.length]] :=
        (take_append_getElem hlt).symm
      have hs := h (requests.take part.length) requests[part.length].1
        requests[part.length].2 (hcut ▸ take_prefix _ _)
      -- The act there is the one of the request there.
      have hpart' := prefix_iff_eq_take.mp hpart
      rw [length_append, length_singleton, ← acts_take, hcut, acts_append, acts_take]
        at hpart'
      obtain ⟨hfst, hsnd⟩ := append_inj' hpart' rfl
      have hstep : (i, t) = (requests[part.length].1,
          (empty.run I (requests.take part.length)).act I requests[part.length].2) :=
        head_eq_of_cons_eq hsnd
      have hi : i = requests[part.length].1 := congrArg Prod.fst hstep
      have ht : t = (empty.run I (requests.take part.length)).act I requests[part.length].2 :=
        congrArg Prod.snd hstep
      rw [htake, ← hfst, ← hi, ← ht] at hs
      exact hs
    have hag := hiff.mpr hsound ((empty.acts I requests).take done.length) <| take_prefix _ _
    rw [← htake, ← prefix_iff_eq_take.mp hp] at hag
    refine ⟨?_, hag.2⟩
    rw [← hag.1, store_account]
    rfl

end

/-- Interpreters that select nothing and write nothing. -/
def idle : MemInterp where
  pred _ _ _ := false
  evalPlan _ _ := []
  mutationAffected tables _ := (tables, [])

/-- Process 0 begins, process 1 inserts a row outside any transaction, process 0 rolls back. -/
def lostInsert : List (Nat × KeeperRequest) :=
  [(0, .beginTx), (1, .insert "t" [("id", .sqlInt 1)]), (0, .rollbackTx)]

/-- The row of process 1 is gone. -/
theorem lostInsert_not_isolated : ¬ Isolated idle lostInsert := by
  intro h
  have hend := (h lostInsert prefix_rfl).1
  have hlen : (empty.run idle lostInsert).tables.length
      = ((account idle lostInsert).history.contents empty.tables).length := congrArg _ hend
  revert hlen
  decide

end Keeper

end Ridge
