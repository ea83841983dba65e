import Ridge.Migrate.Op
import Ridge.Lib.Snapshots

/-!
# std.migrate — the runner

`run` reads the tracking table once and applies every migration that is not in it, each in a
transaction of its own (`applyOne`): begin, the steps in order, the record, commit; the first
error on the way rolls the transaction back (`abort`) and ends the run.

The connection is a value of an adapter's own state type. A seam call takes it and answers a
result and the connection after the call, so that a call can fail and still have had an effect.
-/

namespace Ridge

/-- The result of a seam call and the connection after it. -/
abbrev Reply (σ α : Type) := Except DbError α × σ

/-- The methods of the `Adapter` class the runner calls. A statement that answers an affected-row
count answers it here, a schema statement answers `0`. -/
structure Adapter (σ : Type) where
  begin : σ → Reply σ Unit
  commit : σ → Reply σ Unit
  rollback : σ → Reply σ Unit
  statement : Statement → σ → Reply σ Int
  migrationsApplied : σ → Reply σ (List String)
  recordMigration : String → σ → Reply σ Unit

section Runner

variable {σ : Type} (adapter : Adapter σ)

/-- Keep whether a call succeeded, not the count it answered. -/
def resultUnit : Except DbError Int → Except DbError Unit
  | .ok _ => .ok ()
  | .error e => .error e

def runStep (op : MigrationOp) (conn : σ) : Reply σ Unit :=
  match op.statement with
  | none => (.ok (), conn)
  | some stmt =>
    let (r, conn') := adapter.statement stmt conn
    (resultUnit r, conn')

def runSteps : List MigrationOp → σ → Reply σ Unit
  | [], conn => (.ok (), conn)
  | s :: rest, conn =>
    match runStep adapter s conn with
    | (.error e, conn') => (.error e, conn')
    | (.ok _, conn') => runSteps rest conn'

/-- Roll back and report the original error, unless the rollback itself fails. -/
def abort (orig : DbError) (conn : σ) : Reply σ Unit :=
  match adapter.rollback conn with
  | (.ok _, conn') => (.error orig, conn')
  | (.error e, conn') => (.error e, conn')

def applyOne (m : Migration) (conn : σ) : Reply σ Unit :=
  match adapter.begin conn with
  | (.error e, conn') => (.error e, conn')
  | (.ok _, conn₁) =>
    match runSteps adapter m.steps conn₁ with
    | (.error e, conn₂) => abort adapter e conn₂
    | (.ok _, conn₂) =>
      match adapter.recordMigration m.name conn₂ with
      | (.error e, conn₃) => abort adapter e conn₃
      | (.ok _, conn₃) =>
        -- a failed commit is reported as it is: nothing rolls back after it
        match adapter.commit conn₃ with
        | (.ok _, conn₄) => (.ok (), conn₄)
        | (.error e, conn₄) => (.error e, conn₄)

def alreadyApplied (name : String) : List String → Bool
  | [] => false
  | n :: rest => if n = name then true else alreadyApplied name rest

/-- Apply what is not in `applied`, in order; `applied` is the set read at the start of the run. -/
def runPending : List Migration → List String → σ → Reply σ (List String)
  | [], _, conn => (.ok [], conn)
  | m :: rest, applied, conn =>
    match alreadyApplied m.name applied with
    | true => runPending rest applied conn
    | false =>
      match applyOne adapter m conn with
      | (.error e, conn') => (.error e, conn')
      | (.ok _, conn') =>
        match runPending rest applied conn' with
        | (.error e, conn'') => (.error e, conn'')
        | (.ok more, conn'') => (.ok (m.name :: more), conn'')

def run (migrations : List Migration) (conn : σ) : Reply σ (List String) :=
  match adapter.migrationsApplied conn with
  | (.error e, conn') => (.error e, conn')
  | (.ok applied, conn') => runPending adapter migrations applied conn'

end Runner

theorem alreadyApplied_iff {name : String} {applied : List String} :
    alreadyApplied name applied = true ↔ name ∈ applied := by
  induction applied with
  | nil => simp [alreadyApplied]
  | cons n rest ih =>
    unfold alreadyApplied
    split
    · simp_all
    · next h => rw [ih, List.mem_cons, or_iff_right (fun heq => h heq.symm)]

/-!
## std.migrate — the transaction contract of an adapter

`stdlib/data.ridge` documents what the runner relies on: a `begin` opens a transaction, or a
savepoint inside one; the matching `commit` keeps its writes and the matching `rollback` discards
them; every operation between them belongs to that transaction; a migration's record is one of its
writes. Any call may fail. `Adapter.Lawful` is that contract, read through a `view` of the
connection as database contents under a stack of snapshots.

What a call that fails leaves behind is left as open as the contract leaves it. A failed statement
may have changed the contents the open transaction works on. A failed commit or rollback may have
closed the transaction without keeping its writes, or have left it open. A lost connection is the
second case: the server discards the transaction, and what is kept is the snapshot.
-/

/-- What a database holds: its schema and rows, and the tracking table, oldest first. -/
@[ext] structure Contents (D : Type) where
  data : D
  ledger : List String

section Contract

variable {σ D : Type}

/-- The contract, for a `view` of the connection and the `effect` a successful statement has on
the schema and rows. -/
structure Adapter.Lawful (adapter : Adapter σ) (view : σ → Snapshots (Contents D))
    (effect : Statement → D → D → Prop) : Prop where
  begin_ok : ∀ {conn conn' u}, adapter.begin conn = (.ok u, conn') → view conn' = (view conn).push
  begin_error : ∀ {conn conn' e}, adapter.begin conn = (.error e, conn') → view conn' = view conn
  statement_ok : ∀ {stmt conn conn' n}, (view conn).saved ≠ [] →
    adapter.statement stmt conn = (.ok n, conn') →
    ∃ d, effect stmt (view conn).current.data d ∧
      view conn' = (view conn).set ⟨d, (view conn).current.ledger⟩
  statement_error : ∀ {stmt conn conn' e}, (view conn).saved ≠ [] →
    adapter.statement stmt conn = (.error e, conn') → (view conn').saved = (view conn).saved
  record_ok : ∀ {name conn conn' u}, (view conn).saved ≠ [] →
    adapter.recordMigration name conn = (.ok u, conn') →
    view conn' = (view conn).set
      ⟨(view conn).current.data, (view conn).current.ledger ++ [name]⟩
  record_error : ∀ {name conn conn' e}, (view conn).saved ≠ [] →
    adapter.recordMigration name conn = (.error e, conn') →
    (view conn').saved = (view conn).saved
  commit_ok : ∀ {conn conn' u top rest}, (view conn).saved = top :: rest →
    adapter.commit conn = (.ok u, conn') → view conn' = ⟨(view conn).current, rest⟩
  commit_error : ∀ {conn conn' e top rest}, (view conn).saved = top :: rest →
    adapter.commit conn = (.error e, conn') →
    view conn' = ⟨top, rest⟩ ∨ (view conn').saved = top :: rest
  rollback_ok : ∀ {conn conn' u top rest}, (view conn).saved = top :: rest →
    adapter.rollback conn = (.ok u, conn') → view conn' = ⟨top, rest⟩
  rollback_error : ∀ {conn conn' e top rest}, (view conn).saved = top :: rest →
    adapter.rollback conn = (.error e, conn') →
    view conn' = ⟨top, rest⟩ ∨ (view conn').saved = top :: rest
  applied_ok : ∀ {conn conn' names}, adapter.migrationsApplied conn = (.ok names, conn') →
    names = (view conn).current.ledger ∧ view conn' = view conn
  applied_error : ∀ {conn conn' e}, adapter.migrationsApplied conn = (.error e, conn') →
    view conn' = view conn

end Contract

/-! ## What a migration is meant to do -/

section Meaning

variable {D : Type} (effect : Statement → D → D → Prop)

/-- The steps of a migration, each having the effect of its statement, one after the other. -/
inductive StepsEffect : List MigrationOp → D → D → Prop
  | nil (d : D) : StepsEffect [] d d
  | silent {op : MigrationOp} {rest : List MigrationOp} {d d' : D} (hop : op.statement = none)
      (hrest : StepsEffect rest d d') : StepsEffect (op :: rest) d d'
  | step {op : MigrationOp} {stmt : Statement} {rest : List MigrationOp} {d d₁ d' : D}
      (hop : op.statement = some stmt) (heff : effect stmt d d₁)
      (hrest : StepsEffect rest d₁ d') : StepsEffect (op :: rest) d d'

/-- A migration applied whole: all its steps, and its name recorded. -/
def Applied (m : Migration) (before after : Contents D) : Prop :=
  StepsEffect effect m.steps before.data after.data ∧ after.ledger = before.ledger ++ [m.name]

/-- Several migrations applied whole, in order. -/
inductive AppliedInOrder : List Migration → Contents D → Contents D → Prop
  | nil (c : Contents D) : AppliedInOrder [] c c
  | cons {m : Migration} {rest : List Migration} {c c₁ c' : Contents D}
      (hm : Applied effect m c c₁) (hrest : AppliedInOrder rest c₁ c') :
      AppliedInOrder (m :: rest) c c'

variable {effect}

theorem AppliedInOrder.ledger_eq {ms : List Migration} {c c' : Contents D}
    (h : AppliedInOrder effect ms c c') : c'.ledger = c.ledger ++ ms.map (·.name) := by
  induction h with
  | nil c => simp
  | cons hm _ ih => simp [ih, hm.2]

end Meaning

/-- The migrations a run has to apply: those whose name is not in the tracking table. -/
def pending (migrations : List Migration) (ledger : List String) : List Migration :=
  migrations.filter fun m => m.name ∉ ledger

/-!
## std.data — the in-memory adapter under the runner

The in-memory keeper (`runtime/ridge_rt.erl`, `mem_keeper_loop`) keeps the tables of a store and a
stack of slices, one for each open transaction. Its schema seam is short: a create materialises an
empty table, a drop forgets it, column, index and view changes do nothing, and raw SQL is refused.
Mutation plans are interpreted against the tables; the interpreter is a parameter here. The
tracking table is kept beside the other tables, which no step of a migration is meant to touch.
-/

abbrev Tables := List (String × List SqlRow)

structure MemStore where
  tables : Tables
  ledger : List String
  stack : List (Contents Tables)

namespace MemStore

/-- An existing table keeps its rows. -/
def createTable (table : String) (tables : Tables) : Tables :=
  if tables.any (·.1 = table) then tables else tables ++ [(table, [])]

def dropTable (table : String) (tables : Tables) : Tables :=
  tables.filter (·.1 ≠ table)

def rawUnsupportedError : DbError where
  code := "raw.unsupported"
  message := "raw SQL needs a SQL backend; the in-memory adapter has none — run it against Postgres"

section

variable (interp : MutationPlan → Tables → Except DbError (Int × Tables))

/-- What a seam call does to the tables. -/
def exec : Statement → Tables → Except DbError (Int × Tables)
  | .ddlCreate table _, tables => .ok (0, createTable table tables)
  | .ddlCreateEntity schema, tables => .ok (0, createTable schema.table tables)
  | .ddlDrop table, tables => .ok (0, dropTable table tables)
  | .runMutation plan, tables => interp plan tables
  | .rawExec _ _, _ => .error rawUnsupportedError
  | .ddlAddColumn _ _, tables => .ok (0, tables)
  | .ddlDropColumn _ _, tables => .ok (0, tables)
  | .ddlIndex _ _ _ _, tables => .ok (0, tables)
  | .ddlAddEntityColumn _ _, tables => .ok (0, tables)
  | .ddlAlterColumn _ _ _, tables => .ok (0, tables)
  | .ddlDropIndex _, tables => .ok (0, tables)
  | .ddlCreateView _ _, tables => .ok (0, tables)
  | .ddlDropView _, tables => .ok (0, tables)

def statement (stmt : Statement) (s : MemStore) : Reply MemStore Int :=
  match exec interp stmt s.tables with
  | .ok (n, tables) => (.ok n, { s with tables })
  | .error e => (.error e, s)

/-- `commit_tx`: drop the innermost slice. -/
def commit (s : MemStore) : Reply MemStore Unit :=
  match s.stack with
  | _ :: rest => (.ok (), { s with stack := rest })
  | [] => (.ok (), s)

/-- `rollback_tx`: restore the innermost slice. -/
def rollback (s : MemStore) : Reply MemStore Unit :=
  match s.stack with
  | top :: rest => (.ok (), ⟨top.data, top.ledger, rest⟩)
  | [] => (.ok (), s)

/-- The in-memory instance of the adapter class. -/
def adapter : Adapter MemStore where
  begin s := (.ok (), { s with stack := ⟨s.tables, s.ledger⟩ :: s.stack })
  commit := commit
  rollback := rollback
  statement := statement interp
  migrationsApplied s := (.ok s.ledger, s)
  recordMigration name s := (.ok (), { s with ledger := s.ledger ++ [name] })

def view (s : MemStore) : Snapshots (Contents Tables) := ⟨⟨s.tables, s.ledger⟩, s.stack⟩

/-- The effect of a successful seam call. -/
def effect (stmt : Statement) (tables tables' : Tables) : Prop :=
  ∃ n, exec interp stmt tables = .ok (n, tables')

/-- The in-memory adapter keeps the transaction contract, whatever interprets its mutations. -/
theorem adapter_lawful : (adapter interp).Lawful view (effect interp) where
  begin_ok h := by cases h; rfl
  begin_error h := by cases h
  statement_ok {stmt conn conn' n} _ h := by
    simp only [adapter, statement] at h
    split at h
    · next _ tables hexec =>
      cases h
      exact ⟨tables, ⟨n, hexec⟩, rfl⟩
    · cases h
  statement_error {stmt conn conn' e} _ h := by
    simp only [adapter, statement] at h
    split at h
    · cases h
    · cases h
      rfl
  record_ok _ h := by cases h; rfl
  record_error _ h := by cases h
  commit_ok {conn conn' u top rest} hopen h := by
    simp only [view] at hopen
    simp only [adapter, commit, hopen] at h
    cases h
    rfl
  commit_error {conn conn' e top rest} hopen h := by
    simp only [view] at hopen
    simp only [adapter, commit, hopen] at h
    cases h
  rollback_ok {conn conn' u top rest} hopen h := by
    simp only [view] at hopen
    simp only [adapter, rollback, hopen] at h
    cases h
    rfl
  rollback_error {conn conn' e top rest} hopen h := by
    simp only [view] at hopen
    simp only [adapter, rollback, hopen] at h
    cases h
  applied_ok h := by cases h; exact ⟨rfl, rfl⟩
  applied_error h := by cases h

end

end MemStore

end Ridge
