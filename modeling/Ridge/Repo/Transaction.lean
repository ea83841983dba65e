import Ridge.Data.Sql

/-!
# std.repo — transactions and their retries

`transaction` and `transactionWith` bracket a body with a begin and a commit or rollback;
`transactionWithRetry` runs the bracket again while it fails transiently (`stdlib/repo.ridge`). The
begin, commit and rollback of a handle count their depth: in the state of the SQLite connection's
process (`runtime/ridge_sqlite.erl`), or in the pin that the caller's process keeps of a Postgres
connection (`runtime/ridge_pg.erl`).
-/

/-!
## Databases' transactions

What a SQLite and a Postgres connection make of the statements the runtime sends for transactions.
Whether a statement is served or fails is the database's choice, its `Fate`. A failed `COMMIT` of
SQLite leaves the transaction open or has rolled it back, one of Postgres has rolled it back; a
statement that fails inside a Postgres transaction aborts it, and then only a rollback is served (a
`COMMIT` there answers as a success and rolls back).
-/

namespace Ridge

inductive Backend where
  | sqlite
  | postgres
  deriving DecidableEq

inductive TxStatement where
  | begin
  | savepoint (n : Nat)
  | release (n : Nat)
  | rollbackTo (n : Nat)
  | commit
  | rollback
  | pragma (on : Bool)
  deriving DecidableEq

def TxStatement.isEnd : TxStatement → Bool
  | .release _ | .rollbackTo _ | .commit | .rollback => true
  | .begin | .savepoint _ | .pragma _ => false

inductive Fate where
  | served
  | fails (e : DbError) (rolledBack : Bool)

/-- No transaction, one opened by `BEGIN`, or one SQLite opened for a `SAVEPOINT`. -/
inductive TxMode where
  | closed
  | begun
  | bySavepoint
  deriving DecidableEq

/-- What is committed, what the connection sees, and its savepoints, newest first. -/
structure TxSession (α : Type) where
  durable : α
  data : α
  mode : TxMode
  aborted : Bool
  saves : List (Nat × α)

namespace TxSession

variable {α β : Type}

def refused : DbError where
  code := "db.error"
  message := "the statement does not fit the state of the transaction"

def rolledBack (s : TxSession α) : TxSession α := ⟨s.durable, s.durable, .closed, false, []⟩

def committed (s : TxSession α) : TxSession α := ⟨s.data, s.data, .closed, false, []⟩

/-- The savepoints from the newest one of a number on. -/
def savesFrom (n : Nat) (saves : List (Nat × α)) : List (Nat × α) :=
  saves.dropWhile fun p => p.1 ≠ n

variable (b : Backend)

/-- A statement that the database serves. -/
def serve (s : TxSession α) : TxStatement → Except DbError Unit × TxSession α
  | .pragma _ => (.ok (), s)
  | .begin =>
    match s.mode, b with
    | .closed, _ => (.ok (), { s with mode := .begun })
    | _, .postgres => if s.aborted then (.error refused, s) else (.ok (), s)
    | _, .sqlite => (.error refused, s)
  | .savepoint n =>
    match s.mode, b with
    | .closed, .postgres => (.error refused, s)
    | .closed, .sqlite => (.ok (), { s with mode := .bySavepoint, saves := [(n, s.data)] })
    | _, _ =>
      if s.aborted then (.error refused, s)
      else (.ok (), { s with saves := (n, s.data) :: s.saves })
  | .release n =>
    if s.aborted then (.error refused, s)
    else
      match savesFrom n s.saves with
      | [] => (.error refused, { s with aborted := b = .postgres ∧ s.mode ≠ .closed })
      | _ :: rest =>
        if s.mode = .bySavepoint ∧ rest = [] then (.ok (), s.committed)
        else (.ok (), { s with saves := rest })
  | .rollbackTo n =>
    match savesFrom n s.saves with
    | [] => (.error refused, { s with aborted := b = .postgres ∧ s.mode ≠ .closed })
    | (_, old) :: rest => (.ok (), { s with data := old, aborted := false, saves := (n, old) :: rest })
  | .commit =>
    match s.mode, b with
    | .closed, .sqlite => (.error refused, s)
    | .closed, .postgres => (.ok (), s)
    | _, _ => (.ok (), if s.aborted then s.rolledBack else s.committed)
  | .rollback =>
    match s.mode, b with
    | .closed, .sqlite => (.error refused, s)
    | .closed, .postgres => (.ok (), s)
    | _, _ => (.ok (), s.rolledBack)

def fail (s : TxSession α) (st : TxStatement) (rolledBack : Bool) : TxSession α :=
  match b, st with
  | .sqlite, .commit => if rolledBack then s.rolledBack else s
  | .postgres, .commit => s.rolledBack
  | .sqlite, _ => s
  | .postgres, _ => { s with aborted := s.mode ≠ .closed }

def exec (fate : Fate) (s : TxSession α) (st : TxStatement) :
    Except DbError Unit × TxSession α :=
  match fate with
  | .served => s.serve b st
  | .fails e rolledBack => (.error e, s.fail b st rolledBack)

/-- A statement of the body: what it answers and leaves, where it succeeds. -/
def execBody (fate : Fate) (s : TxSession α) (f : α → Except DbError (β × α)) :
    Except DbError β × TxSession α :=
  let failed : TxSession α := { s with aborted := b = .postgres ∧ s.mode ≠ .closed }
  match fate with
  | .fails e _ => (.error e, failed)
  | .served =>
    if s.aborted then (.error refused, s)
    else
      match f s.data with
      | .error e => (.error e, failed)
      | .ok (v, a) =>
        (.ok v, { s with data := a, durable := if s.mode = .closed then a else s.durable })

end TxSession

/-- A connection with the depth kept beside it, and the number of the next statement. The last two
fields are an account of what the database did: the statements ending a transaction that failed, and
whether a `COMMIT` was answered by a rollback. -/
structure TxState (α : Type) extends TxSession α where
  depth : Nat
  level : String
  ruOn : Bool
  tick : Nat
  failedEnds : List TxStatement
  lostCommit : Bool

def isolationMismatchError : DbError where
  code := "db.tx.isolation_mismatch"
  message := "a nested transaction cannot change the isolation level of the transaction already open"

/-- The database and the handle's settings. -/
structure TxHandle where
  backend : Backend
  fate : Nat → Fate
  defaultIsolation : String

namespace TxState

variable {α : Type} (h : TxHandle)

variable (st : TxStatement)

/-- `nif_exec`, or `worker_request` with its reply. -/
def send (s : TxState α) : Except DbError Unit × TxState α :=
  let r := s.toTxSession.exec h.backend (h.fate s.tick) st
  let failed :=
    match r.1 with
    | .error _ => st.isEnd
    | .ok _ => false
  (r.1, { s with
    toTxSession := r.2
    tick := s.tick + 1
    failedEnds := if failed then st :: s.failedEnds else s.failedEnds
    lostCommit := s.lostCommit || (st = .commit && s.aborted && r.1.isOk) })

/-! ## SQLite -/

def runTx (newDepth : Nat) (s : TxState α) : Except DbError Unit × TxState α :=
  match send h st s with
  | (.ok _, s) => (.ok (), { s with depth := newDepth })
  | (.error e, s) => (.error e, s)

/-- The result is of no interest. -/
def maybeRestoreRu (on : Bool) (s : TxState α) : TxState α :=
  if on then (send h (.pragma false) s).2 else s

/-- `BEGIN`, once the pragma is set; without a transaction it is restored. -/
def beginOuter (level : String) (s : TxState α) : Except DbError Unit × TxState α :=
  match send h .begin s with
  | (.ok _, s) => (.ok (), { s with depth := 1, level := level, ruOn := level = "read_uncommitted" })
  | (.error e, s) => (.error e, maybeRestoreRu h (level = "read_uncommitted") s)

def openTx (level : String) (s : TxState α) : Except DbError Unit × TxState α :=
  if level = "read_uncommitted" then
    match send h (.pragma true) s with
    | (.ok _, s) => beginOuter h level s
    | (.error e, s) => (.error e, s)
  else beginOuter h level s

def closeTx (s : TxState α) : Except DbError Unit × TxState α :=
  match send h st s with
  | (.ok _, s) =>
    (.ok (), { maybeRestoreRu h s.ruOn s with depth := 0, level := "", ruOn := false })
  | (.error e, s) => (.error e, s)

/-- `begin_tx`, without a level or with one. -/
def sqliteBegin (level : Option String) (s : TxState α) : Except DbError Unit × TxState α :=
  if s.depth = 0 then openTx h (level.getD h.defaultIsolation) s
  else if level = none ∨ level = some s.level then runTx h (.savepoint s.depth) (s.depth + 1) s
  else (.error isolationMismatchError, s)

variable (s : TxState α)

def sqliteCommit : Except DbError Unit × TxState α :=
  match s.depth with
  | 0 => (.ok (), s)
  | 1 => closeTx h .commit s
  | d + 2 => runTx h (.release (d + 1)) (d + 1) s

def sqliteRollback : Except DbError Unit × TxState α :=
  match s.depth with
  | 0 => (.ok (), s)
  | 1 => closeTx h .rollback s
  | d + 2 => runTx h (.rollbackTo (d + 1)) (d + 1) s

/-! ## Postgres -/

/-- Depth 0 is no pin. The checkout of a connection is one of the things that may fail. -/
def pgBegin (level : Option String) (s : TxState α) : Except DbError Unit × TxState α :=
  if s.depth = 0 then
    match h.fate s.tick with
    | .fails e _ => (.error e, { s with tick := s.tick + 1 })
    | .served =>
      match send h .begin { s with tick := s.tick + 1 } with
      | (.ok _, s) => (.ok (), { s with depth := 1, level := level.getD h.defaultIsolation })
      | (.error e, s) => (.error e, s)
  else if level = none ∨ level = some s.level then
    match send h (.savepoint s.depth) s with
    | (.ok _, s) => (.ok (), { s with depth := s.depth + 1 })
    | (.error e, s) => (.error e, s)
  else (.error isolationMismatchError, s)

/-- The pin is gone, or one level down, whatever the reply. -/
def pgEnd (outer : TxStatement) (inner : Nat → TxStatement) (s : TxState α) :
    Except DbError Unit × TxState α :=
  match s.depth with
  | 0 => (.ok (), s)
  | 1 =>
    let r := send h outer s
    (r.1, { r.2 with depth := 0, level := "" })
  | d + 2 =>
    let r := send h (inner (d + 1)) s
    (r.1, { r.2 with depth := d + 1 })

def pgCommit : Except DbError Unit × TxState α := pgEnd h .commit .release s

def pgRollback : Except DbError Unit × TxState α := pgEnd h .rollback .rollbackTo s

/-! ## The adapter -/

def beginAt (level : Option String) (s : TxState α) : Except DbError Unit × TxState α :=
  match h.backend with
  | .sqlite => sqliteBegin h level s
  | .postgres => pgBegin h level s

def commit : Except DbError Unit × TxState α :=
  match h.backend with
  | .sqlite => sqliteCommit h s
  | .postgres => pgCommit h s

def rollback : Except DbError Unit × TxState α :=
  match h.backend with
  | .sqlite => sqliteRollback h s
  | .postgres => pgRollback h s

end TxState

/-- What the body of a transaction does, one step after the reply to the other: statements, and
transactions of its own. -/
inductive TxBody (α β : Type) where
  | done (result : Except DbError β)
  | statement (f : α → Except DbError (β × α)) (next : Except DbError β → TxBody α β)
  | nested (level : Option String) (inner : TxBody α β) (next : Except DbError β → TxBody α β)

/-- What a run of a bracket or a body comes to. `writes` are those of the statements that succeeded,
less those of inner transactions that answered `Err`; `innerErrs` are the contents before and after
each inner transaction that did. -/
structure TxOutcome (α β : Type) where
  result : Except DbError β
  state : TxState α
  writes : List (α → α)
  innerErrs : List (α × α)

variable {α β : Type} (h : TxHandle)

/-- What a statement does to the contents when it succeeds. -/
def effectOf (f : α → Except DbError (β × α)) (a : α) : α :=
  match f a with
  | .ok (_, a') => a'
  | .error _ => a

/-- `transaction` (no level) and `transactionWith`. -/
def transaction (level : Option String) (body : TxState α → TxOutcome α β) (s : TxState α) :
    TxOutcome α β :=
  match s.beginAt h level with
  | (.error e, s) => ⟨.error e, s, [], []⟩
  | (.ok _, s) =>
    let o := body s
    match o.result with
    | .ok value =>
      match o.state.commit h with
      | (.ok _, s) => ⟨.ok value, s, o.writes, o.innerErrs⟩
      | (.error e, s) => ⟨.error e, s, [], o.innerErrs⟩
    | .error e =>
      match o.state.rollback h with
      | (.ok _, s) => ⟨.error e, s, [], o.innerErrs⟩
      | (.error e2, s) => ⟨.error e2, s, [], o.innerErrs⟩

/-- The contents around an inner transaction that answered `Err`. -/
def innerErr (s : TxState α) (o : TxOutcome α β) : List (α × α) :=
  match o.result with
  | .ok _ => []
  | .error _ => [(s.data, o.state.data)]

def runBody : TxBody α β → TxState α → TxOutcome α β
  | .done result, s => ⟨result, s, [], []⟩
  | .statement f next, s =>
    let r := s.toTxSession.execBody h.backend (h.fate s.tick) f
    let o := runBody (next r.1) { s with toTxSession := r.2, tick := s.tick + 1 }
    { o with writes := if r.1.isOk then effectOf f :: o.writes else o.writes }
  | .nested level inner next, s =>
    let o := transaction h level (runBody inner) s
    let o' := runBody (next o.result) o.state
    { o' with
      writes := o.writes ++ o'.writes
      innerErrs := o.innerErrs ++ (innerErr s o ++ o'.innerErrs) }

/-! ## Retries -/

structure RetryPolicy where
  maxAttempts : Int
  baseBackoffMs : Int
  maxBackoffMs : Int

def clampRetry (policy : RetryPolicy) : RetryPolicy where
  maxAttempts := if policy.maxAttempts < 1 then 1 else policy.maxAttempts
  baseBackoffMs := if policy.baseBackoffMs < 0 then 0 else policy.baseBackoffMs
  maxBackoffMs := if policy.maxBackoffMs < 0 then 0 else policy.maxBackoffMs

def dbErrorIsTransient (e : DbError) : Bool :=
  e.code = "db.error.40001" || e.code = "db.error.40P01" || e.code = "db.error.sqlite.5" ||
    e.code = "db.error.sqlite.6"

/-- `retryLoop`, less its pause. -/
def retryLoop (policy : RetryPolicy) (isTransient : DbError → Bool)
    (attempt : TxState α → TxOutcome α β) (n : Int) (s : TxState α) : TxOutcome α β :=
  let o := attempt s
  match o.result with
  | .ok _ => o
  | .error err =>
    if n < policy.maxAttempts then
      if isTransient err then
        let o' := retryLoop policy isTransient attempt (n + 1) o.state
        { o' with innerErrs := o.innerErrs ++ o'.innerErrs }
      else o
    else o
termination_by (policy.maxAttempts - n).toNat

/-- The ways to run a body in a transaction. -/
inductive TxCall where
  | transaction
  | transactionWith (level : String)
  | transactionWithRetry (policy : RetryPolicy)

def TxCall.run (body : TxBody α β) (s : TxState α) : TxCall → TxOutcome α β
  | .transaction => Ridge.transaction h none (runBody h body) s
  | .transactionWith level => Ridge.transaction h (some level) (runBody h body) s
  | .transactionWithRetry policy =>
    retryLoop (clampRetry policy) dbErrorIsTransient (Ridge.transaction h none (runBody h body)) 1 s

end Ridge
