import Ridge.Lib.EntryMap
import Std.Data.String.ToNat

/-!
# The receipt registry

The registry of `ridge_loader.erl`: one process that gives out operation ids, hands each submitted
operation to a worker and answers what became of it. `receiptRequest` and `receiptEvent` are the
clauses of the source; a `Turn` holds what a clause asks its surroundings for: the clock, a unique
integer, the pid and monitor of a new worker, and what the node says of its version and its fence.

The payload of an operation is opaque. Values of a report are given by their text.
-/

namespace Ridge.Loader.Receipts

def receiptLimit : Nat := 128

/-- `RECEIPT_TTL`, in milliseconds. -/
def receiptTtl : Int := 900000

abbrev Pid := Nat

abbrev MonitorRef := Nat

inductive Status where
  | reserved
  | in_progress
  | applied
  | rejected
  | recovery_required
  deriving DecidableEq

inductive CodeCommit where
  | unconfirmed
  | confirmed
  deriving DecidableEq

inductive ActorMigration where
  | incomplete
  | complete
  deriving DecidableEq

inductive Cleanup where
  | unscheduled
  | acknowledged
  deriving DecidableEq

/-- What a worker reports of an applied reload; `restarts` are the modules of restarted actors. -/
structure Report where
  version : String
  fields : List (String × String)
  restarts : List String
  deriving DecidableEq

/-- What a receipt keeps of a report. -/
structure Summary where
  fields : List (String × String)
  restarts : List (String × String)
  restart_details_truncated : Bool
  deriving DecidableEq

structure Receipt where
  incarnation : String
  operation : String
  digest : String
  status : Status
  code_commit : CodeCommit := .unconfirmed
  actor_migration : ActorMigration := .incomplete
  cleanup : Cleanup := .unscheduled
  created : Int
  rejection : Option String := none
  worker : Option Pid := none
  monitor : Option MonitorRef := none
  applied_version : Option String := none
  report : Option Summary := none
  deriving DecidableEq

structure State where
  incarnation : String
  entries : List (String × Receipt)

/-- What a clause asks its surroundings for. -/
structure Turn where
  /-- `erlang:monotonic_time(millisecond)`. -/
  now : Int
  /-- How many unique integers were given out elsewhere since the last one here. -/
  gap : Nat
  worker : Pid
  monitor : MonitorRef
  current_version : Option String
  fenced : Bool
  /-- The evidence generation changed while the version and the fence were read. -/
  changed : Bool

inductive Request (Payload : Type) where
  | protocol
  | reserve (incarnation digest : String)
  | query (incarnation id : String)
  | cancel (incarnation id digest : String)
  | submit (incarnation id digest : String) (payload : Payload)

inductive Phase where
  | code_committed
  | migration_complete
  | cleanup_scheduled

inductive Result where
  | ok (report : Report)
  | reload_rejected (phase : String)
  | base_version_mismatch
  | other

inductive Event where
  | operation_phase (id : String) (phase : Phase)
  | operation_result (id : String) (worker : Pid) (result : Result)
  | down (monitor : MonitorRef)
  | other

/-- The public fields of a receipt, with the version and the fence of the node. -/
structure View where
  incarnation : String
  operation : String
  digest : String
  status : Status
  code_commit : CodeCommit
  actor_migration : ActorMigration
  cleanup : Cleanup
  rejection : Option String
  applied_version : Option String
  report : Option Summary
  current_version : Option String
  recovery_fenced : Bool

inductive ReceiptError where
  | receipt_capacity
  | unknown_operation
  | operation_conflict
  | incarnation_mismatch
  deriving DecidableEq

inductive Reply where
  | protocol (protocol : Nat) (incarnation : String)
  | view (view : View)
  | error (error : ReceiptError)

/-- A worker that is started: the operation it applies. -/
structure Spawn (Payload : Type) where
  id : String
  payload : Payload

/-- What a message makes the registry do: a reply to a request, and a worker to start. -/
structure Output (Payload : Type) where
  reply : Option Reply := none
  spawn : Option (Spawn Payload) := none

abbrev keys : KeyEq String := KeyEq.exact String

def State.find (s : State) (id : String) : Option Receipt := EntryMap.get keys id s.entries

def State.put (s : State) (id : String) (r : Receipt) : State :=
  { s with entries := EntryMap.insert keys id r s.entries }

def receiptView (t : Turn) (r : Receipt) : View where
  incarnation := r.incarnation
  operation := r.operation
  digest := r.digest
  status := r.status
  code_commit := r.code_commit
  actor_migration := r.actor_migration
  cleanup := r.cleanup
  rejection := r.rejection
  applied_version := r.applied_version
  report := r.report
  current_version := t.current_version
  recovery_fenced := t.fenced || t.changed

variable {Payload : Type}

/-! ## Requests -/

def newReceipt (incarnation id digest : String) (now : Int) : Receipt where
  incarnation := incarnation
  operation := id
  digest := digest
  status := .reserved
  created := now

variable (r : Receipt)

/-- A reserved operation is given up before it was submitted. -/
def Receipt.cancelled (now : Int) : Receipt :=
  { r with status := .rejected, rejection := some "not_submitted", created := now }

/-- The operation was handed to a worker. -/
def Receipt.submitted (worker : Pid) (monitor : MonitorRef) : Receipt :=
  { r with status := .in_progress, worker := some worker, monitor := some monitor }

/-- The clauses of `receipt_request` for the right incarnation; `unique` is the next unique
integer. -/
def receiptServe (t : Turn) (unique : Nat) (s : State) :
    Request Payload → Output Payload × State
  | .protocol => ({ reply := some (.protocol 1 s.incarnation) }, s)
  | .reserve _ digest =>
    if s.entries.length < receiptLimit then
      let id := Nat.repr unique
      let r := newReceipt s.incarnation id digest t.now
      ({ reply := some (.view (receiptView t r)) }, s.put id r)
    else ({ reply := some (.error .receipt_capacity) }, s)
  | .query _ id =>
    match s.find id with
    | some r => ({ reply := some (.view (receiptView t r)) }, s)
    | none => ({ reply := some (.error .unknown_operation) }, s)
  | .cancel _ id digest =>
    match s.find id with
    | none => ({ reply := some (.error .unknown_operation) }, s)
    | some r =>
      if r.digest ≠ digest then ({ reply := some (.error .operation_conflict) }, s)
      else if r.status = .reserved then
        ({ reply := some (.view (receiptView t (r.cancelled t.now))) }, s.put id (r.cancelled t.now))
      else ({ reply := some (.view (receiptView t r)) }, s)
  | .submit _ id digest payload =>
    match s.find id with
    | none => ({ reply := some (.error .unknown_operation) }, s)
    | some r =>
      if r.digest ≠ digest then ({ reply := some (.error .operation_conflict) }, s)
      else if r.status = .reserved then
        let r' := r.submitted t.worker t.monitor
        ({ reply := some (.view (receiptView t r')), spawn := some ⟨id, payload⟩ }, s.put id r')
      else ({ reply := some (.view (receiptView t r)) }, s)

def Request.incarnation? : Request Payload → Option String
  | .protocol => none
  | .reserve incarnation _ => some incarnation
  | .query incarnation _ => some incarnation
  | .cancel incarnation _ _ => some incarnation
  | .submit incarnation _ _ _ => some incarnation

def receiptRequest (t : Turn) (unique : Nat) (request : Request Payload) (s : State) :
    Output Payload × State :=
  if request.incarnation?.all (· = s.incarnation) then receiptServe t unique s request
  else ({ reply := some (.error .incarnation_mismatch) }, s)

def pruneReceipts (now : Int) (s : State) : State :=
  { s with entries := s.entries.filter fun e =>
      e.2.status = .in_progress || now - e.2.created < receiptTtl }

/-! ## Events -/

def Receipt.phase : Phase → Receipt
  | .code_committed => { r with code_commit := .confirmed }
  | .migration_complete => { r with actor_migration := .complete }
  | .cleanup_scheduled => { r with cleanup := .acknowledged }

/-- The fields of a report that a receipt keeps. -/
def keptFields : List String :=
  ["modules_loaded", "actors_suspended", "actors_migrated", "actors_refreshed",
    "actors_restarted", "purge", "messages_migrated", "duration_ms"]

def Report.summary (report : Report) : Summary where
  fields := report.fields.filter fun field => field.1 ∈ keptFields
  restarts := (report.restarts.take 64).map fun name => (name, "migration_or_recovery_failure")
  restart_details_truncated := decide (64 < report.restarts.length)

def Receipt.finished (now : Int) (result : Result) : Receipt :=
  let next : Receipt :=
    match result with
    | .ok report =>
      { r with
        status := .applied, code_commit := .confirmed, actor_migration := .complete,
        cleanup := .acknowledged, applied_version := some report.version,
        report := some report.summary }
    | .reload_rejected phase => { r with status := .rejected, rejection := some phase }
    | .base_version_mismatch =>
      { r with status := .rejected, rejection := some "base_version_mismatch" }
    | .other => { r with status := .recovery_required }
  { next with created := now, worker := none, monitor := none }

/-- The worker of the operation went down without a result. -/
def Receipt.lost (now : Int) : Receipt :=
  { r with status := .recovery_required, created := now, worker := none, monitor := none }

def receiptEvent (t : Turn) (event : Event) (s : State) : State :=
  match event with
  | .operation_phase id phase =>
    match s.find id with
    | some r =>
      if r.status = .in_progress ∨ r.status = .recovery_required then s.put id (r.phase phase)
      else s
    | none => s
  | .operation_result id worker result =>
    match s.find id with
    | some r =>
      if r.status = .in_progress ∧ r.worker = some worker then s.put id (r.finished t.now result)
      else s
    | none => s
  | .down monitor =>
    { s with entries := s.entries.map fun e =>
        (e.1, if e.2.monitor = some monitor then e.2.lost t.now else e.2) }
  | .other => s

/-! ## Runs -/

inductive Message (Payload : Type) where
  | call (request : Request Payload)
  | info (event : Event)

/-- The registry, and the last unique integer of the node. -/
structure World where
  registry : State
  unique : Nat

/-- `init(receipts)`, on a node that has given out unique integers before. -/
def World.start (incarnation : String) (unique : Nat) : World where
  registry := { incarnation := incarnation, entries := [] }
  unique := unique

/-- `handle_call` and `handle_info` of the registry. Unique integers only grow. -/
def step (w : World) (t : Turn) : Message Payload → Output Payload × World
  | .call request =>
    let unique := w.unique + t.gap + 1
    let r := receiptRequest t unique request (pruneReceipts t.now w.registry)
    (r.1, { registry := r.2, unique := unique })
  | .info event => ({}, { w with registry := receiptEvent t event w.registry })

/-- The outputs of a run, and where it ends. -/
def run (w : World) : List (Turn × Message Payload) → List (Output Payload) × World
  | [] => ([], w)
  | (t, m) :: rest =>
    let first := step w t m
    let later := run first.2 rest
    (first.1 :: later.1, later.2)

end Ridge.Loader.Receipts
