import Mathlib.Data.Finset.Card
import Ridge.Data.Sql
import Ridge.Lib.Guarded

/-!
# ridge_pg — the connection pool's manager

One process per handle owns the pool (`runtime/ridge_pg.erl`, `pool_loop`). It lends connections,
parks callers while there are none, watches the connections die and sweeps the idle ones. A
`PoolWorld` is the manager's state with what the handlers can touch outside of it: the connection
processes, the armed timers, the running health checks and the manager's mailbox. Messages are
taken from the mailbox in any order.
-/

namespace Ridge

/-- A connection process. -/
abbrev Worker := Nat

/-- What the manager reads of its config, clamped by `pg_connect`. -/
structure PoolConfig where
  poolSize : Nat
  poolSize_pos : 0 < poolSize
  queryTimeout : Nat
  idleTimeout : Nat
  maxLifetime : Nat
  healthCheck : Nat
  maxQueue : Nat

/-- A connection's birth time, and its idle and last-check stamps. -/
structure WorkerMeta where
  born : Int
  idleSince : Int
  lastCheck : Int

def freshMeta (now : Int) : WorkerMeta := ⟨now, now, now⟩

/-- A parked caller; its timer is named by `ref`. -/
structure Waiter (ι : Type) where
  ref : Nat
  replyTo : ι

inductive PoolAnswer where
  | worker (worker : Worker) (queryTimeout : Nat)
  | error (e : DbError)

def PoolAnswer.overloaded : PoolAnswer :=
  .error { code := "db.pool.overloaded", message := "connection pool wait queue is full" }

def PoolAnswer.timeout : PoolAnswer :=
  .error { code := "db.pool.timeout", message := "connection pool checkout timed out" }

def PoolAnswer.closed : PoolAnswer :=
  .error { code := "db.conn.closed", message := "connection pool closed" }

/-- What `pool_checkout` makes of the manager's own `DOWN`. -/
def PoolAnswer.unavailable : PoolAnswer :=
  .error { code := "db.pool.timeout", message := "connection pool is unavailable" }

inductive PoolMessage (ι : Type) where
  | checkout (replyTo : ι) (ref : Nat)
  | checkin (worker : Worker)
  | checkoutCancel (ref : Nat)
  | down (worker : Worker)
  | waiterTimeout (ref : Nat)
  | maintenance
  | pingDone (ref : Nat) (worker : Worker) (ok : Bool)
  | getDefaultIsolation
  | close
  deriving DecidableEq

/-- The manager's `State`. -/
structure Pool (ι : Type) where
  config : PoolConfig
  max : Nat
  idle : List Worker
  busy : Finset Worker
  mons : Finset Worker
  metas : Worker → Option WorkerMeta
  checking : List (Nat × Worker)
  waiters : List (Waiter ι)

/-- The manager and its surroundings. The last five fields are an account of the run: who holds a
connection he has not handed back, which callers have died, and what became of each checkout. -/
structure PoolWorld (ι : Type) extends Pool ι where
  running : Bool
  mail : List (PoolMessage ι)
  live : Finset Worker
  timers : Finset Nat
  pings : List (Nat × Worker)
  next : Nat
  lent : List (Worker × ι)
  dead : List ι
  asked : List Nat
  replies : List (Nat × PoolAnswer)
  cancelled : List Nat

/-- What the manager meets outside in one turn: the clock, and whether a connect succeeds. -/
structure Turn where
  now : Int
  connect : Except DbError Unit

namespace PoolWorld

variable {ι : Type}

def reply (w : PoolWorld ι) (ref : Nat) (answer : PoolAnswer) : PoolWorld ι :=
  { w with replies := (ref, answer) :: w.replies }

/-- `ReplyTo ! {Ref, {ok, Worker, query_timeout(State)}}`. -/
def lend (w : PoolWorld ι) (replyTo : ι) (ref : Nat) (worker : Worker) : PoolWorld ι :=
  { w.reply ref (.worker worker w.config.queryTimeout) with lent := (worker, replyTo) :: w.lent }

/-- On a connect, the new process is the next one. -/
def openWorker (t : Turn) (w : PoolWorld ι) : Except DbError (Worker × PoolWorld ι) :=
  t.connect.map fun _ => (w.next, { w with live := insert w.next w.live, next := w.next + 1 })

/-- `take_live`, over `is_process_alive`. -/
def takeLive (live : Finset Worker) : List Worker → Option Worker × List Worker
  | [] => (none, [])
  | worker :: rest => if worker ∈ live then (some worker, rest) else takeLive live rest

def queueHasRoom (w : PoolWorld ι) : Bool :=
  w.config.maxQueue = 0 || w.waiters.length < w.config.maxQueue

def enqueueWaiter (w : PoolWorld ι) (replyTo : ι) (ref : Nat) : PoolWorld ι :=
  { w with timers := insert ref w.timers, waiters := w.waiters ++ [⟨ref, replyTo⟩] }

/-- A connection just opened, lent to its first caller. -/
def lendFresh (w : PoolWorld ι) (now : Int) (replyTo : ι) (ref : Nat) (worker : Worker) :
    PoolWorld ι :=
  { w.lend replyTo ref worker with
    busy := insert worker w.busy
    mons := insert worker w.mons
    metas := Function.update w.metas worker (some (freshMeta now)) }

def handleCheckout (t : Turn) (replyTo : ι) (ref : Nat) (w : PoolWorld ι) : PoolWorld ι :=
  match takeLive w.live w.idle with
  | (some worker, rest) =>
    { w.lend replyTo ref worker with idle := rest, busy := insert worker w.busy }
  | (none, rest) =>
    if w.mons.card < w.max then
      match openWorker t w with
      | .ok (worker, w) => { w.lendFresh t.now replyTo ref worker with idle := rest }
      | .error e => { w.reply ref (.error e) with idle := rest }
    else if queueHasRoom w then enqueueWaiter { w with idle := rest } replyTo ref
    else { w.reply ref .overloaded with idle := rest }

def dropWorker (w : PoolWorld ι) (worker : Worker) : PoolWorld ι :=
  { w with busy := w.busy.erase worker, metas := Function.update w.metas worker none }

variable [DecidableEq ι]

/-- `retire`. The manager's own `is_process_alive` is false once it has sent the exit. -/
def retire (w : PoolWorld ι) (worker : Worker) : PoolWorld ι :=
  let w :=
    if worker ∈ w.mons then
      { w with mail := w.mail.filter (· ≠ .down worker), live := w.live.erase worker }
    else w
  { w with
    idle := w.idle.erase worker
    busy := w.busy.erase worker
    mons := w.mons.erase worker
    metas := Function.update w.metas worker none }

def returnWorker (t : Turn) (worker : Worker) (w : PoolWorld ι) : PoolWorld ι :=
  match w.waiters with
  | waiter :: waiters =>
    { w.lend waiter.replyTo waiter.ref worker with
      timers := w.timers.erase waiter.ref, waiters := waiters }
  | [] =>
    let m := (w.metas worker).getD (freshMeta t.now)
    if 0 < w.config.maxLifetime ∧ (w.config.maxLifetime : Int) ≤ t.now - m.born then
      w.retire worker
    else
      { w with
        busy := w.busy.erase worker
        idle := worker :: w.idle
        metas := Function.update w.metas worker (some { m with idleSince := t.now }) }

def handleCheckin (t : Turn) (worker : Worker) (w : PoolWorld ι) : PoolWorld ι :=
  if worker ∈ w.busy then
    if worker ∈ w.live then returnWorker t worker w else w.dropWorker worker
  else w

def serveWaiter (t : Turn) (w : PoolWorld ι) : PoolWorld ι :=
  match w.waiters with
  | [] => w
  | waiter :: waiters =>
    if w.mons.card < w.max then
      let w := { w with timers := w.timers.erase waiter.ref }
      match openWorker t w with
      | .ok (worker, w) =>
        { w.lendFresh t.now waiter.replyTo waiter.ref worker with waiters := waiters }
      | .error e => { w.reply waiter.ref (.error e) with waiters := waiters }
    else w

/-- A connection the manager no longer knows. -/
def forget (w : PoolWorld ι) (worker : Worker) : PoolWorld ι :=
  { w with
    mons := w.mons.erase worker
    idle := w.idle.erase worker
    busy := w.busy.erase worker
    metas := Function.update w.metas worker none
    checking := w.checking.filter fun c => c.2 ≠ worker }

def handleDown (t : Turn) (worker : Worker) (w : PoolWorld ι) : PoolWorld ι :=
  serveWaiter t (w.forget worker)

/-- `remove_waiter`: the first waiter of that ref is out of the queue. -/
def unpark (w : PoolWorld ι) (ref : Nat) : PoolWorld ι :=
  { w with waiters := w.waiters.eraseP fun x => x.ref = ref }

def timeoutWaiter (ref : Nat) (w : PoolWorld ι) : PoolWorld ι :=
  match w.waiters.find? fun x => x.ref = ref with
  | some _ => (w.unpark ref).reply ref .timeout
  | none => w

def cancelWaiter (ref : Nat) (w : PoolWorld ι) : PoolWorld ι :=
  match w.waiters.find? fun x => x.ref = ref with
  | some _ =>
    { w.unpark ref with timers := w.timers.erase ref, cancelled := ref :: w.cancelled }
  | none => w

/-- The windows a connection has crossed: it is retired, pinged or kept. -/
def overAge (config : PoolConfig) (now : Int) (m : WorkerMeta) : Bool :=
  (0 < config.maxLifetime && (config.maxLifetime : Int) ≤ now - m.born) ||
    (0 < config.idleTimeout && (config.idleTimeout : Int) ≤ now - m.idleSince)

def duePing (config : PoolConfig) (now : Int) (m : WorkerMeta) : Bool :=
  0 < config.healthCheck && (config.healthCheck : Int) ≤ now - m.lastCheck

/-- One connection of the sweep, put with the ones to retire, to ping or to keep. -/
def classify (w : PoolWorld ι) (now : Int) (sorted : List Worker × List Worker × List Worker)
    (worker : Worker) : List Worker × List Worker × List Worker :=
  let m := (w.metas worker).getD (freshMeta now)
  if overAge w.config now m then (worker :: sorted.1, sorted.2.1, sorted.2.2)
  else if duePing w.config now m then (sorted.1, worker :: sorted.2.1, sorted.2.2)
  else (sorted.1, sorted.2.1, worker :: sorted.2.2)

/-- A health check of one connection: a helper process and a fresh ref. -/
def startPing (now : Int) (w : PoolWorld ι) (worker : Worker) : PoolWorld ι :=
  let m := (w.metas worker).getD (freshMeta now)
  { w with
    checking := (w.next, worker) :: w.checking
    pings := (w.next, worker) :: w.pings
    next := w.next + 1
    metas := Function.update w.metas worker (some { m with lastCheck := now }) }

def runMaintenance (t : Turn) (w : PoolWorld ι) : PoolWorld ι :=
  let sorted := w.idle.foldl (w.classify t.now) ([], [], [])
  let w := sorted.1.foldl retire { w with idle := sorted.2.2 }
  sorted.2.1.foldl (startPing t.now) w

def requeueIdle (w : PoolWorld ι) (worker : Worker) : PoolWorld ι :=
  if worker ∈ w.mons ∧ worker ∈ w.live then
    match w.waiters with
    | waiter :: waiters =>
      { w.lend waiter.replyTo waiter.ref worker with
        timers := w.timers.erase waiter.ref, waiters := waiters,
        busy := insert worker w.busy }
    | [] => { w with idle := worker :: w.idle }
  else w

def finishPing (t : Turn) (ref : Nat) (worker : Worker) (ok : Bool) (w : PoolWorld ι) :
    PoolWorld ι :=
  if w.checking.any fun c => c.1 = ref then
    let w := { w with checking := w.checking.filter fun c => c.1 ≠ ref }
    if ok then w.requeueIdle worker else serveWaiter t (w.retire worker)
  else w

def unread (mail : List (PoolMessage ι)) : List Nat :=
  mail.filterMap fun
    | .checkout _ ref => some ref
    | _ => none

/-- `close_all` and the end of the manager: every connection is shut, every waiter answered, and a
caller whose checkout is still in the mailbox is told by his monitor. -/
def closeAll (w : PoolWorld ι) : PoolWorld ι :=
  { w with
    running := false
    live := w.live \ w.mons
    timers := w.timers \ (w.waiters.map Waiter.ref).toFinset
    replies := (unread w.mail).map (fun ref => (ref, .unavailable)) ++
      (w.waiters.map (fun x => (x.ref, .closed)) ++ w.replies)
    mail := w.mail.filter fun
      | .checkout _ _ => false
      | _ => true
    idle := [], busy := ∅, mons := ∅, checking := [], waiters := [] }

/-- One turn of `pool_loop`. -/
def handle (t : Turn) (m : PoolMessage ι) (w : PoolWorld ι) : PoolWorld ι :=
  match m with
  | .checkout replyTo ref => handleCheckout t replyTo ref w
  | .checkin worker => handleCheckin t worker w
  | .checkoutCancel ref => cancelWaiter ref w
  | .down worker => handleDown t worker w
  | .waiterTimeout ref => timeoutWaiter ref w
  | .maintenance => runMaintenance t w
  | .pingDone ref worker ok => finishPing t ref worker ok w
  | .getDefaultIsolation => w
  | .close => closeAll w

end PoolWorld

/-- What can happen at a pool: its callers, its connections, its timers and helpers act, or the
manager takes a message. -/
inductive PoolEvent (ι : Type) where
  | ask (caller : ι)
  | handBack (caller : ι) (worker : Worker)
  | strayCheckin (worker : Worker)
  | cancel (ref : Nat)
  | timerFires (ref : Nat)
  | maintenanceDue
  | askIsolation
  | askClose
  | workerDies (worker : Worker)
  | pingEnds (ref : Nat) (worker : Worker) (ok : Bool)
  | callerDies (caller : ι)
  | turn (message : PoolMessage ι) (turn : Turn)

namespace PoolWorld

variable {ι : Type} [DecidableEq ι]

def post (w : PoolWorld ι) (m : PoolMessage ι) : PoolWorld ι := { w with mail := w.mail ++ [m] }

/-- An event that cannot happen leaves the world as it is. -/
def step (w : PoolWorld ι) : PoolEvent ι → PoolWorld ι
  | .ask caller =>
    if caller ∈ w.dead then w
    else
      let w' := { w with asked := w.next :: w.asked, next := w.next + 1 }
      if w.running then w'.post (.checkout caller w.next) else w'.reply w.next .unavailable
  | .handBack caller worker =>
    -- The check-in of a caller that holds the connection.
    if (worker, caller) ∈ w.lent ∧ caller ∉ w.dead then
      { w with lent := w.lent.erase (worker, caller) }.post (.checkin worker)
    else w
  | .strayCheckin worker => w.post (.checkin worker)
  | .cancel ref => w.post (.checkoutCancel ref)
  | .timerFires ref =>
    if ref ∈ w.timers then { w with timers := w.timers.erase ref }.post (.waiterTimeout ref)
    else w
  | .maintenanceDue => w.post .maintenance
  | .askIsolation => w.post .getDefaultIsolation
  | .askClose => w.post .close
  | .workerDies worker =>
    if worker ∈ w.live then
      let w' := { w with live := w.live.erase worker }
      if worker ∈ w.mons then w'.post (.down worker) else w'
    else w
  | .pingEnds ref worker ok =>
    if (ref, worker) ∈ w.pings then
      { w with pings := w.pings.erase (ref, worker) }.post (.pingDone ref worker ok)
    else w
  | .callerDies caller => { w with dead := caller :: w.dead }
  | .turn m t =>
    if w.running ∧ m ∈ w.mail then handle t m { w with mail := w.mail.erase m } else w

/-- `pool_init`, with its first connection. -/
def init (config : PoolConfig) (now : Int) : PoolWorld ι where
  config := config
  max := config.poolSize
  idle := [0]
  busy := ∅
  mons := {0}
  metas := Function.update (fun _ => none) 0 (some (freshMeta now))
  checking := []
  waiters := []
  running := true
  mail := []
  live := {0}
  timers := ∅
  pings := []
  next := 1
  lent := []
  dead := []
  asked := []
  replies := []
  cancelled := []

end PoolWorld

end Ridge
