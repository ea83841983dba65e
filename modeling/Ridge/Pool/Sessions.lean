import Mathlib.Data.List.Basic
import Ridge.Lib.Guarded

/-!
# ridge_pg — processes, pins and connections

A process that calls a verb borrows a connection for it; one that begins a transaction keeps its
connection pinned until the matching commit or rollback (`pg_call`, `pg_begin`, `pg_commit`,
`pg_rollback`). A connection works through its mailbox in order (`pg_conn_loop`), also through a
request whose caller has stopped waiting. What the pool does is seen here from its callers: it lends
a connection that nobody holds, or refuses. A connection not opened yet is one that nobody holds.
-/

namespace Ridge

abbrev ConnId := Nat

/-- A statement, as far as transactions go. -/
inductive TxSql where
  | begin
  | savepoint
  | release
  | rollbackTo
  | commit
  | rollback
  | plain
  deriving DecidableEq

/-- A statement that neither opens nor closes a transaction. -/
def TxSql.inner : TxSql → Bool
  | .savepoint | .release | .rollbackTo | .plain => true
  | .begin | .commit | .rollback => false

/-- `{Verb, From, Ref}`. The sender of a health check is no process of the handle; `pinned` is the
connection the sender had pinned when it sent the request. -/
structure Request (ι : Type) where
  sender : Option ι
  ref : Nat
  sql : TxSql
  pinned : Option ConnId

/-- What `put({pg_pin, Id}, …)` keeps. -/
structure Pin where
  conn : ConnId
  depth : Nat
  level : String

/-- What a process waits to get a connection for. -/
inductive Job where
  | verb (sql : TxSql)
  | begin (level : String)

/-- What a process with a transaction waits for, short of the transaction's end. -/
inductive Await where
  | verb
  | savepoint
  | nested

/-- Where a process is with its handle. -/
inductive Client where
  | free
  | wants (job : Job)
  | borrowed (conn : ConnId) (ref : Nat)
  | beginning (level : String) (conn : ConnId) (ref : Nat)
  | pinned (pin : Pin) (awaited : Option (Await × Nat))
  | ending (pin : Pin) (ref : Nat)

inductive Holder (ι : Type) where
  | caller (c : ι)
  | check (ref : Nat)

/-- A connection: whether its process lives, who has it, its mailbox, whose transaction is open on
it, and the replies it has sent. -/
structure Conn (ι : Type) where
  live : Bool
  held : Option (Holder ι)
  queue : List (Request ι)
  session : Option (Option ι)
  answers : List (Nat × Bool)

structure ClientWorld (ι : Type) where
  conn : ConnId → Conn ι
  client : ι → Client
  next : Nat

inductive Call where
  | verb (sql : TxSql)
  | begin (level : Option String)
  | commit
  | rollback

inductive Outcome where
  | done
  | failed
  | fatal
  deriving DecidableEq

inductive ClientEvent (ι : Type) where
  | call (c : ι) (op : Call)
  | lend (c : ι) (conn : ConnId)
  | refuse (c : ι)
  | run (conn : ConnId) (outcome : Outcome)
  | answered (c : ι)
  | givesUp (c : ι)
  | check (conn : ConnId)
  | checked (conn : ConnId) (ok : Bool)
  | dies (conn : ConnId)

/-- Whose transaction is open after a statement. A second `BEGIN` is a warning; a `COMMIT` ends the
transaction also when it fails. -/
def sessionAfter {ι : Type} (session : Option (Option ι)) (r : Request ι) (ok : Bool) :
    Option (Option ι) :=
  match r.sql with
  | .begin => if ok then some (session.getD r.sender) else session
  | .commit => none
  | .rollback => if ok then none else session
  | .savepoint | .release | .rollbackTo | .plain => session

/-- One request of the mailbox (`pg_conn_loop`). -/
def Conn.run {ι : Type} (k : Conn ι) (outcome : Outcome) : Conn ι :=
  match k.live, k.queue with
  | true, r :: rest =>
    match outcome with
    | .fatal => { k with live := false, queue := rest, answers := (r.ref, false) :: k.answers }
    | .done =>
      { k with
        queue := rest
        session := sessionAfter k.session r true
        answers := (r.ref, true) :: k.answers }
    | .failed =>
      { k with
        queue := rest
        session := sessionAfter k.session r false
        answers := (r.ref, false) :: k.answers }
  | _, _ => k

def Conn.receive {ι : Type} (k : Conn ι) (r : Request ι) : Conn ι :=
  { k with queue := k.queue ++ [r] }

namespace ClientWorld

variable {ι : Type} [DecidableEq ι] (defaultLevel : String)

variable (w : ClientWorld ι)

def setClient (c : ι) (p : Client) : ClientWorld ι :=
  { w with client := Function.update w.client c p }

def setConn (x : ConnId) (k : Conn ι) : ClientWorld ι :=
  { w with conn := Function.update w.conn x k }

/-- `worker_request`, up to its wait: the request has the next ref. -/
def send (sender : Option ι) (x : ConnId) (sql : TxSql)
    (pinned : Option ConnId) : ClientWorld ι :=
  { w.setConn x ((w.conn x).receive ⟨sender, w.next, sql, pinned⟩) with next := w.next + 1 }

/-- `pool_checkin`: the connection is the pool's again. -/
def checkin (x : ConnId) : ClientWorld ι :=
  w.setConn x { w.conn x with held := none }

/-- A call of a process with a transaction open on the handle. -/
def callPinned (c : ι) (pin : Pin) : Call → ClientWorld ι
  | .verb sql =>
    (w.send (some c) pin.conn sql (some pin.conn)).setClient c
      (.pinned pin (some (.verb, w.next)))
  | .begin level =>
    -- `pg_nested_tx`; another level is refused.
    if level = none ∨ level = some pin.level then
      (w.send (some c) pin.conn .savepoint (some pin.conn)).setClient c
        (.pinned pin (some (.savepoint, w.next)))
    else w
  | .commit =>
    if pin.depth = 1 then
      (w.send (some c) pin.conn .commit (some pin.conn)).setClient c (.ending pin w.next)
    else if 1 < pin.depth then
      (w.send (some c) pin.conn .release (some pin.conn)).setClient c
        (.pinned pin (some (.nested, w.next)))
    else w
  | .rollback =>
    if pin.depth = 1 then
      (w.send (some c) pin.conn .rollback (some pin.conn)).setClient c (.ending pin w.next)
    else if 1 < pin.depth then
      (w.send (some c) pin.conn .rollbackTo (some pin.conn)).setClient c
        (.pinned pin (some (.nested, w.next)))
    else w

/-- A call of a process that waits for nothing. Without a transaction a commit or rollback is
nothing to do. -/
def call (c : ι) (op : Call) : ClientWorld ι :=
  match w.client c with
  | .free =>
    match op with
    | .verb sql => w.setClient c (.wants (.verb sql))
    | .begin level => w.setClient c (.wants (.begin (level.getD defaultLevel)))
    | .commit | .rollback => w
  | .pinned pin none => w.callPinned c pin op
  | _ => w

/-- The pool hands over a connection that nobody holds, and the process sends its request. -/
def lend (c : ι) (x : ConnId) : ClientWorld ι :=
  match w.client c, (w.conn x).live, (w.conn x).held with
  | .wants job, true, none =>
    let w := w.setConn x { w.conn x with held := some (.caller c) }
    match job with
    | .verb sql => (w.send (some c) x sql none).setClient c (.borrowed x w.next)
    | .begin level => (w.send (some c) x .begin none).setClient c (.beginning level x w.next)
  | _, _, _ => w

/-- What a process makes of a reply, or of its having waited too long (`ok = false`). -/
def settle (c : ι) (ok : Bool) : ClientWorld ι :=
  match w.client c with
  | .borrowed x _ => (w.checkin x).setClient c .free
  | .beginning level x _ =>
    if ok then w.setClient c (.pinned ⟨x, 1, level⟩ none)
    else (w.checkin x).setClient c .free
  | .pinned pin (some (.savepoint, _)) =>
    w.setClient c (.pinned { pin with depth := if ok then pin.depth + 1 else pin.depth } none)
  | .pinned pin (some (.nested, _)) =>
    w.setClient c (.pinned { pin with depth := pin.depth - 1 } none)
  | .pinned pin (some (.verb, _)) => w.setClient c (.pinned pin none)
  | .ending pin _ => (w.checkin pin.conn).setClient c .free
  | .free | .wants _ | .pinned _ none => w

end ClientWorld

/-- The connection and the ref a process waits for. -/
def Client.awaited : Client → Option (ConnId × Nat)
  | .borrowed x ref => some (x, ref)
  | .beginning _ x ref => some (x, ref)
  | .pinned pin (some (_, ref)) => some (pin.conn, ref)
  | .ending pin ref => some (pin.conn, ref)
  | .free | .wants _ | .pinned _ none => none

namespace ClientWorld

variable {ι : Type} [DecidableEq ι] (defaultLevel : String)

/-- The reply a process waits for, if it has been sent. -/
def answerFor (w : ClientWorld ι) (c : ι) : Option Bool :=
  (w.client c).awaited.bind fun a =>
    ((w.conn a.1).answers.find? fun reply => reply.1 = a.2).map Prod.snd

/-- An event that cannot happen leaves the world as it is. -/
def step (w : ClientWorld ι) : ClientEvent ι → ClientWorld ι
  | .call c op => w.call defaultLevel c op
  | .lend c x => w.lend c x
  | .refuse c =>
    match w.client c with
    | .wants _ => w.setClient c .free
    | _ => w
  | .run x outcome => w.setConn x ((w.conn x).run outcome)
  | .answered c =>
    match w.answerFor c with
    | some ok => w.settle c ok
    | none => w
  | .givesUp c => w.settle c false
  | .check x =>
    match (w.conn x).live, (w.conn x).held with
    | true, none =>
      (w.setConn x { w.conn x with held := some (.check w.next) }).send none x .plain none
    | _, _ => w
  | .checked x ok =>
    match (w.conn x).held with
    | some (.check ref) =>
      if ok then
        if (ref, true) ∈ (w.conn x).answers then w.checkin x else w
      else w.setConn x { w.conn x with live := false, held := none }
    | _ => w
  | .dies x => w.setConn x { w.conn x with live := false }

/-- Before any call: every connection is whole and nobody's. -/
def init : ClientWorld ι where
  conn _ := ⟨true, none, [], none, []⟩
  client _ := .free
  next := 0

end ClientWorld

end Ridge
