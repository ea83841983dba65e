import Ridge.Actor.Startup
import Ridge.Lib.Scripted

/-!
# ridge_loader — the recovery owner

`do_apply_owned`, the recovery owner and `migrate_actors` of `runtime/ridge_loader.erl`, with the
part of the startup gate (`ridge_rt.erl`) that the owner writes to. The apply worker and the owner
take turns: the owner acts on a request while the worker waits, and the worker acts while the owner
waits for the next. Everything else is the script's: before every turn actors exit, the worker
dies, initializers enter the gate and the gate's resume workers report, and the turn itself comes
out as the script says. A killed process runs no further, and is not found alive by anyone after.

The log keeps each resume, stop, publication and erasure with the node as it was then.
-/

namespace Ridge.Recovery

open Scripted

/-! ## The node -/

/-- The state of an actor between the shapes of the old and the new code. -/
inductive Shape where
  | sound
  | half
  deriving DecidableEq

structure Actor where
  alive : Bool
  suspended : Bool
  shape : Shape

/-- What the owner records of an actor: `restart`, `false` or `true` in the source. -/
inductive Mark where
  | restart
  | held
  | ready
  deriving DecidableEq

inductive Phase where
  | precommit
  | committing
  | loaded
  deriving DecidableEq

inductive StopReason where
  | reload_suspend_failed
  | reload_incomplete_actor_state
  | reload_resume_failed
  deriving DecidableEq

structure Restart where
  actor : Pid
  reason : StopReason
  deriving DecidableEq

/-- The `State` of `recovery_loop`. The actors it owns are `keys`, each with its mark. -/
structure Owner where
  candidates : List Pid
  keys : List Pid
  mark : Pid → Mark
  suspended : List Pid
  restarts : List Restart
  phase : Phase
  finished : Bool

/-- The gate, as far as its writer goes: the suspended actors it holds, those its workers are
resuming, and how many these have resumed. -/
structure Gate where
  writer : Bool
  phase : StartupPhase
  held : List Pid
  resuming : List Pid
  resumed : Nat
  fenced : Bool

/-- `active` is the fence, `published` whether the new version number is in place, `loaded`
whether the new code is. -/
structure Node where
  actors : Pid → Actor
  worker : Bool
  active : Bool
  published : Bool
  loaded : Bool
  gate : Gate
  owner : Owner

inductive Action where
  | resume (actor : Pid)
  | stop (actor : Pid)
  | publish
  | erase
  deriving DecidableEq

structure World extends Node where
  log : List (Action × Node)

namespace World

variable (w : World)

/-- The log has what is done with the node as it is when it is done. -/
def record (a : Action) : World := { w with log := w.log ++ [(a, w.toNode)] }

def setActor (p : Pid) (f : Actor → Actor) : World :=
  { w with actors := Function.update w.actors p (f (w.actors p)) }

def setOwner (f : Owner → Owner) : World := { w with owner := f w.owner }

def setGate (f : Gate → Gate) : World := { w with gate := f w.gate }

/-- `exit(P, kill)`, or an exit of its own. -/
def kill (p : Pid) : World :=
  (w.record (.stop p)).setActor p fun a => { a with alive := false }

def resume (p : Pid) : World :=
  (w.record (.resume p)).setActor p fun a => { a with suspended := false }

end World

/-- `startup_resume_all`: a worker for each actor that is held. -/
def Gate.resumeAll (g : Gate) : Gate := { g with resuming := g.held ++ g.resuming, held := [] }

/-! ## What happens by itself -/

inductive Event where
  | exit (actor : Pid)
  | workerDies
  /-- An initializer enters the gate. -/
  | actorStarts
  /-- The gate's worker for an actor has resumed it, or has given up. -/
  | resumes (actor : Pid) (ok : Bool)

/-- A resume worker reports (`startup_resumed`): an actor that is gone needs nothing, and one that
does not answer is killed. -/
def World.settle (w : World) (p : Pid) (ok : Bool) : World :=
  if p ∈ w.gate.resuming then
    let g := { w.gate with resuming := w.gate.resuming.erase p }
    if (w.actors p).alive then
      if ok then { w.resume p with gate := { g with resumed := g.resumed + 1 } }
      else { w.kill p with gate := { g with fenced := true } }
    else { w with gate := g }
  else w

def World.move (w : World) : Event → World
  | .exit p => w.setActor p fun a => { a with alive := false }
  | .workerDies => { w with worker := false }
  | .actorStarts =>
    -- `startup_enter`: what is prepared is cancelled, and what is held is resumed
    if w.gate.writer ∧ w.gate.phase = .preparing then
      w.setGate fun g => { g.resumeAll with phase := .cancelled }
    else w
  | .resumes p ok => w.settle p ok

inductive Outcome where
  | ok
  | failed
  /-- A request that is given up, and takes effect nevertheless. -/
  | late

structure Turn where
  events : List Event
  outcome : Outcome

abbrev M := Prog World Turn

/-- A turn after what happens by itself. -/
def step {α : Type} (f : Outcome → World → α × World) : M α :=
  turn ⟨[], .ok⟩ fun t w => f t.outcome (t.events.foldl World.move w)

def workerAlive : M Bool := step fun _ w => (w.worker, w)

variable (p : Pid)

def isAlive : M Bool := step fun _ w => ((w.actors p).alive, w)

/-- A call whose outcome is all that matters here. -/
def attempt : M Bool := step fun o w => (o matches .ok, w)

/-- `sys:suspend`. -/
def sysSuspend : M Bool :=
  step fun o w =>
    if (w.actors p).alive then
      match o with
      | .ok => (true, w.setActor p fun a => { a with suspended := true })
      | .late => (false, w.setActor p fun a => { a with suspended := true })
      | .failed => (false, w)
    else (false, w)

/-- `sys:resume`. -/
def sysResume : M Bool :=
  step fun o w =>
    if (w.actors p).alive then
      match o with
      | .ok => (true, w.resume p)
      | .late => (false, w.resume p)
      | .failed => (false, w)
    else (false, w)

def exitKill : M Unit := step fun _ w => ((), w.kill p)

def awaitRecoveryStops (pending : List Pid) : M Bool :=
  if pending.isEmpty then pure true else attempt

/-- The actors that were alive, and whether all were seen to end in time. -/
def stopRecoveryActors (pids : List Pid) (reason : StopReason) : M (List Restart × Bool) := do
  let entries ← filterEach isAlive pids
  forEach exitKill entries
  let safe ← awaitRecoveryStops entries
  pure (entries.map fun p => { actor := p, reason := reason }, safe)

/-! ## The gate -/

inductive GateAnswer where
  | ok
  | actor_started
  | resumed (count : Nat)
  | recovery_required (count : Nat)
  deriving DecidableEq

/-- `startup_writer({suspended, Pid})`. -/
def startupSuspended : M GateAnswer :=
  step fun _ w =>
    let w := w.setGate fun g => { g with held := p :: g.held }
    if w.gate.phase = .preparing then (.ok, w) else (.actor_started, w.setGate Gate.resumeAll)

/-- `startup_writer(check)`. -/
def startupCheck : M GateAnswer :=
  step fun _ w => (if w.gate.phase = .preparing then .ok else .actor_started, w)

/-- `startup_writer(commit)`. -/
def startupCommit : M GateAnswer :=
  step fun _ w =>
    if w.gate.phase = .preparing then (.ok, w.setGate fun g => { g with phase := .committing })
    else (.actor_started, w)

/-- `startup_writer(abort)`, which answers when the resume workers have reported. -/
def startupAbort : M GateAnswer := do
  let resuming ← step fun _ w =>
    let w := w.setGate fun g => { g.resumeAll with phase := .cancelled }
    (w.gate.resuming, w)
  forEach (fun p => step fun o w => ((), w.settle p (o matches .ok))) resuming
  gets fun w => if w.gate.fenced then .recovery_required w.gate.resumed else .resumed w.gate.resumed

/-- `startup_writer(finish)`. -/
def startupFinish : M GateAnswer :=
  step fun _ w =>
    let safe := w.gate.resuming.isEmpty && !w.gate.fenced && !w.active
    (if safe then .ok else .recovery_required w.gate.resumed,
      w.setGate fun g => { g with writer := false, fenced := !safe })

/-! ## The end of a recovery -/

structure Stats where
  resumed : Nat
  restarts : List Restart

inductive Reply where
  | ok
  | suspended (actors : List Pid)
  | completed (restarts : List Restart)
  | actor_started
  | reload_actor_unavailable
  | reload_cleanup_unavailable
  | reload_recovery_required
  deriving DecidableEq

def getOwner : M Owner := gets fun w => w.owner

def setOwner (f : Owner → Owner) : M Unit := Scripted.modify fun w => w.setOwner f

/-- The owner leaves its loop. -/
def finishOwner : M Unit := setOwner fun o => { o with finished := true }

def publishVersion : M Unit :=
  step fun _ w => ((), { w.record .publish with published := true })

def eraseActive : M Unit :=
  step fun _ w => ((), { w.record .erase with active := false })

def resumeOwned : M (Nat × List Restart × Bool) := do
  if ← isAlive p then
    if ← sysResume p then pure (1, [], true)
    else
      let (more, stopped) ← stopRecoveryActors [p] .reload_resume_failed
      pure (0, more, stopped)
  else pure (0, [], true)

/-- The fold of `settle_recovery_actors` over the actors to resume. -/
def resumeAllOwned : List Pid → Stats → Bool → M (Stats × Bool)
  | [], stats, safe => pure (stats, safe)
  | p :: rest, stats, safe => do
    let (n, more, stopped) ← resumeOwned p
    resumeAllOwned rest ⟨stats.resumed + n, more ++ stats.restarts⟩ (safe && stopped)

/-- `settle_recovery_actors`; `ready` is its mode, without it everything is restarted. -/
def settleRecoveryActors (ready : Bool) : M (Stats × Bool) := do
  let o ← getOwner
  let (resume, restart) := o.keys.partition fun p => ready ∧ o.mark p = .ready
  let (killed, safe) ← stopRecoveryActors restart .reload_incomplete_actor_state
  resumeAllOwned resume ⟨0, killed⟩ safe

def settlePrecommit : M (Stats × Bool) := do
  let o ← getOwner
  let (killed, safe) ← stopRecoveryActors (o.keys.filter fun p => o.mark p = .restart)
    .reload_incomplete_actor_state
  match ← startupAbort with
  | .resumed count => pure (⟨count, killed⟩, safe)
  | .recovery_required count => pure (⟨count, killed⟩, false)
  | _ => pure (⟨0, killed⟩, false)

/-- The `try` of `complete_recovery`. -/
def publishCompletion (stats : Stats) (safe : Bool) : M Reply := do
  if safe then
    publishVersion
    if ← attempt then
      eraseActive
      match ← startupFinish with
      | .ok =>
        let o ← getOwner
        pure (.completed (o.restarts ++ stats.restarts))
      | _ => pure .reload_recovery_required
    else pure .reload_recovery_required
  else pure .reload_recovery_required

def completeRecovery : M (Reply × Stats) := do
  let (stats, safe) ← settleRecoveryActors true
  let result ← publishCompletion stats safe
  let _ ← attempt
  pure (result, stats)

/-- `ok = ridge_rt:actor_startup(finish)`. -/
def finishSafely : M Unit := do
  let answer ← startupFinish
  require fun _ => answer = .ok

/-- What an abort does with the actors before any code is loaded, or when it may be. -/
def settleAborted (phase : Phase) : M (Stats × Bool) :=
  if phase = .precommit then settlePrecommit else settleRecoveryActors false

def abortRecovery : M (Reply × Stats) := do
  let o ← getOwner
  match o.phase with
  | .loaded =>
    let (result, stats) ← completeRecovery
    pure (match result with
      | .completed _ => .ok
      | _ => result, stats)
  | phase =>
    let (stats, safe) ← settleAborted phase
    let _ ← attempt
    if phase = .precommit ∧ safe then
      eraseActive
      finishSafely
      pure (.ok, stats)
    else
      let _ ← startupFinish
      pure (.reload_recovery_required, stats)

def recoverAndStop : M Unit := do
  let _ ← abortRecovery
  finishOwner

/-! ## Requests -/

inductive SuspendResult where
  | ok
  | failed
  | cancelled
  | abandoned
  deriving DecidableEq

def confirmSuspended : M Unit :=
  setOwner fun o =>
    { o with mark := Function.update o.mark p .held, suspended := p :: o.suspended }

def suspendRecoveryActors : List Pid → M SuspendResult
  | [] => pure .ok
  | p :: rest => do
    if ← workerAlive then
      if ← isAlive p then
        setOwner fun o =>
          { o with keys := o.keys.insert p, mark := Function.update o.mark p .restart }
        if ← sysSuspend p then
          let answer ← startupSuspended p
          confirmSuspended p
          if answer = .ok then suspendRecoveryActors rest else pure .cancelled
        else
          let (restarts, _) ← stopRecoveryActors [p] .reload_suspend_failed
          setOwner fun o => { o with restarts := restarts ++ o.restarts }
          pure .failed
      else pure .failed
    else pure .abandoned

inductive Request where
  | suspend
  | commit
  | loaded
  | ready (actor : Pid)
  | complete
  | rejected
  | abort

def allAlive : List Pid → M Bool
  | [] => pure true
  | p :: rest => do
    if ← isAlive p then allAlive rest else pure false

/-- A request to suspend. An owner that finds its worker gone recovers, and answers nobody. -/
def handleSuspend : M (Option Reply) := do
  step fun _ w => ((), { w with active := true })
  let o ← getOwner
  match ← suspendRecoveryActors o.candidates with
  | .ok => gets fun w => some (.suspended w.owner.suspended.reverse)
  | .failed => pure (some .reload_actor_unavailable)
  | .cancelled => pure (some .actor_started)
  | .abandoned =>
    recoverAndStop
    pure none

def handleCommit : M (Option Reply) := do
  if ← attempt then
    let answer ← startupCheck
    let worker ← workerAlive
    let o ← getOwner
    let alive ← allAlive o.keys
    if worker then
      if answer = .actor_started then pure (some .actor_started)
      else if alive then
        match ← startupCommit with
        | .ok =>
          setOwner fun o => { o with phase := .committing }
          pure (some .ok)
        | _ => pure (some .actor_started)
      else pure (some .reload_actor_unavailable)
    else
      recoverAndStop
      pure none
  else pure (some .reload_cleanup_unavailable)

def readyOrGone : List Pid → M Bool
  | [] => pure true
  | p :: rest => do
    let alive ← isAlive p
    let o ← getOwner
    if !alive ∨ o.mark p = .ready then readyOrGone rest else pure false

/-- `recovery_loop` on a request of the worker. -/
def handle : Request → M (Option Reply)
  | .suspend => handleSuspend
  | .commit => handleCommit
  | .loaded => do
    require fun w => w.owner.phase = .committing
    setOwner fun o => { o with phase := .loaded }
    pure (some .ok)
  | .ready p => do
    require fun w => w.owner.phase = .loaded
    require fun w => p ∈ w.owner.keys
    setOwner fun o => { o with mark := Function.update o.mark p .ready }
    pure (some .ok)
  | .complete => do
    require fun w => w.owner.phase = .loaded
    let o ← getOwner
    let all ← readyOrGone o.keys
    require fun _ => all
    let (result, _) ← completeRecovery
    finishOwner
    pure (some result)
  | .rejected => do
    setOwner fun o => { o with phase := .precommit }
    let (result, _) ← abortRecovery
    finishOwner
    pure (some result)
  | .abort => do
    let (result, _) ← abortRecovery
    finishOwner
    pure (some result)

/-! ## The apply worker -/

/-- `recovery_call`, as long as there is a worker to make it. -/
def recoveryCall (r : Request) : M (Option Reply) := do
  if ← workerAlive then
    match ← handle r with
    | none => pure none
    | some reply => if ← workerAlive then pure (some reply) else pure none
  else pure none

/-- What the worker does for itself; nothing once it is gone. -/
def workerStep {α : Type} (f : Outcome → World → α × World) : M (Option α) :=
  step fun o w => if w.worker then ((some (f o w).1), (f o w).2) else (none, w)

/-- How the worker's body ends: it may be gone, and it may have failed. -/
inductive Ending where
  | gone
  | failed
  | startup_rejected
  | rejected
  | ready
  deriving DecidableEq

/-- `sys:change_code`. An attempt that fails leaves the state between the two shapes. -/
def tryChangeCode : M (Option Bool) :=
  workerStep fun o w =>
    if (w.actors p).alive then
      match o with
      | .ok => (true, w.setActor p fun a => { a with shape := .sound })
      | _ => (false, w.setActor p fun a => { a with shape := .half })
    else (false, w)

/-- Whether the actor is migrated, and `none` when the worker is gone. -/
def migrateActor : M (Option Bool) := do
  match ← tryChangeCode p with
  | none => pure none
  | some true => pure (some true)
  | some false =>
    match ← workerStep fun _ w => ((w.actors p).alive, w) with
    | none => pure none
    | some false => pure (some false)
    | some true =>
      match ← tryChangeCode p with
      | none => pure none
      | some true => pure (some true)
      | some false =>
        match ← workerStep fun _ w => ((), w.kill p) with
        | none => pure none
        | some () => pure (some false)

/-- What the new code says of an actor: whether it has a migration, and whether it is a Ridge
actor, whose collections are refreshed. -/
structure Kinds where
  migrates : Pid → Bool
  ridge_actor : Pid → Bool

/-- `migrate_actors`; an instruction that cannot be made fails the worker. -/
def migrateActors (k : Kinds) : List Pid → M Ending
  | [] => pure .ready
  | p :: rest => do
    if k.migrates p then
      match ← workerStep fun o w => (o matches .ok, w) with
      | none => pure .gone
      | some false => pure .failed
      | some true =>
        match ← migrateActor p with
        | none => pure .gone
        | some _ => migrateActors k rest
    else migrateActors k rest

def refreshActorCollections (k : Kinds) : List Pid → M Ending
  | [] => pure .ready
  | p :: rest => do
    match ← workerStep fun _ w => ((w.actors p).alive && k.ridge_actor p, w) with
    | none => pure .gone
    | some false =>
      match ← recoveryCall (.ready p) with
      | none => pure .gone
      | some _ => refreshActorCollections k rest
    | some true =>
      match ← migrateActor p with
      | none => pure .gone
      | some false => refreshActorCollections k rest
      | some true =>
        match ← recoveryCall (.ready p) with
        | none => pure .gone
        | some _ => refreshActorCollections k rest

/-- How `load_and_invalidate` ends. The batch is loaded as a whole or not at all, and it may fail
after the batch is loaded. -/
inductive LoadEnding where
  | loaded
  | rejected
  | failed

/-- `load_and_invalidate`; the outcome `late` is a failure after the batch is loaded, and an
earlier one is the other `failed`. -/
def loadAndInvalidate (raises : Bool) : M (Option LoadEnding) :=
  workerStep fun o w =>
    match o with
    | .ok => (.loaded, { w with loaded := true })
    | .late => (.failed, { w with loaded := true })
    | .failed => (if raises then .failed else .rejected, w)

/-- The `try` of `do_apply_owned`. -/
def applyBody (k : Kinds) (raises : Bool) : M Ending := do
  match ← recoveryCall .suspend with
  | none => pure .gone
  | some .actor_started => pure .startup_rejected
  | some (.suspended pids) =>
    -- the old field lists
    match ← workerStep fun o w => (o matches .ok, w) with
    | none => pure .gone
    | some false => pure .failed
    | some true =>
      match ← recoveryCall .commit with
      | none => pure .gone
      | some .actor_started => pure .startup_rejected
      | some .ok =>
        match ← loadAndInvalidate raises with
        | none => pure .gone
        | some .rejected => pure .rejected
        | some .failed => pure .failed
        | some .loaded =>
          match ← recoveryCall .loaded with
          | none => pure .gone
          | some _ =>
            match ← migrateActors k pids with
            | .ready => refreshActorCollections k pids
            | ending => pure ending
      | some _ => pure .failed
  | some _ => pure .failed

def Ending.request : Ending → Option Request
  | .gone => none
  | .failed => some .abort
  | .startup_rejected => some .abort
  | .rejected => some .rejected
  | .ready => some .complete

/-- `do_apply_owned` with its owner: an owner that still runs when the worker is gone gets its
`'DOWN'`. -/
def doApplyOwned (k : Kinds) (raises : Bool) : M Unit := do
  let ending ← applyBody k raises
  match ending.request with
  | none => pure ()
  | some r =>
    let _ ← recoveryCall r
    pure ()
  if ← gets fun w => w.owner.finished then pure () else recoverAndStop

end Ridge.Recovery
