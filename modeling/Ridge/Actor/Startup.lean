import Mathlib.Data.List.Basic
import Ridge.Lib.Guarded

/-!
# ridge_rt — the actor startup gate

One process for the whole node (`runtime/ridge_rt.erl`, `startup_loop`) lets actor initializers in
as readers and a code reload in as the one writer. A `StartupWorld` is the gate's state with an
account of the run beside it: what was asked and answered, who is inside, which suspended actors
are still owed a resume, and what became of the resume workers. The gate does not read the account.
-/

namespace Ridge

abbrev Pid := Nat

/-- The requests of `actor_startup`. -/
inductive StartupRequest where
  | enter
  | leave
  | beginReload
  | suspended (actor : Pid)
  | commit
  | check
  | abort
  | finish
  deriving DecidableEq

inductive StartupAnswer where
  | ok
  | granted (queued : Bool)
  | readerMissing
  | writerMissing
  | recoveryRequired
  | initializing
  | actorStarted
  | resumed (count : Nat)
  | recoveryRequiredAfter (count : Nat)
  deriving DecidableEq

inductive StartupPhase where
  | preparing | cancelled | committing
  deriving DecidableEq

structure StartupWriter where
  pid : Pid
  monitor : Nat
  phase : StartupPhase
  suspended : List (Pid × Bool)
  resumed : Nat
  abort : Option (Pid × Nat)
  deriving DecidableEq

/-- The gate's `State`. Monitors and tags are numbered by `next`. -/
structure StartupGate where
  readers : List (Pid × Nat)
  writer : Option StartupWriter
  waiting : List (Pid × Nat × Nat)
  resumes : List (Nat × Pid × Nat)
  fenced : Bool
  next : Nat

/-- What a resume worker came to: the actor answered, was gone, or was killed. -/
inductive ResumeResult where
  | ok | gone | error
  deriving DecidableEq

/-- The body of a resume worker, by the answer of `sys:resume` and of `is_process_alive`; an actor
that is alive and does not answer is killed. -/
def resumeResult (answered alive : Bool) : ResumeResult :=
  if answered then .ok else if alive then .error else .gone

/-- The gate with `ridge_loader_active_reload`, whether it has crashed, and the account. -/
structure StartupWorld extends StartupGate where
  activeReload : Bool
  crashed : Bool
  asked : List (Nat × Pid × StartupRequest)
  replies : List (Nat × StartupAnswer)
  dead : List Pid
  inside : List Pid
  grants : List Pid
  admitted : List Pid
  sealedBy : Option Pid
  owed : List Pid
  started : List (Nat × Pid)
  settled : List (Nat × Pid × ResumeResult)

/-- What reaches the gate: a call, the end of a resume worker, the death of a monitored process.
Beside them the loader sets and clears its mark of an active reload. -/
inductive StartupEvent where
  | call (caller : Pid) (ref : Nat) (request : StartupRequest)
  | resumed (tag : Nat) (answered alive : Bool)
  | down (monitor : Nat) (pid : Pid)
  | reload (active : Bool)

namespace StartupWorld

/-- `startup_gate`'s initial state. -/
def init (active : Bool) : StartupWorld where
  readers := []
  writer := none
  waiting := []
  resumes := []
  fenced := false
  next := 0
  activeReload := active
  crashed := false
  asked := []
  replies := []
  dead := []
  inside := []
  grants := []
  admitted := []
  sealedBy := none
  owed := []
  started := []
  settled := []

variable (w : StartupWorld)

def reply (ref : Nat) (answer : StartupAnswer) : StartupWorld :=
  { w with replies := (ref, answer) :: w.replies }

def startupFenced : Bool :=
  w.fenced || (w.writer.isNone && w.activeReload)

variable (pid : Pid)

def startupGrant (ref mon : Nat) (queued : Bool) (w : StartupWorld) : StartupWorld :=
  { w.reply ref (.granted queued) with
    readers := (pid, mon) :: w.readers.filter (·.1 ≠ pid)
    inside := pid :: w.inside
    grants := pid :: w.grants }

/-- One actor of `startup_resume_all`: a worker for it unless it was given one before. -/
def startupResume (mark : Pid × Bool) : StartupWorld :=
  if mark.2 then
    { w with
      resumes := (w.next, mark.1, w.next + 1) :: w.resumes
      next := w.next + 2
      started := (w.next, mark.1) :: w.started
      owed := w.owed.filter (· ≠ mark.1) }
  else w

def startupResumeAll : StartupWorld :=
  match w.writer with
  | none => w
  | some writer =>
    { writer.suspended.foldl startupResume w with
      writer := some { writer with suspended := writer.suspended.map fun mark => (mark.1, false) } }

def startupAbortReply : StartupWorld :=
  match w.writer with
  | some writer =>
    match writer.abort with
    | some (_, ref) =>
      if w.resumes.isEmpty then
        let answer : StartupAnswer :=
          if w.fenced then .recoveryRequiredAfter writer.resumed else .resumed writer.resumed
        { w.reply ref answer with writer := some { writer with abort := none } }
      else w
    | none => w
  | none => w

def startupEnter (ref : Nat) (w : StartupWorld) : StartupWorld :=
  if w.startupFenced then w.reply ref .recoveryRequired
  else
    let mon := w.next
    let w := { w with next := w.next + 1 }
    match w.writer with
    | some writer =>
      match writer.phase with
      | .committing => { w with waiting := (pid, ref, mon) :: w.waiting }
      | .preparing =>
        -- The first initializer cancels the reload that is being prepared.
        let w := { w with writer := some { writer with phase := .cancelled } }
        startupGrant pid ref mon false w.startupResumeAll
      | .cancelled => startupGrant pid ref mon false w
    | none => startupGrant pid ref mon false w

def startupLeave (ref : Nat) (w : StartupWorld) : StartupWorld :=
  if (w.readers.lookup pid).isSome then
    { w.reply ref .ok with
      readers := w.readers.filter (·.1 ≠ pid)
      inside := w.inside.filter (· ≠ pid) }
  else w.reply ref .readerMissing

def startupBegin (ref : Nat) (w : StartupWorld) : StartupWorld :=
  if w.startupFenced = false ∧ w.writer = none ∧ w.readers = [] then
    { w.reply ref .ok with
      writer := some ⟨pid, w.next, .preparing, [], 0, none⟩
      next := w.next + 1
      admitted := pid :: w.admitted }
  else if w.startupFenced then w.reply ref .recoveryRequired
  else w.reply ref .initializing

/-- The initializers that waited for the writer to end, in the order they came. -/
def startupReleaseWaiters (safe : Bool) (w : StartupWorld) : StartupWorld :=
  w.waiting.reverse.foldl
    (fun w (waiter : Pid × Nat × Nat) =>
      if safe then startupGrant waiter.1 waiter.2.1 waiter.2.2 true w
      else w.reply waiter.2.1 .recoveryRequired)
    { w with writer := none, fenced := !safe, waiting := [], sealedBy := none, owed := [] }

def startupSafe : Bool :=
  w.resumes.isEmpty && !w.fenced && !w.activeReload

/-- `startup_writer`, for a request of the writer itself. -/
def startupWriter (request : StartupRequest) (pid : Pid) (ref : Nat) (writer : StartupWriter)
    (w : StartupWorld) : StartupWorld :=
  match request with
  | .suspended actor =>
    let marks := (actor, true) :: writer.suspended.filter (·.1 ≠ actor)
    let w := { w with writer := some { writer with suspended := marks }, owed := actor :: w.owed }
    match writer.phase with
    | .cancelled => startupResumeAll (w.reply ref .actorStarted)
    | .preparing => w.reply ref .ok
    | .committing => { w with crashed := true }
  | .commit =>
    match writer.phase with
    | .preparing =>
      { w.reply ref .ok with
        writer := some { writer with phase := .committing }, sealedBy := some pid }
    | _ => w.reply ref .actorStarted
  | .check =>
    match writer.phase with
    | .preparing => w.reply ref .ok
    | _ => w.reply ref .actorStarted
  | .abort =>
    startupAbortReply (startupResumeAll
      { w with
        writer := some { writer with phase := .cancelled, abort := some (pid, ref) }
        sealedBy := none })
  | .finish =>
    let answer : StartupAnswer := if w.startupSafe then .ok else .recoveryRequired
    startupReleaseWaiters w.startupSafe (w.reply ref answer)
  | _ => { w with crashed := true }

def startupCall (ref : Nat) (request : StartupRequest) (w : StartupWorld) :
    StartupWorld :=
  let w := { w with asked := (ref, pid, request) :: w.asked }
  match request with
  | .enter => startupEnter pid ref w
  | .leave => startupLeave pid ref w
  | .beginReload => startupBegin pid ref w
  | request =>
    match w.writer with
    | some writer =>
      if writer.pid = pid then startupWriter request pid ref writer w
      else w.reply ref .writerMissing
    | none => w.reply ref .writerMissing

def startupResumed (tag : Nat) (result : ResumeResult) (w : StartupWorld) : StartupWorld :=
  match w.resumes.lookup tag with
  | some (target, _) =>
    startupAbortReply
      { w with
        resumes := w.resumes.filter (·.1 ≠ tag)
        writer := w.writer.map fun writer =>
          { writer with resumed := writer.resumed + if result = .ok then 1 else 0 }
        fenced := w.fenced || result = .error
        settled := (tag, target, result) :: w.settled }
  | none => w

/-- The second half of `startup_down`: the death of anyone but the writer. -/
def startupDownOther (mon : Nat) (w : StartupWorld) : StartupWorld :=
  match w.resumes.filter (·.2.2 = mon) with
  | [(tag, target, _)] =>
    -- The worker died: the gate kills its actor and lets no one in any more.
    startupAbortReply
      { w with
        fenced := true
        resumes := w.resumes.filter (·.1 ≠ tag)
        settled := (tag, target, .error) :: w.settled }
  | [] =>
    { w with
      readers := w.readers.filter fun reader => reader ≠ (pid, mon)
      waiting := w.waiting.filter fun waiter => waiter.1 ≠ pid ∨ waiter.2.2 ≠ mon }
  | _ => { w with crashed := true }

def startupDown (mon : Nat) (w : StartupWorld) : StartupWorld :=
  let w := { w with dead := pid :: w.dead, inside := w.inside.filter (· ≠ pid),
                    sealedBy := if w.sealedBy = some pid then none else w.sealedBy }
  match w.writer with
  | some writer =>
    if writer.pid = pid ∧ writer.monitor = mon then startupReleaseWaiters w.startupSafe w
    else startupDownOther pid mon w
  | none => startupDownOther pid mon w

/-- One turn of `startup_loop`. -/
def step : StartupEvent → StartupWorld
  | .call pid ref request => startupCall pid ref request w
  | .resumed tag answered alive => startupResumed tag (resumeResult answered alive) w
  | .down mon pid => startupDown pid mon w
  | .reload active => { w with activeReload := active }

end StartupWorld

/-!
## The startup gate — what its turns do to the state

The loops of the gate (`startup_resume_all`, `startup_release_waiters`) as one update each, and for
each part of the state the turns that can change it.
-/

open List

namespace StartupWorld

/-! ## The loops -/

/-- The workers that `startup_resume_all` starts: one for each actor not resumed before. -/
def newWorkers (next : Nat) : List (Pid × Bool) → List (Nat × Pid × Nat)
  | [] => []
  | (pid, true) :: marks => (next, pid, next + 1) :: newWorkers (next + 2) marks
  | (_, false) :: marks => newWorkers next marks

theorem foldl_startupResume (marks : List (Pid × Bool)) (w : StartupWorld) :
    marks.foldl startupResume w =
      { w with
        resumes := (newWorkers w.next marks).reverse ++ w.resumes
        next := w.next + 2 * (newWorkers w.next marks).length
        started := ((newWorkers w.next marks).map fun x => (x.1, x.2.1)).reverse ++ w.started
        owed := w.owed.filter fun p => !((newWorkers w.next marks).map (·.2.1)).contains p } := by
  induction marks generalizing w with
  | nil => simp [newWorkers]
  | cons mark marks ih =>
    obtain ⟨pid, pending⟩ := mark
    rw [foldl_cons, ih]
    cases pending with
    | false => simp [newWorkers, startupResume]
    | true =>
      simp only [newWorkers, startupResume, if_true, reverse_cons, append_assoc,
        singleton_append, length_cons, map_cons, filter_filter,
        StartupWorld.mk.injEq, StartupGate.mk.injEq, and_true, true_and]
      refine ⟨by omega, filter_congr fun p _ => ?_⟩
      by_cases hp : p = pid <;> simp [hp]

variable {next : Nat} {marks : List (Pid × Bool)}

theorem mem_newWorkers {x : Nat × Pid × Nat} (h : x ∈ newWorkers next marks) :
    next ≤ x.1 ∧ x.2.2 = x.1 + 1 ∧ x.2.2 < next + 2 * (newWorkers next marks).length := by
  induction marks generalizing next with
  | nil => cases h
  | cons mark marks ih =>
    obtain ⟨pid, pending⟩ := mark
    cases pending with
    | false => exact ih h
    | true =>
      simp only [newWorkers, mem_cons, length_cons] at h ⊢
      rcases h with rfl | h
      · simp
        omega
      · have := ih h
        omega

theorem pairwise_newWorkers (next : Nat) (marks : List (Pid × Bool)) :
    (newWorkers next marks).Pairwise fun x y => x.1 < y.1 ∧ x.2.2 < y.2.2 := by
  induction marks generalizing next with
  | nil => exact List.Pairwise.nil
  | cons mark marks ih =>
    obtain ⟨pid, pending⟩ := mark
    cases pending with
    | false => exact ih next
    | true =>
      refine List.Pairwise.cons (fun y hy => ?_) (ih (next + 2))
      have := mem_newWorkers hy
      simp only
      omega

theorem newWorkers_actors {pid : Pid} (h : (pid, true) ∈ marks) :
    pid ∈ (newWorkers next marks).map (·.2.1) := by
  induction marks generalizing next with
  | nil => cases h
  | cons mark marks ih =>
    obtain ⟨q, pending⟩ := mark
    cases pending with
    | false =>
      rcases mem_cons.mp h with h | h
      · cases h
      · exact ih h
    | true =>
      rcases mem_cons.mp h with h | h
      · cases h
        exact mem_cons_self
      · exact mem_cons_of_mem _ (ih h)

theorem startupResumeAll_some {w : StartupWorld} {writer : StartupWriter}
    (h : w.writer = some writer) :
    w.startupResumeAll =
      { w with
        writer := some { writer with suspended := writer.suspended.map fun mark => (mark.1, false) }
        resumes := (newWorkers w.next writer.suspended).reverse ++ w.resumes
        next := w.next + 2 * (newWorkers w.next writer.suspended).length
        started :=
          ((newWorkers w.next writer.suspended).map fun x => (x.1, x.2.1)).reverse ++ w.started
        owed := w.owed.filter fun p =>
          !((newWorkers w.next writer.suspended).map (·.2.1)).contains p } := by
  unfold startupResumeAll
  rw [h]
  simp only [foldl_startupResume]

/-- The readers after the waiting initializers were let in. -/
def readersAfter (readers : List (Pid × Nat)) (waiting : List (Pid × Nat × Nat)) :
    List (Pid × Nat) :=
  waiting.reverse.foldl (fun readers x => (x.1, x.2.2) :: readers.filter (·.1 ≠ x.1)) readers

/-- The gate after its writer has ended. -/
def withoutWriter (safe : Bool) (w : StartupWorld) : StartupWorld :=
  { w with writer := none, fenced := !safe, waiting := [], sealedBy := none, owed := [] }

theorem foldl_grant (waiters : List (Pid × Nat × Nat)) (w : StartupWorld) :
    waiters.foldl (fun w x => startupGrant x.1 x.2.1 x.2.2 true w) w =
      { w with
        readers := waiters.foldl (fun readers x => (x.1, x.2.2) :: readers.filter (·.1 ≠ x.1))
          w.readers
        inside := (waiters.map (·.1)).reverse ++ w.inside
        grants := (waiters.map (·.1)).reverse ++ w.grants
        replies := (waiters.map fun x => (x.2.1, .granted true)).reverse ++ w.replies } := by
  induction waiters generalizing w with
  | nil => simp
  | cons x waiters ih =>
    rw [foldl_cons, ih]
    simp [startupGrant, reply]

theorem foldl_refuse (waiters : List (Pid × Nat × Nat)) (w : StartupWorld) :
    waiters.foldl (fun w x => w.reply x.2.1 .recoveryRequired) w =
      { w with
        replies := (waiters.map fun x => (x.2.1, .recoveryRequired)).reverse ++ w.replies } := by
  induction waiters generalizing w with
  | nil => simp
  | cons x waiters ih =>
    rw [foldl_cons, ih]
    simp [reply]

theorem startupReleaseWaiters_safe (w : StartupWorld) :
    startupReleaseWaiters true w =
      { withoutWriter true w with
        readers := readersAfter w.readers w.waiting
        inside := w.waiting.map (·.1) ++ w.inside
        grants := w.waiting.map (·.1) ++ w.grants
        replies := (w.waiting.map fun x => (x.2.1, .granted true)) ++ w.replies } := by
  simp only [startupReleaseWaiters, if_true]
  rw [foldl_grant]
  simp [withoutWriter, readersAfter]

theorem startupReleaseWaiters_stopped (w : StartupWorld) :
    startupReleaseWaiters false w =
      { withoutWriter false w with
        replies := (w.waiting.map fun x => (x.2.1, .recoveryRequired)) ++ w.replies } := by
  simp only [startupReleaseWaiters, Bool.false_eq_true, if_false]
  rw [foldl_refuse]
  simp [withoutWriter]

/-- Letting the waiting initializers in keeps everyone inside a reader. -/
theorem subset_readersAfter {readers : List (Pid × Nat)} {waiting : List (Pid × Nat × Nat)}
    {pid : Pid} (h : pid ∈ waiting.map (·.1) ∨ pid ∈ readers.map (·.1)) :
    pid ∈ (readersAfter readers waiting).map (·.1) := by
  unfold readersAfter
  have hrev : pid ∈ waiting.reverse.map (·.1) ∨ pid ∈ readers.map (·.1) := by simpa using h
  clear h
  generalize waiting.reverse = waiters at hrev ⊢
  induction waiters generalizing readers with
  | nil => exact hrev.resolve_left not_mem_nil
  | cons x waiters ih =>
    rw [foldl_cons]
    refine ih ?_
    by_cases hx : pid = x.1
    · exact .inr (by simp [hx])
    · rcases hrev with h | h
      · rw [map_cons, mem_cons] at h
        exact .inl (h.resolve_left hx)
      · refine .inr ?_
        obtain ⟨y, hy, hfst⟩ := mem_map.mp h
        have hne : y.1 ≠ x.1 := by rw [hfst]; exact hx
        rw [map_cons, mem_cons]
        exact .inr (mem_map.mpr ⟨y, mem_filter.mpr ⟨hy, by simpa using hne⟩, hfst⟩)

end StartupWorld

end Ridge
