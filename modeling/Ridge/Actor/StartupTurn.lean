import Ridge.Actor.Startup

/-!
# The startup gate — the turns it can take

`Turn w e w'` lists what one event can do to the gate, with what was checked before. Every turn of a
gate whose resume workers have monitors of their own is one of these, as long as no writer reports
a suspension after its commit.
-/

namespace Ridge

open List

variable {w : StartupWorld}

namespace StartupWorld

/-- What a caller can send: it waits for the answer to its last call, each call has a reference of
its own, and a writer reports suspensions only before it commits. -/
def Enabled (w : StartupWorld) : StartupEvent → Prop
  | .call pid ref request =>
    (∀ q ∈ w.asked, q.1 ≠ ref) ∧
    (∀ q ∈ w.asked, q.2.1 = pid → q.1 ∈ w.replies.map (·.1)) ∧
    ∀ actor, request = .suspended actor →
      ∀ writer, w.writer = some writer → writer.pid = pid → writer.phase ≠ .committing
  | _ => True

/-- The gate with a call noted. -/
def ask (w : StartupWorld) (pid : Pid) (ref : Nat) (request : StartupRequest) : StartupWorld :=
  { w with asked := (ref, pid, request) :: w.asked }

/-- The gate after a death was noted. -/
def bury (w : StartupWorld) (pid : Pid) : StartupWorld :=
  { w with
    dead := pid :: w.dead
    inside := w.inside.filter (· ≠ pid)
    sealedBy := if w.sealedBy = some pid then none else w.sealedBy }

/-- The answers that leave everything else as it is. -/
def PlainAnswer (request : StartupRequest) (answer : StartupAnswer) : Prop :=
  request ≠ .enter ∧ request ≠ .finish ∧ (request = .abort → answer = .writerMissing)

inductive Turn (w : StartupWorld) : StartupEvent → StartupWorld → Prop
  | plain {pid ref request answer} (h : PlainAnswer request answer) :
      Turn w (.call pid ref request) ((w.ask pid ref request).reply ref answer)
  | refused {pid ref} (h : w.startupFenced = true) :
      Turn w (.call pid ref .enter) ((w.ask pid ref .enter).reply ref .recoveryRequired)
  | granted {pid ref} (hfence : w.startupFenced = false)
      (h : ∀ writer, w.writer = some writer → writer.phase = .cancelled) :
      Turn w (.call pid ref .enter)
        (startupGrant pid ref w.next false { w.ask pid ref .enter with next := w.next + 1 })
  | queued {pid ref writer} (h : w.writer = some writer) (hphase : writer.phase = .committing) :
      Turn w (.call pid ref .enter)
        { w.ask pid ref .enter with
          next := w.next + 1, waiting := (pid, ref, w.next) :: w.waiting }
  | cancels {pid ref writer} (hfence : w.startupFenced = false) (h : w.writer = some writer)
      (hphase : writer.phase = .preparing) :
      Turn w (.call pid ref .enter)
        (startupGrant pid ref w.next false (startupResumeAll
          { w.ask pid ref .enter with
            next := w.next + 1, writer := some { writer with phase := .cancelled } }))
  | left {pid ref} (h : (w.readers.lookup pid).isSome = true) :
      Turn w (.call pid ref .leave)
        { (w.ask pid ref .leave).reply ref .ok with
          readers := w.readers.filter (·.1 ≠ pid)
          inside := w.inside.filter (· ≠ pid) }
  | begins {pid ref} (hfence : w.startupFenced = false) (hwriter : w.writer = none)
      (hreaders : w.readers = []) :
      Turn w (.call pid ref .beginReload)
        { (w.ask pid ref .beginReload).reply ref .ok with
          writer := some ⟨pid, w.next, .preparing, [], 0, none⟩
          next := w.next + 1
          admitted := pid :: w.admitted }
  | suspends {pid ref actor writer} (h : w.writer = some writer) (hpid : writer.pid = pid)
      (hphase : writer.phase = .preparing) :
      Turn w (.call pid ref (.suspended actor))
        { (w.ask pid ref (.suspended actor)).reply ref .ok with
          writer := some { writer with
            suspended := (actor, true) :: writer.suspended.filter (·.1 ≠ actor) }
          owed := actor :: w.owed }
  | suspendsLate {pid ref actor writer} (h : w.writer = some writer) (hpid : writer.pid = pid)
      (hphase : writer.phase = .cancelled) :
      Turn w (.call pid ref (.suspended actor))
        (startupResumeAll
          { (w.ask pid ref (.suspended actor)).reply ref .actorStarted with
            writer := some { writer with
              suspended := (actor, true) :: writer.suspended.filter (·.1 ≠ actor) }
            owed := actor :: w.owed })
  | commits {pid ref writer} (h : w.writer = some writer) (hpid : writer.pid = pid)
      (hphase : writer.phase = .preparing) :
      Turn w (.call pid ref .commit)
        { (w.ask pid ref .commit).reply ref .ok with
          writer := some { writer with phase := .committing }, sealedBy := some pid }
  | aborts {pid ref writer} (h : w.writer = some writer) (hpid : writer.pid = pid) :
      Turn w (.call pid ref .abort)
        (startupAbortReply (startupResumeAll
          { w.ask pid ref .abort with
            writer := some { writer with phase := .cancelled, abort := some (pid, ref) }
            sealedBy := none }))
  | finishes {pid ref writer answer} (h : w.writer = some writer) (hpid : writer.pid = pid) :
      Turn w (.call pid ref .finish)
        (startupReleaseWaiters w.startupSafe ((w.ask pid ref .finish).reply ref answer))
  | unfinished {pid ref} (h : ∀ writer, w.writer = some writer → writer.pid ≠ pid) :
      Turn w (.call pid ref .finish) ((w.ask pid ref .finish).reply ref .writerMissing)
  | stays {e active} (h : e = .reload active ∨ active = w.activeReload) (hev : ∀ p r q,
      e ≠ .call p r q) (hdown : ∀ mon p, e ≠ .down mon p) :
      Turn w e { w with activeReload := active }
  | resumes {tag answered alive target mon} (h : w.resumes.lookup tag = some (target, mon)) :
      Turn w (.resumed tag answered alive)
        (startupAbortReply
          { w with
            resumes := w.resumes.filter (·.1 ≠ tag)
            writer := w.writer.map fun writer =>
              { writer with resumed := writer.resumed +
                if resumeResult answered alive = .ok then 1 else 0 }
            fenced := w.fenced || resumeResult answered alive = .error
            settled := (tag, target, resumeResult answered alive) :: w.settled })
  | writerDies {mon pid writer} (h : w.writer = some writer) (hpid : writer.pid = pid)
      (hmon : writer.monitor = mon) :
      Turn w (.down mon pid) (startupReleaseWaiters w.startupSafe (w.bury pid))
  | workerDies {mon pid tag target} (h : (tag, target, mon) ∈ w.resumes) :
      Turn w (.down mon pid)
        (startupAbortReply
          { w.bury pid with
            fenced := true
            resumes := w.resumes.filter (·.1 ≠ tag)
            settled := (tag, target, .error) :: w.settled })
  | dies {mon pid} :
      Turn w (.down mon pid)
        { w.bury pid with
          readers := w.readers.filter fun reader => reader ≠ (pid, mon)
          waiting := w.waiting.filter fun waiter => waiter.1 ≠ pid ∨ waiter.2.2 ≠ mon }

theorem turn_enter (w : StartupWorld) (pid : Pid) (ref : Nat) :
    Turn w (.call pid ref .enter) (startupEnter pid ref (w.ask pid ref .enter)) := by
  unfold startupEnter
  have hfence : (w.ask pid ref .enter).startupFenced = w.startupFenced := rfl
  rw [hfence]
  by_cases hf : w.startupFenced = true
  · rw [if_pos hf]
    exact .refused hf
  · rw [if_neg hf]
    rw [Bool.not_eq_true] at hf
    cases hw : w.writer with
    | none =>
      have hgrant : Turn w (.call pid ref .enter) _ := .granted hf fun writer h => by
        rw [hw] at h
        cases h
      simpa only [ask, hw] using hgrant
    | some writer =>
      cases hphase : writer.phase with
      | committing =>
        have hqueued : Turn w (.call pid ref .enter) _ := .queued hw hphase
        simpa only [ask, hw, hphase] using hqueued
      | preparing =>
        have hcancels : Turn w (.call pid ref .enter) _ := .cancels hf hw hphase
        simpa only [ask, hw, hphase] using hcancels
      | cancelled =>
        have hgrant : Turn w (.call pid ref .enter) _ := .granted hf fun other h => by
          rw [hw] at h
          cases h
          exact hphase
        simpa only [ask, hw, hphase] using hgrant

theorem turn_leave (w : StartupWorld) (pid : Pid) (ref : Nat) :
    Turn w (.call pid ref .leave) (startupLeave pid ref (w.ask pid ref .leave)) := by
  unfold startupLeave
  split
  · rename_i h
    exact .left h
  · exact .plain ⟨by simp, by simp, by simp⟩

theorem turn_begin (w : StartupWorld) (pid : Pid) (ref : Nat) :
    Turn w (.call pid ref .beginReload) (startupBegin pid ref (w.ask pid ref .beginReload)) := by
  unfold startupBegin
  have hfence : (w.ask pid ref .beginReload).startupFenced = w.startupFenced := rfl
  rw [hfence]
  split
  · rename_i h
    exact .begins h.1 h.2.1 h.2.2
  · split
    · exact .plain ⟨by simp, by simp, by simp⟩
    · exact .plain ⟨by simp, by simp, by simp⟩

variable {request : StartupRequest}

theorem turn_writer {pid : Pid} {ref : Nat} {writer : StartupWriter} (h : w.writer = some writer)
    (hpid : writer.pid = pid)
    (hsuspended : ∀ actor, request = .suspended actor → writer.phase ≠ .committing)
    (henter : request ≠ .enter) (hleave : request ≠ .leave) (hbegin : request ≠ .beginReload) :
    Turn w (.call pid ref request)
      (startupWriter request pid ref writer (w.ask pid ref request)) := by
  cases request with
  | enter => exact absurd rfl henter
  | leave => exact absurd rfl hleave
  | beginReload => exact absurd rfl hbegin
  | suspended actor =>
    cases hphase : writer.phase with
    | committing => exact absurd hphase (hsuspended actor rfl)
    | preparing =>
      have hturn : Turn w (.call pid ref (.suspended actor)) _ := .suspends h hpid hphase
      simpa only [startupWriter, ask, reply, hphase] using hturn
    | cancelled =>
      have hturn : Turn w (.call pid ref (.suspended actor)) _ := .suspendsLate h hpid hphase
      simpa only [startupWriter, ask, reply, hphase] using hturn
  | commit =>
    cases hphase : writer.phase with
    | preparing =>
      have hturn : Turn w (.call pid ref .commit) _ := .commits h hpid hphase
      simpa only [startupWriter, ask, reply, hphase] using hturn
    | _ =>
      simp only [startupWriter, hphase]
      exact .plain ⟨by simp, by simp, by simp⟩
  | check =>
    cases hphase : writer.phase <;> simp only [startupWriter, hphase] <;>
      exact .plain ⟨by simp, by simp, by simp⟩
  | abort => exact .aborts h hpid
  | finish => exact .finishes h hpid

theorem turn_call {pid : Pid} {ref : Nat} (h : Enabled w (.call pid ref request)) :
    Turn w (.call pid ref request) (startupCall pid ref request w) := by
  -- A request that only the writer may make.
  have hwriter : ∀ request, Enabled w (.call pid ref request) → request ≠ .enter →
      request ≠ .leave → request ≠ .beginReload →
      Turn w (.call pid ref request) (startupCall pid ref request w) := by
    intro request h henter hleave hbegin
    have hmissing : (∀ writer, w.writer = some writer → writer.pid ≠ pid) →
        Turn w (.call pid ref request) ((w.ask pid ref request).reply ref .writerMissing) := by
      intro hne
      by_cases hfinish : request = .finish
      · subst hfinish
        exact .unfinished hne
      · exact .plain ⟨henter, hfinish, fun _ => rfl⟩
    cases hw : w.writer with
    | none =>
      have hcall : startupCall pid ref request w =
          (w.ask pid ref request).reply ref .writerMissing := by
        cases request <;> first | contradiction | (simp only [startupCall, hw]; rfl)
      rw [hcall]
      exact hmissing fun writer h => by rw [hw] at h; cases h
    | some writer =>
      have hcall : startupCall pid ref request w = if writer.pid = pid then
          startupWriter request pid ref writer (w.ask pid ref request)
          else (w.ask pid ref request).reply ref .writerMissing := by
        cases request <;> first | contradiction | (simp only [startupCall, hw]; rfl)
      rw [hcall]
      by_cases hpid : writer.pid = pid
      · rw [if_pos hpid]
        exact turn_writer hw hpid (fun actor hr => h.2.2 actor hr writer hw hpid) henter hleave
          hbegin
      · rw [if_neg hpid]
        refine hmissing fun other h => ?_
        rw [hw] at h
        cases h
        exact hpid
  cases request with
  | enter => exact turn_enter w pid ref
  | leave => exact turn_leave w pid ref
  | beginReload => exact turn_begin w pid ref
  | suspended actor | commit | check | abort | finish =>
    exact hwriter _ h (by simp) (by simp) (by simp)

section

variable (hmons : (w.resumes.map (·.2.2)).Nodup)
include hmons

/-- The gate looks a dead process's monitor up among the workers; there is at most one. -/
theorem turn_downOther (mon : Nat) (pid : Pid) :
    Turn w (.down mon pid) (startupDownOther pid mon (w.bury pid)) := by
  have hall : ∀ x ∈ w.resumes.filter (·.2.2 = mon), x ∈ w.resumes ∧ x.2.2 = mon := fun x hx =>
    ⟨(mem_filter.mp hx).1, of_decide_eq_true (mem_filter.mp hx).2⟩
  have hnodup : ((w.resumes.filter (·.2.2 = mon)).map (·.2.2)).Nodup :=
    (filter_sublist.map _).nodup hmons
  show Turn w (.down mon pid) (startupDownOther pid mon (w.bury pid))
  unfold startupDownOther
  have hres : (w.bury pid).resumes = w.resumes := rfl
  rw [hres]
  generalize w.resumes.filter (·.2.2 = mon) = found at hall hnodup
  rcases found with _ | ⟨⟨tag, target, mon'⟩, _ | ⟨y, rest⟩⟩
  · exact .dies
  · have hx := hall _ mem_cons_self
    have hmon : mon' = mon := hx.2
    subst hmon
    exact .workerDies hx.1
  · have hx := (hall _ mem_cons_self).2
    have hy := (hall y (mem_cons_of_mem _ mem_cons_self)).2
    rw [map_cons, map_cons, nodup_cons] at hnodup
    exact absurd (hx.trans hy.symm ▸ mem_cons_self) hnodup.1

/-- A death, of the writer, of a resume worker, or of someone else. -/
theorem turn_down (mon : Nat) (pid : Pid) : Turn w (.down mon pid) (startupDown pid mon w) := by
  unfold startupDown
  dsimp only
  cases hw : w.writer with
  | none => exact turn_downOther hmons mon pid
  | some writer =>
    by_cases h : writer.pid = pid ∧ writer.monitor = mon
    · simp only [if_pos h]
      exact .writerDies hw h.1 h.2
    · simp only [if_neg h]
      exact turn_downOther hmons mon pid

/-- Every turn of a gate whose resume workers have monitors of their own is one of the list. -/
theorem turn_of_step {e : StartupEvent} (h : Enabled w e) : Turn w e (w.step e) := by
  cases e with
  | call pid ref request => exact turn_call h
  | resumed tag answered alive =>
    show Turn w _ (startupResumed tag (resumeResult answered alive) w)
    unfold startupResumed
    cases h : w.resumes.lookup tag with
    | some target => exact .resumes h
    | none => exact .stays (.inr rfl) nofun nofun
  | down mon pid => exact turn_down hmons mon pid
  | reload active => exact .stays (.inl rfl) nofun nofun

end

end StartupWorld

end Ridge
