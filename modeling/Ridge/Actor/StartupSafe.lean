import Ridge.Actor.StartupAnswers

/-!
# The startup gate is a safe reader/writer gate

`Account` is what holds in every state of the gate and `GateStep` what holds of every turn. Both
follow from the four invariants, and hold along every run of the events that callers, resume workers
and deaths can bring about.
-/

namespace Ridge

open List Option

variable {w w' : StartupWorld} {e : StartupEvent} {grants admitted : List Pid}

namespace StartupWorld

/-- The writer ends: by its `finish` or its death. -/
def EndsWriter (w : StartupWorld) (e : StartupEvent) : Prop :=
  ∃ writer, w.writer = some writer ∧
    ((∃ ref, e = .call writer.pid ref .finish) ∨ e = .down writer.monitor writer.pid)

/-- The writer takes back its commit, or ends. -/
def EndsSeal (e : StartupEvent) (pid : Pid) : Prop :=
  (∃ ref, e = .call pid ref .finish) ∨ (∃ ref, e = .call pid ref .abort) ∨ ∃ mon, e = .down mon pid

structure GateStep (w : StartupWorld) (e : StartupEvent) : Prop where
  admits : (w.step e).admitted ≠ w.admitted → w.writer = none ∧ w.inside = []
  writer_stays : ∀ writer, w.writer = some writer →
    EndsWriter w e ∨ ∃ writer', (w.step e).writer = some writer' ∧ writer'.pid = writer.pid
  sealed_grants : w.sealedBy ≠ none → (w.step e).sealedBy ≠ none → (w.step e).grants = w.grants
  unseals : ∀ pid, w.sealedBy = some pid → (w.step e).sealedBy ≠ some pid → EndsSeal e pid
  abort_settled : ∀ q ∈ (w.step e).asked, q.2.2 = .abort → ∀ a, (q.1, a) ∈ (w.step e).replies →
    (q.1, a) ∈ w.replies ∨ a = .writerMissing ∨ (w.step e).resumes = []
  stopping_end : EndsWriter w e → w.startupSafe = false → ∀ more,
    (runEvents step (w.step e) more).grants = w.grants ∧
      (runEvents step (w.step e) more).admitted = w.admitted

/-- Why a call may be without its answer. -/
def Pending (w : StartupWorld) (q : Nat × Pid × StartupRequest) : Prop :=
  q.2.1 ∈ w.dead ∨
    q.2.2 = .enter ∧ q.1 ∈ w.waiting.map (·.2.1) ∧ w.writer ≠ none ∨
    q.2.2 = .abort ∧ w.abortRef = some q.1 ∧ w.resumes ≠ []

structure Account (w : StartupWorld) : Prop where
  running : w.crashed = false
  answered : ∀ q ∈ w.asked, (w.replies.map (·.1)).count q.1 = 1 ∨
    (w.replies.map (·.1)).count q.1 = 0 ∧ w.Pending q
  fitting : ∀ q ∈ w.asked, ∀ a, (q.1, a) ∈ w.replies → Fits q.2.2 a
  cancelled : ∀ writer, w.writer = some writer → writer.phase = .cancelled → w.owed = []
  resumed : ∀ s ∈ w.started,
    (∃ mon, (s.1, s.2, mon) ∈ w.resumes) ∨ ∃ r, (s.1, s.2, r) ∈ w.settled

structure Invariant (w : StartupWorld) : Prop where
  admission : Admission w
  workers : Workers w
  debts : Debts w
  answers : Answers w

theorem Invariant.start (active : Bool) : Invariant (init active) where
  admission := ⟨nofun, nofun, fun h => absurd rfl h⟩
  workers := ⟨rfl, nodup_nil, nodup_nil, nofun, nofun⟩
  debts := ⟨nofun, nofun⟩
  answers := Answers.start active

theorem Invariant.step (h : Invariant w) (he : Enabled w e) : Invariant (w.step e) := by
  have ht := turn_of_step h.workers.monitors he
  exact ⟨h.admission.turn ht, h.workers.turn ht, h.debts.turn ht, h.answers.turn he ht⟩

/-! ## In every state -/

variable {q : Nat × Pid × StartupRequest}

theorem Invariant.pending (h : Invariant w) (hq : q ∈ w.asked)
    (hzero : (w.replies.map (·.1)).count q.1 = 0) : w.Pending q := by
  rcases h.answers.credited q hq with hone | ⟨hdead, -⟩
  · rw [credit, hzero] at hone
    by_cases hwait : q.1 ∈ w.waiting.map (·.2.1)
    · obtain ⟨x, hx, href⟩ := mem_map.mp hwait
      have heq := inj_on_of_nodup_map h.answers.asked_once (h.answers.waiting_asked x hx) hq
        href
      refine .inr (.inl ⟨?_, hwait, h.admission.waiting_writer (ne_nil_of_mem hx)⟩)
      rw [← heq]
    · have hcount : (w.waiting.map (·.2.1)).count q.1 = 0 := count_eq_zero.mpr hwait
      have hpending : w.abortRef = some q.1 := by
        by_contra hne
        rw [if_neg hne] at hone
        omega
      obtain ⟨waiter, hbind, hsnd⟩ := map_eq_some_iff.mp hpending
      obtain ⟨writer, hw, habort⟩ := bind_eq_some_iff.mp hbind
      obtain ⟨-, hasked⟩ := h.answers.abort_asked writer waiter.1 waiter.2 hw habort
      have heq := inj_on_of_nodup_map h.answers.asked_once hasked hq hsnd
      refine .inr (.inr ⟨?_, hpending, h.answers.abort_waits ?_⟩)
      · rw [← heq]
      · rw [hpending]
        exact Option.some_ne_none q.1
  · exact .inl hdead

theorem Invariant.account (h : Invariant w) : Account w where
  running := h.workers.running
  answered q hq := by
    have hle : (w.replies.map (·.1)).count q.1 ≤ 1 := by
      have hcredit := h.answers.credited q hq
      rw [credit] at hcredit
      omega
    rcases Nat.le_one_iff_eq_zero_or_eq_one.mp hle with hzero | hone
    · exact .inr ⟨hzero, h.pending hq hzero⟩
    · exact .inl hone
  fitting := h.answers.fitting
  cancelled _ hw hphase := h.debts.owed_eq_nil hw hphase
  resumed := h.workers.accounted

/-! ## In every turn -/

theorem startupResumeAll_admission (w : StartupWorld) :
    w.startupResumeAll.admitted = w.admitted ∧ w.startupResumeAll.grants = w.grants ∧
      w.startupResumeAll.sealedBy = w.sealedBy := by
  cases hw : w.writer with
  | none =>
    unfold startupResumeAll
    rw [hw]
    exact ⟨rfl, rfl, rfl⟩
  | some writer =>
    rw [startupResumeAll_some hw]
    exact ⟨rfl, rfl, rfl⟩

theorem startupAbortReply_admission (w : StartupWorld) :
    w.startupAbortReply.admitted = w.admitted ∧ w.startupAbortReply.grants = w.grants ∧
      w.startupAbortReply.sealedBy = w.sealedBy := by
  unfold startupAbortReply
  repeat' split
  all_goals exact ⟨rfl, rfl, rfl⟩

theorem startupReleaseWaiters_admission (safe : Bool) (w : StartupWorld) :
    (startupReleaseWaiters safe w).admitted = w.admitted ∧
      (startupReleaseWaiters safe w).sealedBy = none ∧
      (safe = false → (startupReleaseWaiters safe w).grants = w.grants) := by
  cases safe with
  | true =>
    rw [startupReleaseWaiters_safe]
    exact ⟨rfl, rfl, nofun⟩
  | false =>
    rw [startupReleaseWaiters_stopped]
    exact ⟨rfl, rfl, fun _ => rfl⟩

theorem Turn.writer_stays (ht : Turn w e w') {writer : StartupWriter} (hw : w.writer = some writer) :
    EndsWriter w e ∨ ∃ writer', w'.writer = some writer' ∧ writer'.pid = writer.pid := by
  have hresumes : ∀ {w : StartupWorld} {pid : Pid},
      (∃ writer, w.writer = some writer ∧ writer.pid = pid) →
      ∃ writer, w.startupResumeAll.writer = some writer ∧ writer.pid = pid := by
    intro w pid ⟨writer, hw, hpid⟩
    rw [startupResumeAll_some hw]
    exact ⟨_, rfl, hpid⟩
  have hreplies : ∀ {w : StartupWorld} {pid : Pid},
      (∃ writer, w.writer = some writer ∧ writer.pid = pid) →
      ∃ writer, w.startupAbortReply.writer = some writer ∧ writer.pid = pid := by
    intro w pid ⟨writer, hw, hpid⟩
    rcases startupAbortReply_cases w with ⟨old, p, ref, a, hold, -, -, -, heq⟩ | ⟨-, heq⟩
    · rw [hw] at hold
      cases hold
      rw [heq]
      exact ⟨_, rfl, hpid⟩
    · rw [heq]
      exact ⟨writer, hw, hpid⟩
  cases ht with
  | plain | refused | granted | queued | left | unfinished | stays | dies =>
    exact .inr ⟨writer, hw, rfl⟩
  | begins _ hnone => exact nomatch hnone.symm.trans hw
  | cancels _ hold =>
    rw [hw] at hold
    cases hold
    refine .inr ?_
    rw [(startupGrant_frame _ _ _ _ _).2.1]
    apply hresumes
    exact ⟨_, rfl, rfl⟩
  | suspends hold | commits hold =>
    rw [hw] at hold
    cases hold
    exact .inr ⟨_, rfl, rfl⟩
  | suspendsLate hold =>
    rw [hw] at hold
    cases hold
    right
    apply hresumes
    exact ⟨_, rfl, rfl⟩
  | aborts hold =>
    rw [hw] at hold
    cases hold
    right
    apply hreplies
    apply hresumes
    exact ⟨_, rfl, rfl⟩
  | @finishes pid ref old answer hold hpid =>
    subst hpid
    exact .inl ⟨old, hold, .inl ⟨ref, rfl⟩⟩
  | @writerDies mon pid old hold hpid hmon =>
    subst hpid hmon
    exact .inl ⟨old, hold, .inr rfl⟩
  | resumes =>
    right
    apply hreplies
    exact ⟨_, congrArg (Option.map _) hw, rfl⟩
  | workerDies => exact .inr (hreplies ⟨writer, hw, rfl⟩)

/-- Only `begin_reload` on an idle gate admits a writer. -/
theorem Turn.admits (h : Admission w) (ht : Turn w e w') (hadmits : w'.admitted ≠ w.admitted) :
    w.writer = none ∧ w.inside = [] := by
  cases ht with
  | plain | refused | granted | queued | left | unfinished | stays | dies | suspends | commits =>
    exact absurd rfl hadmits
  | begins _ hwriter hreaders =>
    refine ⟨hwriter, eq_nil_iff_forall_not_mem.mpr fun pid hpid => ?_⟩
    have hreader := h.inside_readers pid hpid
    rw [hreaders] at hreader
    cases hreader
  | cancels | suspendsLate => exact absurd (startupResumeAll_admission _).1 hadmits
  | aborts =>
    exact absurd ((startupAbortReply_admission _).1.trans (startupResumeAll_admission _).1)
      hadmits
  | finishes | writerDies => exact absurd (startupReleaseWaiters_admission _ _).1 hadmits
  | resumes | workerDies => exact absurd (startupAbortReply_admission _).1 hadmits

/-- No initializer gets in past a commit. -/
theorem Turn.sealed_grants (h : Admission w) (ht : Turn w e w') (hs : w.sealedBy ≠ none)
    (hs' : w'.sealedBy ≠ none) : w'.grants = w.grants := by
  obtain ⟨pid, hpid⟩ := ne_none_iff_exists'.mp hs
  obtain ⟨writer, hw, -, hphase⟩ := h.sealed_writer pid hpid
  cases ht with
  | plain | refused | queued | left | unfinished | stays | dies | begins | suspends | commits => rfl
  | granted _ hcancelled => cases hphase.symm.trans (hcancelled writer hw)
  | cancels _ hold hpreparing =>
    rw [hw] at hold
    cases hold
    cases hphase.symm.trans hpreparing
  | suspendsLate => exact (startupResumeAll_admission _).2.1
  | aborts =>
    exact (startupAbortReply_admission _).2.1.trans (startupResumeAll_admission _).2.1
  | finishes | writerDies => exact absurd (startupReleaseWaiters_admission _ _).2.1 hs'
  | resumes | workerDies => exact (startupAbortReply_admission _).2.1

/-- A commit holds until its writer takes it back or ends. -/
theorem Turn.unseals (h : Admission w) (ht : Turn w e w') {pid : Pid} (hs : w.sealedBy = some pid)
    (hs' : w'.sealedBy ≠ some pid) : EndsSeal e pid := by
  obtain ⟨writer, hw, hown, hphase⟩ := h.sealed_writer pid hs
  have hburied : ∀ {mon p : Nat}, (w.bury p).sealedBy ≠ some pid → EndsSeal (.down mon p) pid := by
    intro mon p hne
    by_cases hp : w.sealedBy = some p
    · cases hs.symm.trans hp
      exact .inr (.inr ⟨mon, rfl⟩)
    · rw [bury, if_neg hp] at hne
      exact absurd hs hne
  cases ht with
  | plain | refused | granted | queued | left | unfinished | stays | begins | suspends =>
    exact absurd hs hs'
  | cancels _ hold hpreparing | commits hold _ hpreparing | suspendsLate hold _ hpreparing =>
    rw [hw] at hold
    cases hold
    cases hphase.symm.trans hpreparing
  | @aborts caller ref old hold hpid =>
    rw [hw] at hold
    cases hold
    cases hown.symm.trans hpid
    exact .inr (.inl ⟨ref, rfl⟩)
  | @finishes caller ref old answer hold hpid =>
    rw [hw] at hold
    cases hold
    cases hown.symm.trans hpid
    exact .inl ⟨ref, rfl⟩
  | @writerDies mon p old hold hpid hmon =>
    rw [hw] at hold
    cases hold
    cases hown.symm.trans hpid
    exact .inr (.inr ⟨mon, rfl⟩)
  | resumes =>
    rw [(startupAbortReply_admission _).2.2] at hs'
    exact absurd hs hs'
  | workerDies =>
    rw [(startupAbortReply_admission _).2.2] at hs'
    exact hburied hs'
  | dies => exact hburied hs'

theorem Turn.abort_settled (h : Answers w) (h' : Answers w') (ht : Turn w e w') (hq : q ∈ w'.asked)
    (habort : q.2.2 = .abort) {a : StartupAnswer} (ha : (q.1, a) ∈ w'.replies) :
    (q.1, a) ∈ w.replies ∨ a = .writerMissing ∨ w'.resumes = [] := by
  rcases ht.replies h _ ha with hold | ⟨p, hp, hpref, -, hsettled⟩
  · exact .inl hold
  · have heq := inj_on_of_nodup_map h'.asked_once hp hq hpref
    subst heq
    exact .inr (hsettled habort)

/-! ## After an unsafe end -/

/-- The gate that lets no one in any more. -/
structure Fenced (grants admitted : List Pid) (w : StartupWorld) : Prop where
  fenced : w.fenced = true
  writer : w.writer = none
  waiting : w.waiting = []
  grants : w.grants = grants
  admitted : w.admitted = admitted

theorem Fenced.startupFenced (h : Fenced grants admitted w) : w.startupFenced = true := by
  rw [StartupWorld.startupFenced, h.fenced]
  rfl

theorem startupAbortReply_none (h : w.writer = none) : w.startupAbortReply = w := by
  unfold startupAbortReply
  rw [h]

theorem Fenced.call (h : Fenced grants admitted w) (pid : Pid) (ref : Nat)
    (request : StartupRequest) : Fenced grants admitted (startupCall pid ref request w) := by
  have hreply : ∀ a, Fenced grants admitted ((w.ask pid ref request).reply ref a) := fun a =>
    ⟨h.fenced, h.writer, h.waiting, h.grants, h.admitted⟩
  have hfenced : (w.ask pid ref request).startupFenced = true := h.startupFenced
  cases request with
  | enter =>
    show Fenced grants admitted (startupEnter pid ref (w.ask pid ref .enter))
    rw [startupEnter, if_pos hfenced]
    exact hreply _
  | leave =>
    show Fenced grants admitted (startupLeave pid ref (w.ask pid ref .leave))
    unfold startupLeave
    split
    · exact ⟨h.fenced, h.writer, h.waiting, h.grants, h.admitted⟩
    · exact hreply _
  | beginReload =>
    show Fenced grants admitted (startupBegin pid ref (w.ask pid ref .beginReload))
    unfold startupBegin
    have hnot : ¬((w.ask pid ref .beginReload).startupFenced = false ∧
        (w.ask pid ref .beginReload).writer = none ∧
        (w.ask pid ref .beginReload).readers = []) := fun hand => by
      rw [hfenced] at hand
      exact absurd hand.1 nofun
    rw [if_neg hnot, if_pos hfenced]
    exact hreply _
  | suspended | commit | check | abort | finish =>
    unfold startupCall
    simp only [h.writer]
    exact hreply _

theorem Fenced.step (h : Fenced grants admitted w) (e : StartupEvent) :
    Fenced grants admitted (w.step e) := by
  cases e with
  | call pid ref request => exact h.call pid ref request
  | resumed tag answered alive =>
    show Fenced grants admitted (startupResumed tag (resumeResult answered alive) w)
    unfold startupResumed
    split
    · rw [startupAbortReply_none (by rw [h.writer]; rfl)]
      refine ⟨?_, congrArg (Option.map _) h.writer, h.waiting, h.grants, h.admitted⟩
      show (w.fenced || _) = true
      rw [h.fenced, Bool.true_or]
    · exact h
  | down mon pid =>
    have hdown : w.step (.down mon pid) = startupDownOther pid mon (w.bury pid) := by
      rw [StartupWorld.step, startupDown, h.writer]
      rfl
    rw [hdown]
    unfold startupDownOther
    split
    · rw [startupAbortReply_none]
      · exact ⟨rfl, h.writer, h.waiting, h.grants, h.admitted⟩
      · exact h.writer
    · refine ⟨h.fenced, h.writer, ?_, h.grants, h.admitted⟩
      show w.waiting.filter _ = []
      rw [h.waiting]
      rfl
    · exact ⟨h.fenced, h.writer, h.waiting, h.grants, h.admitted⟩
  | reload active => exact ⟨h.fenced, h.writer, h.waiting, h.grants, h.admitted⟩

theorem Fenced.run (h : Fenced grants admitted w) (events : List StartupEvent) :
    Fenced grants admitted (runEvents StartupWorld.step w events) := by
  induction events generalizing w with
  | nil => exact h
  | cons e events ih => exact ih (h.step e)

theorem fenced_release (hgrants : w.grants = grants) (hadmitted : w.admitted = admitted) :
    Fenced grants admitted (startupReleaseWaiters false w) := by
  rw [startupReleaseWaiters_stopped]
  exact ⟨rfl, rfl, rfl, hgrants, hadmitted⟩

theorem fenced_of_stopping_end (hend : EndsWriter w e) (hstopped : w.startupSafe = false) :
    Fenced w.grants w.admitted (w.step e) := by
  obtain ⟨writer, hw, ⟨ref, rfl⟩ | rfl⟩ := hend
  · have hstep : w.step (.call writer.pid ref .finish)
        = startupReleaseWaiters false ((w.ask writer.pid ref .finish).reply ref .recoveryRequired) := by
      have hask : (w.ask writer.pid ref .finish).startupSafe = false := hstopped
      show startupCall writer.pid ref .finish w = _
      unfold startupCall
      simp only [hw, if_true]
      rw [startupWriter]
      rw [ask] at hask
      rw [hask]
      rfl
    rw [hstep]
    refine fenced_release ?_ ?_ <;> rfl
  · have hstep : w.step (.down writer.monitor writer.pid)
        = startupReleaseWaiters false (w.bury writer.pid) := by
      have hbury : (w.bury writer.pid).startupSafe = false := hstopped
      show startupDown writer.pid writer.monitor w = _
      unfold startupDown
      simp only [hw, and_self, if_true]
      rw [bury] at hbury
      rw [hbury]
      rfl
    rw [hstep]
    refine fenced_release ?_ ?_ <;> rfl

theorem Invariant.gateStep (h : Invariant w) (he : Enabled w e) : GateStep w e := by
  have ht := turn_of_step h.workers.monitors he
  have h' := h.step he
  exact
    { admits := ht.admits h.admission
      writer_stays := fun _ hw => ht.writer_stays hw
      sealed_grants := ht.sealed_grants h.admission
      unseals := fun _ => ht.unseals h.admission
      abort_settled := fun _ hq habort _ => ht.abort_settled h.answers h'.answers hq habort
      stopping_end := fun hend hstopped more =>
        have hfenced := (fenced_of_stopping_end hend hstopped).run more
        ⟨hfenced.grants, hfenced.admitted⟩ }

/-- A reload that commits, keeps an initializer waiting, is taken back and ends. -/
def takenBack : List StartupEvent :=
  [.call 2 0 .beginReload, .call 2 1 (.suspended 7), .call 2 2 .commit, .call 1 3 .enter,
    .call 2 4 .abort, .resumed 2 true true, .call 2 5 .finish]

end StartupWorld

end Ridge
