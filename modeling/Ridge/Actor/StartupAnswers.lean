import Ridge.Actor.StartupInvariant

/-!
# The startup gate — every call is answered once

The answers given for a call, its places in the queue of waiting initializers and an abort that
still waits for its resumes are counted together (`credit`): a call adds one to its own count, and
a turn moves it from a queue to the answers. It is lost only with the death of the caller.
-/

namespace Ridge

open List Option

variable {w w' : StartupWorld} {ref : Nat} {writer : StartupWriter} {pid : Pid}
    {request : StartupRequest} {e : StartupEvent}

namespace StartupWorld

/-- The abort that waits for its resumes to settle. -/
def abortRef (w : StartupWorld) : Option Nat := (w.writer.bind (·.abort)).map Prod.snd

/-- How often a call was answered, or is going to be. -/
def credit (w : StartupWorld) (ref : Nat) : Nat :=
  (w.replies.map (·.1)).count ref + (w.waiting.map (·.2.1)).count ref
    + if w.abortRef = some ref then 1 else 0

/-- The answers a request can get. -/
def Fits : StartupRequest → StartupAnswer → Prop
  | .enter, a => (∃ queued, a = .granted queued) ∨ a = .recoveryRequired
  | .abort, a => a = .writerMissing ∨ (∃ n, a = .resumed n) ∨ ∃ n, a = .recoveryRequiredAfter n
  | _, _ => True

structure Answers (w : StartupWorld) : Prop where
  asked_once : (w.asked.map (·.1)).Nodup
  unasked : ∀ ref, ref ∉ w.asked.map (·.1) → w.credit ref = 0
  credited : ∀ q ∈ w.asked, w.credit q.1 = 1 ∨ q.2.1 ∈ w.dead ∧ w.credit q.1 = 0
  waiting_asked : ∀ x ∈ w.waiting, (x.2.1, x.1, .enter) ∈ w.asked
  abort_asked : ∀ writer pid ref, w.writer = some writer → writer.abort = some (pid, ref) →
    pid = writer.pid ∧ (ref, pid, .abort) ∈ w.asked
  abort_waits : w.abortRef ≠ none → w.resumes ≠ []
  fitting : ∀ q ∈ w.asked, ∀ a, (q.1, a) ∈ w.replies → Fits q.2.2 a

/-! ## Credit -/

theorem credit_answered (a : StartupAnswer) (hreplies : w'.replies = (ref, a) :: w.replies)
    (hwaiting : w'.waiting = w.waiting) (habort : w'.abortRef = w.abortRef) (r : Nat) :
    w'.credit r = w.credit r + if r = ref then 1 else 0 := by
  rw [credit, credit, hreplies, hwaiting, habort, map_cons, count_cons]
  by_cases h : r = ref
  · simp [h]
    omega
  · simp [h, Ne.symm h]

theorem credit_reply (w : StartupWorld) (ref : Nat) (a : StartupAnswer) (r : Nat) :
    (w.reply ref a).credit r = w.credit r + if r = ref then 1 else 0 := by
  refine credit_answered a ?_ ?_ ?_ r <;> rfl

theorem credit_congr (hreplies : w'.replies = w.replies) (hwaiting : w'.waiting = w.waiting)
    (habort : w'.abortRef = w.abortRef) (r : Nat) : w'.credit r = w.credit r := by
  rw [credit, credit, hreplies, hwaiting, habort]

theorem abortRef_some (h : w.writer = some writer) : w.abortRef = writer.abort.map Prod.snd := by
  rw [abortRef, h]
  rfl

theorem abortRef_none (h : w.writer = none) : w.abortRef = none := by
  rw [abortRef, h]
  rfl

theorem startupResumeAll_frame (w : StartupWorld) :
    w.startupResumeAll.replies = w.replies ∧ w.startupResumeAll.waiting = w.waiting ∧
      w.startupResumeAll.abortRef = w.abortRef ∧ w.startupResumeAll.asked = w.asked ∧
      w.startupResumeAll.dead = w.dead := by
  cases hw : w.writer with
  | none =>
    unfold startupResumeAll
    rw [hw]
    exact ⟨rfl, rfl, rfl, rfl, rfl⟩
  | some writer =>
    rw [startupResumeAll_some hw]
    exact ⟨rfl, rfl, (abortRef_some hw).symm, rfl, rfl⟩

theorem credit_resumeAll (w : StartupWorld) (r : Nat) :
    w.startupResumeAll.credit r = w.credit r := by
  obtain ⟨hreplies, hwaiting, habort, -⟩ := startupResumeAll_frame w
  exact credit_congr hreplies hwaiting habort r

/-- An abort is answered once its resumes have settled, or goes on waiting. -/
theorem startupAbortReply_cases (w : StartupWorld) :
    (∃ writer pid ref a, w.writer = some writer ∧ writer.abort = some (pid, ref) ∧ w.resumes = [] ∧
      ((∃ n, a = .resumed n) ∨ ∃ n, a = .recoveryRequiredAfter n) ∧
      w.startupAbortReply =
        { w.reply ref a with writer := some { writer with abort := none } }) ∨
    (w.abortRef ≠ none → w.resumes ≠ []) ∧ w.startupAbortReply = w := by
  unfold startupAbortReply
  cases hw : w.writer with
  | none => exact .inr ⟨fun h => absurd (abortRef_none hw) h, rfl⟩
  | some writer =>
    dsimp only
    cases habort : writer.abort with
    | none =>
      have hnone : w.abortRef = none := by rw [abortRef_some hw, habort]; rfl
      exact .inr ⟨fun h => absurd hnone h, rfl⟩
    | some waiter =>
      obtain ⟨pid, ref⟩ := waiter
      cases hres : w.resumes with
      | cons x rest => exact .inr ⟨fun _ => cons_ne_nil _ _, rfl⟩
      | nil =>
        refine .inl ⟨writer, pid, ref, _, rfl, habort, rfl, ?_, rfl⟩
        cases w.fenced with
        | true => exact .inr ⟨_, rfl⟩
        | false => exact .inl ⟨_, rfl⟩

theorem credit_abortReply (w : StartupWorld) (r : Nat) :
    w.startupAbortReply.credit r = w.credit r := by
  rcases startupAbortReply_cases w with ⟨writer, pid, ref, a, hw, habort, -, -, heq⟩ | ⟨-, heq⟩
  · have hpending : w.abortRef = some ref := by rw [abortRef_some hw, habort]; rfl
    rw [heq, credit, credit, hpending]
    show (((ref, a) :: w.replies).map (·.1)).count r + (w.waiting.map (·.2.1)).count r
      + (if (none : Option Nat) = some r then 1 else 0) = _
    rw [map_cons, count_cons]
    by_cases h : r = ref
    · simp [h]
      omega
    · simp [Ne.symm h]
  · rw [heq]

/-- The waiting initializers are answered; an abort that still waits is not. -/
theorem credit_release (safe : Bool) (w : StartupWorld) (r : Nat) :
    (startupReleaseWaiters safe w).credit r + (if w.abortRef = some r then 1 else 0)
      = w.credit r := by
  have hmap : ∀ a : StartupAnswer,
      ((w.waiting.map fun x => (x.2.1, a)) ++ w.replies).map (·.1)
        = w.waiting.map (·.2.1) ++ w.replies.map (·.1) := by
    intro a
    rw [List.map_append, List.map_map]
    rfl
  have hcount : ∀ a : StartupAnswer,
      (((w.waiting.map fun x => (x.2.1, a)) ++ w.replies).map (·.1)).count r
        = (w.replies.map (·.1)).count r + (w.waiting.map (·.2.1)).count r := by
    intro a
    rw [hmap, List.count_append, Nat.add_comm]
  cases safe with
  | true =>
    rw [startupReleaseWaiters_safe, credit, credit]
    show (((w.waiting.map fun x => (x.2.1, StartupAnswer.granted true)) ++ w.replies).map
      (·.1)).count r + 0 + 0 + _ = _
    rw [hcount]
    rfl
  | false =>
    rw [startupReleaseWaiters_stopped, credit, credit]
    show (((w.waiting.map fun x => (x.2.1, StartupAnswer.recoveryRequired)) ++ w.replies).map
      (·.1)).count r + 0 + 0 + _ = _
    rw [hcount]
    rfl

/-! ## A writer that calls has no abort waiting -/

theorem Answers.noAbort (h : Answers w) (he : Enabled w (.call pid ref request))
    (hw : w.writer = some writer) (hpid : writer.pid = pid) : writer.abort = none := by
  cases habort : writer.abort with
  | none => rfl
  | some waiter =>
    obtain ⟨other, ref'⟩ := waiter
    obtain ⟨hother, hasked⟩ := h.abort_asked writer other ref' hw habort
    have hreplied := he.2.1 _ hasked (hother.trans hpid)
    have hone := h.credited _ hasked
    have hpos : 0 < (w.replies.map (·.1)).count ref' := count_pos_iff.mpr hreplied
    have hpending : w.abortRef = some ref' := by rw [abortRef_some hw, habort]; rfl
    -- Answered and waiting at once: counted twice.
    simp only [credit, hpending, if_true] at hone
    omega

theorem credit_call (h : Answers w) (he : Enabled w (.call pid ref request))
    (ht : Turn w (.call pid ref request) w') (r : Nat) :
    w'.credit r = w.credit r + if r = ref then 1 else 0 := by
  cases ht with
  | plain | refused | left | unfinished => exact credit_reply _ _ _ r
  | granted => exact credit_reply { w.ask pid ref .enter with next := w.next + 1 } ref _ r
  | queued hw =>
    show _ + (((pid, ref, w.next) :: w.waiting).map (·.2.1)).count r + _ = _
    rw [map_cons, count_cons, credit]
    by_cases hr : r = ref
    · simp [hr, ask, abortRef]
      omega
    · rw [if_neg hr, if_neg (by simpa using Ne.symm hr)]
      rfl
  | @cancels _ _ writer hfence hw =>
    obtain ⟨hreplies, hwaiting, habort, -⟩ := startupResumeAll_frame
      { w.ask pid ref .enter with
        next := w.next + 1, writer := some { writer with phase := .cancelled } }
    refine credit_answered (.granted false) ?_ ?_ ?_ r
    · exact congrArg (_ :: ·) hreplies
    · exact hwaiting
    · exact habort.trans (abortRef_some hw).symm
  | begins hfence hwriter =>
    refine credit_answered .ok ?_ ?_ ?_ r
    · rfl
    · rfl
    · exact (abortRef_none hwriter).symm
  | @suspends _ _ actor writer hw =>
    refine credit_answered .ok ?_ ?_ ?_ r
    · rfl
    · rfl
    · exact (abortRef_some hw).symm
  | @suspendsLate _ _ actor writer hw =>
    rw [credit_resumeAll]
    refine credit_answered .actorStarted ?_ ?_ ?_ r
    · rfl
    · rfl
    · exact (abortRef_some hw).symm
  | @commits _ _ writer hw =>
    refine credit_answered .ok ?_ ?_ ?_ r
    · rfl
    · rfl
    · exact (abortRef_some hw).symm
  | @aborts _ _ writer hw hpid =>
    rw [credit_abortReply, credit_resumeAll, credit, credit, abortRef_some hw,
      h.noAbort he hw hpid, abortRef_some rfl]
    simp [ask, eq_comm]
  | @finishes _ _ writer answer hw hpid =>
    have hrelease := credit_release w.startupSafe ((w.ask pid ref .finish).reply ref answer) r
    have hnone : ((w.ask pid ref .finish).reply ref answer).abortRef = none := by
      show w.abortRef = none
      rw [abortRef_some hw, h.noAbort he hw hpid]
      rfl
    rw [hnone, if_neg (Option.some_ne_none r).symm, Nat.add_zero] at hrelease
    exact hrelease.trans (credit_reply _ _ _ r)
  | stays _ hev => exact absurd rfl (hev _ _ _)

theorem abortRef_map {f : StartupWriter → StartupWriter} (h : w'.writer = w.writer.map f)
    (hf : ∀ writer, (f writer).abort = writer.abort) : w'.abortRef = w.abortRef := by
  rw [abortRef, abortRef, h]
  cases w.writer with
  | none => rfl
  | some writer => exact congrArg (Option.map Prod.snd) (hf writer)

theorem credit_dies (w : StartupWorld) (pid : Pid) (mon r : Nat) :
    credit { w.bury pid with
      readers := w.readers.filter fun reader => reader ≠ (pid, mon)
      waiting := w.waiting.filter fun waiter => waiter.1 ≠ pid ∨ waiter.2.2 ≠ mon } r
      = (w.replies.map (·.1)).count r
        + ((w.waiting.filter fun waiter => waiter.1 ≠ pid ∨ waiter.2.2 ≠ mon).map (·.2.1)).count r
        + if w.abortRef = some r then 1 else 0 := rfl

/-- What a death does to the credits: it takes those of the dead. -/
theorem credit_down (h : Answers w) {mon : Nat} (ht : Turn w (.down mon pid) w') :
    (∀ r, w'.credit r ≤ w.credit r) ∧
      ∀ q ∈ w.asked, w'.credit q.1 = w.credit q.1 ∨ q.2.1 = pid ∧ w'.credit q.1 = 0 := by
  have hunique : ∀ q ∈ w.asked, ∀ p ∈ w.asked, q.1 = p.1 → q = p := fun q hq p hp =>
    inj_on_of_nodup_map h.asked_once hq hp
  have hone : ∀ q ∈ w.asked, w.credit q.1 ≤ 1 := fun q hq => by
    have := h.credited q hq
    omega
  cases ht with
  | stays _ _ hdown => exact absurd rfl (hdown _ _)
  | @writerDies _ _ writer hw hpid =>
    have hrelease := credit_release w.startupSafe (w.bury pid)
    have hbury : ∀ r, (w.bury pid).credit r = w.credit r := fun r => credit_congr rfl rfl rfl r
    refine ⟨fun r => ?_, fun q hq => ?_⟩
    · have := hrelease r
      rw [hbury] at this
      omega
    · have hq' := hrelease q.1
      rw [hbury] at hq'
      by_cases hpending : (w.bury pid).abortRef = some q.1
      · -- The writer's own abort is the one that is lost.
        have habort : writer.abort.map Prod.snd = some q.1 := (abortRef_some hw).symm.trans hpending
        obtain ⟨⟨other, ref⟩, habort, hsnd⟩ := map_eq_some_iff.mp habort
        obtain ⟨hother, hasked⟩ := h.abort_asked writer other ref hw habort
        have heq := hunique q hq _ hasked hsnd.symm
        rw [if_pos hpending] at hq'
        have := hone q hq
        refine .inr ⟨?_, by omega⟩
        rw [heq]
        exact hother.trans hpid
      · rw [if_neg hpending] at hq'
        exact .inl hq'
  | workerDies =>
    refine ⟨fun r => Nat.le_of_eq ?_, fun q _ => .inl ?_⟩
    all_goals
      refine (credit_abortReply _ _).trans (credit_congr ?_ ?_ ?_ _) <;> rfl
  | dies =>
    refine ⟨fun r => ?_, fun q hq => ?_⟩
    · rw [credit_dies, credit]
      have hsub : ((w.waiting.filter fun x => x.1 ≠ pid ∨ x.2.2 ≠ mon).map (·.2.1)).count r
          ≤ (w.waiting.map (·.2.1)).count r := (filter_sublist.map _).count_le r
      omega
    · rw [credit_dies, credit]
      have hsub : ((w.waiting.filter fun x => x.1 ≠ pid ∨ x.2.2 ≠ mon).map (·.2.1)).count q.1
          ≤ (w.waiting.map (·.2.1)).count q.1 := (filter_sublist.map _).count_le q.1
      by_cases hcaller : q.2.1 = pid
      · have hle := hone q hq
        rw [credit] at hle
        rw [and_iff_right hcaller]
        omega
      · -- A place in the queue belongs to the caller that asked.
        refine .inl ?_
        have hkeep : ((w.waiting.filter fun x => x.1 ≠ pid ∨ x.2.2 ≠ mon).map
            (·.2.1)).count q.1 = (w.waiting.map (·.2.1)).count q.1 := by
          rw [count_eq_countP, count_eq_countP, countP_map, countP_map,
            countP_filter]
          refine countP_congr fun x hx => ?_
          simp only [Function.comp_apply, beq_iff_eq, Bool.and_eq_true, decide_eq_true_eq,
            and_iff_left_iff_imp]
          intro href
          have heq := hunique _ (h.waiting_asked x hx) q hq href
          refine .inl fun hpid => hcaller ?_
          rw [← heq]
          exact hpid
        rw [hkeep]

/-- Everything else leaves the credits as they are. -/
theorem credit_other (ht : Turn w e w') (hcall : ∀ p r q, e ≠ .call p r q)
    (hdown : ∀ mon p, e ≠ .down mon p) (r : Nat) : w'.credit r = w.credit r := by
  cases ht with
  | stays => exact credit_congr rfl rfl rfl r
  | resumes =>
    refine (credit_abortReply _ r).trans (credit_congr ?_ ?_ ?_ r)
    · rfl
    · rfl
    · exact abortRef_map rfl fun _ => rfl
  | plain | refused | granted | queued | cancels | left | begins | suspends | suspendsLate | commits
  | aborts | finishes | unfinished => exact absurd rfl (hcall _ _ _)
  | writerDies | workerDies | dies => exact absurd rfl (hdown _ _)

/-! ## What a turn asks, queues and answers -/

theorem startupAbortReply_frame (w : StartupWorld) :
    w.startupAbortReply.asked = w.asked ∧ w.startupAbortReply.dead = w.dead ∧
      w.startupAbortReply.waiting = w.waiting := by
  unfold startupAbortReply
  repeat' split
  all_goals exact ⟨rfl, rfl, rfl⟩

theorem startupReleaseWaiters_frame (safe : Bool) (w : StartupWorld) :
    (startupReleaseWaiters safe w).asked = w.asked ∧ (startupReleaseWaiters safe w).dead = w.dead ∧
      (startupReleaseWaiters safe w).waiting = [] ∧
      (startupReleaseWaiters safe w).writer = none := by
  cases safe with
  | true =>
    rw [startupReleaseWaiters_safe]
    exact ⟨rfl, rfl, rfl, rfl⟩
  | false =>
    rw [startupReleaseWaiters_stopped]
    exact ⟨rfl, rfl, rfl, rfl⟩

theorem Turn.asked_call (ht : Turn w (.call pid ref request) w') :
    w'.asked = (ref, pid, request) :: w.asked ∧ w'.dead = w.dead := by
  cases ht with
  | plain | refused | granted | queued | left | begins | suspends | commits | unfinished =>
    exact ⟨rfl, rfl⟩
  | cancels | suspendsLate =>
    obtain ⟨-, -, -, hasked, hdead⟩ := startupResumeAll_frame _
    exact ⟨hasked, hdead⟩
  | aborts =>
    obtain ⟨hasked, hdead, -⟩ := startupAbortReply_frame _
    obtain ⟨-, -, -, hasked', hdead'⟩ := startupResumeAll_frame _
    exact ⟨hasked.trans hasked', hdead.trans hdead'⟩
  | finishes =>
    obtain ⟨hasked, hdead, -⟩ := startupReleaseWaiters_frame _ _
    exact ⟨hasked, hdead⟩
  | stays _ hev => exact absurd rfl (hev _ _ _)

theorem Turn.asked_other (ht : Turn w e w') (hcall : ∀ p r q, e ≠ .call p r q) :
    w'.asked = w.asked ∧ ((∀ mon p, e ≠ .down mon p) → w'.dead = w.dead) ∧
      ∀ mon p, e = .down mon p → w'.dead = p :: w.dead := by
  cases ht with
  | stays _ _ hdown => exact ⟨rfl, fun _ => rfl, fun mon p h => absurd h (hdown mon p)⟩
  | resumes =>
    obtain ⟨hasked, hdead, -⟩ := startupAbortReply_frame _
    exact ⟨hasked, fun _ => hdead, fun _ _ h => nomatch h⟩
  | writerDies =>
    obtain ⟨hasked, hdead, -⟩ := startupReleaseWaiters_frame _ _
    refine ⟨hasked, fun h => absurd rfl (h _ _), fun _ _ h => ?_⟩
    cases h
    exact hdead
  | workerDies =>
    obtain ⟨hasked, hdead, -⟩ := startupAbortReply_frame _
    refine ⟨hasked, fun h => absurd rfl (h _ _), fun _ _ h => ?_⟩
    cases h
    exact hdead
  | dies =>
    refine ⟨rfl, fun h => absurd rfl (h _ _), fun _ _ h => ?_⟩
    cases h
    rfl
  | plain | refused | granted | queued | cancels | left | begins | suspends | suspendsLate | commits
  | aborts | finishes | unfinished => exact absurd rfl (hcall _ _ _)

theorem startupGrant_frame (pid : Pid) (ref mon : Nat) (queued : Bool) (w : StartupWorld) :
    (startupGrant pid ref mon queued w).waiting = w.waiting ∧
      (startupGrant pid ref mon queued w).writer = w.writer ∧
      (startupGrant pid ref mon queued w).replies = (ref, .granted queued) :: w.replies ∧
      (startupGrant pid ref mon queued w).resumes = w.resumes :=
  ⟨rfl, rfl, rfl, rfl⟩

theorem Turn.waiting (ht : Turn w e w') :
    ∀ x ∈ w'.waiting, x ∈ w.waiting ∨ (x.2.1, x.1, .enter) ∈ w'.asked := by
  intro x hx
  cases ht with
  | plain | refused | granted | left | begins | suspends | commits | unfinished | stays =>
    exact .inl hx
  | queued =>
    rcases mem_cons.mp hx with rfl | hx
    · exact .inr mem_cons_self
    · exact .inl hx
  | cancels =>
    rw [(startupGrant_frame _ _ _ _ _).1, (startupResumeAll_frame _).2.1] at hx
    exact .inl hx
  | suspendsLate =>
    rw [(startupResumeAll_frame _).2.1] at hx
    exact .inl hx
  | aborts =>
    rw [(startupAbortReply_frame _).2.2, (startupResumeAll_frame _).2.1] at hx
    exact .inl hx
  | resumes | workerDies =>
    rw [(startupAbortReply_frame _).2.2] at hx
    exact .inl hx
  | finishes | writerDies =>
    rw [(startupReleaseWaiters_frame _ _).2.2.1] at hx
    cases hx
  | dies => exact .inl (mem_filter.mp hx).1

/-- The abort on record is an old one of the same writer, or the one just made. -/
def AbortFrom (w : StartupWorld) (asked : List (Nat × Pid × StartupRequest))
    (writer : StartupWriter) (pid : Pid) (ref : Nat) : Prop :=
  (∃ old, w.writer = some old ∧ old.abort = some (pid, ref) ∧ old.pid = writer.pid) ∨
    pid = writer.pid ∧ (ref, pid, .abort) ∈ asked

theorem startupResumeAll_writer (h : w.startupResumeAll.writer = some writer) :
    ∃ old, w.writer = some old ∧ old.abort = writer.abort ∧ old.pid = writer.pid := by
  cases hw : w.writer with
  | none =>
    unfold startupResumeAll at h
    rw [hw] at h
    exact nomatch hw.symm.trans h
  | some old =>
    rw [startupResumeAll_some hw] at h
    cases h
    exact ⟨old, rfl, rfl, rfl⟩

theorem startupAbortReply_writer {waiter : Pid × Nat} (h : w.startupAbortReply.writer = some writer)
    (habort : writer.abort = some waiter) :
    w.writer = some writer ∧ w.startupAbortReply.resumes ≠ [] := by
  rcases startupAbortReply_cases w with ⟨old, pid, ref, a, hw, -, -, -, heq⟩ | ⟨hwaits, heq⟩
  · rw [heq] at h
    cases h
    cases habort
  · rw [heq] at h ⊢
    refine ⟨h, hwaits ?_⟩
    rw [abortRef_some h, habort]
    exact nofun

theorem Turn.abort (ht : Turn w e w') (hw' : w'.writer = some writer)
    (habort : writer.abort = some (pid, ref)) : AbortFrom w w'.asked writer pid ref := by
  cases ht with
  | plain | refused | granted | queued | left | unfinished | stays | dies =>
    exact .inl ⟨writer, hw', habort, rfl⟩
  | cancels _ hw =>
    rw [(startupGrant_frame _ _ _ _ _).2.1] at hw'
    obtain ⟨old, hold, ha, hp⟩ := startupResumeAll_writer hw'
    cases hold
    exact .inl ⟨_, hw, ha.trans habort, hp⟩
  | begins =>
    cases hw'
    cases habort
  | suspends hw =>
    cases hw'
    exact .inl ⟨_, hw, habort, rfl⟩
  | suspendsLate hw =>
    obtain ⟨old, hold, ha, hp⟩ := startupResumeAll_writer hw'
    cases hold
    exact .inl ⟨_, hw, ha.trans habort, hp⟩
  | commits hw =>
    cases hw'
    exact .inl ⟨_, hw, habort, rfl⟩
  | aborts hw hpid =>
    obtain ⟨old, hold, ha, hp⟩ := startupResumeAll_writer (startupAbortReply_writer hw' habort).1
    cases hold
    cases ha.trans habort
    refine .inr ⟨hpid.symm.trans hp, ?_⟩
    rw [(startupAbortReply_frame _).1, (startupResumeAll_frame _).2.2.2.1]
    exact mem_cons_self
  | finishes | writerDies =>
    rw [(startupReleaseWaiters_frame _ _).2.2.2] at hw'
    cases hw'
  | resumes =>
    have hold := (startupAbortReply_writer hw' habort).1
    obtain ⟨old, hw, rfl⟩ := map_eq_some_iff.mp hold
    exact .inl ⟨old, hw, habort, rfl⟩
  | workerDies => exact .inl ⟨writer, (startupAbortReply_writer hw' habort).1, habort, rfl⟩

/-- An answer that was given in this turn goes to a request it fits; an abort is answered only with
no resume outstanding, unless the caller is no writer. -/
def Answered (w : StartupWorld) (x : Nat × StartupAnswer) : Prop :=
  ∃ q ∈ w.asked, q.1 = x.1 ∧ Fits q.2.2 x.2 ∧
    (q.2.2 = .abort → x.2 = .writerMissing ∨ w.resumes = [])

theorem answered_of {asked : List (Nat × Pid × StartupRequest)} {a : StartupAnswer}
    (hasked : w.asked = (ref, pid, request) :: asked) (hfit : Fits request a)
    (habort : request = .abort → a = .writerMissing ∨ w.resumes = []) : Answered w (ref, a) :=
  ⟨(ref, pid, request), hasked ▸ mem_cons_self, rfl, hfit, habort⟩

theorem answered_abortReply
    (h : ∀ writer pid ref, w.writer = some writer → writer.abort = some (pid, ref) →
      (ref, pid, .abort) ∈ w.asked) :
    ∀ x ∈ w.startupAbortReply.replies, x ∈ w.replies ∨ Answered w.startupAbortReply x := by
  rcases startupAbortReply_cases w with ⟨writer, pid, ref, a, hw, habort, hres, ha, heq⟩ | ⟨-, heq⟩
  · rw [heq]
    intro x hx
    rcases mem_cons.mp hx with rfl | hx
    · exact .inr ⟨(ref, pid, .abort), h writer pid ref hw habort, rfl, .inr ha, fun _ => .inr hres⟩
    · exact .inl hx
  · rw [heq]
    exact fun x hx => .inl hx

theorem answered_release (h : ∀ x ∈ w.waiting, (x.2.1, x.1, .enter) ∈ w.asked) (safe : Bool) :
    ∀ x ∈ (startupReleaseWaiters safe w).replies,
      x ∈ w.replies ∨ Answered (startupReleaseWaiters safe w) x := by
  have hasked := (startupReleaseWaiters_frame safe w).1
  have hwaiter : ∀ a : StartupAnswer, Fits .enter a →
      ∀ x ∈ (w.waiting.map fun x => (x.2.1, a)) ++ w.replies,
        x ∈ w.replies ∨ Answered (startupReleaseWaiters safe w) x := by
    intro a ha x hx
    rcases mem_append.mp hx with hx | hx
    · obtain ⟨y, hy, rfl⟩ := mem_map.mp hx
      exact .inr ⟨(y.2.1, y.1, .enter), hasked ▸ h y hy, rfl, ha, nofun⟩
    · exact .inl hx
  cases safe with
  | true =>
    intro x hx
    refine hwaiter (.granted true) (.inl ⟨true, rfl⟩) x ?_
    rw [startupReleaseWaiters_safe] at hx
    exact hx
  | false =>
    intro x hx
    refine hwaiter .recoveryRequired (.inr rfl) x ?_
    rw [startupReleaseWaiters_stopped] at hx
    exact hx

theorem Turn.replies (h : Answers w) (ht : Turn w e w') :
    ∀ x ∈ w'.replies, x ∈ w.replies ∨ Answered w' x := by
  have habort : ∀ writer pid ref, w.writer = some writer → writer.abort = some (pid, ref) →
      (ref, pid, StartupRequest.abort) ∈ w.asked :=
    fun writer pid ref hw ha => (h.abort_asked writer pid ref hw ha).2
  intro x hx
  cases ht with
  | @plain pid ref request answer hplain =>
    rcases mem_cons.mp hx with rfl | hx
    · refine .inr (answered_of rfl ?_ fun ha => .inl (hplain.2.2 ha))
      obtain ⟨henter, -, hmissing⟩ := hplain
      cases request with
      | enter => exact absurd rfl henter
      | abort => exact .inl (hmissing rfl)
      | _ => trivial
    · exact .inl hx
  | refused =>
    rcases mem_cons.mp hx with rfl | hx
    · exact .inr (answered_of rfl (.inr rfl) nofun)
    · exact .inl hx
  | granted =>
    rcases mem_cons.mp hx with rfl | hx
    · exact .inr (answered_of rfl (.inl ⟨false, rfl⟩) nofun)
    · exact .inl hx
  | @cancels pid ref =>
    rw [(startupGrant_frame _ _ _ _ _).2.2.1, (startupResumeAll_frame _).1] at hx
    rcases mem_cons.mp hx with rfl | hx
    · refine .inr ⟨(ref, pid, .enter), ?_, rfl, .inl ⟨false, rfl⟩, nofun⟩
      show _ ∈ (startupResumeAll _).asked
      rw [(startupResumeAll_frame _).2.2.2.1]
      exact mem_cons_self
    · exact .inl hx
  | queued | stays | dies => exact .inl hx
  | left | begins | suspends | commits | unfinished =>
    rcases mem_cons.mp hx with rfl | hx
    · exact .inr (answered_of rfl trivial nofun)
    · exact .inl hx
  | @suspendsLate pid ref actor =>
    rw [(startupResumeAll_frame _).1] at hx
    rcases mem_cons.mp hx with rfl | hx
    · refine .inr ⟨(ref, pid, .suspended actor), ?_, rfl, trivial, nofun⟩
      rw [(startupResumeAll_frame _).2.2.2.1]
      exact mem_cons_self
    · exact .inl hx
  | @aborts pid ref writer hw hpid =>
    refine (answered_abortReply (fun writer' pid' ref' hwriter ha => ?_) x hx).imp_left ?_
    · obtain ⟨old, hold, ha', -⟩ := startupResumeAll_writer hwriter
      cases hold
      cases ha'.trans ha
      rw [(startupResumeAll_frame _).2.2.2.1]
      exact mem_cons_self
    · intro hold
      rw [(startupResumeAll_frame _).1] at hold
      exact hold
  | @finishes pid ref writer answer hw hpid =>
    have hwaits : ∀ y ∈ w.waiting, (y.2.1, y.1, StartupRequest.enter)
        ∈ (ref, pid, StartupRequest.finish) :: w.asked :=
      fun y hy => mem_cons_of_mem _ (h.waiting_asked y hy)
    rcases answered_release (w := (w.ask pid ref .finish).reply ref answer) hwaits _ x hx with
      hold | hnew
    · rcases mem_cons.mp hold with rfl | hx
      · refine .inr ⟨(ref, pid, .finish), ?_, rfl, trivial, nofun⟩
        rw [(startupReleaseWaiters_frame _ _).1]
        exact mem_cons_self
      · exact .inl hx
    · exact .inr hnew
  | resumes =>
    refine answered_abortReply (fun writer pid ref hwriter ha => ?_) x hx
    obtain ⟨old, hw, rfl⟩ := map_eq_some_iff.mp hwriter
    exact habort old pid ref hw ha
  | @writerDies mon pid =>
    exact answered_release (w := w.bury pid) h.waiting_asked _ x hx
  | workerDies =>
    refine answered_abortReply ?_ x hx
    exact habort

theorem Turn.abort_waits (h : Answers w) (ht : Turn w e w') (hpending : w'.abortRef ≠ none) :
    w'.resumes ≠ [] := by
  have hreply : ∀ w : StartupWorld, w.startupAbortReply.abortRef ≠ none →
      w.startupAbortReply.resumes ≠ [] := by
    intro w hpending
    obtain ⟨ref, href⟩ := ne_none_iff_exists'.mp hpending
    obtain ⟨waiter, hbind, -⟩ := map_eq_some_iff.mp href
    obtain ⟨writer, hw, habort⟩ := bind_eq_some_iff.mp hbind
    exact (startupAbortReply_writer hw habort).2
  have hresume : ∀ w : StartupWorld, w.resumes ≠ [] → w.startupResumeAll.resumes ≠ [] := by
    intro w hne
    cases hw : w.writer with
    | none =>
      unfold startupResumeAll
      rw [hw]
      exact hne
    | some writer =>
      rw [startupResumeAll_some hw]
      exact append_ne_nil_of_right_ne_nil _ hne
  cases ht with
  | plain | refused | granted | queued | left | unfinished | stays | dies =>
    exact h.abort_waits hpending
  | cancels _ hw =>
    rw [(startupGrant_frame _ _ _ _ _).2.2.2]
    refine hresume _ ?_
    refine h.abort_waits ?_
    rw [abortRef_some hw]
    rw [abortRef, (startupGrant_frame _ _ _ _ _).2.1, ← abortRef,
      (startupResumeAll_frame _).2.2.1, abortRef_some rfl] at hpending
    exact hpending
  | begins => exact absurd rfl hpending
  | suspends hw | commits hw =>
    refine h.abort_waits ?_
    rw [abortRef_some hw]
    exact hpending
  | suspendsLate hw =>
    refine hresume _ ?_
    refine h.abort_waits ?_
    rw [abortRef_some hw]
    rw [(startupResumeAll_frame _).2.2.1, abortRef_some rfl] at hpending
    exact hpending
  | aborts | resumes | workerDies => exact hreply _ hpending
  | finishes | writerDies => exact absurd (abortRef_none (startupReleaseWaiters_frame _ _).2.2.2) hpending

/-! ## The invariant -/

theorem Answers.start (active : Bool) : Answers (init active) where
  asked_once := nodup_nil
  unasked _ _ := rfl
  credited := nofun
  waiting_asked := nofun
  abort_asked := nofun
  abort_waits h := absurd rfl h
  fitting := nofun

theorem Answers.credited_other (h : Answers w) (ht : Turn w e w') (hcall : ∀ p r q, e ≠ .call p r q) :
    (∀ r, w'.credit r ≤ w.credit r) ∧
      ∀ q ∈ w.asked, w'.credit q.1 = 1 ∨ q.2.1 ∈ w'.dead ∧ w'.credit q.1 = 0 := by
  obtain ⟨-, hdead, hdies⟩ := ht.asked_other hcall
  by_cases hdown : ∃ mon p, e = .down mon p
  · obtain ⟨mon, pid, rfl⟩ := hdown
    obtain ⟨hle, hkeep⟩ := credit_down h ht
    rw [hdies mon pid rfl]
    refine ⟨hle, fun q hq => ?_⟩
    rcases hkeep q hq with hsame | ⟨hpid, hzero⟩
    · rw [hsame]
      exact (h.credited q hq).imp_right fun ⟨hd, hzero⟩ => ⟨mem_cons_of_mem _ hd, hzero⟩
    · exact .inr ⟨hpid ▸ mem_cons_self, hzero⟩
  · have hdown : ∀ mon p, e ≠ .down mon p := fun mon p he => hdown ⟨mon, p, he⟩
    rw [hdead hdown]
    refine ⟨fun r => Nat.le_of_eq (credit_other ht hcall hdown r), fun q hq => ?_⟩
    rw [credit_other ht hcall hdown]
    exact h.credited q hq

theorem Answers.credited_call (h : Answers w) (he : Enabled w (.call pid ref request))
    (ht : Turn w (.call pid ref request) w') :
    ∀ q ∈ w'.asked, w'.credit q.1 = 1 ∨ q.2.1 ∈ w'.dead ∧ w'.credit q.1 = 0 := by
  obtain ⟨hasked, hdead⟩ := ht.asked_call
  rw [hasked, hdead]
  intro q hq
  rw [credit_call h he ht]
  rcases mem_cons.mp hq with rfl | hq
  · have hfresh : ref ∉ w.asked.map (·.1) := fun hmem => by
      obtain ⟨p, hp, hpref⟩ := mem_map.mp hmem
      exact he.1 p hp hpref
    rw [h.unasked ref hfresh, if_pos rfl]
    exact .inl rfl
  · rw [if_neg (he.1 q hq)]
    exact h.credited q hq

theorem Answers.turn (h : Answers w) (he : Enabled w e) (ht : Turn w e w') : Answers w' := by
  -- What was asked before, and the one call of this turn.
  have hgrows : ∀ q ∈ w.asked, q ∈ w'.asked := by
    by_cases hcall : ∃ p r q, e = .call p r q
    · obtain ⟨pid, ref, request, rfl⟩ := hcall
      rw [ht.asked_call.1]
      exact fun q hq => mem_cons_of_mem _ hq
    · rw [(ht.asked_other fun p r q heq => hcall ⟨p, r, q, heq⟩).1]
      exact fun q hq => hq
  have hcounts : (w'.asked.map (·.1)).Nodup ∧ (∀ r, r ∉ w'.asked.map (·.1) → w'.credit r = 0) ∧
      ∀ q ∈ w'.asked, w'.credit q.1 = 1 ∨ q.2.1 ∈ w'.dead ∧ w'.credit q.1 = 0 := by
    by_cases hcall : ∃ p r q, e = .call p r q
    · obtain ⟨pid, ref, request, rfl⟩ := hcall
      refine ⟨?_, fun r hr => ?_, h.credited_call he ht⟩
      · rw [ht.asked_call.1]
        refine nodup_cons.mpr ⟨fun hmem => ?_, h.asked_once⟩
        obtain ⟨p, hp, hpref⟩ := mem_map.mp hmem
        exact he.1 p hp hpref
      · rw [ht.asked_call.1] at hr
        obtain ⟨hne, hold⟩ := not_or.mp fun hor => hr (mem_cons.mpr hor)
        rw [credit_call h he ht, h.unasked r hold, if_neg hne]
    · have hcall : ∀ p r q, e ≠ .call p r q := fun p r q heq => hcall ⟨p, r, q, heq⟩
      obtain ⟨hle, hkeep⟩ := h.credited_other ht hcall
      rw [(ht.asked_other hcall).1]
      exact ⟨h.asked_once, fun r hr => Nat.le_zero.mp (h.unasked r hr ▸ hle r), hkeep⟩
  refine ⟨hcounts.1, hcounts.2.1, hcounts.2.2, fun x hx => ?_, fun writer pid ref hw habort => ?_,
    ht.abort_waits h, fun q hq a ha => ?_⟩
  · exact (ht.waiting x hx).elim (fun hold => hgrows _ (h.waiting_asked x hold)) id
  · rcases ht.abort hw habort with ⟨old, hold, ha, hpid⟩ | hnew
    · obtain ⟨hown, hasked⟩ := h.abort_asked old pid ref hold ha
      exact ⟨hown.trans hpid, hgrows _ hasked⟩
    · exact hnew
  · rcases ht.replies h _ ha with hold | ⟨p, hp, hpref, hfits, -⟩
    · -- An old answer has the reference of an old call.
      have hmem : q.1 ∈ w.asked.map (·.1) := by
        by_contra hnot
        have hzero := h.unasked q.1 hnot
        have hpos : 0 < (w.replies.map (·.1)).count q.1 :=
          count_pos_iff.mpr (mem_map.mpr ⟨_, hold, rfl⟩)
        rw [credit] at hzero
        omega
      obtain ⟨p, hp, hpref⟩ := mem_map.mp hmem
      have heq := inj_on_of_nodup_map hcounts.1 (hgrows p hp) hq hpref
      subst heq
      exact h.fitting p hp a hold
    · have heq := inj_on_of_nodup_map hcounts.1 hp hq hpref
      subst heq
      exact hfits

end StartupWorld

end Ridge
