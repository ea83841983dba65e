import Mathlib.Data.List.Nodup
import Ridge.Actor.StartupTurn

/-!
# The startup gate — what its turns keep

Four invariants, each about its own part of the state: who is let in (`Admission`), the resume
workers (`Workers`), what is owed to suspended actors (`Debts`), and the answers (`Answers`). Each is
kept by every turn.
-/

namespace Ridge

open List

variable {w w' : StartupWorld}

namespace StartupWorld

/-! ## Who is let in -/

structure Admission (w : StartupWorld) : Prop where
  inside_readers : ∀ pid ∈ w.inside, pid ∈ w.readers.map (·.1)
  sealed_writer : ∀ pid, w.sealedBy = some pid →
    ∃ writer, w.writer = some writer ∧ writer.pid = pid ∧ writer.phase = .committing
  waiting_writer : w.waiting ≠ [] → w.writer ≠ none

/-- The gate's own record of who may be inside: everyone but the erased keeps being a reader. -/
theorem mem_keys_filter {readers : List (Pid × Nat)} {pid other : Pid}
    (h : pid ∈ readers.map (·.1)) (hne : pid ≠ other) :
    pid ∈ (readers.filter (·.1 ≠ other)).map (·.1) := by
  obtain ⟨x, hx, rfl⟩ := mem_map.mp h
  exact mem_map.mpr ⟨x, mem_filter.mpr ⟨hx, by simpa using hne⟩, rfl⟩

theorem Admission.grant (h : Admission w) (pid : Pid) (ref mon : Nat) (queued : Bool) :
    Admission (startupGrant pid ref mon queued w) where
  inside_readers p hp := by
    show p ∈ ((pid, mon) :: w.readers.filter (·.1 ≠ pid)).map (·.1)
    by_cases hpid : p = pid
    · subst hpid
      exact mem_cons_self
    · have hold : p ∈ w.inside := (mem_cons.mp hp).resolve_left hpid
      exact mem_cons_of_mem _ (mem_keys_filter (h.inside_readers p hold) hpid)
  sealed_writer := h.sealed_writer
  waiting_writer := h.waiting_writer

theorem Admission.resumeAll (h : Admission w) (hsealed : w.sealedBy = none) :
    Admission w.startupResumeAll := by
  cases hw : w.writer with
  | none =>
    unfold startupResumeAll
    rw [hw]
    exact h
  | some writer =>
    rw [startupResumeAll_some hw]
    exact
      { inside_readers := h.inside_readers
        sealed_writer := fun pid hp => by
          rw [show _ = some pid from hp] at hsealed
          cases hsealed
        waiting_writer := fun _ => nofun }

theorem Admission.abortReply (h : Admission w) : Admission w.startupAbortReply := by
  unfold startupAbortReply
  split
  · rename_i writer hw
    split
    · split
      · exact
          { inside_readers := h.inside_readers
            sealed_writer := fun pid hp => by
              obtain ⟨other, hother, hpid, hphase⟩ := h.sealed_writer pid hp
              rw [hw] at hother
              cases hother
              exact ⟨_, rfl, hpid, hphase⟩
            waiting_writer := fun _ => nofun }
      · exact h
    · exact h
  · exact h

/-- The end of a writer leaves no one waiting. -/
theorem Admission.release (h : ∀ pid ∈ w.inside, pid ∈ w.readers.map (·.1)) (safe : Bool) :
    Admission (startupReleaseWaiters safe w) := by
  cases safe with
  | true =>
    rw [startupReleaseWaiters_safe]
    refine ⟨fun pid hp => ?_, nofun, fun hne => absurd rfl hne⟩
    exact subset_readersAfter ((mem_append.mp hp).imp id (h pid))
  | false =>
    rw [startupReleaseWaiters_stopped]
    exact ⟨h, nofun, fun hne => absurd rfl hne⟩

variable {e : StartupEvent}

theorem Admission.turn (h : Admission w) (ht : Turn w e w') : Admission w' := by
  have hunsealed : ∀ writer, w.writer = some writer → writer.phase ≠ .committing →
      w.sealedBy = none := by
    intro writer hw hphase
    cases hs : w.sealedBy with
    | none => rfl
    | some pid =>
      obtain ⟨other, hother, _, hcommitting⟩ := h.sealed_writer pid hs
      rw [hw] at hother
      cases hother
      exact absurd hcommitting hphase
  have hdead : ∀ pid : Pid, ∀ p ∈ w.inside.filter (· ≠ pid), p ∈ w.readers.map (·.1) :=
    fun pid p hp => h.inside_readers p (mem_filter.mp hp).1
  have hburied : ∀ pid p : Pid, (w.bury pid).sealedBy = some p → w.sealedBy = some p := by
    intro pid p hp
    simp only [bury] at hp
    split at hp
    · cases hp
    · exact hp
  cases ht with
  | plain | refused => exact ⟨h.inside_readers, h.sealed_writer, h.waiting_writer⟩
  | granted =>
    refine Admission.grant ?_ _ _ _ _
    exact ⟨h.inside_readers, h.sealed_writer, h.waiting_writer⟩
  | queued hw hphase =>
    refine ⟨h.inside_readers, h.sealed_writer, fun _ hnone => ?_⟩
    rw [show w.writer = none from hnone] at hw
    cases hw
  | @cancels pid ref writer hfence hw hphase =>
    have hs := hunsealed writer hw (by rw [hphase]; exact nofun)
    apply Admission.grant
    apply Admission.resumeAll
    · refine ⟨h.inside_readers, ?_, fun _ => nofun⟩
      exact fun p hp => nomatch (hs.symm.trans hp : none = some p)
    · exact hs
  | left =>
    refine ⟨fun p hp => ?_, h.sealed_writer, h.waiting_writer⟩
    obtain ⟨hp, hne⟩ := mem_filter.mp hp
    exact mem_keys_filter (h.inside_readers p hp) (by simpa using hne)
  | begins hfence hwriter =>
    refine ⟨h.inside_readers, fun p hp => ?_, fun _ => nofun⟩
    obtain ⟨other, hother, _⟩ := h.sealed_writer p hp
    rw [hwriter] at hother
    cases hother
  | @suspends pid ref actor writer hw hpid hphase =>
    have hs := hunsealed writer hw (by rw [hphase]; exact nofun)
    refine ⟨h.inside_readers, ?_, fun _ => nofun⟩
    exact fun p hp => nomatch (hs.symm.trans hp : none = some p)
  | @suspendsLate pid ref actor writer hw hpid hphase =>
    have hs := hunsealed writer hw (by rw [hphase]; exact nofun)
    apply Admission.resumeAll
    · refine ⟨h.inside_readers, ?_, fun _ => nofun⟩
      exact fun p hp => nomatch (hs.symm.trans hp : none = some p)
    · exact hs
  | @commits pid ref writer hw hpid hphase =>
    refine ⟨h.inside_readers, fun p hp => ?_, fun _ => nofun⟩
    cases hp
    exact ⟨_, rfl, hpid, rfl⟩
  | aborts =>
    refine Admission.abortReply (Admission.resumeAll ⟨h.inside_readers, ?_, fun _ => nofun⟩ rfl)
    exact nofun
  | finishes =>
    refine Admission.release ?_ _
    exact h.inside_readers
  | unfinished | stays => exact ⟨h.inside_readers, h.sealed_writer, h.waiting_writer⟩
  | resumes =>
    refine Admission.abortReply ⟨h.inside_readers, fun p hp => ?_, fun hne hnone => ?_⟩
    · obtain ⟨other, hother, hpid, hphase⟩ := h.sealed_writer p hp
      refine ⟨_, congrArg (Option.map _) hother, ?_, ?_⟩
      · exact hpid
      · exact hphase
    · exact h.waiting_writer hne (Option.map_eq_none_iff.mp hnone)
  | writerDies =>
    refine Admission.release ?_ _
    exact hdead _
  | workerDies =>
    refine Admission.abortReply ⟨hdead _, ?_, h.waiting_writer⟩
    exact fun p hp => h.sealed_writer p (hburied _ p hp)
  | @dies mon pid =>
    refine ⟨fun p hp => ?_, fun p hp => h.sealed_writer p (hburied _ p hp), fun hne => ?_⟩
    · obtain ⟨hp, hpne⟩ := mem_filter.mp hp
      have hne : p ≠ pid := by simpa using hpne
      obtain ⟨x, hx, rfl⟩ := mem_map.mp (h.inside_readers p hp)
      refine mem_map.mpr ⟨x, mem_filter.mpr ⟨hx, ?_⟩, rfl⟩
      exact decide_eq_true fun heq => hne (by rw [heq])
    · refine h.waiting_writer fun hnil => hne ?_
      show w.waiting.filter _ = []
      rw [hnil]
      rfl

/-! ## The resume workers -/

structure Workers (w : StartupWorld) : Prop where
  running : w.crashed = false
  tags : (w.resumes.map (·.1)).Nodup
  monitors : (w.resumes.map (·.2.2)).Nodup
  below : ∀ x ∈ w.resumes, x.1 < w.next ∧ x.2.2 < w.next
  accounted : ∀ s ∈ w.started,
    (∃ mon, (s.1, s.2, mon) ∈ w.resumes) ∨ ∃ r, (s.1, s.2, r) ∈ w.settled

/-- The part of the state the workers are about. -/
theorem Workers.congr (h : Workers w) (hcrashed : w'.crashed = w.crashed)
    (hresumes : w'.resumes = w.resumes) (hnext : w.next ≤ w'.next)
    (hstarted : w'.started = w.started) (hsettled : w'.settled = w.settled) : Workers w' where
  running := hcrashed.trans h.running
  tags := hresumes ▸ h.tags
  monitors := hresumes ▸ h.monitors
  below x hx := by
    rw [hresumes] at hx
    have := h.below x hx
    omega
  accounted s hs := by
    rw [hstarted] at hs
    rw [hresumes, hsettled]
    exact h.accounted s hs

theorem Workers.abortReply (h : Workers w) : Workers w.startupAbortReply := by
  unfold startupAbortReply
  repeat' split
  all_goals exact h.congr rfl rfl (Nat.le_refl _) rfl rfl

theorem Workers.release (h : Workers w) (safe : Bool) : Workers (startupReleaseWaiters safe w) := by
  cases safe with
  | true =>
    rw [startupReleaseWaiters_safe]
    exact h.congr rfl rfl (Nat.le_refl _) rfl rfl
  | false =>
    rw [startupReleaseWaiters_stopped]
    exact h.congr rfl rfl (Nat.le_refl _) rfl rfl

/-- New workers get numbers of their own. -/
theorem Workers.resumeAll (h : Workers w) : Workers w.startupResumeAll := by
  cases hw : w.writer with
  | none =>
    unfold startupResumeAll
    rw [hw]
    exact h
  | some writer =>
    rw [startupResumeAll_some hw]
    have hnew := fun x => @mem_newWorkers w.next writer.suspended x
    have hpair := pairwise_newWorkers w.next writer.suspended
    generalize newWorkers w.next writer.suspended = new at hnew hpair ⊢
    have htags : ((new.reverse ++ w.resumes).map (·.1)).Nodup := by
      rw [map_append, map_reverse, nodup_append, nodup_reverse]
      refine ⟨?_, h.tags, ?_⟩
      · exact pairwise_map.mpr (hpair.imp fun hxy => Nat.ne_of_lt hxy.1)
      · intro a ha b hb
        rw [mem_reverse] at ha
        obtain ⟨x, hx, rfl⟩ := mem_map.mp ha
        obtain ⟨y, hy, rfl⟩ := mem_map.mp hb
        have h1 := (hnew x hx).1
        have h2 := (h.below y hy).1
        omega
    have hmonitors : ((new.reverse ++ w.resumes).map (·.2.2)).Nodup := by
      rw [map_append, map_reverse, nodup_append, nodup_reverse]
      refine ⟨?_, h.monitors, ?_⟩
      · exact pairwise_map.mpr (hpair.imp fun hxy => Nat.ne_of_lt hxy.2)
      · intro a ha b hb
        rw [mem_reverse] at ha
        obtain ⟨x, hx, rfl⟩ := mem_map.mp ha
        obtain ⟨y, hy, rfl⟩ := mem_map.mp hb
        have h1 := hnew x hx
        have h2 := (h.below y hy).2
        omega
    refine ⟨h.running, htags, hmonitors, ?_, ?_⟩
    · intro x hx
      show x.1 < w.next + 2 * new.length ∧ x.2.2 < w.next + 2 * new.length
      rcases mem_append.mp hx with hx | hx
      · have := hnew x (mem_reverse.mp hx)
        omega
      · have := h.below x hx
        omega
    · intro s hs
      rcases mem_append.mp hs with hs | hs
      · obtain ⟨x, hx, rfl⟩ := mem_map.mp (mem_reverse.mp hs)
        exact .inl ⟨x.2.2, mem_append_left _ (mem_reverse.mpr hx)⟩
      · refine (h.accounted s hs).imp (fun ⟨mon, hmon⟩ => ⟨mon, ?_⟩) id
        exact mem_append_right _ hmon

theorem Workers.settle (h : Workers w) {tag : Nat} {target : Pid} {mon : Nat} {r : ResumeResult}
    (hmem : (tag, target, mon) ∈ w.resumes) (hcrashed : w'.crashed = w.crashed)
    (hresumes : w'.resumes = w.resumes.filter (·.1 ≠ tag)) (hnext : w'.next = w.next)
    (hstarted : w'.started = w.started) (hsettled : w'.settled = (tag, target, r) :: w.settled) :
    Workers w' where
  running := hcrashed.trans h.running
  tags := hresumes ▸ (filter_sublist.map _).nodup h.tags
  monitors := hresumes ▸ (filter_sublist.map _).nodup h.monitors
  below x hx := by
    rw [hresumes] at hx
    rw [hnext]
    exact h.below x (mem_filter.mp hx).1
  accounted s hs := by
    rw [hstarted] at hs
    rw [hresumes, hsettled]
    rcases h.accounted s hs with ⟨mon', hs⟩ | ⟨r, hr⟩
    · by_cases htag : s.1 = tag
      · -- The tag names one worker only.
        have heq := inj_on_of_nodup_map h.tags hs hmem htag
        rw [Prod.mk.injEq, Prod.mk.injEq] at heq
        refine .inr ⟨r, ?_⟩
        rw [htag, heq.2.1]
        exact mem_cons_self
      · exact .inl ⟨mon', mem_filter.mpr ⟨hs, by simpa using htag⟩⟩
    · exact .inr ⟨r, mem_cons_of_mem _ hr⟩

theorem mem_of_lookup {l : List (Nat × Pid × Nat)} {tag : Nat} {x : Pid × Nat}
    (h : l.lookup tag = some x) : (tag, x) ∈ l := by
  induction l with
  | nil => cases h
  | cons y l ih =>
    rw [lookup_cons] at h
    by_cases hy : tag = y.1
    · rw [hy] at h ⊢
      simp only [beq_self_eq_true, Option.some.injEq] at h
      rw [← h]
      exact mem_cons_self
    · rw [beq_false_of_ne hy] at h
      exact mem_cons_of_mem _ (ih h)

theorem Workers.turn (h : Workers w) (ht : Turn w e w') : Workers w' := by
  cases ht with
  | plain | refused | left | suspends | commits | unfinished | stays | dies =>
    exact h.congr rfl rfl (Nat.le_refl _) rfl rfl
  | granted | queued | begins => exact h.congr rfl rfl (Nat.le_succ _) rfl rfl
  | cancels =>
    refine Workers.congr (Workers.resumeAll ?_) rfl rfl (Nat.le_refl _) rfl rfl
    exact h.congr rfl rfl (Nat.le_succ _) rfl rfl
  | suspendsLate =>
    refine Workers.resumeAll ?_
    exact h.congr rfl rfl (Nat.le_refl _) rfl rfl
  | aborts =>
    refine Workers.abortReply (Workers.resumeAll ?_)
    exact h.congr rfl rfl (Nat.le_refl _) rfl rfl
  | finishes | writerDies =>
    refine Workers.release ?_ _
    exact h.congr rfl rfl (Nat.le_refl _) rfl rfl
  | resumes hlookup =>
    refine Workers.abortReply ?_
    exact h.settle (mem_of_lookup hlookup) rfl rfl rfl rfl rfl
  | workerDies hmem =>
    refine Workers.abortReply ?_
    exact h.settle hmem rfl rfl rfl rfl rfl

/-! ## What is owed to the suspended actors -/

structure Debts (w : StartupWorld) : Prop where
  owed_marked : ∀ pid ∈ w.owed, ∃ writer, w.writer = some writer ∧ (pid, true) ∈ writer.suspended
  cancelled_marks : ∀ writer, w.writer = some writer → writer.phase = .cancelled →
    ∀ mark ∈ writer.suspended, mark.2 = false

/-- A cancelled writer's actors all have had a worker. -/
theorem Debts.owed_eq_nil (h : Debts w) {writer : StartupWriter} (hw : w.writer = some writer)
    (hphase : writer.phase = .cancelled) : w.owed = [] := by
  refine eq_nil_iff_forall_not_mem.mpr fun pid hpid => ?_
  obtain ⟨other, hother, hmark⟩ := h.owed_marked pid hpid
  rw [hw] at hother
  cases hother
  exact nomatch h.cancelled_marks writer hw hphase _ hmark

/-- After `startup_resume_all` nothing is owed. -/
theorem Debts.resumeAll
    (h : ∀ pid ∈ w.owed, ∃ writer, w.writer = some writer ∧ (pid, true) ∈ writer.suspended) :
    Debts w.startupResumeAll := by
  cases hw : w.writer with
  | none =>
    unfold startupResumeAll
    rw [hw]
    exact ⟨h, fun writer hwriter => by rw [hw] at hwriter; cases hwriter⟩
  | some writer =>
    rw [startupResumeAll_some hw]
    refine ⟨fun pid hpid => ?_, fun other hother _ mark hmark => ?_⟩
    · obtain ⟨hpid, hnew⟩ := mem_filter.mp hpid
      obtain ⟨other, hother, hmark⟩ := h pid hpid
      rw [hw] at hother
      cases hother
      have hmem : pid ∈ (newWorkers w.next _).map (·.2.1) := newWorkers_actors hmark
      rw [contains_iff_mem.mpr hmem] at hnew
      cases hnew
    · cases hother
      obtain ⟨old, _, rfl⟩ := mem_map.mp hmark
      rfl

theorem Debts.abortReply (h : Debts w) : Debts w.startupAbortReply := by
  unfold startupAbortReply
  split
  · rename_i writer hw
    split
    · split
      · refine ⟨fun pid hpid => ?_, fun other hother hphase => ?_⟩
        · obtain ⟨other, hother, hmark⟩ := h.owed_marked pid hpid
          rw [hw] at hother
          cases hother
          exact ⟨_, rfl, hmark⟩
        · cases hother
          exact h.cancelled_marks writer hw hphase
      · exact h
    · exact h
  · exact h

theorem Debts.release (safe : Bool) (w : StartupWorld) : Debts (startupReleaseWaiters safe w) := by
  cases safe with
  | true =>
    rw [startupReleaseWaiters_safe]
    exact ⟨nofun, nofun⟩
  | false =>
    rw [startupReleaseWaiters_stopped]
    exact ⟨nofun, nofun⟩

theorem Debts.turn (h : Debts w) (ht : Turn w e w') : Debts w' := by
  -- Only the writer's own requests, and what ends it, touch the marks.
  have hmark : ∀ {writer : StartupWriter} {actor pid : Pid}, w.writer = some writer →
      pid ∈ actor :: w.owed →
      (pid, true) ∈ (actor, true) :: writer.suspended.filter (·.1 ≠ actor) := by
    intro writer actor pid hw hpid
    by_cases hpa : pid = actor
    · subst hpa
      exact mem_cons_self
    · obtain ⟨other, hother, hmark⟩ := h.owed_marked pid ((mem_cons.mp hpid).resolve_left hpa)
      rw [hw] at hother
      cases hother
      exact mem_cons_of_mem _ (mem_filter.mpr ⟨hmark, by simpa using hpa⟩)
  have hsame : ∀ {writer : StartupWriter} {pid : Pid}, w.writer = some writer → pid ∈ w.owed →
      (pid, true) ∈ writer.suspended := by
    intro writer pid hw hpid
    obtain ⟨other, hother, hmark⟩ := h.owed_marked pid hpid
    rw [hw] at hother
    cases hother
    exact hmark
  cases ht with
  | plain | refused | granted | queued | left | unfinished | stays | dies =>
    exact ⟨h.owed_marked, h.cancelled_marks⟩
  | begins hfence hwriter =>
    refine ⟨fun pid hpid => ?_, fun writer hw hphase => ?_⟩
    · obtain ⟨other, hother, _⟩ := h.owed_marked pid hpid
      rw [hwriter] at hother
      cases hother
    · cases hw
      cases hphase
  | cancels hfence hw =>
    have hgrant : ∀ {w : StartupWorld} {pid : Pid} {ref mon : Nat} {queued : Bool}, Debts w →
        Debts (startupGrant pid ref mon queued w) := fun h => ⟨h.owed_marked, h.cancelled_marks⟩
    refine hgrant (Debts.resumeAll fun pid hpid => ?_)
    have hold := hsame hw hpid
    exact ⟨_, rfl, hold⟩
  | @suspends pid ref actor writer hw hpid hphase =>
    refine ⟨fun pid hpid => ⟨_, rfl, hmark hw hpid⟩, fun other hother hcancelled => ?_⟩
    cases hother
    exact nomatch hphase.symm.trans hcancelled
  | suspendsLate hw =>
    exact Debts.resumeAll fun pid hpid => ⟨_, rfl, hmark hw hpid⟩
  | commits hw =>
    refine ⟨fun pid hpid => ?_, fun other hother hcancelled => ?_⟩
    · have hold := hsame hw hpid
      exact ⟨_, rfl, hold⟩
    · cases hother
      cases hcancelled
  | aborts hw =>
    refine Debts.abortReply (Debts.resumeAll fun pid hpid => ?_)
    have hold := hsame hw hpid
    exact ⟨_, rfl, hold⟩
  | finishes | writerDies => exact Debts.release _ _
  | resumes =>
    refine Debts.abortReply ⟨fun pid hpid => ?_, fun other hother hphase => ?_⟩
    · obtain ⟨writer, hw, hmark⟩ := h.owed_marked pid hpid
      exact ⟨_, congrArg (Option.map _) hw, hmark⟩
    · obtain ⟨writer, hw, rfl⟩ := Option.map_eq_some_iff.mp hother
      exact h.cancelled_marks writer hw hphase
  | workerDies => exact Debts.abortReply ⟨h.owed_marked, h.cancelled_marks⟩

end StartupWorld

end Ridge
