import Ridge.Repo.Inner

/-!
# std.repo — a transaction is all or nothing

`AllOrNothing` is what `transaction` and its siblings promise; on SQLite a call keeps it iff none of
the statements that end its transactions fails, on Postgres it keeps it when at most commits fail
and none is answered by a rollback.
-/

namespace Ridge

open TxState

variable {α β : Type}

/-- A connection nothing has happened on. -/
def TxState.fresh (a : α) : TxState α where
  durable := a
  data := a
  mode := .closed
  aborted := false
  saves := []
  depth := 0
  level := ""
  ruOn := false
  tick := 0
  failedEnds := []
  lostCommit := false

/-- No transaction is open, and none is counted. -/
def TxState.Settled (s : TxState α) : Prop :=
  s.mode = .closed ∧ s.depth = 0 ∧ s.aborted = false ∧ s.data = s.durable ∧ s.saves = []

/-- The promise of a call that began at `s`. -/
structure AllOrNothing (s : TxState α) (o : TxOutcome α β) : Prop where
  /-- No transaction is left open and the depth is zero. -/
  closed : o.state.mode = .closed ∧ o.state.depth = 0
  /-- An `Ok` has committed exactly the writes of the last attempt. -/
  ok : ∀ v, o.result = .ok v → o.state.durable = applyAll o.writes s.durable
  /-- After an `Err`, unless a rollback failed, none of the writes is to be seen. -/
  err : ∀ e, o.result = .error e → .rollback ∉ o.state.failedEnds →
    o.state.data = s.data ∧ o.state.durable = s.durable
  /-- An inner `Err` undoes exactly the inner writes. -/
  inner : ∀ p ∈ o.innerErrs, p.2 = p.1

/-- What the database has to do for it: on SQLite no statement that ends a transaction fails, on
Postgres none but a `COMMIT`, and no `COMMIT` is answered by a rollback. -/
def Harmless (h : TxHandle) (s : TxState α) : Prop :=
  match h.backend with
  | .sqlite => s.failedEnds = []
  | .postgres => (∀ st ∈ s.failedEnds, st = .commit) ∧ s.lostCommit = false


/-! ## Around a transaction -/

section

variable {h : TxHandle} {s s' t : TxState α}

theorem Counts.harmless {δ : Int} (hc : Counts h δ s s') (h' : Harmless h s') : Harmless h s := by
  obtain ⟨new, hends, hlost, -⟩ := hc
  unfold Harmless at h' ⊢
  split at h'
  · rw [hends] at h'
    exact (List.append_eq_nil_iff.mp h').2
  · refine ⟨fun st hst => h'.1 st (by rw [hends]; exact List.mem_append_right _ hst), ?_⟩
    cases hl : s.lostCommit with
    | false => rfl
    | true => exact (hlost hl).symm.trans h'.2

theorem Harmless.onlyCommits (h' : Harmless h s) : s.OnlyCommits := by
  unfold Harmless at h'
  split at h'
  · intro st hst
    rw [h'] at hst
    cases hst
  · exact h'.1

/-- What counts of a connection for the transaction to come is untouched. -/
structure Undisturbed (s t : TxState α) : Prop where
  session : t.toTxSession = s.toTxSession
  depth : t.depth = s.depth

theorem Undisturbed.settled (hu : Undisturbed s t) (hs : s.Settled) : t.Settled := by
  unfold TxState.Settled
  rw [hu.session, hu.depth]
  exact hs

theorem undisturbed_pragma (hb : h.backend = .sqlite) (on : Bool) (s : TxState α) :
    Undisturbed s (s.send h (.pragma on)).2 := by
  refine ⟨?_, rfl⟩
  unfold TxState.send TxSession.exec
  dsimp only
  rw [hb]
  cases h.fate s.tick <;> rfl

theorem undisturbed_maybeRestoreRu (hb : h.backend = .sqlite) (on : Bool) (s : TxState α) :
    Undisturbed s (s.maybeRestoreRu h on) := by
  unfold maybeRestoreRu
  split
  · exact undisturbed_pragma hb false s
  · exact ⟨rfl, rfl⟩

/-- `BEGIN` on a settled connection opens a transaction, or leaves it settled. -/
theorem send_begin (hs : s.Settled) :
    (∃ t, s.send h .begin = (.ok (), t) ∧ t.toTxSession = { s.toTxSession with mode := .begun }) ∨
      ∃ e t, s.send h .begin = (.error e, t) ∧ Undisturbed s t := by
  obtain ⟨⟨durable, data, mode, aborted, saves⟩, depth, level, ruOn, tick, ends, lost⟩ := s
  obtain ⟨hmode, -, haborted, -, -⟩ := hs
  cases hmode
  cases haborted
  unfold TxState.send TxSession.exec
  dsimp only
  cases h.fate tick with
  | fails e rb =>
    refine .inr ⟨e, _, rfl, ?_, rfl⟩
    -- An error outside a transaction aborts none.
    cases h.backend <;> rfl
  | served =>
    exact .inl ⟨_, rfl, rfl⟩

/-- A transaction of depth 1 with the contents of the settled `s`. -/
structure Opened (h : TxHandle) (s t : TxState α) : Prop where
  inTx : t.InTx h
  depth : t.depth = 1
  data : t.data = s.durable
  durable : t.durable = s.durable

theorem opened_of_begun (hs : s.Settled)
    (hsession : t.toTxSession = { s.toTxSession with mode := .begun }) (hdepth : t.depth = 1) :
    Opened h s t := by
  obtain ⟨-, -, haborted, hdata, -⟩ := hs
  refine ⟨⟨?_, Nat.le_of_eq hdepth.symm, fun _ => ?_⟩, hdepth, ?_, ?_⟩
  · rw [hsession]
  · rw [hsession]
    exact haborted
  · rw [hsession]
    exact hdata
  · rw [hsession]

theorem beginAt_outer (hs : s.Settled) (level : Option String) :
    (∃ t, s.beginAt h level = (.ok (), t) ∧ Opened h s t) ∨
      ∃ e t, s.beginAt h level = (.error e, t) ∧ Undisturbed s t := by
  have houter : ∀ (l : String) {u : TxState α}, h.backend = .sqlite → Undisturbed s u →
      (∃ t, u.beginOuter h l = (.ok (), t) ∧ Opened h s t) ∨
        ∃ e t, u.beginOuter h l = (.error e, t) ∧ Undisturbed s t := fun l u hb hu => by
    unfold beginOuter
    rcases send_begin (h := h) (hu.settled hs) with ⟨t, hsend, hsession⟩ | ⟨e, t, hsend, hut⟩
    · rw [hsend]
      refine .inl ⟨_, rfl, opened_of_begun hs ?_ rfl⟩
      rw [hu.session] at hsession
      exact hsession
    · rw [hsend]
      have hr := undisturbed_maybeRestoreRu hb (decide (l = "read_uncommitted")) t
      exact .inr ⟨e, _, rfl, (hr.session.trans hut.session).trans hu.session,
        (hr.depth.trans hut.depth).trans hu.depth⟩
  unfold beginAt
  cases hb : h.backend with
  | sqlite =>
    dsimp only [sqliteBegin]
    rw [if_pos hs.2.1]
    unfold TxState.openTx
    split
    · have hp := undisturbed_pragma hb true s
      rcases hr : s.send h (.pragma true) with ⟨e | u, t⟩
      · rw [hr] at hp
        exact .inr ⟨e, t, rfl, hp⟩
      · rw [hr] at hp
        exact houter _ hb hp
    · exact houter _ hb ⟨rfl, rfl⟩
  | postgres =>
    dsimp only [pgBegin]
    rw [if_pos hs.2.1]
    split
    · next e rb _ => exact .inr ⟨e, _, rfl, rfl, rfl⟩
    · have hticked : Undisturbed s { s with tick := s.tick + 1 } := ⟨rfl, rfl⟩
      rcases send_begin (h := h) (hticked.settled hs) with ⟨t, hsend, hsession⟩ | ⟨e, t, hsend, hut⟩
      · rw [hsend]
        exact .inl ⟨_, rfl, opened_of_begun hs hsession rfl⟩
      · rw [hsend]
        exact .inr ⟨e, t, rfl, hut.session, hut.depth⟩

/-- `COMMIT` of a transaction that is harmless: it has committed, or (on Postgres) rolled back. -/
theorem commit_outer (ht : t.InTx h) (hdepth : t.depth = 1) (hends : Harmless h (t.commit h).2) :
    ∃ r u, t.commit h = (r, u) ∧ u.Settled ∧
      ((r = .ok () ∧ u.durable = t.data) ∨ ∃ e, r = .error e ∧ u.durable = t.durable) := by
  obtain ⟨⟨durable, data, mode, aborted, saves⟩, depth, level, ruOn, tick, ends, lost⟩ := t
  obtain ⟨hbegun, -, hsane⟩ := ht
  cases hbegun
  cases hdepth
  unfold TxState.commit Harmless at hends
  unfold TxState.commit
  cases hb : h.backend with
  | sqlite =>
    have haborted : aborted = false := hsane hb
    cases haborted
    rw [hb] at hends
    dsimp only [sqliteCommit, closeTx] at hends ⊢
    unfold TxState.send TxSession.exec at hends ⊢
    rw [hb] at hends ⊢
    cases hf : h.fate tick with
    | fails e rb =>
      rw [hf] at hends
      cases hends
    | served =>
      have hu := undisturbed_maybeRestoreRu hb ruOn
        (⟨⟨data, data, .closed, false, []⟩, 1, level, ruOn, tick + 1, ends, lost || false⟩ :
          TxState α)
      refine ⟨_, _, rfl, ⟨?_, rfl, ?_, ?_, ?_⟩, .inl ⟨rfl, ?_⟩⟩
      · exact congrArg TxSession.mode hu.session
      · exact congrArg TxSession.aborted hu.session
      · exact (congrArg TxSession.data hu.session).trans
          (congrArg TxSession.durable hu.session).symm
      · exact congrArg TxSession.saves hu.session
      · exact congrArg TxSession.durable hu.session
  | postgres =>
    rw [hb] at hends
    dsimp only [pgCommit, TxState.pgEnd] at hends ⊢
    unfold TxState.send TxSession.exec at hends ⊢
    rw [hb] at hends ⊢
    cases hf : h.fate tick with
    | fails e rb => exact ⟨_, _, rfl, ⟨rfl, rfl, rfl, rfl, rfl⟩, .inr ⟨e, rfl, rfl⟩⟩
    | served =>
      rw [hf] at hends
      cases aborted with
      | true =>
        -- A commit that rolls back would have been put down.
        have hlost : (lost || true) = false := hends.2
        rw [Bool.or_true] at hlost
        cases hlost
      | false => exact ⟨_, _, rfl, ⟨rfl, rfl, rfl, rfl, rfl⟩, .inl ⟨rfl, rfl⟩⟩

theorem rollback_outer (ht : t.InTx h) (hdepth : t.depth = 1)
    (hends : Harmless h (t.rollback h).2) :
    ∃ u, t.rollback h = (.ok (), u) ∧ u.Settled ∧ u.durable = t.durable := by
  obtain ⟨⟨durable, data, mode, aborted, saves⟩, depth, level, ruOn, tick, ends, lost⟩ := t
  obtain ⟨hbegun, -, hsane⟩ := ht
  cases hbegun
  cases hdepth
  unfold TxState.rollback Harmless at hends
  unfold TxState.rollback
  cases hb : h.backend with
  | sqlite =>
    rw [hb] at hends
    dsimp only [sqliteRollback, closeTx] at hends ⊢
    unfold TxState.send TxSession.exec at hends ⊢
    rw [hb] at hends ⊢
    cases hf : h.fate tick with
    | fails e rb =>
      rw [hf] at hends
      cases hends
    | served =>
      have hu := undisturbed_maybeRestoreRu hb ruOn
        (⟨⟨durable, durable, .closed, false, []⟩, 1, level, ruOn, tick + 1, ends, lost || false⟩ :
          TxState α)
      refine ⟨_, rfl, ⟨?_, rfl, ?_, ?_, ?_⟩, ?_⟩
      · exact congrArg TxSession.mode hu.session
      · exact congrArg TxSession.aborted hu.session
      · exact (congrArg TxSession.data hu.session).trans
          (congrArg TxSession.durable hu.session).symm
      · exact congrArg TxSession.saves hu.session
      · exact congrArg TxSession.durable hu.session
  | postgres =>
    rw [hb] at hends
    dsimp only [pgRollback, TxState.pgEnd] at hends ⊢
    unfold TxState.send TxSession.exec at hends ⊢
    rw [hb] at hends ⊢
    cases hf : h.fate tick with
    | fails e rb =>
      rw [hf] at hends
      have hbad := hends.1 .rollback List.mem_cons_self
      cases hbad
    | served => exact ⟨_, rfl, ⟨rfl, rfl, rfl, rfl, rfl⟩, rfl⟩

/-- The promise, and that the next call begins where this one did. -/
structure Promised (s : TxState α) (o : TxOutcome α β) : Prop where
  settled : o.state.Settled
  ok : ∀ v, o.result = .ok v → o.state.durable = applyAll o.writes s.durable
  err : ∀ e, o.result = .error e → o.state.durable = s.durable
  inner : ∀ p ∈ o.innerErrs, p.2 = p.1

theorem Promised.allOrNothing {o : TxOutcome α β} (hs : s.Settled) (ho : Promised s o) :
    AllOrNothing s o := by
  refine ⟨⟨ho.settled.1, ho.settled.2.1⟩, ho.ok, fun e he _ => ⟨?_, ho.err e he⟩, ho.inner⟩
  calc o.state.data = o.state.durable := ho.settled.2.2.2.1
    _ = s.durable := ho.err e he
    _ = s.data := hs.2.2.2.1.symm

/-- An outermost bracket that is harmless. -/
theorem promised_transaction {body : TxState α → TxOutcome α β}
    (hcounts : ∀ t : TxState α, Counts h 0 t (body t).state) (hbody : BodyKeeps h body)
    (level : Option String) (hs : s.Settled)
    (hends : Harmless h (transaction h level body s).state) :
    Promised s (transaction h level body s) := by
  have hbegin := counts_beginAt (h := h) level s
  unfold transaction at hends ⊢
  rcases beginAt_outer hs level with ⟨t, hopen, ht⟩ | ⟨e, t, herr, hu⟩
  · rw [hopen] at hends hbegin ⊢
    dsimp only at hends hbegin ⊢
    have hrun : Counts h (changeOf (Except.ok ()) + 0) s (body t).state := hbegin.trans (hcounts t)
    have hpos : h.backend = .sqlite → 1 ≤ (body t).state.depth := fun hb => by
      obtain ⟨new, -, -, hdep⟩ := hrun
      have hone : changeOf (Except.ok ()) = 1 := rfl
      have := hdep hb
      omega
    cases hres : (body t).result with
    | ok value =>
      rw [hres] at hends
      dsimp only at hends ⊢
      have hlast : Harmless h ((body t).state.commit h).2 := by
        rcases hr : (body t).state.commit h with ⟨_ | u, t'⟩ <;> rw [hr] at hends <;> exact hends
      have hk := hbody t ht.inTx ((counts_commit hpos).harmless hlast).onlyCommits
      obtain ⟨r, u, hcommit, husettled, hcases⟩ :=
        commit_outer hk.inTx (hk.depth.trans ht.depth) hlast
      rw [hcommit]
      rcases hcases with ⟨rfl, hdur⟩ | ⟨e, rfl, hdur⟩
      · refine ⟨husettled, fun v _ => ?_, fun e he => (nomatch he), hk.inner⟩
        show u.durable = applyAll (body t).writes s.durable
        rw [hdur, hk.data, ht.data]
      · refine ⟨husettled, fun v hv => (nomatch hv), fun e he => ?_, hk.inner⟩
        show u.durable = s.durable
        rw [hdur, hk.durable, ht.durable]
    | error e =>
      rw [hres] at hends
      dsimp only at hends ⊢
      have hlast : Harmless h ((body t).state.rollback h).2 := by
        rcases hr : (body t).state.rollback h with ⟨_ | u, t'⟩ <;> rw [hr] at hends <;>
          exact hends
      have hk := hbody t ht.inTx ((counts_rollback hpos).harmless hlast).onlyCommits
      obtain ⟨u, hrollback, husettled, hdur⟩ :=
        rollback_outer hk.inTx (hk.depth.trans ht.depth) hlast
      rw [hrollback]
      refine ⟨husettled, fun v hv => (nomatch hv), fun e he => ?_, hk.inner⟩
      show u.durable = s.durable
      rw [hdur, hk.durable, ht.durable]
  · rw [herr]
    refine ⟨hu.settled hs, fun v hv => (nomatch hv), fun e he => ?_, fun p hp => nomatch hp⟩
    show t.durable = s.durable
    rw [hu.session]

/-- Attempt after attempt: one that fails leaves the connection as the next one needs it. -/
theorem promised_retryLoop (policy : RetryPolicy) (isTransient : DbError → Bool)
    {attempt : TxState α → TxOutcome α β}
    (hcounts : ∀ t : TxState α, Counts h 0 t (attempt t).state)
    (hattempt : ∀ t : TxState α, t.Settled → Harmless h (attempt t).state → Promised t (attempt t))
    (n : Int) (hs : s.Settled)
    (hends : Harmless h (retryLoop policy isTransient attempt n s).state) :
    Promised s (retryLoop policy isTransient attempt n s) := by
  induction n, s using retryLoop.induct policy isTransient attempt with
  | case1 n s o v ho =>
    unfold retryLoop at hends ⊢
    simp only [show (attempt s).result = .ok v from ho] at hends ⊢
    exact hattempt s hs hends
  | case2 n s o e ho hn htrans ih =>
    unfold retryLoop at hends ⊢
    simp only [show (attempt s).result = .error e from ho, if_pos hn, if_pos htrans] at hends ⊢
    have hfirst := hattempt s hs
      ((counts_retryLoop policy isTransient hcounts (n + 1) (attempt s).state).harmless hends)
    have hrest := ih hfirst.settled hends
    have hback := hfirst.err e ho
    refine ⟨hrest.settled, fun v hv => ?_, fun e he => (hrest.err e he).trans hback,
      fun p hp => ?_⟩
    · rw [← hback]
      exact hrest.ok v hv
    · rcases List.mem_append.mp hp with hp | hp
      · exact hfirst.inner p hp
      · exact hrest.inner p hp
  | case3 n s o e ho hn htrans =>
    unfold retryLoop at hends ⊢
    simp only [show (attempt s).result = .error e from ho, if_pos hn, if_neg htrans] at hends ⊢
    exact hattempt s hs hends
  | case4 n s o e ho hn =>
    unfold retryLoop at hends ⊢
    simp only [show (attempt s).result = .error e from ho, if_neg hn] at hends ⊢
    exact hattempt s hs hends

theorem promised_run (body : TxBody α β) (call : TxCall) (hs : s.Settled)
    (hends : Harmless h (call.run h body s).state) : Promised s (call.run h body s) := by
  cases call with
  | transaction => exact promised_transaction (counts_runBody body) (bodyKeeps_runBody body) _ hs hends
  | transactionWith level =>
    exact promised_transaction (counts_runBody body) (bodyKeeps_runBody body) _ hs hends
  | transactionWithRetry policy =>
    apply promised_retryLoop _ _ (counts_transaction none (counts_runBody body)) _ 1 hs hends
    intro t ht htends
    exact promised_transaction (counts_runBody body) (bodyKeeps_runBody body) _ ht htends

end

theorem settled_fresh (a : α) : (TxState.fresh a).Settled := ⟨rfl, rfl, rfl, rfl, rfl⟩

/-- A call keeps the promise if its transactions' ends are harmless; on SQLite only then. -/
theorem allOrNothing_iff_harmless (h : TxHandle) (body : TxBody α β) (call : TxCall) (a : α) :
    (Harmless h (call.run h body (.fresh a)).state →
        AllOrNothing (.fresh a) (call.run h body (.fresh a))) ∧
      (h.backend = .sqlite → AllOrNothing (.fresh a) (call.run h body (.fresh a)) →
        Harmless h (call.run h body (.fresh a)).state) := by
  refine ⟨fun hends => (promised_run body call (settled_fresh a) hends).allOrNothing
    (settled_fresh a), fun hb hall => ?_⟩
  -- The depth left over is the number of ends that failed.
  obtain ⟨new, hends, -, hdepth⟩ := counts_run (h := h) body call (TxState.fresh a)
  have hd := hdepth hb
  rw [hall.closed.2] at hd
  have h0 : (TxState.fresh a).depth = 0 := rfl
  have hnew : new = [] := List.length_eq_zero_iff.mp (by omega)
  unfold Harmless
  rw [hb, hends, hnew]
  rfl

/-- A SQLite database that is busy at its third statement, the `COMMIT` of the first attempt. -/
def busyOnce : TxHandle where
  backend := .sqlite
  fate := fun n =>
    if n = 2 then .fails { code := "db.error.sqlite.5", message := "database is locked" } false
    else .served
  defaultIsolation := "read_committed"

/-- One statement that adds one and answers what it found. -/
def increment : TxBody Nat Nat := .statement (fun n => .ok (n, n + 1)) .done

def twoAttempts : TxCall :=
  .transactionWithRetry { maxAttempts := 2, baseBackoffMs := 10, maxBackoffMs := 100 }

/-- The second attempt is a savepoint inside the first: it answers `Ok`, and nothing is committed. -/
theorem busyCommit_not_allOrNothing :
    (∃ v, (twoAttempts.run busyOnce increment (.fresh 0)).result = .ok v) ∧
      (twoAttempts.run busyOnce increment (.fresh 0)).state.durable = 0 ∧
      ¬ AllOrNothing (.fresh 0) (twoAttempts.run busyOnce increment (.fresh 0)) := by
  have hrun : twoAttempts.run busyOnce increment (.fresh 0) =
      ⟨.ok 1, ⟨⟨0, 2, .begun, false, []⟩, 1, "read_committed", false, 6, [.commit], false⟩,
        [effectOf fun n => .ok (n, n + 1)], []⟩ := by
    unfold twoAttempts TxCall.run
    unfold retryLoop
    unfold retryLoop
    rfl
  rw [hrun]
  refine ⟨⟨1, rfl⟩, rfl, fun hall => ?_⟩
  have hclosed : TxMode.begun = TxMode.closed := hall.closed.1
  cases hclosed

end Ridge
