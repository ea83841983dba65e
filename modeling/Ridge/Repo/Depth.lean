import Ridge.Repo.Transaction

/-!
# std.repo — the account of a run

A begin adds one to the depth and a commit or rollback takes one off. On SQLite one that fails takes
nothing off, so what is left of the depth at the end is the number of those that failed. `Counts`
carries this through a call, with what the account keeps of the failures.
-/

namespace Ridge

open TxState

variable {α β : Type}

/-- From `s` to `s'` the depth has changed by `δ` and by one for each new failed end. -/
def Counts (h : TxHandle) (δ : Int) (s s' : TxState α) : Prop :=
  ∃ new, s'.failedEnds = new ++ s.failedEnds ∧ (s.lostCommit = true → s'.lostCommit = true) ∧
    (h.backend = .sqlite → (s'.depth : Int) = s.depth + new.length + δ)

section

variable {h : TxHandle} {s s' s'' : TxState α}

theorem Counts.refl (s : TxState α) : Counts h 0 s s :=
  ⟨[], rfl, id, fun _ => by simp⟩

theorem Counts.trans {δ ε : Int} (h₁ : Counts h δ s s') (h₂ : Counts h ε s' s'') :
    Counts h (δ + ε) s s'' := by
  obtain ⟨new, hends, hlost, hdepth⟩ := h₁
  obtain ⟨new', hends', hlost', hdepth'⟩ := h₂
  refine ⟨new' ++ new, by rw [hends', hends, List.append_assoc], fun hl => hlost' (hlost hl),
    fun hb => ?_⟩
  have hd := hdepth hb
  have hd' := hdepth' hb
  rw [List.length_append]
  omega

theorem Counts.depth {δ : Int} (hc : Counts h δ s s') {t : TxState α} {ε : Int}
    (hends : t.failedEnds = s'.failedEnds) (hlost : t.lostCommit = s'.lostCommit)
    (hd : h.backend = .sqlite → (t.depth : Int) = s'.depth + ε) : Counts h (δ + ε) s t := by
  obtain ⟨new, he, hl, hdepth⟩ := hc
  refine ⟨new, hends.trans he, fun hs => hlost.trans (hl hs), fun hb => ?_⟩
  have h1 := hdepth hb
  have h2 := hd hb
  omega

variable (st : TxStatement)

/-- The number of ends that failed in a statement just sent. -/
def failedEnd (r : Except DbError Unit) : Nat :=
  if st.isEnd ∧ r.isOk = false then 1 else 0

theorem counts_send (s : TxState α) :
    Counts h (-failedEnd st (s.send h st).1) s (s.send h st).2 := by
  unfold TxState.send failedEnd
  dsimp only
  cases hr : (s.toTxSession.exec h.backend (h.fate s.tick) st).1 with
  | ok u =>
    refine ⟨[], rfl, fun hl => by rw [hl]; rfl, fun _ => ?_⟩
    simp [Except.isOk, Except.toBool]
  | error e =>
    cases hst : st.isEnd with
    | true =>
      refine ⟨[st], rfl, fun hl => by rw [hl]; rfl, fun _ => ?_⟩
      show (s.depth : Int) = s.depth + 1 + -1
      omega
    | false =>
      refine ⟨[], rfl, fun hl => by rw [hl]; rfl, fun _ => ?_⟩
      simp

theorem counts_send_begin (hst : st.isEnd = false) (s : TxState α) :
    Counts h 0 s (s.send h st).2 := by
  have hc := counts_send (h := h) st s
  unfold failedEnd at hc
  rw [if_neg fun hp => by rw [hst] at hp; exact Bool.false_ne_true hp.1] at hc
  exact hc

theorem counts_maybeRestoreRu (on : Bool) (s : TxState α) :
    Counts h 0 s (s.maybeRestoreRu h on) := by
  unfold maybeRestoreRu
  split
  · exact counts_send_begin _ rfl s
  · exact Counts.refl s

theorem depth_maybeRestoreRu (on : Bool) (s : TxState α) :
    (s.maybeRestoreRu h on).depth = s.depth := by
  unfold maybeRestoreRu
  split <;> rfl

/-- What the count of a begin, commit or rollback depends on. -/
def changeOf (r : Except DbError Unit) : Int := if r.isOk then 1 else 0

theorem counts_runTx_savepoint (n : Nat) (s : TxState α) :
    Counts h (changeOf (s.runTx h (.savepoint n) (s.depth + 1)).1) s
      (s.runTx h (.savepoint n) (s.depth + 1)).2 := by
  have hsend := counts_send_begin (h := h) (.savepoint n) rfl s
  unfold TxState.runTx
  rcases hr : s.send h (.savepoint n) with ⟨_ | u, t⟩
  · rw [hr] at hsend
    exact hsend
  · rw [hr] at hsend
    have hd : t.depth = s.depth := congrArg (fun p => p.2.depth) hr.symm
    refine hsend.depth (ε := 1) rfl rfl fun _ => ?_
    show ((s.depth + 1 : Nat) : Int) = t.depth + 1
    rw [hd]
    rfl

theorem counts_beginOuter (level : String) (h0 : s.depth = 0) :
    Counts h (changeOf (s.beginOuter h level).1) s (s.beginOuter h level).2 := by
  have hsend := counts_send_begin (h := h) .begin rfl s
  unfold beginOuter
  rcases hr : s.send h .begin with ⟨_ | u, t⟩
  · rw [hr] at hsend
    exact hsend.trans (counts_maybeRestoreRu _ t)
  · rw [hr] at hsend
    have hd : t.depth = 0 := (congrArg (fun p => p.2.depth) hr.symm).trans h0
    refine hsend.depth (ε := 1) rfl rfl fun _ => ?_
    show ((1 : Nat) : Int) = t.depth + 1
    rw [hd]
    rfl

theorem counts_openTx (level : String) (h0 : s.depth = 0) :
    Counts h (changeOf (s.openTx h level).1) s (s.openTx h level).2 := by
  unfold TxState.openTx
  split
  · have hsend := counts_send_begin (h := h) (.pragma true) rfl s
    rcases hr : s.send h (.pragma true) with ⟨_ | u, t⟩
    · rw [hr] at hsend
      exact hsend
    · rw [hr] at hsend
      have hd : t.depth = 0 := (congrArg (fun p => p.2.depth) hr.symm).trans h0
      have hc := hsend.trans (counts_beginOuter (h := h) level hd)
      rwa [Int.zero_add] at hc
  · exact counts_beginOuter level h0

theorem counts_pgBegin (hb : h.backend = .postgres) (level : Option String) (s : TxState α) :
    Counts h (changeOf (s.pgBegin h level).1) s (s.pgBegin h level).2 := by
  -- Only SQLite's depth is counted.
  have hany : ∀ {δ : Int} {t : TxState α}, Counts h 0 s t → Counts h δ s t :=
    fun ⟨new, he, hl, _⟩ => ⟨new, he, hl, fun hs => by rw [hb] at hs; cases hs⟩
  have hsend : ∀ (st : TxStatement) (_ : st.isEnd = false) {t : TxState α}, Counts h 0 s t →
      Counts h 0 s (t.send h st).2 := fun st hst _ hc => hc.trans (counts_send_begin st hst _)
  have hset : ∀ {t : TxState α} (d : Nat) (l : String), Counts h 0 s t →
      Counts h 0 s { t with depth := d, level := l } :=
    fun _ _ ⟨new, he, hl, _⟩ => ⟨new, he, hl, fun hs => by rw [hb] at hs; cases hs⟩
  unfold pgBegin
  split
  · split
    · exact hany ⟨[], rfl, id, fun hs => by rw [hb] at hs; cases hs⟩
    · have hticked : Counts h 0 s { s with tick := s.tick + 1 } :=
        ⟨[], rfl, id, fun hs => by rw [hb] at hs; cases hs⟩
      have hb' := hsend .begin rfl hticked
      split
      · next t heq =>
        rw [heq] at hb'
        exact hany (hset 1 _ hb')
      · next t heq =>
        rw [heq] at hb'
        exact hany hb'
  · split
    · have hb' := hsend (.savepoint s.depth) rfl (Counts.refl s)
      split
      · next t heq =>
        rw [heq] at hb'
        exact hany (hset _ t.level hb')
      · next t heq =>
        rw [heq] at hb'
        exact hany hb'
    · exact hany (Counts.refl s)

theorem counts_beginAt (level : Option String) (s : TxState α) :
    Counts h (changeOf (s.beginAt h level).1) s (s.beginAt h level).2 := by
  unfold beginAt
  split
  · unfold sqliteBegin
    split
    · next h0 => exact counts_openTx _ h0
    · split
      · exact counts_runTx_savepoint _ s
      · exact Counts.refl s
  · next hb => exact counts_pgBegin hb level s

/-- A sent end either takes one from the depth or counts as failed. -/
theorem counts_runTx_end {st : TxStatement} (hst : st.isEnd = true) {d : Nat}
    (hd : s.depth = d + 1) : Counts h (-1) s (s.runTx h st d).2 := by
  have hsend := counts_send (h := h) st s
  unfold TxState.runTx
  rcases hr : s.send h st with ⟨e | u, t⟩
  · rw [hr] at hsend
    have hone : failedEnd st (.error e) = 1 := if_pos ⟨hst, rfl⟩
    rw [hone] at hsend
    exact hsend
  · rw [hr] at hsend
    have hzero : failedEnd st (.ok u) = 0 := if_neg fun hp => nomatch hp.2
    rw [hzero] at hsend
    have hdt : t.depth = d + 1 := (congrArg (fun p => p.2.depth) hr.symm).trans hd
    have hc := hsend.depth (t := { t with depth := d }) (ε := -1) rfl rfl fun _ => by
      show (d : Int) = t.depth + -1
      omega
    exact hc

theorem counts_closeTx {st : TxStatement} (hst : st.isEnd = true) (hd : s.depth = 1) :
    Counts h (-1) s (s.closeTx h st).2 := by
  have hsend := counts_send (h := h) st s
  unfold closeTx
  rcases hr : s.send h st with ⟨e | u, t⟩
  · rw [hr] at hsend
    have hone : failedEnd st (.error e) = 1 := if_pos ⟨hst, rfl⟩
    rw [hone] at hsend
    exact hsend
  · rw [hr] at hsend
    have hzero : failedEnd st (.ok u) = 0 := if_neg fun hp => nomatch hp.2
    rw [hzero] at hsend
    have hdt : t.depth = 1 := (congrArg (fun p => p.2.depth) hr.symm).trans hd
    have hrestored := hsend.trans (counts_maybeRestoreRu t.ruOn t)
    have hc := hrestored.depth
      (t := { t.maybeRestoreRu h t.ruOn with depth := 0, level := "", ruOn := false })
      (ε := -1) rfl rfl fun _ => by
        show ((0 : Nat) : Int) = (t.maybeRestoreRu h t.ruOn).depth + -1
        rw [depth_maybeRestoreRu, hdt]
        rfl
    exact hc

theorem counts_pgEnd (hb : h.backend = .postgres) (outer : TxStatement)
    (inner : Nat → TxStatement) (s : TxState α) : Counts h (-1) s (s.pgEnd h outer inner).2 := by
  have hany : ∀ {δ : Int} {t u : TxState α}, Counts h δ s t → u.failedEnds = t.failedEnds →
      u.lostCommit = t.lostCommit → Counts h (-1) s u :=
    fun ⟨new, he, hl, _⟩ hends hlost =>
      ⟨new, hends.trans he, fun hs => hlost.trans (hl hs), fun hs => by rw [hb] at hs; cases hs⟩
  unfold TxState.pgEnd
  split
  · exact hany (Counts.refl s) rfl rfl
  · exact hany (counts_send outer s) rfl rfl
  · next d _ => exact hany (counts_send (inner (d + 1)) s) rfl rfl

theorem counts_commit (hd : h.backend = .sqlite → 1 ≤ s.depth) :
    Counts h (-1) s (s.commit h).2 := by
  unfold TxState.commit
  split
  · next hb =>
    unfold sqliteCommit
    split
    · next h0 =>
      have := hd hb
      omega
    · next h1 => exact counts_closeTx rfl h1
    · next d h2 => exact counts_runTx_end rfl h2
  · next hb => exact counts_pgEnd hb _ _ s

theorem counts_rollback (hd : h.backend = .sqlite → 1 ≤ s.depth) :
    Counts h (-1) s (s.rollback h).2 := by
  unfold TxState.rollback
  split
  · next hb =>
    unfold sqliteRollback
    split
    · next h0 =>
      have := hd hb
      omega
    · next h1 => exact counts_closeTx rfl h1
    · next d h2 => exact counts_runTx_end rfl h2
  · next hb => exact counts_pgEnd hb _ _ s

/-- A bracket takes the depth back, less its failed ends, if its body does. -/
theorem counts_transaction (level : Option String) {body : TxState α → TxOutcome α β}
    (hbody : ∀ t : TxState α, Counts h 0 t (body t).state) (s : TxState α) :
    Counts h 0 s (transaction h level body s).state := by
  have hbegin := counts_beginAt (h := h) level s
  unfold transaction
  split
  · next t heq =>
    rw [heq] at hbegin
    exact hbegin
  · next t heq =>
    rw [heq] at hbegin
    have hrun : Counts h 1 s (body t).state := hbegin.trans (hbody t)
    have hpos : h.backend = .sqlite → 1 ≤ (body t).state.depth := fun hb => by
      obtain ⟨new, -, -, hd⟩ := hrun
      have := hd hb
      omega
    dsimp only
    split
    · have hc := hrun.trans (counts_commit hpos)
      split <;> (next heq => rw [heq] at hc; exact hc)
    · have hc := hrun.trans (counts_rollback hpos)
      split <;> (next heq => rw [heq] at hc; exact hc)

theorem counts_runBody (body : TxBody α β) (s : TxState α) :
    Counts h 0 s (runBody h body s).state := by
  induction body generalizing s with
  | done result => exact Counts.refl s
  | statement f next ih =>
    have hstep : Counts h 0 s { s with
        toTxSession := (s.toTxSession.execBody h.backend (h.fate s.tick) f).2
        tick := s.tick + 1 } := ⟨[], rfl, id, fun _ => by simp⟩
    exact hstep.trans (ih _ _)
  | nested level inner next ihInner ihNext =>
    exact (counts_transaction level ihInner s).trans (ihNext _ _)

theorem counts_retryLoop (policy : RetryPolicy) (isTransient : DbError → Bool)
    {attempt : TxState α → TxOutcome α β}
    (hattempt : ∀ t : TxState α, Counts h 0 t (attempt t).state) (n : Int) (s : TxState α) :
    Counts h 0 s (retryLoop policy isTransient attempt n s).state := by
  induction n, s using retryLoop.induct policy isTransient attempt with
  | case1 n s o v ho =>
    unfold retryLoop
    simp only [show (attempt s).result = .ok v from ho]
    exact hattempt s
  | case2 n s o e ho hn htrans ih =>
    unfold retryLoop
    simp only [show (attempt s).result = .error e from ho, if_pos hn, if_pos htrans]
    exact (hattempt s).trans ih
  | case3 n s o e ho hn htrans =>
    unfold retryLoop
    simp only [show (attempt s).result = .error e from ho, if_pos hn, if_neg htrans]
    exact hattempt s
  | case4 n s o e ho hn =>
    unfold retryLoop
    simp only [show (attempt s).result = .error e from ho, if_neg hn]
    exact hattempt s

theorem counts_run (body : TxBody α β) (call : TxCall) (s : TxState α) :
    Counts h 0 s (call.run h body s).state := by
  cases call with
  | transaction => exact counts_transaction none (counts_runBody body) s
  | transactionWith level => exact counts_transaction (some level) (counts_runBody body) s
  | transactionWithRetry policy =>
    exact counts_retryLoop _ _ (counts_transaction none (counts_runBody body)) 1 s

end

end Ridge
