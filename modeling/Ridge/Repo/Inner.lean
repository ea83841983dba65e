import Ridge.Repo.Depth

/-!
# std.repo — inside a transaction

What a part of a transaction's body keeps of the transaction around it, when no `RELEASE`,
`ROLLBACK` or `ROLLBACK TO` fails: the depth, the committed contents, and the savepoints it found.
-/

namespace Ridge

open List TxState TxSession

variable {α β : Type}

/-- Writes carried out one after the other. -/
def applyAll (writes : List (α → α)) (a : α) : α := writes.foldl (fun a f => f a) a

@[simp] theorem applyAll_append (ws vs : List (α → α)) (a : α) :
    applyAll (ws ++ vs) a = applyAll vs (applyAll ws a) := foldl_append

/-- No statement but a `COMMIT` has failed to end a transaction. -/
def TxState.OnlyCommits (s : TxState α) : Prop := ∀ st ∈ s.failedEnds, st = .commit

structure TxState.InTx (h : TxHandle) (s : TxState α) : Prop where
  begun : s.mode = .begun
  depth : 1 ≤ s.depth
  sane : h.backend = .sqlite → s.aborted = false

section

variable {h : TxHandle} {s s' s'' : TxState α}

theorem Counts.onlyCommits {δ : Int} (hc : Counts h δ s s') (h' : s'.OnlyCommits) :
    s.OnlyCommits := by
  obtain ⟨new, hends, -⟩ := hc
  exact fun st hst => h' st (by rw [hends]; exact mem_append_right _ hst)

theorem savesFrom_append {n : Nat} {extra rest : List (Nat × α)} {old : α}
    (hextra : ∀ p ∈ extra, n + 1 ≤ p.1) :
    savesFrom n (extra ++ (n, old) :: rest) = (n, old) :: rest := by
  induction extra with
  | nil => exact dropWhile_cons_of_neg (by simp)
  | cons p extra ih =>
    have hp : p.1 ≠ n := by
      have := hextra p mem_cons_self
      omega
    have hdrop := dropWhile_cons_of_pos (p := fun q : Nat × α => decide (q.1 ≠ n))
      (l := extra ++ (n, old) :: rest) (decide_eq_true hp)
    exact hdrop.trans (ih fun q hq => hextra q (mem_cons_of_mem _ hq))

/-- `SAVEPOINT` puts one down, or fails and changes no contents. -/
theorem send_savepoint (hs : s.InTx h) (n : Nat) :
    s.send h (.savepoint n)
        = (.ok (), { s with saves := (n, s.data) :: s.saves, tick := s.tick + 1 }) ∨
      ∃ e ab, s.send h (.savepoint n) = (.error e, { s with aborted := ab, tick := s.tick + 1 }) ∧
        (h.backend = .sqlite → ab = false) := by
  obtain ⟨⟨durable, data, mode, aborted, saves⟩, depth, level, ruOn, tick, ends, lost⟩ := s
  obtain ⟨hbegun, -, hsane⟩ := hs
  cases hbegun
  unfold TxState.send TxSession.exec
  dsimp only
  cases h.fate tick with
  | fails e rb =>
    refine .inr ⟨e, ?_⟩
    cases hb : h.backend with
    | sqlite =>
      refine ⟨aborted, ?_, fun _ => hsane hb⟩
      simp [TxSession.fail, TxStatement.isEnd, Except.isOk, Except.toBool]
    | postgres =>
      refine ⟨true, ?_, by simp⟩
      simp [TxSession.fail, TxStatement.isEnd, Except.isOk, Except.toBool]
  | served =>
    cases haborted : aborted with
    | true =>
      refine .inr ⟨refused, true, ?_, fun hc => haborted ▸ hsane hc⟩
      cases h.backend <;> simp [TxSession.serve, TxStatement.isEnd, Except.isOk, Except.toBool]
    | false =>
      refine .inl ?_
      cases h.backend <;> simp [TxSession.serve, Except.isOk, Except.toBool]

theorem failedEnds_of_error {st : TxStatement} (hst : st.isEnd = true) {e : DbError}
    (he : (s.send h st).1 = .error e) : (s.send h st).2.failedEnds = st :: s.failedEnds := by
  unfold TxState.send at he ⊢
  dsimp only at he ⊢
  rw [he, hst]
  rfl

variable {rest : List (Nat × α)}

theorem send_release (hs : s.InTx h) {n : Nat} {p : Nat × α}
    (hfrom : savesFrom n s.saves = p :: rest) (hends : (s.send h (.release n)).2.OnlyCommits) :
    s.send h (.release n) = (.ok (), { s with saves := rest, tick := s.tick + 1 }) := by
  cases hr : (s.send h (.release n)).1 with
  | error e =>
    have hbad := hends (.release n) (by rw [failedEnds_of_error rfl hr]; exact mem_cons_self)
    cases hbad
  | ok u =>
    obtain ⟨⟨durable, data, mode, aborted, saves⟩, depth, level, ruOn, tick, ends, lost⟩ := s
    obtain ⟨hbegun, -, hsane⟩ := hs
    cases hbegun
    unfold TxState.send TxSession.exec at hr ⊢
    dsimp only at hr hfrom ⊢
    cases hf : h.fate tick with
    | fails e rb => rw [hf] at hr; cases hr
    | served =>
      rw [hf] at hr
      cases aborted with
      | true => cases hr
      | false => simp [TxSession.serve, hfrom, Except.isOk, Except.toBool]

theorem send_rollbackTo (hs : s.InTx h) {n m : Nat} {old : α}
    (hfrom : savesFrom n s.saves = (m, old) :: rest)
    (hends : (s.send h (.rollbackTo n)).2.OnlyCommits) :
    s.send h (.rollbackTo n) = (.ok (), { s with
      data := old, aborted := false, saves := (n, old) :: rest, tick := s.tick + 1 }) := by
  cases hr : (s.send h (.rollbackTo n)).1 with
  | error e =>
    have hbad := hends (.rollbackTo n)
      (by rw [failedEnds_of_error rfl hr]; exact mem_cons_self)
    cases hbad
  | ok u =>
    obtain ⟨⟨durable, data, mode, aborted, saves⟩, depth, level, ruOn, tick, ends, lost⟩ := s
    obtain ⟨hbegun, -, hsane⟩ := hs
    cases hbegun
    unfold TxState.send TxSession.exec at hr ⊢
    dsimp only at hr hfrom ⊢
    cases hf : h.fate tick with
    | fails e rb => rw [hf] at hr; cases hr
    | served => simp [TxSession.serve, hfrom, Except.isOk, Except.toBool]

/-- An inner begin puts a savepoint down under the depth, or changes no contents. -/
theorem beginAt_inner (hs : s.InTx h) (level : Option String) :
    ∃ r t, s.beginAt h level = (r, t) ∧ t.InTx h ∧ t.durable = s.durable ∧ t.data = s.data ∧
      ((r = .ok () ∧ t.depth = s.depth + 1 ∧ t.saves = (s.depth, s.data) :: s.saves) ∨
        ∃ e, r = .error e ∧ t.depth = s.depth ∧ t.saves = s.saves) := by
  have hd : s.depth ≠ 0 := by
    have := hs.depth
    omega
  have hsave := send_savepoint hs s.depth
  have hsame : ∀ e : DbError, ∃ r t, ((.error e : Except DbError Unit), s) = (r, t) ∧ t.InTx h ∧
      t.durable = s.durable ∧ t.data = s.data ∧
      ((r = .ok () ∧ t.depth = s.depth + 1 ∧ t.saves = (s.depth, s.data) :: s.saves) ∨
        ∃ e, r = .error e ∧ t.depth = s.depth ∧ t.saves = s.saves) := fun e =>
    ⟨_, s, rfl, hs, rfl, rfl, .inr ⟨e, rfl, rfl, rfl⟩⟩
  unfold beginAt
  split
  · unfold sqliteBegin
    rw [if_neg hd]
    split
    · unfold TxState.runTx
      rcases hsave with hok | ⟨e, ab, herr, hab⟩
      · rw [hok]
        exact ⟨_, _, rfl, ⟨hs.begun, Nat.succ_pos _, hs.sane⟩, rfl, rfl, .inl ⟨rfl, rfl, rfl⟩⟩
      · rw [herr]
        exact ⟨_, _, rfl, ⟨hs.begun, hs.depth, hab⟩, rfl, rfl, .inr ⟨e, rfl, rfl, rfl⟩⟩
    · exact hsame _
  · unfold pgBegin
    rw [if_neg hd]
    split
    · rcases hsave with hok | ⟨e, ab, herr, hab⟩
      · rw [hok]
        exact ⟨_, _, rfl, ⟨hs.begun, Nat.succ_pos _, hs.sane⟩, rfl, rfl, .inl ⟨rfl, rfl, rfl⟩⟩
      · rw [herr]
        exact ⟨_, _, rfl, ⟨hs.begun, hs.depth, hab⟩, rfl, rfl, .inr ⟨e, rfl, rfl, rfl⟩⟩
    · exact hsame _

variable {d : Nat} {extra rest : List (Nat × α)} {old : α}

/-- An inner commit that does not fail keeps the contents and takes the savepoint away. -/
theorem commit_inner (hs : s.InTx h) (hd : s.depth = d + 2)
    (hsaves : s.saves = extra ++ (d + 1, old) :: rest) (hextra : ∀ p ∈ extra, d + 1 + 1 ≤ p.1)
    (hends : (s.commit h).2.OnlyCommits) :
    ∃ t, s.commit h = (.ok (), t) ∧ t.InTx h ∧ t.depth = d + 1 ∧ t.durable = s.durable ∧
      t.data = s.data ∧ t.saves = rest := by
  have hfrom : savesFrom (d + 1) s.saves = (d + 1, old) :: rest := by
    rw [hsaves]
    exact savesFrom_append hextra
  unfold TxState.commit at hends ⊢
  cases hb : h.backend with
  | sqlite =>
    rw [hb] at hends
    dsimp only [sqliteCommit] at hends ⊢
    rw [hd] at hends ⊢
    dsimp only [TxState.runTx] at hends ⊢
    have hsend := send_release hs hfrom (by
      rcases hr : s.send h (.release (d + 1)) with ⟨_ | u, t⟩ <;> rw [hr] at hends <;> exact hends)
    rw [hsend]
    exact ⟨_, rfl, ⟨hs.begun, Nat.succ_pos _, hs.sane⟩, rfl, rfl, rfl, rfl⟩
  | postgres =>
    rw [hb] at hends
    dsimp only [pgCommit, TxState.pgEnd] at hends ⊢
    rw [hd] at hends ⊢
    have hsend := send_release hs hfrom hends
    dsimp only
    rw [hsend]
    exact ⟨_, rfl, ⟨hs.begun, Nat.succ_pos _, hs.sane⟩, rfl, rfl, rfl, rfl⟩

/-- An inner rollback that does not fail restores the savepoint and keeps it. -/
theorem rollback_inner (hs : s.InTx h) (hd : s.depth = d + 2)
    (hsaves : s.saves = extra ++ (d + 1, old) :: rest) (hextra : ∀ p ∈ extra, d + 1 + 1 ≤ p.1)
    (hends : (s.rollback h).2.OnlyCommits) :
    ∃ t, s.rollback h = (.ok (), t) ∧ t.InTx h ∧ t.depth = d + 1 ∧ t.durable = s.durable ∧
      t.data = old ∧ t.saves = (d + 1, old) :: rest := by
  have hfrom : savesFrom (d + 1) s.saves = (d + 1, old) :: rest := by
    rw [hsaves]
    exact savesFrom_append hextra
  unfold TxState.rollback at hends ⊢
  cases hb : h.backend with
  | sqlite =>
    rw [hb] at hends
    dsimp only [sqliteRollback] at hends ⊢
    rw [hd] at hends ⊢
    dsimp only [TxState.runTx] at hends ⊢
    have hsend := send_rollbackTo hs hfrom (by
      rcases hr : s.send h (.rollbackTo (d + 1)) with ⟨_ | u, t⟩ <;> rw [hr] at hends <;>
        exact hends)
    rw [hsend]
    exact ⟨_, rfl, ⟨hs.begun, Nat.succ_pos _, fun _ => rfl⟩, rfl, rfl, rfl, rfl⟩
  | postgres =>
    rw [hb] at hends
    dsimp only [pgRollback, TxState.pgEnd] at hends ⊢
    rw [hd] at hends ⊢
    have hsend := send_rollbackTo hs hfrom hends
    dsimp only
    rw [hsend]
    exact ⟨_, rfl, ⟨hs.begun, Nat.succ_pos _, fun _ => rfl⟩, rfl, rfl, rfl, rfl⟩

/-- What a part of a transaction's body keeps, when no end of an inner one fails. -/
structure Kept (h : TxHandle) (s s' : TxState α) (writes : List (α → α)) (errs : List (α × α)) :
    Prop where
  inTx : s'.InTx h
  depth : s'.depth = s.depth
  durable : s'.durable = s.durable
  data : s'.data = applyAll writes s.data
  saves : ∃ extra, s'.saves = extra ++ s.saves ∧ ∀ p ∈ extra, s.depth ≤ p.1
  inner : ∀ p ∈ errs, p.2 = p.1

theorem Kept.trans {ws vs : List (α → α)} {es fs : List (α × α)} (h₁ : Kept h s s' ws es)
    (h₂ : Kept h s' s'' vs fs) : Kept h s s'' (ws ++ vs) (es ++ fs) := by
  obtain ⟨extra, hsaves, hextra⟩ := h₁.saves
  obtain ⟨extra', hsaves', hextra'⟩ := h₂.saves
  refine ⟨h₂.inTx, h₂.depth.trans h₁.depth, h₂.durable.trans h₁.durable, ?_,
    ⟨extra' ++ extra, ?_, fun p hp => ?_⟩, fun p hp => ?_⟩
  · rw [h₂.data, h₁.data, applyAll_append]
  · rw [hsaves', hsaves, append_assoc]
  · rcases mem_append.mp hp with hp | hp
    · exact h₁.depth ▸ hextra' p hp
    · exact hextra p hp
  · rcases mem_append.mp hp with hp | hp
    · exact h₁.inner p hp
    · exact h₂.inner p hp

def BodyKeeps (h : TxHandle) (body : TxState α → TxOutcome α β) : Prop :=
  ∀ t : TxState α, t.InTx h → (body t).state.OnlyCommits →
    Kept h t (body t).state (body t).writes (body t).innerErrs

/-- An inner transaction is a part of the body around it. -/
theorem kept_transaction {body : TxState α → TxOutcome α β}
    (hcounts : ∀ t : TxState α, Counts h 0 t (body t).state) (hbody : BodyKeeps h body)
    (level : Option String) (hs : s.InTx h)
    (hends : (transaction h level body s).state.OnlyCommits) :
    Kept h s (transaction h level body s).state (transaction h level body s).writes
      ((transaction h level body s).innerErrs ++ innerErr s (transaction h level body s)) := by
  obtain ⟨r, t, hbegin, ht, hdurable, hdata, hcases⟩ := beginAt_inner hs level
  have hcount := counts_beginAt (h := h) level s
  unfold transaction at hends ⊢
  rw [hbegin] at hends hcount ⊢
  rcases hcases with ⟨rfl, hdepth, hsaves⟩ | ⟨e, rfl, hdepth, hsaves⟩
  · dsimp only at hends hcount ⊢
    obtain ⟨d, hd⟩ : ∃ d, s.depth = d + 1 := ⟨s.depth - 1, by have := hs.depth; omega⟩
    -- The body keeps the savepoint that was put down for it.
    have hkept : (body t).state.OnlyCommits → ∃ extra, (body t).state.depth = d + 2 ∧
        (body t).state.saves = extra ++ (d + 1, s.data) :: s.saves ∧
        ∀ p ∈ extra, d + 1 + 1 ≤ p.1 := fun hbodyEnds => by
      have hk := hbody t ht hbodyEnds
      obtain ⟨extra, hbodySaves, hextra⟩ := hk.saves
      refine ⟨extra, by rw [hk.depth, hdepth, hd], by rw [hbodySaves, hsaves, hd], fun p hp => ?_⟩
      have := hextra p hp
      omega
    have hrun : Counts h (changeOf (Except.ok ()) + 0) s (body t).state := hcount.trans (hcounts t)
    have hpos : h.backend = .sqlite → 1 ≤ (body t).state.depth := fun hb => by
      obtain ⟨new, -, -, hdep⟩ := hrun
      have hone : changeOf (Except.ok ()) = 1 := rfl
      have := hdep hb
      omega
    cases hres : (body t).result with
    | ok value =>
      rw [hres] at hends
      dsimp only at hends ⊢
      have hcommitCount := counts_commit hpos
      have hlast : ((body t).state.commit h).2.OnlyCommits := by
        rcases hr : (body t).state.commit h with ⟨_ | u, t'⟩ <;> rw [hr] at hends <;> exact hends
      have hbodyEnds := hcommitCount.onlyCommits hlast
      have hk := hbody t ht hbodyEnds
      obtain ⟨extra, hdep, hsav, hextra⟩ := hkept hbodyEnds
      obtain ⟨t', hcommit, hin', hdep', hdur', hdat', hsav'⟩ :=
        commit_inner hk.inTx hdep hsav hextra hlast
      rw [hcommit]
      refine ⟨hin', hdep'.trans hd.symm, hdur'.trans (hk.durable.trans hdurable), ?_,
        ⟨[], hsav', fun p hp => absurd hp not_mem_nil⟩, fun p hp => ?_⟩
      · show t'.data = applyAll (body t).writes s.data
        rw [hdat', hk.data, hdata]
      · exact hk.inner p (by simpa [innerErr] using hp)
    | error e =>
      rw [hres] at hends
      dsimp only at hends ⊢
      have hrollbackCount := counts_rollback hpos
      have hlast : ((body t).state.rollback h).2.OnlyCommits := by
        rcases hr : (body t).state.rollback h with ⟨_ | u, t'⟩ <;> rw [hr] at hends <;>
          exact hends
      have hbodyEnds := hrollbackCount.onlyCommits hlast
      have hk := hbody t ht hbodyEnds
      obtain ⟨extra, hdep, hsav, hextra⟩ := hkept hbodyEnds
      obtain ⟨t', hrollback, hin', hdep', hdur', hdat', hsav'⟩ :=
        rollback_inner hk.inTx hdep hsav hextra hlast
      rw [hrollback]
      refine ⟨hin', hdep'.trans hd.symm, hdur'.trans (hk.durable.trans hdurable), hdat',
        ⟨[(d + 1, s.data)], hsav', fun p hp => ?_⟩, fun p hp => ?_⟩
      · cases mem_singleton.mp hp
        exact Nat.le_of_eq hd
      · rcases mem_append.mp hp with hp | hp
        · exact hk.inner p hp
        · cases mem_singleton.mp hp
          exact hdat'
  · dsimp only
    refine ⟨ht, hdepth, hdurable, hdata, ⟨[], hsaves, fun p hp => absurd hp not_mem_nil⟩,
      fun p hp => ?_⟩
    cases mem_singleton.mp hp
    exact hdata

theorem kept_statement (hs : s.InTx h) (f : α → Except DbError (β × α)) :
    Kept h s { s with
        toTxSession := (s.toTxSession.execBody h.backend (h.fate s.tick) f).2
        tick := s.tick + 1 }
      (if (s.toTxSession.execBody h.backend (h.fate s.tick) f).1.isOk then [effectOf f] else []) [] := by
  obtain ⟨⟨durable, data, mode, aborted, saves⟩, depth, level, ruOn, tick, ends, lost⟩ := s
  obtain ⟨hbegun, hdepth, hsane⟩ := hs
  cases hbegun
  have hfailed : ∀ ab : Bool, (h.backend = .sqlite → ab = false) →
      Kept h ⟨⟨durable, data, .begun, aborted, saves⟩, depth, level, ruOn, tick, ends, lost⟩
        ⟨⟨durable, data, .begun, ab, saves⟩, depth, level, ruOn, tick + 1, ends, lost⟩ [] [] :=
    fun ab hab => ⟨⟨rfl, hdepth, hab⟩, rfl, rfl, rfl,
      ⟨[], rfl, fun p hp => absurd hp not_mem_nil⟩, fun p hp => absurd hp not_mem_nil⟩
  have hno : h.backend = .sqlite →
      decide (h.backend = .postgres ∧ TxMode.begun ≠ .closed) = false := fun hb => by
    rw [hb]
    rfl
  unfold execBody
  dsimp only
  cases h.fate tick with
  | fails e rb => exact hfailed _ hno
  | served =>
    dsimp only
    split
    · next hab => exact hfailed aborted hsane
    · cases hf : f data with
      | error e => exact hfailed _ hno
      | ok va =>
        refine ⟨⟨rfl, hdepth, hsane⟩, rfl, rfl, ?_,
          ⟨[], rfl, fun p hp => absurd hp not_mem_nil⟩,
          fun p hp => absurd hp not_mem_nil⟩
        show va.2 = effectOf f data
        unfold effectOf
        rw [hf]

theorem bodyKeeps_runBody (body : TxBody α β) : BodyKeeps h (runBody h body) := by
  induction body with
  | done result =>
    exact fun t ht _ => ⟨ht, rfl, rfl, rfl, ⟨[], rfl, fun p hp => absurd hp not_mem_nil⟩,
      fun p hp => absurd hp not_mem_nil⟩
  | statement f next ih =>
    intro t ht hends
    have hstep := kept_statement ht f
    have hrest := ih _ _ hstep.inTx hends
    have hall := hstep.trans hrest
    unfold runBody
    dsimp only
    split
    · next hok =>
      rw [if_pos hok] at hall
      exact hall
    · next hok =>
      rw [if_neg hok] at hall
      exact hall
  | nested level inner next ihInner ihNext =>
    intro t ht hends
    have hmid := (counts_runBody (h := h) (next (transaction h level (runBody h inner) t).result)
      (transaction h level (runBody h inner) t).state).onlyCommits hends
    have hinner := kept_transaction (counts_runBody inner) ihInner level ht hmid
    have hrest := ihNext _ _ hinner.inTx hends
    have hall := hinner.trans hrest
    rw [append_assoc] at hall
    exact hall

end

end Ridge
