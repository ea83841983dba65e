import Ridge.Migrate.Runner

/-!
# std.migrate — a run applies each pending migration once, whole or not at all

One call at a time: a step or a record inside the open transaction leaves the stack of snapshots
alone (`runSteps_spec`), so whatever fails, what is kept is the value the transaction began with
(`applyOne_spec`). Along the list, the run keeps the migrations it has been through applied in
order and stops where one fails (`runPending_spec`).
-/

namespace Ridge

open Snapshots List

section

variable {σ D : Type} {adapter : Adapter σ} {view : σ → Snapshots (Contents D)}
  {effect : Statement → D → D → Prop} {base : List (Contents D)}

/-! ## One migration -/

/-- A successful step has the effect of its statement and nothing else; a failed one leaves the
snapshots as they were. -/
theorem runStep_spec (law : adapter.Lawful view effect) (op : MigrationOp) (conn : σ)
    (hopen : (view conn).saved ≠ []) :
    (∃ conn', runStep adapter op conn = (.ok (), conn') ∧
      ∃ d, StepsEffect effect [op] (view conn).current.data d ∧
        view conn' = (view conn).set ⟨d, (view conn).current.ledger⟩) ∨
    (∃ e conn', runStep adapter op conn = (.error e, conn') ∧
      (view conn').saved = (view conn).saved) := by
  unfold runStep
  cases hop : op.statement with
  | none => exact .inl ⟨conn, rfl, _, .silent hop (.nil _), rfl⟩
  | some stmt =>
    cases hcall : adapter.statement stmt conn with
    | mk r conn' =>
      cases r with
      | ok n =>
        obtain ⟨d, heff, hview⟩ := law.statement_ok hopen hcall
        exact .inl ⟨conn', by simp only [hcall, resultUnit], d, .step hop heff (.nil _), hview⟩
      | error e =>
        exact .inr ⟨e, conn', by simp only [hcall, resultUnit], law.statement_error hopen hcall⟩

theorem StepsEffect.append {xs ys : List MigrationOp} {d d₁ d' : D}
    (hx : StepsEffect effect xs d d₁) (hy : StepsEffect effect ys d₁ d') :
    StepsEffect effect (xs ++ ys) d d' := by
  induction hx with
  | nil _ => exact hy
  | silent hop _ ih => exact .silent hop (ih hy)
  | step hop heff _ ih => exact .step hop heff (ih hy)

theorem runSteps_spec (law : adapter.Lawful view effect) (steps : List MigrationOp) (conn : σ)
    (hopen : (view conn).saved ≠ []) :
    (∃ conn', runSteps adapter steps conn = (.ok (), conn') ∧
      ∃ d, StepsEffect effect steps (view conn).current.data d ∧
        view conn' = (view conn).set ⟨d, (view conn).current.ledger⟩) ∨
    (∃ e conn', runSteps adapter steps conn = (.error e, conn') ∧
      (view conn').saved = (view conn).saved) := by
  induction steps generalizing conn with
  | nil => exact .inl ⟨conn, rfl, _, .nil _, rfl⟩
  | cons op rest ih =>
    unfold runSteps
    rcases runStep_spec law op conn hopen with
      ⟨conn₁, hstep, d₁, heff, hview⟩ | ⟨e, conn₁, hstep, hsaved⟩
    · have hopen₁ : (view conn₁).saved ≠ [] := by rw [hview]; exact hopen
      rw [hstep]
      rcases ih conn₁ hopen₁ with ⟨conn₂, hrest, d, heffs, hview₂⟩ | ⟨e, conn₂, hrest, hsaved⟩
      · refine .inl ⟨conn₂, hrest, d, ?_, ?_⟩
        · rw [hview] at heffs
          exact heff.append heffs
        · rw [hview₂, hview]
          rfl
      · refine .inr ⟨e, conn₂, hrest, ?_⟩
        rw [hsaved, hview]
        rfl
    · rw [hstep]
      exact .inr ⟨e, conn₁, rfl, hsaved⟩

variable {v : Contents D}

/-- Rolling back, or failing to, keeps what the transaction began with. -/
theorem abort_spec (law : adapter.Lawful view effect) (orig : DbError) (conn : σ)
    (hopen : (view conn).saved = v :: base) :
    ∃ e conn', abort adapter orig conn = (.error e, conn') ∧ Kept base v (view conn') := by
  unfold abort
  cases hcall : adapter.rollback conn with
  | mk r conn' =>
    cases r with
    | ok u =>
      refine ⟨orig, conn', rfl, ?_⟩
      rw [law.rollback_ok hopen hcall]
      exact Kept.closed base v
    | error e => exact ⟨e, conn', rfl, law.rollback_error hopen hcall⟩

/-- The transaction of one migration: steps, a mark in the tracking table, commit. -/
def transact (adapter : Adapter σ) (steps : List MigrationOp) (mark : σ → Reply σ Unit)
    (conn : σ) : Reply σ Unit :=
  match adapter.begin conn with
  | (.error e, conn') => (.error e, conn')
  | (.ok _, conn₁) =>
    match runSteps adapter steps conn₁ with
    | (.error e, conn₂) => abort adapter e conn₂
    | (.ok _, conn₂) =>
      match mark conn₂ with
      | (.error e, conn₃) => abort adapter e conn₃
      | (.ok _, conn₃) =>
        match adapter.commit conn₃ with
        | (.ok _, conn₄) => (.ok (), conn₄)
        | (.error e, conn₄) => (.error e, conn₄)

/-- The steps and the mark take effect together, or what was there before is what is kept. -/
theorem transact_spec (law : adapter.Lawful view effect) {mark : σ → Reply σ Unit}
    (f : List String → List String)
    (hok : ∀ {conn conn' u}, (view conn).saved ≠ [] → mark conn = (.ok u, conn') →
      view conn' = (view conn).set ⟨(view conn).current.data, f (view conn).current.ledger⟩)
    (herror : ∀ {conn conn' e}, (view conn).saved ≠ [] → mark conn = (.error e, conn') →
      (view conn').saved = (view conn).saved)
    (steps : List MigrationOp) (conn : σ) (hconn : view conn = ⟨v, base⟩) :
    (∃ conn' d, transact adapter steps mark conn = (.ok (), conn') ∧
      StepsEffect effect steps v.data d ∧ view conn' = ⟨⟨d, f v.ledger⟩, base⟩) ∨
    (∃ e conn', transact adapter steps mark conn = (.error e, conn') ∧
      Kept base v (view conn')) := by
  unfold transact
  cases hbegin : adapter.begin conn with
  | mk r conn₁ =>
  cases r with
  | error e =>
    refine .inr ⟨e, conn₁, rfl, ?_⟩
    rw [law.begin_error hbegin, hconn]
    exact Kept.closed base v
  | ok u =>
  have hview₁ : view conn₁ = ⟨v, v :: base⟩ := by rw [law.begin_ok hbegin, hconn]; rfl
  have hopen₁ : (view conn₁).saved ≠ [] := by rw [hview₁]; exact cons_ne_nil _ _
  rcases runSteps_spec law steps conn₁ hopen₁ with
    ⟨conn₂, hsteps, d, heff, hview₂⟩ | ⟨e, conn₂, hsteps, hsaved⟩
  case inr =>
    have hopen₂ : (view conn₂).saved = v :: base := by rw [hsaved, hview₁]
    simp only [hsteps]
    exact .inr (abort_spec law e conn₂ hopen₂)
  have hview₂' : view conn₂ = ⟨⟨d, v.ledger⟩, v :: base⟩ := by rw [hview₂, hview₁]; rfl
  have hopen₂ : (view conn₂).saved ≠ [] := by rw [hview₂']; exact cons_ne_nil _ _
  simp only [hsteps]
  cases hmark : mark conn₂ with
  | mk r conn₃ =>
  cases r with
  | error e =>
    have hopen₃ : (view conn₃).saved = v :: base := by rw [herror hopen₂ hmark, hview₂']
    exact .inr (abort_spec law e conn₃ hopen₃)
  | ok u =>
  have hview₃ : view conn₃ = ⟨⟨d, f v.ledger⟩, v :: base⟩ := by
    rw [hok hopen₂ hmark, hview₂']
    rfl
  have hopen₃ : (view conn₃).saved = v :: base := by rw [hview₃]
  simp only
  cases hcommit : adapter.commit conn₃ with
  | mk r conn₄ =>
  cases r with
  | error e => exact .inr ⟨e, conn₄, rfl, law.commit_error hopen₃ hcommit⟩
  | ok u =>
    refine .inl ⟨conn₄, d, rfl, ?_, ?_⟩
    · rw [hview₁] at heff
      exact heff
    · rw [law.commit_ok hopen₃ hcommit, hview₃]

/-- A migration is applied whole, or what was there before is what is kept. -/
theorem applyOne_spec (law : adapter.Lawful view effect) (m : Migration) (conn : σ)
    (hconn : view conn = ⟨v, base⟩) :
    (∃ conn' v', applyOne adapter m conn = (.ok (), conn') ∧ Applied effect m v v' ∧
      view conn' = ⟨v', base⟩) ∨
    (∃ e conn', applyOne adapter m conn = (.error e, conn') ∧ Kept base v (view conn')) := by
  have heq : applyOne adapter m conn =
      transact adapter m.steps (adapter.recordMigration m.name) conn := rfl
  rw [heq]
  refine (transact_spec law (· ++ [m.name]) law.record_ok law.record_error m.steps conn
    hconn).imp_left ?_
  rintro ⟨conn', d, hrun, heff, hview⟩
  exact ⟨conn', _, hrun, ⟨heff, rfl⟩, hview⟩

/-! ## The run -/

/-- What a run leaves, for the pending migrations it was through with (`done`) and those it was
not (`rest`): exactly the first are applied and recorded, in order, and nothing else is kept. -/
structure RunOutcome (effect : Statement → D → D → Prop) (migrations done rest : List Migration)
    (before after : Contents D) (base : List (Contents D)) (final : Snapshots (Contents D)) :
    Prop where
  split : pending migrations before.ledger = done ++ rest
  once : (done.map (·.name)).Nodup
  applied : AppliedInOrder effect done before after
  recorded : after.ledger = before.ledger ++ done.map (·.name)
  kept : Kept base after final

theorem alreadyApplied_eq_false {name : String} {applied : List String} (h : name ∉ applied) :
    alreadyApplied name applied = false := by
  rw [← Bool.not_eq_true, alreadyApplied_iff]
  exact h

/-- The run through a list: it goes through the pending ones in order and ends after the last or
at the first that fails, which is then the last thing it tried. -/
theorem runPending_spec (law : adapter.Lawful view effect) (migrations : List Migration)
    (applied : List String) (conn : σ) (hconn : view conn = ⟨v, base⟩) :
    ∃ done rest after, pending migrations applied = done ++ rest ∧
      AppliedInOrder effect done v after ∧
      ((∃ conn', runPending adapter migrations applied conn = (.ok (done.map (·.name)), conn') ∧
          rest = [] ∧ view conn' = ⟨after, base⟩) ∨
        ∃ m more conn₁ e conn', rest = m :: more ∧ view conn₁ = ⟨after, base⟩ ∧
          applyOne adapter m conn₁ = (.error e, conn') ∧
          runPending adapter migrations applied conn = (.error e, conn') ∧
          Kept base after (view conn')) := by
  induction migrations generalizing conn v with
  | nil => exact ⟨[], [], v, rfl, .nil v, .inl ⟨conn, rfl, rfl, hconn⟩⟩
  | cons m ms ih =>
    by_cases hm : m.name ∈ applied
    · rw [show pending (m :: ms) applied = pending ms applied by simp [pending, hm]]
      simp only [runPending, alreadyApplied_iff.mpr hm]
      exact ih conn hconn
    · rw [show pending (m :: ms) applied = m :: pending ms applied by simp [pending, hm]]
      simp only [runPending, alreadyApplied_eq_false hm]
      rcases applyOne_spec law m conn hconn with
        ⟨conn₁, v₁, hone, happ, hview₁⟩ | ⟨e, conn', hone, hkept⟩
      · obtain ⟨done, rest, after, hsplit, horder, hend⟩ := ih conn₁ hview₁
        refine ⟨m :: done, rest, after, by rw [hsplit]; rfl, .cons happ horder, ?_⟩
        simp only [hone]
        rcases hend with ⟨conn', hrun, hnil, hview'⟩ |
          ⟨m', more, conn₂, e, conn', hrest, hview₂, hfail, hrun, hkept⟩
        · exact .inl ⟨conn', by rw [hrun]; rfl, hnil, hview'⟩
        · exact .inr ⟨m', more, conn₂, e, conn', hrest, hview₂, hfail, by rw [hrun], hkept⟩
      · refine ⟨[], m :: pending ms applied, v, rfl, .nil v, .inr ?_⟩
        exact ⟨m, _, conn, e, conn', rfl, hconn, hone, by simp only [hone], hkept⟩

/-- With every name recorded there is nothing to apply. -/
theorem runPending_of_all_applied (migrations : List Migration) (applied : List String) (conn : σ)
    (h : ∀ m ∈ migrations, m.name ∈ applied) :
    runPending adapter migrations applied conn = (.ok [], conn) := by
  induction migrations with
  | nil => rfl
  | cons m ms ih =>
    simp only [runPending, alreadyApplied_iff.mpr (h m mem_cons_self)]
    exact ih fun m' hm' => h m' (mem_cons_of_mem _ hm')

/-- After a run that went through, every migration of the list is in the tracking table. -/
theorem RunOutcome.all_recorded {migrations done : List Migration} {before after : Contents D}
    {final : Snapshots (Contents D)}
    (h : RunOutcome effect migrations done [] before after base final) :
    ∀ m ∈ migrations, m.name ∈ after.ledger := by
  intro m hm
  rw [h.recorded, mem_append]
  by_cases hbefore : m.name ∈ before.ledger
  · exact .inl hbefore
  · have hpending : m ∈ pending migrations before.ledger := by
      simp [pending, hm, hbefore]
    rw [h.split, append_nil] at hpending
    exact .inr (mem_map_of_mem hpending)

end

section

variable {σ D : Type} {adapter : Adapter σ} {view : σ → Snapshots (Contents D)}
  {effect : Statement → D → D → Prop} {migrations : List Migration}
  {before after v c : Contents D}

/-- Runs of one list, each on a connection to what the runs before it kept, with their answers. -/
inductive Attempts (adapter : Adapter σ) (view : σ → Snapshots (Contents D))
    (migrations : List Migration) (before : Contents D) :
    List (Except DbError (List String)) → Contents D → Prop
  | nil : Attempts adapter view migrations before [] before
  | snoc {answers : List (Except DbError (List String))} {v after : Contents D} {conn : σ}
      (h : Attempts adapter view migrations before answers v) (hconn : view conn = ⟨v, []⟩)
      (hkept : Kept [] after (view (run adapter migrations conn).2)) :
      Attempts adapter view migrations before
        (answers ++ [(run adapter migrations conn).1]) after

theorem Snapshots.Kept.unique {s : Snapshots (Contents D)} (hv : Kept [] v s) (hc : Kept [] c s) :
    v = c := by
  obtain ⟨current, saved⟩ := s
  rcases hv with hv | hv <;> rcases hc with hc | hc <;> cases hv <;> cases hc <;> rfl

theorem AppliedInOrder.append {xs ys : List Migration} (hx : AppliedInOrder effect xs before v)
    (hy : AppliedInOrder effect ys v after) : AppliedInOrder effect (xs ++ ys) before after := by
  induction hx with
  | nil _ => exact hy
  | cons hm _ ih => exact .cons hm (ih hy)

/-- With a first part of the pending migrations recorded, the rest is what is pending. -/
theorem pending_rest {done rest : List Migration} {ledger : List String}
    (distinct : (migrations.map (·.name)).Nodup) (h : pending migrations ledger = done ++ rest) :
    pending migrations (ledger ++ done.map (·.name)) = rest := by
  have hnodup : ((done ++ rest).map (·.name)).Nodup := h ▸ distinct.sublist (filter_sublist.map _)
  rw [map_append, nodup_append] at hnodup
  have hsplit : pending migrations (ledger ++ done.map (·.name)) =
      (done ++ rest).filter fun m => m.name ∉ done.map (·.name) := by
    rw [← h, pending, pending, filter_filter]
    exact filter_congr fun m _ => by simp [not_or, Bool.and_comm]
  rw [hsplit, filter_append, filter_eq_nil_iff.mpr, filter_eq_self.mpr, nil_append]
  · exact fun m hm => decide_eq_true fun hmem => hnodup.2.2 _ hmem _ (mem_map_of_mem hm) rfl
  · exact fun m hm => by simpa using ⟨m, hm, rfl⟩

/-- Whatever ends a run, the first of the pending migrations are applied and nothing else is
kept. -/
theorem run_spec (law : adapter.Lawful view effect) (migrations : List Migration) {conn : σ}
    (hconn : view conn = ⟨v, []⟩) :
    ∃ done rest after, pending migrations v.ledger = done ++ rest ∧
      AppliedInOrder effect done v after ∧ Kept [] after (view (run adapter migrations conn).2) ∧
      ∀ names, (run adapter migrations conn).1 = .ok names → rest = [] := by
  cases hread : adapter.migrationsApplied conn with
  | mk r conn₀ =>
  cases r with
  | error e =>
    have hrun : run adapter migrations conn = (.error e, conn₀) := by simp only [run, hread]
    rw [hrun]
    refine ⟨[], _, v, rfl, .nil v, ?_, fun _ h => by cases h⟩
    exact .inl ((law.applied_error hread).trans hconn)
  | ok applied =>
    obtain ⟨rfl, hview₀⟩ := law.applied_ok hread
    have hrun : run adapter migrations conn = runPending adapter migrations
        (view conn).current.ledger conn₀ := by
      simp only [run, hread]
    obtain ⟨done, rest, after, hsplit, horder, hend⟩ :=
      runPending_spec law migrations (view conn).current.ledger conn₀ (hview₀.trans hconn)
    rw [hconn] at hsplit
    rw [hrun]
    refine ⟨done, rest, after, hsplit, horder, ?_⟩
    rcases hend with ⟨conn', hpend, hnil, hview⟩ | ⟨_, _, _, e, conn', -, -, -, hpend, hkept⟩
    · rw [hconn] at hpend
      rw [hconn, hpend]
      exact ⟨.inl hview, fun _ _ => hnil⟩
    · rw [hconn] at hpend
      rw [hconn, hpend]
      exact ⟨hkept, fun _ h => by cases h⟩

/-- However many runs of a list it takes, and whatever fails in any of them, what they keep is a
first part of the migrations that were pending before the first, each applied whole, once and in
order, and recorded. As soon as one of the runs succeeds, it is all of them. -/
theorem attempts_apply_once (law : adapter.Lawful view effect)
    (distinct : (migrations.map (·.name)).Nodup) {answers : List (Except DbError (List String))}
    (h : Attempts adapter view migrations before answers after) :
    ∃ done rest, pending migrations before.ledger = done ++ rest ∧
      AppliedInOrder effect done before after ∧
      after.ledger = before.ledger ++ done.map (·.name) ∧
      ((∃ names, .ok names ∈ answers) → rest = []) := by
  induction h with
  | nil => exact ⟨[], _, rfl, .nil _, by simp, by simp⟩
  | @snoc answers v after conn _ hconn hkept ih =>
    obtain ⟨done, rest, hsplit, happlied, hledger, hall⟩ := ih
    obtain ⟨done', rest', after', hsplit', horder, hkept', hend⟩ := run_spec law migrations hconn
    obtain rfl := hkept.unique hkept'
    have hrest : rest = done' ++ rest' := by rw [← hsplit', hledger, pending_rest distinct hsplit]
    refine ⟨done ++ done', rest', by rw [hsplit, hrest, append_assoc], happlied.append horder,
      (happlied.append horder).ledger_eq, ?_⟩
    rintro ⟨names, hmem⟩
    rcases mem_append.mp hmem with hmem | hmem
    · exact (append_eq_nil_iff.mp (hrest ▸ hall ⟨names, hmem⟩)).2
    · exact hend names (mem_singleton.mp hmem).symm

end

/-- A migration of raw SQL, tried once on the in-memory adapter. -/
theorem attempts_apply_once_in_memory :
    let migrations := [migration "0001_ext" [.runSql "VACUUM"]]
    ∃ done rest, migrations = done ++ rest ∧
      AppliedInOrder (MemStore.effect fun _ tables => .ok (0, tables)) done ⟨[], []⟩ ⟨[], []⟩ := by
  intro migrations
  obtain ⟨done, rest, hsplit, happlied, -⟩ := attempts_apply_once (MemStore.adapter_lawful _)
    (show (migrations.map (·.name)).Nodup by decide)
    (.snoc .nil (show MemStore.view ⟨[], [], []⟩ = _ from rfl) (.inl rfl))
  exact ⟨done, rest, hsplit, happlied⟩

end Ridge
