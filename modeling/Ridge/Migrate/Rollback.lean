import Ridge.Migrate.Atomic
import Mathlib.Data.List.Nodup
import Mathlib.Logic.Relation

/-!
# std.migrate — rolling back

`rollback` and `revertTo` of `stdlib/migrate.ridge`: the newest migrations of the tracking table
are reversed one by one, each in a transaction of its own, by its explicit `down` or by the
inverse of its steps. Over any order of runs and rollbacks the tracking table is a stack: only
whole migrations are pushed, and only the newest is popped.
-/

namespace Ridge

open Snapshots List Relation

/-! ## The reverse of a migration -/

def irreversibleMessage (verb subject : String) : String :=
  "cannot auto-reverse " ++ verb ++ " on " ++ subject ++
    "; give the migration an explicit down with reversibleMigration"

def irreversible (verb subject : String) : Except DbError MigrationOp :=
  .error ⟨"migrate.irreversible", irreversibleMessage verb subject⟩

def MigrationOp.invert : MigrationOp → Except DbError MigrationOp
  | createTable table _ => .ok (.dropTable table)
  | addColumn table col => .ok (.dropColumn table col.name)
  | createIndex name _ _ _ => .ok (.dropIndex name)
  | createEntity s => .ok (.dropTable s.table)
  | addEntityColumn table col => .ok (.dropColumn table col.column)
  | alterColumn table old new => .ok (.alterColumn table new old)
  | seedRows table keyCols rows => .ok (.unseedRows table keyCols rows)
  | unseedRows table keyCols rows => .ok (.seedRows table keyCols rows)
  | dropTable table => irreversible "dropTable" table
  | dropColumn table col => irreversible "dropColumn" (table ++ "." ++ col)
  | dropIndex name => irreversible "dropIndex" name
  | runSql _ => irreversible "runSql" "a raw statement"
  | createView name _ => .ok (.dropView name)
  | dropView name => irreversible "dropView" name

/-- The inverses of the steps, the last first. -/
def invertReversed : List MigrationOp → List MigrationOp → Except DbError (List MigrationOp)
  | [], acc => .ok acc
  | s :: rest, acc => do invertReversed rest ((← s.invert) :: acc)

def downSteps (m : Migration) : Except DbError (List MigrationOp) :=
  match m.down with
  | some d => .ok d
  | none => invertReversed m.steps []

/-! ## The engine -/

/-- The adapter with the method that only a rollback calls. -/
structure RollbackAdapter (σ : Type) extends Adapter σ where
  unrecordMigration : String → σ → Reply σ Unit

def findMigration (migrations : List Migration) (name : String) : Option Migration :=
  migrations.find? (·.name = name)

def takeNames (names : List String) (n : Int) : List String := names.take n.toNat

def namesAfter (target : String) : List String → List String
  | [] => []
  | n :: rest => if n = target then rest else namesAfter target rest

section Engine

variable {σ : Type} (adapter : RollbackAdapter σ) (migrations : List Migration)

def rollbackOne (m : Migration) (conn : σ) : Reply σ Unit :=
  match downSteps m with
  | .error e => (.error e, conn)
  | .ok steps => transact adapter.toAdapter steps (adapter.unrecordMigration m.name) conn

def rollbackNames : List String → σ → Reply σ (List String)
  | [], conn => (.ok [], conn)
  | nm :: rest, conn =>
    match findMigration migrations nm with
    | none =>
      (.error ⟨"migrate.notfound", "cannot roll back \"" ++ nm ++
        "\": no migration with that name is in the list"⟩, conn)
    | some m =>
      match rollbackOne adapter m conn with
      | (.error e, conn') => (.error e, conn')
      | (.ok _, conn') =>
        match rollbackNames rest conn' with
        | (.error e, conn'') => (.error e, conn'')
        | (.ok more, conn'') => (.ok (nm :: more), conn'')

/-- Roll back the last `n` applied migrations. -/
def rollback (n : Int) (conn : σ) : Reply σ (List String) :=
  match adapter.migrationsApplied conn with
  | (.error e, conn') => (.error e, conn')
  | (.ok applied, conn') =>
    rollbackNames adapter migrations (takeNames applied.reverse n) conn'

/-- Roll back every migration applied after `target`. -/
def revertTo (target : String) (conn : σ) : Reply σ (List String) :=
  match adapter.migrationsApplied conn with
  | (.error e, conn') => (.error e, conn')
  | (.ok applied, conn') =>
    match alreadyApplied target applied with
    | true => rollbackNames adapter migrations (namesAfter target applied).reverse conn'
    | false =>
      (.error ⟨"migrate.notapplied", "cannot revert to \"" ++ target ++ "\": it is not applied"⟩,
        conn')

end Engine

theorem namesAfter_split {target : String} {l : List String} (h : target ∈ l) :
    ∃ older, l = older ++ target :: namesAfter target l := by
  induction l with
  | nil => cases h
  | cons n rest ih =>
    by_cases hn : n = target
    · exact ⟨[], by rw [namesAfter, if_pos hn, hn]; rfl⟩
    · obtain ⟨older, heq⟩ := ih ((mem_cons.mp h).resolve_left (Ne.symm hn))
      refine ⟨n :: older, ?_⟩
      rw [namesAfter, if_neg hn, cons_append, ← heq]

/-! ## What a rollback keeps -/

section

variable {σ D : Type} {adapter : RollbackAdapter σ} {view : σ → Snapshots (Contents D)}
  {effect : Statement → D → D → Prop} {migrations : List Migration} {base : List (Contents D)}
  {before after v : Contents D}

/-- The contract of the adapter, with the method of the rollback. -/
structure RollbackAdapter.Lawful (adapter : RollbackAdapter σ) (view : σ → Snapshots (Contents D))
    (effect : Statement → D → D → Prop) : Prop extends adapter.toAdapter.Lawful view effect where
  unrecord_ok : ∀ {name conn conn' u}, (view conn).saved ≠ [] →
    adapter.unrecordMigration name conn = (.ok u, conn') →
    view conn' = (view conn).set
      ⟨(view conn).current.data, (view conn).current.ledger.filter (· ≠ name)⟩
  unrecord_error : ∀ {name conn conn' e}, (view conn).saved ≠ [] →
    adapter.unrecordMigration name conn = (.error e, conn') →
    (view conn').saved = (view conn).saved

/-- A migration applied whole and recorded last, or the last one recorded reversed whole. -/
def Move (effect : Statement → D → D → Prop) (c c' : Contents D) : Prop :=
  (∃ m, m.name ∉ c.ledger ∧ Applied effect m c c') ∨
    ∃ m steps, downSteps m = .ok steps ∧ StepsEffect effect steps c.data c'.data ∧
      c.ledger = c'.ledger ++ [m.name]

theorem nodup_of_moves (h : ReflTransGen (Move effect) before after)
    (hnodup : before.ledger.Nodup) : after.ledger.Nodup := by
  induction h with
  | refl => exact hnodup
  | tail _ hmove ih =>
    rcases hmove with ⟨m, hnew, -, hledger⟩ | ⟨m, steps, -, -, hledger⟩
    · rw [hledger, ← concat_eq_append]
      exact ih.concat hnew
    · rw [hledger] at ih
      exact ih.of_append_left

theorem moves_of_applied {done : List Migration} (h : AppliedInOrder effect done before after)
    (hnew : ∀ m ∈ done, m.name ∉ before.ledger) (hnodup : (done.map (·.name)).Nodup) :
    ReflTransGen (Move effect) before after := by
  induction h with
  | nil _ => exact .refl
  | cons hm _ ih =>
    rw [map_cons, nodup_cons] at hnodup
    refine .head (.inl ⟨_, hnew _ mem_cons_self, hm⟩) (ih (fun m' hm' hmem => ?_) hnodup.2)
    rw [hm.2, mem_append, mem_singleton] at hmem
    rcases hmem with hmem | heq
    · exact hnew m' (mem_cons_of_mem _ hm') hmem
    · exact hnodup.1 (heq ▸ mem_map_of_mem hm')

/-- The newest migrations are reversed one by one up to the first whose reversal fails. -/
theorem rollbackNames_spec (law : adapter.Lawful view effect) (migrations : List Migration)
    (names : List String) (conn : σ) (hconn : view conn = ⟨v, base⟩) (hnodup : v.ledger.Nodup)
    (hnames : names <+: v.ledger.reverse) :
    ∃ done after, v.ledger = after.ledger ++ done.reverse ∧ ReflTransGen (Move effect) v after ∧
      ((∃ conn', rollbackNames adapter migrations names conn = (.ok done, conn') ∧ done = names ∧
          view conn' = ⟨after, base⟩) ∨
        ∃ e conn', rollbackNames adapter migrations names conn = (.error e, conn') ∧
          Kept base after (view conn')) := by
  induction names generalizing conn v with
  | nil => exact ⟨[], v, by simp, .refl, .inl ⟨conn, rfl, rfl, hconn⟩⟩
  | cons nm names ih =>
    cases hfind : findMigration migrations nm with
    | none =>
      refine ⟨[], v, by simp, .refl, .inr ⟨_, conn, by rw [rollbackNames, hfind], .inl hconn⟩⟩
    | some m =>
    cases hdown : downSteps m with
    | error e =>
      refine ⟨[], v, by simp, .refl, .inr ⟨e, conn, ?_, .inl hconn⟩⟩
      simp only [rollbackNames, hfind, rollbackOne, hdown]
    | ok steps =>
    have hone : rollbackOne adapter m conn =
        transact adapter.toAdapter steps (adapter.unrecordMigration m.name) conn := by
      rw [rollbackOne, hdown]
    rcases transact_spec law.toLawful (filter (· ≠ m.name)) law.unrecord_ok law.unrecord_error steps
      conn hconn with ⟨conn₁, d, hrun, heff, hview₁⟩ | ⟨e, conn', hrun, hkept⟩
    · obtain rfl : m.name = nm := by simpa using find?_some hfind
      obtain ⟨older, hprefix⟩ := hnames
      have hledger : v.ledger = (names ++ older).reverse ++ [m.name] := by
        rw [← reverse_cons, ← cons_append, hprefix, reverse_reverse]
      have hpop : v.ledger.filter (· ≠ m.name) = (names ++ older).reverse := by
        rw [hledger] at hnodup ⊢
        rw [filter_append, filter_eq_self.mpr, filter_eq_nil_iff.mpr, append_nil]
        · simp
        · exact fun n hn => decide_eq_true fun heq =>
            disjoint_of_nodup_append hnodup hn (mem_singleton.mpr heq)
      rw [hpop] at hview₁
      obtain ⟨done, after, hpopped, hmoves, hend⟩ := ih conn₁ hview₁
        (by rw [hledger] at hnodup; exact hnodup.of_append_left)
        (by rw [reverse_reverse]; exact prefix_append names older)
      refine ⟨m.name :: done, after, ?_, .head (.inr ⟨m, steps, hdown, heff, hledger⟩) hmoves, ?_⟩
      · rw [hledger, reverse_cons, ← append_assoc]
        exact congrArg (· ++ _) hpopped
      simp only [rollbackNames, hfind, hone, hrun]
      rcases hend with ⟨conn', hrest, rfl, hend⟩ | ⟨e, conn', hrest, hend⟩
      · exact .inl ⟨conn', by rw [hrest], rfl, hend⟩
      · exact .inr ⟨e, conn', by rw [hrest], hend⟩
    · refine ⟨[], v, by simp, .refl, .inr ⟨e, conn', ?_, hkept⟩⟩
      simp only [rollbackNames, hfind, hone, hrun]

/-- What a rollback leaves: of the newest migrations, some first ones are reversed, and no trace
of another is kept. If it answers names, these are the ones, and they are as many as `Enough`. -/
def Pops (effect : Statement → D → D → Prop) (view : σ → Snapshots (Contents D))
    (Enough : List String → List String → Prop) (conn : σ) (reply : Reply σ (List String)) : Prop :=
  ∃ done after, (view conn).current.ledger = after.ledger ++ done.reverse ∧
    ReflTransGen (Move effect) (view conn).current after ∧
    Kept (view conn).saved after (view reply.2) ∧
    ∀ names, reply.1 = .ok names →
      names = done ∧ Enough after.ledger done ∧ view reply.2 = ⟨after, (view conn).saved⟩

theorem pops_of_error {Enough : List String → List String → Prop} {conn conn' : σ} (e : DbError)
    (h : view conn' = view conn) : Pops effect view Enough conn (.error e, conn') :=
  ⟨[], (view conn).current, by simp, .refl, .inl h, fun _ h => by cases h⟩

theorem pops_rollbackNames (law : adapter.Lawful view effect) {names : List String} {conn conn' : σ}
    {Enough : List String → List String → Prop} (hview : view conn' = view conn)
    (hnodup : (view conn).current.ledger.Nodup)
    (hnames : names <+: (view conn).current.ledger.reverse)
    (h : ∀ kept, (view conn).current.ledger = kept ++ names.reverse → Enough kept names) :
    Pops effect view Enough conn (rollbackNames adapter migrations names conn') := by
  obtain ⟨done, after, hpopped, hmoves, hend⟩ :=
    rollbackNames_spec law migrations names conn' hview hnodup hnames
  refine ⟨done, after, hpopped, hmoves, ?_⟩
  rcases hend with ⟨conn₁, hrun, rfl, hview₁⟩ | ⟨e, conn₁, hrun, hkept⟩
  · rw [hrun]
    exact ⟨.inl hview₁, fun _ heq => ⟨(Except.ok.inj heq).symm, h _ hpopped, hview₁⟩⟩
  · rw [hrun]
    exact ⟨hkept, fun _ heq => by cases heq⟩

/-- Both verbs reverse the newest migrations, newest first, each whole or not at all. One that goes
through has reversed the last `n`, or every one after its target. -/
theorem rollback_newest_first (law : adapter.Lawful view effect) (migrations : List Migration)
    (conn : σ) (hnodup : (view conn).current.ledger.Nodup) :
    (∀ n, Pops effect view (fun _ done => done = (view conn).current.ledger.reverse.take n.toNat)
      conn (rollback adapter migrations n conn)) ∧
    ∀ target, Pops effect view (fun kept _ => kept.getLast? = some target) conn
      (revertTo adapter migrations target conn) := by
  unfold rollback revertTo
  cases hread : adapter.migrationsApplied conn with
  | mk r conn' =>
  cases r with
  | error e =>
    have hview := law.applied_error hread
    exact ⟨fun _ => pops_of_error e hview, fun _ => pops_of_error e hview⟩
  | ok applied =>
  obtain ⟨rfl, hview⟩ := law.applied_ok hread
  refine ⟨fun n => pops_rollbackNames law hview hnodup ⟨_, take_append_drop _ _⟩ fun _ _ => rfl,
    fun target => ?_⟩
  dsimp only
  cases htarget : alreadyApplied target (view conn).current.ledger with
  | false => exact pops_of_error _ hview
  | true =>
    obtain ⟨older, hsplit⟩ := namesAfter_split (alreadyApplied_iff.mp htarget)
    refine pops_rollbackNames law hview hnodup ?_ fun kept hkept => ?_
    · exact reverse_prefix.mpr ⟨older ++ [target], by rw [append_assoc]; exact hsplit.symm⟩
    · rw [reverse_reverse] at hkept
      have heq := hkept.symm.trans hsplit
      rw [append_cons, append_left_inj] at heq
      rw [heq, getLast?_concat]

inductive Verb (adapter : RollbackAdapter σ) : (σ → Reply σ (List String)) → Prop
  | run (migrations : List Migration) (distinct : (migrations.map (·.name)).Nodup) :
      Verb adapter (run adapter.toAdapter migrations)
  | rollback (migrations : List Migration) (n : Int) : Verb adapter (rollback adapter migrations n)
  | revertTo (migrations : List Migration) (target : String) :
      Verb adapter (revertTo adapter migrations target)

/-- Runs, rollbacks and reverts in any order, each on a connection to what was kept. -/
inductive Evolution (adapter : RollbackAdapter σ) (view : σ → Snapshots (Contents D))
    (before : Contents D) : Contents D → Prop
  | nil : Evolution adapter view before before
  | snoc {v after : Contents D} {conn : σ} {call : σ → Reply σ (List String)}
      (h : Evolution adapter view before v) (hverb : Verb adapter call) (hconn : view conn = ⟨v, []⟩)
      (hkept : Kept [] after (view (call conn).2)) : Evolution adapter view before after

theorem moves_of_pops {Enough : List String → List String → Prop} {conn : σ}
    {reply : Reply σ (List String)} (h : Pops effect view Enough conn reply)
    (hconn : view conn = ⟨v, []⟩) (hkept : Kept [] after (view reply.2)) :
    ReflTransGen (Move effect) v after := by
  obtain ⟨done, after', -, hmoves, hkept', -⟩ := h
  rw [hconn] at hmoves hkept'
  exact hkept.unique hkept' ▸ hmoves

theorem moves_of_verb (law : adapter.Lawful view effect) {call : σ → Reply σ (List String)}
    (hverb : Verb adapter call) {conn : σ} (hconn : view conn = ⟨v, []⟩) (hnodup : v.ledger.Nodup)
    (hkept : Kept [] after (view (call conn).2)) : ReflTransGen (Move effect) v after := by
  have hledger : (view conn).current.ledger.Nodup := by rwa [hconn]
  cases hverb with
  | run migrations distinct =>
    obtain ⟨done, rest, after', hsplit, horder, hkept', -⟩ := run_spec law.toLawful migrations hconn
    obtain rfl := hkept.unique hkept'
    have hdone : done.Sublist (pending migrations v.ledger) := hsplit ▸ sublist_append_left _ _
    refine moves_of_applied horder (fun m hm => ?_)
      (distinct.sublist ((hdone.trans filter_sublist).map _))
    exact of_decide_eq_true (mem_filter.mp (hdone.subset hm)).2
  | rollback migrations n =>
    exact moves_of_pops ((rollback_newest_first law migrations conn hledger).1 n) hconn hkept
  | revertTo migrations target =>
    exact moves_of_pops ((rollback_newest_first law migrations conn hledger).2 target) hconn hkept

/-- Whatever fails in them, runs and rollbacks in any order use the tracking table as a stack: only
whole migrations are applied, only the last one recorded is reversed, and none is there twice. -/
theorem evolution_is_a_stack (law : adapter.Lawful view effect) (hnodup : before.ledger.Nodup)
    (h : Evolution adapter view before after) :
    ReflTransGen (Move effect) before after ∧ after.ledger.Nodup := by
  induction h with
  | nil => exact ⟨.refl, hnodup⟩
  | snoc _ hverb hconn hkept ih =>
    have hmoves := ih.1.trans (moves_of_verb law hverb hconn ih.2 hkept)
    exact ⟨hmoves, nodup_of_moves hmoves hnodup⟩

end

/-! ## The in-memory adapter -/

namespace MemStore

variable (interp : MutationPlan → Tables → Except DbError (Int × Tables))

def rollbackAdapter : RollbackAdapter MemStore where
  toAdapter := adapter interp
  unrecordMigration name s := (.ok (), { s with ledger := s.ledger.filter (· ≠ name) })

theorem rollbackAdapter_lawful : (rollbackAdapter interp).Lawful view (effect interp) where
  toLawful := adapter_lawful interp
  unrecord_ok _ h := by cases h; rfl
  unrecord_error _ h := by cases h

end MemStore

/-- Of two migrations asked back the older dropped a table, which has no inverse: the newer one is
reversed and struck out, and the rollback ends in an error. -/
theorem rollback_newest_first_in_memory :
    let adapter := MemStore.rollbackAdapter fun _ tables => .ok (0, tables)
    let migrations := [migration "0001_drafts" [.dropTable "drafts"],
      migration "0002_posts" [.createTable "posts" [intCol "id"]]]
    let store : MemStore := ⟨[("posts", [])], ["0001_drafts", "0002_posts"], []⟩
    (rollback adapter migrations 2 store).2 = ⟨[], ["0001_drafts"], []⟩ ∧
      Pops (MemStore.effect fun _ tables => .ok (0, tables)) MemStore.view
        (fun _ done => done = ["0002_posts", "0001_drafts"]) store
        (rollback adapter migrations 2 store) := by
  intro adapter migrations store
  exact ⟨rfl, (rollback_newest_first (MemStore.rollbackAdapter_lawful _) migrations store
    (show store.ledger.Nodup by decide)).1 2⟩

/-- A run of one migration and the rollback of it. -/
theorem evolution_is_a_stack_in_memory :
    let effect := MemStore.effect fun _ tables => .ok (0, tables)
    ReflTransGen (Move effect) ⟨[], []⟩ ⟨[], []⟩ := by
  intro effect
  let adapter := MemStore.rollbackAdapter fun _ tables => .ok (0, tables)
  let migrations := [migration "0001_posts" [.createTable "posts" [intCol "id"]]]
  have hrun : Evolution adapter MemStore.view ⟨[], []⟩ ⟨[("posts", [])], ["0001_posts"]⟩ :=
    .snoc .nil (.run migrations (by decide)) (show MemStore.view ⟨[], [], []⟩ = _ from rfl) (.inl rfl)
  exact (evolution_is_a_stack (MemStore.rollbackAdapter_lawful _) nodup_nil
    (.snoc hrun (.rollback migrations 1)
      (show MemStore.view ⟨[("posts", [])], ["0001_posts"], []⟩ = _ from rfl) (.inl rfl))).1

end Ridge
