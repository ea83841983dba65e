import Ridge.Migrate.Diff

/-!
# std.migrate — what the steps of a diff do to a database

The database a diff is run on, at the level its steps speak about: which tables there are and, for
each column, the facets an alter can change, its foreign key and its non-unique index. `Db.step` is
the effect of a step; `Db.Admits` is when a database that enforces foreign keys takes it. A table
or a column that a foreign key points at must be there when the key is made and may not go while
the key stands. Index names are unique in the database. An index that is not there is dropped
without an error (`DROP INDEX IF EXISTS`), and dropping a column or a table takes its indexes
along.
-/

namespace Ridge

open List Option ColumnSchema

variable {db : Db}

/-! ## The database -/

structure DbColumn where
  ty : DbType
  nullable : Bool
  generation : Generation
  foreignKey : Option ForeignKey
  /-- The name of its non-unique index, when it has one. -/
  index : Option String

/-- A column as `ADD COLUMN` makes it: the index is a step of its own. -/
def ColumnSchema.added (c : ColumnSchema) : DbColumn :=
  ⟨c.ty, c.nullable, c.generation, c.foreignKey, none⟩

/-- A column as the create of its table makes it, index and all. -/
def ColumnSchema.created (table : String) (c : ColumnSchema) : DbColumn :=
  ⟨c.ty, c.nullable, c.generation, c.foreignKey,
    if c.indexed then some (indexName table c.column) else none⟩

theorem ColumnSchema.created_index {table name : String} {c : ColumnSchema} :
    (c.created table).index = some name ↔ c.indexed = true ∧ name = indexName table c.column := by
  show (if c.indexed then some (indexName table c.column) else none) = some name ↔ _
  split
  · next h => rw [some.injEq, eq_comm, and_iff_right h]
  · next h => simp [h]

@[ext] structure Db where
  table : String → Bool
  column : String → String → Option DbColumn

variable {db' : Db}

/-- Two databases are one when they have the same tables and the same columns. -/
theorem Db.ext_columns (htable : ∀ t, db.table t = db'.table t)
    (hcolumn : ∀ t n, db.column t n = db'.column t n) : db = db' :=
  Db.ext (funext htable) (funext fun t => funext fun n => hcolumn t n)

def Db.ofSnapshot (schemas : Snapshot) : Db where
  table t := containsTable t schemas
  column t n := (findTable t schemas).bind fun s => (findColumn n s.columns).map (·.created t)

def DbColumn.ReferencesTable (col : DbColumn) (t : String) : Prop :=
  ∃ fk, col.foreignKey = some fk ∧ fk.table = t

def DbColumn.References (col : DbColumn) (t n : String) : Prop :=
  ∃ fk, col.foreignKey = some fk ∧ fk.table = t ∧ fk.column = n

namespace Db

/-- Column `n` of table `t` has an index of this name. -/
def HasIndex (db : Db) (t n name : String) : Prop :=
  ∃ col, db.column t n = some col ∧ col.index = some name

def IndexFree (db : Db) (name : String) : Prop := ∀ t n, ¬ db.HasIndex t n name

/-! ## Steps -/

/-- The `ALTER COLUMN` actions, one for each facet that differs (`alterActions`). -/
def alterActions (old new : ColumnSchema) (col : DbColumn) : DbColumn :=
  { col with
    ty := if notSameDbType old.ty new.ty then new.ty else col.ty
    nullable := if old.nullable != new.nullable then new.nullable else col.nullable
    generation :=
      if isIdentity old.generation || isIdentity new.generation ||
          isComputed old.generation || isComputed new.generation then col.generation
      else if notSameDefault old.generation new.generation then new.generation
      else col.generation }

/-- When the database takes a step. Only the steps a diff can emit are described: the tuple DSL,
seeds, raw SQL and views are not among them. -/
def Admits (db : Db) : MigrationOp → Prop
  | .createEntity s =>
    db.table s.table = false ∧
    (∀ c ∈ s.columns, ∀ fk, c.foreignKey = some fk →
      (db.column fk.table fk.column).isSome ∨
        (fk.table = s.table ∧ ∃ c' ∈ s.columns, c'.column = fk.column)) ∧
    ∀ c ∈ s.columns, c.indexed → db.IndexFree (indexName s.table c.column)
  | .addEntityColumn t c =>
    db.table t ∧ db.column t c.column = none ∧
    ∀ fk, c.foreignKey = some fk →
      (db.column fk.table fk.column).isSome ∨ (fk.table = t ∧ fk.column = c.column)
  | .alterColumn t _ new => db.table t ∧ (db.column t new.column).isSome
  | .createIndex name t cols uniq =>
    uniq = false ∧ ∃ n col, cols = [n] ∧ db.column t n = some col ∧ col.index = none ∧
      db.IndexFree name
  | .dropIndex _ => True
  | .dropColumn t n =>
    (db.column t n).isSome ∧
    ∀ t' n' col, db.column t' n' = some col → (t', n') ≠ (t, n) → ¬ col.References t n
  | .dropTable t =>
    db.table t ∧ ∀ t' n col, db.column t' n = some col → t' ≠ t → ¬ col.ReferencesTable t
  | _ => False

def setTable (db : Db) (t : String) (cols : String → Option DbColumn) : Db :=
  { db with column := fun t' n => if t' = t then cols n else db.column t' n }

def setColumn (db : Db) (t n : String) (col : Option DbColumn) : Db :=
  db.setTable t fun n' => if n' = n then col else db.column t n'

def step (db : Db) : MigrationOp → Db
  | .createEntity s =>
    { table := fun t => if t = s.table then true else db.table t
      column := fun t n =>
        if t = s.table then (findColumn n s.columns).map (·.created s.table)
        else db.column t n }
  | .addEntityColumn t c => db.setColumn t c.column (some c.added)
  | .alterColumn t old new =>
    db.setColumn t new.column ((db.column t new.column).map (alterActions old new))
  | .createIndex name t cols _ =>
    db.setTable t fun n =>
      if cols = [n] then (db.column t n).map fun col => { col with index := some name }
      else db.column t n
  | .dropIndex name =>
    { db with
      column := fun t n => (db.column t n).map fun col =>
        if col.index = some name then { col with index := none } else col }
  | .dropColumn t n => db.setColumn t n none
  | .dropTable t =>
    { table := fun t' => if t' = t then false else db.table t'
      column := fun t' n => if t' = t then none else db.column t' n }
  | _ => db

/-- The database after the steps, whether or not it takes them. -/
def after (db : Db) (ops : List MigrationOp) : Db := ops.foldl step db

/-- The database takes every step, one after the other. -/
def Runs : Db → List MigrationOp → Prop
  | _, [] => True
  | db, op :: ops => db.Admits op ∧ (db.step op).Runs ops

section

variable (db : Db)

@[simp] theorem after_nil : db.after [] = db := rfl

@[simp] theorem after_cons (op : MigrationOp) (ops : List MigrationOp) :
    db.after (op :: ops) = (db.step op).after ops := rfl

theorem after_append (xs ys : List MigrationOp) :
    db.after (xs ++ ys) = (db.after xs).after ys := foldl_append

@[simp] theorem runs_nil : db.Runs [] := trivial

@[simp] theorem runs_cons (op : MigrationOp) (ops : List MigrationOp) :
    db.Runs (op :: ops) ↔ db.Admits op ∧ (db.step op).Runs ops := Iff.rfl

theorem runs_append (xs ys : List MigrationOp) :
    db.Runs (xs ++ ys) ↔ db.Runs xs ∧ (db.after xs).Runs ys := by
  induction xs generalizing db with
  | nil => simp
  | cons op xs ih => simp [ih, and_assoc]

/-- Steps emitted element by element run exactly when those of each element run where the elements
before it have been through. -/
theorem runs_flatMap {α : Type*} (f : α → List MigrationOp) (l : List α) :
    db.Runs (l.flatMap f) ↔
      ∀ pre x post, l = pre ++ x :: post → (db.after (pre.flatMap f)).Runs (f x) := by
  induction l generalizing db with
  | nil => simp
  | cons a l ih =>
    rw [flatMap_cons, runs_append, ih]
    constructor
    · rintro ⟨ha, hrest⟩ pre x post hsplit
      cases pre with
      | nil =>
        obtain ⟨rfl, -⟩ := cons.inj hsplit
        exact ha
      | cons b pre =>
        obtain ⟨rfl, hl⟩ := cons.inj hsplit
        rw [flatMap_cons, after_append]
        exact hrest pre x post hl
    · intro h
      refine ⟨h [] a l rfl, ?_⟩
      intro pre x post hsplit
      have := h (a :: pre) x post (by rw [hsplit]; rfl)
      rwa [flatMap_cons, after_append] at this

/-! ## One table at a time -/

variable (t : String)

variable (f : String → Option DbColumn)

@[simp] theorem setTable_table :
    (db.setTable t f).table = db.table := rfl

theorem setTable_column (t' n : String) :
    (db.setTable t f).column t' n = if t' = t then f n else db.column t' n := rfl

@[simp] theorem setTable_column_self (n : String) : (db.setTable t f).column t n = f n := by
  simp [setTable]

theorem setTable_column_of_ne {t t' : String} (h : t' ≠ t) (f : String → Option DbColumn)
    (n : String) : (db.setTable t f).column t' n = db.column t' n := by
  simp [setTable, h]

@[simp] theorem setTable_setTable (f g : String → Option DbColumn) :
    (db.setTable t f).setTable t g = db.setTable t g := by
  ext t' n
  · rfl
  · simp only [setTable]
    split <;> rfl

theorem setTable_self : db.setTable t (db.column t) = db := by
  ext t' n
  · rfl
  · simp only [setTable]
    split
    · next h => rw [h]
    · rfl

theorem setTable_setColumn (t n : String) (f : String → Option DbColumn) (col : Option DbColumn) :
    (db.setTable t f).setColumn t n col = db.setTable t (Function.update f n col) := by
  rw [setColumn, setTable_setTable]
  congr 1
  funext n'
  by_cases h : n' = n
  · rw [h, if_pos rfl, Function.update_self]
  · rw [if_neg h, Function.update_of_ne h, setTable_column_self]

end

/-! ## Index names stay unique -/

/-- No two columns have indexes of one name. -/
def UniqueIndexes (db : Db) : Prop :=
  ∀ ⦃t n t' n' name⦄, db.HasIndex t n name → db.HasIndex t' n' name → t = t' ∧ n = n'

theorem UniqueIndexes.mono (hdb : db.UniqueIndexes)
    (h : ∀ t n name, db'.HasIndex t n name → db.HasIndex t n name) : db'.UniqueIndexes :=
  fun _ _ _ _ _ h₁ h₂ => hdb (h _ _ _ h₁) (h _ _ _ h₂)

/-- A step that gives one table new indexes under free names keeps the names unique, when those
names are told apart by their columns. -/
theorem UniqueIndexes.extend (hdb : db.UniqueIndexes) (table : String)
    (fresh : String → String → Prop)
    (h : ∀ t n name, db'.HasIndex t n name → db.HasIndex t n name ∨ (t = table ∧ fresh n name))
    (hfree : ∀ n name, fresh n name → db.IndexFree name)
    (hinj : ∀ n n' name, fresh n name → fresh n' name → n = n') : db'.UniqueIndexes := by
  intro t n t' n' name h₁ h₂
  rcases h _ _ _ h₁ with hold₁ | ⟨rfl, hnew₁⟩ <;> rcases h _ _ _ h₂ with hold₂ | ⟨rfl, hnew₂⟩
  · exact hdb hold₁ hold₂
  · exact absurd hold₁ (hfree _ _ hnew₂ _ _)
  · exact absurd hold₂ (hfree _ _ hnew₁ _ _)
  · exact ⟨rfl, hinj _ _ _ hnew₁ hnew₂⟩

theorem hasIndex_setColumn_none {t n t' n' name : String}
    (h : (db.setColumn t n none).HasIndex t' n' name) : db.HasIndex t' n' name := by
  obtain ⟨col, hcol, hname⟩ := h
  simp only [setColumn, setTable_column] at hcol
  split at hcol
  · next ht =>
    subst ht
    split at hcol
    · cases hcol
    · exact ⟨col, hcol, hname⟩
  · exact ⟨col, hcol, hname⟩

theorem hasIndex_setColumn_some {t n t' n' name : String} {new : DbColumn}
    (h : (db.setColumn t n (some new)).HasIndex t' n' name) :
    db.HasIndex t' n' name ∨ (t' = t ∧ n' = n ∧ new.index = some name) := by
  obtain ⟨col, hcol, hname⟩ := h
  simp only [setColumn, setTable_column] at hcol
  split at hcol
  · next ht =>
    subst ht
    split at hcol
    · next hn =>
      cases hcol
      exact .inr ⟨rfl, hn, hname⟩
    · exact .inl ⟨col, hcol, hname⟩
  · exact .inl ⟨col, hcol, hname⟩

theorem step_uniqueIndexes (hdb : db.UniqueIndexes) {op : MigrationOp} (h : db.Admits op) :
    (db.step op).UniqueIndexes := by
  cases op with
  | createEntity s =>
    obtain ⟨-, -, hfree⟩ := h
    refine hdb.extend s.table
      (fun n name => ∃ c ∈ s.columns, c.indexed = true ∧ c.column = n ∧
        indexName s.table c.column = name) ?_ ?_ ?_
    · rintro t n name ⟨col, hcol, hname⟩
      simp only [step] at hcol
      split at hcol
      · next ht =>
        obtain ⟨c, hc, rfl⟩ := map_eq_some_iff.mp hcol
        obtain ⟨hmem, hn⟩ := findColumn_some hc
        refine .inr ⟨ht, c, hmem, ?_⟩
        obtain ⟨hidx, rfl⟩ := created_index.mp hname
        exact ⟨hidx, hn, rfl⟩
      · exact .inl ⟨col, hcol, hname⟩
    · rintro n name ⟨c, hc, hidx, -, rfl⟩
      exact hfree c hc hidx
    · rintro n n' name ⟨c, -, -, rfl, hname⟩ ⟨c', -, -, rfl, rfl⟩
      exact indexName_injective hname
  | addEntityColumn t c =>
    refine hdb.mono fun t' n name hidx => ?_
    rcases hasIndex_setColumn_some hidx with hold | ⟨-, -, hnew⟩
    · exact hold
    · simp [ColumnSchema.added] at hnew
  | alterColumn t old new =>
    refine hdb.mono fun t' n name hidx => ?_
    cases hcol : db.column t new.column with
    | none =>
      simp only [step, hcol, map_none] at hidx
      exact hasIndex_setColumn_none hidx
    | some col =>
      simp only [step, hcol, map_some] at hidx
      rcases hasIndex_setColumn_some hidx with hold | ⟨rfl, rfl, hnew⟩
      · exact hold
      · exact ⟨col, hcol, hnew⟩
  | createIndex name t cols uniq =>
    obtain ⟨-, n, col, rfl, hcol, hnone, hfree⟩ := h
    refine hdb.extend t (fun n' name' => n' = n ∧ name' = name) ?_ ?_ ?_
    · rintro t' n' name' ⟨col', hcol', hname'⟩
      simp only [step, setTable_column] at hcol'
      split at hcol'
      · next ht =>
        subst ht
        split at hcol'
        · next hn =>
          obtain ⟨rfl⟩ : n = n' := by simpa using hn
          rw [hcol] at hcol'
          cases hcol'
          exact .inr ⟨rfl, rfl, (some.inj hname').symm⟩
        · exact .inl ⟨col', hcol', hname'⟩
      · exact .inl ⟨col', hcol', hname'⟩
    · rintro n' name' ⟨-, rfl⟩
      exact hfree
    · rintro n₁ n₂ name' ⟨rfl, -⟩ ⟨rfl, -⟩
      rfl
  | dropIndex name =>
    refine hdb.mono fun t n name' hidx => ?_
    obtain ⟨col', hcol', hname'⟩ := hidx
    obtain ⟨col, hcol, rfl⟩ := map_eq_some_iff.mp hcol'
    refine ⟨col, hcol, ?_⟩
    split at hname'
    · cases hname'
    · exact hname'
  | dropColumn t n => exact hdb.mono fun _ _ _ hidx => hasIndex_setColumn_none hidx
  | dropTable t =>
    refine hdb.mono fun t' n name hidx => ?_
    obtain ⟨col, hcol, hname⟩ := hidx
    simp only [step] at hcol
    split at hcol
    · cases hcol
    · exact ⟨col, hcol, hname⟩
  | _ => exact absurd h id

theorem runs_uniqueIndexes (hdb : db.UniqueIndexes) {ops : List MigrationOp} (h : db.Runs ops) :
    (db.after ops).UniqueIndexes := by
  induction ops generalizing db with
  | nil => exact hdb
  | cons op ops ih => exact ih (step_uniqueIndexes hdb h.1) h.2

end Db

end Ridge
