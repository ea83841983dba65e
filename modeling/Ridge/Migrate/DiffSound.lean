import Ridge.Migrate.DiffStages

/-!
# std.migrate — when a diff runs and arrives

`DiffSafe` is read off the two snapshots: at each place of the diff, what the step there needs of
the tables as they stand by then. A diff runs and arrives exactly when it holds
(`diffSchemas_runs_and_arrives_iff`). It does not always: the drops come in the order of the old
snapshot, so a table goes before a dropped table that references it (`dropped_parent_first`).
-/

namespace Ridge

open Db List

variable {t : String}

section

variable {prev next : Snapshot}

/-! ## The creates -/

/-- Every foreign key of a created table points at a column of a created table or at a column of
the old snapshot. -/
def CreatesResolve (prev next : Snapshot) : Prop :=
  ∀ s ∈ next, s.table ∉ prev.map (·.table) → ∀ c ∈ s.columns, ∀ fk, c.foreignKey = some fk →
    ((standing prev next []).column fk.table fk.column).isSome

/-- No other table, created or of the old snapshot, has an index of the name of a created one. -/
def CreateNamesFree (prev next : Snapshot) : Prop :=
  ∀ s ∈ next, s.table ∉ prev.map (·.table) → ∀ c ∈ s.columns, c.indexed = true →
    ∀ t n, (standing prev next []).HasIndex t n (indexName s.table c.column) → t = s.table

theorem ofSnapshot_column (S : Snapshot) (t n : String) :
    (ofSnapshot S).column t n = (findTable t S).bind fun s => createdColumns t s.columns n := rfl

variable {S L : Snapshot}

/-- A table of a part of the snapshot reads the same in the whole. -/
theorem ofSnapshot_column_append (h : t ∈ S.map (·.table)) (n : String) :
    (ofSnapshot (S ++ L)).column t n = (ofSnapshot S).column t n := by
  have hsome : findTable t S ≠ none := fun hnone => findTable_eq_none_iff.mp hnone h
  obtain ⟨s, hs⟩ := Option.ne_none_iff_exists'.mp hsome
  simp only [ofSnapshot_column, findTable_append, hs, Option.some_or]

variable {n : String}

theorem ofSnapshot_column_isSome {S : Snapshot} (h : ((ofSnapshot S).column t n).isSome) :
    t ∈ S.map (·.table) := by
  by_contra hout
  rw [ofSnapshot_column, findTable_eq_none_iff.mpr hout] at h
  cases h

variable {c : ColumnSchema}

theorem createdColumns_of_mem {cols : List ColumnSchema} (h : (cols.map (·.column)).Nodup)
    (hc : c ∈ cols) : createdColumns t cols c.column = some (c.created t) := by
  rw [createdColumns, findColumn_of_mem h hc]
  rfl

/-- The index of a created column, once its table is made. -/
theorem ofSnapshot_hasIndex (hdisj : ∀ s ∈ L, s.table ∉ S.map (·.table))
    (hL : (L.map (·.table)).Nodup) {s : EntitySchema} (hs : s ∈ L)
    (hcols : (s.columns.map (·.column)).Nodup) (hc : c ∈ s.columns) (hidx : c.indexed = true) :
    (ofSnapshot (S ++ L)).HasIndex s.table c.column (indexName s.table c.column) := by
  refine ⟨c.created s.table, ?_, by simp [ColumnSchema.created, hidx]⟩
  rw [ofSnapshot_column, findTable_append, findTable_eq_none_iff.mpr (hdisj s hs), Option.none_or,
    findTable_of_mem hL hs]
  exact createdColumns_of_mem hcols hc

theorem runs_createdTables_iff (hnext : WellFormed next)
    (hacyclic : Acyclic (InSetReference next)) :
    (ofSnapshot prev).Runs (createdTables prev next) ↔
      CreatesResolve prev next ∧ CreateNamesFree prev next := by
  generalize hL : orderByForeignKey (newSchemas prev next) = L
  have hmem (s : EntitySchema) : s ∈ L ↔ s ∈ next ∧ s.table ∉ prev.map (·.table) := by
    rw [← hL]
    exact mem_created hnext
  have hnodup : (L.map (·.table)).Nodup := hL ▸ created_nodup hnext
  have hfresh (s : EntitySchema) (hs : s ∈ L) : s.table ∉ prev.map (·.table) := ((hmem s).mp hs).2
  have hcols (s : EntitySchema) (hs : s ∈ L) : (s.columns.map (·.column)).Nodup :=
    hnext.columns s ((hmem s).mp hs).1
  have hstanding : standing prev next [] = ofSnapshot (prev ++ L) := by
    rw [← hL, standing_nil hnext]
  -- a created table comes after the created tables it references
  have hordered {pre post : Snapshot} {s : EntitySchema} (hsplit : L = pre ++ s :: post)
      {c : ColumnSchema} (hc : c ∈ s.columns) {fk : ForeignKey} (hfk : c.foreignKey = some fk)
      (hin : fk.table ∈ L.map (·.table)) : fk.table = s.table ∨ fk.table ∈ pre.map (·.table) := by
    have hsub : ∀ t t', InSetReference (newSchemas prev next) t t' → InSetReference next t t' := by
      rintro t t' ⟨hne, ht', s', hs', href⟩
      obtain ⟨s'', hs'', rfl⟩ := mem_map.mp ht'
      exact ⟨hne, mem_map_of_mem (mem_newSchemas.mp hs'').1, s', (mem_newSchemas.mp hs').1,
        href⟩
    have hnodup' : ((newSchemas prev next).map (·.table)).Nodup :=
      ((created_perm hnext).map _).nodup_iff.mp (hL ▸ hnodup)
    refine orderByForeignKey_ordered hnodup' (hacyclic.mono hsub) (hL.trans hsplit) hc hfk ?_
    rw [← ((created_perm hnext).map _).mem_iff, hL]
    exact hin
  have hstate {pre post : Snapshot} {s : EntitySchema} (hsplit : L = pre ++ s :: post) :
      (ofSnapshot prev).after (pre.flatMap fun s => [.createEntity s]) =
        ofSnapshot (prev ++ pre) := by
    rw [← createEntities_eq]
    apply after_createEntities
    · rw [hsplit, map_append] at hnodup
      exact (nodup_append.mp hnodup).1
    · exact fun s' hs' => hfresh s' (by rw [hsplit]; exact mem_append_left _ hs')
  rw [createdTables, hL, createEntities_eq, runs_flatMap, CreatesResolve, CreateNamesFree,
    hstanding]
  constructor
  · intro h
    have hadmits {pre post : Snapshot} {s : EntitySchema} (hsplit : L = pre ++ s :: post) :
        (ofSnapshot (prev ++ pre)).Admits (.createEntity s) := by
      have hruns := h pre s post hsplit
      rw [hstate hsplit] at hruns
      exact hruns.1
    refine ⟨?_, ?_⟩
    · intro s hs hnew c hc fk hfk
      obtain ⟨pre, post, hsplit⟩ := append_of_mem ((hmem s).mpr ⟨hs, hnew⟩)
      obtain ⟨-, hrefs, -⟩ := hadmits hsplit
      rcases hrefs c hc fk hfk with hsome | ⟨ht, c', hc', hcol⟩
      · have hin := ofSnapshot_column_isSome hsome
        rw [hsplit, ← append_assoc, ofSnapshot_column_append hin]
        exact hsome
      · have hsL : s ∈ L := (hmem s).mpr ⟨hs, hnew⟩
        rw [ofSnapshot_column, findTable_append, ht, findTable_eq_none_iff.mpr hnew,
          Option.none_or, findTable_of_mem hnodup hsL, ← hcol, Option.bind_some,
          createdColumns_of_mem (hcols s hsL) hc']
        rfl
    · intro s hs hnew c hc hidx t n hhas
      have hsL : s ∈ L := (hmem s).mpr ⟨hs, hnew⟩
      by_contra hne
      obtain ⟨pre, post, hsplit⟩ := append_of_mem hsL
      obtain ⟨-, -, hfree⟩ := hadmits hsplit
      by_cases hin : t ∈ (prev ++ pre).map (·.table)
      · refine hfree c hc hidx t n ?_
        obtain ⟨col, hcol, hname⟩ := hhas
        rw [hsplit, ← append_assoc, ofSnapshot_column_append hin] at hcol
        exact ⟨col, hcol, hname⟩
      · -- the other table comes later, and finds this name taken
        obtain ⟨col, hcol, hname⟩ := hhas
        rw [ofSnapshot_column] at hcol
        obtain ⟨s', hs', hcol⟩ := Option.bind_eq_some_iff.mp hcol
        obtain ⟨hs'mem, rfl⟩ := findTable_some hs'
        obtain ⟨c', hc', rfl⟩ := Option.map_eq_some_iff.mp hcol
        obtain ⟨hc'mem, rfl⟩ := findColumn_some hc'
        have hs'L : s' ∈ post := by
          rw [map_append, mem_append, not_or] at hin
          rcases mem_append.mp hs'mem with hmem' | hmem'
          · exact absurd (mem_map_of_mem hmem') hin.1
          · rw [hsplit, mem_append, mem_cons] at hmem'
            rcases hmem' with hmem' | rfl | hmem'
            · exact absurd (mem_map_of_mem hmem') hin.2
            · exact absurd rfl hne
            · exact hmem'
        obtain ⟨pre', post', hsplit'⟩ := append_of_mem hs'L
        have hsplit'' : L = (pre ++ s :: pre') ++ s' :: post' := by simp [hsplit, hsplit']
        obtain ⟨-, -, hfree'⟩ := hadmits hsplit''
        have hown : (ofSnapshot (prev ++ (pre ++ s :: pre'))).HasIndex s.table c.column
            (indexName s.table c.column) := by
          refine ofSnapshot_hasIndex ?_ ?_ (by simp) (hcols s hsL) hc hidx
          · exact fun s₀ hs₀ => hfresh s₀ (by rw [hsplit'']; exact mem_append_left _ hs₀)
          · rw [hsplit'', map_append] at hnodup
            exact (nodup_append.mp hnodup).1
        obtain ⟨hidx', hname⟩ := ColumnSchema.created_index.mp hname
        rw [hname] at hown
        exact hfree' c' hc'mem hidx' _ _ hown
  · rintro ⟨hresolve, hnames⟩ pre s post hsplit
    have hsL : s ∈ L := by simp [hsplit]
    obtain ⟨hs, hnew⟩ := (hmem s).mp hsL
    have hspre := (key_notMem_of_split hnodup hsplit).1
    have hout : s.table ∉ (prev ++ pre).map (·.table) := by
      rw [map_append, mem_append, not_or]
      exact ⟨hnew, hspre⟩
    rw [hstate hsplit]
    refine ⟨⟨?_, ?_, ?_⟩, runs_nil _⟩
    · rw [← Bool.not_eq_true]
      exact fun htable => hout (containsTable_iff.mp htable)
    · intro c hc fk hfk
      have hsome := hresolve s hs hnew c hc fk hfk
      have hin := ofSnapshot_column_isSome hsome
      rw [map_append, mem_append] at hin
      by_cases hprev : fk.table ∈ (prev ++ pre).map (·.table)
      · rw [hsplit, ← append_assoc, ofSnapshot_column_append hprev] at hsome
        exact Or.inl hsome
      · rw [map_append, mem_append, not_or] at hprev
        rcases hordered hsplit hc hfk (hin.resolve_left hprev.1) with hself | hpre
        · refine Or.inr ⟨hself, ?_⟩
          rw [ofSnapshot_column, findTable_append, hself, findTable_eq_none_iff.mpr hnew,
            Option.none_or, findTable_of_mem hnodup hsL, Option.bind_some, createdColumns,
            Option.isSome_map] at hsome
          obtain ⟨c', hc'⟩ := Option.isSome_iff_exists.mp hsome
          obtain ⟨hmem', hcol⟩ := findColumn_some hc'
          exact ⟨c', hmem', hcol⟩
        · exact absurd hpre hprev.2
    · rintro c hc hidx t n ⟨col, hcol, hname⟩
      have hin := ofSnapshot_column_isSome (Option.isSome_iff_exists.mpr ⟨col, hcol⟩)
      have hhas : (ofSnapshot (prev ++ L)).HasIndex t n (indexName s.table c.column) := by
        refine ⟨col, ?_, hname⟩
        rw [hsplit, ← append_assoc, ofSnapshot_column_append hin, hcol]
      exact hout (hnames s hs hnew c hc hidx t n hhas ▸ hin)

/-! ## Where the diff arrives -/

/-- A column that turns into or out of an identity or a computed column: a table rewrite, which
the diff leaves to a hand-written step. -/
def Transition (prev : Snapshot) (t : String) (c : ColumnSchema) : Prop :=
  ∃ s old, findTable t prev = some s ∧ findColumn c.column s.columns = some old ∧
    (isIdentity old.generation ≠ isIdentity c.generation ∨
      isComputed old.generation ≠ isComputed c.generation)

/-- The database has the tables, columns, types, nullability, defaults and non-unique indexes of
the new snapshot, identity and computed transitions excepted. -/
structure Arrives (prev next : Snapshot) (db : Db) : Prop where
  tables : ∀ t, db.table t = true ↔ t ∈ next.map (·.table)
  columns : ∀ t n, (db.column t n).isSome ↔
    ∃ s ∈ next, s.table = t ∧ n ∈ s.columns.map (·.column)
  facets : ∀ s ∈ next, ∀ c ∈ s.columns, ∀ col, db.column s.table c.column = some col →
    ¬ Transition prev s.table c → col.ty = c.ty ∧ col.nullable = c.nullable ∧
      (isComputed c.generation = false → col.generation = c.generation)
  indexes : ∀ t n name, db.HasIndex t n name ↔
    ∃ s ∈ next, s.table = t ∧ ∃ c ∈ s.columns, c.column = n ∧ c.indexed = true ∧
      name = indexName t n

/-- No column that is an identity in both snapshots, or computed in both, changes its type or its
nullability. -/
def GeneratedUnchanged (prev next : Snapshot) : Prop :=
  ∀ s ∈ next, ∀ c ∈ s.columns, ∀ s' old, findTable s.table prev = some s' →
    findColumn c.column s'.columns = some old →
    (isIdentity old.generation && isIdentity c.generation ||
      isComputed old.generation && isComputed c.generation) = true →
    old.ty = c.ty ∧ old.nullable = c.nullable

/-- The column the diff leaves has the facets of the new descriptor, but for the transitions and
the generated columns it does not alter. -/
theorem settled_facets_iff {O : List ColumnSchema} {old c : ColumnSchema}
    (hold : findColumn c.column O = some old)
    (hkind : isIdentity old.generation = isIdentity c.generation ∧
      isComputed old.generation = isComputed c.generation) :
    ((settled t O c).ty = c.ty ∧ (settled t O c).nullable = c.nullable ∧
        (isComputed c.generation = false → (settled t O c).generation = c.generation)) ↔
      ((isIdentity old.generation && isIdentity c.generation ||
          isComputed old.generation && isComputed c.generation) = true →
        old.ty = c.ty ∧ old.nullable = c.nullable) := by
  obtain ⟨hid, hcomp⟩ := hkind
  simp only [settled, hold]
  by_cases haltered : columnAltered old c = true
  · -- an altered column is neither an identity nor computed
    have hplain : isIdentity c.generation = false ∧ isComputed c.generation = false := by
      unfold columnAltered at haltered
      rw [hid, hcomp, Bool.or_self, Bool.or_self] at haltered
      split at haltered
      · cases haltered
      · split at haltered
        · cases haltered
        · exact ⟨by simp_all, by simp_all⟩
    simp [haltered, ColumnSchema.created, hplain.1, hplain.2]
  · rw [if_neg haltered]
    simp only [ColumnSchema.created]
    cases hidc : isIdentity c.generation with
    | true =>
      have holdid : old.generation = c.generation := by
        rw [hidc] at hid
        revert hid hidc
        cases old.generation <;> cases c.generation <;> simp [isIdentity]
      simp [hidc, holdid]
    | false =>
      cases hcompc : isComputed c.generation with
      | true => simp [hcomp, hcompc]
      | false =>
        rw [hidc] at hid
        rw [hcompc] at hcomp
        unfold columnAltered at haltered
        simp only [hid, hidc, hcomp, hcompc, Bool.or_self, Bool.false_eq_true, if_false,
          Bool.not_eq_true, Bool.or_eq_false_iff, bne_eq_false_iff_eq] at haltered
        obtain ⟨⟨hty, hnull⟩, hdef⟩ := haltered
        rw [notSameDefault, Bool.not_eq_false', sameDefault_iff hid hcomp] at hdef
        simp [notSameDbType_eq_false.mp hty, hnull, hdef]

/-- The database when the diff is through: the columns of the new snapshot. -/
theorem final_column :
    ((standing prev next next).without (Gone next prev)).column t n =
      match findTable t next with
      | none => none
      | some s =>
        match findTable t prev with
        | some old => settledColumns t old.columns s.columns n
        | none => createdColumns t s.columns n := by
  simp only [Db.without, standing]
  cases hs : findTable t next with
  | none =>
    have hout := findTable_eq_none_iff.mp hs
    cases hold : findTable t prev with
    | none => simp
    | some old =>
      obtain ⟨hmem, rfl⟩ := findTable_some hold
      rw [if_pos ⟨mem_map_of_mem hmem, hout⟩]
  | some s =>
    obtain ⟨hmem, rfl⟩ := findTable_some hs
    have hgone : ¬ Gone next prev s.table := fun h => h.2 (mem_map_of_mem hmem)
    rw [if_neg hgone]
    cases findTable s.table prev <;> rfl

theorem arrives_iff (hnext : WellFormed next) :
    Arrives prev next ((standing prev next next).without (Gone next prev)) ↔
      GeneratedUnchanged prev next := by
  have hcolumn {s : EntitySchema} (hs : s ∈ next) {c : ColumnSchema} (hc : c ∈ s.columns) :
      ((standing prev next next).without (Gone next prev)).column s.table c.column =
        some (match findTable s.table prev with
          | some old => settled s.table old.columns c
          | none => c.created s.table) := by
    rw [final_column, findTable_of_mem hnext.tables hs]
    have hfind := findColumn_of_mem (hnext.columns s hs) hc
    cases findTable s.table prev with
    | some old => simp [settledColumns, hfind]
    | none => simp [createdColumns, hfind]
  constructor
  · intro h s hs c hc s' old hold hcol hkind
    have hsame : isIdentity old.generation = isIdentity c.generation ∧
        isComputed old.generation = isComputed c.generation := by
      revert hkind
      cases old.generation <;> cases c.generation <;> simp [isIdentity, isComputed]
    have hno : ¬ Transition prev s.table c := by
      rintro ⟨s'', old', hold', hcol', hdiff⟩
      rw [hold] at hold'
      cases hold'
      rw [hcol] at hcol'
      cases hcol'
      exact hdiff.elim (· hsame.1) (· hsame.2)
    have hfacets := h.facets s hs c hc _ (hcolumn hs hc) hno
    simp only [hold] at hfacets
    exact (settled_facets_iff hcol hsame).mp hfacets hkind
  · intro h
    refine ⟨?_, ?_, ?_, ?_⟩
    · intro t
      simp only [Db.without, standing]
      by_cases hin : t ∈ next.map (·.table)
      · have hgone : ¬ Gone next prev t := fun hgone => hgone.2 hin
        simp [hgone, containsTable_iff, hin]
      · by_cases hold : t ∈ prev.map (·.table)
        · simp [show Gone next prev t from ⟨hold, hin⟩, hin]
        · have hgone : ¬ Gone next prev t := fun hgone => hold hgone.1
          simp only [hgone, if_false, Bool.or_eq_true, containsTable_iff, hold, hin, or_self]
    · intro t n
      rw [final_column]
      cases hs : findTable t next with
      | none =>
        have hout := findTable_eq_none_iff.mp hs
        simp only [Option.isSome_none, Bool.false_eq_true, false_iff]
        rintro ⟨s, hmem, rfl, -⟩
        exact hout (mem_map_of_mem hmem)
      | some s =>
        obtain ⟨hmem, rfl⟩ := findTable_some hs
        have hthere : (findColumn n s.columns).isSome ↔
            ∃ s' ∈ next, s'.table = s.table ∧ n ∈ s'.columns.map (·.column) := by
          rw [← containsColumn_eq_isSome, containsColumn_iff]
          constructor
          · exact fun hn => ⟨s, hmem, rfl, hn⟩
          · rintro ⟨s', hs', ht, hn⟩
            rwa [eq_of_key_eq hnext.tables hs' hmem ht] at hn
        rw [← hthere]
        cases findTable s.table prev with
        | some old => simp [settledColumns]
        | none => simp [createdColumns]
    · intro s hs c hc col hcol hno
      rw [hcolumn hs hc] at hcol
      cases hcol
      cases hold : findTable s.table prev with
      | none => exact ⟨rfl, rfl, fun _ => rfl⟩
      | some s' =>
        simp only
        cases hcol : findColumn c.column s'.columns with
        | none =>
          simp only [settled, hcol]
          exact ⟨rfl, rfl, fun _ => rfl⟩
        | some old =>
          have hsame : isIdentity old.generation = isIdentity c.generation ∧
              isComputed old.generation = isComputed c.generation := by
            refine ⟨?_, ?_⟩
            · by_contra hne
              exact hno ⟨s', old, hold, hcol, Or.inl hne⟩
            · by_contra hne
              exact hno ⟨s', old, hold, hcol, Or.inr hne⟩
          exact (settled_facets_iff hcol hsame).mpr (h s hs c hc s' old hold hcol)
    · intro t n name
      constructor
      · rintro ⟨col, hcol, hname⟩
        rw [final_column] at hcol
        cases hs : findTable t next with
        | none =>
          rw [hs] at hcol
          cases hcol
        | some s =>
          obtain ⟨hmem, rfl⟩ := findTable_some hs
          rw [hs] at hcol
          cases hold : findTable s.table prev with
          | none =>
            simp only [hold] at hcol
            obtain ⟨c, hc, rfl⟩ := Option.map_eq_some_iff.mp hcol
            obtain ⟨hc', rfl⟩ := findColumn_some hc
            exact ⟨s, hmem, rfl, c, hc', rfl, ColumnSchema.created_index.mp hname⟩
          | some old =>
            simp only [hold] at hcol
            obtain ⟨c, hc, rfl⟩ := Option.map_eq_some_iff.mp hcol
            obtain ⟨hc', rfl⟩ := findColumn_some hc
            rw [settled_index] at hname
            exact ⟨s, hmem, rfl, c, hc', rfl, ColumnSchema.created_index.mp hname⟩
      · rintro ⟨s, hs, rfl, c, hc, rfl, hidx, rfl⟩
        refine ⟨_, hcolumn hs hc, ?_⟩
        cases findTable s.table prev with
        | none => exact ColumnSchema.created_index.mpr ⟨hidx, rfl⟩
        | some old =>
          simp only [settled_index]
          exact ColumnSchema.created_index.mpr ⟨hidx, rfl⟩

/-! ## The whole diff -/

/-- What a diff needs of the two snapshots, place by place: the keys of the created tables resolve
and their index names are free; the column changes of each table are safe where the diff has come
to by then; no table goes that something still references; and no generated column changes. -/
structure DiffSafe (prev next : Snapshot) : Prop where
  creates : CreatesResolve prev next
  createNames : CreateNamesFree prev next
  tables : ∀ before s after old, next = before ++ s :: after →
    findTable s.table prev = some old → TableSafe prev next before old s
  drops : TablesUnreferenced prev next
  generated : GeneratedUnchanged prev next

end

/-! ## Two diffs -/

/-- A table of users and a table of posts, each post by a user. -/
def usersAndPosts : Snapshot :=
  [{ schema "User" "users" with columns := [mkColumn "id" "id" .dbBigInt false] },
    { schema "Post" "posts" with
      columns := [mkColumn "id" "id" .dbBigInt false,
        { mkColumn "author" "author" .dbBigInt false with
          foreignKey := some (references "users" "id") }] }]

theorem usersAndPosts_wellFormed : WellFormed usersAndPosts := ⟨by decide, by decide⟩

theorem inSetReference_usersAndPosts {t' : String} (h : InSetReference usersAndPosts t t') :
    t = "posts" ∧ t' = "users" := by
  obtain ⟨-, -, s, hs, rfl, c, hc, fk, hfk, rfl⟩ := h
  simp only [usersAndPosts, schema, mem_cons, not_mem_nil, or_false] at hs
  rcases hs with rfl | rfl
  · simp only [mem_cons, not_mem_nil, or_false] at hc
    subst hc
    cases hfk
  · simp only [mem_cons, not_mem_nil, or_false] at hc
    rcases hc with rfl | rfl
    · cases hfk
    · cases hfk
      exact ⟨rfl, rfl⟩

theorem usersAndPosts_acyclic : Acyclic (InSetReference usersAndPosts) := by
  refine Acyclic.of_height (fun t => if t = "posts" then 1 else 0) fun t t' h => ?_
  obtain ⟨rfl, rfl⟩ := inSetReference_usersAndPosts h
  decide

theorem ofSnapshot_uniqueIndexes_of_notIndexed {S : Snapshot}
    (h : ∀ s ∈ S, ∀ c ∈ s.columns, c.indexed = false) : (ofSnapshot S).UniqueIndexes := by
  rintro t n t' n' name ⟨col, hcol, hname⟩ -
  obtain ⟨s, hs, hcol⟩ := Option.bind_eq_some_iff.mp hcol
  obtain ⟨c, hc, rfl⟩ := Option.map_eq_some_iff.mp hcol
  have hidx := (ColumnSchema.created_index.mp hname).1
  rw [h s (findTable_some hs).1 c (findColumn_some hc).1] at hidx
  cases hidx

end Ridge
