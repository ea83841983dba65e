import Ridge.Migrate.ColumnDiff
import Ridge.Migrate.CreateOrder

/-!
# std.migrate — a database through a whole diff

Between two tables, the database a diff is running on has one shape, `standing`: the tables of the
old snapshot, those the diff has been through in their new columns, and the created tables, all of
them from the start. The creates lead there (`after_creates`), the column changes of one table lead
from one standing to the next (`standing_append`), and the drops take the tables that are not in
the new snapshot.
-/

namespace Ridge

open Db List

variable {s : EntitySchema}

/-- Distinct table names and, within a table, distinct column names. -/
structure WellFormed (schemas : Snapshot) : Prop where
  tables : (schemas.map (·.table)).Nodup
  columns : ∀ s ∈ schemas, (s.columns.map (·.column)).Nodup

/-- The database when the diff has been through the tables `passed` of the new snapshot. -/
def standing (prev next passed : Snapshot) : Db where
  table t := containsTable t prev || containsTable t next
  column t n :=
    match findTable t prev with
    | some old =>
      match findTable t passed with
      | some s => settledColumns t old.columns s.columns n
      | none => createdColumns t old.columns n
    | none => (findTable t next).bind fun s => createdColumns t s.columns n

section

variable {prev next : Snapshot}

theorem containsTable_eq_isSome (t : String) (schemas : Snapshot) :
    containsTable t schemas = (findTable t schemas).isSome := by
  rw [Bool.eq_iff_iff, containsTable_iff, Option.isSome_iff_ne_none, ne_eq,
    findTable_eq_none_iff, not_not]

theorem findTable_append (t : String) (A B : Snapshot) :
    findTable t (A ++ B) = (findTable t A).or (findTable t B) := by
  rw [findTable_eq, findTable_eq, findTable_eq, find?_append]

theorem findTable_of_mem {schemas : Snapshot} (h : (schemas.map (·.table)).Nodup) (hs : s ∈ schemas) :
    findTable s.table schemas = some s := by
  rw [findTable_eq]
  exact find?_key_of_mem h hs

theorem findColumn_of_mem {cols : List ColumnSchema} (h : (cols.map (·.column)).Nodup)
    {c : ColumnSchema} (hc : c ∈ cols) : findColumn c.column cols = some c := by
  rw [findColumn_eq]
  exact find?_key_of_mem h hc

/-! ## The creates -/

theorem createEntities_eq (schemas : Snapshot) :
    createEntities schemas = schemas.flatMap fun s => [.createEntity s] := by
  induction schemas with
  | nil => rfl
  | cons s rest ih => rw [flatMap_cons, ← ih]; rfl

theorem step_createEntity {S : Snapshot} (h : s.table ∉ S.map (·.table)) :
    (ofSnapshot S).step (.createEntity s) = ofSnapshot (S ++ [s]) := by
  have hnone := findTable_eq_none_iff.mpr h
  refine Db.ext_columns (fun t => ?_) fun t n => ?_
  · simp only [step, ofSnapshot, containsTable_eq_isSome, findTable_append]
    by_cases ht : t = s.table
    · subst ht
      simp [hnone, findTable]
    · simp [ht, findTable, Ne.symm ht]
  · simp only [step, ofSnapshot, findTable_append]
    by_cases ht : t = s.table
    · subst ht
      simp [hnone, findTable]
    · simp [ht, findTable, Ne.symm ht]

theorem after_createEntities {S L : Snapshot} (hL : (L.map (·.table)).Nodup)
    (hdisj : ∀ s ∈ L, s.table ∉ S.map (·.table)) :
    (ofSnapshot S).after (createEntities L) = ofSnapshot (S ++ L) := by
  induction L generalizing S with
  | nil => simp [createEntities]
  | cons s rest ih =>
    obtain ⟨hs, hrest⟩ := nodup_cons.mp hL
    rw [createEntities, after_cons, step_createEntity (hdisj s mem_cons_self)]
    rw [ih hrest, append_assoc]
    · rfl
    · intro s' hs' hin
      rw [map_append, mem_append] at hin
      rcases hin with hin | hin
      · exact hdisj s' (mem_cons_of_mem _ hs') hin
      · have heq : s'.table = s.table := by simpa using hin
        exact hs (mem_map.mpr ⟨s', hs', heq⟩)

section

variable (hnext : WellFormed next)
include hnext

theorem created_perm : (orderByForeignKey (newSchemas prev next)).Perm (newSchemas prev next) := by
  apply orderByForeignKey_perm
  rw [newSchemas_eq_filter]
  exact hnext.tables.sublist (filter_sublist.map _)

theorem mem_created :
    s ∈ orderByForeignKey (newSchemas prev next) ↔ s ∈ next ∧ s.table ∉ prev.map (·.table) := by
  rw [(created_perm hnext).mem_iff, mem_newSchemas]

theorem created_nodup : ((orderByForeignKey (newSchemas prev next)).map (·.table)).Nodup := by
  rw [((created_perm hnext).map _).nodup_iff, newSchemas_eq_filter]
  exact hnext.tables.sublist (filter_sublist.map _)

theorem findTable_created {t : String} (ht : findTable t prev = none) :
    findTable t (orderByForeignKey (newSchemas prev next)) = findTable t next := by
  apply Option.ext
  intro s
  rw [findTable_eq, find?_key_eq_some_iff (created_nodup hnext), findTable_eq,
    find?_key_eq_some_iff hnext.tables, mem_created hnext]
  constructor
  · rintro ⟨⟨hs, -⟩, rfl⟩
    exact ⟨hs, rfl⟩
  · rintro ⟨hs, rfl⟩
    exact ⟨⟨hs, findTable_eq_none_iff.mp ht⟩, rfl⟩

/-- Before any table is altered, the created ones stand beside the old ones. -/
theorem standing_nil :
    ofSnapshot (prev ++ orderByForeignKey (newSchemas prev next)) = standing prev next [] := by
  refine Db.ext_columns (fun t => ?_) fun t n => ?_
  · simp only [ofSnapshot, standing, containsTable_eq_isSome, findTable_append]
    cases h : findTable t prev with
    | some old => simp
    | none => simp [findTable_created hnext h]
  · simp only [ofSnapshot, standing, findTable_append, findTable]
    cases h : findTable t prev with
    | some old => rfl
    | none =>
      rw [Option.none_or, findTable_created hnext h]
      rfl

theorem after_creates :
    (ofSnapshot prev).after (createdTables prev next) = standing prev next [] := by
  rw [createdTables, after_createEntities (created_nodup hnext), standing_nil hnext]
  exact fun s hs => ((mem_created hnext).mp hs).2

end

/-! ## The column changes -/

def tableOps (prev : Snapshot) (s : EntitySchema) : List MigrationOp :=
  match findTable s.table prev with
  | none => []
  | some old => columnDiff old s

theorem standing_append {passed : Snapshot} (hs : s.table ∉ passed.map (·.table)) :
    standing prev next (passed ++ [s]) =
      match findTable s.table prev with
      | none => standing prev next passed
      | some old =>
        (standing prev next passed).setTable s.table
          (settledColumns s.table old.columns s.columns) := by
  have hnone := findTable_eq_none_iff.mpr hs
  have hfind (t : String) (ht : t ≠ s.table) :
      findTable t (passed ++ [s]) = findTable t passed := by
    simp [findTable_append, findTable, Ne.symm ht]
  cases hold : findTable s.table prev with
  | none =>
    refine Db.ext_columns (fun t => ?_) fun t n => ?_
    · rfl
    · simp only [standing]
      by_cases ht : t = s.table
      · subst ht
        simp only [hold]
      · rw [hfind t ht]
  | some old =>
    refine Db.ext_columns (fun t => ?_) fun t n => ?_
    · rfl
    · by_cases ht : t = s.table
      · subst ht
        simp only [setTable_column_self, standing, hold]
        simp [findTable_append, hnone, findTable]
      · simp only [setTable_column_of_ne _ ht, standing, hfind t ht]

/-- What the column changes of a table need, at the place of the table in the new snapshot. -/
def TableSafe (prev next passed : Snapshot) (old s : EntitySchema) : Prop :=
  AddsResolve (standing prev next passed) s.table old.columns s.columns ∧
  IndexNamesFree (standing prev next passed) s.table old.columns s.columns ∧
  DropsUnreferenced (standing prev next (passed ++ [s])) s.table old.columns s.columns

theorem tableOps_spec (hprev : WellFormed prev) (hnext : WellFormed next) {passed after : Snapshot}
    (hsplit : next = passed ++ s :: after) (hunique : (standing prev next passed).UniqueIndexes) :
    ((standing prev next passed).Runs (tableOps prev s) ↔
      ∀ old, findTable s.table prev = some old → TableSafe prev next passed old s) ∧
    ((standing prev next passed).Runs (tableOps prev s) →
      (standing prev next passed).after (tableOps prev s) =
        standing prev next (passed ++ [s])) := by
  have hs : s ∈ next := by simp [hsplit]
  have hpassed := (key_notMem_of_split hnext.tables hsplit).1
  have happend : standing prev next (passed ++ [s]) = _ := standing_append hpassed
  unfold tableOps
  cases hold : findTable s.table prev with
  | none =>
    simp only [hold] at happend
    rw [happend]
    simp
  | some old =>
    simp only [hold] at happend
    obtain ⟨hmem, -⟩ := findTable_some hold
    have htable : (standing prev next passed).table s.table = true := by
      simp [standing, containsTable_eq_isSome, hold]
    have hcols : (standing prev next passed).column s.table =
        createdColumns s.table old.columns := by
      funext n
      simp only [standing, hold, findTable_eq_none_iff.mpr hpassed]
    obtain ⟨hiff, hafter⟩ := columnDiff_spec (hprev.columns old hmem) (hnext.columns s hs)
      htable hcols hunique
    rw [← happend] at hiff hafter
    refine ⟨hiff.trans ?_, hafter⟩
    constructor
    · rintro h old' hold'
      cases hold'
      exact h
    · exact fun h => h old rfl

/-- The column changes of the rest of the tables, from the standing they start at. -/
theorem alteredTables_spec (hprev : WellFormed prev) (hnext : WellFormed next)
    {passed rest : Snapshot} (hsplit : next = passed ++ rest)
    (hunique : (standing prev next passed).UniqueIndexes) :
    ((standing prev next passed).Runs (alteredTables prev rest) ↔
      ∀ before s after old, rest = before ++ s :: after → findTable s.table prev = some old →
        TableSafe prev next (passed ++ before) old s) ∧
    ((standing prev next passed).Runs (alteredTables prev rest) →
      (standing prev next passed).after (alteredTables prev rest) = standing prev next next) := by
  induction rest generalizing passed with
  | nil => simp [alteredTables, hsplit]
  | cons s rest ih =>
    obtain ⟨hiff, hafter⟩ := tableOps_spec hprev hnext hsplit hunique
    have hsplit' : next = (passed ++ [s]) ++ rest := by simp [hsplit]
    have hcons : alteredTables prev (s :: rest) = tableOps prev s ++ alteredTables prev rest := by
      rw [alteredTables, tableOps]
      cases findTable s.table prev <;> rfl
    rw [hcons, runs_append, after_append]
    have hnextUnique (hruns : (standing prev next passed).Runs (tableOps prev s)) :
        (standing prev next (passed ++ [s])).UniqueIndexes := by
      rw [← hafter hruns]
      exact runs_uniqueIndexes hunique hruns
    refine ⟨?_, ?_⟩
    · constructor
      · rintro ⟨hruns, hrest⟩ before s' after old hs' hold
        rw [hafter hruns] at hrest
        cases before with
        | nil =>
          obtain ⟨rfl, -⟩ := cons.inj hs'
          rw [append_nil]
          exact hiff.mp hruns old hold
        | cons s₀ before =>
          obtain ⟨rfl, htail⟩ := cons.inj hs'
          have hsafe := (ih hsplit' (hnextUnique hruns)).1.mp hrest before s' after old htail hold
          rwa [append_assoc] at hsafe
      · intro h
        have hruns := hiff.mpr fun old hold => by
          have hsafe := h [] s rest old rfl hold
          rwa [append_nil] at hsafe
        refine ⟨hruns, ?_⟩
        rw [hafter hruns]
        refine (ih hsplit' (hnextUnique hruns)).1.mpr fun before s' after old htail hold => ?_
        have hsafe := h (s :: before) s' after old (by rw [htail]; rfl) hold
        rwa [append_assoc]
    · rintro ⟨hruns, hrest⟩
      rw [hafter hruns] at hrest ⊢
      exact (ih hsplit' (hnextUnique hruns)).2 hrest

/-! ## The drops -/

/-- The tables among `schemas` that the diff drops. -/
def Gone (next schemas : Snapshot) (t : String) : Prop :=
  t ∈ schemas.map (·.table) ∧ t ∉ next.map (·.table)

instance (next schemas : Snapshot) (t : String) : Decidable (Gone next schemas t) :=
  inferInstanceAs (Decidable (_ ∧ _))

/-- A database without some tables. -/
def Db.without (db : Db) (gone : String → Prop) [DecidablePred gone] : Db where
  table t := if gone t then false else db.table t
  column t n := if gone t then none else db.column t n

theorem after_droppedTables (db : Db) (schemas : Snapshot) :
    db.after (droppedTables next schemas) = db.without (Gone next schemas) := by
  induction schemas generalizing db with
  | nil => simp [droppedTables, Db.without, Gone]
  | cons s rest ih =>
    rw [droppedTables]
    split
    · next hin =>
      rw [containsTable_iff] at hin
      rw [ih]
      have hgone (t : String) : Gone next rest t ↔ Gone next (s :: rest) t := by
        simp only [Gone, map_cons, mem_cons]
        constructor
        · rintro ⟨hmem, hout⟩
          exact ⟨.inr hmem, hout⟩
        · rintro ⟨rfl | hmem, hout⟩
          · exact absurd hin hout
          · exact ⟨hmem, hout⟩
      simp only [Db.without, hgone]
    · next hin =>
      rw [containsTable_iff] at hin
      rw [after_cons, ih]
      have hgone (t : String) : Gone next (s :: rest) t ↔ t = s.table ∨ Gone next rest t := by
        simp only [Gone, map_cons, mem_cons]
        constructor
        · rintro ⟨rfl | hmem, hout⟩
          · exact .inl rfl
          · exact .inr ⟨hmem, hout⟩
        · rintro (rfl | ⟨hmem, hout⟩)
          · exact ⟨.inl rfl, hin⟩
          · exact ⟨.inr hmem, hout⟩
      refine Db.ext_columns (fun t => ?_) fun t n => ?_
      · simp only [Db.without, step, hgone]
        by_cases ht : t = s.table <;> simp [ht]
      · simp only [Db.without, step, hgone]
        by_cases ht : t = s.table <;> simp [ht]

theorem droppedTables_eq (schemas : Snapshot) :
    droppedTables next schemas =
      schemas.flatMap fun s => if containsTable s.table next then [] else [.dropTable s.table] := by
  induction schemas with
  | nil => rfl
  | cons s rest ih =>
    rw [flatMap_cons, ← ih, droppedTables]
    split <;> rfl

/-- What the drops need: nothing that is kept, or is dropped later, points at a table that goes. -/
def TablesUnreferenced (prev next : Snapshot) : Prop :=
  ∀ pre s post, prev = pre ++ s :: post → s.table ∉ next.map (·.table) →
    ∀ t n col, t ≠ s.table → ¬ Gone next pre t → (standing prev next next).column t n = some col →
      ¬ col.ReferencesTable s.table

theorem runs_droppedTables_iff (hprev : WellFormed prev) :
    (standing prev next next).Runs (droppedTables next prev) ↔ TablesUnreferenced prev next := by
  rw [droppedTables_eq, runs_flatMap]
  unfold TablesUnreferenced
  refine forall_congr' fun pre => forall_congr' fun s => forall_congr' fun post =>
    forall_congr' fun hsplit => ?_
  rw [← droppedTables_eq, after_droppedTables]
  split
  · next hin =>
    rw [containsTable_iff] at hin
    exact iff_of_true (runs_nil _) fun hout => absurd hin hout
  · next hout =>
    rw [containsTable_iff] at hout
    have hpre := (key_notMem_of_split hprev.tables hsplit).1
    constructor
    · rintro ⟨⟨-, hrefs⟩, -⟩ - t n col ht hgone hcol
      refine hrefs t n col ?_ ht
      simp only [Db.without, if_neg hgone, hcol]
    · intro h
      refine ⟨⟨?_, ?_⟩, runs_nil _⟩
      · have hgone : ¬ Gone next pre s.table := fun hgone => hpre hgone.1
        have htable : containsTable s.table prev = true :=
          containsTable_iff.mpr (by simp [hsplit])
        simp only [Db.without, if_neg hgone, standing, htable, Bool.true_or]
      · intro t n col hcol ht
        simp only [Db.without] at hcol
        split at hcol
        · cases hcol
        · next hgone => exact h hout t n col ht hgone hcol

end

end Ridge
