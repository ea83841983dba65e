import Ridge.Migrate.ColumnStages

/-!
# std.migrate — what the column changes of a table need and leave

The five passes of `columnDiff` put together: the columns they leave (`settledColumns`), and the
three things a database must meet for all of them to be taken.
-/

namespace Ridge

open Db List Option

variable {n : String} {c : ColumnSchema}

/-! ## The columns of a table before and after -/

variable (t : String)

def createdColumns (O : List ColumnSchema) : TableColumns := fun n =>
  (findColumn n O).map (·.created t)

/-- A column of the new schema once the diff is through with it. One that was there before keeps
its foreign key, and keeps its type, nullability and default where the diff does not alter it. -/
def settled (O : List ColumnSchema) (c : ColumnSchema) : DbColumn :=
  match findColumn c.column O with
  | none => c.created t
  | some old =>
    if columnAltered old c then { c.created t with foreignKey := old.foreignKey }
    else { old.created t with index := (c.created t).index }

theorem settled_index (O : List ColumnSchema) (c : ColumnSchema) :
    (settled t O c).index = (c.created t).index := by
  unfold settled
  split
  · rfl
  · split <;> rfl

def settledColumns (O N : List ColumnSchema) : TableColumns := fun n =>
  (findColumn n N).map (settled t O)

section

variable {t : String} {O N : List ColumnSchema}

theorem containsColumn_eq_isSome (n : String) (cols : List ColumnSchema) :
    containsColumn n cols = (findColumn n cols).isSome := by
  rw [Bool.eq_iff_iff, containsColumn_iff, isSome_iff_ne_none, ne_eq,
    findColumn_eq_none_iff, not_not]

/-- An altered column gets all three facets of the new descriptor. -/
theorem alterActions_created {old new : ColumnSchema} (h : columnAltered old new = true) :
    alterActions old new (old.created t) =
      { new.created t with foreignKey := old.foreignKey, index := (old.created t).index } := by
  unfold columnAltered at h
  split at h
  · cases h
  next hid =>
  split at h
  · cases h
  next hcomp =>
  rw [Bool.not_eq_true, Bool.or_eq_false_iff] at hid hcomp
  obtain ⟨hid, hid'⟩ := hid
  obtain ⟨hcomp, hcomp'⟩ := hcomp
  unfold alterActions
  simp only [ColumnSchema.created, DbColumn.mk.injEq, hid, hid', hcomp, hcomp', Bool.or_self,
    Bool.false_eq_true, if_false]
  refine ⟨?_, ?_, ?_, trivial, trivial⟩
  · cases hty : notSameDbType old.ty new.ty with
    | true => rfl
    | false => exact notSameDbType_eq_false.mp hty
  · cases hn : (old.nullable != new.nullable) with
    | true => rfl
    | false => simpa using hn
  · cases hd : notSameDefault old.generation new.generation with
    | true => rfl
    | false =>
      rw [notSameDefault, Bool.not_eq_false', sameDefault_iff hid hcomp] at hd
      exact hd

def alteredStage (t : String) (O N : List ColumnSchema) : TableColumns :=
  overlay N (alterAction O) (overlay N (addAction O) (createdColumns t O))

def indexedStage (t : String) (O N : List ColumnSchema) : TableColumns :=
  overlay O (unindexAction N) (overlay N (indexAction t O) (alteredStage t O N))

theorem alteredStage_of_new (hO : findColumn n O = none) (hN : findColumn n N = some c) :
    alteredStage t O N n = some c.added := by
  obtain ⟨-, rfl⟩ := findColumn_some hN
  simp [alteredStage, overlay, hN, alterAction, addAction, hO, containsColumn_eq_isSome]

theorem alteredStage_of_both {old : ColumnSchema} (hO : findColumn n O = some old)
    (hN : findColumn n N = some c) :
    alteredStage t O N n =
      some { settled t O c with index := (old.created t).index } := by
  obtain ⟨-, rfl⟩ := findColumn_some hN
  simp only [alteredStage, overlay, hN, alterAction, addAction, hO, containsColumn_eq_isSome,
    isSome_some, if_true, createdColumns, map_some, settled]
  split
  · next h => rw [alterActions_created h]
  · rfl

theorem alteredStage_of_old (hN : findColumn n N = none) :
    alteredStage t O N n = createdColumns t O n := by
  simp only [alteredStage, overlay, hN]

theorem indexedStage_of_mem (hN : findColumn n N = some c) :
    indexedStage t O N n = some (settled t O c) := by
  obtain ⟨-, hn⟩ := findColumn_some hN
  cases hO : findColumn n O with
  | none =>
    simp only [indexedStage, overlay, hO, hN, alteredStage_of_new hO hN, indexAction,
      newlyIndexed, wasNotIndexed, hn, settled, ColumnSchema.created, ColumnSchema.added]
    cases c.indexed <;> rfl
  | some old =>
    obtain ⟨-, hn'⟩ := findColumn_some hO
    simp only [indexedStage, overlay, hO, hN, alteredStage_of_both hO hN, indexAction,
      newlyIndexed, wasNotIndexed, hn, hn', unindexAction, indexRemoved, stillPresentUnindexed,
      settled, ColumnSchema.created]
    cases c.indexed <;> cases old.indexed <;> cases columnAltered old c <;> rfl

theorem indexedStage_of_notMem (hN : findColumn n N = none) :
    indexedStage t O N n = createdColumns t O n := by
  cases hO : findColumn n O with
  | none => simp only [indexedStage, overlay, hO, hN, alteredStage_of_old hN]
  | some old =>
    obtain ⟨-, rfl⟩ := findColumn_some hO
    simp only [indexedStage, overlay, hO, hN, alteredStage_of_old hN, unindexAction, indexRemoved,
      stillPresentUnindexed, Bool.false_eq_true, ite_self, if_false]

/-- The five passes leave exactly the columns of the new schema. -/
theorem settledColumns_eq :
    overlay O (dropAction N) (indexedStage t O N) = settledColumns t O N := by
  funext n
  cases hN : findColumn n N with
  | some c =>
    cases hO : findColumn n O with
    | none => simp only [overlay, hO, settledColumns, hN, indexedStage_of_mem hN, map_some]
    | some old =>
      obtain ⟨-, hn⟩ := findColumn_some hO
      simp only [overlay, hO, settledColumns, hN, indexedStage_of_mem hN, dropAction, hn,
        containsColumn_eq_isSome, isSome_some, if_true, map_some]
  | none =>
    cases hO : findColumn n O with
    | none =>
      simp only [overlay, hO, settledColumns, hN, indexedStage_of_notMem hN, createdColumns,
        map_none]
    | some old =>
      obtain ⟨-, hn⟩ := findColumn_some hO
      simp only [overlay, hO, settledColumns, hN, dropAction, hn, containsColumn_eq_isSome,
        isSome_none, Bool.false_eq_true, if_false, map_none]

/-! ## What the passes need -/

/-- Every foreign key of an added column points at a column that is there, or is the column itself
or one added before it. -/
def AddsResolve (db : Db) (t : String) (O N : List ColumnSchema) : Prop :=
  ∀ pre c post, N = pre ++ c :: post → c.column ∉ O.map (·.column) →
    ∀ fk, c.foreignKey = some fk →
      (db.column fk.table fk.column).isSome ∨
        (fk.table = t ∧ fk.column ∈ (pre ++ [c]).map (·.column))

/-- No other table has an index of the name of one to create. -/
def IndexNamesFree (db : Db) (t : String) (O N : List ColumnSchema) : Prop :=
  ∀ c ∈ N, newlyIndexed O c = true → ∀ t' n, t' ≠ t → ¬ db.HasIndex t' n (indexName t c.column)

/-- Once the table has its new columns, nothing points at a dropped column, the columns still to
be dropped included. -/
def DropsUnreferenced (db : Db) (t : String) (O N : List ColumnSchema) : Prop :=
  ∀ pre o post, O = pre ++ o :: post → o.column ∉ N.map (·.column) →
    (∀ t' n col, db.column t' n = some col → ¬ col.References t o.column) ∧
    ∀ o' ∈ post, o'.column ∉ N.map (·.column) → ¬ (o'.created t).References t o.column

section Runs

variable {db : Db} (hO : (O.map (·.column)).Nodup) (hN : (N.map (·.column)).Nodup)

include hN

variable (f : TableColumns)

theorem after_adds :
    (db.setTable t f).after (addedColumns t O N) = db.setTable t (overlay N (addAction O) f) := by
  rw [addedColumns_eq]
  exact after_overlay (fun _ => True) (fun c _ f _ => ⟨after_addOps c, trivial⟩) hN trivial

theorem after_alters :
    (db.setTable t f).after (alteredColumns t O N) =
      db.setTable t (overlay N (alterAction O) f) := by
  rw [alteredColumns_eq]
  exact after_overlay (fun _ => True) (fun c _ f _ => ⟨after_alterOps c, trivial⟩) hN trivial

theorem after_indexes :
    (db.setTable t f).after (createdIndexes t O N) =
      db.setTable t (overlay N (indexAction t O) f) := by
  rw [createdIndexes_eq]
  exact after_overlay (fun _ => True) (fun c _ f _ => ⟨after_indexOps c, trivial⟩) hN trivial

omit hN

include hO in
theorem after_drops (f : TableColumns) :
    (db.setTable t f).after (droppedColumns t N O) =
      db.setTable t (overlay O (dropAction N) f) := by
  rw [droppedColumns_eq]
  exact after_overlay (fun _ => True) (fun c _ f _ => ⟨after_dropOps c, trivial⟩) hO trivial

variable {f : TableColumns}

variable {pre post : List ColumnSchema}

/-- What is left of an overlay after a part of the list. -/
theorem overlay_split {g : ColumnSchema → Option DbColumn → Option DbColumn}
    (hN : (N.map (·.column)).Nodup) (hsplit : N = pre ++ c :: post) :
    overlay pre g f c.column = f c.column :=
  overlay_of_notMem (key_notMem_of_split hN hsplit).1

theorem nodup_pre (hN : (N.map (·.column)).Nodup) (hsplit : N = pre ++ c :: post) :
    (pre.map (·.column)).Nodup := by
  rw [hsplit, map_append] at hN
  exact (nodup_append.mp hN).1

include hN

theorem runs_adds_iff (htable : db.table t = true) :
    (db.setTable t (createdColumns t O)).Runs (addedColumns t O N) ↔
      AddsResolve (db.setTable t (createdColumns t O)) t O N := by
  rw [addedColumns_eq, runs_flatMap]
  -- the database when the pass reaches `c`
  have hstate {pre post : List ColumnSchema} {c : ColumnSchema} (hsplit : N = pre ++ c :: post) :
      (db.setTable t (createdColumns t O)).after (pre.flatMap (addOps t O)) =
        db.setTable t (overlay pre (addAction O) (createdColumns t O)) := by
    rw [← addedColumns_eq]
    exact after_adds (nodup_pre hN hsplit) _
  have hthere {pre : List ColumnSchema} (t' n : String) :
      ((db.setTable t (overlay pre (addAction O) (createdColumns t O))).column t' n).isSome ↔
        ((db.setTable t (createdColumns t O)).column t' n).isSome ∨
          (t' = t ∧ n ∈ pre.map (·.column)) := by
    by_cases ht : t' = t
    · subst ht
      simp only [setTable_column_self, overlay, true_and]
      cases hpre : findColumn n pre with
      | none => simp [findColumn_eq_none_iff.mp hpre]
      | some c =>
        obtain ⟨hmem, rfl⟩ := findColumn_some hpre
        have hin : c.column ∈ pre.map (·.column) := mem_map_of_mem hmem
        simp only [addAction, containsColumn_eq_isSome, hin, or_true, iff_true]
        cases hold : findColumn c.column O with
        | none => rfl
        | some o => simp [createdColumns, hold]
    · simp [setTable_column_of_ne _ ht, ht]
  constructor
  · intro h pre c post hsplit hnew fk hfk
    have hruns := h pre c post hsplit
    have hops : addOps t O c = [.addEntityColumn t c] := by
      rw [addOps, if_neg (by rwa [containsColumn_iff])]
    rw [hstate hsplit, hops] at hruns
    obtain ⟨⟨-, -, hrefs⟩, -⟩ := hruns
    rcases hrefs fk hfk with hsome | ⟨ht, hself⟩
    · rcases (hthere _ _).mp hsome with hsome | ⟨ht, hmem⟩
      · exact Or.inl hsome
      · refine Or.inr ⟨ht, ?_⟩
        rw [map_append]
        exact mem_append_left _ hmem
    · refine Or.inr ⟨ht, ?_⟩
      rw [hself, map_append]
      exact mem_append_right _ mem_cons_self
  · intro h pre c post hsplit
    rw [hstate hsplit]
    unfold addOps
    split
    · exact runs_nil _
    next hnew =>
    rw [containsColumn_iff] at hnew
    refine ⟨⟨htable, ?_, ?_⟩, runs_nil _⟩
    · rw [setTable_column_self, overlay_split hN hsplit, createdColumns,
        findColumn_eq_none_iff.mpr hnew]
      rfl
    · intro fk hfk
      rcases h pre c post hsplit hnew fk hfk with hsome | ⟨ht, hmem⟩
      · exact Or.inl ((hthere _ _).mpr (Or.inl hsome))
      · rw [map_append, mem_append] at hmem
        rcases hmem with hmem | hmem
        · exact Or.inl ((hthere _ _).mpr (Or.inr ⟨ht, hmem⟩))
        · exact Or.inr ⟨ht, by simpa using hmem⟩

/-- Alters are always taken: the columns they name are there. -/
theorem runs_alters (htable : db.table t = true) :
    (db.setTable t (overlay N (addAction O) (createdColumns t O))).Runs
      (alteredColumns t O N) := by
  rw [alteredColumns_eq, runs_flatMap]
  intro pre c post hsplit
  have hpre := nodup_pre hN hsplit
  rw [← alteredColumns_eq, after_alters hpre]
  unfold alterOps
  cases hold : findColumn c.column O with
  | none => exact runs_nil _
  | some o =>
    simp only
    split
    · refine ⟨⟨htable, ?_⟩, runs_nil _⟩
      rw [setTable_column_self, overlay_split hN hsplit]
      have hfind : findColumn c.column N = some c := by
        rw [findColumn_eq]
        exact find?_key_of_mem hN (by simp [hsplit])
      simp [overlay, hfind, addAction, containsColumn_eq_isSome, hold, createdColumns]
    · exact runs_nil _

omit hN in
theorem alteredStage_conventional : Conventional t (alteredStage t O N) := by
  intro n col name hcol hname
  cases hnew : findColumn n N with
  | none =>
    rw [alteredStage_of_old hnew] at hcol
    obtain ⟨o, ho, rfl⟩ := map_eq_some_iff.mp hcol
    obtain ⟨-, rfl⟩ := findColumn_some ho
    exact (ColumnSchema.created_index.mp hname).2
  | some c =>
    cases hold : findColumn n O with
    | none =>
      rw [alteredStage_of_new hold hnew] at hcol
      cases hcol
      cases hname
    | some o =>
      obtain ⟨-, rfl⟩ := findColumn_some hold
      rw [alteredStage_of_both hold hnew] at hcol
      cases hcol
      exact (ColumnSchema.created_index.mp hname).2

omit hN

theorem hasIndex_setTable_of_ne {t' name : String} (h : t' ≠ t) :
    (db.setTable t f).HasIndex t' n name ↔ db.HasIndex t' n name := by
  simp only [HasIndex, setTable_column_of_ne _ h]

theorem Conventional.overlay_index (hf : Conventional t f) (cols : List ColumnSchema) :
    Conventional t (overlay cols (indexAction t O) f) := by
  intro n col name hcol hname
  unfold overlay at hcol
  split at hcol
  · next c hc =>
    obtain ⟨-, rfl⟩ := findColumn_some hc
    unfold indexAction at hcol
    split at hcol
    · obtain ⟨col', -, rfl⟩ := map_eq_some_iff.mp hcol
      exact (Option.some.inj hname).symm
    · exact hf _ _ _ hcol hname
  · exact hf _ _ _ hcol hname

theorem alteredStage_of_newlyIndexed (hN : (N.map (·.column)).Nodup) (hc : c ∈ N)
    (hidx : newlyIndexed O c = true) :
    ∃ col, alteredStage t O N c.column = some col ∧ col.index = none := by
  have hnew : findColumn c.column N = some c := by
    rw [findColumn_eq]
    exact find?_key_of_mem hN hc
  cases hold : findColumn c.column O with
  | none => exact ⟨_, alteredStage_of_new hold hnew, rfl⟩
  | some o =>
    refine ⟨_, alteredStage_of_both hold hnew, ?_⟩
    unfold newlyIndexed wasNotIndexed at hidx
    simp only [hold] at hidx
    split at hidx
    · split at hidx
      · cases hidx
      · next ho => simp [ColumnSchema.created, ho]
    · cases hidx

include hN in
theorem runs_indexes_iff :
    (db.setTable t (alteredStage t O N)).Runs (createdIndexes t O N) ↔
      IndexNamesFree db t O N := by
  rw [createdIndexes_eq, runs_flatMap]
  have hstate {pre post : List ColumnSchema} {c : ColumnSchema} (hsplit : N = pre ++ c :: post) :
      (db.setTable t (alteredStage t O N)).after (pre.flatMap (indexOps t O)) =
        db.setTable t (overlay pre (indexAction t O) (alteredStage t O N)) := by
    rw [← createdIndexes_eq]
    exact after_indexes (nodup_pre hN hsplit) _
  constructor
  · intro h c hc hidx t' n ht hhas
    obtain ⟨pre, post, hsplit⟩ := append_of_mem hc
    have hruns := h pre c post hsplit
    rw [hstate hsplit, indexOps, if_pos hidx] at hruns
    obtain ⟨⟨-, n', col, -, -, -, hfree⟩, -⟩ := hruns
    exact hfree t' n ((hasIndex_setTable_of_ne ht).mpr hhas)
  · intro h pre c post hsplit
    have hc : c ∈ N := by simp [hsplit]
    rw [hstate hsplit]
    unfold indexOps
    split
    · next hidx =>
      obtain ⟨col, hcol, hnone⟩ := alteredStage_of_newlyIndexed (t := t) hN hc hidx
      have hcol' : overlay pre (indexAction t O) (alteredStage t O N) c.column = some col := by
        rw [overlay_split hN hsplit, hcol]
      refine ⟨⟨rfl, c.column, col, rfl, ?_, hnone, ?_⟩, runs_nil _⟩
      · rw [setTable_column_self, hcol']
      · intro t' n hhas
        by_cases ht : t' = t
        · subst ht
          obtain ⟨col₂, hcol₂, hname⟩ := hhas
          rw [setTable_column_self] at hcol₂
          have hconv := alteredStage_conventional.overlay_index pre n col₂ _ hcol₂ hname
          obtain rfl := indexName_injective hconv
          rw [hcol'] at hcol₂
          cases hcol₂
          rw [hnone] at hname
          cases hname
        · exact h c hc hidx t' n ht ((hasIndex_setTable_of_ne ht).mp hhas)
    · exact runs_nil _

theorem runs_unindexes (db : Db) : db.Runs (droppedIndexes t N O) := by
  rw [droppedIndexes_eq, runs_flatMap]
  intro pre o post _
  unfold unindexOps
  split
  · exact ⟨trivial, runs_nil _⟩
  · exact runs_nil _

/-- While names are unique, an index that goes is the only one of its name. -/
theorem unindexes_only_own (hO : (O.map (·.column)).Nodup)
    (hunique : (db.setTable t (overlay N (indexAction t O) (alteredStage t O N))).UniqueIndexes) :
    ∀ o ∈ O, indexRemoved N o = true → ∀ t' n, t' ≠ t →
      ¬ db.HasIndex t' n (indexName t o.column) := by
  intro o ho hremoved t' n ht hhas
  have hold : findColumn o.column O = some o := by
    rw [findColumn_eq]
    exact find?_key_of_mem hO ho
  unfold indexRemoved stillPresentUnindexed at hremoved
  split at hremoved
  · next hidx =>
    cases hnew : findColumn o.column N with
    | none => simp only [hnew, Bool.false_eq_true] at hremoved
    | some c =>
      obtain ⟨-, hcol⟩ := findColumn_some hnew
      simp only [hnew] at hremoved
      split at hremoved
      · cases hremoved
      next hcidx =>
      have hown : (db.setTable t (overlay N (indexAction t O) (alteredStage t O N))).HasIndex t
          o.column (indexName t o.column) := by
        refine ⟨{ settled t O c with index := (o.created t).index }, ?_, ?_⟩
        · rw [setTable_column_self]
          simp only [overlay, hnew, indexAction, newlyIndexed, hcidx, Bool.false_eq_true, if_false]
          exact alteredStage_of_both hold hnew
        · simp [ColumnSchema.created, hidx]
      exact ht (hunique ((hasIndex_setTable_of_ne ht).mpr hhas) hown).1
  · cases hremoved

/-- The columns when the drops have come to some point: those of the new schema, and those of the
old one that are still to go. -/
theorem overlay_drop_eq_some {pre : List ColumnSchema} {col : DbColumn} :
    overlay pre (dropAction N) (indexedStage t O N) n = some col ↔
      settledColumns t O N n = some col ∨
        (n ∉ N.map (·.column) ∧ n ∉ pre.map (·.column) ∧ createdColumns t O n = some col) := by
  cases hnew : findColumn n N with
  | some c =>
    have hin : n ∈ N.map (·.column) := by
      obtain ⟨hmem, rfl⟩ := findColumn_some hnew
      exact mem_map_of_mem hmem
    have hstage : overlay pre (dropAction N) (indexedStage t O N) n = some (settled t O c) := by
      unfold overlay
      split
      · next o ho =>
        obtain ⟨-, rfl⟩ := findColumn_some ho
        simp only [dropAction, containsColumn_eq_isSome, hnew, isSome_some, if_true]
        exact indexedStage_of_mem hnew
      · exact indexedStage_of_mem hnew
    simp only [hstage, settledColumns, hnew, map_some, hin, not_true_eq_false, false_and,
      or_false]
  | none =>
    have hout := findColumn_eq_none_iff.mp hnew
    simp only [settledColumns, hnew, map_none, reduceCtorEq, false_or, hout,
      not_false_eq_true, true_and]
    unfold overlay
    split
    · next o ho =>
      obtain ⟨hmem, rfl⟩ := findColumn_some ho
      have hin : o.column ∈ pre.map (·.column) := mem_map_of_mem hmem
      simp [dropAction, containsColumn_eq_isSome, hnew, hin]
    · next hnone =>
      rw [indexedStage_of_notMem hnew]
      simp only [findColumn_eq_none_iff.mp hnone, not_false_eq_true, true_and]

include hO in
theorem runs_drops_iff :
    (db.setTable t (indexedStage t O N)).Runs (droppedColumns t N O) ↔
      DropsUnreferenced (db.setTable t (settledColumns t O N)) t O N := by
  rw [droppedColumns_eq, runs_flatMap]
  have hstate {pre post : List ColumnSchema} {o : ColumnSchema} (hsplit : O = pre ++ o :: post) :
      (db.setTable t (indexedStage t O N)).after (pre.flatMap (dropOps t N)) =
        db.setTable t (overlay pre (dropAction N) (indexedStage t O N)) := by
    rw [← droppedColumns_eq]
    exact after_drops (nodup_pre hO hsplit) _
  have hcreated {o : ColumnSchema} (ho : o ∈ O) :
      createdColumns t O o.column = some (o.created t) := by
    rw [createdColumns, findColumn_eq, find?_key_of_mem hO ho]
    rfl
  constructor
  · intro h pre o post hsplit hdropped
    have hruns := h pre o post hsplit
    rw [hstate hsplit, dropOps, if_neg (by rwa [containsColumn_iff])] at hruns
    obtain ⟨⟨-, hrefs⟩, -⟩ := hruns
    refine ⟨?_, ?_⟩
    · intro t' n col hcol
      by_cases ht : t' = t
      · subst ht
        rw [setTable_column_self] at hcol
        refine hrefs t' n col ?_ ?_
        · rw [setTable_column_self]
          exact overlay_drop_eq_some.mpr (Or.inl hcol)
        · rintro heq
          obtain ⟨-, rfl⟩ := Prod.mk.inj heq
          simp [settledColumns, findColumn_eq_none_iff.mpr hdropped] at hcol
      · rw [setTable_column_of_ne _ ht] at hcol
        refine hrefs t' n col ?_ ?_
        · rw [setTable_column_of_ne _ ht]
          exact hcol
        · exact fun heq => ht (Prod.mk.inj heq).1
    · intro o' ho' hdropped'
      have hnodup := hO
      rw [hsplit, map_append, map_cons, nodup_append] at hnodup
      obtain ⟨-, htail, hdisj⟩ := hnodup
      have hmem' : o'.column ∈ post.map (·.column) := mem_map_of_mem ho'
      refine hrefs t o'.column (o'.created t) ?_ ?_
      · rw [setTable_column_self]
        refine overlay_drop_eq_some.mpr (Or.inr ⟨hdropped', ?_, hcreated (by simp [hsplit, ho'])⟩)
        exact fun hin => hdisj _ hin _ (mem_cons_of_mem _ hmem') rfl
      · intro heq
        obtain ⟨-, heq⟩ := Prod.mk.inj heq
        exact (nodup_cons.mp htail).1 (heq ▸ hmem')
  · intro h pre o post hsplit
    rw [hstate hsplit]
    unfold dropOps
    split
    · exact runs_nil _
    next hdropped =>
    rw [containsColumn_iff] at hdropped
    obtain ⟨hsettled, hpost⟩ := h pre o post hsplit hdropped
    refine ⟨⟨?_, ?_⟩, runs_nil _⟩
    · rw [setTable_column_self, overlay_split hO hsplit,
        indexedStage_of_notMem (findColumn_eq_none_iff.mpr hdropped), hcreated (by simp [hsplit])]
      rfl
    · intro t' n col hcol hne
      by_cases ht : t' = t
      · subst ht
        rw [setTable_column_self, overlay_drop_eq_some] at hcol
        rcases hcol with hcol | ⟨hn, hpre, hcol⟩
        · exact hsettled t' n col (by rwa [setTable_column_self])
        · obtain ⟨o', ho', rfl⟩ := map_eq_some_iff.mp hcol
          obtain ⟨hmem, rfl⟩ := findColumn_some ho'
          rw [hsplit, mem_append, mem_cons] at hmem
          rcases hmem with hmem | rfl | hmem
          · exact absurd (mem_map_of_mem hmem) hpre
          · exact absurd rfl hne
          · exact hpost o' hmem hn
      · rw [setTable_column_of_ne _ ht] at hcol
        exact hsettled t' n col (by rwa [setTable_column_of_ne _ ht])

end Runs

/-! ## The whole of a table's changes -/

/-- The column changes of a table are all taken exactly when its added columns reference what is
there, its new indexes have free names and nothing points at what it drops; and then they leave
the columns of the new schema. -/
theorem columnDiff_spec {db : Db} {old new : EntitySchema}
    (hO : (old.columns.map (·.column)).Nodup) (hN : (new.columns.map (·.column)).Nodup)
    (htable : db.table new.table = true)
    (hcols : db.column new.table = createdColumns new.table old.columns)
    (hunique : db.UniqueIndexes) :
    (db.Runs (columnDiff old new) ↔
      AddsResolve db new.table old.columns new.columns ∧
      IndexNamesFree db new.table old.columns new.columns ∧
      DropsUnreferenced (db.setTable new.table
        (settledColumns new.table old.columns new.columns)) new.table old.columns new.columns) ∧
    (db.Runs (columnDiff old new) →
      db.after (columnDiff old new) =
        db.setTable new.table (settledColumns new.table old.columns new.columns)) := by
  generalize ht : new.table = t at *
  generalize hO' : old.columns = O at *
  generalize hN' : new.columns = N at *
  have hdb : db = db.setTable t (createdColumns t O) := by rw [← hcols, setTable_self]
  have hadds : db.after (addedColumns t O N) =
      db.setTable t (overlay N (addAction O) (createdColumns t O)) := by
    conv_lhs => rw [hdb]
    exact after_adds hN _
  have halters : (db.after (addedColumns t O N)).after (alteredColumns t O N) =
      db.setTable t (alteredStage t O N) := by
    rw [hadds]
    exact after_alters hN _
  have hindexes : ((db.after (addedColumns t O N)).after (alteredColumns t O N)).after
      (createdIndexes t O N) =
        db.setTable t (overlay N (indexAction t O) (alteredStage t O N)) := by
    rw [halters]
    exact after_indexes hN _
  have hrunsAdds : db.Runs (addedColumns t O N) ↔ AddsResolve db t O N := by
    rw [hdb]
    exact runs_adds_iff hN htable
  have hrunsAlters : (db.after (addedColumns t O N)).Runs (alteredColumns t O N) := by
    rw [hadds]
    exact runs_alters hN htable
  have hrunsIndexes : ((db.after (addedColumns t O N)).after (alteredColumns t O N)).Runs
      (createdIndexes t O N) ↔ IndexNamesFree db t O N := by
    rw [halters]
    exact runs_indexes_iff hN
  -- the two halves of the passes meet where the names are known to be unique
  have hunindexes (hruns : db.Runs (addedColumns t O N)) (hruns' : IndexNamesFree db t O N) :
      (((db.after (addedColumns t O N)).after (alteredColumns t O N)).after
        (createdIndexes t O N)).after (droppedIndexes t N O) =
          db.setTable t (indexedStage t O N) := by
    have hunique' := runs_uniqueIndexes (runs_uniqueIndexes
      (runs_uniqueIndexes hunique hruns) hrunsAlters) (hrunsIndexes.mpr hruns')
    rw [hindexes] at hunique' ⊢
    rw [droppedIndexes_eq]
    exact after_overlay (Conventional t)
      (fun o ho f hf => after_unindexOps hf (unindexes_only_own hO hunique' o ho)) hO
      (alteredStage_conventional.overlay_index N)
  have hdiff : columnDiff old new = addedColumns t O N ++ (alteredColumns t O N ++
      (createdIndexes t O N ++ (droppedIndexes t N O ++ droppedColumns t N O))) := by
    rw [columnDiff, ht, hO', hN']
  have hiff : db.Runs (columnDiff old new) ↔
      AddsResolve db t O N ∧ IndexNamesFree db t O N ∧
        DropsUnreferenced (db.setTable t (settledColumns t O N)) t O N := by
    rw [hdiff, runs_append, runs_append, runs_append, runs_append, hrunsIndexes]
    constructor
    · rintro ⟨h₁, -, h₃, -, h₅⟩
      rw [hunindexes h₁ h₃] at h₅
      exact ⟨hrunsAdds.mp h₁, h₃, (runs_drops_iff hO).mp h₅⟩
    · rintro ⟨h₁, h₃, h₅⟩
      have h₁' := hrunsAdds.mpr h₁
      refine ⟨h₁', hrunsAlters, h₃, runs_unindexes _, ?_⟩
      rw [hunindexes h₁' h₃]
      exact (runs_drops_iff hO).mpr h₅
  refine ⟨hiff, fun hruns => ?_⟩
  obtain ⟨h₁, h₃, -⟩ := hiff.mp hruns
  rw [hdiff, after_append, after_append, after_append, after_append,
    hunindexes (hrunsAdds.mpr h₁) h₃, after_drops hO, settledColumns_eq]

end

end Ridge
