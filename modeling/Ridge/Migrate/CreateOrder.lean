import Ridge.Lib.Acyclic
import Ridge.Migrate.Diff

/-!
# std.migrate — the order of the created tables

`orderByForeignKey` reorders the created tables and changes nothing else (`emitReady_perm`). When
the foreign keys among them have no cycle, some table is always ready, so every table comes after
the created tables it references (`orderByForeignKey_ordered`). The argument needs no more than a
height that drops along the keys: the lowest of the remaining tables is ready.
-/

namespace Ridge

open List

variable {s : EntitySchema} {names : List String} {schemas : Snapshot}

/-! ## The scans -/

theorem tableNamesOf_eq_map (schemas : Snapshot) :
    tableNamesOf schemas = schemas.map (·.table) := by
  induction schemas with
  | nil => rfl
  | cons s rest ih => simp [tableNamesOf, ih]

theorem newSchemas_eq_filter (prev next : Snapshot) :
    newSchemas prev next = next.filter fun s => !containsTable s.table prev := by
  induction next with
  | nil => rfl
  | cons s rest ih =>
    unfold newSchemas
    split <;> simp_all

theorem mem_newSchemas {prev next : Snapshot} :
    s ∈ newSchemas prev next ↔ s ∈ next ∧ s.table ∉ prev.map (·.table) := by
  rw [newSchemas_eq_filter, mem_filter, Bool.not_eq_true', ← Bool.not_eq_true,
    containsTable_iff]

theorem mem_columnTargets {t : String} {cols : List ColumnSchema} :
    t ∈ columnTargets cols ↔ ∃ c ∈ cols, ∃ fk, c.foreignKey = some fk ∧ fk.table = t := by
  induction cols with
  | nil => simp [columnTargets]
  | cons c rest ih =>
    unfold columnTargets
    split
    · next h => simp [h, ih]
    · next fk h => simp [h, ih, eq_comm]

theorem mem_keepTargets {t self : String} {targets : List String} :
    t ∈ keepTargets names self targets ↔ t ∈ targets ∧ t ≠ self ∧ t ∈ names := by
  induction targets with
  | nil => simp [keepTargets]
  | cons x rest ih =>
    unfold keepTargets
    split
    · next h =>
      rw [ih, mem_cons]
      constructor
      · rintro ⟨hmem, hrest⟩
        exact ⟨.inr hmem, hrest⟩
      · rintro ⟨rfl | hmem, hne, hnames⟩
        · exact absurd h hne
        · exact ⟨hmem, hne, hnames⟩
    · next h =>
      split
      · next hin =>
        rw [mem_cons, ih, mem_cons]
        constructor
        · rintro (rfl | ⟨hmem, hrest⟩)
          · exact ⟨.inl rfl, h, listContainsText_iff.mp hin⟩
          · exact ⟨.inr hmem, hrest⟩
        · rintro ⟨rfl | hmem, hrest⟩
          · exact .inl rfl
          · exact .inr ⟨hmem, hrest⟩
      · next hout =>
        rw [ih, mem_cons]
        constructor
        · rintro ⟨hmem, hrest⟩
          exact ⟨.inr hmem, hrest⟩
        · rintro ⟨rfl | hmem, hne, hnames⟩
          · exact absurd (listContainsText_iff.mpr hnames) hout
          · exact ⟨hmem, hne, hnames⟩

theorem allIn_iff {pool : List String} : allIn pool names = true ↔ ∀ n ∈ names, n ∈ pool := by
  induction names with
  | nil => simp [allIn]
  | cons n rest ih =>
    unfold allIn
    split
    · next h => simp [ih, listContainsText_iff.mp h]
    · next h =>
      rw [listContainsText_iff] at h
      simp [h]

variable {placed : List String}

theorem pickReady_some (h : pickReady names placed schemas = some s) :
    ∀ t ∈ foreignKeyTargetsInSet s names, t ∈ placed := by
  induction schemas with
  | nil => cases h
  | cons s' rest ih =>
    unfold pickReady at h
    split at h
    · next hready =>
      cases h
      exact allIn_iff.mp hready
    · exact ih h

theorem pickReady_none (h : pickReady names placed schemas = none) (hs : s ∈ schemas) :
    ∃ t ∈ foreignKeyTargetsInSet s names, t ∉ placed := by
  induction schemas with
  | nil => cases hs
  | cons s' rest ih =>
    unfold pickReady at h
    split at h
    · cases h
    · next hready =>
      rcases mem_cons.mp hs with rfl | hs
      · by_contra hall
        push Not at hall
        exact hready (allIn_iff.mpr hall)
      · exact ih h hs

/-! ## The order is a reordering -/

theorem removeSchema_perm (hnodup : (schemas.map (·.table)).Nodup) (hs : s ∈ schemas) :
    schemas.Perm (s :: removeSchema s.table schemas) := by
  induction schemas with
  | nil => cases hs
  | cons s' rest ih =>
    unfold removeSchema
    split
    · next h =>
      obtain rfl : s' = s := eq_of_key_eq hnodup mem_cons_self hs h
      exact List.Perm.refl _
    · next h =>
      rcases mem_cons.mp hs with rfl | hs
      · exact absurd rfl h
      · exact ((ih (nodup_cons.mp hnodup).2 hs).cons s').trans (List.Perm.swap s s' _)

theorem emitReady_perm (names : List String) (remaining : Snapshot) (placed : List String)
    (hnodup : (remaining.map (·.table)).Nodup) :
    (emitReady names remaining placed).Perm remaining := by
  induction remaining, placed using emitReady.induct names with
  | case1 placed => simp [emitReady]
  | case2 placed h rest s hpick ih =>
    have hperm := removeSchema_perm hnodup (pickReady_mem hpick)
    have hrest : ((removeSchema s.table (h :: rest)).map (·.table)).Nodup :=
      (nodup_cons.mp ((hperm.map (·.table)).nodup_iff.mp hnodup)).2
    unfold emitReady
    split
    · next s' hpick' =>
      obtain rfl : s = s' := Option.some.inj (hpick.symm.trans hpick')
      exact ((ih hrest).cons s).trans hperm.symm
    · next hpick' => rw [hpick] at hpick'; cases hpick'
  | case3 placed h rest hpick ih =>
    unfold emitReady
    split
    · next s' hpick' => rw [hpick] at hpick'; cases hpick'
    · exact (ih (nodup_cons.mp hnodup).2).cons h

/-! ## The order respects the keys -/

/-- The lowest of some tables is not above another of them. -/
theorem exists_lowest (height : String → Nat) (h : schemas ≠ []) :
    ∃ s ∈ schemas, ∀ s' ∈ schemas, height s.table ≤ height s'.table := by
  induction schemas with
  | nil => exact absurd rfl h
  | cons s rest ih =>
    by_cases hrest : rest = []
    · exact ⟨s, mem_cons_self, by simp [hrest]⟩
    · obtain ⟨s₀, hs₀, hlow⟩ := ih hrest
      rcases Nat.le_total (height s.table) (height s₀.table) with hle | hle
      · refine ⟨s, mem_cons_self, fun s' hs' => ?_⟩
        rcases mem_cons.mp hs' with rfl | hs'
        · exact Nat.le_refl _
        · exact Nat.le_trans hle (hlow s' hs')
      · refine ⟨s₀, mem_cons_of_mem _ hs₀, fun s' hs' => ?_⟩
        rcases mem_cons.mp hs' with rfl | hs'
        · exact hle
        · exact hlow s' hs'

theorem pickReady_isSome (height : String → Nat) {remaining : Snapshot} (hne : remaining ≠ [])
    (hdrop : ∀ s ∈ remaining, ∀ t ∈ foreignKeyTargetsInSet s names, height t < height s.table)
    (hcover : ∀ t ∈ names, t ∈ placed ∨ t ∈ remaining.map (·.table)) :
    pickReady names placed remaining ≠ none := by
  intro hnone
  obtain ⟨s, hs, hlow⟩ := exists_lowest height hne
  obtain ⟨t, ht, hout⟩ := pickReady_none hnone hs
  have htnames : t ∈ names := (mem_keepTargets.mp ht).2.2
  rcases hcover t htnames with hin | hin
  · exact hout hin
  · obtain ⟨s', hs', rfl⟩ := mem_map.mp hin
    exact absurd (hdrop s hs _ ht) (Nat.not_lt.mpr (hlow s' hs'))

variable {pre post : Snapshot}

theorem emitReady_ordered (height : String → Nat) (names : List String) (remaining : Snapshot)
    (placed : List String) (hnodup : (remaining.map (·.table)).Nodup)
    (hdrop : ∀ s ∈ remaining, ∀ t ∈ foreignKeyTargetsInSet s names, height t < height s.table)
    (hcover : ∀ t ∈ names, t ∈ placed ∨ t ∈ remaining.map (·.table))
    (hsplit : emitReady names remaining placed = pre ++ s :: post) :
    ∀ t ∈ foreignKeyTargetsInSet s names, t ∈ placed ∨ t ∈ pre.map (·.table) := by
  induction remaining, placed using emitReady.induct names generalizing pre with
  | case1 placed => simp [emitReady] at hsplit
  | case2 placed h rest s₀ hpick ih =>
    have hperm := removeSchema_perm hnodup (pickReady_mem hpick)
    have hrest : ((removeSchema s₀.table (h :: rest)).map (·.table)).Nodup :=
      (nodup_cons.mp ((hperm.map (·.table)).nodup_iff.mp hnodup)).2
    unfold emitReady at hsplit
    split at hsplit
    · next s' hpick' =>
      obtain rfl : s₀ = s' := Option.some.inj (hpick.symm.trans hpick')
      cases pre with
      | nil =>
        obtain ⟨rfl, -⟩ := cons.inj hsplit
        intro t ht
        exact .inl (pickReady_some hpick t ht)
      | cons s₁ pre =>
        obtain ⟨rfl, htail⟩ := cons.inj hsplit
        have hmem (s' : EntitySchema) (hs' : s' ∈ removeSchema s₀.table (h :: rest)) :
            s' ∈ h :: rest := hperm.mem_iff.mpr (mem_cons_of_mem _ hs')
        have hcover' : ∀ t ∈ names, t ∈ s₀.table :: placed ∨
            t ∈ (removeSchema s₀.table (h :: rest)).map (·.table) := by
          intro t ht
          rcases hcover t ht with hin | hin
          · exact .inl (mem_cons_of_mem _ hin)
          · rw [(hperm.map (·.table)).mem_iff, map_cons, mem_cons] at hin
            rcases hin with rfl | hin
            · exact .inl mem_cons_self
            · exact .inr hin
        intro t ht
        rcases ih hrest (fun s' hs' => hdrop s' (hmem s' hs')) hcover' htail t ht with hin | hin
        · rcases mem_cons.mp hin with rfl | hin
          · exact .inr mem_cons_self
          · exact .inl hin
        · exact .inr (mem_cons_of_mem _ hin)
    · next hpick' => rw [hpick] at hpick'; cases hpick'
  | case3 placed h rest hpick ih =>
    exact absurd hpick (pickReady_isSome height (cons_ne_nil _ _) hdrop hcover)

/-- The foreign keys among the tables of a snapshot, but for a table's own. -/
def InSetReference (schemas : Snapshot) (t t' : String) : Prop :=
  t ≠ t' ∧ t' ∈ schemas.map (·.table) ∧
    ∃ s ∈ schemas, s.table = t ∧ ∃ c ∈ s.columns, ∃ fk, c.foreignKey = some fk ∧ fk.table = t'

theorem orderByForeignKey_perm (hnodup : (schemas.map (·.table)).Nodup) :
    (orderByForeignKey schemas).Perm schemas :=
  emitReady_perm _ _ _ hnodup

/-- Without a cycle of foreign keys, every table comes after those it references. -/
theorem orderByForeignKey_ordered (hnodup : (schemas.map (·.table)).Nodup)
    (hacyclic : Acyclic (InSetReference schemas))
    (hsplit : orderByForeignKey schemas = pre ++ s :: post) {c : ColumnSchema} (hc : c ∈ s.columns)
    {fk : ForeignKey} (hfk : c.foreignKey = some fk) (hin : fk.table ∈ schemas.map (·.table)) :
    fk.table = s.table ∨ fk.table ∈ pre.map (·.table) := by
  by_cases hself : fk.table = s.table
  · exact .inl hself
  have hsources : ∀ t t', InSetReference schemas t t' → t ∈ (schemas.map (·.table)).toFinset := by
    rintro t t' ⟨-, -, s', hs', rfl, -⟩
    exact mem_toFinset.mpr (mem_map_of_mem hs')
  obtain ⟨height, hheight⟩ := hacyclic.exists_height _ hsources
  have hdrop : ∀ s ∈ schemas, ∀ t ∈ foreignKeyTargetsInSet s (tableNamesOf schemas),
      height t < height s.table := by
    intro s hs t ht
    obtain ⟨htarget, hne, hnames⟩ := mem_keepTargets.mp ht
    rw [tableNamesOf_eq_map] at hnames
    exact hheight _ _ ⟨hne.symm, hnames, s, hs, rfl, mem_columnTargets.mp htarget⟩
  have hcover : ∀ t ∈ tableNamesOf schemas, t ∈ ([] : List String) ∨
      t ∈ schemas.map (·.table) := by
    intro t ht
    rw [tableNamesOf_eq_map] at ht
    exact .inr ht
  have htarget : fk.table ∈ foreignKeyTargetsInSet s (tableNamesOf schemas) := by
    refine mem_keepTargets.mpr ⟨mem_columnTargets.mpr ⟨c, hc, fk, hfk, rfl⟩, hself, ?_⟩
    rw [tableNamesOf_eq_map]
    exact hin
  rcases emitReady_ordered height _ schemas [] hnodup hdrop hcover hsplit _ htarget with h | h
  · cases h
  · exact .inr h

end Ridge
