import Ridge.Versions.Edges

/-!
# Plans act on shapes

A plan does to the fields of a value what it does to the fields of a shape, so a derived edge can be
read off the two shapes it was derived from.
-/

namespace Ridge.Versions

open List

variable {V : Type} {old new own : Shape} {p : MigrationPlan} {k t : String}

/-! ## Lookups -/

theorem Shape.lookup_isSome (S : Shape) (k : String) : (S.lookup k).isSome = S.has k := by
  induction S with
  | nil => rfl
  | cons f S ih =>
    obtain ⟨a, b⟩ := f
    rw [lookup_cons, Shape.has, List.any_cons]
    by_cases hka : k = a
    · subst hka
      simp
    · rw [beq_eq_false_iff_ne.mpr hka, decide_eq_false (Ne.symm hka), Bool.false_or]
      exact ih

variable {S : Shape}

theorem Shape.lookup_eq_none : S.lookup k = none ↔ S.has k = false := by
  rw [← S.lookup_isSome]
  cases S.lookup k <;> simp

theorem Shape.mem_of_lookup (h : S.lookup k = some t) : (k, t) ∈ S := by
  induction S with
  | nil => cases h
  | cons f S ih =>
    obtain ⟨a, b⟩ := f
    rw [lookup_cons] at h
    by_cases hka : k = a
    · rw [beq_iff_eq.mpr hka] at h
      cases h
      rw [hka]
      exact mem_cons_self
    · rw [beq_eq_false_iff_ne.mpr hka] at h
      exact mem_cons_of_mem _ (ih h)

theorem Shape.has_of_mem (h : (k, t) ∈ S) : S.has k = true :=
  any_eq_true.mpr ⟨(k, t), h, by simp⟩

theorem Shape.exists_of_has (h : S.has k = true) : ∃ t, S.lookup k = some t := by
  rw [← S.lookup_isSome] at h
  exact Option.isSome_iff_exists.mp h

/-- With names of their own, a field is found under its name. -/
theorem Shape.lookup_of_mem (hnodup : (S.map Prod.fst).Nodup) (h : (k, t) ∈ S) :
    S.lookup k = some t := by
  induction S with
  | nil => cases h
  | cons f S ih =>
    obtain ⟨a, b⟩ := f
    rw [map_cons, nodup_cons] at hnodup
    rw [lookup_cons]
    rcases mem_cons.mp h with heq | hmem
    · cases heq
      rw [beq_self_eq_true]
    · have hka : k ≠ a := fun hka =>
        hnodup.1 (mem_map.mpr ⟨(k, t), hmem, hka⟩)
      rw [beq_eq_false_iff_ne.mpr hka]
      exact ih hnodup.2 hmem

/-! ## What a plan says of its shapes -/

/-- The fields of `old` that `new` does not have. -/
def lost (old new : Shape) : Shape := old.filter fun f => !new.has f.1

theorem mem_lost {f : String × String} : f ∈ lost old new ↔ f ∈ old ∧ new.has f.1 = false := by
  rw [lost, mem_filter, Bool.not_eq_true']

/-- Fields of one name have one type. -/
def Agree (old new : Shape) : Prop := ∀ f ∈ old, ∀ g ∈ new, g.1 = f.1 → g.2 = f.2

theorem derivePlan_eq_some :
    derivePlan old new = some p ↔ Agree old new ∧
      ((lost old new = [] ∧ lost new old = [] ∧ p = ⟨[], []⟩) ∨
        (∃ f, lost old new = [f] ∧ lost new old = [] ∧ p = ⟨[], [f.1]⟩) ∨
        ∃ f g, lost old new = [f] ∧ lost new old = [g] ∧ f.2 = g.2 ∧ p = ⟨[(f.1, g.1)], []⟩) := by
  unfold derivePlan
  by_cases hretyped : (old.any fun f => new.any fun g => g.1 = f.1 ∧ g.2 ≠ f.2) = true
  · rw [if_pos hretyped]
    refine iff_of_false (by simp) fun h => ?_
    obtain ⟨f, hf, hg⟩ := any_eq_true.mp hretyped
    obtain ⟨g, hg, hne⟩ := any_eq_true.mp hg
    simp only [decide_eq_true_eq] at hne
    exact hne.2 (h.1 f hf g hg hne.1)
  · rw [if_neg hretyped]
    have hagree : Agree old new := by
      intro f hf g hg hname
      by_contra hne
      refine hretyped (any_eq_true.mpr ⟨f, hf, any_eq_true.mpr ⟨g, hg, ?_⟩⟩)
      simp only [decide_eq_true_eq]
      exact ⟨hname, hne⟩
    rw [and_iff_right hagree, lost, lost]
    generalize (old.filter fun f => !new.has f.1) = ls
    generalize (new.filter fun f => !old.has f.1) = ms
    rcases ls with _ | ⟨⟨on, ot⟩, _ | ⟨_, _⟩⟩
    · cases ms <;> simp [eq_comm]
    · rcases ms with _ | ⟨⟨nn, nt⟩, _ | ⟨_, _⟩⟩
      · simp [eq_comm]
      · by_cases htypes : ot = nt
        · simp [htypes, eq_comm]
        · simp [htypes]
      · simp
    · cases ms <;> simp

/-- A field that both shapes have is found with one type. -/
theorem lookup_kept (hagree : Agree old new) (hold : old.lookup k = some t)
    (hnew : new.has k = true) : new.lookup k = some t := by
  obtain ⟨t', ht'⟩ := Shape.exists_of_has hnew
  have heq : t' = t := hagree _ (Shape.mem_of_lookup hold) _ (Shape.mem_of_lookup ht') rfl
  rw [ht', heq]

/-- Apart from lost fields, the two shapes are the same. -/
theorem lookup_eq (hagree : Agree old new) (hlost : ∀ t, (k, t) ∉ lost old new)
    (hadded : ∀ t, (k, t) ∉ lost new old) : old.lookup k = new.lookup k := by
  cases hold : old.lookup k with
  | some t =>
    cases hnew : new.has k with
    | true => exact (lookup_kept hagree hold hnew).symm
    | false => exact absurd (mem_lost.mpr ⟨Shape.mem_of_lookup hold, hnew⟩) (hlost t)
  | none =>
    cases hnew : new.lookup k with
    | none => rfl
    | some t =>
      refine absurd (mem_lost.mpr ⟨Shape.mem_of_lookup hnew, ?_⟩) (hadded t)
      exact Shape.lookup_eq_none.mp hold

theorem apply_lookup (h : derivePlan old new = some p) :
    p.apply (fun k => old.lookup k) = fun k => new.lookup k := by
  obtain ⟨hagree, ⟨hlost, hadded, rfl⟩ | ⟨f, hlost, hadded, rfl⟩ |
    ⟨f, g, hlost, hadded, htypes, rfl⟩⟩ := derivePlan_eq_some.mp h
  · funext k
    show (if k ∈ [] then none else old.lookup k) = new.lookup k
    rw [if_neg not_mem_nil]
    exact lookup_eq hagree (by simp [hlost]) (by simp [hadded])
  · funext k
    show (if k ∈ [f.1] then none else old.lookup k) = new.lookup k
    have hf := mem_lost.mp (hlost ▸ mem_singleton_self f)
    by_cases hk : k = f.1
    · rw [if_pos (mem_singleton.mpr hk), hk, Shape.lookup_eq_none.mpr hf.2]
    · rw [if_neg (mt mem_singleton.mp hk)]
      refine lookup_eq hagree (fun t ht => ?_) (by simp [hadded])
      rw [hlost, mem_singleton] at ht
      exact hk (congrArg Prod.fst ht)
  · have hf := mem_lost.mp (hlost ▸ mem_singleton_self f)
    have hg := mem_lost.mp (hadded ▸ mem_singleton_self g)
    -- the renamed field is the only one that was lost, so its type is the one of the new field
    have hrenamed : old.lookup f.1 = some g.2 := by
      obtain ⟨t, ht⟩ := Shape.exists_of_has (Shape.has_of_mem hf.1)
      have hmem := mem_lost.mpr ⟨Shape.mem_of_lookup ht, hf.2⟩
      rw [hlost, mem_singleton] at hmem
      rw [ht, ← htypes, ← hmem]
    have hfound : new.lookup g.1 = some g.2 := by
      obtain ⟨t, ht⟩ := Shape.exists_of_has (Shape.has_of_mem hg.1)
      have hmem := mem_lost.mpr ⟨Shape.mem_of_lookup ht, hg.2⟩
      rw [hadded, mem_singleton] at hmem
      rw [ht, ← hmem]
    funext k
    show MigrationPlan.rename (fun k => if k ∈ [] then none else old.lookup k) (f.1, g.1) k = _
    have hnone : (fun k => if k ∈ ([] : List String) then none else old.lookup k) =
        fun k => old.lookup k := by
      funext k
      rw [if_neg not_mem_nil]
    rw [hnone, MigrationPlan.rename, hrenamed]
    show (if k = g.1 then some g.2 else if k = f.1 then none else old.lookup k) = new.lookup k
    by_cases hkg : k = g.1
    · rw [if_pos hkg, hkg, hfound]
    · rw [if_neg hkg]
      by_cases hkf : k = f.1
      · rw [if_pos hkf, hkf, Shape.lookup_eq_none.mpr hf.2]
      · rw [if_neg hkf]
        refine lookup_eq hagree (fun t ht => ?_) (fun t ht => ?_)
        · rw [hlost, mem_singleton] at ht
          exact hkf (congrArg Prod.fst ht)
        · rw [hadded, mem_singleton] at ht
          exact hkg (congrArg Prod.fst ht)

/-! ## Values -/

variable {R : String → V → Prop}

theorem rename_rel {f : String → Option String} {g : String → Option V} (r : String × String)
    (h : ∀ k, Option.Rel R (f k) (g k)) (k : String) :
    Option.Rel R (MigrationPlan.rename f r k) (MigrationPlan.rename g r k) := by
  unfold MigrationPlan.rename
  have hr := h r.1
  match hf : f r.1, hg : g r.1 with
  | none, none => exact h k
  | some t, some v =>
    dsimp only
    rw [hf, hg] at hr
    split
    · exact hr
    · split
      · exact .none
      · exact h k
  | none, some v | some t, none =>
    rw [hf, hg] at hr
    cases hr

theorem foldl_rename_rel (rs : List (String × String)) :
    ∀ {f : String → Option String} {g : String → Option V}, (∀ k, Option.Rel R (f k) (g k)) →
      ∀ k, Option.Rel R (rs.foldl MigrationPlan.rename f k) (rs.foldl MigrationPlan.rename g k) := by
  induction rs with
  | nil => exact fun h => h
  | cons r rs ih => exact fun h => ih (rename_rel r h)

/-- A derived edge turns values of the old shape into values of the new one. -/
theorem derivePlan_sound {inhabits : String → V → Prop} {fields : String → Option V}
    (h : derivePlan old new = some p) (hfields : HasShape inhabits old fields) :
    HasShape inhabits new (p.apply fields) := by
  intro k
  -- the plan does to the values what it does to their types
  have hk : Option.Rel inhabits (p.apply (fun k => old.lookup k) k) (p.apply fields k) := by
    refine foldl_rename_rel p.renames (fun k => ?_) k
    by_cases hk : k ∈ p.removed
    · rw [if_pos hk, if_pos hk]
      exact .none
    · rw [if_neg hk, if_neg hk]
      exact hfields k
  rw [apply_lookup h] at hk
  exact hk

/-! ## Which shapes have the plan -/

/-- Only the fields of the new shape matter to a plan, where each is declared once. -/
theorem derivePlan_congr (hnodup : (own.map Prod.fst).Nodup)
    (hsame : ∀ k, own.lookup k = new.lookup k) (h : derivePlan old new = some p) :
    derivePlan old own = some p := by
  have hhas : ∀ k, own.has k = new.has k := fun k => by
    rw [← own.lookup_isSome, ← new.lookup_isSome, hsame k]
  have hmem : ∀ k t, (k, t) ∈ own → (k, t) ∈ new := fun k t hkt =>
    Shape.mem_of_lookup ((hsame k) ▸ Shape.lookup_of_mem hnodup hkt)
  obtain ⟨hagree, hcases⟩ := derivePlan_eq_some.mp h
  have hlost : lost old own = lost old new := by
    unfold lost
    exact filter_congr fun f _ => by rw [hhas]
  have hadded : ∀ f ∈ lost own old, f ∈ lost new old := fun f hf =>
    mem_lost.mpr ⟨hmem _ _ (mem_lost.mp hf).1, (mem_lost.mp hf).2⟩
  refine derivePlan_eq_some.mpr ⟨fun f hf g hg => hagree f hf g (hmem _ _ hg), ?_⟩
  rw [hlost]
  -- an added field of the new shape is an added field of its own one
  have hone : ∀ g, lost new old = [g] → lost own old = [g] := by
    intro g hg
    have hsub : ∀ f ∈ lost own old, f = g := fun f hf => by
      have := hadded f hf
      rw [hg, mem_singleton] at this
      exact this
    have hgmem := mem_lost.mp (hg ▸ mem_singleton_self g)
    obtain ⟨t, ht⟩ := Shape.exists_of_has ((hhas g.1).trans (Shape.has_of_mem hgmem.1))
    have hin : (g.1, t) ∈ lost own old := mem_lost.mpr ⟨Shape.mem_of_lookup ht, hgmem.2⟩
    have hnd : (lost own old).Nodup := (List.Nodup.of_map _ hnodup).filter _
    match hl : lost own old, hsub, hin, hnd with
    | [f], hsub, _, _ => rw [hsub f mem_cons_self]
    | f :: f' :: rest, hsub, _, hnd =>
      have heq : f = f' := (hsub f mem_cons_self).trans
        (hsub f' (mem_cons_of_mem _ mem_cons_self)).symm
      subst heq
      exact absurd mem_cons_self (nodup_cons.mp hnd).1
  rcases hcases with ⟨ho, hn, hp⟩ | ⟨f, ho, hn, hp⟩ | ⟨f, g, ho, hn, htypes, hp⟩
  · refine .inl ⟨ho, eq_nil_iff_forall_not_mem.mpr fun f hf => ?_, hp⟩
    have := hadded f hf
    rw [hn] at this
    cases this
  · refine .inr (.inl ⟨f, ho, eq_nil_iff_forall_not_mem.mpr fun f hf => ?_, hp⟩)
    have := hadded f hf
    rw [hn] at this
    cases this
  · exact .inr (.inr ⟨f, g, ho, hone g hn, htypes, hp⟩)

/-!
## Which edge is found

The runtime takes the first edge of a hash. The loops that fill the list keep track of what is
covered; what the first edge of a hash is can be said without them.
-/

open Option

/-- The edge of a record at `h`, of its plan. -/
def derivedEdge (rm : RecordMeta) (h : Hash) (p : MigrationPlan) : Edge :=
  ⟨h, rm.name, .derived p rm⟩

namespace Workspace

variable {W : Workspace} {m : Nat} {rm : RecordMeta} {current : Shape} {h : Hash}

/-! ## One record -/

theorem firstPlan_cons (e : VersionEntry) (es : List VersionEntry) :
    firstPlan rm current h (e :: es) =
      (if e.hash = h ∧ h ≠ rm.version then derivePlan e.shape current else none).or
        (firstPlan rm current h es) := by
  unfold firstPlan
  rw [findSome?_cons]
  cases if e.hash = h ∧ h ≠ rm.version then derivePlan e.shape current else none <;> rfl

/-- What `deriveEntries` has at a hash that was not covered, and what it covers. -/
theorem deriveEntries_spec (es : List VersionEntry) (covered : List Hash) :
    ((deriveEntries rm current es covered).1.find? fun e => e.hash = h) =
        (if h ∈ covered then none else (firstPlan rm current h es).map (derivedEdge rm h)) ∧
      (h ∈ (deriveEntries rm current es covered).2 ↔
        h ∈ covered ∨ (firstPlan rm current h es).isSome) := by
  induction es generalizing covered with
  | nil => exact ⟨by simp [deriveEntries, firstPlan], by simp [deriveEntries, firstPlan]⟩
  | cons e es ih =>
    rw [firstPlan_cons, deriveEntries]
    by_cases hskip : e.hash = rm.version ∨ e.hash ∈ covered
    · rw [if_pos hskip]
      obtain ⟨hfind, hcovered⟩ := ih covered
      by_cases hh : e.hash = h ∧ h ≠ rm.version
      · -- the entry is for `h`, so it was skipped for being covered
        have hmem : h ∈ covered := by
          rcases hskip with hversion | hmem
          · exact absurd (hh.1 ▸ hversion) hh.2
          · exact hh.1 ▸ hmem
        rw [hfind, if_pos hmem, if_pos hmem, hcovered]
        exact ⟨rfl, iff_of_true (.inl hmem) (.inl hmem)⟩
      · rw [if_neg hh, none_or]
        exact ⟨hfind, hcovered⟩
    · rw [if_neg hskip]
      obtain ⟨hversion, hcov⟩ := not_or.mp hskip
      cases hplan : derivePlan e.shape current with
      | none =>
        rw [ite_self, none_or]
        exact ih covered
      | some p =>
        obtain ⟨hfind, hcovered⟩ := ih (e.hash :: covered)
        by_cases hh : e.hash = h
        · subst hh
          rw [if_neg hcov, if_pos (⟨rfl, hversion⟩ : e.hash = e.hash ∧ e.hash ≠ rm.version),
            some_or]
          refine ⟨?_, ?_⟩
          · rw [find?_cons_of_pos (by simp)]
            rfl
          · rw [hcovered]
            simp
        · have hne : ¬(e.hash = h ∧ h ≠ rm.version) := fun hand => hh hand.1
          have hmem : h ∈ e.hash :: covered ↔ h ∈ covered := by
            rw [mem_cons, or_iff_right (Ne.symm hh)]
          rw [if_neg hne, none_or]
          refine ⟨?_, ?_⟩
          · rw [find?_cons_of_neg (by simpa using hh), hfind]
            simp only [hmem]
          · rw [hcovered, hmem]

/-! ## All records -/

theorem deriveMetas_find (rms : List RecordMeta) (covered : List Hash) :
    ((W.deriveMetas m rms covered).find? fun e => e.hash = h) =
      if h ∈ covered then none
      else rms.findSome? fun rm => (W.claim m rm h).map (derivedEdge rm h) := by
  induction rms generalizing covered with
  | nil => simp [deriveMetas]
  | cons rm rms ih =>
    obtain ⟨hfind, hcovered⟩ :=
      @deriveEntries_spec rm (W.currentRenderedShape rm) h (W.past m rm.name) covered
    show ((deriveEntries rm _ _ covered).1 ++ W.deriveMetas m rms _).find? _ = _
    rw [find?_append, hfind, ih, findSome?_cons]
    unfold claim at *
    by_cases hmem : h ∈ covered
    · rw [if_pos hmem, if_pos hmem, if_pos (hcovered.mpr (.inl hmem)), none_or]
    · rw [if_neg hmem, if_neg hmem]
      cases hplan : firstPlan rm (W.currentRenderedShape rm) h (W.past m rm.name) with
      | some p => rfl
      | none =>
        have hnot : h ∉ (deriveEntries rm (W.currentRenderedShape rm) (W.past m rm.name)
            covered).2 := by
          rw [hcovered, hplan]
          simp [hmem]
        rw [if_neg hnot]
        rfl

theorem userEdges_find :
    ((W.userEdges m).find? fun e => e.hash = h) =
      (W.firstBlock m h).map fun b => ⟨h, b.record, .user b⟩ := by
  unfold userEdges firstBlock
  induction W.blocks m with
  | nil => rfl
  | cons b bs ih =>
    rw [filterMap_cons, find?_cons]
    unfold userEdge
    cases hlookup : W.lookupRecord m b.record b.ordinal with
    | none =>
      rw [map_none, map_none, decide_eq_false (by simp)]
      exact ih
    | some e =>
      rw [map_some, map_some]
      by_cases hh : e.hash = h
      · subst hh
        simp
      · rw [find?_cons_of_neg (by simpa using hh), decide_eq_false (by simpa using hh)]
        exact ih

theorem mem_userEdges_hash : h ∈ (W.userEdges m).map Edge.hash ↔ (W.firstBlock m h).isSome := by
  have hfind := userEdges_find (W := W) (m := m) (h := h)
  rw [← Option.isSome_map (f := fun b : MigrateBlock => (⟨h, b.record, .user b⟩ : Edge)), ← hfind,
    List.find?_isSome, List.mem_map]
  simp

/-- The first edge of a hash: of the first `migrate` block for it, or else of the first record
with a plan. -/
theorem emitRecordMigrations_find :
    ((W.emitRecordMigrations m).find? fun e => e.hash = h) =
      match W.firstBlock m h with
      | some b => some ⟨h, b.record, .user b⟩
      | none =>
        (W.recordMetas m).findSome? fun rm => (W.claim m rm h).map (derivedEdge rm h) := by
  unfold emitRecordMigrations
  rw [find?_append, userEdges_find, deriveMetas_find]
  cases hblock : W.firstBlock m h with
  | some b => rfl
  | none =>
    have hnot : h ∉ (W.userEdges m).map Edge.hash := by
      rw [mem_userEdges_hash, hblock]
      simp
    rw [if_neg hnot]
    rfl

end Workspace

end Ridge.Versions
