import Ridge.Reload.Check
import Ridge.Versions.Edges

/-!
# ridge_rt — where a migration moves the fields

`apply_code_change` (`runtime/ridge_rt.erl`) runs the instructions the loader makes of a plan on the
state of an actor, `derive_record_migration` those of a record's plan. A plan means its renames at
once; they are run one behind the other, which is the same where no field is renamed to a name that
is renamed away later (`foldl_rename_eq`).
-/

namespace Ridge.Reload

open List Option Bool

open Ridge.Versions (MigrationPlan Shape derivePlan)

variable {renames : List (String × String)} {f : String} {rename : Option (String × String)}

variable {V : Type}

/-! ## The code -/

/-- The instructions of the loader: `renames`, `added`, `fields` and `defaults`. -/
structure Instr (V : Type) where
  renames : List (String × String)
  added : List String
  fields : List String
  defaults : String → Option V

/-- The added fields that are not there, from the defaults; `none` is a `badkey`. -/
def fillAdded (defaults : String → Option V) :
    List String → (String → Option V) → Option (String → Option V)
  | [], state => some state
  | f :: fs, state =>
    match state f with
    | some _ => fillAdded defaults fs state
    | none =>
      match defaults f with
      | none => none
      | some d => fillAdded defaults fs fun k => if k = f then some d else state k

/-- `apply_code_change(State, {ridge_migrate, Instr})`, `none` where it answers an error. -/
def applyCodeChange (state : String → Option V) (instr : Instr V) : Option (String → Option V) :=
  (fillAdded instr.defaults instr.added (instr.renames.foldl MigrationPlan.rename state)).map
    fun filled =>
      if instr.fields = [] then filled else fun k => if k ∈ instr.fields then filled k else none

/-- The renames the planner found, `actor_migrations` of `ridge-driver/src/reload.rs`. -/
def renamesOf (plan : List FieldAction) : List (String × String) :=
  plan.filterMap fun
    | .Rename src dst => some (src, dst)
    | _ => none

/-- `migrate_actors` of `ridge_loader.erl`: added is every new field the old state does not have. -/
def loaderInstr (renames : List (String × String)) (old new : List String)
    (defaults : String → Option V) : Instr V where
  renames := renames
  added := new.filter fun f => f ∉ old
  fields := new
  defaults := defaults

/-! ## What a plan means -/

/-- A plan between two shapes: renames from old names to new ones, fields that are listed as added
(a rename to a new name may be among them) and old fields to drop. Every other field of the new
shape is kept. -/
structure FieldPlan where
  old : List String
  new : List String
  renames : List (String × String)
  listed : List String
  removed : List String
  sources_nodup : (renames.map Prod.fst).Nodup
  targets_nodup : (renames.map Prod.snd).Nodup
  source_old : ∀ f ∈ renames.map Prod.fst, f ∈ old
  target_new : ∀ f ∈ renames.map Prod.snd, f ∈ new
  listed_new : ∀ f ∈ listed, f ∈ new
  listed_target : ∀ f ∈ listed, f ∈ renames.map Prod.snd → f ∉ old
  kept_old : ∀ f ∈ new, f ∉ renames.map Prod.snd → f ∉ listed →
    f ∈ old ∧ f ∉ renames.map Prod.fst
  removed_gone : ∀ f ∈ removed, f ∉ renames.map Prod.fst ∧
    (f ∈ new → f ∈ renames.map Prod.snd ∨ f ∈ listed)
  gone_removed : ∀ f ∈ old, f ∉ new → f ∉ renames.map Prod.fst → f ∈ removed

namespace FieldPlan

variable (P : FieldPlan)

def sources : List String := P.renames.map Prod.fst

def targets : List String := P.renames.map Prod.snd

/-- The field a new name is renamed from. -/
def sourceOf (f : String) : Option String :=
  (P.renames.find? fun r => r.2 = f).map Prod.fst

/-- The value the plan means: every renamed field has the value of the field it is renamed from, an
added one its default, and a kept one its own. -/
def meant (defaults state : String → Option V) (f : String) : Option V :=
  if f ∉ P.new then none
  else match P.sourceOf f with
    | some src => state src
    | none => if f ∈ P.listed then defaults f else state f

def HasOld (state : String → Option V) : Prop := ∀ f, (state f).isSome ↔ f ∈ P.old

/-- Every added field has a default. -/
def Defaulted (defaults : String → Option V) : Prop :=
  ∀ f ∈ P.listed, f ∉ P.targets → (defaults f).isSome

def instr (defaults : String → Option V) : Instr V := ⟨P.renames, P.listed, P.new, defaults⟩

def migrationPlan : MigrationPlan := ⟨P.renames, P.removed⟩

/-- No field is renamed to a name that is renamed away later. -/
def Sequential : Prop := P.renames.Pairwise fun r later => r.2 ≠ later.1

/-- The instructions do what the plan means. -/
structure Runs (defaults state : String → Option V) : Prop where
  fields : P.new = [] → P.old = []
  sequential : P.Sequential
  /-- An added field does not find an old one under its name. -/
  added : ∀ f ∈ P.listed, f ∉ P.targets → f ∈ P.old → f ∉ P.sources → state f = defaults f

end FieldPlan

/-! ## Renames one behind the other -/

def renamed (renames : List (String × String)) (state : String → Option V) (f : String) :
    Option V :=
  match renames.find? fun r => r.2 = f with
  | some r => state r.1
  | none => if f ∈ renames.map Prod.fst then none else state f

variable {state : String → Option V}

theorem rename_some {r : String × String} {v : V} (h : state r.1 = some v) (f : String) :
    MigrationPlan.rename state r f =
      if f = r.2 then some v else if f = r.1 then none else state f := by
  unfold MigrationPlan.rename
  rw [h]

theorem find?_target (h : f ∉ renames.map Prod.snd) : (renames.find? fun r => r.2 = f) = none :=
  find?_eq_none.mpr fun r hr hf => h (mem_map.mpr ⟨r, hr, of_decide_eq_true hf⟩)

/-- Where no target is a later source, the renames act at once. -/
theorem foldl_rename_eq (hsources : (renames.map Prod.fst).Nodup)
    (htargets : (renames.map Prod.snd).Nodup)
    (hthere : ∀ f ∈ renames.map Prod.fst, (state f).isSome)
    (hseq : renames.Pairwise fun r later => r.2 ≠ later.1) :
    renames.foldl MigrationPlan.rename state = renamed renames state := by
  induction renames generalizing state with
  | nil => rfl
  | cons r rest ih =>
    obtain ⟨hsrc, hsources⟩ := nodup_cons.mp hsources
    obtain ⟨hdst, htargets⟩ := nodup_cons.mp htargets
    obtain ⟨hlater, hseq⟩ := pairwise_cons.mp hseq
    obtain ⟨v, hv⟩ := isSome_iff_exists.mp (hthere r.1 mem_cons_self)
    -- The sources that are left are not touched by the first rename.
    have hsame : ∀ f ∈ rest.map Prod.fst, MigrationPlan.rename state r f = state f := by
      intro f hf
      obtain ⟨later, hmem, rfl⟩ := mem_map.mp hf
      rw [rename_some hv, if_neg (hlater later hmem).symm, if_neg]
      intro heq
      exact hsrc (heq ▸ hf)
    rw [foldl_cons, ih hsources htargets
      (fun f hf => by rw [hsame f hf]; exact hthere f (mem_cons_of_mem _ hf)) hseq]
    funext f
    unfold renamed
    by_cases hf : r.2 = f
    · -- The first rename writes `f`, no later one does or takes it away.
      have hnot : f ∉ rest.map Prod.snd := fun h => hdst (hf ▸ h)
      have hkeep : f ∉ rest.map Prod.fst := by
        intro h
        obtain ⟨later, hmem, heq⟩ := mem_map.mp h
        exact hlater later hmem (hf.trans heq.symm)
      rw [find?_target hnot, if_neg hkeep, rename_some hv, if_pos hf.symm,
        find?_cons_of_pos (by simpa using hf)]
      exact hv.symm
    · rw [find?_cons_of_neg (by simpa using hf)]
      cases hfind : rest.find? fun r => r.2 = f with
      | some later =>
        show MigrationPlan.rename state r later.1 = state later.1
        exact hsame later.1 (mem_map_of_mem (mem_of_find?_eq_some hfind))
      | none =>
        show (if f ∈ rest.map Prod.fst then none else MigrationPlan.rename state r f) =
          if f ∈ r.1 :: rest.map Prod.fst then none else state f
        by_cases hrest : f ∈ rest.map Prod.fst
        · rw [if_pos hrest, if_pos (mem_cons_of_mem _ hrest)]
        · rw [if_neg hrest, rename_some hv, if_neg fun h => hf h.symm]
          by_cases hfirst : f = r.1
          · rw [if_pos hfirst, if_pos (hfirst ▸ mem_cons_self)]
          · rw [if_neg hfirst, if_neg]
            intro h
            rcases mem_cons.mp h with h | h
            · exact hfirst h
            · exact hrest h

theorem foldl_rename_gone (hf : f ∉ renames.map Prod.snd) (hgone : state f = none) :
    renames.foldl MigrationPlan.rename state f = none := by
  induction renames generalizing state with
  | nil => exact hgone
  | cons r rest ih =>
    rw [foldl_cons]
    refine ih (fun h => hf (mem_cons_of_mem _ h)) ?_
    cases hv : state r.1 with
    | none =>
      unfold MigrationPlan.rename
      rw [hv]
      exact hgone
    | some v =>
      rw [rename_some hv, if_neg fun h : f = r.2 => hf (h ▸ mem_cons_self), hgone,
        ite_self]

/-- A name that is renamed away and not written again is gone. -/
theorem foldl_rename_source (hf : f ∉ renames.map Prod.snd) (hsource : f ∈ renames.map Prod.fst) :
    renames.foldl MigrationPlan.rename state f = none := by
  induction renames generalizing state with
  | nil => cases hsource
  | cons r rest ih =>
    have hrest : f ∉ rest.map Prod.snd := fun h => hf (mem_cons_of_mem _ h)
    rw [foldl_cons]
    rcases mem_cons.mp hsource with rfl | hsource
    · refine foldl_rename_gone hrest ?_
      cases hv : state r.1 with
      | none =>
        unfold MigrationPlan.rename
        rw [hv]
        exact hv
      | some v =>
        rw [rename_some hv, if_neg fun h : r.1 = r.2 => hf (h ▸ mem_cons_self), if_pos rfl]
    · exact ih hrest hsource

theorem foldl_rename_lost (state : String → Option V) (htargets : (renames.map Prod.snd).Nodup)
    (hlost : ¬renames.Pairwise fun r later => r.2 ≠ later.1) :
    ∃ r ∈ renames, r.2 ∈ renames.map Prod.fst ∧
      renames.foldl MigrationPlan.rename state r.2 = none := by
  induction renames generalizing state with
  | nil => exact absurd .nil hlost
  | cons r rest ih =>
    obtain ⟨hdst, htargets⟩ := nodup_cons.mp htargets
    by_cases hfirst : ∀ later ∈ rest, r.2 ≠ later.1
    · obtain ⟨r', hr', hsource, hgone⟩ := ih (MigrationPlan.rename state r) htargets
        fun hrest => hlost (pairwise_cons.mpr ⟨hfirst, hrest⟩)
      exact ⟨r', mem_cons_of_mem _ hr', mem_cons_of_mem _ hsource, hgone⟩
    · push Not at hfirst
      obtain ⟨later, hlater, heq⟩ := hfirst
      have hsource : r.2 ∈ rest.map Prod.fst := mem_map.mpr ⟨later, hlater, heq.symm⟩
      rw [foldl_cons]
      exact ⟨r, mem_cons_self, mem_cons_of_mem _ hsource,
        foldl_rename_source hdst hsource⟩

/-! ## The runtime's functions on a plan -/

variable {added : List String}

theorem fillAdded_some {defaults state out : String → Option V}
    (h : fillAdded defaults added state = some out) (f : String) :
    out f = (state f).or (if f ∈ added then defaults f else none) := by
  induction added generalizing state with
  | nil =>
    cases h
    simp
  | cons a rest ih =>
    unfold fillAdded at h
    cases hstate : state a with
    | some v =>
      rw [hstate] at h
      rw [ih h]
      by_cases hf : f = a
      · rw [hf, hstate]
        rfl
      · simp [hf]
    | none =>
      rw [hstate] at h
      cases hd : defaults a with
      | none => rw [hd] at h; cases h
      | some d =>
        rw [hd] at h
        rw [ih h]
        by_cases hf : f = a
        · rw [hf, if_pos rfl, hstate, if_pos mem_cons_self, hd]
          rfl
        · simp [hf]

theorem exists_fillAdded {defaults state : String → Option V}
    (h : ∀ f ∈ added, state f = none → (defaults f).isSome) :
    ∃ out, fillAdded defaults added state = some out := by
  induction added generalizing state with
  | nil => exact ⟨state, rfl⟩
  | cons a rest ih =>
    unfold fillAdded
    cases hstate : state a with
    | some v => exact ih fun f hf => h f (mem_cons_of_mem _ hf)
    | none =>
      obtain ⟨d, hd⟩ := isSome_iff_exists.mp (h a mem_cons_self hstate)
      rw [hd]
      refine ih fun f hf hnone => h f (mem_cons_of_mem _ hf) ?_
      by_cases hfa : f = a
      · rw [hfa, hstate]
      · rwa [if_neg hfa] at hnone

namespace FieldPlan

variable {P : FieldPlan} {defaults state : String → Option V}

variable {src : String}

theorem sourceOf_some (h : P.sourceOf f = some src) : src ∈ P.sources ∧ f ∈ P.targets := by
  obtain ⟨r, hr, rfl⟩ := map_eq_some_iff.mp h
  have hmem := mem_of_find?_eq_some hr
  have htarget : r.2 = f := by simpa using find?_some hr
  exact ⟨mem_map_of_mem hmem, htarget ▸ mem_map_of_mem hmem⟩

theorem sourceOf_eq_none : P.sourceOf f = none ↔ f ∉ P.targets := by
  refine ⟨fun h hf => ?_, fun h => ?_⟩
  · obtain ⟨r, hr, rfl⟩ := mem_map.mp hf
    have hnone := find?_eq_none.mp (map_eq_none_iff.mp h) r hr
    exact hnone (decide_eq_true rfl)
  · unfold sourceOf
    rw [find?_target h]
    rfl

theorem renamed_of_source (h : P.sourceOf f = some src) :
    renamed P.renames state f = state src := by
  obtain ⟨r, hr, rfl⟩ := map_eq_some_iff.mp h
  unfold renamed
  rw [hr]

theorem renamed_of_not_target (h : f ∉ P.targets) :
    renamed P.renames state f = if f ∈ P.sources then none else state f := by
  unfold renamed
  rw [find?_target h]
  rfl

theorem meant_of_source (h : P.sourceOf f = some src) : P.meant defaults state f = state src := by
  unfold meant
  rw [if_neg (not_not_intro (P.target_new f (sourceOf_some h).2)), h]

theorem meant_of_not_target (hf : f ∈ P.new) (h : f ∉ P.targets) :
    P.meant defaults state f = if f ∈ P.listed then defaults f else state f := by
  unfold meant
  rw [if_neg (not_not_intro hf), sourceOf_eq_none.mpr h]

theorem meant_of_gone (hf : f ∉ P.new) : P.meant defaults state f = none :=
  if_pos hf

theorem kept (hf : f ∈ P.new) (htarget : f ∉ P.targets) (hlisted : f ∉ P.listed) :
    f ∈ P.old ∧ f ∉ P.sources :=
  P.kept_old f hf htarget hlisted

theorem HasOld.source (h : P.HasOld state) (hf : P.sourceOf f = some src) :
    ∃ v, state src = some v :=
  isSome_iff_exists.mp ((h src).mpr (P.source_old src (sourceOf_some hf).1))

theorem HasOld.eq_none (h : P.HasOld state) (hf : f ∉ P.old) : state f = none :=
  not_isSome_iff_eq_none.mp (mt (h f).mp hf)

theorem HasOld.foldl (h : P.HasOld state) (hseq : P.Sequential) :
    P.renames.foldl MigrationPlan.rename state = renamed P.renames state :=
  foldl_rename_eq P.sources_nodup P.targets_nodup (fun f hf => (h f).mpr (P.source_old f hf)) hseq

/-- What a field of the new shape is after the renames and the defaults. -/
theorem filled_eq_meant (h : P.HasOld state) (hruns : P.Runs defaults state) (hf : f ∈ P.new) :
    (renamed P.renames state f).or (if f ∈ P.listed then defaults f else none) =
      P.meant defaults state f := by
  cases hsource : P.sourceOf f with
  | some src =>
    obtain ⟨v, hv⟩ := h.source hsource
    rw [renamed_of_source hsource, meant_of_source hsource, hv]
    rfl
  | none =>
    have htarget := sourceOf_eq_none.mp hsource
    rw [renamed_of_not_target htarget, meant_of_not_target hf htarget]
    by_cases hlisted : f ∈ P.listed
    · rw [if_pos hlisted, if_pos hlisted]
      by_cases hsrc : f ∈ P.sources
      · rw [if_pos hsrc]
        rfl
      · rw [if_neg hsrc]
        by_cases hold : f ∈ P.old
        · rw [← hruns.added f hlisted htarget hold hsrc, Option.or_self]
        · rw [h.eq_none hold]
          rfl
    · rw [if_neg hlisted, if_neg hlisted, if_neg (kept hf htarget hlisted).2, or_none]

theorem renames_eq_nil (h : P.new = []) : P.renames = [] := by
  cases hr : P.renames with
  | nil => rfl
  | cons r rest =>
    have hmem := P.target_new r.2 (by rw [hr]; exact mem_cons_self)
    rw [h] at hmem
    cases hmem

theorem applyCodeChange_eq_some {out : String → Option V} :
    applyCodeChange state (P.instr defaults) = some out ↔
      ∃ filled, fillAdded defaults P.listed (P.renames.foldl MigrationPlan.rename state) =
          some filled ∧
        out = if P.new = [] then filled else fun k => if k ∈ P.new then filled k else none := by
  unfold applyCodeChange
  rw [map_eq_some_iff]
  exact exists_congr fun filled => and_congr_right fun _ => eq_comm

theorem applyCodeChange_of_runs (h : P.HasOld state) (hdefaults : P.Defaulted defaults)
    (hruns : P.Runs defaults state) :
    applyCodeChange state (P.instr defaults) = some (P.meant defaults state) := by
  have hthere : ∀ f ∈ P.listed, renamed P.renames state f = none → (defaults f).isSome := by
    intro f hf hnone
    cases hsource : P.sourceOf f with
    | none => exact hdefaults f hf (sourceOf_eq_none.mp hsource)
    | some src =>
      obtain ⟨v, hv⟩ := h.source hsource
      rw [renamed_of_source hsource, hv] at hnone
      cases hnone
  obtain ⟨filled, hfilled⟩ := exists_fillAdded hthere
  rw [applyCodeChange_eq_some, h.foldl hruns.sequential]
  refine ⟨filled, hfilled, funext fun f => ?_⟩
  by_cases hnew : P.new = []
  · -- No field before and none after.
    have hlisted : f ∉ P.listed := fun hf => by
      have hmem := P.listed_new f hf
      rw [hnew] at hmem
      cases hmem
    have hold : f ∉ P.old := by simp [hruns.fields hnew]
    rw [if_pos hnew, meant_of_gone (by simp [hnew]), fillAdded_some hfilled, if_neg hlisted,
      renames_eq_nil hnew]
    show (none : Option V) = (if f ∈ ([] : List String) then none else state f).or none
    rw [if_neg not_mem_nil, h.eq_none hold]
    rfl
  · rw [if_neg hnew]
    by_cases hf : f ∈ P.new
    · show _ = if f ∈ P.new then filled f else none
      rw [if_pos hf, fillAdded_some hfilled, filled_eq_meant h hruns hf]
    · exact (meant_of_gone hf).trans (if_neg hf).symm

/-- A target that is lost has no value, and the plan means one. -/
theorem sequential_of_foldl (defaults start : String → Option V) (h : P.HasOld state)
    (hmeant : ∀ f ∈ P.targets, f ∈ P.sources →
      P.renames.foldl MigrationPlan.rename start f = none →
      P.meant defaults state f = none) : P.Sequential := by
  by_contra hlost
  obtain ⟨r, hr, hsource, hgone⟩ := foldl_rename_lost start P.targets_nodup hlost
  have htarget : r.2 ∈ P.targets := mem_map_of_mem hr
  cases hof : P.sourceOf r.2 with
  | none => exact sourceOf_eq_none.mp hof htarget
  | some src =>
    obtain ⟨v, hv⟩ := h.source hof
    have hnone := hmeant r.2 htarget hsource hgone
    rw [meant_of_source hof, hv] at hnone
    cases hnone

theorem runs_of_applyCodeChange (h : P.HasOld state)
    (hrun : applyCodeChange state (P.instr defaults) = some (P.meant defaults state)) :
    P.Runs defaults state := by
  obtain ⟨filled, hfilled, hout⟩ := applyCodeChange_eq_some.mp hrun
  have hvalue : ∀ f ∈ P.new, P.meant defaults state f =
      (P.renames.foldl MigrationPlan.rename state f).or
        (if f ∈ P.listed then defaults f else none) := by
    intro f hf
    rw [← fillAdded_some hfilled, hout, if_neg (ne_nil_of_mem hf)]
    exact if_pos hf
  have hseq : P.Sequential := by
    refine sequential_of_foldl defaults state h fun f htarget hsource hgone => ?_
    have hlisted : f ∉ P.listed := fun hf =>
      P.listed_target f hf htarget (P.source_old f hsource)
    rw [hvalue f (P.target_new f htarget), hgone, if_neg hlisted]
    rfl
  refine ⟨fun hnew => ?_, hseq, fun f hlisted htarget hold hsource => ?_⟩
  · refine eq_nil_iff_forall_not_mem.mpr fun f hf => ?_
    have hgone := congrFun hout f
    rw [if_pos hnew, meant_of_gone (by simp [hnew]), fillAdded_some hfilled,
      renames_eq_nil hnew] at hgone
    obtain ⟨v, hv⟩ := isSome_iff_exists.mp ((h f).mpr hf)
    rw [foldl_nil, hv] at hgone
    cases hgone
  · have hnew := P.listed_new f hlisted
    obtain ⟨v, hv⟩ := isSome_iff_exists.mp ((h f).mpr hold)
    have hmeant := hvalue f hnew
    rw [h.foldl hseq, renamed_of_not_target htarget, if_neg hsource,
      meant_of_not_target hnew htarget, if_pos hlisted, if_pos hlisted, hv] at hmeant
    rw [hmeant, hv]
    rfl

/-- A record's plan adds no field but by a rename. -/
theorem apply_eq_meant_iff (h : P.HasOld state) (hadds : ∀ f ∈ P.listed, f ∈ P.targets) :
    P.migrationPlan.apply state = P.meant defaults state ↔ P.Sequential := by
  have hremoved : ∀ f ∈ P.sources,
      (if f ∈ P.removed then none else state f) = state f := fun f hf =>
    if_neg fun hgone => (P.removed_gone f hgone).1 hf
  refine ⟨fun heq => sequential_of_foldl defaults
    (fun k => if k ∈ P.removed then none else state k) h fun f _ _ hgone => ?_, fun hseq => ?_⟩
  · rw [← heq]
    exact hgone
  · have hthere : ∀ f ∈ P.sources, (if f ∈ P.removed then none else state f).isSome := by
      intro f hf
      rw [hremoved f hf]
      exact (h f).mpr (P.source_old f hf)
    funext f
    refine (congrFun (foldl_rename_eq P.sources_nodup P.targets_nodup hthere hseq) f).trans ?_
    cases hsource : P.sourceOf f with
    | some src =>
      rw [renamed_of_source hsource, meant_of_source hsource]
      exact hremoved src (sourceOf_some hsource).1
    | none =>
      have htarget := sourceOf_eq_none.mp hsource
      rw [renamed_of_not_target htarget]
      by_cases hnew : f ∈ P.new
      · have hlisted : f ∉ P.listed := fun hf => htarget (hadds f hf)
        rw [if_neg (kept hnew htarget hlisted).2, meant_of_not_target hnew htarget,
          if_neg hlisted, if_neg]
        intro hgone
        rcases (P.removed_gone f hgone).2 hnew with h | h
        · exact htarget h
        · exact hlisted h
      · rw [meant_of_gone hnew]
        by_cases hsrc : f ∈ P.sources
        · exact if_pos hsrc
        · rw [if_neg hsrc]
          by_cases hold : f ∈ P.old
          · exact if_pos (P.gone_removed f hold hnew hsrc)
          · rw [h.eq_none hold, ite_self]

end FieldPlan

/-! ## The plans of the planner -/

/-- The only rename the planner derives: from the one name that is gone to the one that is new. -/
structure IsRename (old new : List (String × String)) (r : String × String) : Prop where
  source : r.1 ∈ old.map Prod.fst
  source_gone : r.1 ∉ new.map Prod.fst
  target : r.2 ∈ new.map Prod.fst
  target_fresh : r.2 ∉ old.map Prod.fst

/-- What the planner does with a field of the new shape. -/
def actionOf (old : List (String × String)) (rename : Option (String × String))
    (f : String × String) : FieldAction :=
  match rename.filter fun r => r.2 = f.1 with
  | some (src, dst) => .Rename src dst
  | none =>
    match old.find? fun o => o.1 = f.1 with
    | some o => if o.2 = f.2 then .Keep f.1 else .Hole f.1 f.2
    | none => .Hole f.1 f.2

theorem mem_zipIdx_filter {fields others : List (String × String)} {x : (String × String) × Nat}
    (h : x ∈ fields.zipIdx.filter fun f => !others.any fun n => n.1 = f.1.1) :
    x.1.1 ∈ fields.map Prod.fst ∧ x.1.1 ∉ others.map Prod.fst := by
  obtain ⟨hmem, hnot⟩ := mem_filter.mp h
  refine ⟨mem_map_of_mem (fst_mem_of_mem_zipIdx hmem), fun hother => ?_⟩
  obtain ⟨n, hn, heq⟩ := mem_map.mp hother
  have hany : (others.any fun n => n.1 = x.1.1) = true :=
    any_eq_true.mpr ⟨n, hn, decide_eq_true heq⟩
  rw [hany] at hnot
  cases hnot

theorem planImpl_eq (old new : List (String × String)) :
    ∃ rename : Option (String × String), (∀ r ∈ rename, IsRename old new r) ∧
      planImpl old new = new.map (actionOf old rename) := by
  refine ⟨_, fun r hr => ?_, rfl⟩
  split at hr
  · next on ot oi nn nt ni hremoved hadded =>
      split at hr
      · cases hr
        have hon := mem_zipIdx_filter (hremoved ▸ mem_singleton.mpr rfl)
        have hnn := mem_zipIdx_filter (hadded ▸ mem_singleton.mpr rfl)
        exact ⟨hon.1, hon.2, hnn.1, hnn.2⟩
      · cases hr
  · cases hr

variable {old new : List (String × String)}

/-- A target that is there once is renamed once. -/
theorem renamesOf_map (hnew : (new.map Prod.fst).Nodup) (h : ∀ r ∈ rename, IsRename old new r) :
    renamesOf (new.map (actionOf old rename)) = rename.toList := by
  have hstep : ∀ f, (match actionOf old rename f with
      | .Rename src dst => some (src, dst)
      | _ => none) = rename.filter fun r => r.2 = f.1 := by
    intro f
    unfold actionOf
    cases rename.filter fun r => r.2 = f.1 with
    | some r => rfl
    | none =>
      cases old.find? fun o => o.1 = f.1 with
      | none => rfl
      | some o =>
        show (match if o.2 = f.2 then FieldAction.Keep f.1 else .Hole f.1 f.2 with
          | .Rename src dst => some (src, dst)
          | _ => none) = none
        split_ifs <;> rfl
  have hfilter : renamesOf (new.map (actionOf old rename)) =
      new.filterMap fun f => rename.filter fun r => r.2 = f.1 := by
    unfold renamesOf
    rw [filterMap_map]
    exact filterMap_congr fun f _ => hstep f
  rw [hfilter]
  cases rename with
  | none => simp
  | some r =>
    have htarget := (h r rfl).target
    clear h hstep hfilter
    induction new with
    | nil => cases htarget
    | cons f rest ih =>
      obtain ⟨hf, hrest⟩ := nodup_cons.mp hnew
      rcases mem_cons.mp htarget with heq | htarget
      · have hnever : (rest.filterMap fun f => (some r).filter fun r => r.2 = f.1) = [] := by
          refine filterMap_eq_nil_iff.mpr fun g hg => ?_
          have hne : r.2 ≠ g.1 := fun h => hf (heq ▸ h ▸ mem_map_of_mem hg)
          simp [hne]
        rw [filterMap_cons_some (b := r) (by simp [heq]), hnever]
        rfl
      · have hne : r.2 ≠ f.1 := fun h => hf (h ▸ htarget)
        rw [filterMap_cons_none (by simp [hne])]
        exact ih hrest htarget

def plannerPlan (old new : List (String × String)) (rename : Option (String × String))
    (h : ∀ r ∈ rename, IsRename old new r) : FieldPlan where
  old := old.map Prod.fst
  new := new.map Prod.fst
  renames := rename.toList
  listed := (new.map Prod.fst).filter fun f => f ∉ old.map Prod.fst
  removed := (old.map Prod.fst).filter fun f =>
    f ∉ new.map Prod.fst ∧ f ∉ rename.toList.map Prod.fst
  sources_nodup := by cases rename <;> simp
  targets_nodup := by cases rename <;> simp
  source_old f hf := by
    obtain ⟨r, hr, rfl⟩ := List.mem_map.mp hf
    exact (h r (Option.mem_toList.mp hr)).source
  target_new f hf := by
    obtain ⟨r, hr, rfl⟩ := List.mem_map.mp hf
    exact (h r (Option.mem_toList.mp hr)).target
  listed_new f hf := (List.mem_filter.mp hf).1
  listed_target f hf _ := of_decide_eq_true (List.mem_filter.mp hf).2
  kept_old f hf _ hlisted := by
    refine ⟨by_contra fun hold => hlisted (List.mem_filter.mpr ⟨hf, decide_eq_true hold⟩), ?_⟩
    intro hsource
    obtain ⟨r, hr, rfl⟩ := List.mem_map.mp hsource
    exact (h r (Option.mem_toList.mp hr)).source_gone hf
  removed_gone f hf := by
    obtain ⟨hnew, hsource⟩ := of_decide_eq_true (List.mem_filter.mp hf).2
    exact ⟨hsource, fun h => absurd h hnew⟩
  gone_removed f hf hnew hsource :=
    List.mem_filter.mpr ⟨hf, decide_eq_true ⟨hnew, hsource⟩⟩

theorem plannerPlan_sequential (h : ∀ r ∈ rename, IsRename old new r) :
    (plannerPlan old new rename h).Sequential := by
  unfold FieldPlan.Sequential
  cases rename with
  | none => exact .nil
  | some r => exact pairwise_singleton ..

/-- The planner's action on a field of the new shape is what the plan means. -/
def FieldPlan.Agrees (P : FieldPlan) : FieldAction → Prop
  | .Keep f => f ∈ P.new ∧ f ∉ P.targets ∧ f ∉ P.listed
  | .Rename src dst => P.sourceOf dst = some src
  | .Hole f _ => f ∈ P.listed ∧ f ∉ P.targets

/-- A reload goes ahead: nothing is incompatible and no scaffold has a hole. -/
def Verdict.reloads : Verdict → Bool
  | .Incompatible _ => false
  | .RequiresMigration _ has_holes => !has_holes
  | _ => true

/-- The names and types the planner compares. -/
def pairs (state : List StateSnap) : List (String × String) := state.map fun s => (s.name, s.ty)

variable {old new : List StateSnap}

variable {name : String}

/-- Where a reload goes ahead, a hole in the plan is a field that is not among the old ones, and it
has a default. -/
theorem hole_of_reloads (h : (actorStateVerdict name old new).reloads = true) :
    (∀ action ∈ planImpl (pairs old) (pairs new), action.isHole = false) ∨
      ((∀ o ∈ old, ∀ n ∈ new, n.name = o.name → n.ty = o.ty) ∧
        ∀ s ∈ new, s.name ∉ old.map StateSnap.name → s.has_default = true) := by
  unfold actorStateVerdict at h
  dsimp only at h
  split at h
  · next hauto =>
      simp only [and_eq_true, not_eq_true', List.any_eq_false, List.all_eq_true,
        List.any_eq_true] at hauto
      obtain ⟨⟨⟨-, hretyped⟩, -⟩, hdefaults⟩ := hauto
      refine .inr ⟨fun o ho n hn hname => ?_, fun s hs hfresh => ?_⟩
      · by_contra hty
        exact hretyped o ho ⟨n, hn, decide_eq_true ⟨hname, hty⟩⟩
      · refine hdefaults s (List.mem_filter.mpr ⟨hs, ?_⟩)
        rw [not_eq_true', List.any_eq_false]
        intro o ho heq
        exact hfresh (List.mem_map.mpr ⟨o, ho, of_decide_eq_true heq⟩)
  · refine .inl fun action haction => ?_
    have hholes : ((planImpl (pairs old) (pairs new)).any FieldAction.isHole) = false := by
      simpa [Verdict.reloads, pairs] using h
    exact eq_false_iff.mpr fun hhole => by
      rw [List.any_eq_false] at hholes
      exact hholes action haction hhole

theorem agrees_of_reloads (hrename : ∀ r ∈ rename, IsRename (pairs old) (pairs new) r)
    (hplan : planImpl (pairs old) (pairs new) = (pairs new).map (actionOf (pairs old) rename))
    (h : (actorStateVerdict name old new).reloads = true) :
    ∀ action ∈ planImpl (pairs old) (pairs new),
      (plannerPlan (pairs old) (pairs new) rename hrename).Agrees action := by
  intro action haction
  have hholes := hole_of_reloads h
  rw [hplan] at haction hholes
  obtain ⟨f, hf, rfl⟩ := mem_map.mp haction
  have hnew : f.1 ∈ (pairs new).map Prod.fst := mem_map_of_mem hf
  cases hfilter : rename.filter fun r => r.2 = f.1 with
  | some r =>
    obtain ⟨rfl, htarget⟩ := filter_eq_some_iff.mp hfilter
    rw [actionOf, hfilter]
    show (List.find? (fun r' : String × String => r'.2 = r.2) [r]).map Prod.fst = some r.1
    simp
  | none =>
    have htarget : f.1 ∉ (plannerPlan (pairs old) (pairs new) rename hrename).targets := by
      intro hmem
      obtain ⟨r, hr, heq⟩ := mem_map.mp hmem
      have hnone := filter_eq_none_iff.mp hfilter r (mem_toList.mp hr)
      exact hnone (decide_eq_true heq)
    have hlisted : f.1 ∉ (pairs old).map Prod.fst →
        f.1 ∈ (plannerPlan (pairs old) (pairs new) rename hrename).listed := fun hfresh =>
      mem_filter.mpr ⟨hnew, decide_eq_true hfresh⟩
    have haction' : actionOf (pairs old) rename f =
        match (pairs old).find? fun o => o.1 = f.1 with
        | some o => if o.2 = f.2 then .Keep f.1 else .Hole f.1 f.2
        | none => .Hole f.1 f.2 := by
      unfold actionOf
      rw [hfilter]
    rw [haction']
    cases hfind : (pairs old).find? fun o => o.1 = f.1 with
    | none =>
      refine ⟨hlisted fun hold => ?_, htarget⟩
      obtain ⟨o, ho, heq⟩ := mem_map.mp hold
      exact find?_eq_none.mp hfind o ho (decide_eq_true heq)
    | some o =>
      have ho := mem_of_find?_eq_some hfind
      have hname : o.1 = f.1 := by simpa using find?_some hfind
      have hold : f.1 ∈ (pairs old).map Prod.fst := hname ▸ mem_map_of_mem ho
      by_cases hty : o.2 = f.2
      · show FieldPlan.Agrees _ (if o.2 = f.2 then _ else _)
        rw [if_pos hty]
        exact ⟨hnew, htarget, fun h => of_decide_eq_true (mem_filter.mp h).2 hold⟩
      · -- A field that changes its type keeps a reload from going ahead.
        exfalso
        rcases hholes with hholes | hholes
        · have hhole := hholes _ haction
          rw [haction', hfind] at hhole
          simp [hty, FieldAction.isHole] at hhole
        · obtain ⟨s, hs, rfl⟩ := mem_map.mp ho
          obtain ⟨s', hs', rfl⟩ := mem_map.mp hf
          exact hty (hholes.1 s hs s' hs' hname.symm).symm

theorem map_fst_pairs (state : List StateSnap) :
    (pairs state).map Prod.fst = state.map StateSnap.name :=
  map_map

theorem defaulted_of_reloads (hrename : ∀ r ∈ rename, IsRename (pairs old) (pairs new) r)
    (hplan : planImpl (pairs old) (pairs new) = (pairs new).map (actionOf (pairs old) rename))
    (h : (actorStateVerdict name old new).reloads = true) {defaults : String → Option V}
    (hdefaults : ∀ s ∈ new, s.has_default = true → (defaults s.name).isSome) :
    (plannerPlan (pairs old) (pairs new) rename hrename).Defaulted defaults := by
  intro f hf htarget
  obtain ⟨hnew, hfresh⟩ := mem_filter.mp hf
  have hfresh := of_decide_eq_true hfresh
  rw [map_fst_pairs] at hnew
  obtain ⟨s, hs, rfl⟩ := mem_map.mp hnew
  refine hdefaults s hs ?_
  rcases hole_of_reloads h with hholes | hholes
  · -- The plan has a hole for the field.
    have hnone : (rename.filter fun r => r.2 = s.name) = none := filter_eq_none_iff.mpr fun r hr h =>
      htarget (mem_map.mpr ⟨r, mem_toList.mpr hr, of_decide_eq_true h⟩)
    have hfind : ((pairs old).find? fun o => o.1 = s.name) = none :=
      find?_eq_none.mpr fun o ho h => hfresh (mem_map.mpr ⟨o, ho, of_decide_eq_true h⟩)
    have haction : actionOf (pairs old) rename (s.name, s.ty) = .Hole s.name s.ty := by
      rw [actionOf, hnone, hfind]
    have hmem : FieldAction.Hole s.name s.ty ∈ planImpl (pairs old) (pairs new) := by
      rw [hplan, ← haction]
      exact mem_map_of_mem (mem_map_of_mem hs)
    cases hholes _ hmem
  · rw [map_fst_pairs] at hfresh
    exact hholes.2 s hs hfresh

/-! ## The plans of records -/

theorem map_fst_filter_has (fields others : Shape) :
    (fields.filter fun f => !others.has f.1).map Prod.fst =
      (fields.map Prod.fst).filter fun f => f ∉ others.map Prod.fst := by
  rw [List.filter_map]
  refine congrArg (List.map Prod.fst) (List.filter_congr fun f _ => ?_)
  have hhas : others.has f.1 = decide (f.1 ∈ others.map Prod.fst) := by
    unfold Shape.has
    rw [Bool.eq_iff_iff, List.any_eq_true, decide_eq_true_iff, List.mem_map]
    exact exists_congr fun g => and_congr_right fun _ => decide_eq_true_iff
  rw [hhas]
  simp

theorem isRename_of_filter {old new : Shape} {f g : String × String}
    (hremoved : (old.filter fun f => !new.has f.1) = [f])
    (hadded : (new.filter fun f => !old.has f.1) = [g]) : IsRename old new (f.1, g.1) := by
  have hold := map_fst_filter_has old new
  have hnew := map_fst_filter_has new old
  rw [hremoved] at hold
  rw [hadded] at hnew
  have hf : f.1 ∈ (old.map Prod.fst).filter fun f => f ∉ new.map Prod.fst :=
    hold ▸ mem_singleton.mpr rfl
  have hg : g.1 ∈ (new.map Prod.fst).filter fun f => f ∉ old.map Prod.fst :=
    hnew ▸ mem_singleton.mpr rfl
  obtain ⟨hsource, hgone⟩ := mem_filter.mp hf
  obtain ⟨htarget, hfresh⟩ := mem_filter.mp hg
  exact ⟨hsource, of_decide_eq_true hgone, htarget, of_decide_eq_true hfresh⟩

/-- `derive_plan` is the planner's plan with what it removes, where nothing is added. -/
theorem exists_recordPlan {old new : Shape} {p : MigrationPlan} (h : derivePlan old new = some p) :
    ∃ P : FieldPlan, P.old = old.map Prod.fst ∧ P.new = new.map Prod.fst ∧ P.migrationPlan = p ∧
      (∀ f ∈ P.listed, f ∈ P.targets) ∧ P.Sequential := by
  unfold derivePlan at h
  dsimp only at h
  have hold := map_fst_filter_has old new
  have hnew := map_fst_filter_has new old
  have hplan : ∀ (rename : Option (String × String)) (hr : ∀ r ∈ rename, IsRename old new r),
      (plannerPlan old new rename hr).removed =
        ((old.filter fun f => !new.has f.1).map Prod.fst).filter fun f =>
          f ∉ rename.toList.map Prod.fst := by
    intro rename hr
    rw [hold, List.filter_filter]
    refine List.filter_congr fun f _ => ?_
    rw [decide_and, Bool.and_comm]
  split at h
  · cases h
  · split at h
    · next hremoved hadded =>
        cases h
        refine ⟨plannerPlan old new none nofun, rfl, rfl, ?_, fun f hf => ?_,
          plannerPlan_sequential _⟩
        · show MigrationPlan.mk [] _ = _
          rw [hplan, hremoved]
          rfl
        · change f ∈ (new.map Prod.fst).filter _ at hf
          rw [← hnew, hadded] at hf
          cases hf
    · next hremoved hadded =>
        cases h
        refine ⟨plannerPlan old new none nofun, rfl, rfl, ?_, fun f hf => ?_,
          plannerPlan_sequential _⟩
        · show MigrationPlan.mk [] _ = _
          rw [hplan, hremoved]
          rfl
        · change f ∈ (new.map Prod.fst).filter _ at hf
          rw [← hnew, hadded] at hf
          cases hf
    · next on ot nn nt hremoved hadded =>
        split at h
        · cases h
          have hr : ∀ r ∈ some (on, nn), IsRename old new r := by
            rintro _ ⟨⟩
            exact isRename_of_filter hremoved hadded
          refine ⟨plannerPlan old new (some (on, nn)) hr, rfl, rfl, ?_, fun f hf => ?_,
            plannerPlan_sequential _⟩
          · show MigrationPlan.mk [(on, nn)] _ = _
            rw [hplan, hremoved]
            simp
          · change f ∈ (new.map Prod.fst).filter _ at hf
            rw [← hnew, hadded] at hf
            exact hf
        · cases h
    · cases h

/-! ## The result -/

/-- The instructions move every field to where the plan says exactly where an empty new shape comes
from an empty old one, no field is renamed to a name that is renamed away later, and no added field
finds an old one under its name. A record's plan does so exactly where its renames can be run one
behind the other. Of the plans the planner derives, only those to an empty state fail. -/
theorem fields_move :
    (∀ (P : FieldPlan) (defaults state : String → Option V), P.HasOld state → P.Defaulted defaults →
      (applyCodeChange state (P.instr defaults) = some (P.meant defaults state) ↔
        P.Runs defaults state)) ∧
    (∀ (P : FieldPlan) (defaults state : String → Option V), P.HasOld state →
      (∀ f ∈ P.listed, f ∈ P.targets) →
      (P.migrationPlan.apply state = P.meant defaults state ↔ P.Sequential)) ∧
    (∀ (name : String) (old new : List StateSnap), (new.map StateSnap.name).Nodup →
      (actorStateVerdict name old new).reloads = true →
      ∃ P : FieldPlan, P.old = old.map StateSnap.name ∧ P.new = new.map StateSnap.name ∧
        (∀ action ∈ planImpl (pairs old) (pairs new), P.Agrees action) ∧
        ∀ defaults state : String → Option V,
          (∀ s ∈ new, s.has_default = true → (defaults s.name).isSome) → P.HasOld state →
          (applyCodeChange state (loaderInstr (renamesOf (planImpl (pairs old) (pairs new)))
            P.old P.new defaults) = some (P.meant defaults state) ↔ (new = [] → old = []))) ∧
    ∀ (old new : Shape) (p : MigrationPlan), derivePlan old new = some p →
      ∃ P : FieldPlan, P.old = old.map Prod.fst ∧ P.new = new.map Prod.fst ∧
        P.migrationPlan = p ∧
        ∀ defaults state : String → Option V, P.HasOld state →
          p.apply state = P.meant defaults state := by
  have hruns : ∀ (P : FieldPlan) (defaults state : String → Option V), P.HasOld state →
      P.Defaulted defaults → (applyCodeChange state (P.instr defaults) =
        some (P.meant defaults state) ↔ P.Runs defaults state) :=
    fun P defaults state hstate hdefaults =>
      ⟨FieldPlan.runs_of_applyCodeChange hstate,
        FieldPlan.applyCodeChange_of_runs hstate hdefaults⟩
  refine ⟨hruns, fun P defaults state hstate hadds => FieldPlan.apply_eq_meant_iff hstate hadds,
    fun name old new hnew hreloads => ?_, fun old new p hp => ?_⟩
  · obtain ⟨rename, hrename, hplan⟩ := planImpl_eq (pairs old) (pairs new)
    have hrenames : renamesOf (planImpl (pairs old) (pairs new)) = rename.toList := by
      rw [hplan]
      exact renamesOf_map ((map_fst_pairs new).symm ▸ hnew) hrename
    refine ⟨plannerPlan (pairs old) (pairs new) rename hrename, map_fst_pairs old,
      map_fst_pairs new, agrees_of_reloads hrename hplan hreloads,
      fun defaults state hdefaults hstate => ?_⟩
    have hempty : ∀ shape : List StateSnap, (pairs shape).map Prod.fst = [] ↔ shape = [] :=
      fun shape => by rw [map_fst_pairs, map_eq_nil_iff]
    have hiff := hruns _ defaults state hstate
      (defaulted_of_reloads hrename hplan hreloads hdefaults)
    rw [hrenames]
    refine hiff.trans ⟨fun h hnil => (hempty old).mp (h.fields ((hempty new).mpr hnil)), fun h =>
      ⟨fun hnil => (hempty old).mpr (h ((hempty new).mp hnil)), plannerPlan_sequential hrename,
        fun f hf _ hold => ?_⟩⟩
    exact absurd hold (of_decide_eq_true (mem_filter.mp hf).2)
  · obtain ⟨P, hold, hnew, rfl, hadds, hseq⟩ := exists_recordPlan hp
    exact ⟨P, hold, hnew, rfl, fun defaults state hstate =>
      (FieldPlan.apply_eq_meant_iff hstate hadds).mpr hseq⟩

/-- The plan from a state of one field to a state of none. -/
def emptiedPlan : FieldPlan := plannerPlan [("count", "Int")] [] none nofun

theorem emptied_state_kept :
    (actorStateVerdict "Counter" [⟨"count", "Int", true⟩] []).reloads = true ∧
      planImpl [("count", "Int")] [] = [] ∧
      ¬∀ (P : FieldPlan) (defaults state : String → Option Nat), P.HasOld state →
        P.Defaulted defaults →
        applyCodeChange state (P.instr defaults) = some (P.meant defaults state) := by
  refine ⟨by decide, rfl, fun hall => ?_⟩
  let state : String → Option Nat := fun f => if f = "count" then some 1 else none
  have hstate : emptiedPlan.HasOld state := by
    intro f
    show (if f = "count" then some 1 else none : Option Nat).isSome ↔ f ∈ ["count"]
    by_cases hf : f = "count" <;> simp [hf]
  have hrun := hall emptiedPlan (fun _ => none) state hstate (fun f hf => nomatch hf)
  have hvalue := congrFun (some.inj hrun) "count"
  cases hvalue

theorem fields_move_rename :
    applyCodeChange (fun f => if f = "n" then some 1 else if f = "k" then some 2 else none)
        ((plannerPlan [("n", "Int"), ("k", "Int")] [("m", "Int"), ("k", "Int")] (some ("n", "m"))
          (by rintro _ ⟨⟩; exact ⟨by decide, by decide, by decide, by decide⟩)).instr
            fun _ => (none : Option Nat)) =
      some ((plannerPlan [("n", "Int"), ("k", "Int")] [("m", "Int"), ("k", "Int")] (some ("n", "m"))
          (by rintro _ ⟨⟩; exact ⟨by decide, by decide, by decide, by decide⟩)).meant
            (fun _ => none)
            fun f => if f = "n" then some 1 else if f = "k" then some 2 else none) := by
  refine (fields_move.1 _ _ _ (fun f => ?_) fun f hf htarget => ?_).mpr
    ⟨nofun, plannerPlan_sequential _, fun f hf _ hold => ?_⟩
  · show _ ↔ f ∈ ["n", "k"]
    by_cases hn : f = "n"
    · simp [hn]
    · by_cases hk : f = "k" <;> simp [hn, hk]
  · exact absurd (mem_singleton.mp hf ▸ mem_singleton.mpr rfl) htarget
  · exact absurd hold (of_decide_eq_true (mem_filter.mp hf).2)

end Ridge.Reload
