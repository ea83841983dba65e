import Ridge.Versions.Plans

/-!
# A record's migration edges belong to that record

The result of this part: the exact condition on the records of a workspace and their past under
which a past value of a record is migrated by the record's own edges, to the record's current shape.
-/

namespace Ridge.Versions

open List Option Workspace

namespace Workspace

variable (W : Workspace) (m : Nat)

/-- The checker's promise for the `migrate` blocks of a record: given the fields of the version it
was written for, a block returns a current value of the record. -/
def HooksTyped {V : Type} (inhabits : String → V → Prop) (rm : RecordMeta) (own : Shape)
    (hooks : MigrateBlock → Tagged V → Tagged V) : Prop :=
  ∀ b ∈ W.blocks m, b.record = rm.name → ∀ e, W.lookupRecord m rm.name b.ordinal = some e →
    ∀ v, HasShape inhabits e.shape v.fields → Current inhabits rm own (hooks b v)

/-- The record has a `migrate` block for the hash. -/
def HasBlock (rm : RecordMeta) (h : Hash) : Prop :=
  ∃ b ∈ W.blocks m, b.record = rm.name ∧
    (W.lookupRecord m b.record b.ordinal).map VersionEntry.hash = some h

/-- An edge of the record is emitted for its past shape `e` where it has a `migrate` block or a plan
for it. A value of that shape, whatever the types of the fields and the blocks are, is migrated by
edges of the record alone, to a current value of the record, or there is no migration. -/
structure Belongs (rm : RecordMeta) (own : Shape) (e : VersionEntry) : Prop where
  emitted : W.HasBlock m rm e.hash ∨ (derivePlan e.shape own).isSome →
    ∃ edge ∈ W.emitRecordMigrations m, edge.hash = e.hash ∧ edge.record = rm.name
  runs : ∀ (V : Type) (inhabits : String → V → Prop) (hooks : MigrateBlock → Tagged V → Tagged V)
    (loaded : String → Option ModuleCode) (fields : String → Option V),
    W.HooksTyped m inhabits rm own hooks → loaded rm.fqn = some (W.moduleCode m) →
    HasShape inhabits e.shape fields →
    ∃ k ran outcome, migrateTagged loaded hooks k ⟨⟨rm.fqn, rm.name, e.hash⟩, fields⟩ =
        some (ran, outcome) ∧ (∀ edge ∈ ran, edge.record = rm.name) ∧
      (outcome = .noMigration ⟨rm.fqn, rm.name, e.hash⟩ ∨
        ∃ v, outcome = .migrated v ∧ Current inhabits rm own v)

/-- The record comes first at the hash of its past shape, and the shape found under its bare name
gives the plan its own shape gives. -/
structure ComesFirst (rm : RecordMeta) (own : Shape) (e : VersionEntry) : Prop where
  /-- The first `migrate` block for the hash is the record's. -/
  block : ∀ b, W.firstBlock m e.hash = some b → b.record = rm.name
  /-- Where there is none, no record before it has a plan for the hash, -/
  earlier : W.firstBlock m e.hash = none → ∀ before after,
    W.recordMetas m = before ++ rm :: after → ∀ S ∈ before, W.claim m S e.hash = none
  /-- and what is found under its name is as good as its own shape. -/
  found : W.firstBlock m e.hash = none →
    derivePlan e.shape (W.currentRenderedShape rm) = derivePlan e.shape own
  /-- Where it has no plan itself, no other record has one either. -/
  others : W.firstBlock m e.hash = none → derivePlan e.shape own = none →
    ∀ S ∈ W.recordMetas m, W.claim m S e.hash = none

variable {W m} {d : ArenaDecl} {rm S : RecordMeta} {own : Shape} {e : VersionEntry} {h : Hash}

/-! ## The records of a module -/

theorem recordMeta_eq_some (hmeta : W.recordMeta d = some rm) :
    d.decl.isAnon = false ∧ rm.name = d.decl.name ∧ d.defModule.isSome := by
  unfold recordMeta at hmeta
  split at hmeta
  · cases hmeta
  · next hanon =>
    split at hmeta
    · next shape raw hshape hraw =>
      obtain ⟨fqn, -, rfl⟩ := map_eq_some_iff.mp hmeta
      exact ⟨by simpa using hanon, rfl, by rw [hraw]; rfl⟩
    · cases hmeta

theorem mem_recordMetas (hd : d ∈ W.tycons) (hm : d.defModule = some m)
    (hmeta : W.recordMeta d = some rm) : rm ∈ W.recordMetas m := by
  refine mem_filterMap.mpr ⟨d, mem_filter.mpr ⟨hd, ?_⟩, hmeta⟩
  exact decide_eq_true hm

/-- The tagged records of a module have names of their own. -/
theorem recordMetas_distinct (W : Workspace) (m : Nat) :
    (W.recordMetas m).Pairwise fun S S' => S.name ≠ S'.name := by
  unfold recordMetas
  refine List.Pairwise.filterMap _ (R := fun d d' : ArenaDecl =>
    d.decl.isAnon = false → d'.decl.isAnon = false → d.decl.name ≠ d'.decl.name) ?_ ?_
  · intro d d' hne S hS S' hS'
    obtain ⟨hanon, hname, -⟩ := recordMeta_eq_some hS
    obtain ⟨hanon', hname', -⟩ := recordMeta_eq_some hS'
    rw [hname, hname']
    exact hne hanon hanon'
  · have hfilter := W.distinct.filter fun d => d.defModule = some m
    refine hfilter.imp_of_mem fun hd hd' hne hanon hanon' => ?_
    have hm := of_decide_eq_true (mem_filter.mp hd).2
    have hm' := of_decide_eq_true (mem_filter.mp hd').2
    exact hne hanon hanon' (by rw [hm]; rfl) (hm.trans hm'.symm)

theorem eq_of_name (hS : S ∈ W.recordMetas m) (hrm : rm ∈ W.recordMetas m)
    (hname : S.name = rm.name) : S = rm := by
  have hnodup : ((W.recordMetas m).map RecordMeta.name).Nodup :=
    pairwise_map.mpr (recordMetas_distinct W m)
  exact inj_on_of_nodup_map hnodup hS hrm hname

/-- The versions of the module name the current shape of each record. -/
theorem versions_lookup (hrm : rm ∈ W.recordMetas m) :
    (W.moduleCode m).versions.lookup rm.name = some rm.version := by
  have hdistinct := recordMetas_distinct W m
  unfold moduleCode
  dsimp only
  generalize W.recordMetas m = rms at hrm hdistinct
  induction rms with
  | nil => cases hrm
  | cons S rms ih =>
    rw [map_cons, lookup_cons]
    rw [pairwise_cons] at hdistinct
    rcases mem_cons.mp hrm with rfl | hmem
    · rw [beq_self_eq_true]
    · rw [beq_eq_false_iff_ne.mpr (hdistinct.1 rm hmem).symm]
      exact ih hmem hdistinct.2

/-! ## The edge found for a past value -/

/-- With one shape for the hash, the plan of a record is the one of that shape. -/
theorem claim_eq (he : e ∈ W.past m rm.name) (hversion : e.hash ≠ rm.version)
    (hone : ∀ e' ∈ W.past m rm.name, e'.hash = e.hash → e'.shape = e.shape) :
    W.claim m rm e.hash = derivePlan e.shape (W.currentRenderedShape rm) := by
  unfold claim
  generalize W.past m rm.name = es at he hone
  induction es with
  | nil => cases he
  | cons e' es ih =>
    rw [firstPlan_cons]
    have hrest : ∀ e' ∈ es, e'.hash = e.hash → e'.shape = e.shape :=
      fun e' he' => hone e' (mem_cons_of_mem _ he')
    by_cases hh : e'.hash = e.hash
    · rw [if_pos ⟨hh, hversion⟩, hone e' mem_cons_self hh]
      cases hplan : derivePlan e.shape (W.currentRenderedShape rm) with
      | some p => rfl
      | none =>
        rw [none_or]
        unfold firstPlan
        refine findSome?_eq_none_iff.mpr fun e'' he'' => ?_
        by_cases hand : e''.hash = e.hash ∧ e.hash ≠ rm.version
        · rw [if_pos hand, hrest e'' he'' hand.1, hplan]
        · rw [if_neg hand]
    · rw [if_neg fun hand => hh hand.1, none_or]
      refine ih ?_ hrest
      rcases mem_cons.mp he with rfl | hmem
      · exact absurd rfl hh
      · exact hmem

variable {edge : Edge}

/-- Of the records of a module, a first plan of the record's own name is the record's. -/
theorem findSome_own (hrm : rm ∈ W.recordMetas m)
    (hfind : ((W.recordMetas m).findSome? fun S => (W.claim m S h).map (derivedEdge S h)) = some edge)
    (hown : edge.record = rm.name) :
    (∃ p, W.claim m rm h = some p ∧ edge = derivedEdge rm h p) ∧
      ∀ before after, W.recordMetas m = before ++ rm :: after →
        ∀ S ∈ before, W.claim m S h = none := by
  obtain ⟨before, S, after, hsplit, hS, hbefore⟩ := findSome?_eq_some_iff.mp hfind
  obtain ⟨p, hp, rfl⟩ := map_eq_some_iff.mp hS
  have hmem : S ∈ W.recordMetas m := hsplit ▸ mem_append_right _ mem_cons_self
  have hsame : S = rm := eq_of_name hmem hrm hown
  subst hsame
  refine ⟨⟨p, hp, rfl⟩, fun before' after' hsplit' => ?_⟩
  -- names are distinct, so there is one way to split at the record
  have hnodup : (before' ++ S :: after').Nodup :=
    hsplit' ▸ List.Nodup.of_map _ (pairwise_map.mpr (recordMetas_distinct W m))
  rw [nodup_append, nodup_cons] at hnodup
  have heq : before' = before :=
    ((append_cons_inj_of_notMem (fun hin => hnodup.2.2 S hin S mem_cons_self rfl)
      hnodup.2.1.1).mp (hsplit'.symm.trans hsplit)).1
  subst heq
  exact fun S' hS' => map_eq_none_iff.mp (hbefore S' hS')

/-! ## One step of the dispatcher -/

section
variable {V : Type} {inhabits : String → V → Prop} {hooks : MigrateBlock → Tagged V → Tagged V}
  {loaded : String → Option ModuleCode} {v : Tagged V} {fields : String → Option V}

section

variable (hrm : rm ∈ W.recordMetas m) (hloaded : loaded rm.fqn = some (W.moduleCode m))
include hrm hloaded

theorem migrate_current (hv : v.tag = rm) (k : Nat) :
    migrateTagged loaded hooks (k + 1) v = some ([], .migrated v) := by
  rw [migrateTagged, hv, hloaded]
  dsimp only
  rw [versions_lookup hrm]
  exact if_pos rfl

theorem migrate_past (hversion : h ≠ rm.version) (k : Nat) :
    migrateTagged loaded hooks (k + 1) ⟨⟨rm.fqn, rm.name, h⟩, fields⟩ =
      match (W.emitRecordMigrations m).find? fun e => e.hash = h with
      | none => some ([], .noMigration ⟨rm.fqn, rm.name, h⟩)
      | some e => (migrateTagged loaded hooks k
          (e.body.run hooks ⟨⟨rm.fqn, rm.name, h⟩, fields⟩)).map fun r => (e :: r.1, r.2) := by
  rw [migrateTagged]
  dsimp only
  rw [hloaded]
  dsimp only
  rw [versions_lookup hrm]
  exact if_neg (Ne.symm hversion)

/-- An edge that leads to a current value is the whole migration. -/
theorem migrate_one (hversion : h ≠ rm.version)
    (hfind : ((W.emitRecordMigrations m).find? fun e => e.hash = h) = some edge)
    (hcurrent : (edge.body.run hooks ⟨⟨rm.fqn, rm.name, h⟩, fields⟩).tag = rm) (k : Nat) :
    migrateTagged loaded hooks (k + 2) ⟨⟨rm.fqn, rm.name, h⟩, fields⟩ =
      some ([edge], .migrated (edge.body.run hooks ⟨⟨rm.fqn, rm.name, h⟩, fields⟩)) := by
  rw [migrate_past hrm hloaded hversion, hfind]
  dsimp only
  rw [migrate_current hrm hloaded hcurrent]
  rfl

variable {ran : List Edge} {outcome : Outcome V}

/-- The edge found for a past value is among those that ran. -/
theorem mem_ran {k : Nat} (hversion : h ≠ rm.version)
    (hfind : ((W.emitRecordMigrations m).find? fun e => e.hash = h) = some edge)
    (hrun : migrateTagged loaded hooks k ⟨⟨rm.fqn, rm.name, h⟩, fields⟩ = some (ran, outcome)) :
    edge ∈ ran := by
  cases k with
  | zero => cases hrun
  | succ k =>
    rw [migrate_past hrm hloaded hversion, hfind] at hrun
    obtain ⟨r, -, heq⟩ := map_eq_some_iff.mp hrun
    cases heq
    exact mem_cons_self

/-- However much fuel it took, an edge that leads to a current value was the whole migration. -/
theorem outcome_of_edge {k : Nat} (hversion : h ≠ rm.version)
    (hfind : ((W.emitRecordMigrations m).find? fun e => e.hash = h) = some edge)
    (hcurrent : (edge.body.run hooks ⟨⟨rm.fqn, rm.name, h⟩, fields⟩).tag = rm)
    (hrun : migrateTagged loaded hooks k ⟨⟨rm.fqn, rm.name, h⟩, fields⟩ = some (ran, outcome)) :
    outcome = .migrated (edge.body.run hooks ⟨⟨rm.fqn, rm.name, h⟩, fields⟩) := by
  match k with
  | 0 => cases hrun
  | 1 =>
    rw [migrate_past hrm hloaded hversion, hfind] at hrun
    cases hrun
  | k + 2 =>
    rw [migrate_one hrm hloaded hversion hfind hcurrent] at hrun
    cases hrun
    rfl

end

end

/-! ## The exact condition -/

theorem not_hasBlock (hb : W.firstBlock m h = none) : ¬ W.HasBlock m rm h := by
  rintro ⟨b, hmem, -, hhash⟩
  have hno := find?_eq_none.mp hb b hmem
  exact hno (decide_eq_true hhash)

theorem find_of_comesFirst (hrm : rm ∈ W.recordMetas m) (he : e ∈ W.past m rm.name)
    (hversion : e.hash ≠ rm.version)
    (hone : ∀ e' ∈ W.past m rm.name, e'.hash = e.hash → e'.shape = e.shape)
    (hfirst : W.ComesFirst m rm own e) (hblock : W.firstBlock m e.hash = none) :
    ((W.emitRecordMigrations m).find? fun x => x.hash = e.hash) =
      (derivePlan e.shape own).map (derivedEdge rm e.hash) := by
  have hclaim := (claim_eq he hversion hone).trans (hfirst.found hblock)
  rw [emitRecordMigrations_find, hblock]
  dsimp only
  obtain ⟨before, after, hsplit⟩ := append_of_mem hrm
  cases hplan : derivePlan e.shape own with
  | none =>
    refine findSome?_eq_none_iff.mpr fun S hS => ?_
    rw [hfirst.others hblock hplan S hS]
    rfl
  | some p =>
    have hbefore : before.findSome? (fun S => (W.claim m S e.hash).map (derivedEdge S e.hash)) =
        none := by
      refine findSome?_eq_none_iff.mpr fun S hS => ?_
      rw [hfirst.earlier hblock before after hsplit S hS]
      rfl
    rw [hsplit, findSome?_append, hbefore, none_or, findSome?_cons, hclaim, hplan]
    rfl

theorem belongs_of_comesFirst (hrm : rm ∈ W.recordMetas m) (he : e ∈ W.past m rm.name)
    (hversion : e.hash ≠ rm.version)
    (hone : ∀ e' ∈ W.past m rm.name, e'.hash = e.hash → e'.shape = e.shape)
    (hfirst : W.ComesFirst m rm own e) : W.Belongs m rm own e := by
  cases hblock : W.firstBlock m e.hash with
  | some b =>
    have hfind := emitRecordMigrations_find (W := W) (m := m) (h := e.hash)
    rw [hblock] at hfind
    have hb := mem_of_find?_eq_some hblock
    have hhash := find?_some hblock
    simp only [decide_eq_true_eq] at hhash
    have hrecord := hfirst.block b hblock
    refine ⟨fun _ => ⟨_, mem_of_find?_eq_some hfind, rfl, hrecord⟩, ?_⟩
    intro V inhabits hooks loaded fields hhooks hloaded hfields
    obtain ⟨e', he', hhash'⟩ := map_eq_some_iff.mp hhash
    rw [hrecord] at he'
    -- the block was written for the shape the value has
    have hpast : e' ∈ W.past m rm.name :=
      mem_reverse.mp (mem_of_find?_eq_some he')
    have hcurrent := hhooks b hb hrecord e' he' ⟨⟨rm.fqn, rm.name, e.hash⟩, fields⟩
      (hone e' hpast hhash' ▸ hfields)
    refine ⟨2, _, _, migrate_one hrm hloaded hversion hfind hcurrent.1 0, fun edge hedge => ?_,
      .inr ⟨_, rfl, hcurrent⟩⟩
    rw [mem_singleton.mp hedge]
    exact hrecord
  | none =>
    have hfind := find_of_comesFirst hrm he hversion hone hfirst hblock
    cases hplan : derivePlan e.shape own with
    | none =>
      rw [hplan] at hfind
      refine ⟨?_, ?_⟩
      · rintro (hhas | hsome)
        · exact absurd hhas (not_hasBlock hblock)
        · rw [hplan] at hsome
          cases hsome
      · intro V inhabits hooks loaded fields hhooks hloaded hfields
        refine ⟨1, [], _, ?_, fun edge hedge => absurd hedge not_mem_nil, .inl rfl⟩
        rw [migrate_past hrm hloaded hversion, hfind]
        rfl
    | some p =>
      rw [hplan] at hfind
      refine ⟨fun _ => ⟨_, mem_of_find?_eq_some hfind, rfl, rfl⟩, ?_⟩
      intro V inhabits hooks loaded fields hhooks hloaded hfields
      refine ⟨2, _, _, migrate_one hrm hloaded hversion hfind rfl 0, fun edge hedge => ?_,
        .inr ⟨_, rfl, rfl, derivePlan_sound hplan hfields⟩⟩
      rw [mem_singleton.mp hedge]
      rfl

/-- Fields that hold the names of their own types have just the shape they name. -/
theorem hasShape_eq {S : Shape} {f : String → Option String} :
    HasShape Eq S f ↔ ∀ k, S.lookup k = f k := by
  refine forall_congr' fun k => ⟨fun h => ?_, fun h => ?_⟩
  · generalize S.lookup k = a at h
    generalize f k = b at h
    cases h with
    | none => rfl
    | some h => rw [h]
  · rw [h]
    cases f k with
    | none => exact .none
    | some t => exact .some rfl

theorem comesFirst_of_belongs (hrm : rm ∈ W.recordMetas m) (he : e ∈ W.past m rm.name)
    (hversion : e.hash ≠ rm.version)
    (hone : ∀ e' ∈ W.past m rm.name, e'.hash = e.hash → e'.shape = e.shape)
    (hnodup : (own.map Prod.fst).Nodup) (hbelongs : W.Belongs m rm own e) :
    W.ComesFirst m rm own e := by
  -- a value whose fields hold the names of their own types
  let hooks : MigrateBlock → Tagged String → Tagged String :=
    fun _ _ => ⟨rm, fun k => own.lookup k⟩
  let loaded : String → Option ModuleCode := fun _ => some (W.moduleCode m)
  have hrel : ∀ S : Shape, HasShape Eq S fun k => S.lookup k :=
    fun S => hasShape_eq.mpr fun k => rfl
  obtain ⟨k, ran, outcome, hrun, hran, houtcome⟩ := hbelongs.runs String Eq hooks loaded
    (fun k => e.shape.lookup k) (fun b _ _ e' _ v _ => ⟨rfl, hrel own⟩) rfl (hrel e.shape)
  have hfind := emitRecordMigrations_find (W := W) (m := m) (h := e.hash)
  cases hblock : W.firstBlock m e.hash with
  | some b =>
    rw [hblock] at hfind
    have hmem := mem_ran hrm rfl hversion hfind hrun
    refine ⟨fun b' hb' => ?_, fun hno => ?_, fun hno => ?_, fun hno => ?_⟩
    · cases hblock.symm.trans hb'
      exact hran _ hmem
    all_goals
      rw [hblock] at hno
      cases hno
  | none =>
    rw [hblock] at hfind
    dsimp only at hfind
    have hclaim := claim_eq he hversion hone
    cases hfirst : (W.recordMetas m).findSome? fun S =>
        (W.claim m S e.hash).map (derivedEdge S e.hash) with
    | some edge =>
      rw [hfirst] at hfind
      have hmem := mem_ran hrm rfl hversion hfind hrun
      obtain ⟨⟨p, hp, rfl⟩, hearlier⟩ := findSome_own hrm hfirst (hran _ hmem)
      rw [hclaim] at hp
      -- the plan led to the record's own shape, so it is the plan of that shape
      have hmigrated := outcome_of_edge hrm rfl hversion hfind rfl hrun
      have hsame : ∀ k, own.lookup k = (W.currentRenderedShape rm).lookup k := by
        rcases houtcome with hno | ⟨v, hv, -, hfields⟩
        · rw [hmigrated] at hno
          cases hno
        · rw [hmigrated] at hv
          cases hv
          exact fun k => (hasShape_eq.mp hfields k).trans (congrFun (apply_lookup hp) k)
      have hown := derivePlan_congr hnodup hsame hp
      refine ⟨fun b hb => ?_, fun _ => hearlier, fun _ => hp.trans hown.symm, fun _ hno => ?_⟩
      · rw [hblock] at hb
        cases hb
      · rw [hown] at hno
        cases hno
    | none =>
      rw [hfirst] at hfind
      have hclaims : ∀ S ∈ W.recordMetas m, W.claim m S e.hash = none := fun S hS =>
        map_eq_none_iff.mp (findSome?_eq_none_iff.mp hfirst S hS)
      have hown : derivePlan e.shape own = none := by
        by_contra hne
        obtain ⟨edge, hedge, hhash, -⟩ :=
          hbelongs.emitted (.inr (isSome_iff_ne_none.mpr hne))
        have hno := find?_eq_none.mp hfind edge hedge
        exact hno (decide_eq_true hhash)
      refine ⟨fun b hb => ?_, fun _ before after hsplit S hS => ?_, fun _ => ?_,
        fun _ _ => hclaims⟩
      · rw [hblock] at hb
        cases hb
      · exact hclaims S (hsplit ▸ mem_append_left _ hS)
      · rw [← hclaim, hclaims rm hrm, hown]

/-- A past value of a record belongs to the record's own edges exactly where the record comes
first. -/
theorem migration_belongs_iff (W : Workspace) (m : Nat) {d : ArenaDecl} {rm : RecordMeta}
    {e : VersionEntry} (hd : d ∈ W.tycons) (hm : d.defModule = some m)
    (hmeta : W.recordMeta d = some rm) (he : e ∈ W.past m rm.name)
    (hversion : e.hash ≠ rm.version)
    (hone : ∀ e' ∈ W.past m rm.name, e'.hash = e.hash → e'.shape = e.shape)
    (hnodup : ((W.ownShape d).map Prod.fst).Nodup) :
    W.Belongs m rm (W.ownShape d) e ↔ W.ComesFirst m rm (W.ownShape d) e := by
  have hrm := mem_recordMetas hd hm hmeta
  exact ⟨comesFirst_of_belongs hrm he hversion hone hnodup,
    belongs_of_comesFirst hrm he hversion hone⟩

end Workspace

/-! ## Two records -/

namespace TwoRecords

def field (name : String) : RecordField := ⟨name, .con 30 []⟩

def record (id : Nat) (name : String) (fields : List String) (m : Nat) : ArenaDecl :=
  ⟨⟨id, name, .record ⟨[], fields.map field⟩, false⟩, some m⟩

def shape (fields : List String) : Shape := fields.map fun name => (name, "Int")

def hash (S : Shape) : Hash := BitVec.ofNat 64 S.length

def entry (fields : List String) : VersionEntry := ⟨1, hash (shape fields), shape fields⟩

/-- One module with `P` and `Q`, which once had the same fields. -/
def shared : Workspace where
  tycons := [record 0 "P" ["x"] 0, record 1 "Q" [] 0]
  moduleFqns := ["app"]
  targetNames := ["ridge_app"]
  history := fun _ _ => [entry ["x", "y"]]
  blocks := fun _ => [⟨"Q", 2, 0⟩]
  render := fun _ => "Int"
  shapeHash := hash
  distinct := by decide

/-- Two modules with a `User` each; the second one dropped a field. -/
def namesakes : Workspace where
  tycons := [record 0 "User" [] 0, record 1 "User" ["name"] 1]
  moduleFqns := ["app.a", "app.b"]
  targetNames := ["ridge_app_a", "ridge_app_b"]
  history := fun fqn _ => if fqn = "app.b" then [entry ["name", "email"]] else []
  blocks := fun _ => []
  render := fun _ => "Int"
  shapeHash := hash
  distinct := by decide

end TwoRecords

open TwoRecords in
/-- A past value of `Q` is turned into a `P`, and the second `User` has no edge for its own past. -/
theorem edge_of_another_record :
    ¬ shared.Belongs 0 ⟨"ridge_app", "Q", 0⟩ [] (entry ["x", "y"]) ∧
      ¬ namesakes.Belongs 1 ⟨"ridge_app_b", "User", 1⟩ (shape ["name"])
        (entry ["name", "email"]) ∧
      ∃ edge v, migrateTagged (fun _ => some (shared.moduleCode 0)) (fun _ v => v) 2
          ⟨⟨"ridge_app", "Q", 2⟩, fun k => (shape ["x", "y"]).lookup k⟩ =
        some ([edge], .migrated v) ∧ edge.record = "P" ∧ v.tag.name = "P" := by
  refine ⟨fun h => ?_, fun h => ?_, ?_⟩
  · have hfirst := comesFirst_of_belongs (by decide) (by decide) (by decide)
      (fun e he _ => by rw [mem_singleton.mp he]) (by decide) h
    have hno := hfirst.earlier (by decide) [⟨"ridge_app", "P", 1⟩] [] (by decide) _
      mem_cons_self
    revert hno
    decide
  · have hfirst := comesFirst_of_belongs (by decide) (by decide) (by decide)
      (fun e he _ => by rw [mem_singleton.mp he]) (by decide) h
    have hno := hfirst.found (by decide)
    revert hno
    decide
  · exact ⟨_, _, rfl, rfl, rfl⟩

open TwoRecords in
/-- The first `User` and its past stay together. -/
theorem first_record_belongs :
    shared.Belongs 0 ⟨"ridge_app", "P", 1⟩ (shape ["x"]) (entry ["x", "y"]) := by
  refine (migration_belongs_iff shared 0 (d := record 0 "P" ["x"] 0)
    mem_cons_self rfl rfl (by decide) (by decide)
    (fun e he _ => by rw [mem_singleton.mp he]) (by decide)).mpr ?_
  refine ⟨fun b hb => ?_, fun _ before after hsplit S hS => ?_, fun _ => rfl, fun _ hno => ?_⟩
  · cases hb
  · cases before with
    | nil => cases hS
    | cons S' before =>
      injection hsplit with _ hrest
      have htail : [(⟨"ridge_app", "Q", 0⟩ : RecordMeta)] =
          before ++ ⟨"ridge_app", "P", 1⟩ :: after := hrest
      have hmem : (⟨"ridge_app", "P", 1⟩ : RecordMeta) ∈ [⟨"ridge_app", "Q", 0⟩] := by
        rw [htail]
        exact mem_append_right _ mem_cons_self
      exact absurd hmem (by decide)
  · revert hno
    decide

end Ridge.Versions
