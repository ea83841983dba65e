import Ridge.Records.Dispatch

/-!
# Record literals and updates

Both walk the initialisers and type-check each one, and both put all of them into one map, where
the last of a name counts; so a repeated name does no harm here. An update of a receiver that is
not known yet is right at every record type its obligations are met at.
-/

namespace Ridge

open Run CheckM KeyedList List Option Declarations

variable {T : ConstructTables} {code : RecordCode}

section
variable {P : Declarations} {n : Nat} {inferExpr : Expr → CheckM Ty} {inits : List FieldInit}
  {js : List Judged} {s s' : Checker} {ty : Ty}

theorem allJudged_of_walk {R : FieldInit × Nat → Judged → Prop}
    (h : List.Forall₂ R inits.zipIdx js) (hR : ∀ p j, R p j → j.init = p.2) :
    AllJudged inits js := by
  intro i hi
  have hmem : (inits[i], i) ∈ inits.zipIdx :=
    mem_zipIdx_iff_getElem?.mpr (getElem?_eq_getElem hi)
  obtain ⟨j, hj, hr⟩ := exists_right h hmem
  exact ⟨j, hj, hR _ _ hr⟩

/-! ## Literals -/

variable {V : Type}

variable {fields : List (String × Ty)}

theorem lastOf_litFields (vals : Nat → V) {l : List (FieldInit × Nat)}
    (hinit : List.Forall₂ (fun p j => j.init = p.2) l js)
    (hnames : List.Forall₂ (fun p f => f.1 = p.1.name.text) l fields)
    (hown : List.Forall₂ (fun f (j : Judged) => j.against = .own f.2) fields js) (k : String) :
    (lastOf k fields = none ∧
      lastOf k (l.map fun p => (p.1.name.text, RecordValue.given (vals p.2))) = none) ∨
    ∃ j ∈ js, ∃ p ∈ l, ∃ t, j.init = p.2 ∧ p.1.name.text = k ∧ j.against = .own t ∧
      lastOf k fields = some t ∧
      lastOf k (l.map fun p => (p.1.name.text, RecordValue.given (vals p.2))) =
        some (.given (vals j.init)) := by
  induction hinit generalizing fields with
  | nil =>
    cases hnames
    exact .inl ⟨rfl, rfl⟩
  | @cons p j l js hj _ ih =>
    cases hnames with
    | @cons _ f _ fields hname hnames =>
      cases hown with
      | cons hagainst hown =>
        rw [map_cons, lastOf_cons, lastOf_cons]
        rcases ih hnames hown with ⟨hf, hl⟩ | ⟨j', hj', p', hp', t, hi, hk, ha, hf, hl⟩
        · -- nothing later has the name: this initialiser counts, if it is one of the name
          rw [hf, hl, none_or, none_or]
          by_cases hk : k = p.1.name.text
          · right
            refine ⟨j, mem_cons_self, p, mem_cons_self, f.2, hj, hk.symm, hagainst, ?_,
              ?_⟩
            · rw [if_pos (hk.trans hname.symm)]
            · rw [if_pos hk, hj]
          · left
            rw [if_neg (fun h => hk (h.trans hname)), if_neg hk]
            exact ⟨rfl, rfl⟩
        · right
          refine ⟨j', mem_cons_of_mem _ hj', p', mem_cons_of_mem _ hp', t, hi, hk, ha, ?_,
            ?_⟩
          · rw [hf, some_or]
          · rw [hl, some_or]

variable {sb : Bool}

theorem literal_right
    (haccepted : inferRecordLit P n inferExpr inits s = some (.ok (ty, js), s', []))
    (hcode : (lowerRecordLit inits).code T sb = .ok code) :
    RecordRight P n inferExpr "" ty inits js code := by
  obtain ⟨fields, rfl, hjs, hnames, hown⟩ := inferRecordLit_accepted haccepted
  refine ⟨allJudged_of_walk hjs fun p j h => h.1, fun j hj => (exists_left hjs hj).elim
    fun p hp => hp.2.2, fun V vals base => ?_⟩
  unfold lowerRecordLit at hcode
  rw [record_code] at hcode
  cases hcode
  have hinit : List.Forall₂ (fun (p : FieldInit × Nat) (j : Judged) => j.init = p.2)
      inits.zipIdx js := hjs.imp fun p j h => h.1
  refine ⟨.map (initPairs vals inits), ?_, normaliseFields fields, _, rfl, rfl, ?_, ?_⟩
  · show Option.map _ (RecordCode.pairValues vals base ([] ++ _)) = _
    rw [nil_append, pairValues_init]
    rfl
  · intro k hk
    rw [normaliseFields, lookup_normalise]
    rcases lastOf_litFields vals hinit hnames hown k with
      ⟨hf, hl⟩ | ⟨j, -, p, -, t, -, -, -, hf, hl⟩
    · rw [hf, show lastOf k (initPairs vals inits) = none from hl]
      exact ⟨id, fun _ => id⟩
    · rw [hf, show lastOf k (initPairs vals inits) = _ from hl]
      exact ⟨fun _ => rfl, fun _ _ => rfl⟩
  · intro k t hk
    rw [normaliseFields, lookup_normalise] at hk
    rcases lastOf_litFields vals hinit hnames hown k with
      ⟨hf, -⟩ | ⟨j, hj, p, hp, t', hi, hname, hagainst, hf, hl⟩
    · rw [hf] at hk
      cases hk
    · rw [hf] at hk
      cases hk
      refine ⟨j, hj, p.1, ?_, hname, by rw [Judged.Compared, hagainst], hl⟩
      rw [hi]
      exact mem_zipIdx_iff_getElem?.mp hp

/-! ## Updates -/

/-- What the code of an update evaluates to on a map. -/
theorem lowerWith_value (vals : Nat → V) (old : List (String × RecordValue V))
    (hcode : (lowerWith inits).code T sb = .ok code) :
    code.value vals (.map old) = some (.map (old ++ initPairs vals inits)) := by
  have hpairs := pairValues_init vals (.map old) inits.zipIdx
  have hmap : ((inits.zipIdx.map fun p => (p.1.name.text, p.2)).map fun u =>
      (u.1, RecordCode.init u.2)) = inits.zipIdx.map fun p => (p.1.name.text, .init p.2) := by
    rw [List.map_map]
    rfl
  unfold lowerWith IrRecord.code at hcode
  rw [hmap] at hcode
  cases sb with
  | true | false =>
    cases hcode
    show Option.bind (some _) _ = _
    rw [Option.bind_some, hpairs]
    rfl

/-- The type is one whose values are maps. -/
def RecordTy (P : Declarations) : Ty → Prop
  | .con id _ => (P.recordSchema id).isSome
  | .record _ _ => True
  | _ => False

variable {name : String}

theorem payload_of_recordTy (h : RecordTy P ty) {v : RecordValue V}
    {ps : List (String × RecordValue V)} (hp : P.payload name ty v = some ps) :
    v = .map ps ∧ ∀ qs : List (String × RecordValue V), P.payload name ty (.map qs) = some qs := by
  cases ty with
  | con id args =>
    have hne : ¬ P.recordSchema id = none := by
      intro hnone
      rw [RecordTy, hnone] at h
      cases h
    have hsome : (P.recordSchema id).isSome = true := h
    refine ⟨?_, fun qs => by rw [payload, if_pos hsome]⟩
    cases v with
    | map qs =>
      rw [payload, if_pos hsome] at hp
      cases hp
      rfl
    | given | symbol | layout => cases hp
    | atom tag =>
      rw [payload, if_neg fun h => hne h.2] at hp
      cases hp
    | tuple vs =>
      unfold payload at hp
      split at hp <;> simp_all
  | var | rigid | fn | tuple | aliased | error => exact h.elim
  | record fields tail =>
    refine ⟨?_, fun qs => rfl⟩
    cases v with
    | map qs => cases hp; rfl
    | given | symbol | atom | layout | tuple => cases hp

/-- An update is right at a record type where each initialiser was compared with the type of the
field it names. -/
theorem updatedRight_of_walk {met : Ty → RecordRequirement → Prop}
    (hcode : (lowerWith inits).code T sb = .ok code) (hty : RecordTy P ty)
    (hfields : P.fieldsAt name ty = some fields)
    (hjs : List.Forall₂ (fun (p : FieldInit × Nat) (j : Judged) => j.init = p.2 ∧ ∃ t, fields.lookup p.1.name.text = some t ∧ j.Compared met t) inits.zipIdx js)
    (vals : Nat → V) {base : RecordValue V} (hbase : HasShape P name ty base) :
    ∃ v, code.value vals base = some v ∧
      UpdatedRight P name met ty inits js vals base v := by
  obtain ⟨fields', old, hfields', hold, hshape⟩ := hbase
  rw [hfields] at hfields'
  cases hfields'
  obtain ⟨rfl, hput⟩ := payload_of_recordTy hty hold
  refine ⟨_, lowerWith_value vals old hcode, fields, old, _, hfields, hold, hput _, ?_, ?_⟩
  · intro k hk
    have hkeys : (lastOf k (initPairs vals inits)).isSome → (fields.lookup k).isSome := by
      intro hsome
      obtain ⟨fi, hfi, rfl⟩ := lastOf_initPairs_isSome.mp hsome
      obtain ⟨i, hi⟩ := mem_iff_getElem?.mp hfi
      obtain ⟨j, -, -, t, ht, -⟩ := exists_right hjs
        (mem_zipIdx_iff_getElem?.mpr hi : (fi, i) ∈ inits.zipIdx)
      rw [ht]
      rfl
    rw [lastOf_append]
    constructor
    · intro hdeclared
      cases lastOf k (initPairs vals inits) with
      | some v => rfl
      | none => exact (hshape k hk).1 hdeclared
    · intro hclosed hsome
      cases hlast : lastOf k (initPairs vals inits) with
      | some v => exact hkeys (by rw [hlast]; rfl)
      | none =>
        rw [hlast, none_or] at hsome
        exact (hshape k hk).2 hclosed hsome
  · intro k
    rw [lastOf_append]
    cases hlast : lastOf k (initPairs vals inits) with
    | none => exact .inl rfl
    | some v =>
      right
      obtain ⟨i, fi, hi, hk, rfl⟩ := of_lastOf_initPairs hlast
      obtain ⟨j, hj, hinit, t, ht, hcompared⟩ := exists_right hjs
        (mem_zipIdx_iff_getElem?.mpr hi : (fi, i) ∈ inits.zipIdx)
      dsimp only at hinit ht
      subst hinit
      rw [hk] at ht
      refine ⟨t, ht, j, hj, fi, hi, hk, hcompared, ?_⟩
      rw [lastOf_append, hlast, some_or]

/-- The obligation is met at a type with these fields: the field it names is declared, and its type
was compared with the one the obligation holds. -/
def MetAt (met : Ty → RecordRequirement → Prop) (fields : List (String × Ty))
    (r : RecordRequirement) : Prop :=
  ∃ k found t, r.field = some (k, found) ∧ fields.lookup k = some t ∧ met t r

/-- An update is right: every initialiser was type-checked, and on any record of the static type
the code builds a record of that type whose fields are the base's or checked initialisers. Where the
static type is still unknown, this is said of every record type its obligations are met at. -/
def UpdateRight (P : Declarations) (n : Nat) (inferExpr : Expr → CheckM Ty) (ty : Ty)
    (inits : List FieldInit) (js : List Judged) (code : RecordCode) : Prop :=
  AllJudged inits js ∧ (∀ j ∈ js, j.Holds P n inferExpr inits) ∧
    ∀ (met : Ty → RecordRequirement → Prop) (T : Ty) (fields : List (String × Ty)),
      ((∃ v, ty = .var v) ∨ T = ty) → RecordTy P T → P.fieldsAt "" T = some fields →
      (∀ j ∈ js, ∀ r, j.against = .posed r → MetAt met fields r) →
      ∀ (V : Type) (vals : Nat → V) (base : RecordValue V), HasShape P "" T base →
        ∃ v, code.value vals base = some v ∧ UpdatedRight P "" met T inits js vals base v

theorem mem_zipIdx_get (p : FieldInit × Nat) (hp : p ∈ inits.zipIdx) : inits[p.2]? = some p.1 :=
  mem_zipIdx_iff_getElem?.mp hp

/-- An update of a known receiver, each initialiser unified with the type of its field. -/
theorem update_right_of_known {declared : String → Option Ty}
    (hcode : (lowerWith inits).code T sb = .ok code) (hrecord : RecordTy P ty)
    (hdeclared : ∀ fields, P.fieldsAt "" ty = some fields → ∀ k, declared k = fields.lookup k)
    (hjs : List.Forall₂ (fun (p : FieldInit × Nat) (j : Judged) => j.init = p.2 ∧ (∃ t, declared p.1.name.text = some t ∧ j.against = .declared t) ∧ j.Holds P n inferExpr inits) inits.zipIdx js) :
    UpdateRight P n inferExpr ty inits js code := by
  refine ⟨allJudged_of_walk hjs fun p j h => h.1, fun j hj => (exists_left hjs hj).elim
    fun p hp => hp.2.2.2, fun met U fields hU _ hfields _ V vals base hbase => ?_⟩
  have hU : U = ty := by
    rcases hU with ⟨v, rfl⟩ | hU
    · exact hrecord.elim
    · exact hU
  subst hU
  refine updatedRight_of_walk hcode hrecord hfields (hjs.imp fun p j h => ?_) vals hbase
  obtain ⟨t, ht, hagainst⟩ := h.2.1
  exact ⟨h.1, t, hdeclared fields hfields _ ▸ ht, by rw [Judged.Compared, hagainst]⟩

theorem fieldTy_eq_lookup {schema : RecordSchema} {args : List Ty} {k : String} :
    (schema.fieldTy k).map (substituteSchema · schema.params args) =
      (schemaAt schema.params schema args).lookup k := by
  unfold RecordSchema.fieldTy schemaAt
  induction schema.fields with
  | nil => rfl
  | cons f fs ih =>
    rw [find?_cons, map_cons, lookup_cons_ite]
    by_cases hk : f.name = k
    · rw [decide_eq_true hk, if_pos hk.symm]
      rfl
    · rw [decide_eq_false hk, if_neg fun h => hk h.symm]
      exact ih

/-- An accepted update is right, unless the type of its receiver is the error type and there is
something to update. -/
theorem update_right_iff {baseTy : Ty}
    (haccepted : inferRecordWith P n inferExpr baseTy inits s = some (.ok (ty, js), s', []))
    (hcode : (lowerWith inits).code T sb = .ok code) :
    UpdateRight P n inferExpr ty inits js code ↔
      inits = [] ∨ s.tables.deepResolve P.workspace n baseTy ≠ some .error := by
  obtain ⟨base, s₁, hbase, h⟩ := bind_accepted.mp haccepted
  obtain ⟨t, ht, hr, hs, -⟩ := read_eq_some.mp hbase
  cases hr
  subst hs
  rw [ht]
  match base with
  | .error =>
    cases eq_of_pure_accepted h
    constructor
    · intro hright
      refine .inl (eq_nil_of_length_eq_zero (Nat.le_zero.mp (not_lt.mp fun hpos => ?_)))
      obtain ⟨j, hj, -⟩ := hright.1 0 hpos
      cases hj
    · rintro (rfl | hne)
      · refine ⟨fun i hi => absurd hi (Nat.not_lt_zero i), fun j hj => absurd hj (by simp),
          fun met U fields hU hrecord => ?_⟩
        rcases hU with ⟨v, hv⟩ | rfl
        · cases hv
        · exact hrecord.elim
      · exact absurd rfl hne
  | .var v =>
    refine iff_of_true ?_ (.inr (by simp))
    obtain ⟨js', s₂, hjs, h⟩ := bind_accepted.mp h
    cases eq_of_pure_accepted h
    obtain ⟨module, s₃, -, hjs⟩ := bind_accepted.mp hjs
    have hwalk : ∃ s₄ s₅, poseUpdates inferExpr (.var v) inits.zipIdx s₄ =
        some (.ok js, s₅, []) := by
      split at hjs
      · obtain ⟨_, s₄, -, hjs⟩ := bind_accepted.mp hjs
        exact ⟨s₄, _, hjs⟩
      · exact ⟨s₃, _, hjs⟩
    obtain ⟨s₄, s₅, hwalk⟩ := hwalk
    have hjs := poseUpdates_accepted (P := P) (n := n) mem_zipIdx_get hwalk
    refine ⟨allJudged_of_walk hjs fun p j h => h.1, fun j hj => (exists_left hjs hj).elim
      fun p hp => hp.2.2.2, fun met U fields _ hrecord hfields hmet V vals base hbase => ?_⟩
    refine updatedRight_of_walk hcode hrecord hfields ?_ vals hbase
    -- what an obligation is met with is the type of the field its initialiser names
    refine (forall₂_mem hjs).imp fun p j h => ?_
    obtain ⟨⟨hinit, ⟨r, hagainst, -, hfield⟩, -⟩, hj⟩ := h
    obtain ⟨k, found, t, hk, hlookup, hmet'⟩ := hmet j hj r hagainst
    rw [hfield] at hk
    cases hk
    exact ⟨hinit, t, hlookup, by rw [Judged.Compared, hagainst]; exact hmet'⟩
  | .record rowFields tail =>
    refine iff_of_true ?_ (.inr (by simp))
    obtain ⟨js', s₂, hjs, h⟩ := bind_accepted.mp h
    cases eq_of_pure_accepted h
    refine update_right_of_known hcode trivial ?_
      (inferUpdates_accepted mem_zipIdx_get (fun p _ s₁ s₂ h => absurd h not_report_accepted) hjs)
    intro fields hfields k
    cases hfields
    rfl
  | .con id args =>
    refine iff_of_true ?_ (.inr (by simp))
    cases hschema : P.recordSchema id with
    | none =>
      dsimp only at h
      rw [hschema] at h
      exact absurd h not_report_bind_accepted
    | some schema =>
      dsimp only at h
      rw [hschema] at h
      obtain ⟨current, s₂, -, h⟩ := bind_accepted.mp h
      split at h
      · exact absurd h not_report_bind_accepted
      · obtain ⟨_, s₃, hunknown, h⟩ := bind_accepted.mp h
        obtain ⟨js', s₄, hjs, h⟩ := bind_accepted.mp h
        cases eq_of_pure_accepted h
        have hrecord : RecordTy P (.con id args) := by
          rw [RecordTy, hschema]
          rfl
        refine update_right_of_known hcode hrecord ?_
          (inferUpdates_accepted mem_zipIdx_get (fun p hp s₁ s₂ _ => ?_) hjs)
        · intro fields hfields k
          rw [fieldsAt_of_record hschema] at hfields
          cases hfields
          exact fieldTy_eq_lookup
        · rw [isSome_map, fieldTy_isSome]
          exact reportUnknown_accepted hunknown p.1 (mem_of_getElem? (mem_zipIdx_get p hp))
  | .fn _ _ _ | .tuple _ | .rigid _ _ | .aliased _ _ =>
    exact absurd h not_report_bind_accepted

end

end Ridge
