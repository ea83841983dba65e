import Ridge.Records.Constructions

/-!
# When a construction is right

How the record arm of `infer_expr` treats a construction it accepts, and the exact condition under
which the value the code builds is the one the checker typed.
-/

namespace Ridge

open Run CheckM KeyedList List Option Declarations

variable {schema : RecordSchema}

section
variable {P : Declarations} {n : Nat} {inferExpr : Expr → CheckM Ty} {ctor : RecordCtor}
  {inits : List FieldInit} {s s' : Checker}

/-! ## Lookups -/

variable {params : List TyVid}

variable {owner : TyConId}

theorem decl_of_findRecordVariant {name : String}
    (h : P.findRecordVariant name = some (owner, params, schema)) :
    ∃ decl, P.decl owner = some decl ∧
      recordVariantOf name decl = some (params, schema) := by
  obtain ⟨d, hd, hvariant⟩ := exists_of_findSome?_eq_some h
  obtain ⟨v, hv, heq⟩ := map_eq_some_iff.mp hvariant
  cases heq
  exact ⟨d.1, mem_zipIdx_iff_getElem?.mp hd, hv⟩

theorem recordSchema_of_variant {name : String}
    (h : P.findRecordVariant name = some (owner, params, schema)) :
    P.recordSchema owner = none := by
  obtain ⟨decl, hdecl, hvariant⟩ := decl_of_findRecordVariant h
  unfold recordSchema
  rw [hdecl]
  match decl, hvariant with
  | ⟨_, _, .union _, _⟩, _ => rfl

theorem fieldsAt_of_variant {name : String}
    (h : P.findRecordVariant name = some (owner, params, schema)) (args : List Ty) :
    P.fieldsAt name (.con owner args) = some (schemaAt params schema args) := by
  obtain ⟨decl, hdecl, hvariant⟩ := decl_of_findRecordVariant h
  unfold fieldsAt
  dsimp only
  rw [hdecl]
  match decl, hvariant with
  | ⟨_, _, .union _, _⟩, hvariant =>
    dsimp only
    rw [hvariant]
    rfl

variable {id : TyConId}

theorem decl_of_recordSchema (h : P.recordSchema id = some schema) :
    ∃ i name anon, P.decl id = some ⟨i, name, .record schema, anon⟩ := by
  unfold recordSchema at h
  split at h
  · next i name schema' anon hdecl =>
    cases h
    exact ⟨i, name, anon, hdecl⟩
  · cases h

theorem fieldsAt_of_record (h : P.recordSchema id = some schema) (name : String) (args : List Ty) :
    P.fieldsAt name (.con id args) = some (schemaAt schema.params schema args) := by
  obtain ⟨i, n', anon, hdecl⟩ := decl_of_recordSchema h
  unfold fieldsAt
  dsimp only
  rw [hdecl]

/-- The scheme a constructor's name has in the frames. -/
def ctorScheme (P : Declarations) (ctor : RecordCtor) (frames : List (List (String × Scheme))) :
    Option Scheme :=
  ((ctor.dotted.bind fun d => envFind d frames).or (envFind ctor.text frames)).or
    (ctor.dotted.bind fun _ => P.userVariantScheme ctor.text)

theorem lookupCtor_eq : lookupCtor P ctor s = some (.ok (ctorScheme P ctor s.frames), s, []) := by
  cases ctor <;> rfl

theorem envLookup_eq {name : String} :
    envLookup name s = some (.ok (envFind name s.frames), s, []) := rfl

/-- A constructor without a value has no scheme in scope. -/
theorem inferCtorValue_none (h : inferCtorValue P ctor s = some (.ok none, s', [])) :
    ctorScheme P ctor s.frames = none ∧ s' = s := by
  obtain ⟨found, s₁, hfound, h⟩ := bind_accepted.mp h
  rw [lookupCtor_eq] at hfound
  cases hfound
  cases hscheme : ctorScheme P ctor s.frames with
  | some scheme =>
    rw [hscheme] at h
    obtain ⟨t, s₂, -, h⟩ := bind_accepted.mp h
    cases h
  | none =>
    rw [hscheme] at h
    cases hprelude : P.preludeScheme ctor.text with
    | some scheme =>
      dsimp only at h
      rw [hprelude] at h
      obtain ⟨t, s₂, -, h⟩ := bind_accepted.mp h
      cases h
    | none =>
      dsimp only at h
      rw [hprelude] at h
      exact ⟨rfl, (pure_accepted.mp h).2.symm⟩

/-! ## The dispatch -/

/-- What the record arm did with a construction it accepted: it took the name for a record-payload
variant, for a record type, or it checked nothing. -/
inductive Dispatched (P : Declarations) (n : Nat) (inferExpr : Expr → CheckM Ty) (name : String)
    (inits : List FieldInit) (ty : Ty) (js : List Judged) : Prop where
  | variant {owner : TyConId} {params : List TyVid} {schema : RecordSchema} {args : List Ty}
      (hfind : P.findRecordVariant name = some (owner, params, schema))
      (hty : ty = .con owner args)
      (hc : Constructed P n inferExpr inits schema (Declarations.schemaAt params schema args) js)
  | record {id : TyConId} {schema : RecordSchema} {args : List Ty}
      (hnone : P.findRecordVariant name = none) (hid : P.userTycons name = some id)
      (hschema : P.recordSchema id = some schema) (hty : ty = .con id args)
      (hc : Constructed P n inferExpr inits schema
        (Declarations.schemaAt schema.params schema args) js)
  | unchecked (hnone : P.findRecordVariant name = none)
      (hno : ∀ id, P.userTycons name = some id → P.recordSchema id = none) (hjs : js = [])
      (hty : inits ≠ [] ∨ ty = .error)

variable {js : List Judged}

/-- A construction that is not a record-payload variant's. -/
theorem dispatched_of_userTycon {ty : Ty} (hnone : P.findRecordVariant ctor.text = none)
    (hvalue : inits ≠ [] ∨ ctorScheme P ctor s.frames = none)
    (h : inferUserTycon P n inferExpr ctor inits s = some (.ok (ty, js), s', [])) :
    Dispatched P n inferExpr ctor.text inits ty js := by
  unfold inferUserTycon at h
  cases hid : P.userTycons ctor.text with
  | none =>
    rw [hid] at h
    have hno : ∀ id, P.userTycons ctor.text = some id → P.recordSchema id = none := by
      intro id hid'
      rw [hid] at hid'
      cases hid'
    obtain ⟨_, s₁, hvals, h⟩ := bind_accepted.mp h
    obtain ⟨found, s₂, hfound, h⟩ := bind_accepted.mp h
    cases found with
    | some scheme =>
      obtain ⟨t, s₃, -, h⟩ := bind_accepted.mp h
      obtain ⟨heq, -⟩ := pure_accepted.mp h
      cases heq
      refine .unchecked hnone hno rfl (.inl fun hnil => ?_)
      -- without initialisers the name has no scheme
      subst hnil
      obtain ⟨-, rfl⟩ := pure_accepted.mp hvals
      rw [lookupCtor_eq] at hfound
      rcases hvalue with hne | hscheme
      · exact hne rfl
      · rw [hscheme] at hfound
        cases hfound
    | none =>
      cases ctor with
      | bare name =>
        obtain ⟨heq, -⟩ := pure_accepted.mp h
        cases heq
        exact .unchecked hnone hno rfl (.inr rfl)
      | qualified path =>
        exact absurd h not_report_bind_accepted
  | some id =>
    rw [hid] at h
    dsimp only at h
    match hdecl : P.decl id with
    | some ⟨_, _, .record schema, _⟩ =>
      rw [hdecl] at h
      have hschema : P.recordSchema id = some schema := by
        unfold recordSchema
        rw [hdecl]
      obtain ⟨args, rfl, hc⟩ := constructed_of_accepted h
      exact .record hnone hid hschema rfl hc
    | some ⟨_, _, .union _, _⟩ =>
      rw [hdecl] at h
      have hno : ∀ id', P.userTycons ctor.text = some id' → P.recordSchema id' = none := by
        intro id' hid'
        rw [hid] at hid'
        cases hid'
        unfold recordSchema
        rw [hdecl]
      obtain ⟨found, s₁, hfound, h⟩ := bind_accepted.mp h
      rw [envLookup_eq] at hfound
      cases hfound
      cases henv : envFind ctor.text s.frames with
      | some scheme =>
        rw [henv] at h
        obtain ⟨t, s₃, -, h⟩ := bind_accepted.mp h
        obtain ⟨heq, -⟩ := pure_accepted.mp h
        cases heq
        refine .unchecked hnone hno rfl (Or.imp (fun hne => hne) (fun hscheme => ?_) hvalue)
        rw [ctorScheme, henv, or_eq_none_iff, or_eq_none_iff] at hscheme
        cases hscheme.1.2
      | none =>
        rw [henv] at h
        exact absurd h not_report_bind_accepted
    | some ⟨_, _, .primitive, _⟩ | some ⟨_, _, .aliased _ _, _⟩ | some ⟨_, _, .actor, _⟩
    | some ⟨_, _, .builtin, _⟩ =>
      rw [hdecl] at h
      exact absurd h not_report_bind_accepted
    | none =>
      rw [hdecl] at h
      obtain ⟨t, _, hreport, -⟩ := bind_accepted.mp h
      exact absurd hreport not_emitInternal_accepted

theorem dispatched_of_accepted {ty : Ty}
    (h : inferRecord P n inferExpr ctor inits s = some (.ok (.built ty js), s', [])) :
    Dispatched P n inferExpr ctor.text inits ty js := by
  unfold inferRecord at h
  cases hfind : P.findRecordVariant ctor.text with
  | some found =>
    obtain ⟨owner, params, schema⟩ := found
    rw [hfind] at h
    obtain ⟨⟨ty', js'⟩, s₁, hr, h⟩ := bind_accepted.mp h
    obtain ⟨heq, -⟩ := pure_accepted.mp h
    cases heq
    obtain ⟨args, hty, hc⟩ := constructed_of_accepted hr
    exact .variant hfind hty hc
  | none =>
    rw [hfind] at h
    have hbuilt : ∀ {s₁ : Checker}, (inits ≠ [] ∨ ctorScheme P ctor s₁.frames = none) →
        (do
          let r ← inferUserTycon P n inferExpr ctor inits
          pure (.ofBuilt r) : CheckM TypedRecord) s₁ = some (.ok (.built ty js), s', []) →
        Dispatched P n inferExpr ctor.text inits ty js := by
      intro s₁ hvalue hrun
      obtain ⟨⟨ty', js'⟩, s₂, hr, hrun⟩ := bind_accepted.mp hrun
      obtain ⟨heq, -⟩ := pure_accepted.mp hrun
      cases heq
      exact dispatched_of_userTycon hfind hvalue hr
    dsimp only at h
    split at h
    · split at h
      · exact absurd h not_report_bind_accepted
      · obtain ⟨value, s₁, hvalue, hrest⟩ := bind_accepted.mp h
        cases value with
        | some t => cases hrest
        | none =>
          obtain ⟨hscheme, hs⟩ := inferCtorValue_none hvalue
          subst hs
          exact hbuilt (.inr hscheme) hrest
    · next hne => exact hbuilt (.inl fun hnil => hne (by rw [hnil]; rfl)) h

/-! ## The exact condition -/

/-- No field is initialised twice. -/
def EachOnce (inits : List FieldInit) : Prop := (inits.map fun fi => fi.name.text).Nodup

/-- The checker finds, under the name, a declaration of what the bound constructor builds: a
record-payload variant for a variant, a record type for a map. -/
def BuiltAsTyped (P : Declarations) (T : ConstructTables) (binding : Option Binding)
    (name : String) (inits : List FieldInit) : Prop :=
  match P.findRecordVariant name with
  | some _ => builtForm T binding name inits = .variant ∨ builtForm T binding name inits = .bareAtom
  | none => (∃ id schema, P.userTycons name = some id ∧ P.recordSchema id = some schema) ∧
      builtForm T binding name inits = .map

section
variable {V : Type} {vals : Nat → V} {name : String} {id : TyConId} {args : List Ty}
  {v : RecordValue V} {form : BuiltForm}

variable {ps : List (String × RecordValue V)}

theorem form_of_record_payload (hschema : P.recordSchema id = some schema)
    (hv : form.IsValue name inits vals v) (hp : P.payload name (.con id args) v = some ps) :
    form = .map := by
  cases form with
  | map => rfl
  | variant =>
    obtain ⟨tag, -, rfl⟩ := hv
    simp [payload, hschema] at hp
  | bareAtom =>
    obtain ⟨-, rfl⟩ := hv
    simp [payload, hschema] at hp
  | foreign =>
    rcases hv with ⟨symbol, rfl⟩ | ⟨tag, given, rfl, hne, hall⟩
    · cases hp
    · match given, hne, hall with
      | [g], _, hall =>
        obtain ⟨x, rfl⟩ := hall _ mem_cons_self
        cases hp
      | _ :: _ :: _, _, _ => simp [payload] at hp

theorem form_of_variant_payload (hschema : P.recordSchema id = none)
    (hv : form.IsValue name inits vals v) (hp : P.payload name (.con id args) v = some ps) :
    form = .variant ∨ form = .bareAtom := by
  cases form with
  | variant => exact .inl rfl
  | bareAtom => exact .inr rfl
  | map =>
    obtain ⟨tag, -, rfl⟩ := hv
    simp [payload, hschema] at hp
  | foreign =>
    rcases hv with ⟨symbol, rfl⟩ | ⟨tag, given, rfl, hne, hall⟩
    · cases hp
    · match given, hne, hall with
      | [g], _, hall =>
        obtain ⟨x, rfl⟩ := hall _ mem_cons_self
        cases hp
      | _ :: _ :: _, _, _ => simp [payload] at hp

end

variable {T : ConstructTables} {binding : Option Binding} {sb : Bool} {code : RecordCode} {ty : Ty}
  {js : List Judged}

/-- A construction that was checked as one and is built as one is right exactly when no field is
initialised twice. -/
theorem Constructed.right_iff {fields : List (String × Ty)} {name : String} {form : BuiltForm}
    (hc : Constructed P n inferExpr inits schema fields js)
    (hfields : P.fieldsAt name ty = some fields)
    (hform : ∀ (V : Type) (vals : Nat → V) (base : RecordValue V),
      ∃ v, code.value vals base = some v ∧ form.IsValue name inits vals v)
    (hpayload : ∀ (V : Type) (vals : Nat → V) (v : RecordValue V),
      form.IsValue name inits vals v → ∃ tag, (∀ p ∈ tag, p.1 = layoutKey) ∧
        P.payload name ty v = some (tag ++ initPairs vals inits)) :
    RecordRight P n inferExpr name ty inits js code ↔ EachOnce inits := by
  constructor
  · intro h
    exact hc.allJudged_iff.mp h.1
  · intro honce
    refine ⟨hc.allJudged_iff.mpr honce, fun j hj => hc.holds hj, fun V vals base => ?_⟩
    obtain ⟨v, hvalue, hv⟩ := hform V vals base
    obtain ⟨tag, hkeys, hps⟩ := hpayload V vals v hv
    exact ⟨v, hvalue, fields, _, hfields, hps, hc.hasFields vals ty hkeys, fun k t hk =>
      hc.fromInit vals honce hk⟩

/-- An accepted construction is right exactly when no field is initialised twice and the name the
checker looked up is declared as what the constructor builds. -/
theorem construction_right_iff_eachOnce {s₁ s₂ : Checker}
    (haccepted : inferRecord P n inferExpr ctor inits s₁ = some (.ok (.built ty js), s₂, []))
    (hcode : (lowerRecord T binding ctor.text inits).code T sb = .ok code) :
    RecordRight P n inferExpr ctor.text ty inits js code ↔
      EachOnce inits ∧ BuiltAsTyped P T binding ctor.text inits := by
  have hform : ∀ (V : Type) (vals : Nat → V) (base : RecordValue V),
      ∃ v, code.value vals base = some v ∧
        (builtForm T binding ctor.text inits).IsValue ctor.text inits vals v :=
    fun V vals base => lowerRecord_value binding hcode
  -- a right expression has some value with the fields of its type
  have hright : RecordRight P n inferExpr ctor.text ty inits js code →
      ∃ ps fields, ∃ v : RecordValue Unit, P.fieldsAt ctor.text ty = some fields ∧
        (builtForm T binding ctor.text inits).IsValue ctor.text inits (fun _ => ()) v ∧
        P.payload ctor.text ty v = some ps := by
    intro h
    obtain ⟨v, hvalue, fields, ps, hfields, hps, -⟩ := h.2.2 Unit (fun _ => ()) (.symbol "")
    obtain ⟨v', hvalue', hv⟩ := hform Unit (fun _ => ()) (.symbol "")
    rw [hvalue] at hvalue'
    cases hvalue'
    exact ⟨ps, fields, v, hfields, hv, hps⟩
  cases dispatched_of_accepted haccepted with
  | @variant owner params schema args hfind hty hc =>
    subst hty
    have hnone := recordSchema_of_variant hfind
    have htyped : BuiltAsTyped P T binding ctor.text inits ↔
        builtForm T binding ctor.text inits = .variant ∨
          builtForm T binding ctor.text inits = .bareAtom := by
      unfold BuiltAsTyped
      rw [hfind]
    rw [htyped]
    have hiff : builtForm T binding ctor.text inits = .variant ∨
        builtForm T binding ctor.text inits = .bareAtom →
        (RecordRight P n inferExpr ctor.text (.con owner args) inits js code ↔
          EachOnce inits) := by
      intro hf
      refine hc.right_iff (fieldsAt_of_variant hfind args) hform fun V vals v hv => ?_
      rcases hf with hf | hf
      · rw [hf] at hv
        obtain ⟨tag, hkeys, rfl⟩ := hv
        exact ⟨tag, hkeys, by simp [payload, hnone]⟩
      · rw [hf] at hv
        obtain ⟨rfl, rfl⟩ := hv
        exact ⟨[], by simp, by simp [payload, hnone, initPairs]⟩
    constructor
    · intro h
      obtain ⟨ps, fields, v, -, hv, hps⟩ := hright h
      have hf := form_of_variant_payload hnone hv hps
      exact ⟨(hiff hf).mp h, hf⟩
    · rintro ⟨honce, hf⟩
      exact (hiff hf).mpr honce
  | @record id schema args hnone hid hschema hty hc =>
    subst hty
    have htyped : BuiltAsTyped P T binding ctor.text inits ↔
        builtForm T binding ctor.text inits = .map := by
      unfold BuiltAsTyped
      rw [hnone]
      exact ⟨fun h => h.2, fun h => ⟨⟨id, schema, hid, hschema⟩, h⟩⟩
    rw [htyped]
    have hiff : builtForm T binding ctor.text inits = .map →
        (RecordRight P n inferExpr ctor.text (.con id args) inits js code ↔ EachOnce inits) := by
      intro hf
      refine hc.right_iff (fieldsAt_of_record hschema _ args) hform fun V vals v hv => ?_
      rw [hf] at hv
      obtain ⟨tag, hkeys, rfl⟩ := hv
      exact ⟨tag, hkeys, by simp [payload, hschema]⟩
    constructor
    · intro h
      obtain ⟨ps, fields, v, -, hv, hps⟩ := hright h
      have hf := form_of_record_payload hschema hv hps
      exact ⟨(hiff hf).mp h, hf⟩
    · rintro ⟨honce, hf⟩
      exact (hiff hf).mpr honce
  | unchecked hnone hno hjs hty =>
    subst hjs
    constructor
    · intro h
      -- nothing was judged, so there was nothing to judge, and the type has no fields
      rcases hty with hne | rfl
      · obtain ⟨j, hj, -⟩ := h.1 0 (length_pos_iff.mpr hne)
        cases hj
      · obtain ⟨ps, fields, v, hfields, -⟩ := hright h
        cases hfields
    · rintro ⟨-, htyped⟩
      unfold BuiltAsTyped at htyped
      rw [hnone] at htyped
      obtain ⟨⟨id, schema, hid, hschema⟩, -⟩ := htyped
      rw [hno id hid] at hschema
      cases hschema

end

end Ridge
