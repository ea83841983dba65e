import Ridge.Records.Carried

/-!
# Record values have the shape of their types

The result of this part: which record expressions build a value of the type they were given, each
field out of an initialiser that was checked for it; and that a check left for later is made.
-/

namespace Ridge

open Run CheckM Ledger

section
variable {P : Declarations} {n : Nat} {J : List ObligationEvent} {s s' : Checker}
  {r r' : RecordRequirement} {inferExpr : Expr → CheckM Ty} {inits : List FieldInit} {ty U : Ty}
  {js : List Judged} {code : RecordCode}

/-! ## Updates whose receiver is known later -/

/-- Whatever meets the obligation another one goes on as, meets it. -/
theorem MetBy.of_sameField {receiver declared : Ty} (hsame : SameField J r r')
    (h : MetBy P J r' receiver declared) : MetBy P J r receiver declared := by
  obtain ⟨k, t', fields, hr', hreceiver, hfields, hlookup, hlinked⟩ := h
  cases hfield : r.field with
  | none =>
    rw [hsame.2.1 hfield] at hr'
    cases hr'
  | some f =>
    obtain ⟨k₀, t⟩ := f
    obtain ⟨t₁, ht₁, hlinked₁⟩ := hsame.2.2 k₀ t hfield
    rw [ht₁] at hr'
    cases hr'
    refine ⟨k, t, fields, hfield, hreceiver, hfields, hlookup, .trans _ _ _ hlinked ?_⟩
    exact .symm _ _ hlinked₁

variable {inst : RecordRequirement → RecordRequirement}

/-- A right update whose obligations were met at `U`, or their instances were, builds a record of
`U` out of the base's fields and of initialisers compared with the types of `U`. -/
theorem UpdateRight.at_met (h : UpdateRight P n inferExpr ty inits js code)
    (hname : ∀ r, (inst r).field.map Prod.fst = r.field.map Prod.fst)
    (hty : (∃ v, ty = .var v) ∨ U = ty) (hU : RecordTy P U)
    (hmet : ∀ j ∈ js, ∀ r, j.against = .posed r → ∃ declared, MetBy P J (inst r) U declared)
    {V : Type} (vals : Nat → V) {base : RecordValue V} (hbase : HasShape P "" U base) :
    ∃ v, code.value vals base = some v ∧
      UpdatedRight P "" (fun t r => MetBy P J (inst r) U t) U inits js vals base v := by
  obtain ⟨fields, ps, hfields, hps, hhas⟩ := id hbase
  refine h.2.2 _ U fields hty hU hfields (fun j hj r hr => ?_) V vals base hbase
  -- what was met at the type is met at its fields
  obtain ⟨declared, hdeclared⟩ := hmet j hj r hr
  obtain ⟨k, t, fields', hfield, -, hfields', hlookup, -⟩ := id hdeclared
  rw [hfields] at hfields'
  cases hfields'
  have hfield' := hname r
  rw [hfield] at hfield'
  obtain ⟨⟨k', found⟩, hfound, rfl⟩ := Option.map_eq_some_iff.mp hfield'.symm
  exact ⟨_, found, declared, hfound, hlookup, hdeclared⟩

/-! ## Runs -/

/-- What a run has to keep to: no receiver comes out as the error type, and a release lets go only
what a scheme carries. -/
structure KeepsObligations (J : List ObligationEvent) : Prop where
  absorbed : ∀ r, .absorbed r ∉ J
  letGo : ∀ r, .letGo r ∈ J → CarriedIn J r

end

variable (P : Declarations) (n : Nat) (inferExpr : Expr → CheckM Ty) (T : ConstructTables)

/-- Accepted constructions are right exactly where no field is initialised twice and the name is
looked up to what the constructor builds, literals always, and updates exactly where the receiver is
not the error type. What an update leaves for later is, in a run that keeps to it, still to be
checked, checked against the declared type of the field, or carried by a scheme to all its uses; and
once it was checked at a type, the update is right at that type. -/
theorem record_values_right_iff :
    (∀ (ctor : RecordCtor) (inits : List FieldInit) (binding : Option Binding) (sb : Bool)
      (s s' : Checker) (ty : Ty) (js : List Judged) (code : RecordCode),
      inferRecord P n inferExpr ctor inits s = some (.ok (.built ty js), s', []) →
      (lowerRecord T binding ctor.text inits).code T sb = .ok code →
      (RecordRight P n inferExpr ctor.text ty inits js code ↔
        EachOnce inits ∧ BuiltAsTyped P T binding ctor.text inits)) ∧
    (∀ (inits : List FieldInit) (sb : Bool) (s s' : Checker) (ty : Ty) (js : List Judged)
      (code : RecordCode),
      inferRecordLit P n inferExpr inits s = some (.ok (ty, js), s', []) →
      (lowerRecordLit inits).code T sb = .ok code →
      RecordRight P n inferExpr "" ty inits js code) ∧
    (∀ (baseTy : Ty) (inits : List FieldInit) (sb : Bool) (s s' : Checker) (ty : Ty)
      (js : List Judged) (code : RecordCode),
      inferRecordWith P n inferExpr baseTy inits s = some (.ok (ty, js), s', []) →
      (lowerWith inits).code T sb = .ok code →
      (UpdateRight P n inferExpr ty inits js code ↔
        inits = [] ∨ s.tables.deepResolve P.workspace n baseTy ≠ some .error)) ∧
    ∀ (J : List ObligationEvent) (s : Checker), CheckRun P n J s → KeepsObligations J →
      (∀ r, .remembered r ∈ J → ∃ r', Leads obligationLedger J r r' ∧ SameField J r r' ∧
        (r' ∈ s.requirements ∨
          (∃ receiver declared, .met r' receiver declared ∈ J ∧
            MetBy P J r receiver declared) ∨
          .asRecord r' ∈ J ∨ CarriedIn J r')) ∧
      (∀ scheme ρ, .used scheme ρ ∈ J →
        ∀ r ∈ scheme.recordFields, .remembered (r.mapTypes ρ.apply) ∈ J) ∧
      ∀ (inits : List FieldInit) (v : TyVid) (js : List Judged) (code : RecordCode)
        (inst : RecordRequirement → RecordRequirement) (U : Ty),
        UpdateRight P n inferExpr (.var v) inits js code →
        (∀ r, (inst r).field.map Prod.fst = r.field.map Prod.fst) → RecordTy P U →
        (∀ j ∈ js, ∀ r, j.against = .posed r → ∃ declared, MetBy P J (inst r) U declared) →
        ∀ (V : Type) (vals : Nat → V) (base : RecordValue V), HasShape P "" U base →
          ∃ w, code.value vals base = some w ∧
            UpdatedRight P "" (fun t r => MetBy P J (inst r) U t) U inits js vals base w := by
  refine ⟨?_, ?_, ?_, ?_⟩
  · intro ctor inits binding sb s s' ty js code haccepted hcode
    exact construction_right_iff_eachOnce haccepted hcode
  · intro inits sb s s' ty js code haccepted hcode
    exact literal_right haccepted hcode
  · intro baseTy inits sb s s' ty js code haccepted hcode
    exact update_right_iff haccepted hcode
  · intro J s hrun hkeeps
    refine ⟨fun r hr => ?_, fun scheme ρ hused r hr => hrun.uses hused hr,
      fun inits v js code inst U hright hname hU hmet V vals base hbase =>
        hright.at_met hname (.inl ⟨v, rfl⟩) hU hmet vals hbase⟩
    obtain ⟨r', hleads, hsame, hend⟩ := hrun.settled hkeeps.letGo hr
    refine ⟨r', hleads, hsame, ?_⟩
    rcases hend with hstands | ⟨receiver, declared, hmet, hby⟩ | habsorbed | hrecord | hcarried
    · exact .inl hstands
    · exact .inr (.inl ⟨receiver, declared, hmet, hby.of_sameField hsame⟩)
    · exact absurd habsorbed (hkeeps.absorbed r')
    · exact .inr (.inr (.inl hrecord))
    · exact .inr (.inr (.inr hcarried))

/-! ## One record type -/

namespace OneRecord

/-- `type R = { a: Int }`. -/
def decls : Declarations where
  workspace := { Workspace.bare with
    tyconDecls := [⟨0, "R", .record ⟨[], [⟨"a", .con 30 []⟩]⟩, false⟩] }
  opaqueIn := fun _ => none
  userTycons := fun name => if name = "R" then some 0 else none
  preludeTycon := fun _ => false
  preludeScheme := fun _ => none
  rigidTarget := id

def judge : Expr → CheckM Ty
  | .literal (.intDec _ _) => pure (.con 30 [])
  | .literal (.text _ _) => pure (.con 31 [])
  | _ => pure .error

def start : Checker := ⟨.new, [], [], some 0⟩

def named (name : String) : Ident := ⟨name, ⟨0, 0⟩⟩

def one : FieldInit := ⟨named "a", some (.literal (.intDec "1" ⟨0, 0⟩)), ⟨0, 0⟩⟩
def text : FieldInit := ⟨named "a", some (.literal (.text "x" ⟨0, 0⟩)), ⟨0, 0⟩⟩

def tables : ConstructTables :=
  ⟨fun _ => none, fun _ => none, fun name => if name = "R" then some 0 else none, fun _ => none⟩

/-- The resolver bound `R` to the record constructor. -/
def ctorOf : Binding := .constructor 0 0 true 0

def judgedOne : List Judged := [⟨0, .con 30 [], .declared (.con 30 [])⟩]

theorem accepts_one : inferRecord decls 3 judge (.bare (named "R")) [one] start =
    some (.ok (.built (.con 0 []) judgedOne), start, []) := rfl

/-- The second initialiser is not looked at. -/
theorem accepts_repeated : inferRecord decls 3 judge (.bare (named "R")) [one, text] start =
    some (.ok (.built (.con 0 []) judgedOne), start, []) := rfl

theorem builtAsTyped (inits : List FieldInit) :
    BuiltAsTyped decls tables (some ctorOf) "R" inits := by
  refine ⟨⟨0, ⟨[], [⟨"a", .con 30 []⟩]⟩, rfl, rfl⟩, ?_⟩
  rfl

/-- What the code of the construction is, whatever its initialisers. -/
def codeOf (inits : List FieldInit) : RecordCode :=
  .mapLit (inits.zipIdx.map fun p => (p.1.name.text, .init p.2))

theorem lowers_one : (lowerRecord tables (some ctorOf) "R" [one]).code tables false =
    .ok (codeOf [one]) := rfl

theorem lowers_repeated : (lowerRecord tables (some ctorOf) "R" [one, text]).code tables false =
    .ok (codeOf [one, text]) := rfl

/-- An update of the parameter of a function that is still being checked. -/
def heldBack : RecordRequirement := ⟨.var 0, some ("a", .con 31 []), some 0⟩

def holding : Checker := { start with tables := InferCtx.new.freshTyvid.2, requirements := [heldBack] }

/-- An update of a parameter that comes out as an `R`. -/
def later : RecordRequirement := ⟨.var 0, some ("a", .con 30 []), some 0⟩

def tablesOfKnown : InferCtx :=
  match unify decls.workspace 3 (.var 0) (.con 0 []) InferCtx.new.freshTyvid.2 with
  | some (_, σ, _) => σ
  | none => .new

def known : Checker := { start with tables := tablesOfKnown, requirements := [later] }

/-- The events of an update that is met when its receiver is known. -/
def laterMet : List ObligationEvent :=
  [.remembered later] ++ [] ++
    [.unified (.con 30 []) (.con 30 []), .met later (.con 0 []) (.con 30 [])]

theorem run_laterMet : CheckRun decls 3 laterMet { known with requirements := [] } := by
  have hheld : CheckRun decls 3 [.remembered later] { start with requirements := [later] } :=
    .step (.start (s := start) rfl) (.remember rfl)
  have hknown : CheckRun decls 3 ([.remembered later] ++ []) known := .step hheld (.work rfl)
  exact .step hknown (.solve 3 rfl)

theorem keeps_laterMet : KeepsObligations laterMet :=
  ⟨fun r h => by simp [laterMet] at h, fun r h => by simp [laterMet] at h⟩

end OneRecord

open OneRecord in
/-- `R { a = 1, a = "x" }` is accepted with one initialiser checked, and holds the other. -/
theorem repeated_initialiser_unchecked :
    inferRecord decls 3 judge (.bare (named "R")) [one, text] start =
        some (.ok (.built (.con 0 []) judgedOne), start, []) ∧
      (lowerRecord tables (some ctorOf) "R" [one, text]).code tables false =
        .ok (codeOf [one, text]) ∧
      ¬ RecordRight decls 3 judge "R" (.con 0 []) [one, text] judgedOne (codeOf [one, text]) ∧
      ∃ J s r, CheckRun decls 3 J s ∧ .remembered r ∈ J ∧ r ∉ s.requirements ∧
        ∀ r', Leads obligationLedger J r r' → r' = r ∧ (∀ t u, .met r' t u ∉ J) ∧
          ¬ CarriedIn J r' := by
  refine ⟨accepts_repeated, lowers_repeated, fun hright => ?_, ?_⟩
  · have honce := (construction_right_iff_eachOnce accepts_repeated lowers_repeated).mp hright
    have hrepeated : ¬ ["a", "a"].Nodup := by decide
    exact hrepeated honce.1
  · have hheld : CheckRun decls 3 [.remembered heldBack] holding :=
      .step (.start (s := { start with tables := InferCtx.new.freshTyvid.2 }) rfl) (.remember rfl)
    refine ⟨_, _, heldBack, .step hheld (.release rfl), List.mem_cons_self,
      List.not_mem_nil, fun r' hleads => ?_⟩
    have hsame : r' = heldBack := by
      induction hleads with
      | refl => rfl
      | tail _ hstep _ =>
        obtain ⟨e, he, rfl⟩ := hstep
        simp at he
    refine ⟨hsame, fun t u hmet => ?_, ?_⟩
    · simp at hmet
    · rintro ⟨r₀, exported, scheme, -, hcarried, -⟩
      simp at hcarried

open OneRecord in
theorem one_construction_right :
    RecordRight decls 3 judge "R" (.con 0 []) [one] judgedOne (codeOf [one]) ∧
      RecordRight decls 3 judge "" (.record [("a", .con 30 [])] .closed) [one]
        [⟨0, .con 30 [], .own (.con 30 [])⟩] (codeOf [one]) ∧
      UpdateRight decls 3 judge (.con 0 []) [one] judgedOne (.mapUpdate .base [("a", .init 0)]) ∧
      ∃ r', Leads obligationLedger laterMet later r' ∧ SameField laterMet later r' ∧
        ∃ receiver declared, .met r' receiver declared ∈ laterMet ∧
          MetBy decls laterMet later receiver declared := by
  have hright := record_values_right_iff decls 3 judge tables
  refine ⟨?_, ?_, ?_, ?_⟩
  · refine (hright.1 _ [one] (some ctorOf) false start start _ _ _ accepts_one lowers_one).mpr ?_
    have honce : ["a"].Nodup := by decide
    exact ⟨honce, builtAsTyped _⟩
  · exact hright.2.1 [one] false start start _ _ _ rfl rfl
  · exact (hright.2.2.1 (.con 0 []) [one] true start start _ _ _ rfl rfl).mpr
      (.inr (by show some (Ty.con 0 []) ≠ some .error; simp))
  · obtain ⟨r', hleads, hsame, hend⟩ :=
      (hright.2.2.2 _ _ run_laterMet keeps_laterMet).1 later (by simp [laterMet])
    refine ⟨r', hleads, hsame, ?_⟩
    rcases hend with hstands | hmet | hrecord | ⟨r₀, exported, scheme, -, hcarried, -⟩
    · cases hstands
    · exact hmet
    · simp [laterMet] at hrecord
    · simp [laterMet] at hcarried

end Ridge
