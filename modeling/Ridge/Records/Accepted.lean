import Ridge.Codegen.Host
import Ridge.Resolve.Imports
import Ridge.Records.Infer

/-!
# The code of record expressions

The record arms of `lower_expr` (`ridge-lower/src/core.rs`) and `lower_with` (`with_update.rs`),
then `lower_construct` and the record update of `ridge-codegen-erl/src/expr.rs`, and what the code
evaluates to. An initialiser stands in the code by its position; its own code is lowered apart.
-/

namespace Ridge

/-- The identity `__ridge_v` holds: `RecordMeta`. -/
structure Layout where
  fqn : String
  name : String
  version : Int
  deriving DecidableEq

/-- The constructor of an `IrExpr::Construct`. -/
inductive IrCtor where
  | constructor (kind : CtorKind) (owner : Option TyConId) (name : String)
  | prelude (name : String)
  deriving DecidableEq

/-- The IR of a record expression. -/
inductive IrRecord where
  | init (i : Nat)
  | symbol (name : String)
  | construct (ctor : IrCtor) (fields : List (String × IrRecord))
  | recordUpdate (updates : List (String × Nat))

/-- The code of a record expression: `base` is the code of the record an update is made to. -/
inductive RecordCode where
  | init (i : Nat)
  | base
  | symbol (name : String)
  | atom (name : String)
  | layout (l : Layout)
  | tuple (elems : List RecordCode)
  | mapLit (pairs : List (String × RecordCode))
  | mapUpdate (base : RecordCode) (updates : List (String × RecordCode))
  | mapsMerge (base : RecordCode) (pairs : List (String × RecordCode))

/-- What lowering looks up of a constructor, and code generation of its owner. -/
structure ConstructTables where
  /-- `lookup_stdlib_ctor`: the owner, and whether the payload is a record. -/
  stdlibCtor : String → Option (TyConId × Bool)
  /-- `lookup_constructor_tycon`. -/
  constructorTycon : SymbolId → Option TyConId
  /-- `lookup_tycon_by_name`. -/
  tyconByName : String → Option TyConId
  recordMeta : TyConId → Option Layout

/-- The names lowering routes to a prelude constructor. -/
def preludeCtors : List String :=
  ["Ok", "Err", "Some", "None", "JNull", "JBool", "JInt", "JFloat", "JText", "JList", "JObject",
    "JObjectFields"]

section
variable (T : ConstructTables)

/-! ## Lowering -/

variable (inits : List FieldInit)

/-- The fields of a construct: every initialiser, in the order of the source. -/
def irFields : List (String × IrRecord) :=
  inits.zipIdx.map fun p => (p.1.name.text, .init p.2)

/-- `Expr::Record`, with the binding the resolver gave to the constructor. -/
def lowerRecord (binding : Option Binding) (name : String) (inits : List FieldInit) :
    IrRecord :=
  let fields := irFields inits
  match binding with
  | some (.stdlibSymbol _ symbol) =>
    if symbol ∈ preludeCtors then
      if fields.isEmpty then .symbol name else .construct (.prelude name) fields
    else match T.stdlibCtor name with
      | some (owner, isRecord) =>
        .construct (.constructor (if isRecord then .record else .unionVariant) (some owner) name)
          fields
      | none => .construct (.constructor .record (T.tyconByName name) name) fields
  | some (.constructor symbol _ isRecord _) =>
    let owner := (T.constructorTycon symbol).or (T.tyconByName name)
    if !isRecord && !fields.isEmpty then
      -- the payload of a record variant is a record of its own
      .construct (.constructor .unionVariant owner name)
        [("0", .construct (.constructor .record owner name) fields)]
    else .construct (.constructor (if isRecord then .record else .unionVariant) owner name) fields
  | _ => .construct (.constructor .record (T.tyconByName name) name) fields

/-- `Expr::RecordLit`. -/
def lowerRecordLit : IrRecord :=
  .construct (.constructor .record none "{anon record}") (irFields inits)

def lowerWith : IrRecord :=
  .recordUpdate (inits.zipIdx.map fun p => (p.1.name.text, p.2))

/-! ## Code generation -/

def layoutKey : String := "__ridge_v"

/-- The pair that tags a record with its type. -/
def layoutPair (owner : Option TyConId) : List (String × RecordCode) :=
  match owner.bind T.recordMeta with
  | some l => [(layoutKey, .layout l)]
  | none => []

/-- `lower_construct` on lowered operands. -/
def lowerConstruct (ctor : IrCtor) (fields : List (String × RecordCode)) :
    Except CodegenError RecordCode :=
  match ctor with
  | .constructor .record owner _ => .ok (.mapLit (layoutPair T owner ++ fields))
  | .constructor .unionVariant _ name =>
    .ok (if fields.isEmpty then .atom name else .tuple (.atom name :: fields.map Prod.snd))
  | .prelude name =>
    match constructorError (.prelude name) fields.length, preludeTag name with
    | some e, _ => .error e
    | none, some (tag, _) =>
      .ok (match fields with
        | [] => .atom tag
        | (_, value) :: _ => .tuple [.atom tag, value])
    | none, none => .error (.notAConstructor (.prelude name))

/-- Whether the code is a map literal or a map update (`cerl_is_static_map`). -/
def RecordCode.isStaticMap : RecordCode → Bool
  | .mapLit _ => true
  | .mapUpdate _ _ => true
  | _ => false

/-- The record arms of `lower_expr_in_scope`. Whether the base of an update is a map literal is
known of its code. -/
def IrRecord.code (staticBase : Bool) : IrRecord → Except CodegenError RecordCode
  | .init i => .ok (.init i)
  | .symbol name => .ok (.symbol name)
  | .construct ctor fields => do lowerConstruct T ctor (← codes fields)
  | .recordUpdate updates =>
    let kvs := updates.map fun u => (u.1, RecordCode.init u.2)
    .ok (if staticBase then .mapUpdate .base kvs else .mapsMerge .base kvs)
where
  codes : List (String × IrRecord) → Except CodegenError (List (String × RecordCode))
    | [] => .ok []
    | (key, value) :: rest => do
      let v ← value.code staticBase
      let vs ← codes rest
      .ok ((key, v) :: vs)

end

/-! ## Evaluation -/

/-- A value built by a record expression out of the values of its initialisers. The pairs of a map
are kept in the order in which they were put in: of equal keys, the last counts. -/
inductive RecordValue (V : Type) where
  | given (v : V)
  | symbol (name : String)
  | atom (name : String)
  | layout (l : Layout)
  | tuple (elems : List (RecordValue V))
  | map (pairs : List (String × RecordValue V))

section
variable {V : Type}

/-- A map with more pairs put into it; the host raises `badmap` on anything else. -/
def RecordValue.put (v : RecordValue V) (pairs : List (String × RecordValue V)) :
    Option (RecordValue V) :=
  match v with
  | .map ps => some (.map (ps ++ pairs))
  | _ => none

variable (vals : Nat → V) (base : RecordValue V)

mutual
/-- What the code evaluates to, given the values of the initialisers and of the base. -/
def RecordCode.value : RecordCode → Option (RecordValue V)
  | .init i => some (.given (vals i))
  | .base => some base
  | .symbol name => some (.symbol name)
  | .atom name => some (.atom name)
  | .layout l => some (.layout l)
  | .tuple elems => (RecordCode.values elems).map .tuple
  | .mapLit pairs => (RecordCode.pairValues pairs).map .map
  | .mapUpdate b updates => do
    let v ← b.value
    v.put (← RecordCode.pairValues updates)
  | .mapsMerge b pairs => do
    let v ← b.value
    v.put (← RecordCode.pairValues pairs)

def RecordCode.values : List RecordCode → Option (List (RecordValue V))
  | [] => some []
  | c :: cs => do
    let v ← c.value
    let vs ← RecordCode.values cs
    some (v :: vs)

def RecordCode.pairValues : List (String × RecordCode) → Option (List (String × RecordValue V))
  | [] => some []
  | (key, c) :: cs => do
    let v ← c.value
    let vs ← RecordCode.pairValues cs
    some ((key, v) :: vs)
end

end

/-!
## Accepted record expressions

What each inference function did when it reported nothing: which initialisers were type-checked,
and against what.
-/

open Run CheckM List

variable {js : List Judged}

section
variable (P : Declarations) (n : Nat) (inferExpr : Expr → CheckM Ty)

/-- The initialiser was given its type, and the comparison that is on record was made. -/
def Judged.Holds (inits : List FieldInit) (j : Judged) : Prop :=
  ∃ fi s s₁, inits[j.init]? = some fi ∧
    (∃ place, initType inferExpr place fi s = some (.ok j.found, s₁, [])) ∧
    match j.against with
    | .declared t => ∃ s₂, Unified P n t j.found s₁ s₂
    | .own t => s₁.tables.deepResolve P.workspace n j.found = some t
    | .posed r => r.field = some (fi.name.text, j.found) ∧ r.accessModule = s₁.currentModule

/-- Every initialiser is among the judged ones. -/
def AllJudged (inits : List FieldInit) (js : List Judged) : Prop :=
  ∀ i < inits.length, ∃ j ∈ js, j.init = i

end

variable {P : Declarations} {n : Nat} {inferExpr : Expr → CheckM Ty} {inits : List FieldInit}
  {s s' : Checker}

theorem forEach_accepted {α : Type} {f : α → CheckM Unit} {l : List α} {u : Unit}
    (h : forEach f l s = some (.ok u, s', [])) :
    ∀ a ∈ l, ∃ s₁ s₂, f a s₁ = some (.ok (), s₂, []) := by
  induction l generalizing s with
  | nil => intro a ha; cases ha
  | cons b l ih =>
    obtain ⟨_, s₁, hb, hl⟩ := bind_accepted.mp h
    intro a ha
    rcases mem_cons.mp ha with rfl | ha
    · exact ⟨s, s₁, hb⟩
    · exact ih hl a ha

variable {schema : RecordSchema}

variable {record : String}

theorem reportUnknown_accepted {u : Unit}
    (h : forEach (reportUnknown record schema) inits s = some (.ok u, s', [])) :
    ∀ fi ∈ inits, schema.declares fi.name.text = true := by
  intro fi hfi
  obtain ⟨s₁, s₂, hf⟩ := forEach_accepted h fi hfi
  unfold reportUnknown at hf
  split at hf
  · next hdeclares => exact hdeclares
  · exact absurd hf not_report_accepted

variable {name : String}

theorem fieldTy_isSome : (schema.fieldTy name).isSome = schema.declares name := by
  unfold RecordSchema.fieldTy RecordSchema.declares
  rw [Option.isSome_map, isSome_find?]

theorem findInit_eq_some {fi : FieldInit} {i : Nat} (h : findInit name inits = some (fi, i)) :
    inits[i]? = some fi ∧ fi.name.text = name := by
  have hmem := mem_of_find?_eq_some h
  have hname := find?_some h
  exact ⟨mem_zipIdx_iff_getElem?.mp hmem, by simpa using hname⟩

/-! ## Constructions -/

variable {params : List TyVid}

/-- Each declared field found its first initialiser, which was unified with the field's type. -/
theorem inferDeclared_accepted {args : List Ty} {fs : List RecordField}
    (h : inferDeclared P n inferExpr record params args inits fs s = some (.ok js, s', [])) :
    List.Forall₂ (fun f j => (∃ fi, findInit f.name inits = some (fi, j.init)) ∧
      j.against = .declared (substituteSchema f.ty params args) ∧
      j.Holds P n inferExpr inits) fs js := by
  induction fs generalizing s js with
  | nil =>
    obtain ⟨rfl, rfl⟩ := pure_accepted.mp h
    exact .nil
  | cons f fs ih =>
    obtain ⟨here, s₁, hhere, h⟩ := bind_accepted.mp h
    obtain ⟨rest, s₂, hrest, h⟩ := bind_accepted.mp h
    obtain ⟨rfl, rfl⟩ := pure_accepted.mp h
    have hfs := ih hrest
    unfold inferDeclaredField at hhere
    cases hfind : findInit f.name inits with
    | none =>
      rw [hfind] at hhere
      exact absurd hhere not_report_bind_accepted
    | some p =>
      obtain ⟨fi, i⟩ := p
      rw [hfind] at hhere
      obtain ⟨found, s₃, hfound, hhere⟩ := bind_accepted.mp hhere
      obtain ⟨b, s₄, hunify, hhere⟩ := bind_accepted.mp hhere
      obtain ⟨rfl, rfl⟩ := pure_accepted.mp hhere
      refine .cons ⟨⟨fi, hfind⟩, rfl, ?_⟩ hfs
      exact ⟨fi, s, s₃, (findInit_eq_some hfind).1, ⟨"", hfound⟩, s₄,
        (unifyOrReport_accepted P n hunify).2⟩

/-- What an accepted construction or variant construction did. -/
theorem inferFieldsOf_accepted {owner : TyConId} {ty : Ty}

    (h : inferFieldsOf P n inferExpr record params schema owner inits s = some (.ok (ty, js), s', [])) :
    ∃ args, ty = .con owner args ∧ (∀ fi ∈ inits, schema.declares fi.name.text = true) ∧
      List.Forall₂ (fun f j => (∃ fi, findInit f.name inits = some (fi, j.init)) ∧
        j.against = .declared (substituteSchema f.ty params args) ∧
        j.Holds P n inferExpr inits) schema.fields js := by
  obtain ⟨args, s₁, -, h⟩ := bind_accepted.mp h
  obtain ⟨_, s₂, hunknown, h⟩ := bind_accepted.mp h
  obtain ⟨js', s₃, hdeclared, h⟩ := bind_accepted.mp h
  cases eq_of_pure_accepted h
  exact ⟨args, rfl, reportUnknown_accepted hunknown, inferDeclared_accepted hdeclared⟩

/-! ## Literals -/

variable {l : List (FieldInit × Nat)}

/-- Every initialiser of a literal gives its field its own type. -/
theorem inferLitFields_accepted {fields : List (String × Ty)} (hl : ∀ p ∈ l, inits[p.2]? = some p.1)
    (h : inferLitFields P n inferExpr l s = some (.ok (fields, js), s', [])) :
    List.Forall₂ (fun p j => j.init = p.2 ∧ j.Holds P n inferExpr inits) l js ∧
      List.Forall₂ (fun p f => f.1 = p.1.name.text) l fields ∧
      List.Forall₂ (fun f j => j.against = .own f.2) fields js := by
  induction l generalizing s fields js with
  | nil =>
    cases eq_of_pure_accepted h
    exact ⟨.nil, .nil, .nil⟩
  | cons p l ih =>
    obtain ⟨fi, i⟩ := p
    obtain ⟨raw, s₁, hraw, h⟩ := bind_accepted.mp h
    obtain ⟨t, s₂, hdeep, h⟩ := bind_accepted.mp h
    obtain ⟨⟨fields', js'⟩, s₃, hrest, h⟩ := bind_accepted.mp h
    cases eq_of_pure_accepted h
    obtain ⟨ht, rfl⟩ : s₁.tables.deepResolve P.workspace n raw = some t ∧ s₂ = s₁ := by
      obtain ⟨a, ha, hr, hs, -⟩ := read_eq_some.mp hdeep
      cases hr
      exact ⟨ha, hs⟩
    obtain ⟨hjs, hfields, hown⟩ := ih (fun p hp => hl p (mem_cons_of_mem _ hp)) hrest
    refine ⟨.cons ⟨rfl, ?_⟩ hjs, .cons rfl hfields, .cons rfl hown⟩
    exact ⟨fi, s, s₂, hl _ mem_cons_self, ⟨"", hraw⟩, ht⟩

theorem inferRecordLit_accepted {ty : Ty}
    (h : inferRecordLit P n inferExpr inits s = some (.ok (ty, js), s', [])) :
    ∃ fields, ty = .mkRecord fields .closed ∧
      List.Forall₂ (fun p j => j.init = p.2 ∧ j.Holds P n inferExpr inits) inits.zipIdx js ∧
      List.Forall₂ (fun p f => f.1 = p.1.name.text) inits.zipIdx fields ∧
      List.Forall₂ (fun f j => j.against = .own f.2) fields js := by
  obtain ⟨⟨fields, js'⟩, s₁, hfields, h⟩ := bind_accepted.mp h
  cases eq_of_pure_accepted h
  exact ⟨fields, rfl, inferLitFields_accepted
    (fun p hp => mem_zipIdx_iff_getElem?.mp hp) hfields⟩

/-! ## Updates -/

/-- Each initialiser of an update was unified with the type of the field it names. -/
theorem inferUpdates_accepted {declared : String → Option Ty} {unknown : String → CheckM Unit}
    (hl : ∀ p ∈ l, inits[p.2]? = some p.1)
    (hknown : ∀ p ∈ l, ∀ s₁ s₂, unknown p.1.name.text s₁ = some (.ok (), s₂, []) → (declared p.1.name.text).isSome)
    (h : inferUpdates P n inferExpr declared unknown l s = some (.ok js, s', [])) :
    List.Forall₂ (fun p j => j.init = p.2 ∧
      (∃ t, declared p.1.name.text = some t ∧ j.against = .declared t) ∧
      j.Holds P n inferExpr inits) l js := by
  induction l generalizing s js with
  | nil =>
    obtain ⟨rfl, rfl⟩ := pure_accepted.mp h
    exact .nil
  | cons p l ih =>
    obtain ⟨fi, i⟩ := p
    obtain ⟨here, s₁, hhere, h⟩ := bind_accepted.mp h
    obtain ⟨rest, s₂, hrest, h⟩ := bind_accepted.mp h
    obtain ⟨rfl, rfl⟩ := pure_accepted.mp h
    have hjs := ih (fun p hp => hl p (mem_cons_of_mem _ hp))
      (fun p hp => hknown p (mem_cons_of_mem _ hp)) hrest
    unfold inferUpdate at hhere
    cases hdecl : declared fi.name.text with
    | none =>
      rw [hdecl] at hhere
      obtain ⟨_, _, hunknown, _⟩ := bind_accepted.mp hhere
      have hsome := hknown _ mem_cons_self _ _ hunknown
      rw [hdecl] at hsome
      cases hsome
    | some expected =>
      rw [hdecl] at hhere
      obtain ⟨found, s₃, hfound, hhere⟩ := bind_accepted.mp hhere
      obtain ⟨b, s₄, hunify, hhere⟩ := bind_accepted.mp hhere
      obtain ⟨rfl, rfl⟩ := pure_accepted.mp hhere
      refine .cons ⟨rfl, ⟨expected, hdecl, rfl⟩, ?_⟩ hjs
      exact ⟨fi, s, s₃, hl _ mem_cons_self, ⟨_, hfound⟩, s₄,
        (unifyOrReport_accepted P n hunify).2⟩

/-- Each initialiser of an update of an unknown receiver left an obligation on it. -/
theorem poseUpdates_accepted {receiver : Ty} (hl : ∀ p ∈ l, inits[p.2]? = some p.1)
    (h : poseUpdates inferExpr receiver l s = some (.ok js, s', [])) :
    List.Forall₂ (fun p j => j.init = p.2 ∧
      (∃ r, j.against = .posed r ∧ r.receiver = receiver ∧
        r.field = some (p.1.name.text, j.found)) ∧
      j.Holds P n inferExpr inits) l js := by
  induction l generalizing s js with
  | nil =>
    obtain ⟨rfl, rfl⟩ := pure_accepted.mp h
    exact .nil
  | cons p l ih =>
    obtain ⟨fi, i⟩ := p
    obtain ⟨found, s₁, hfound, h⟩ := bind_accepted.mp h
    obtain ⟨module, s₂, hmodule, h⟩ := bind_accepted.mp h
    obtain ⟨_, s₃, hremember, h⟩ := bind_accepted.mp h
    obtain ⟨rest, s₄, hrest, h⟩ := bind_accepted.mp h
    obtain ⟨rfl, rfl⟩ := pure_accepted.mp h
    obtain ⟨a, ha, hr, hs, -⟩ := read_eq_some.mp hmodule
    cases hr
    cases ha
    subst hs
    have hjs := ih (fun p hp => hl p (mem_cons_of_mem _ hp)) hrest
    refine .cons ⟨rfl, ⟨_, rfl, rfl, rfl⟩, ?_⟩ hjs
    exact ⟨fi, s, _, hl _ mem_cons_self, ⟨_, hfound⟩, rfl, rfl⟩

end Ridge

/-!
## The shape of a record value

What it means that a record expression builds a value of its type: the value has the fields of the
type, and under each field the value of an initialiser that was compared with the field's type.
-/

namespace Ridge

open Run CheckM KeyedList List RecordCode

section
variable {V : Type}

namespace Declarations

def schemaAt (params : List TyVid) (schema : RecordSchema) (args : List Ty) :
    List (String × Ty) :=
  schema.fields.map fun f => (f.name, substituteSchema f.ty params args)

/-- The fields a type declares for the values of the constructor `ctor`. -/
def fieldsAt (P : Declarations) (ctor : String) : Ty → Option (List (String × Ty))
  | .con id args =>
    match P.decl id with
    | some ⟨_, _, .record schema, _⟩ => some (schemaAt schema.params schema args)
    | some decl => (recordVariantOf ctor decl).map fun v => schemaAt v.1 v.2 args
    | none => none
  | .record fields _ => some fields
  | _ => none

/-- The fields of a value of the type: a record is a map, a variant with a record payload is tagged
with its name. -/
def payload (P : Declarations) (ctor : String) (ty : Ty) (v : RecordValue V) :
    Option (List (String × RecordValue V)) :=
  match ty, v with
  | .con id _, .map ps => if (P.recordSchema id).isSome then some ps else none
  | .con id _, .tuple [.atom name, .map ps] =>
    if name = ctor ∧ P.recordSchema id = none then some ps else none
  | .con id _, .atom name => if name = ctor ∧ P.recordSchema id = none then some [] else none
  | .record _ _, .map ps => some ps
  | _, _ => none

end Declarations

/-- An open row: a value of it may have more fields. -/
def Ty.openRow : Ty → Bool
  | .record _ (.opened _) => true
  | _ => false

/-- The keys of a map are the fields of the type, apart from the tag that names the layout. -/
def HasFieldsOf (ty : Ty) (fields : List (String × Ty)) (ps : List (String × RecordValue V)) :
    Prop :=
  ∀ k, k ≠ layoutKey → ((fields.lookup k).isSome → (lastOf k ps).isSome) ∧
    (ty.openRow = false → (lastOf k ps).isSome → (fields.lookup k).isSome)

/-- The initialiser was compared with `t`; `met` says it of an obligation that was left behind. -/
def Judged.Compared (met : Ty → RecordRequirement → Prop) (j : Judged) (t : Ty) : Prop :=
  match j.against with
  | .declared u => u = t
  | .own u => u = t
  | .posed r => met t r

variable (P : Declarations) (ctor : String)

/-- `v` is a value of the type as far as its fields go. -/
def HasShape (ty : Ty) (v : RecordValue V) : Prop :=
  ∃ fields ps, P.fieldsAt ctor ty = some fields ∧ P.payload ctor ty v = some ps ∧
    HasFieldsOf ty fields ps

/-- The value under `k` is the one of an initialiser of `k` that was compared with `t`. -/
def FromInit (met : Ty → RecordRequirement → Prop) (inits : List FieldInit) (js : List Judged)
    (vals : Nat → V) (k : String) (t : Ty) (ps : List (String × RecordValue V)) : Prop :=
  ∃ j ∈ js, ∃ fi, inits[j.init]? = some fi ∧ fi.name.text = k ∧ j.Compared met t ∧
    lastOf k ps = some (.given (vals j.init))

/-- Nothing was left for later. -/
def NoneMet : Ty → RecordRequirement → Prop := fun _ _ => False

/-- A value built at the type: its fields are those of the type, each from an initialiser that was
checked for it. -/
def BuiltRight (ty : Ty) (inits : List FieldInit) (js : List Judged) (vals : Nat → V)
    (v : RecordValue V) : Prop :=
  ∃ fields ps, P.fieldsAt ctor ty = some fields ∧ P.payload ctor ty v = some ps ∧
    HasFieldsOf ty fields ps ∧
    ∀ k t, fields.lookup k = some t → FromInit NoneMet inits js vals k t ps

/-- A value updated at the type: its fields are those of the type, each the base's or from an
initialiser that was checked for it. -/
def UpdatedRight (met : Ty → RecordRequirement → Prop) (ty : Ty) (inits : List FieldInit)
    (js : List Judged) (vals : Nat → V) (base v : RecordValue V) : Prop :=
  ∃ fields old new, P.fieldsAt ctor ty = some fields ∧ P.payload ctor ty base = some old ∧
    P.payload ctor ty v = some new ∧ HasFieldsOf ty fields new ∧
    ∀ k, lastOf k new = lastOf k old ∨
      ∃ t, fields.lookup k = some t ∧ FromInit met inits js vals k t new

end

/-- A record expression is right: every initialiser was type-checked, and whatever values they
evaluate to, the code builds a value of the type out of checked ones. -/
def RecordRight (P : Declarations) (n : Nat) (inferExpr : Expr → CheckM Ty) (ctor : String)
    (ty : Ty) (inits : List FieldInit) (js : List Judged) (code : RecordCode) : Prop :=
  AllJudged inits js ∧ (∀ j ∈ js, j.Holds P n inferExpr inits) ∧
    ∀ (V : Type) (vals : Nat → V) (base : RecordValue V),
      ∃ v, code.value vals base = some v ∧ BuiltRight P ctor ty inits js vals v

/-! ## The initialisers as the pairs of a map -/

section
variable {V : Type} (vals : Nat → V) (base : RecordValue V) (inits : List FieldInit)

/-- The pairs the initialisers evaluate to. -/
def initPairs : List (String × RecordValue V) :=
  inits.zipIdx.map fun p => (p.1.name.text, .given (vals p.2))

theorem codes_init (T : ConstructTables) (sb : Bool) (l : List (FieldInit × Nat)) :
    IrRecord.code.codes T sb (l.map fun p => (p.1.name.text, .init p.2)) =
      .ok (l.map fun p => (p.1.name.text, .init p.2)) := by
  induction l with
  | nil => rfl
  | cons p l ih =>
    rw [map_cons, IrRecord.code.codes, ih]
    rfl

theorem pairValues_init (l : List (FieldInit × Nat)) :
    pairValues vals base (l.map fun p => (p.1.name.text, .init p.2)) =
      some (l.map fun p => (p.1.name.text, .given (vals p.2))) := by
  induction l with
  | nil => rfl
  | cons p l ih =>
    rw [map_cons, pairValues, ih]
    rfl

theorem pairValues_append {ps qs : List (String × RecordCode)} {xs ys : List (String × RecordValue V)}
    (hps : pairValues vals base ps = some xs) (hqs : pairValues vals base qs = some ys) :
    pairValues vals base (ps ++ qs) = some (xs ++ ys) := by
  induction ps generalizing xs with
  | nil =>
    cases hps
    exact hqs
  | cons p ps ih =>
    obtain ⟨key, c⟩ := p
    rw [pairValues] at hps
    cases hc : c.value vals base with
    | none => rw [hc] at hps; cases hps
    | some v =>
      cases hrest : pairValues vals base ps with
      | none => rw [hc, hrest] at hps; cases hps
      | some vs =>
        rw [hc, hrest] at hps
        cases hps
        rw [cons_append, pairValues, hc, ih hrest]
        rfl

variable {vals inits}

theorem map_fst_initPairs :
    (initPairs vals inits).map Prod.fst = inits.map fun fi => fi.name.text := by
  unfold initPairs
  rw [map_map]
  show inits.zipIdx.map ((fun fi : FieldInit => fi.name.text) ∘ Prod.fst) = _
  rw [← map_map, zipIdx_map_fst]

variable {k : String}

theorem lastOf_initPairs_isSome :
    (lastOf k (initPairs vals inits)).isSome ↔ ∃ fi ∈ inits, fi.name.text = k := by
  rw [← Option.ne_none_iff_isSome, ne_eq, lastOf_eq_none_iff, not_not, map_fst_initPairs,
    mem_map]

/-- The last pair of a key comes from an initialiser of that name. -/
theorem of_lastOf_initPairs {v : RecordValue V} (h : lastOf k (initPairs vals inits) = some v) :
    ∃ i fi, inits[i]? = some fi ∧ fi.name.text = k ∧ v = .given (vals i) := by
  obtain ⟨p, hp, heq⟩ := mem_map.mp (mem_of_lastOf h)
  cases heq
  exact ⟨p.2, p.1, mem_zipIdx_iff_getElem?.mp hp, rfl, rfl⟩

/-- With names of their own, an initialiser is the first of its name. -/
theorem findInit_of_nodup (hnodup : (inits.map fun fi => fi.name.text).Nodup) {i j : Nat}
    {fi fj : FieldInit} (hi : inits[i]? = some fi) (hj : inits[j]? = some fj)
    (hname : fi.name.text = fj.name.text) : i = j := by
  have hi' : (inits.map fun fi => fi.name.text)[i]? = some fi.name.text := by
    rw [getElem?_map, hi]
    rfl
  have hj' : (inits.map fun fi => fi.name.text)[j]? = some fi.name.text := by
    rw [getElem?_map, hj, hname]
    rfl
  exact (getElem?_inj (List.getElem?_eq_some_iff.mp hi').1 hnodup).mp (hi'.trans hj'.symm)

end

end Ridge
