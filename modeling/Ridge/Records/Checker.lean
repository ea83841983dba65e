import Ridge.Unify.Unify
import Ridge.ToText.Derived

/-!
# The checker's state for record expressions

What the inference of record expressions reads and writes (`ridge-typecheck/src/ctx.rs`): the
unification tables, the frames of the environment, the field obligations whose receiver is not
known yet (`record_requirements.rs`) and the module under check; and the part of
`instantiate.rs` that hands the obligations of a scheme to its uses.

Errors are reported and inference goes on, so a computation never stops early: its journal is the
list of the errors it reported. Spans, suggestions, class constraints and stuck projections are
left out.
-/

namespace Ridge

open Run

variable {s s' : Checker}

/-- A field the record behind `receiver` must have, or only that it is a
record, on behalf of the module that wrote the access. -/
structure RecordRequirement where
  receiver : Ty
  field : Option (String × Ty)
  accessModule : Option Nat

/-- `Scheme`, with the obligations its uses inherit. -/
structure Scheme where
  vars : List TyVid
  capVars : List CapVid
  rowVars : List RowVid
  ty : Ty
  recordFields : List RecordRequirement

/-- `TypeError`, as far as record expressions report it. -/
inductive RecordError where
  | unknownField (record : Ty) (field : String)
  | unknownFieldOf (record field : String)
  | missingField (record field : String)
  | mismatch (e : TypeError)
  | withOnNonRecord (ty : Ty)
  | opaqueFieldAccess (record field : String)
  | fieldAccessOnNonRecord (ty : Ty) (field : String)
  | notAConstructor (name : String)
  | internal (detail : String)

/-- The state of the checker, as far as record expressions use it. -/
structure Checker where
  tables : InferCtx
  /-- The frames of the environment, innermost first. -/
  frames : List (List (String × Scheme))
  requirements : List RecordRequirement
  currentModule : Option Nat

/-- A computation of the checker; its journal is what it reported. -/
abbrev CheckM (α : Type) : Type := Run Checker Empty RecordError α

/-- What the checker reads and never writes. -/
structure Declarations where
  workspace : Workspace
  /-- The module a type declared `opaque` belongs to. -/
  opaqueIn : TyConId → Option (Option Nat)
  /-- `user_tycon_names`. -/
  userTycons : String → Option TyConId
  /-- `lookup_prelude_tycon`, without the module aliases. -/
  preludeTycon : String → Bool
  /-- `lookup_prelude`: `Some`, `None`, `Ok` and `Err`. -/
  preludeScheme : String → Option Scheme
  /-- `abstract_rigids` turns a constant of a signature back into this variable. -/
  rigidTarget : Nat → TyVid

namespace Declarations

variable (P : Declarations)

/-- `tycon_decls.get`. -/
def decl (id : TyConId) : Option TyConDecl := P.workspace.tyconDecls[id]?

def recordSchema (id : TyConId) : Option RecordSchema :=
  match P.decl id with
  | some ⟨_, _, .record schema, _⟩ => some schema
  | _ => none

def name (id : TyConId) : String := ((P.decl id).map TyConDecl.name).getD "?"

end Declarations

/-- A declared type at the arguments of one use. -/
def substituteSchema (ty : Ty) (params : List TyVid) (args : List Ty) : Ty :=
  ty.substituteTyvars (params.zip args)

/-! ## Outcomes -/

namespace CheckM

variable {α β : Type}

/-- A computation of the checker hands back a value: it has no way to stop. -/
theorem bind_eq_some {m : CheckM α} {f : α → CheckM β} {r : Except Empty β}
    {es : List RecordError} : (m >>= f) s = some (r, s', es) ↔
      ∃ a s₁ es₁ es₂, m s = some (.ok a, s₁, es₁) ∧ f a s₁ = some (r, s', es₂) ∧
        es = es₁ ++ es₂ := by
  rw [Run.bind_eq_some]
  constructor
  · rintro (⟨e, -⟩ | h)
    · exact e.elim
    · exact h
  · exact .inr

theorem bind_accepted {m : CheckM α} {f : α → CheckM β} {b : β} :
    (m >>= f) s = some (.ok b, s', []) ↔
      ∃ a s₁, m s = some (.ok a, s₁, []) ∧ f a s₁ = some (.ok b, s', []) := by
  rw [bind_eq_some]
  constructor
  · rintro ⟨a, s₁, es₁, es₂, hm, hf, hes⟩
    obtain ⟨rfl, rfl⟩ := List.append_eq_nil_iff.mp hes.symm
    exact ⟨a, s₁, hm, hf⟩
  · rintro ⟨a, s₁, hm, hf⟩
    exact ⟨a, s₁, [], [], hm, hf, rfl⟩

variable {α : Type}

theorem pure_accepted {a b : α} :
    (pure a : CheckM α) s = some (.ok b, s', []) ↔ a = b ∧ s = s' := by
  rw [pure_eq_some]
  constructor
  · rintro ⟨h, rfl, -⟩
    cases h
    exact ⟨rfl, rfl⟩
  · rintro ⟨rfl, rfl⟩
    exact ⟨rfl, rfl, rfl⟩

theorem eq_of_pure_accepted {a b : α} (h : (pure a : CheckM α) s = some (.ok b, s', [])) :
    (a, s) = (b, s') :=
  Prod.ext (pure_accepted.mp h).1 (pure_accepted.mp h).2

/-- `errors.push`. -/
def report (e : RecordError) : CheckM Unit := record fun _ => e

variable {e : RecordError}

theorem not_report_accepted {u : Unit} :
    report e s ≠ some (.ok u, s', []) := nofun

theorem not_report_bind_accepted {f : Unit → CheckM α} {a : α} :
    (report e >>= f) s ≠ some (.ok a, s', []) := by
  intro h
  obtain ⟨_, _, hreport, -⟩ := bind_accepted.mp h
  exact not_report_accepted hreport

def emitInternal (detail : String) : CheckM Ty := do
  report (.internal detail)
  pure .error

theorem not_emitInternal_accepted {detail : String} {t : Ty} :
    emitInternal detail s ≠ some (.ok t, s', []) := not_report_bind_accepted

end CheckM

open CheckM

section
variable (P : Declarations) (n : Nat)

/-- A fresh type variable. -/
def freshTy : CheckM Ty := modifyGet fun s =>
  (.var s.tables.freshTyvid.1, { s with tables := s.tables.freshTyvid.2 })

def freshTys : Nat → CheckM (List Ty)
  | 0 => pure []
  | k + 1 => do
    let t ← freshTy
    let ts ← freshTys k
    pure (t :: ts)

def freshRow : CheckM RowVid := modifyGet fun s =>
  (s.tables.freshRowvid.1, { s with tables := s.tables.freshRowvid.2 })

def freshCap : CheckM CapVid := modifyGet fun s =>
  (s.tables.freshCapvid.1, { s with tables := s.tables.freshCapvid.2 })

/-- `shallow_resolve`. -/
def shallow (t : Ty) : CheckM Ty := read fun s => s.tables.shallowResolve n t

/-- `deep_resolve`. -/
def deep (t : Ty) : CheckM Ty := read fun s => s.tables.deepResolve P.workspace n t

/-- `unify`, its failure reported: whether the two types were made equal. -/
def unifyOrReport (expected found : Ty) : CheckM Bool := fun s =>
  match unify P.workspace n expected found s.tables with
  | none => none
  | some (.ok _, σ, _) => some (.ok true, { s with tables := σ }, [])
  | some (.error e, σ, _) => some (.ok false, { s with tables := σ }, [.mismatch e])

/-- The two types were unified from one state to another. -/
def Unified (expected found : Ty) (s s' : Checker) : Prop :=
  ∃ es, unify P.workspace n expected found s.tables = some (.ok (), s'.tables, es) ∧
    s' = { s with tables := s'.tables }

theorem unifyOrReport_accepted {expected found : Ty} {b : Bool}
    (h : unifyOrReport P n expected found s = some (.ok b, s', [])) :
    b = true ∧ Unified P n expected found s s' := by
  unfold unifyOrReport at h
  split at h
  · cases h
  · next σ es hunify =>
    cases h
    exact ⟨rfl, es, hunify, rfl⟩
  · cases h

/-! ## Uses of a scheme -/

/-- `CapRow::map_vars`. -/
def CapRow.mapVars (f : CapVid → CapRow) : CapRow → CapRow
  | .concrete s => .concrete s
  | .var v => f v
  | .union rows => go rows (.concrete .PURE)
where
  go : List CapRow → CapRow → CapRow
    | [], acc => acc
    | row :: rows, acc => go rows (acc.unionWith (row.mapVars f))

/-- What the variables of a scheme are replaced by. -/
structure Renaming where
  ty : List (TyVid × Ty)
  cap : List (CapVid × CapVid)
  row : List (RowVid × RowVid)

def Renaming.tail (ρ : Renaming) : RowTail → RowTail
  | .closed => .closed
  | .opened rv => .opened ((ρ.row.lookup rv).getD rv)

mutual
/-- `subst_type`. -/
def Renaming.apply (ρ : Renaming) : Ty → Ty
  | .var v => (ρ.ty.lookup v).getD (.var v)
  | .rigid id name => .rigid id name
  | .con id args => .con id (ρ.applyAll args)
  | .fn params ret caps =>
    .fn (ρ.applyAll params) (ρ.apply ret)
      (caps.mapVars fun c => .var ((ρ.cap.lookup c).getD c))
  | .tuple ts => .tuple (ρ.applyAll ts)
  | .record fields tail => .mkRecord (ρ.applyFields fields) (ρ.tail tail)
  | .aliased name body => .aliased name (ρ.apply body)
  | .error => .error

def Renaming.applyAll (ρ : Renaming) : List Ty → List Ty
  | [] => []
  | t :: ts => ρ.apply t :: ρ.applyAll ts

def Renaming.applyFields (ρ : Renaming) : List Field → List Field
  | [] => []
  | (label, t) :: fs => (label, ρ.apply t) :: ρ.applyFields fs
end

def RecordRequirement.mapTypes (f : Ty → Ty) (r : RecordRequirement) : RecordRequirement where
  receiver := f r.receiver
  field := r.field.map fun x => (x.1, f x.2)
  accessModule := r.accessModule

def remember (r : RecordRequirement) : CheckM Unit :=
  modify fun s => { s with requirements := s.requirements ++ [r] }

def freshPairs {α : Type} (fresh : CheckM α) : List Nat → CheckM (List (Nat × α))
  | [] => pure []
  | v :: vs => do
    let t ← fresh
    let rest ← freshPairs fresh vs
    pure ((v, t) :: rest)

/-- A use of a scheme, with what its variables were replaced by: fresh variables for the quantified
ones, and the obligations of the scheme over them. -/
def instantiateWith (scheme : Scheme) : CheckM (Ty × Renaming) := do
  let tys ← freshPairs freshTy scheme.vars
  let caps ← freshPairs freshCap scheme.capVars
  let rows ← freshPairs freshRow scheme.rowVars
  let ρ : Renaming := ⟨tys, caps, rows⟩
  forEach (fun r => remember (r.mapTypes ρ.apply)) scheme.recordFields
  pure (ρ.apply scheme.ty, ρ)

def instantiate (scheme : Scheme) : CheckM Ty := do
  let use ← instantiateWith scheme
  pure use.1

/-- `env.lookup`: the innermost frame that binds the name. -/
def envFind (name : String) : List (List (String × Scheme)) → Option Scheme
  | [] => none
  | frame :: frames => (frame.lookup name).or (envFind name frames)

def envLookup (name : String) : CheckM (Option Scheme) :=
  read fun s => some (envFind name s.frames)

end

end Ridge
