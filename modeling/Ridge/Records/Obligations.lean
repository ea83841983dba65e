import Ridge.Lib.Ledger
import Ridge.Records.Infer

/-!
# Field obligations

`ridge-typecheck/src/record_requirements.rs`, with `infer_field_access` (`records.rs`) and the
part of `generalise_resolved` (`instantiate.rs`) that exports obligations with a scheme. An
obligation is left by an access or an update whose receiver is a variable; it is met when the
receiver is known, merged with another on the same variable, handed to a scheme, or let go.

Next to what the source computes, every function hands back what happened to each obligation.
-/

namespace Ridge

open Run CheckM Ledger

/-- What happens to an obligation. -/
inductive ObligationEvent where
  | remembered (r : RecordRequirement)
  /-- It stands as another one: with its receiver resolved, or one on the same receiver. -/
  | became (r r' : RecordRequirement)
  /-- Its receiver is a record whose field has this type, which was unified with its own. -/
  | met (r : RecordRequirement) (receiver declared : Ty)
  /-- Its receiver is the error type, which has every field. -/
  | absorbed (r : RecordRequirement)
  /-- It asked for a record only, and its receiver is one. -/
  | asRecord (r : RecordRequirement)
  | unified (t u : Ty)
  | carried (r exported : RecordRequirement) (scheme : Scheme)
  | used (scheme : Scheme) (ρ : Renaming)
  | letGo (r : RecordRequirement)

/-- Read as a ledger: being carried by a scheme leaves an obligation where it is. -/
def obligationLedger : Reading RecordRequirement ObligationEvent where
  posted e r := e = .remembered r
  became e r r' := e = .became r r'
  closed e r := (∃ receiver declared, e = .met r receiver declared) ∨ e = .absorbed r ∨
    e = .asRecord r ∨ e = .letGo r

section
variable (P : Declarations) (n : Nat)

/-! ## Field access -/

/-- How a field access found its type. -/
inductive Access where
  | posed (r : RecordRequirement)
  | absorbed
  | found (receiver : Ty)

def currentModule : CheckM (Option Nat) := read fun s => some s.currentModule

def inferFieldAccess (baseTy : Ty) (field : String) : CheckM (Ty × Access) := do
  let base ← deep P n baseTy
  match base with
  | .var _ => do
    let t ← freshTy
    let module ← currentModule
    let r : RecordRequirement := ⟨base, some (field, t), module⟩
    remember r
    pure (t, .posed r)
  | .error => pure (.error, .absorbed)
  | .record fields _ =>
    match fields.lookup field with
    | some t => pure (t, .found base)
    | none => do
      report (.unknownField base field)
      pure (.error, .absorbed)
  | .con id args =>
    match P.recordSchema id with
    | some schema => do
      let module ← currentModule
      if opaqueFieldViolation P id module then
        report (.opaqueFieldAccess (P.name id) field)
        pure (.error, .absorbed)
      else
        match schema.fieldTy field with
        | some t => pure (substituteSchema t schema.params args, .found base)
        | none => do
          report (.unknownFieldOf (P.name id) field)
          pure (.error, .absorbed)
    | none => do
      report (.fieldAccessOnNonRecord base field)
      pure (.error, .absorbed)
  | other => do
    report (.fieldAccessOnNonRecord other field)
    pure (.error, .absorbed)

/-! ## Solving -/

/-- A receiver variable, and the field asked of it. -/
abbrev SiteKey := TyVid × Option String

/-- What one pass has seen: the type of each field asked for, and the obligations it keeps. -/
structure Pass where
  fields : List (SiteKey × Ty)
  kept : List (SiteKey × RecordRequirement)
  progress : Bool

def Pass.start : Pass := ⟨[], [], false⟩

/-- The obligation already kept for the key, on behalf of the same module. -/
def Pass.visible (pass : Pass) (key : SiteKey) (module : Option Nat) : Option RecordRequirement :=
  (pass.kept.find? fun k => k.1 = key ∧ k.2.accessModule = module).map Prod.snd

/-- Repeated selections of a field from one receiver have one type. -/
def equateSelection (pass : Pass) (key : SiteKey) (field : Option (String × Ty)) :
    CheckM (List (SiteKey × Ty) × List ObligationEvent) :=
  match field with
  | none => pure (pass.fields, [])
  | some (_, ty) =>
    match pass.fields.lookup key with
    | some previous => do
      let _ ← unifyOrReport P n previous ty
      pure (pass.fields, [.unified previous ty])
    | none => pure ((key, ty) :: pass.fields, [])

variable (r : RecordRequirement)

/-- An obligation on the variable `v`. -/
def keepSite (v : TyVid) (pass : Pass) :
    CheckM (Pass × List ObligationEvent) := do
  let key : SiteKey := (v, r.field.map Prod.fst)
  let (fields, unified) ← equateSelection P n pass key r.field
  match pass.visible key r.accessModule with
  | some standing => pure ({ pass with fields, progress := true }, unified ++ [.became r standing])
  | none => do
    let r' := { r with receiver := .var v }
    remember r'
    pure ({ pass with fields, kept := pass.kept ++ [(key, r')] }, unified ++ [.became r r'])

def setModule (module : Option Nat) : CheckM Unit :=
  modify fun s => { s with currentModule := module }

/-- An obligation whose receiver is known: the field is selected as the module that wrote the
access would. -/
def meetSite (receiver : Ty) : CheckM (List ObligationEvent) :=
  match r.field with
  | some (name, expected) => do
    let (t, access) ← inferFieldAccess P n receiver name
    let _ ← unifyOrReport P n t expected
    pure (.unified t expected :: match access with
      | .posed r' => [.remembered r', .became r r']
      | .absorbed => [.absorbed r]
      | .found base => [.met r base t])
  | none => do
    let _ ← inferRecordWith P n (fun _ => emitInternal "no initialiser") receiver []
    pure [.asRecord r]

def solveSite (pass : Pass) : CheckM (Pass × List ObligationEvent) := do
  let receiver ← shallow n r.receiver
  match receiver with
  | .var v => keepSite P n r v pass
  | known => do
    let module ← currentModule
    setModule r.accessModule
    let events ← meetSite P n r known
    setModule module
    pure ({ pass with progress := true }, events)

def solveSites : List RecordRequirement → Pass → CheckM (Pass × List ObligationEvent)
  | [], pass => pure (pass, [])
  | r :: rs, pass => do
    let (pass, here) ← solveSite P n r pass
    let (pass, rest) ← solveSites rs pass
    pure (pass, here ++ rest)

def takeRequirements : CheckM (List RecordRequirement) :=
  modifyGet fun s => (s.requirements, { s with requirements := [] })

/-- Passes over the pending obligations until one of them changes nothing. -/
def solve : Nat → CheckM (List ObligationEvent)
  | 0 => diverge
  | k + 1 => do
    let pending ← takeRequirements
    let (pass, here) ← solveSites P n pending .start
    if pass.progress then
      let rest ← solve k
      pure (here ++ rest)
    else pure here

/-! ## Export -/

/-- `collect_free_vars`, of types. -/
def freeTyvids (t : Ty) : List TyVid :=
  t.vars.filterMap fun
    | .ty v => some v
    | _ => none

def RecordRequirement.types : List Ty :=
  r.receiver :: (r.field.map Prod.snd).toList

def RecordRequirement.freeTyvids : List TyVid :=
  r.types.flatMap Ridge.freeTyvids

/-- The obligations that share a variable with the queue, directly or through others. -/
def connect (vars : List (List TyVid)) : Nat → List TyVid → List TyVid → List Nat → Option (List Nat)
  | 0, _, _, _ => none
  | _ + 1, [], _, included => some included
  | k + 1, v :: queue, seen, included =>
    if v ∈ seen then connect vars k queue seen included
    else
      let reached := (vars.zipIdx.filter fun p => v ∈ p.1 ∧ p.2 ∉ included).map Prod.snd
      connect vars k (queue ++ reached.flatMap fun i => vars[i]?.getD []) (v :: seen)
        (included ++ reached)

def connectedTypes (roots : List TyVid) (s : Checker) : Option (List Ty) :=
  if s.requirements.isEmpty ∨ roots.isEmpty then some []
  else do
    let resolve := s.tables.deepResolve P.workspace n
    let roots ← roots.mapM fun v => (resolve (.var v)).map freeTyvids
    let candidates ← s.requirements.mapM fun r => r.types.mapM resolve
    let included ← connect (candidates.map fun ts => ts.flatMap freeTyvids) n roots.flatten [] []
    some (included.flatMap fun i => candidates[i]?.getD [])

mutual
def abstractRigids : Ty → Ty
  | .var v => .var v
  | .rigid id _ => .var (P.rigidTarget id)
  | .con id args => .con id (abstractRigidsAll args)
  | .fn params ret caps => .fn (abstractRigidsAll params) (abstractRigids ret) caps
  | .tuple ts => .tuple (abstractRigidsAll ts)
  | .record fields tail => .mkRecord (abstractRigidsFields fields) tail
  | .aliased name body => .aliased name (abstractRigids body)
  | .error => .error

def abstractRigidsAll : List Ty → List Ty
  | [] => []
  | t :: ts => abstractRigids t :: abstractRigidsAll ts

def abstractRigidsFields : List Field → List Field
  | [] => []
  | (label, t) :: fs => (label, abstractRigids t) :: abstractRigidsFields fs
end

/-- An obligation with its types resolved for export. -/
def resolveRequirement (r : RecordRequirement) (s : Checker) : Option RecordRequirement := do
  let resolve := fun t => (s.tables.deepResolve P.workspace n t).map (abstractRigids P)
  let receiver ← resolve r.receiver
  match r.field with
  | none => some ⟨receiver, none, r.accessModule⟩
  | some (name, t) => do
    let t ← resolve t
    some ⟨receiver, some (name, t), r.accessModule⟩

/-- The obligations tied to the roots, each with its exported form. -/
def forExport (roots : List TyVid) (s : Checker) :
    Option (List (RecordRequirement × RecordRequirement)) :=
  if s.requirements.isEmpty ∨ roots.isEmpty then some []
  else do
    let connected ← connectedTypes P n roots s
    let free := roots ++ connected.flatMap freeTyvids
    let pairs ← s.requirements.mapM fun r => (resolveRequirement P n r s).map fun r' => (r, r')
    some (pairs.filter fun p => p.2.freeTyvids.any (· ∈ free))

/-- The variables a scheme ends up with: those of its type, and of what it exports. -/
def exportRoots (s : Checker) : Nat → List TyVid → Option (List TyVid)
  | 0, _ => none
  | k + 1, free => do
    let exported ← forExport P n free s
    let more := (free ++ exported.flatMap fun p => p.2.freeTyvids).dedup
    if more.length = free.length then some free else exportRoots s k more

/-- `generalise_resolved`, on a type that is resolved: what the environment does not hold is
quantified, and the obligations tied to the type go with the scheme. -/
def generaliseResolved (ty : Ty) (envTy envCap envRow : List Nat) (s : Checker) :
    Option (Scheme × List (RecordRequirement × RecordRequirement)) := do
  let free ← exportRoots P n s n (freeTyvids ty).dedup
  let exported ← forExport P n free s
  let all := ty.vars ++ exported.flatMap fun p => p.2.types.flatMap Ty.vars
  let caps := all.filterMap fun | .cap c => some c | _ => none
  let rows := all.filterMap fun | .row rv => some rv | _ => none
  let sorted := fun vs env => ((vs.filter (· ∉ env)).dedup).insertionSort (· ≤ ·)
  some (⟨sorted free envTy, sorted caps envCap, sorted rows envRow, ty, exported.map Prod.snd⟩,
    exported)

/-- The variables the schemes in scope do not bind. -/
def envFreeTyvids (s : Checker) : List TyVid :=
  s.frames.flatten.flatMap fun b =>
    (freeTyvids b.2.ty ++ b.2.recordFields.flatMap RecordRequirement.freeTyvids).filter
      (· ∉ b.2.vars)

/-- What is still tied to the environment stays, the rest is let go. -/
def releaseGeneralised (s : Checker) :
    Option (List RecordRequirement × List RecordRequirement) :=
  if s.requirements.isEmpty then some ([], [])
  else do
    let connected ← connectedTypes P n (envFreeTyvids s) s
    let free := connected.flatMap freeTyvids
    let judged ← s.requirements.mapM fun r => do
      let vars ← r.types.mapM fun t => (s.tables.deepResolve P.workspace n t).map freeTyvids
      some (r, vars.flatten.any (· ∈ free))
    some ((judged.filter fun p => p.2).map Prod.fst, (judged.filter fun p => !p.2).map Prod.fst)

end

end Ridge
