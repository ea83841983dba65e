import Ridge.Types.Ty

/-!
# The migration edges of a module

`emit_record_migrations_fn` with `current_rendered_shape` and `derive_plan`
(`ridge-codegen-erl/src/module.rs`), `build_record_meta` (`record_meta.rs`) and the version history
(`ridge-types/src/history.rs`). An edge goes from one past shape hash of a record to its current
shape; the edges of all records of a module share one list.
-/

namespace Ridge.Versions

/-- The 64 bits of a shape hash. -/
abbrev Hash := BitVec 64

/-- An ordered shape: field names with the rendered types of the fields. -/
abbrev Shape := List (String × String)

structure VersionEntry where
  ordinal : Nat
  hash : Hash
  shape : Shape
  deriving DecidableEq

/-- The identity that a value of the record carries. -/
structure RecordMeta where
  fqn : String
  name : String
  version : Hash
  deriving DecidableEq

/-- A declaration of the arena, with the module that declares it. -/
structure ArenaDecl where
  decl : TyConDecl
  defModule : Option Nat

/-- A `migrate` block of a record type; its body is known by a number. -/
structure MigrateBlock where
  record : String
  ordinal : Nat
  body : Nat
  deriving DecidableEq

/-- What code generation reads of a workspace. `render` is `render_type` over the arena; a past
shape is found under the dotted name of its module and the name of its record. -/
structure Workspace where
  tycons : List ArenaDecl
  moduleFqns : List String
  targetNames : List String
  history : String → String → List VersionEntry
  /-- The `migrate` blocks of each module, in source order. -/
  blocks : Nat → List MigrateBlock
  render : Ty → String
  shapeHash : Shape → Hash
  /-- A module declares a name once. -/
  distinct : tycons.Pairwise fun d d' => d.decl.isAnon = false → d'.decl.isAnon = false →
    d.defModule.isSome → d.defModule = d'.defModule → d.decl.name ≠ d'.decl.name

/-- The plan of a derived edge: fields to rename and fields to drop. -/
structure MigrationPlan where
  renames : List (String × String)
  removed : List String
  deriving DecidableEq

/-- What an edge runs. -/
inductive EdgeBody where
  | user (block : MigrateBlock)
  | derived (plan : MigrationPlan) (newTag : RecordMeta)
  deriving DecidableEq

/-- An entry of `__ridge_record_migrations`. The list holds the hash and the function; whose edge it
is, is known here only. -/
structure Edge where
  hash : Hash
  record : String
  body : EdgeBody
  deriving DecidableEq

namespace Shape

def has (S : Shape) (name : String) : Bool := S.any fun f => f.1 = name

end Shape

/-- Kept fields keep their types; one removal is a drop, one removal and one addition
of the same type a rename, anything else a hole. -/
def derivePlan (old new : Shape) : Option MigrationPlan :=
  let removed := old.filter fun f => !new.has f.1
  let added := new.filter fun f => !old.has f.1
  if old.any fun f => new.any fun g => g.1 = f.1 ∧ g.2 ≠ f.2 then none
  else match removed, added with
    | [], [] => some ⟨[], []⟩
    | [(on, _)], [] => some ⟨[], [on]⟩
    | [(on, ot)], [(nn, nt)] => if ot = nt then some ⟨[(on, nn)], []⟩ else none
    | _, _ => none

namespace Workspace

variable (W : Workspace)

/-- The fields of a record type as they are hashed. -/
def renderedFields (schema : RecordSchema) : Shape :=
  schema.fields.map fun f => (f.name, W.render f.ty)

/-- The shape of a declaration, of a record one. -/
def shapeOf (d : ArenaDecl) : Option Shape :=
  match d.decl.kind with
  | .record schema => some (W.renderedFields schema)
  | _ => none

def ownShape (d : ArenaDecl) : Shape := (W.shapeOf d).getD []

/-- `build_record_meta`, of one declaration: named records of a module with a target name. -/
def recordMeta (d : ArenaDecl) : Option RecordMeta :=
  if d.decl.isAnon then none
  else match W.shapeOf d, d.defModule with
    | some shape, some raw =>
      W.targetNames[raw]?.map fun fqn => ⟨fqn, d.decl.name, W.shapeHash shape⟩
    | _, _ => none

variable (m : Nat)

/-- The tagged records of a module, in the order of the arena. -/
def recordMetas : List RecordMeta :=
  (W.tycons.filter fun d => d.defModule = some m).filterMap W.recordMeta

/-- Of the first declaration of the name in any module. -/
def currentRenderedShape (rm : RecordMeta) : Shape :=
  ((W.tycons.find? fun d => !d.decl.isAnon && d.decl.name = rm.name && d.defModule.isSome).bind
    W.shapeOf).getD []

def past (name : String) : List VersionEntry :=
  W.history (W.moduleFqns[m]?.getD "") name

def lookupRecord (name : String) (ordinal : Nat) : Option VersionEntry :=
  (W.past m name).reverse.find? fun e => e.ordinal = ordinal

/-! ## Emission -/

/-- The edge of a `migrate` block; none where the history does not know the version. -/
def userEdge (b : MigrateBlock) : Option Edge :=
  (W.lookupRecord m b.record b.ordinal).map fun e => ⟨e.hash, b.record, .user b⟩

def userEdges : List Edge := (W.blocks m).filterMap (W.userEdge m)

/-- The past shapes of one record: an edge for each that is not covered and has a plan. Next to the
edges, the hashes that are covered now. -/
def deriveEntries (rm : RecordMeta) (current : Shape) :
    List VersionEntry → List Hash → List Edge × List Hash
  | [], covered => ([], covered)
  | e :: es, covered =>
    if e.hash = rm.version ∨ e.hash ∈ covered then deriveEntries rm current es covered
    else match derivePlan e.shape current with
      | none => deriveEntries rm current es covered
      | some plan =>
        let rest := deriveEntries rm current es (e.hash :: covered)
        (⟨e.hash, rm.name, .derived plan rm⟩ :: rest.1, rest.2)

/-- The records of the module in turn. -/
def deriveMetas (m : Nat) : List RecordMeta → List Hash → List Edge
  | [], _ => []
  | rm :: rms, covered =>
    let here := deriveEntries rm (W.currentRenderedShape rm) (W.past m rm.name) covered
    here.1 ++ deriveMetas m rms here.2

/-- `emit_record_migrations_fn`. -/
def emitRecordMigrations : List Edge :=
  W.userEdges m ++ W.deriveMetas m (W.recordMetas m) ((W.userEdges m).map Edge.hash)

/-! ## What is at a hash -/

/-- The first plan among past shapes of a hash that is not the current one. -/
def firstPlan (rm : RecordMeta) (current : Shape) (h : Hash) (es : List VersionEntry) :
    Option MigrationPlan :=
  es.findSome? fun e =>
    if e.hash = h ∧ h ≠ rm.version then derivePlan e.shape current else none

/-- The first `migrate` block of the module for the hash. -/
def firstBlock (h : Hash) : Option MigrateBlock :=
  (W.blocks m).find? fun b =>
    (W.lookupRecord m b.record b.ordinal).map VersionEntry.hash = some h

/-- The plan a record has at `h` where nothing covers it: of the first of its past shapes of that
hash with a plan towards the shape found under its name. -/
def claim (rm : RecordMeta) (h : Hash) : Option MigrationPlan :=
  firstPlan rm (W.currentRenderedShape rm) h (W.past m rm.name)

end Workspace

/-!
## The migration of a tagged value

`migrate_tagged` and `derive_record_migration` of `runtime/ridge_rt.erl`, on the value of one record.
What a run leaves out is the walk through the children of a value: it changes the values of fields,
never the fields.
-/

variable {V : Type}

/-- A record value: the identity its `__ridge_v` names, and its fields. -/
structure Tagged (V : Type) where
  tag : RecordMeta
  fields : String → Option V

/-- What the runtime reads of a loaded module that declares tagged records. -/
structure ModuleCode where
  /-- `__ridge_record_versions`. -/
  versions : List (String × Hash)
  /-- `__ridge_record_migrations`. -/
  edges : List Edge

/-- What becomes of a value. -/
inductive Outcome (V : Type) where
  | migrated (v : Tagged V)
  | noMigration (tag : RecordMeta)
  | unknownRecord (tag : RecordMeta)

def Workspace.moduleCode (W : Workspace) (m : Nat) : ModuleCode where
  versions := (W.recordMetas m).map fun rm => (rm.name, rm.version)
  edges := W.emitRecordMigrations m

namespace MigrationPlan

/-- `maps:take` of the old name, then `maps:put` under the new one. -/
def rename (fields : String → Option V) (r : String × String) : String → Option V :=
  match fields r.1 with
  | none => fields
  | some v => fun k => if k = r.2 then some v else if k = r.1 then none else fields k

/-- The fields after `derive_record_migration`: drops, then renames. -/
def apply (p : MigrationPlan) (fields : String → Option V) : String → Option V :=
  p.renames.foldl rename fun k => if k ∈ p.removed then none else fields k

end MigrationPlan

def EdgeBody.run (hooks : MigrateBlock → Tagged V → Tagged V) (v : Tagged V) :
    EdgeBody → Tagged V
  | .user b => hooks b v
  | .derived plan newTag => ⟨newTag, plan.apply v.fields⟩

/-- `migrate_tagged`, walking the result again: the edges that ran, and the outcome. -/
def migrateTagged (loaded : String → Option ModuleCode)
    (hooks : MigrateBlock → Tagged V → Tagged V) : Nat → Tagged V → Option (List Edge × Outcome V)
  | 0, _ => none
  | k + 1, v =>
    match loaded v.tag.fqn with
    | none => some ([], .unknownRecord v.tag)
    | some code =>
      match code.versions.lookup v.tag.name with
      | none => some ([], .unknownRecord v.tag)
      | some current =>
        if current = v.tag.version then some ([], .migrated v)
        else match code.edges.find? fun e => e.hash = v.tag.version with
          | none => some ([], .noMigration v.tag)
          | some e =>
            (migrateTagged loaded hooks k (e.body.run hooks v)).map fun r => (e :: r.1, r.2)

/-! ## Shapes of values -/

/-- The fields are those of the shape, each a value of its type. -/
def HasShape (inhabits : String → V → Prop) (S : Shape) (fields : String → Option V) : Prop :=
  ∀ k, Option.Rel inhabits (S.lookup k) (fields k)

def Current (inhabits : String → V → Prop) (rm : RecordMeta) (S : Shape) (v : Tagged V) : Prop :=
  v.tag = rm ∧ HasShape inhabits S v.fields

end Ridge.Versions
