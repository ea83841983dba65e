import Ridge.Reload.Check

/-!
# Extraction of a snapshot

`extract_snapshot` of `ridge-reload/src/snapshot.rs`: the public symbols of a compiled workspace,
each as the snapshot of its kind. A compiled symbol holds what the compiler knows of it; of a
handler the snapshot keeps the name and the capabilities, and of its parameters and its result
nothing.
-/

namespace Ridge.Reload

namespace Table

variable {α β : Type}

/-- The entries that `f` keeps, as `f` has them. -/
def filterMap (f : String → α → Option β) (t : Table α) : Table β where
  entries := t.entries.filterMap fun e => (f e.1 e.2).map fun b => (e.1, b)
  sorted := by
    rw [List.pairwise_filterMap]
    refine t.sorted.imp fun hlt b hb c hc => ?_
    obtain ⟨_, -, rfl⟩ := Option.map_eq_some_iff.mp hb
    obtain ⟨_, -, rfl⟩ := Option.map_eq_some_iff.mp hc
    exact hlt

def map (f : String → α → β) (t : Table α) : Table β := t.filterMap fun k a => some (f k a)

theorem get_filterMap (f : String → α → Option β) (t : Table α) (key : String) :
    (t.filterMap f).get key = (t.get key).bind (f key) := by
  ext b
  rw [get_eq_some_iff, Option.bind_eq_some_iff]
  simp only [filterMap, List.mem_filterMap, get_eq_some_iff]
  constructor
  · rintro ⟨e, he, hb⟩
    obtain ⟨c, hc, heq⟩ := Option.map_eq_some_iff.mp hb
    cases heq
    exact ⟨e.2, he, hc⟩
  · rintro ⟨a, ha, hb⟩
    exact ⟨(key, a), ha, Option.map_eq_some_iff.mpr ⟨b, hb, rfl⟩⟩

theorem get_map (f : String → α → β) (t : Table α) (key : String) :
    (t.map f).get key = (t.get key).map (f key) := by
  unfold map
  rw [get_filterMap]
  cases t.get key <;> rfl

end Table

/-! ## Compiled workspaces -/

/-- A state field of an actor: its written type, what that type is, and whether there is a
default. -/
structure StateField where
  name : String
  written : AstType
  ty : Ty
  has_default : Bool

/-- A message handler of an actor. Only the name and the capabilities are in its `HandlerSig`. -/
structure Handler where
  caps : List Capability
  params : List Ty
  ret : Ty

/-- `SymbolKind`, with what the compiler has for a symbol of the kind. -/
inductive Symbol where
  | Fn (scheme : Option Scheme) (inferred : Option CapabilitySet) (declared : List Capability)
  | Const (scheme : Option Scheme)
  /-- A record type, with its `@version` and the ordinals of its `migrate` blocks. -/
  | Record (schema : RecordSchema) (declared : Option UInt32) (edges : List UInt32)
  | Union (schema : UnionSchema)
  | Alias (params : List TyVid) (body : Ty)
  | Actor (state : List StateField) (handlers : Table Handler) (edges : List UInt32)
  /-- What has no snapshot of its own: a constructor, a field accessor. -/
  | Covered

structure Entry where
  file_private : Bool
  symbol : Symbol

structure Module where
  entries : Table Entry
  content_hash : UInt64

/-- A resolved and typed workspace. -/
structure Workspace where
  ctx : RenderCtx
  modules : Table Module

def Module.symbols (m : Module) : Table Symbol :=
  m.entries.filterMap fun _ e => if e.file_private then none else some e.symbol

/-! ## Snapshots of symbols -/

def capsFromAstSlice (caps : List Capability) : CapabilitySet :=
  caps.foldl (fun s c => s.union (.singleton c)) .PURE

/-- `fn_caps_bits`: the inferred capabilities, or else the declared ones. -/
def fnCaps (inferred : Option CapabilitySet) (declared : List Capability) : CapabilitySet :=
  inferred.getD (capsFromAstSlice declared)

variable (ctx : RenderCtx)

def signatureText (scheme : Option Scheme) : String :=
  (scheme.map (renderScheme ctx)).getD "?"

def fieldSnaps (schema : RecordSchema) : List FieldSnap :=
  schema.fields.map fun f => { name := f.name, ty := renderType ctx f.ty }

def payloadText : VariantPayload → String
  | .nullary => ""
  | .positional tys => ", ".intercalate (tys.map (renderType ctx))
  | .record schema =>
    "\x7b" ++ ", ".intercalate (schema.fields.map fun f => f.name ++ ": " ++ renderType ctx f.ty)
      ++ "\x7d"

def variantSnaps (schema : UnionSchema) : List VariantSnap :=
  schema.variants.map fun v => { name := v.name, payload := payloadText ctx v.kind }

def actorStateSnaps (state : List StateField) : List StateSnap :=
  state.map fun s =>
    { name := s.name, ty := renderAstType s.written, has_default := s.has_default }

def handlerCaps (handlers : Table Handler) : Table (BitVec 16) :=
  handlers.map fun _ h => (capsFromAstSlice h.caps).bits

/-- What `extract_snapshot` makes of a symbol, with `type_snapshot` and `actor_snapshot`. -/
def symbolSnapshot (fx : Hasher) (ctx : RenderCtx) (prev : Option WorkspaceSnapshot)
    (fqn name : String) : Symbol → Option SymbolSnapshot
  | .Fn scheme inferred declared =>
    some (.Fn (signatureText ctx scheme) (fnCaps inferred declared).bits)
  | .Const scheme => some (.Const (signatureText ctx scheme))
  | .Record schema declared edges =>
    some (recordSnapshot fx prev fqn name declared (fieldSnaps ctx schema) edges)
  | .Union schema => some (.Union 1 (variantSnaps ctx schema))
  | .Alias params body => some (.Alias (renderTypeVars ctx params body))
  | .Actor state handlers edges =>
    some (actorSnapshot fx prev fqn name (actorStateSnaps state) (handlerCaps handlers) edges)
  | .Covered => none

def extractSnapshot (fx : Hasher) (ws : Workspace) (prev : Option WorkspaceSnapshot) :
    WorkspaceSnapshot where
  modules := ws.modules.map fun fqn m =>
    { symbols := m.symbols.filterMap (symbolSnapshot fx ws.ctx prev fqn),
      content_hash := m.content_hash }

/-- The public symbols of a workspace, by module and name. -/
def Workspace.symbol (ws : Workspace) (fqn name : String) : Option Symbol :=
  (ws.modules.get fqn).bind fun m => m.symbols.get name

theorem symbol_extractSnapshot (fx : Hasher) (ws : Workspace) (prev : Option WorkspaceSnapshot)
    (fqn name : String) : (extractSnapshot fx ws prev).symbol fqn name
      = (ws.symbol fqn name).bind (symbolSnapshot fx ws.ctx prev fqn name) := by
  unfold WorkspaceSnapshot.symbol extractSnapshot Workspace.symbol
  dsimp only
  rw [Table.get_map]
  cases ws.modules.get fqn with
  | none => rfl
  | some m => exact Table.get_filterMap _ m.symbols name

/-!
## What the check promises of running code

`Keeps` is what code compiled against the old version relies on. The check sees of it what the
snapshots hold (`SameInText`): names, kinds, capabilities, and the texts of the types of
signatures, fields, payloads and actor states. It says nothing of what a handler takes and
answers, and nothing of two types with one text. Compatible verdicts are a promise exactly when
nothing changes there (`SameInType`).
-/

open List Option

/-! ## What an old caller relies on -/

/-- The quantified variables of a type declaration. -/
def ofParams (params : List TyVid) : Quantified := ⟨params, [], []⟩

/-- The parameter types and the return type of a function. -/
def signature (ctx : RenderCtx) (s : Scheme) : Option (List Portable) × Portable :=
  match s.ty with
  | .fn params ret _ => (some (portableAll ctx s.toQuantified params),
      portable ctx s.toQuantified ret)
  | t => (none, portable ctx s.toQuantified t)

inductive PortablePayload where
  | nullary
  | positional (tys : List Portable)
  | record (fields : List (String × Portable))

def portablePayload (ctx : RenderCtx) (q : Quantified) : VariantPayload → PortablePayload
  | .nullary => .nullary
  | .positional tys => .positional (portableAll ctx q tys)
  | .record schema => .record (schema.fields.map fun f => (f.name, portable ctx q f.ty))

def Handler.messages (ctx : RenderCtx) (h : Handler) : List Portable × Portable :=
  (portableAll ctx (ofParams []) h.params, portable ctx (ofParams []) h.ret)

variable (oc nc : RenderCtx)

/-- Every old field is there, with its type. -/
def FieldsKept (o n : RecordSchema) : Prop :=
  ∀ f ∈ o.fields, ∃ g ∈ n.fields, g.name = f.name ∧
    portable nc (ofParams n.params) g.ty = portable oc (ofParams o.params) f.ty

def VariantsKept (o n : UnionSchema) : Prop :=
  ∀ v ∈ o.variants, ∃ w ∈ n.variants, w.name = v.name ∧
    portablePayload nc (ofParams n.params) w.kind = portablePayload oc (ofParams o.params) v.kind

def StateKept (o n : List StateField) : Prop :=
  ∀ f ∈ o, ∃ g ∈ n, g.name = f.name ∧
    portable nc (ofParams []) g.ty = portable oc (ofParams []) f.ty

/-- What code that is already running relies on: the kind, the types and the capabilities. -/
def Keeps : Symbol → Symbol → Prop
  | .Fn os oi od, .Fn ns ni nd =>
    os.map (signature oc) = ns.map (signature nc) ∧ (fnCaps ni nd).isSubset (fnCaps oi od)
  | .Const _, .Const _ => True
  | .Record o _ _, .Record n _ _ => FieldsKept oc nc o n
  | .Union o, .Union n => VariantsKept oc nc o n
  | .Alias _ _, .Alias _ _ => True
  | .Actor os oh _, .Actor ns nh _ => StateKept oc nc os ns ∧
    ∀ h a, oh.get h = some a → ∃ b, nh.get h = some b ∧ b.messages nc = a.messages oc ∧
      (capsFromAstSlice b.caps).isSubset (capsFromAstSlice a.caps)
  | _, _ => False

/-! ## What the snapshots show, and what they do not -/

/-- The kinds, the names and the texts are the same, and no capability is added. -/
def SameInText : Symbol → Symbol → Prop
  | .Fn os oi od, .Fn ns ni nd =>
    signatureText oc os = signatureText nc ns ∧ (fnCaps ni nd).isSubset (fnCaps oi od)
  | .Const os, .Const ns => signatureText oc os = signatureText nc ns
  | .Record o _ _, .Record n _ _ => fieldSnaps oc o = fieldSnaps nc n
  | .Union o, .Union n => ∀ v ∈ o.variants,
    ∃ w, n.variants.find? (fun w => w.name = v.name) = some w ∧
      payloadText nc w.kind = payloadText oc v.kind
  | .Alias op ob, .Alias np nb => renderTypeVars oc op ob = renderTypeVars nc np nb
  | .Actor os oh _, .Actor ns nh _ => actorStateSnaps os = actorStateSnaps ns ∧
    ∀ h a, oh.get h = some a → ∃ b, nh.get h = some b ∧
      (capsFromAstSlice b.caps).isSubset (capsFromAstSlice a.caps)
  | _, _ => False

/-- The types themselves are the same. -/
def SameInType : Symbol → Symbol → Prop
  | .Fn os _ _, .Fn ns _ _ => os.map (signature oc) = ns.map (signature nc)
  | .Record o _ _, .Record n _ _ => FieldsKept oc nc o n
  | .Union o, .Union n => VariantsKept oc nc o n
  | .Actor os oh _, .Actor ns nh _ => StateKept oc nc os ns ∧
    ∀ h a b, oh.get h = some a → nh.get h = some b → b.messages nc = a.messages oc
  | _, _ => True

variable {o n : Symbol}

/-- With the texts the same, the rest of what a caller relies on is in the types. -/
theorem keeps_iff {oc nc : RenderCtx} (h : SameInText oc nc o n) :
    Keeps oc nc o n ↔ SameInType oc nc o n := by
  cases o <;> cases n
  case Fn.Fn => exact and_iff_left h.2
  case Record.Record => exact Iff.rfl
  case Union.Union => exact Iff.rfl
  case Const.Const => exact Iff.rfl
  case Alias.Alias => exact Iff.rfl
  case Actor.Actor os oh _ ns nh _ =>
    refine and_congr_right fun _ => ⟨fun hkeeps name a b ha hb => ?_, fun htypes name a ha => ?_⟩
    · obtain ⟨b', hb', hmessages, -⟩ := hkeeps name a ha
      rw [hb] at hb'
      cases hb'
      exact hmessages
    · obtain ⟨b, hb, hcaps⟩ := h.2 name a ha
      exact ⟨b, hb, htypes name a b ha hb, hcaps⟩
  all_goals exact absurd h id

theorem isSubset_iff_bits {s t : CapabilitySet} :
    s.isSubset t = true ↔ s.bits &&& ~~~t.bits = 0 := beq_iff_eq

theorem unionKept_iff (version version' : UInt32) (o n : UnionSchema) :
    Kept (.Union version (variantSnaps oc o)) (.Union version' (variantSnaps nc n)) ↔
      ∀ v ∈ o.variants, ∃ w, n.variants.find? (fun w => w.name = v.name) = some w ∧
        payloadText nc w.kind = payloadText oc v.kind := by
  show (∀ v ∈ variantSnaps oc o, _) ↔ _
  unfold variantSnaps
  rw [List.forall_mem_map]
  refine forall₂_congr fun v _ => ?_
  rw [List.find?_map]
  show (∃ m, (n.variants.find? fun w => w.name = v.name).map _ = some m ∧ _) ↔ _
  cases n.variants.find? (fun w => w.name = v.name) with
  | none => simp
  | some w => simp

theorem handlersKept_iff (oh nh : Table Handler) :
    (∀ h ob, (handlerCaps oh).get h = some ob →
      ∃ nb, (handlerCaps nh).get h = some nb ∧ nb &&& ~~~ob = 0) ↔
    ∀ h a, oh.get h = some a → ∃ b, nh.get h = some b ∧
      (capsFromAstSlice b.caps).isSubset (capsFromAstSlice a.caps) := by
  unfold handlerCaps
  simp only [Table.get_map, map_eq_some_iff, isSubset_iff_bits]
  constructor
  · intro h name a ha
    obtain ⟨_, ⟨b, hb, rfl⟩, hcaps⟩ := h name _ ⟨a, ha, rfl⟩
    exact ⟨b, hb, hcaps⟩
  · rintro h name _ ⟨a, ha, rfl⟩
    obtain ⟨b, hb, hcaps⟩ := h name a ha
    exact ⟨_, ⟨b, hb, rfl⟩, hcaps⟩

variable (fx : Hasher)

variable {fqn name : String}

theorem kept_iff {oc nc : RenderCtx} {prev prev' : Option WorkspaceSnapshot} {os : SymbolSnapshot}
    (ho : symbolSnapshot fx oc prev fqn name o = some os) :
    (∃ ns, symbolSnapshot fx nc prev' fqn name n = some ns ∧ Kept os ns)
      ↔ SameInText oc nc o n := by
  have hsnapshot : ∀ ns, symbolSnapshot fx nc prev' fqn name n = some ns →
      ((∃ ns', symbolSnapshot fx nc prev' fqn name n = some ns' ∧ Kept os ns') ↔ Kept os ns) := by
    intro ns hns
    rw [hns]
    simp
  cases o <;> cases ho <;> cases n
  case Fn.refl.Fn => exact (hsnapshot _ rfl).trans (and_congr_right' isSubset_iff_bits.symm)
  case Const.refl.Const => exact hsnapshot _ rfl
  case Record.refl.Record => exact hsnapshot _ rfl
  case Union.refl.Union o n => exact (hsnapshot _ rfl).trans (unionKept_iff oc nc 1 1 o n)
  case Alias.refl.Alias => exact hsnapshot _ rfl
  case Actor.refl.Actor oh _ _ nh _ =>
    exact (hsnapshot _ rfl).trans (and_congr_right' (handlersKept_iff oh nh))
  all_goals
    refine iff_of_false ?_ id
    rintro ⟨ns, hns, hkept⟩
    cases hns <;> exact hkept

/-! ## Soundness -/

/-- Compatible verdicts only, and everything is kept that an old caller relies on. -/
def ReloadSound (prev prev' : Option WorkspaceSnapshot) (old new : Workspace) :
    Prop :=
  (∀ v ∈ check (diff (extractSnapshot fx old prev) (extractSnapshot fx new prev')),
      v.verdict = .Compatible) →
    ∀ fqn name o, old.symbol fqn name = some o → o ≠ .Covered →
      ∃ n, new.symbol fqn name = some n ∧ Keeps old.ctx new.ctx o n

/-- Where every old symbol is there with the same texts, it has the same types. -/
def TextsTell (old new : Workspace) : Prop :=
  (∀ fqn name o, old.symbol fqn name = some o → o ≠ .Covered →
      ∃ n, new.symbol fqn name = some n ∧ SameInText old.ctx new.ctx o n) →
    ∀ fqn name o n, old.symbol fqn name = some o → new.symbol fqn name = some n →
      SameInType old.ctx new.ctx o n

/-- The check sees the texts, the names and the capabilities of public symbols. -/
theorem check_compatible_iff (prev prev' : Option WorkspaceSnapshot) (old new : Workspace) :
    (∀ v ∈ check (diff (extractSnapshot fx old prev) (extractSnapshot fx new prev')),
        v.verdict = .Compatible) ↔
      ∀ fqn name o, old.symbol fqn name = some o → o ≠ .Covered →
        ∃ n, new.symbol fqn name = some n ∧ SameInText old.ctx new.ctx o n := by
  rw [check_iff]
  simp only [symbol_extractSnapshot, bind_eq_some_iff]
  constructor
  · intro h fqn name o ho hcovered
    obtain ⟨os, hos⟩ : ∃ ss, symbolSnapshot fx old.ctx prev fqn name o = some ss := by
      cases o with
      | Covered => exact absurd rfl hcovered
      | _ => exact ⟨_, rfl⟩
    obtain ⟨ns, ⟨n, hn, hns⟩, hkept⟩ := h fqn name os ⟨o, ho, hos⟩
    exact ⟨n, hn, (kept_iff fx hos).mp ⟨ns, hns, hkept⟩⟩
  · rintro h fqn name os ⟨o, ho, hos⟩
    have hcovered : o ≠ .Covered := by
      rintro rfl
      cases hos
    obtain ⟨n, hn, htext⟩ := h fqn name o ho hcovered
    obtain ⟨ns, hns, hkept⟩ := (kept_iff fx hos).mpr htext
    exact ⟨ns, ⟨n, hn, hns⟩, hkept⟩

/-- Compatible verdicts are a promise to running code exactly where the texts tell the types. -/
theorem reloadSound_iff (fx : Hasher) (prev prev' : Option WorkspaceSnapshot)
    (old new : Workspace) : ReloadSound fx prev prev' old new ↔ TextsTell old new := by
  unfold ReloadSound TextsTell
  rw [check_compatible_iff]
  refine imp_congr_right fun htexts => ⟨fun h fqn name o n ho hn => ?_, fun h fqn name o ho hc => ?_⟩
  · by_cases hcovered : o = .Covered
    · subst hcovered
      trivial
    · obtain ⟨n', hn', htext⟩ := htexts fqn name o ho hcovered
      obtain ⟨n'', hn'', hkeeps⟩ := h fqn name o ho hcovered
      rw [hn] at hn' hn''
      cases hn'
      cases hn''
      exact (keeps_iff htext).mp hkeeps
  · obtain ⟨n, hn, htext⟩ := htexts fqn name o ho hc
    exact ⟨n, hn, (keeps_iff htext).mpr (h fqn name o n ho hn)⟩

/-! ### A handler that takes another message -/

/-- A workspace with the public actor `Counter` in the module `app.main`. -/
def counterWorkspace (ctx : RenderCtx) (handlers : Table Handler) (content_hash : UInt64) :
    Workspace where
  ctx := ctx
  modules := ⟨[("app.main", {
    entries := ⟨[("Counter", { file_private := false, symbol := .Actor [] handlers [] })],
      List.pairwise_singleton _ _⟩,
    content_hash := content_hash })], List.pairwise_singleton _ _⟩

theorem symbol_counterWorkspace {ctx : RenderCtx} {handlers : Table Handler} {content_hash : UInt64}
    {s : Symbol} :
    (counterWorkspace ctx handlers content_hash).symbol fqn name = some s ↔
      fqn = "app.main" ∧ name = "Counter" ∧ s = .Actor [] handlers [] := by
  unfold Workspace.symbol Module.symbols counterWorkspace
  simp only [bind_eq_some_iff, Table.get_filterMap, Table.get_eq_some_iff,
    mem_singleton, Prod.mk.injEq]
  constructor
  · rintro ⟨m, ⟨rfl, rfl⟩, e, he, hs⟩
    obtain ⟨rfl, rfl⟩ := Prod.mk.inj (mem_singleton.mp he)
    exact ⟨rfl, rfl, (some.inj hs).symm⟩
  · rintro ⟨rfl, rfl, rfl⟩
    exact ⟨_, ⟨rfl, rfl⟩, _, mem_singleton_self _, rfl⟩

def primitiveCtx : RenderCtx where
  tycons := [⟨"Int", none⟩, ⟨"Text", none⟩, ⟨"Unit", none⟩]
  module_fqns := ["app.main"]

/-- The handler `add`, with a parameter of the constructor `param`. -/
def addHandler (param : TyConId) : Table Handler :=
  ⟨[("add", { caps := [], params := [.con param []], ret := .con 2 [] })],
    List.pairwise_singleton _ _⟩

/-- From `on add (n: Int)` to `on add (n: Text)` there is no incompatible change. -/
theorem handler_parameter_is_not_checked :
    ¬ ReloadSound fxHasher none none (counterWorkspace primitiveCtx (addHandler 0) 1)
      (counterWorkspace primitiveCtx (addHandler 1) 2) := by
  intro h
  have hadd : ∀ param, (addHandler param).get "add"
      = some { caps := [], params := [.con param []], ret := .con 2 [] } := fun _ => rfl
  have hchecked := (check_compatible_iff fxHasher none none
    (counterWorkspace primitiveCtx (addHandler 0) 1)
    (counterWorkspace primitiveCtx (addHandler 1) 2)).mpr ?_
  · obtain ⟨n, hn, hkeeps⟩ := h hchecked "app.main" "Counter" _
      (symbol_counterWorkspace.mpr ⟨rfl, rfl, rfl⟩) Symbol.noConfusion
    obtain ⟨-, -, rfl⟩ := symbol_counterWorkspace.mp hn
    obtain ⟨b, hb, hmessages, -⟩ := hkeeps.2 "add" _ (hadd 0)
    rw [hadd 1] at hb
    cases hb
    -- the two parameters are the types `Text` and `Int`
    have hname : primitiveCtx.nominal 1 = primitiveCtx.nominal 0 := by
      injection hmessages with hparams
      injection hparams with hparam
      injection hparam
    exact absurd hname (by decide)
  · intro fqn name o ho _
    obtain ⟨rfl, rfl, rfl⟩ := symbol_counterWorkspace.mp ho
    refine ⟨_, symbol_counterWorkspace.mpr ⟨rfl, rfl, rfl⟩, rfl, fun h a ha => ?_⟩
    obtain ⟨rfl, rfl⟩ := Prod.mk.inj (mem_singleton.mp ((addHandler 0).get_eq_some_iff.mp ha))
    exact ⟨_, hadd 1, rfl⟩

end Ridge.Reload
