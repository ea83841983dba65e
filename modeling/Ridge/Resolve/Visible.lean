import Mathlib.Data.Fintype.EquivFin
import Ridge.Resolve.Targets

/-!
# Which symbols a use may reach

A symbol without `pub` is for its own module or project. Item lists ask the rule of each item; a
name qualified by an alias does not, and its middle segments are never read.
-/

namespace Ridge

open List Option

variable {name : String} {b : Binding} {u : Use} {qn : QualifiedName}

/-! ## What a use stands for -/

/-- The workspace symbol a binding names; a constructor is named by its type. -/
def Binding.symbol? : Binding → Option (ModuleId × SymbolId)
  | .moduleSymbol m s => some (m, s)
  | .importedSymbol m s => some (m, s)
  | .actorName m s => some (m, s)
  | .constructor owner _ _ ownerModule => some (ownerModule, owner)
  | _ => none

namespace QualifiedName

def replaceSegment (qn : QualifiedName) (i : Nat) (text : String) : QualifiedName :=
  ⟨qn.segments.modify i fun seg => ⟨text, seg.span⟩, qn.span⟩

end QualifiedName

namespace Use

def qualified? (u : Use) : Option QualifiedName :=
  match u.form with
  | .qualified qn => some qn
  | .ctorExpr (.qualified qn) => some qn
  | .ctorPattern (some qn) _ _ => some qn
  | _ => none

def requalify (u : Use) (qn : QualifiedName) : Use :=
  match u.form with
  | .qualified _ => ⟨.qualified qn, u.scope⟩
  | .ctorExpr (.qualified _) => ⟨.ctorExpr (.qualified qn), u.scope⟩
  | .ctorPattern (some _) _ hasBody => ⟨.ctorPattern (some qn) qn.last hasBody, u.scope⟩
  | _ => u

end Use

namespace WorkspaceGraph

variable (W : WorkspaceGraph) (m : ModuleId)

/-- The module may see the symbol that the binding names, if it names one. -/
def Allows (b : Binding) : Prop := ∀ t s, b.symbol? = some (t, s) → W.MaySee m t s

/-- Nothing in sight of the module has the name. -/
structure Unknown (name : String) : Prop where
  imports : W.findImportBinding m name = none
  tables : ∀ table ∈ W.symbolTables, ∀ e ∈ table.entries, e.name ≠ name
  builtins : ∀ source ∈ W.builtins, name ∉ source.exports
  methods : W.classMethodIndex.lookup name = none

/-- Each segment is read: an unknown name in its place is an error. -/
def SegmentsChecked (u : Use) : Prop :=
  ∀ qn, u.qualified? = some qn → ∀ i < qn.segments.length, ∀ name, W.Unknown m name →
    (W.resolveUse m (u.requalify (qn.replaceSegment i name))).2 ≠ []

/-- No segment stands between the first and the last, and an alias of a workspace module is not
followed by a name that the module has for itself. -/
def Guarded (u : Use) : Prop :=
  ∀ qn, u.qualified? = some qn → qn.segments.length ≤ 2 ∧
    ∀ t, W.headBinding m qn.head = some (.moduleAlias (.workspaceModule t)) →
      ∀ table, W.symbolTables[t]? = some table → ∀ e, table.lookup qn.last = some e →
        W.SymbolAllowed m t e.visibility

end WorkspaceGraph

/-! ## Unknown names -/

theorem lookup_eq_none_of_notMem {α : Type} {xs : List (String × α)} (h : name ∉ xs.map Prod.fst) :
    xs.lookup name = none := by
  rw [lookup_eq_none_iff]
  intro p hp
  exact bne_iff_ne.mpr fun heq => h (mem_map.mpr ⟨p, hp, heq.symm⟩)

namespace WorkspaceGraph

variable {W : WorkspaceGraph} {m : ModuleId}

/-- There is always a name that nothing has. -/
theorem exists_unknown (W : WorkspaceGraph) (m : ModuleId) : ∃ name, W.Unknown m name := by
  let taken : List String :=
    ((W.moduleImports m).flatMap ImportResolution.effectiveBindings).map EffectiveBinding.localName ++
      (W.symbolTables.flatMap SymbolTable.entries).map SymbolEntry.name ++
      W.builtins.flatMap BuiltinStdlibModule.exports ++ W.classMethodIndex.entries.map Prod.fst
  have hinf : Infinite String :=
    Infinite.of_injective String.ofList fun a b h => by
      rw [← String.toList_ofList (l := a), h, String.toList_ofList]
  obtain ⟨name, hname⟩ := Infinite.exists_notMem_finset taken.toFinset
  have hnot : name ∉ taken := fun h => hname (mem_toFinset.mpr h)
  simp only [taken, mem_append, not_or] at hnot
  obtain ⟨⟨⟨himports, htables⟩, hbuiltins⟩, hmethods⟩ := hnot
  refine ⟨name, ?_, ?_, ?_, lookup_eq_none_of_notMem hmethods⟩
  · rw [findImportBinding, find?_eq_none]
    intro eb heb heq
    exact himports (mem_map.mpr ⟨eb, heb, of_decide_eq_true heq⟩)
  · intro table ht e he heq
    exact htables (mem_map.mpr ⟨e, mem_flatMap.mpr ⟨table, ht, he⟩, heq⟩)
  · intro source hs hmem
    exact hbuiltins (mem_flatMap.mpr ⟨source, hs, hmem⟩)

variable {t : ModuleId} {table : SymbolTable}

theorem Unknown.lookup (h : W.Unknown m name) (ht : W.symbolTables[t]? = some table) :
    table.lookup name = none := by
  cases he : table.lookup name with
  | none => rfl
  | some e =>
    obtain ⟨hget, hname⟩ := (symbolTables_getElem? ht).1.lookup_eq he
    exact absurd hname (h.tables table (mem_of_getElem? ht) e (mem_of_getElem? hget))

theorem Unknown.constructorOf {name : String} (h : W.Unknown m name)
    (ht : W.symbolTables[t]? = some table) (type : SymbolId) :
    constructorOf table type name = none := by
  cases hb : WorkspaceGraph.constructorOf table type name with
  | none => rfl
  | some b =>
    obtain ⟨e, he, -, -, -, -, -, -, hname, -⟩ := constructorOf_eq_some hb
    exact absurd hname (h.tables table (mem_of_getElem? ht) e he)

theorem Unknown.not_target_head {last : String} (h : W.Unknown m name) (b : Binding) :
    ¬ W.QualifiedTarget m name last b := by
  have hhead : W.headBinding m name = none := by rw [headBinding, h.imports]; rfl
  intro ht
  cases ht with
  | stdlibMember id source hs =>
    rcases hs with hs | ⟨n, hs⟩ <;> exact absurd (hhead.symm.trans hs) (by simp)
  | member t table entry hs
  | method t table entry hs
  | importedType t s table b hs => exact absurd (hhead.symm.trans hs) (by simp)
  | ownType table sym b hs ht hsym => exact absurd (hsym.symm.trans (h.lookup ht)) (by simp)

theorem Unknown.not_deadHead (h : W.Unknown m name) : ¬ W.DeadHead m name := by
  have hhead : W.headBinding m name = none := by rw [headBinding, h.imports]; rfl
  intro hd
  cases hd with
  | external project n hd | unresolved hd => exact absurd (hhead.symm.trans hd) (by simp)
  | noManifest id hd =>
    rcases hd with hd | ⟨n, hd⟩ <;> exact absurd (hhead.symm.trans hd) (by simp)

theorem Unknown.not_target_last {head : String} (h : W.Unknown m name) (b : Binding) :
    ¬ W.QualifiedTarget m head name b := by
  intro ht
  cases ht with
  | stdlibMember id source _ hs hmem => exact h.builtins source (mem_of_getElem? hs) hmem
  | member t table entry _ ht he => exact absurd (he.symm.trans (h.lookup ht)) (by simp)
  | method t table entry _ _ _ _ hm => exact absurd (hm.symm.trans h.methods) (by simp)
  | importedType t s table b _ ht _ hb =>
    exact absurd (hb.symm.trans (h.constructorOf ht s)) (by simp)
  | ownType table sym b _ ht _ _ hb =>
    exact absurd (hb.symm.trans (h.constructorOf ht sym.id)) (by simp)

/-! ## Uses -/

theorem checkOpaqueUse_eq_nil {report : ResolveError} (report' : ResolveError)
    (h : W.checkOpaqueUse m b report = []) : W.checkOpaqueUse m b report' = [] := by
  unfold checkOpaqueUse at h ⊢
  cases ho : W.opaqueOwner b with
  | none => rfl
  | some owner =>
    rw [ho] at h
    by_cases heq : owner = some m
    · exact if_pos heq
    · exact absurd h (by simp [heq])

/-- A use spelled with a qualified name is resolved as the name is, and may report an opaque type
besides. -/
theorem resolveUse_qualified (h : u.qualified? = some qn) :
    ∃ hasBody extra, W.resolveUse m u =
      (some (W.recordBodyFallback hasBody (W.resolveQualifiedName m qn).1),
        (W.resolveQualifiedName m qn).2 ++ extra) := by
  obtain ⟨form, scope⟩ := u
  cases form with
  | qualified q =>
    obtain rfl : q = qn := some.inj h
    exact ⟨false, [], by simp [resolveUse, recordBodyFallback]⟩
  | ctorExpr ctor =>
    cases ctor with
    | bare name => exact absurd h (by simp [Use.qualified?])
    | qualified q =>
      obtain rfl : q = qn := some.inj h
      exact ⟨false, _, rfl⟩
  | ctorPattern qualifier name hasBody =>
    cases qualifier with
    | none => exact absurd h (by simp [Use.qualified?])
    | some q =>
      obtain rfl : q = qn := some.inj h
      exact ⟨hasBody, _, rfl⟩
  | ident name member | typeName name | actorName name
  | fieldAccessor field => exact absurd h (by simp [Use.qualified?])

theorem qualified?_requalify (h : u.qualified? = some qn) (qn' : QualifiedName) :
    (u.requalify qn').qualified? = some qn' := by
  obtain ⟨form, scope⟩ := u
  cases form with
  | qualified q => rfl
  | ctorExpr ctor =>
    cases ctor with
    | bare name => exact absurd h (by simp [Use.qualified?])
    | qualified q => rfl
  | ctorPattern qualifier name hasBody =>
    cases qualifier with
    | none => exact absurd h (by simp [Use.qualified?])
    | some q => rfl
  | ident name member | typeName name | actorName name
  | fieldAccessor field => exact absurd h (by simp [Use.qualified?])

theorem resolveUse_requalify {qn' : QualifiedName} (h : u.qualified? = some qn)
    (heq : W.resolveQualifiedName m qn' = W.resolveQualifiedName m qn)
    (hsilent : (W.resolveUse m u).2 = []) : (W.resolveUse m (u.requalify qn')).2 = [] := by
  obtain ⟨form, scope⟩ := u
  cases form with
  | qualified q =>
    obtain rfl : q = qn := some.inj h
    show (W.resolveQualifiedName m qn').2 = []
    rw [heq]
    exact hsilent
  | ctorExpr ctor =>
    cases ctor with
    | bare name => exact absurd h (by simp [Use.qualified?])
    | qualified q =>
      obtain rfl : q = qn := some.inj h
      obtain ⟨hq, ho⟩ := append_eq_nil_iff.mp hsilent
      show (W.resolveQualifiedName m qn').2 ++
        W.checkOpaqueUse m (W.resolveQualifiedName m qn').1 (.opaqueConstruct qn'.last) = []
      rw [heq]
      exact append_eq_nil_iff.mpr ⟨hq, checkOpaqueUse_eq_nil _ ho⟩
  | ctorPattern qualifier name hasBody =>
    cases qualifier with
    | none => exact absurd h (by simp [Use.qualified?])
    | some q =>
      obtain rfl : q = qn := some.inj h
      obtain ⟨hq, ho⟩ := append_eq_nil_iff.mp hsilent
      show (W.resolveQualifiedName m qn').2 ++ W.checkOpaqueUse m
        (W.recordBodyFallback hasBody (W.resolveQualifiedName m qn').1) (.opaquePattern qn'.last) = []
      rw [heq]
      exact append_eq_nil_iff.mpr ⟨hq, checkOpaqueUse_eq_nil _ ho⟩
  | ident name member | typeName name | actorName name
  | fieldAccessor field => exact absurd h (by simp [Use.qualified?])

variable {hasBody : Bool}

/-- A record body changes the binding of a type to the constructor of the type. -/
theorem allows_recordBodyFallback : W.Allows m (W.recordBodyFallback hasBody b) ↔ W.Allows m b := by
  unfold recordBodyFallback
  split
  case h_1 t s =>
    cases hb : W.recordBodyConstructorFor t s with
    | none => rfl
    | some b' =>
      rw [getD_some]
      unfold recordBodyConstructorFor at hb
      cases he : W.entryAt t s with
      | none => rw [he] at hb; exact absurd hb (by simp)
      | some e =>
        rw [he] at hb
        simp only at hb
        split at hb
        case h_1 arity isOpaque hk =>
          obtain ⟨table, ht, hget⟩ := bind_eq_some_iff.mp he
          have hid : e.id = s := (symbolTables_getElem? ht).1.ids s e hget
          rw [← some.inj hb, hid]
          rfl
        case h_2 => exact absurd hb (by simp)
  case h_2 => rfl

theorem recordBodyFallback_eq_error (h : b = .error) : W.recordBodyFallback hasBody b = .error := by
  rw [h]
  cases hasBody <;> rfl

theorem allows_of_symbol_none (h : b.symbol? = none) : W.Allows m b :=
  fun t s hb => absurd (h.symm.trans hb) (by simp)

variable {s : SymbolId}

theorem allows_iff (h : b.symbol? = some (t, s)) : W.Allows m b ↔ W.MaySee m t s := by
  constructor
  · exact fun hb => hb t s h
  · intro hs t' s' h'
    obtain ⟨rfl, rfl⟩ := Prod.mk.inj (some.inj (h.symm.trans h'))
    exact hs

theorem Imported.allows (h : W.Imported m b) : W.Allows m b := by
  cases b with
  | importedSymbol t s => exact (allows_iff rfl).mpr h
  | moduleAlias target | stdlibSymbol id name => exact allows_of_symbol_none rfl
  | _ => exact h.elim

/-- A constructor is seen by those who see its entry. -/
theorem allows_constructorBindingFor :
    W.Allows m ((W.constructorBindingFor t s).getD (.importedSymbol t s)) ↔ W.MaySee m t s := by
  cases hb : W.constructorBindingFor t s with
  | none => exact allows_iff rfl
  | some b =>
    obtain ⟨e, owner, variant, arity, isRecord, ownerModule, isOpaque, he, hk, rfl⟩ :=
      constructorBindingFor_eq_some hb
    refine (allows_iff rfl).trans ((constructor_maySee he hk).trans ?_)
    constructor
    · exact fun h => ⟨e, he, h⟩
    · intro ⟨e', he', h⟩
      rwa [some.inj (he'.symm.trans he)] at h

theorem allows_importedConstructorBinding (h : W.Imported m b) :
    W.Allows m (W.importedConstructorBinding b) := by
  cases b with
  | importedSymbol t s => exact allows_constructorBindingFor.mpr h
  | moduleAlias target | stdlibSymbol id name => exact allows_of_symbol_none rfl
  | _ => exact h.elim

theorem allows_rejectModuleAsValue {r : Resolved} (h : W.Allows m r.1) :
    W.Allows m (rejectModuleAsValue name r).1 := by
  unfold rejectModuleAsValue
  split
  · exact allows_of_symbol_none rfl
  · exact h

theorem allows_ownConstructor {sym : SymbolEntry} {owner : SymbolId} {variant arity : Nat}
    {isRecord isOpaque : Bool} {ownerModule : ModuleId} (hsym : W.lookupOwn m name = some sym)
    (hk : sym.kind = .constructor owner variant arity isRecord ownerModule isOpaque) :
    W.Allows m (.constructor owner variant isRecord ownerModule) := by
  obtain ⟨table, ht, he⟩ := lookupOwn_eq_some hsym
  exact (allows_iff rfl).mpr ((constructor_maySee (entryAt_lookup ht he) hk).mpr
    (symbolAllowed_self m _))

theorem allows_resolveIdent (scope : ScopeStack) (name : String) :
    W.Allows m (W.resolveIdent m scope name).1 := by
  apply allows_rejectModuleAsValue
  split
  · exact allows_of_symbol_none rfl
  · split
    case h_1 sym hsym => exact (allows_iff rfl).mpr (maySee_own hsym)
    case h_2 =>
      split
      case h_1 eb heb => exact (imported_findImportBinding heb).allows
      case h_2 =>
        unfold resolveClassMethod
        split
        · exact allows_of_symbol_none rfl
        · cases W.classMethodIndex.lookup name with
          | none | some method => exact allows_of_symbol_none rfl

theorem allows_resolveBareCtor (scope : ScopeStack) (name : String) :
    W.Allows m (W.resolveBareCtor m scope name).1 := by
  apply allows_rejectModuleAsValue
  split
  case h_1 sym hsym =>
    split
    case h_1 hk => exact allows_ownConstructor hsym hk
    case h_2 => exact (allows_iff rfl).mpr (maySee_own hsym)
  case h_2 =>
    split
    case h_1 eb heb => exact allows_importedConstructorBinding (imported_findImportBinding heb)
    case h_2 =>
      split
      · exact allows_of_symbol_none rfl
      · exact allows_of_symbol_none rfl

theorem allows_resolveCtorPattern_bare (name : String) (hasBody : Bool) :
    W.Allows m (W.resolveCtorPattern m none name hasBody).1 := by
  unfold resolveCtorPattern
  simp only
  split
  case h_1 sym hsym =>
    split
    case h_1 hk => exact allows_ownConstructor hsym hk
    case h_2 =>
      cases hasBody with
      | true | false => exact (allows_iff rfl).mpr (maySee_own hsym)
  case h_2 =>
    split
    case h_1 eb heb =>
      exact allows_recordBodyFallback.mpr
        (allows_importedConstructorBinding (imported_findImportBinding heb))
    case h_2 => exact allows_of_symbol_none rfl

theorem allows_lookupTypeBinding (h : W.lookupTypeBinding m name = some b) : W.Allows m b := by
  unfold lookupTypeBinding at h
  split at h
  case h_1 sym hsym =>
    split at h
    · rw [← some.inj h]
      exact (allows_iff rfl).mpr (maySee_own hsym)
    · exact absurd h (by simp)
  case h_2 =>
    split at h
    case h_1 eb heb =>
      split at h
      · rw [← some.inj h]
        exact (imported_findImportBinding heb).allows
      · exact absurd h (by simp)
    case h_2 => exact absurd h (by simp)

theorem allows_resolveActorName (name : String) : W.Allows m (W.resolveActorName m name).1 := by
  unfold resolveActorName
  split
  case h_1 sym hsym =>
    split
    · exact (allows_iff rfl).mpr (maySee_own hsym)
    · exact allows_of_symbol_none rfl
  case h_2 => exact allows_of_symbol_none rfl

/-- A use that is not qualified reaches only what its module may see. -/
theorem allows_of_bare (hq : u.qualified? = none) (h : (W.resolveUse m u).1 = some b) :
    W.Allows m b := by
  obtain ⟨form, scope⟩ := u
  cases form with
  | ident name member => exact some.inj h ▸ allows_resolveIdent scope name
  | qualified qn => exact absurd hq (by simp [Use.qualified?])
  | ctorExpr ctor =>
    cases ctor with
    | bare name => exact some.inj h ▸ allows_resolveBareCtor scope name.text
    | qualified qn => exact absurd hq (by simp [Use.qualified?])
  | ctorPattern qualifier name hasBody =>
    cases qualifier with
    | none => exact some.inj h ▸ allows_resolveCtorPattern_bare name hasBody
    | some qn => exact absurd hq (by simp [Use.qualified?])
  | typeName name => exact allows_lookupTypeBinding h
  | actorName name => exact some.inj h ▸ allows_resolveActorName name
  | fieldAccessor field => exact some.inj h ▸ allows_of_symbol_none rfl

/-! ## Qualified uses -/

/-- A constructor found under a type is seen by those who see the type. -/
theorem allows_constructorOf (ht : W.symbolTables[t]? = some table)
    (hb : constructorOf table s name = some b) (hs : W.MaySee m t s) : W.Allows m b := by
  obtain ⟨e, hmem, variant, arity, isRecord, ownerModule, isOpaque, hk, -, rfl⟩ :=
    constructorOf_eq_some hb
  obtain ⟨i, hi⟩ := getElem?_of_mem hmem
  obtain ⟨hm, -⟩ := constructor_owner (W := W) (s := i) (by rw [entryAt_eq ht]; exact hi) hk
  rw [hm]
  exact (allows_iff rfl).mpr hs

/-- A qualified name reaches only what the module may see, unless its alias is followed by a name
that the aliased module has for itself. -/
theorem QualifiedTarget.allows_iff {head last : String} (h : W.QualifiedTarget m head last b) :
    W.Allows m b ↔ ∀ t, W.headBinding m head = some (.moduleAlias (.workspaceModule t)) →
      ∀ table, W.symbolTables[t]? = some table → ∀ e, table.lookup last = some e →
        W.SymbolAllowed m t e.visibility := by
  cases h with
  | stdlibMember id source hhead hs hmem =>
    exact iff_of_true (allows_of_symbol_none rfl)
      (fun t halias => absurd (hhead.not_alias halias) (by simp))
  | member t table entry hhead ht he =>
    rw [allows_constructorBindingFor]
    constructor
    · intro ⟨e', he', hallowed⟩ t' halias table' ht' e'' hl
      obtain rfl : t = t' := by simpa using hhead.symm.trans halias
      obtain rfl : table = table' := some.inj (ht.symm.trans ht')
      obtain rfl : entry = e'' := some.inj (he.symm.trans hl)
      rwa [some.inj (he'.symm.trans (entryAt_lookup ht he))] at hallowed
    · intro hguard
      exact ⟨entry, entryAt_lookup ht he, hguard t hhead table ht entry he⟩
  | method t table entry hhead ht hnone =>
    refine iff_of_true (allows_of_symbol_none rfl) (fun t' halias table' ht' e hl => ?_)
    obtain rfl : t = t' := by simpa using hhead.symm.trans halias
    obtain rfl : table = table' := some.inj (ht.symm.trans ht')
    exact absurd (hnone.symm.trans hl) (by simp)
  | importedType t s table b hhead ht _ hb =>
    refine iff_of_true (allows_constructorOf ht hb ?_)
      (fun t' halias => absurd (hhead.symm.trans halias) (by simp))
    obtain ⟨eb, heb, hbind⟩ := map_eq_some_iff.mp hhead
    have himported := imported_findImportBinding heb
    rwa [hbind] at himported
  | ownType table sym b hhead ht hsym _ hb =>
    refine iff_of_true (allows_constructorOf ht hb ?_)
      (fun t' halias => absurd (hhead.symm.trans halias) (by simp))
    exact ⟨sym, entryAt_lookup ht hsym, symbolAllowed_self m _⟩

/-- A name that is no target and whose head can be read is an error. -/
theorem reports_of_not_target (hne : qn.segments ≠ [])
    (htarget : ∀ b, ¬ W.QualifiedTarget m qn.head qn.last b) (hdead : ¬ W.DeadHead m qn.head) :
    (W.resolveQualifiedName m qn).2 ≠ [] := by
  intro h
  rcases resolveQualifiedName_silent (b := (W.resolveQualifiedName m qn).1) hne
    (Prod.ext rfl h) with ht | ⟨hd, -⟩
  · exact htarget _ ht
  · exact hdead hd

theorem reports_of_qualified (h : u.qualified? = some qn)
    (hq : (W.resolveQualifiedName m qn).2 ≠ []) : (W.resolveUse m u).2 ≠ [] := by
  obtain ⟨hasBody, extra, heq⟩ := resolveUse_qualified (W := W) (m := m) h
  rw [heq]
  exact fun hnil => hq (append_eq_nil_iff.mp hnil).1

/-- Every segment is read exactly of the names that have no middle one. -/
theorem segmentsChecked_iff (hq : u.qualified? = some qn) (hne : qn.segments ≠ [])
    (hsilent : (W.resolveUse m u).2 = []) (ht : W.QualifiedTarget m qn.head qn.last b) :
    W.SegmentsChecked m u ↔ qn.segments.length ≤ 2 := by
  obtain ⟨segments, span⟩ := qn
  rcases segments with _ | ⟨a, _ | ⟨z, _ | ⟨y, rest⟩⟩⟩
  · exact absurd rfl hne
  · have hshort : [a].length ≤ 2 := Nat.le_succ 1
    refine iff_of_true ?_ hshort
    intro qn' hq' i hi name hname
    obtain rfl := some.inj (hq.symm.trans hq')
    obtain rfl : i = 0 := by simpa using hi
    exact reports_of_qualified (qualified?_requalify hq _)
      (reports_of_not_target (by simp [QualifiedName.replaceSegment])
        (fun b => hname.not_target_head b) hname.not_deadHead)
  · have hshort : [a, z].length ≤ 2 := Nat.le_refl 2
    refine iff_of_true ?_ hshort
    intro qn' hq' i hi name hname
    obtain rfl := some.inj (hq.symm.trans hq')
    have hi' : i < 2 := by simpa using hi
    rcases Nat.lt_succ_iff_lt_or_eq.mp hi' with hzero | rfl
    · obtain rfl : i = 0 := by omega
      exact reports_of_qualified (qualified?_requalify hq _)
        (reports_of_not_target (by simp [QualifiedName.replaceSegment])
          (fun b => hname.not_target_head b) hname.not_deadHead)
    · exact reports_of_qualified (qualified?_requalify hq _)
        (reports_of_not_target (by simp [QualifiedName.replaceSegment])
          (fun b => hname.not_target_last b) (not_deadHead ht))
  · have hlong : ¬ (a :: z :: y :: rest).length ≤ 2 := by
      simp only [length_cons]
      omega
    refine iff_of_false (fun hchecked => ?_) hlong
    obtain ⟨name, hname⟩ := W.exists_unknown m
    -- the name between the alias and the last segment is never read
    have hsame : W.QualifiedTarget m
        (QualifiedName.replaceSegment ⟨a :: z :: y :: rest, span⟩ 1 name).head
        (QualifiedName.replaceSegment ⟨a :: z :: y :: rest, span⟩ 1 name).last b := ht
    have heq := (resolveQualifiedName_of (by simp [QualifiedName.replaceSegment]) hsame).trans
      (resolveQualifiedName_of (by simp) ht).symm
    exact hchecked _ hq 1 (by simp) name hname (resolveUse_requalify hq heq hsilent)

/-! ## Every route -/

theorem Accepted.silent (hW : W.Accepted) (hu : u ∈ W.usesOf m) : (W.resolveUse m u).2 = [] := by
  have hm : m < W.modules.length := by
    by_contra hge
    unfold usesOf at hu
    rw [getElem?_eq_none (Nat.le_of_not_lt hge)] at hu
    exact absurd hu (by simp)
  have herrors := (append_eq_nil_iff.mp (hW m hm)).2
  exact flatMap_eq_nil_iff.mp herrors u hu

end WorkspaceGraph

open WorkspaceGraph in
/-- In a workspace that is resolved without errors, a use reaches only what its module may see, and
has each of its segments read, exactly when it is guarded. -/
theorem visible_and_checked_iff {W : WorkspaceGraph} (hW : W.Accepted) {m : ModuleId} {u : Use}
    (hu : u ∈ W.usesOf m) {b : Binding} (hb : (W.resolveUse m u).1 = some b) (hne : b ≠ .error) :
    (W.Allows m b ∧ W.SegmentsChecked m u) ↔ W.Guarded m u := by
  have hsilent := hW.silent hu
  cases hq : u.qualified? with
  | none =>
    refine iff_of_true ⟨allows_of_bare hq hb, fun qn h => ?_⟩ (fun qn h => ?_)
    · exact absurd (hq.symm.trans h) (by simp)
    · exact absurd (hq.symm.trans h) (by simp)
  | some qn =>
    obtain ⟨hasBody, extra, heq⟩ := resolveUse_qualified (W := W) (m := m) hq
    rw [heq] at hb hsilent
    have hbind : W.recordBodyFallback hasBody (W.resolveQualifiedName m qn).1 = b :=
      some.inj hb
    have hnonempty : qn.segments ≠ [] := by
      intro hnil
      refine hne (hbind ▸ recordBodyFallback_eq_error ?_)
      unfold resolveQualifiedName
      rw [hnil]
      rfl
    have htarget : W.QualifiedTarget m qn.head qn.last (W.resolveQualifiedName m qn).1 := by
      rcases resolveQualifiedName_silent hnonempty
        (Prod.ext rfl (append_eq_nil_iff.mp hsilent).1) with ht | ⟨-, herr⟩
      · exact ht
      · exact absurd (hbind ▸ recordBodyFallback_eq_error herr) hne
    have hallows : W.Allows m b ↔ W.Allows m (W.resolveQualifiedName m qn).1 := by
      rw [← hbind]
      exact allows_recordBodyFallback
    have hsegments := segmentsChecked_iff hq hnonempty (by rw [heq]; exact hsilent) htarget
    rw [hallows, htarget.allows_iff, hsegments]
    constructor
    · intro ⟨hguard, hlen⟩ qn' hq'
      obtain rfl := some.inj (hq.symm.trans hq')
      exact ⟨hlen, hguard⟩
    · intro hguarded
      obtain ⟨hlen, hguard⟩ := hguarded qn hq
      exact ⟨hguard, hlen⟩

/-! ### An alias opens its module -/

/-- `fn _secret = ()` of `lib`, and `import lib as L` with `L._secret` in another module. -/
def aliasedSecret : WorkspaceGraph :=
  let sp : Span := ⟨0, 0⟩
  let function (vis : Visibility) (name : String) (body : Expr) : TopItem :=
    .fn ⟨vis, ⟨[], ⟨name, sp⟩, [], .expr body, sp⟩, [], none⟩ []
  { builtins := [⟨"std.int", ["toText"], []⟩]
    projects := [⟨"acme", [], []⟩]
    modules := [
      ⟨0, "lib", [function .private_ "_secret" (.unit sp)]⟩,
      ⟨0, "app", [.import_ ⟨"lib", some "L", none⟩,
        function .pub "main" (.qualified ⟨[⟨"L", sp⟩, ⟨"_secret", sp⟩], sp⟩)]⟩] }

/-- The use of `L._secret`, in the scopes of the module and of `main`. -/
def secretUse : Use :=
  ⟨.qualified ⟨[⟨"L", ⟨0, 0⟩⟩, ⟨"_secret", ⟨0, 0⟩⟩], ⟨0, 0⟩⟩, ⟨[[], []], 0⟩⟩

theorem aliasedSecret_accepted : aliasedSecret.Accepted := by
  unfold WorkspaceGraph.Accepted
  decide +kernel

theorem secretUse_mem : secretUse ∈ aliasedSecret.usesOf 1 := by
  rw [show aliasedSecret.usesOf 1 = [secretUse] from rfl]
  exact mem_singleton_self secretUse

theorem secretUse_resolves :
    (aliasedSecret.resolveUse 1 secretUse).1 = some (.importedSymbol 0 0) := by decide +kernel

theorem secret_reached_iff_guarded :
    (aliasedSecret.Allows 1 (.importedSymbol 0 0) ∧ aliasedSecret.SegmentsChecked 1 secretUse) ↔
      aliasedSecret.Guarded 1 secretUse :=
  visible_and_checked_iff aliasedSecret_accepted secretUse_mem secretUse_resolves (by decide)

/-- The private function of a module is reached through an alias, and nothing is reported. -/
theorem alias_reaches_file_private :
    ¬ ∀ (W : WorkspaceGraph) (m : ModuleId) (u : Use) (b : Binding), W.Accepted → u ∈ W.usesOf m →
      (W.resolveUse m u).1 = some b → b ≠ .error → W.Allows m b ∧ W.SegmentsChecked m u := by
  intro hall
  obtain ⟨hallows, -⟩ := hall aliasedSecret 1 secretUse (.importedSymbol 0 0)
    aliasedSecret_accepted secretUse_mem secretUse_resolves (by decide)
  obtain ⟨e, he, hallowed⟩ := hallows 0 0 rfl
  have hentry : aliasedSecret.entryAt 0 0 = some ⟨0, "_secret", .fn, .filePrivate⟩ := by
    decide +kernel
  obtain rfl := some.inj (he.symm.trans hentry)
  exact absurd (hallowed.1 rfl) (by decide)

end Ridge
