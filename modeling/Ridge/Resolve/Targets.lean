import Ridge.Resolve.Tables

/-!
# What each lookup finds

One lemma for each lookup: what an import can bind a name to, and what a qualified name that is
resolved without a report stands for.
-/

namespace Ridge

open List Option

variable {t : ModuleId} {table : SymbolTable} {name : String} {e : SymbolEntry} {b : Binding}
    {target : ImportTarget} {qn : QualifiedName}

/-! ## Who may see a symbol -/

namespace WorkspaceGraph

variable (W : WorkspaceGraph)

/-- A symbol declared in one module under a visibility, seen from another module. -/
def SymbolAllowed (user declarer : ModuleId) (vis : ResolvedVisibility) : Prop :=
  (vis = .filePrivate → user = declarer) ∧
    (vis = .projectPrivate → W.projectOf user = W.projectOf declarer)

/-- The symbol is declared, and the module may see it. -/
def MaySee (user declarer : ModuleId) (symbol : SymbolId) : Prop :=
  ∃ e, W.entryAt declarer symbol = some e ∧ W.SymbolAllowed user declarer e.visibility

end WorkspaceGraph

namespace WorkspaceGraph

variable {W : WorkspaceGraph} {m : ModuleId}

theorem symbolAllowed_self (m : ModuleId) (vis : ResolvedVisibility) : W.SymbolAllowed m m vis :=
  ⟨fun _ => rfl, fun _ => rfl⟩

/-! ## Entries -/

theorem entryAt_eq (h : W.symbolTables[t]? = some table) (s : SymbolId) :
    W.entryAt t s = table.entries[s]? := by
  unfold entryAt
  rw [h, bind_some]

/-- A name found in a table stands for the entry of its identifier. -/
theorem entryAt_lookup (h : W.symbolTables[t]? = some table) (he : table.lookup name = some e) :
    W.entryAt t e.id = some e := by
  rw [entryAt_eq h]
  exact ((symbolTables_getElem? h).1.lookup_eq he).1

theorem lookupOwn_eq_some (h : W.lookupOwn m name = some e) :
    ∃ table, W.symbolTables[m]? = some table ∧ table.lookup name = some e :=
  bind_eq_some_iff.mp h

theorem maySee_own (h : W.lookupOwn m name = some e) : W.MaySee m m e.id := by
  obtain ⟨table, ht, he⟩ := lookupOwn_eq_some h
  exact ⟨e, entryAt_lookup ht he, symbolAllowed_self m _⟩

variable {s : SymbolId}

variable {owner : SymbolId} {variant arity : Nat} {isRecord isOpaque : Bool}
  {ownerModule : ModuleId}

/-- A constructor is declared where its type is, and is as visible. -/
theorem constructor_owner (he : W.entryAt t s = some e)
    (hk : e.kind = .constructor owner variant arity isRecord ownerModule isOpaque) :
    ownerModule = t ∧ ∃ d, W.entryAt t owner = some d ∧ d.visibility = e.visibility := by
  obtain ⟨table, ht, hget⟩ := bind_eq_some_iff.mp he
  obtain ⟨hwf, hm⟩ := symbolTables_getElem? ht
  have ho := hwf.owners e (mem_of_getElem? hget)
  rw [hk] at ho
  obtain ⟨hmod, d, hd, hv⟩ := ho
  exact ⟨hmod.trans hm, d, by rw [entryAt_eq ht]; exact hd, hv⟩

/-- The constructor of a symbol is seen exactly by those who see the symbol. -/
theorem constructor_maySee (he : W.entryAt t s = some e)
    (hk : e.kind = .constructor owner variant arity isRecord ownerModule isOpaque) :
    W.MaySee m ownerModule owner ↔ W.SymbolAllowed m t e.visibility := by
  obtain ⟨hm, d, hd, hv⟩ := constructor_owner he hk
  rw [hm, ← hv]
  constructor
  · rintro ⟨d', hd', hallowed⟩
    rwa [some.inj (hd'.symm.trans hd)] at hallowed
  · exact fun h => ⟨d, hd, h⟩

theorem constructorBindingFor_eq_some (h : W.constructorBindingFor t s = some b) :
    ∃ e owner variant arity isRecord ownerModule isOpaque, W.entryAt t s = some e ∧
      e.kind = .constructor owner variant arity isRecord ownerModule isOpaque ∧
      b = .constructor owner variant isRecord ownerModule := by
  unfold constructorBindingFor at h
  cases he : W.entryAt t s with
  | none => rw [he] at h; exact absurd h (by simp)
  | some e =>
    rw [he, map_some] at h
    cases hk : e.kind with
    | constructor owner variant arity isRecord ownerModule isOpaque =>
      rw [hk] at h
      exact ⟨e, owner, variant, arity, isRecord, ownerModule, isOpaque, rfl, hk,
        (some.inj h).symm⟩
    | _ => rw [hk] at h; exact absurd h (by simp)

/-! ## Import bindings -/

/-- What an import can bind a name to: a module, a standard-library symbol, or a symbol that the
importing module may see. -/
def Imported (W : WorkspaceGraph) (m : ModuleId) : Binding → Prop
  | .importedSymbol t s => W.MaySee m t s
  | .moduleAlias _ => True
  | .stdlibSymbol _ _ => True
  | _ => False

variable {p : ProjectId}

theorem symbolAllowed_of_visible {vis : ResolvedVisibility} (hm : W.projectOf m = some p)
    (h : isSymbolVisibleWithin vis (W.projectOf t = some p) = true) : W.SymbolAllowed m t vis := by
  cases vis with
  | filePrivate => exact absurd h (by simp [isSymbolVisibleWithin])
  | projectPrivate =>
    refine ⟨fun hv => absurd hv (by simp), fun _ => ?_⟩
    rw [hm, show W.projectOf t = some p by simpa [isSymbolVisibleWithin] using h]
  | namespaceInternal | pub => exact ⟨fun hv => absurd hv (by simp), fun hv => absurd hv (by simp)⟩

theorem imported_resolveItem {path item : String} (hm : W.projectOf m = some p)
    (h : (W.resolveItem p target path item).1 = some b) : W.Imported m b := by
  unfold resolveItem at h
  cases target with
  | workspaceModule t =>
    simp only at h
    cases he : (W.symbolTables[t]?).bind (SymbolTable.lookup · item) with
    | none => rw [he] at h; exact absurd h (by simp)
    | some e =>
      rw [he] at h
      simp only at h
      split at h
      case isTrue hvis =>
        obtain ⟨table, ht, hl⟩ := bind_eq_some_iff.mp he
        rw [← some.inj h]
        exact ⟨e, entryAt_lookup ht hl, symbolAllowed_of_visible hm hvis⟩
      case isFalse => exact absurd h (by simp)
  | builtinStdlib id =>
    simp only at h
    split at h
    · rw [← some.inj h]; trivial
    · exact absurd h (by simp)
  | external project name | unresolved => exact absurd h (by simp)

theorem imported_resolveItems {path : String} (hm : W.projectOf m = some p) (items : List String) :
    ∀ eb ∈ (W.resolveItems p target path items).1, W.Imported m eb.binding := by
  induction items with
  | nil => intro eb h; exact absurd h (by simp [resolveItems])
  | cons item items ih =>
    intro eb h
    rw [resolveItems] at h
    rcases mem_append.mp h with hfirst | hrest
    · obtain ⟨b, hb, rfl⟩ := mem_map.mp hfirst
      exact imported_resolveItem hm (mem_toList.mp hb)
    · exact ih eb hrest

theorem imported_computeEffectiveBindings (d : ImportDecl) (hm : W.projectOf m = some p) :
    ∀ eb ∈ (W.computeEffectiveBindings p target d).1, W.Imported m eb.binding := by
  have halias : ∀ eb ∈ d.aliasName.toList.map
      (fun name => (⟨name, .moduleAlias target⟩ : EffectiveBinding)), W.Imported m eb.binding := by
    intro eb h
    obtain ⟨name, -, rfl⟩ := mem_map.mp h
    trivial
  intro eb h
  unfold computeEffectiveBindings at h
  cases hi : d.items with
  | some items =>
    rw [hi] at h
    simp only at h
    split at h
    · exact halias eb h
    · rcases mem_append.mp h with hfirst | hrest
      · exact halias eb hfirst
      · exact imported_resolveItems hm items eb hrest
  | none =>
    rw [hi] at h
    simp only at h
    split at h
    · exact halias eb h
    · rw [mem_singleton.mp h]; trivial

theorem imported_preludeResolutions :
    ∀ ir ∈ W.preludeResolutions, ∀ eb ∈ ir.effectiveBindings, W.Imported m eb.binding := by
  intro ir hir eb heb
  rcases mem_append.mp hir with hsymbols | haliases
  · obtain ⟨p, -, rfl⟩ := mem_map.mp hsymbols
    obtain ⟨name, -, rfl⟩ := mem_map.mp heb
    trivial
  · rw [mem_singleton.mp haliases] at heb
    obtain ⟨p, -, hp⟩ := mem_filterMap.mp heb
    obtain ⟨id, -, rfl⟩ := map_eq_some_iff.mp hp
    trivial

theorem imported_moduleImports :
    ∀ ir ∈ W.moduleImports m, ∀ eb ∈ ir.effectiveBindings, W.Imported m eb.binding := by
  intro ir hir eb heb
  unfold moduleImports resolveImportsOf at hir
  cases hs : W.modules[m]? with
  | none => rw [hs] at hir; exact absurd hir (by simp)
  | some source =>
    rw [hs] at hir
    have hm : W.projectOf m = some source.project := by unfold projectOf; rw [hs]; rfl
    rcases List.mem_append.mp hir with huser | hprelude
    · rw [List.map_map] at huser
      obtain ⟨d, -, rfl⟩ := List.mem_map.mp huser
      exact imported_computeEffectiveBindings d hm eb heb
    · obtain ⟨ir', hir', rfl⟩ := List.mem_map.mp (List.mem_of_mem_filter hprelude)
      exact imported_preludeResolutions ir' hir' eb (List.mem_of_mem_filter heb)

theorem imported_findImportBinding {eb : EffectiveBinding}
    (h : W.findImportBinding m name = some eb) : W.Imported m eb.binding := by
  obtain ⟨ir, hir, heb⟩ := mem_flatMap.mp (mem_of_find?_eq_some h)
  exact imported_moduleImports ir hir eb heb

/-! ## Qualified names -/

/-- What the head of a qualified name is bound to by an import. -/
abbrev headBinding (W : WorkspaceGraph) (m : ModuleId) (head : String) : Option Binding :=
  (W.findImportBinding m head).map EffectiveBinding.binding

/-- The head names a standard-library module, or a symbol of one. -/
def StdlibHead (W : WorkspaceGraph) (m : ModuleId) (head : String) (id : StdlibModuleId) : Prop :=
  W.headBinding m head = some (.moduleAlias (.builtinStdlib id)) ∨
    ∃ name, W.headBinding m head = some (.stdlibSymbol id name)

/-- What a qualified name stands for, by its head and its last segment. -/
inductive QualifiedTarget (W : WorkspaceGraph) (m : ModuleId) (head last : String) : Binding → Prop
  | stdlibMember (id : StdlibModuleId) (source : BuiltinStdlibModule) :
      W.StdlibHead m head id → W.builtins[id]? = some source → last ∈ source.exports →
      QualifiedTarget W m head last (.stdlibSymbol id last)
  | member (t : ModuleId) (table : SymbolTable) (entry : SymbolEntry) :
      W.headBinding m head = some (.moduleAlias (.workspaceModule t)) →
      W.symbolTables[t]? = some table → table.lookup last = some entry →
      QualifiedTarget W m head last
        ((W.constructorBindingFor t entry.id).getD (.importedSymbol t entry.id))
  | method (t : ModuleId) (table : SymbolTable) (entry : MethodEntry) :
      W.headBinding m head = some (.moduleAlias (.workspaceModule t)) →
      W.symbolTables[t]? = some table → table.lookup last = none →
      W.classMethodIndex.declaringModule last = some t →
      W.classMethodIndex.lookup last = some entry →
      QualifiedTarget W m head last (.classMethod entry.className last)
  | importedType (t : ModuleId) (s : SymbolId) (table : SymbolTable) (b : Binding) :
      W.headBinding m head = some (.importedSymbol t s) →
      W.symbolTables[t]? = some table → (table.entries[s]?).any SymbolEntry.isType →
      constructorOf table s last = some b → QualifiedTarget W m head last b
  | ownType (table : SymbolTable) (sym : SymbolEntry) (b : Binding) :
      W.headBinding m head = none → W.symbolTables[m]? = some table →
      table.lookup head = some sym → sym.isType → constructorOf table sym.id last = some b →
      QualifiedTarget W m head last b

/-- The head is bound to a module that cannot be read: its import has been reported already. -/
inductive DeadHead (W : WorkspaceGraph) (m : ModuleId) (head : String) : Prop
  | external (project : ProjectId) (name : String) :
      W.headBinding m head = some (.moduleAlias (.external project name)) → DeadHead W m head
  | unresolved : W.headBinding m head = some (.moduleAlias .unresolved) → DeadHead W m head
  | noManifest (id : StdlibModuleId) :
      W.StdlibHead m head id → W.builtins[id]? = none → DeadHead W m head

variable {head : String}

theorem StdlibHead.inj {i j : StdlibModuleId} (hi : W.StdlibHead m head i)
    (hj : W.StdlibHead m head j) : i = j := by
  rcases hi with hi | ⟨name, hi⟩ <;> rcases hj with hj | ⟨name', hj⟩
  · simpa using hi.symm.trans hj
  · exact absurd (hi.symm.trans hj) (by simp)
  · exact absurd (hi.symm.trans hj) (by simp)
  · have h := hi.symm.trans hj
    rw [some.injEq, Binding.stdlibSymbol.injEq] at h
    exact h.1

variable {id : StdlibModuleId}

theorem StdlibHead.not_alias (h : W.StdlibHead m head id)
    (halias : W.headBinding m head = some (.moduleAlias target)) : target = .builtinStdlib id := by
  rcases h with h | ⟨name, h⟩
  · simpa using halias.symm.trans h
  · exact absurd (halias.symm.trans h) (by simp)

theorem not_deadHead {head last : String} (h : W.QualifiedTarget m head last b) :
    ¬ W.DeadHead m head := by
  intro hdead
  cases hdead with
  | external project name hd | unresolved hd =>
    cases h with
    | stdlibMember id source hhead => exact absurd (hhead.not_alias hd) (by simp)
    | member t table entry hhead
    | method t table entry hhead
    | importedType t s table b hhead
    | ownType table sym b hhead => exact absurd (hhead.symm.trans hd) (by simp)
  | noManifest id hd hnone =>
    cases h with
    | stdlibMember id' source hhead hsource =>
      rw [hhead.inj hd, hnone] at hsource
      exact absurd hsource (by simp)
    | member t table entry hhead
    | method t table entry hhead => exact absurd (hd.not_alias hhead) (by simp)
    | importedType t s table b hhead | ownType table sym b hhead =>
      rcases hd with hd | ⟨name, hd⟩ <;> exact absurd (hhead.symm.trans hd) (by simp)

theorem constructorOf_eq_some {type : SymbolId} (h : constructorOf table type name = some b) :
    ∃ e ∈ table.entries, ∃ variant arity isRecord ownerModule isOpaque,
      e.kind = .constructor type variant arity isRecord ownerModule isOpaque ∧ e.name = name ∧
      b = .constructor type variant isRecord ownerModule := by
  obtain ⟨e, hmem, he⟩ := exists_of_findSome?_eq_some h
  refine ⟨e, hmem, ?_⟩
  cases hk : e.kind with
  | constructor owner variant arity isRecord ownerModule isOpaque =>
    rw [hk] at he
    simp only at he
    split at he
    case isTrue hc =>
      rw [← hc.1]
      exact ⟨variant, arity, isRecord, ownerModule, isOpaque, rfl, hc.2,
        hc.1 ▸ (some.inj he).symm⟩
    case isFalse => exact absurd he (by simp)
  | _ => rw [hk] at he; exact absurd he (by simp)

theorem unresolvedQualified_ne :
    unresolvedQualified qn ≠ (b, []) := by simp [unresolvedQualified]

/-- A lookup among the exports of a standard-library module. -/
theorem resolveStdlibMember_eq (h : W.resolveStdlibMember id name = (b, [])) :
    (W.builtins[id]? = none ∧ b = .error) ∨
      ∃ source, W.builtins[id]? = some source ∧ name ∈ source.exports ∧
        b = .stdlibSymbol id name := by
  unfold resolveStdlibMember at h
  cases hs : W.builtins[id]? with
  | none =>
    rw [hs] at h
    exact .inl ⟨rfl, (congrArg Prod.fst h).symm⟩
  | some source =>
    rw [hs] at h
    simp only at h
    split at h
    case isTrue hmem =>
      exact .inr ⟨source, rfl, contains_iff_mem.mp hmem, (congrArg Prod.fst h).symm⟩
    case isFalse => exact absurd (congrArg Prod.snd h) (by simp)

theorem resolveTypeActorHead_eq (h : W.resolveTypeActorHead t s qn = (b, [])) :
    ∃ table, W.symbolTables[t]? = some table ∧ (table.entries[s]?).any SymbolEntry.isType ∧
      constructorOf table s qn.last = some b := by
  unfold resolveTypeActorHead at h
  split at h
  case h_1 => exact absurd h unresolvedQualified_ne
  case h_2 table ht =>
    split at h
    case h_1 arity isOpaque hkind =>
      split at h
      case h_1 binding hb =>
        obtain ⟨e, he, hk⟩ := map_eq_some_iff.mp hkind
        refine ⟨table, ht, ?_, hb.trans (congrArg some (Prod.mk.inj h).1)⟩
        rw [he, any_some, SymbolEntry.isType, hk]
      case h_2 => exact absurd h unresolvedQualified_ne
    case h_2 => exact absurd h unresolvedQualified_ne

theorem resolveTypeActorHead_of (ht : W.symbolTables[t]? = some table)
    (htype : (table.entries[s]?).any SymbolEntry.isType)
    (hb : constructorOf table s qn.last = some b) : W.resolveTypeActorHead t s qn = (b, []) := by
  unfold resolveTypeActorHead
  rw [ht]
  cases he : table.entries[s]? with
  | none => rw [he] at htype; exact absurd htype (by simp)
  | some e =>
    rw [he, any_some] at htype
    cases hk : e.kind with
    | type arity isOpaque => simp only [he, map_some, hk, hb]
    | _ => simp [SymbolEntry.isType, hk] at htype

/-- Whatever is resolved without a report is a target, or its import has been reported. -/
theorem resolveQualifiedName_silent (hne : qn.segments ≠ [])
    (h : W.resolveQualifiedName m qn = (b, [])) :
    W.QualifiedTarget m qn.head qn.last b ∨ (W.DeadHead m qn.head ∧ b = .error) := by
  unfold resolveQualifiedName at h
  rw [if_neg (by simpa using hne)] at h
  split at h
  case h_1 target hhead =>
    unfold resolveInTarget at h
    cases target with
    | builtinStdlib id =>
      rcases resolveStdlibMember_eq h with ⟨hnone, hb⟩ | ⟨source, hs, hmem, hb⟩
      · exact .inr ⟨.noManifest id (.inl hhead) hnone, hb⟩
      · exact .inl (hb ▸ .stdlibMember id source (.inl hhead) hs hmem)
    | workspaceModule t =>
      simp only at h
      split at h
      case h_1 => exact absurd h unresolvedQualified_ne
      case h_2 table ht =>
        split at h
        case h_1 entry he =>
          exact .inl ((Prod.mk.inj h).1 ▸ .member t table entry hhead ht he)
        case h_2 hnone =>
          split at h
          case isTrue hdecl =>
            split at h
            case h_1 method hmethod =>
              exact .inl ((Prod.mk.inj h).1 ▸ .method t table method hhead ht hnone hdecl hmethod)
            case h_2 => exact absurd h unresolvedQualified_ne
          case isFalse => exact absurd h unresolvedQualified_ne
    | external project name => exact .inr ⟨.external project name hhead, (congrArg Prod.fst h).symm⟩
    | unresolved => exact .inr ⟨.unresolved hhead, (congrArg Prod.fst h).symm⟩
  case h_2 t s hhead =>
    obtain ⟨table, ht, htype, hb⟩ := resolveTypeActorHead_eq h
    exact .inl (.importedType t s table b hhead ht htype hb)
  case h_3 id name hhead =>
    rcases resolveStdlibMember_eq h with ⟨hnone, hb⟩ | ⟨source, hs, hmem, hb⟩
    · exact .inr ⟨.noManifest id (.inr ⟨name, hhead⟩) hnone, hb⟩
    · exact .inl (hb ▸ .stdlibMember id source (.inr ⟨name, hhead⟩) hs hmem)
  case h_4 => exact absurd h unresolvedQualified_ne
  case h_5 hhead =>
    unfold resolveOwnHead at h
    split at h
    case h_1 => exact absurd h unresolvedQualified_ne
    case h_2 table ht =>
      split at h
      case h_1 => exact absurd h unresolvedQualified_ne
      case h_2 sym hsym =>
        have hat : table.entries[sym.id]? = some sym := ((symbolTables_getElem? ht).1.lookup_eq hsym).1
        have hown : ∀ {b' : Binding}, W.resolveTypeActorHead m sym.id qn = (b', []) →
            W.QualifiedTarget m qn.head qn.last b' := by
          intro b' h'
          obtain ⟨table', ht', htype, hb⟩ := resolveTypeActorHead_eq h'
          obtain rfl : table = table' := some.inj (ht.symm.trans ht')
          rw [hat, any_some] at htype
          exact .ownType table sym b' hhead ht hsym htype hb
        split at h
        case h_1 => exact .inl (hown h)
        case h_2 => exact .inl (hown h)
        case h_3 => exact absurd h unresolvedQualified_ne

/-- A target is what the name is resolved to, whatever stands between its head and its last
segment. -/
theorem resolveQualifiedName_of (hne : qn.segments ≠ []) (h : W.QualifiedTarget m qn.head qn.last b) :
    W.resolveQualifiedName m qn = (b, []) := by
  unfold resolveQualifiedName
  rw [if_neg (by simpa using hne)]
  cases h with
  | stdlibMember id source hhead hs hmem =>
    have hmember : W.resolveStdlibMember id qn.last = (.stdlibSymbol id qn.last, []) := by
      unfold resolveStdlibMember
      simp only [hs, contains_iff_mem.mpr hmem, if_true]
    rcases hhead with hhead | ⟨name, hhead⟩ <;> rw [headBinding] at hhead <;>
      simp only [hhead, resolveInTarget, hmember]
  | member t table entry hhead ht he =>
    rw [headBinding] at hhead
    simp only [hhead, resolveInTarget, ht, he]
  | method t table entry hhead ht hnone hdecl hmethod =>
    rw [headBinding] at hhead
    simp only [hhead, resolveInTarget, ht, hnone, hdecl, hmethod, if_true]
  | importedType t s table b hhead ht htype hb =>
    rw [headBinding] at hhead
    simp only [hhead]
    exact resolveTypeActorHead_of ht htype hb
  | ownType table sym b hhead ht hsym htype hb =>
    have hat : table.entries[sym.id]? = some sym := ((symbolTables_getElem? ht).1.lookup_eq hsym).1
    have hres : W.resolveTypeActorHead m sym.id qn = (b, []) :=
      resolveTypeActorHead_of ht (by rw [hat, any_some]; exact htype) hb
    rw [headBinding] at hhead
    cases hk : sym.kind with
    | type arity isOpaque => simp only [hhead, resolveOwnHead, ht, hsym, hk, hres]
    | _ => simp [SymbolEntry.isType, hk] at htype

end WorkspaceGraph

end Ridge
