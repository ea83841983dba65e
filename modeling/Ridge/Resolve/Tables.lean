import Ridge.Resolve.Walker

/-!
# What a collected table keeps

Entries sit at their identifiers, a lookup finds an entry of the name, and a constructor is declared
by its module under the visibility of its type.
-/

namespace Ridge

open List

variable {c : Collector} {vis : ResolvedVisibility} {kind : SymbolKind}

/-! ## The invariant -/

namespace SymbolTable

/-- The owner of a constructor entry is an entry of its table, as visible as the constructor. -/
def OwnerOf (table : SymbolTable) (visibility : ResolvedVisibility) (kind : SymbolKind) : Prop :=
  match kind with
  | .constructor owner _ _ _ ownerModule _ =>
    ownerModule = table.module ∧
      ∃ t, table.entries[owner]? = some t ∧ t.visibility = visibility
  | _ => True

structure WellFormed (table : SymbolTable) : Prop where
  ids : ∀ (i : Nat) (e : SymbolEntry), table.entries[i]? = some e → e.id = i
  index : ∀ name id, table.index.lookup name = some id →
    ∃ e, table.entries[id]? = some e ∧ e.name = name
  owners : ∀ e ∈ table.entries, table.OwnerOf e.visibility e.kind

theorem WellFormed.lookup_eq {table : SymbolTable} (h : table.WellFormed) {name : String}
    {e : SymbolEntry} (he : table.lookup name = some e) :
    table.entries[e.id]? = some e ∧ e.name = name := by
  unfold lookup at he
  cases hid : table.index.lookup name with
  | none => rw [hid] at he; exact absurd he (by simp)
  | some id =>
    rw [hid, Option.bind_some] at he
    obtain ⟨e', he', hname⟩ := h.index name id hid
    have heq : e' = e := Option.some.inj (he'.symm.trans he)
    rw [heq] at hname
    refine ⟨?_, hname⟩
    rw [h.ids id e he]
    exact he

end SymbolTable

/-! ## One insertion -/

namespace Collector

/-- Later collectors keep the entries of earlier ones, in place. -/
structure Extends (c c' : Collector) : Prop where
  module : c'.table.module = c.table.module
  entries : ∀ (i : Nat) (e : SymbolEntry), c.table.entries[i]? = some e → c'.table.entries[i]? = some e

theorem Extends.refl (c : Collector) : c.Extends c := ⟨rfl, fun _ _ h => h⟩

variable {a b : Collector}

theorem Extends.trans (hab : a.Extends b) (hbc : b.Extends c) : a.Extends c :=
  ⟨hbc.module.trans hab.module, fun i e h => hbc.entries i e (hab.entries i e h)⟩

variable {c' : Collector}

theorem Extends.ownerOf (h : c.Extends c') (ho : c.table.OwnerOf vis kind) :
    c'.table.OwnerOf vis kind := by
  cases kind with
  | constructor owner variant arity isRecord ownerModule isOpaque =>
    obtain ⟨hm, t, ht, hv⟩ := ho
    exact ⟨hm.trans h.module.symm, t, h.entries _ _ ht, hv⟩
  | _ => trivial

/-- What an insertion does. -/
theorem push_cases (c : Collector) (name : String) (kind : SymbolKind) (vis : ResolvedVisibility)
    (registered : Bool) :
    ((c.push name kind vis registered).1.table = c.table ∧
        (c.push name kind vis registered).2 = none) ∨
      ((c.push name kind vis registered).2 = some c.table.entries.length ∧
        (c.push name kind vis registered).1.table.module = c.table.module ∧
        (c.push name kind vis registered).1.table.entries =
          c.table.entries ++ [⟨c.table.entries.length, name, kind, vis⟩] ∧
        ((c.push name kind vis registered).1.table.index = c.table.index ∨
          (c.push name kind vis registered).1.table.index =
            (name, c.table.entries.length) :: c.table.index)) := by
  unfold push
  split
  · exact .inl ⟨rfl, rfl⟩
  · refine .inr ⟨rfl, rfl, rfl, ?_⟩
    cases registered with
    | false => exact .inl rfl
    | true => exact .inr rfl

theorem push_extends (c : Collector) (name : String) (kind : SymbolKind)
    (vis : ResolvedVisibility) (registered : Bool) :
    c.Extends (c.push name kind vis registered).1 := by
  rcases push_cases c name kind vis registered with ⟨ht, -⟩ | ⟨-, hm, he, -⟩
  · exact ⟨by rw [ht], fun i e h => by rw [ht]; exact h⟩
  · refine ⟨hm, fun i e h => ?_⟩
    rw [he, getElem?_append_left (List.getElem?_eq_some_iff.mp h).1]
    exact h

variable {id : SymbolId}

variable {name : String} {registered : Bool}

theorem push_entry (h : c.push name kind vis registered = (c', some id)) :
    c'.table.entries[id]? = some ⟨id, name, kind, vis⟩ := by
  rcases push_cases c name kind vis registered with ⟨-, hn⟩ | ⟨hs, -, he, -⟩
  · rw [h] at hn
    exact absurd hn (by simp)
  · rw [h] at hs he
    have hid : id = c.table.entries.length := Option.some.inj hs
    rw [show c'.table.entries = _ from he, hid, getElem?_append_right (Nat.le_refl _)]
    simp

theorem getElem?_concat_cases {α : Type} {l : List α} {a b : α} {i : Nat}
    (h : (l ++ [a])[i]? = some b) : l[i]? = some b ∨ (i = l.length ∧ a = b) := by
  rcases Nat.lt_trichotomy i l.length with hlt | heq | hgt
  · exact .inl (by rwa [getElem?_append_left hlt] at h)
  · subst heq
    exact .inr ⟨rfl, by simpa using h⟩
  · rw [getElem?_eq_none (by simp; omega)] at h
    exact absurd h (by simp)

/-- Collecting one more declaration keeps the entries, and the table well formed. -/
structure Step (c c' : Collector) : Prop where
  extends_ : c.Extends c'
  wellFormed : c.table.WellFormed → c'.table.WellFormed

theorem Step.refl (c : Collector) : c.Step c := ⟨.refl c, id⟩

theorem Step.trans (hab : a.Step b) (hbc : b.Step c) : a.Step c :=
  ⟨hab.extends_.trans hbc.extends_, hbc.wellFormed ∘ hab.wellFormed⟩

/-- Along a fold whose steps rely on something that later entries keep. -/
theorem Step.foldl {α : Type} {f : Collector → α → Collector} {P : Collector → Prop}
    (hkeep : ∀ c c', c.Extends c' → P c → P c') (hstep : ∀ c a, P c → c.Step (f c a))
    (xs : List α) (c : Collector) (hc : P c) : c.Step (xs.foldl f c) := by
  induction xs generalizing c with
  | nil => exact .refl c
  | cons x xs ih =>
    have hx := hstep c x hc
    exact hx.trans (ih (f c x) (hkeep c _ hx.extends_ hc))

theorem step_push (name : String) (registered : Bool) (ho : c.table.OwnerOf vis kind) :
    c.Step (c.push name kind vis registered).1 := by
  have hext := push_extends c name kind vis registered
  refine ⟨hext, fun h => ?_⟩
  rcases push_cases c name kind vis registered with ⟨ht, -⟩ | ⟨-, -, he, hi⟩
  · exact ht ▸ h
  · have hnew : ∀ {i : Nat} {e : SymbolEntry},
        (c.push name kind vis registered).1.table.entries[i]? = some e →
        c.table.entries[i]? = some e ∨
          (i = c.table.entries.length ∧ ⟨c.table.entries.length, name, kind, vis⟩ = e) := by
      intro i e hget
      rw [he] at hget
      exact getElem?_concat_cases hget
    constructor
    · intro i e hget
      rcases hnew hget with hold | ⟨hid, heq⟩
      · exact h.ids i e hold
      · rw [← heq, hid]
    · intro n id hid
      have hlast : (c.push name kind vis registered).1.table.entries[c.table.entries.length]? =
          some ⟨c.table.entries.length, name, kind, vis⟩ := by
        rw [he, getElem?_append_right (Nat.le_refl _)]
        simp
      rcases hi with hi | hi
      · rw [hi] at hid
        obtain ⟨e, hget, hname⟩ := h.index n id hid
        exact ⟨e, hext.entries _ _ hget, hname⟩
      · rw [hi, lookup_cons] at hid
        by_cases hn : n = name
        · rw [hn, beq_self_eq_true] at hid
          exact ⟨_, (Option.some.inj hid) ▸ hlast, hn.symm⟩
        · rw [beq_false_of_ne hn] at hid
          obtain ⟨e, hget, hname⟩ := h.index n id hid
          exact ⟨e, hext.entries _ _ hget, hname⟩
    · intro e hmem
      obtain ⟨i, hget⟩ := getElem?_of_mem hmem
      rcases hnew hget with hold | ⟨-, heq⟩
      · exact hext.ownerOf (h.owners e (mem_of_getElem? hold))
      · rw [← heq]
        exact hext.ownerOf ho

/-! ## Declarations -/

/-- The entry of a type that its constructors refer to. -/
def Declares (vis : ResolvedVisibility) (id : SymbolId) (c : Collector) : Prop :=
  ∃ t, c.table.entries[id]? = some t ∧ t.visibility = vis

theorem Declares.extends (h : c.Extends c') : c.Declares vis id → c'.Declares vis id :=
  fun ⟨t, ht, hv⟩ => ⟨t, h.entries _ _ ht, hv⟩

theorem declares_push (h : c.push name kind vis registered = (c', some id)) : c'.Declares vis id :=
  ⟨_, push_entry h, rfl⟩

theorem step_pushFields (vis : ResolvedVisibility) (owner : SymbolId) (fields : List FieldDecl)
    (c : Collector) : c.Step (c.pushFields vis owner fields) :=
  Step.foldl (P := fun _ => True) (fun _ _ _ _ => trivial)
    (fun _ field _ => step_push field.name false (by exact trivial)) fields c trivial

theorem step_pushTableDerive (vis : ResolvedVisibility) (entity : String) (c : Collector) :
    c.Step (c.pushTableDerive vis entity) := by
  have htype : c.Step (c.push_ (mirrorTypeName entity) (.type 0 false) vis true) :=
    step_push _ true trivial
  have hvalue : c.Step ((c.push_ (mirrorTypeName entity) (.type 0 false) vis true).push_
      (mirrorValueName entity) .const vis true) := htype.trans (step_push _ true trivial)
  exact hvalue.trans (step_push _ true trivial)

theorem step_pushInsertCompanion (vis : ResolvedVisibility) (entity : String)
    (fields : List FieldDecl) (c : Collector) :
    c.Step (c.pushInsertCompanion vis entity fields) := by
  have hfirst : c.Step (c.push (insertCompanionTypeName entity) (.type 0 false) vis true).1 :=
    step_push _ true trivial
  unfold pushInsertCompanion
  simp only
  split
  case h_1 c' h => rw [h] at hfirst; exact hfirst
  case h_2 c' companion h =>
    rw [h] at hfirst
    obtain ⟨t, ht, hv⟩ := declares_push h
    exact hfirst.trans (step_push _ false ⟨rfl, t, ht, hv⟩)

variable {d : TopType} {typeId : SymbolId}

theorem step_pushRecord (fields : List FieldDecl) (h : c.Declares vis typeId) :
    c.Step (c.pushRecord d vis typeId fields) := by
  have hctor : c.Step (c.push_ d.name
      (.constructor typeId 0 fields.length true c.table.module d.isOpaque) vis false) :=
    step_push d.name false ⟨rfl, h⟩
  have hfields := hctor.trans (step_pushFields vis typeId fields _)
  have htable : c.Step (if hasTableDerive d.deriving_ then
      ((c.push_ d.name (.constructor typeId 0 fields.length true c.table.module d.isOpaque) vis
        false).pushFields vis typeId fields).pushTableDerive vis d.name
      else (c.push_ d.name (.constructor typeId 0 fields.length true c.table.module d.isOpaque) vis
        false).pushFields vis typeId fields) := by
    split
    · exact hfields.trans (step_pushTableDerive vis d.name _)
    · exact hfields
  unfold pushRecord
  simp only
  split
  · exact htable.trans (step_pushInsertCompanion vis d.name fields _)
  · exact htable

theorem step_pushVariant (alt : CtorDecl × Nat) (h : c.Declares vis typeId) :
    c.Step (pushVariant d vis typeId c alt) := by
  obtain ⟨ctor, idx⟩ := alt
  cases ctor with
  | positional name args => exact step_push name true ⟨rfl, h⟩
  | record name fields =>
    have hfirst : c.Step (c.push name
        (.constructor typeId idx fields.length false c.table.module d.isOpaque) vis true).1 :=
      step_push name true ⟨rfl, h⟩
    unfold pushVariant
    simp only
    split
    case h_1 c' hp => rw [hp] at hfirst; exact hfirst
    case h_2 c' ctorId hp =>
      rw [hp] at hfirst
      exact hfirst.trans (step_pushFields vis ctorId fields c')

theorem step_pushType (d : TopType) (c : Collector) : c.Step (c.pushType d) := by
  have hfirst : c.Step (c.push d.name (.type d.params.length d.isOpaque)
      (resolveVisibility d.vis d.name) true).1 := step_push d.name true trivial
  unfold pushType
  simp only
  split
  case h_1 c' h => rw [h] at hfirst; exact hfirst
  case h_2 c' typeId h =>
    rw [h] at hfirst
    have hdecl := declares_push h
    cases d.body with
    | record fields => exact hfirst.trans (step_pushRecord fields hdecl)
    | union alternatives =>
      exact hfirst.trans (Step.foldl (fun _ _ => Declares.extends)
        (fun _ alt hc => step_pushVariant alt hc) _ c' hdecl)
    | «alias» ty => exact hfirst

theorem step_visitItem (c : Collector) (item : TopItem) : c.Step (c.visitItem item) := by
  cases item with
  | import_ d | class_ d | instance_ methods => exact .refl c
  | fn d annotations | const vis name ty value annotations => exact step_push _ _ trivial
  | type d migrates annotations => exact step_pushType d c
  | actor vis name state handlers annotations => exact step_push _ _ trivial

end Collector

/-! ## Collected tables -/

variable (module : ModuleId)

theorem wellFormed_empty : (SymbolTable.empty module).WellFormed where
  ids i e h := absurd h (by simp [SymbolTable.empty])
  index name id h := absurd h (by simp [SymbolTable.empty])
  owners e h := absurd h (by simp [SymbolTable.empty])

theorem step_collectSymbols (ast : List TopItem) :
    Collector.Step ⟨.empty module, []⟩ (collectSymbols module ast) :=
  Collector.Step.foldl (P := fun _ => True) (fun _ _ _ _ => trivial)
    (fun c item _ => Collector.step_visitItem c item) ast _ trivial

theorem wellFormed_collectSymbols (ast : List TopItem) :
    (collectSymbols module ast).table.WellFormed :=
  (step_collectSymbols module ast).wellFormed (wellFormed_empty module)

namespace WorkspaceGraph

variable {W : WorkspaceGraph}

theorem symbolTables_getElem? {m : ModuleId} {table : SymbolTable}
    (h : W.symbolTables[m]? = some table) : table.WellFormed ∧ table.module = m := by
  unfold symbolTables collected at h
  rw [map_map, getElem?_map, getElem?_zipIdx] at h
  cases hs : W.modules[m]? with
  | none => rw [hs] at h; exact absurd h (by simp)
  | some source =>
    rw [hs] at h
    have heq : (collectSymbols m source.ast).table = table := by simpa using h
    rw [← heq]
    exact ⟨wellFormed_collectSymbols m source.ast, (step_collectSymbols m source.ast).extends_.module⟩

end WorkspaceGraph

end Ridge
