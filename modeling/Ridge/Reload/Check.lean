import Ridge.Reload.Snapshot
import Ridge.Reload.Render

/-!
# The reload check

The diff of two snapshots (`ridge-reload/src/diff.rs`), the scaffolds of migrations
(`scaffold.rs`) and the verdict on every change (`check.rs`). What the check calls compatible is
`Kept`: nothing that the snapshots hold of an old symbol is lost or narrowed.
-/

namespace Ridge.Reload

open List Option

/-! ## The diff -/

inductive SymbolChange where
  | Added (name : String)
  | Removed (name old_kind : String)
  | FnSignatureChanged (name old new : String)
  | FnCapsChanged (name : String) (old_bits new_bits : BitVec 16)
  | ConstChanged (name old new : String)
  | RecordShapeChanged (name : String) (old_version : UInt32)
      (old_fields new_fields : List FieldSnap) (covered_by_hook : Bool)
  | UnionVariantsChanged (name : String) (old_version : UInt32)
      (added removed : List VariantSnap) (payload_changed : List String)
  | AliasChanged (name old new : String)
  | ActorStateChanged (name : String) (old_state new_state : List StateSnap)
      (covered_by_hook : Bool)
  | ActorHandlersChanged (name : String) (added removed : List String)
      (caps_changed : List (String × BitVec 16 × BitVec 16))
  | KindChanged (name old_kind new_kind : String)

inductive ModuleChange where
  | Added (fqn : String)
  | Removed (fqn : String) (had_public_symbols : Bool)
  | Changed (fqn : String) (symbols : List SymbolChange)

def kindName : SymbolSnapshot → String
  | .Fn .. => "fn"
  | .Const .. => "const"
  | .Record .. => "record"
  | .Union .. => "union"
  | .Alias .. => "alias"
  | .Actor .. => "actor"

variable (name : String)

def diffUnion (version : UInt32) (old new : List VariantSnap) :
    List SymbolChange :=
  let added := new.filter fun v => old.all fun o => o.name ≠ v.name
  let removed := old.filter fun v => new.all fun n => n.name ≠ v.name
  let payload_changed := old.filterMap fun o =>
    ((new.find? fun n => n.name = o.name).filter fun n => n.payload ≠ o.payload).map fun _ => o.name
  if added ≠ [] ∨ removed ≠ [] ∨ payload_changed ≠ [] then
    [.UnionVariantsChanged name version added removed payload_changed]
  else []

def diffHandlers (old new : Table (BitVec 16)) : List SymbolChange :=
  let added := new.keys.filter fun h => (old.get h).isNone
  let removed := old.keys.filter fun h => (new.get h).isNone
  let caps_changed := old.entries.filterMap fun e =>
    ((new.get e.1).filter fun nb => nb ≠ e.2).map fun nb => (e.1, e.2, nb)
  if added ≠ [] ∨ removed ≠ [] ∨ caps_changed ≠ [] then
    [.ActorHandlersChanged name added removed caps_changed]
  else []

def diffSymbolPair : SymbolSnapshot → SymbolSnapshot → List SymbolChange
  | .Fn os ob, .Fn ns nb =>
    if os ≠ ns then [.FnSignatureChanged name os ns]
    else if ob ≠ nb then [.FnCapsChanged name ob nb] else []
  | .Const os, .Const ns => if os ≠ ns then [.ConstChanged name os ns] else []
  | .Record ov _ of _ _, .Record _ _ nf _ edges =>
    if of ≠ nf then [.RecordShapeChanged name ov of nf (edges.contains ov)] else []
  | .Union ov ovars, .Union _ nvars => diffUnion name ov ovars nvars
  | .Alias ot, .Alias nt => if ot ≠ nt then [.AliasChanged name ot nt] else []
  | .Actor os oh ov _ _ _, .Actor ns nh _ _ _ edges =>
    (if os ≠ ns then [.ActorStateChanged name os ns (edges.contains ov)] else [])
      ++ diffHandlers name oh nh
  | old, new =>
    if kindName old ≠ kindName new then [.KindChanged name (kindName old) (kindName new)] else []

/-- The keys of two tables in order, each once. -/
def allKeys {α : Type} (old new : Table α) : List String :=
  ((old.keys ++ new.keys).mergeSort (· ≤ ·)).dedup

def diffSymbols (old new : Table SymbolSnapshot) : List SymbolChange :=
  (allKeys old new).flatMap fun name =>
    match old.get name, new.get name with
    | some o, none => [.Removed name (kindName o)]
    | none, some _ => [.Added name]
    | some o, some n => diffSymbolPair name o n
    | none, none => []

variable (fqn : String)

def diffModules (om nm : ModuleSnapshot) : List ModuleChange :=
  let symbols := diffSymbols om.symbols nm.symbols
  if symbols ≠ [] ∨ om.content_hash ≠ nm.content_hash then [.Changed fqn symbols] else []

def diff (old new : WorkspaceSnapshot) : List ModuleChange :=
  (allKeys old.modules new.modules).flatMap fun fqn =>
    match old.modules.get fqn, new.modules.get fqn with
    | some om, none => [.Removed fqn (!om.symbols.entries.isEmpty)]
    | none, some _ => [.Added fqn]
    | some om, some nm => diffModules fqn om nm
    | none, none => []

/-! ## Scaffolds -/

inductive FieldAction where
  | Keep (name : String)
  | Rename (src dst : String)
  | Hole (name ty : String)

def planImpl (old new : List (String × String)) : List FieldAction :=
  let removed := old.zipIdx.filter fun f => !new.any fun n => n.1 = f.1.1
  let added := new.zipIdx.filter fun f => !old.any fun o => o.1 = f.1.1
  let rename := match removed, added with
    | [((on, ot), oi)], [((nn, nt), ni)] => if oi = ni ∧ ot = nt then some (on, nn) else none
    | _, _ => none
  new.map fun f =>
    match rename.filter fun r => r.2 = f.1 with
    | some (src, dst) => .Rename src dst
    | none =>
      match old.find? fun o => o.1 = f.1 with
      | some o => if o.2 = f.2 then .Keep f.1 else .Hole f.1 f.2
      | none => .Hole f.1 f.2

def FieldAction.isHole : FieldAction → Bool
  | .Hole .. => true
  | _ => false

def braceList (items : List String) : String :=
  if items.isEmpty then "\x7b\x7d" else "\x7b " ++ ", ".intercalate items ++ " \x7d"

/-- `migrate_block`, without expressions for holes. -/
def migrateBlock (old_version : UInt32) (plan : List FieldAction) (indent : Nat)
    (ctor : Option String) : String :=
  let entries := plan.map fun
    | .Keep name => name ++ " = old." ++ name
    | .Rename src dst => dst ++ " = old." ++ src
    | .Hole name _ => name ++ " = ???"
  let pad := fun n => String.ofList (List.replicate n ' ')
  pad indent ++ "migrate (old: " ++ name ++ "@" ++ toString old_version ++ ") -> " ++ name
    ++ " =\n" ++ pad (indent + 4) ++ (ctor.elim "" (· ++ " ")) ++ braceList entries

/-- `record_migrate`; the next version stays at the greatest. -/
def recordMigrate (fqn name : String) (old_version : UInt32) (new_fields : List FieldSnap)
    (plan : List FieldAction) : String :=
  let new_version := min (old_version.toNat + 1) (2 ^ 32 - 1)
  "// module: " ++ fqn ++ "\ntype " ++ name ++ " @version(" ++ toString new_version ++ ") = "
    ++ braceList (new_fields.map fun f => f.name ++ ": " ++ f.ty) ++ " do\n"
    ++ migrateBlock name old_version plan 4 (some name) ++ "\nend\n"

/-! ## Verdicts -/

inductive Verdict where
  | Compatible
  | AutoMigrate (note : String)
  | CompatibleViaMigration (note : String)
  | RequiresMigration (scaffold : String) (has_holes : Bool)
  | Incompatible (reason : String)

structure SymbolVerdict where
  module_fqn : String
  symbol : String
  verdict : Verdict

def gainedCaps (old_bits new_bits : BitVec 16) : String :=
  ", ".intercalate <| ([.io, .fs, .net, .time, .random, .env, .proc, .spawn, .ffi, .db].filter
    fun c : Capability => (new_bits &&& ~~~old_bits).getLsbD c.bitIndex).map capabilityName

def capsVerdict (old_bits new_bits : BitVec 16) : Verdict :=
  if new_bits &&& ~~~old_bits = 0 then .Compatible
  else .Incompatible ("capability set widened (gained " ++ gainedCaps old_bits new_bits ++ ")")

def recordShapeVerdict (fqn name : String) (old_version : UInt32)
    (old_fields new_fields : List FieldSnap) (covered_by_hook : Bool) : Verdict :=
  if covered_by_hook then
    .CompatibleViaMigration ("record `" ++ name
      ++ "` changes shape; its `migrate` hook covers @" ++ toString old_version)
  else
    let plan := planImpl (old_fields.map fun f => (f.name, f.ty))
      (new_fields.map fun f => (f.name, f.ty))
    .RequiresMigration (recordMigrate fqn name old_version new_fields plan)
      (plan.any FieldAction.isHole)

def actorStateVerdict (old_state new_state : List StateSnap) : Verdict :=
  let has_removed := old_state.any fun o => !new_state.any fun n => n.name = o.name
  let added := new_state.filter fun s => !old_state.any fun o => o.name = s.name
  let retyped := old_state.any fun o => new_state.any fun n => n.name = o.name ∧ n.ty ≠ o.ty
  if !has_removed && !retyped && !added.isEmpty && added.all fun s => s.has_default then
    .AutoMigrate <| match added with
      | [s] => "state field `" ++ s.name ++ "` gets its default"
      | _ => "state fields " ++ ", ".intercalate (added.map fun s => "`" ++ s.name ++ "`")
        ++ " get their defaults"
  else
    let plan := planImpl (old_state.map fun s => (s.name, s.ty))
      (new_state.map fun s => (s.name, s.ty))
    .RequiresMigration (migrateBlock name 1 plan 0 none) (plan.any FieldAction.isHole)

def classify : SymbolChange → Verdict
  | .Added _ => .Compatible
  | .Removed _ old_kind => .Incompatible ("public " ++ old_kind ++ " was removed")
  | .FnSignatureChanged _ old new =>
    .Incompatible ("signature changed (" ++ old ++ " -> " ++ new ++ ")")
  | .FnCapsChanged _ old_bits new_bits => capsVerdict old_bits new_bits
  | .ConstChanged _ old new =>
    .Incompatible ("const type changed (" ++ old ++ " -> " ++ new ++ ")")
  | .AliasChanged _ old new =>
    .Incompatible ("alias target changed (" ++ old ++ " -> " ++ new ++ ")")
  | .KindChanged _ old_kind new_kind =>
    .Incompatible ("symbol kind changed (" ++ old_kind ++ " -> " ++ new_kind ++ ")")
  | .RecordShapeChanged name old_version old_fields new_fields covered_by_hook =>
    recordShapeVerdict fqn name old_version old_fields new_fields covered_by_hook
  | .UnionVariantsChanged _ _ _ removed payload_changed =>
    if removed ≠ [] then
      .Incompatible ("union variants removed: " ++ ", ".intercalate (removed.map VariantSnap.name))
    else if payload_changed ≠ [] then
      .Incompatible ("union variant payloads changed: " ++ ", ".intercalate payload_changed)
    else .Compatible
  | .ActorStateChanged name old_state new_state covered_by_hook =>
    if covered_by_hook then
      .CompatibleViaMigration ("actor `" ++ name
        ++ "` state changes shape; its `migrate` hook covers the previous version")
    else actorStateVerdict name old_state new_state
  | .ActorHandlersChanged _ _ removed caps_changed =>
    if removed.isEmpty then
      let widened := caps_changed.filter fun c => c.2.2 &&& ~~~c.2.1 ≠ 0
      if widened.isEmpty then .Compatible
      else .Incompatible ("handler capabilities widened: " ++ ", ".intercalate
        (widened.map fun c => "`" ++ c.1 ++ "` gained " ++ gainedCaps c.2.1 c.2.2))
    else .Incompatible ("actor handlers removed: " ++ ", ".intercalate removed)

def changeName : SymbolChange → String
  | .Added name | .Removed name _ | .FnSignatureChanged name _ _ | .FnCapsChanged name _ _
  | .ConstChanged name _ _ | .RecordShapeChanged name _ _ _ _
  | .UnionVariantsChanged name _ _ _ _ | .AliasChanged name _ _ | .ActorStateChanged name _ _ _
  | .ActorHandlersChanged name _ _ _ | .KindChanged name _ _ => name

def check (cs : List ModuleChange) : List SymbolVerdict :=
  cs.flatMap fun
    | .Added fqn => [⟨fqn, fqn, .Compatible⟩]
    | .Removed fqn had_public_symbols =>
      [⟨fqn, fqn, if had_public_symbols then
          .Incompatible ("module `" ++ fqn ++ "` with public symbols was removed")
        else .Compatible⟩]
    | .Changed fqn symbols => symbols.map fun s => ⟨fqn, changeName s, classify fqn s⟩

/-! ## What is compatible -/

/-- Nothing that the snapshots hold of the old symbol is lost, changed or narrowed. -/
def Kept : SymbolSnapshot → SymbolSnapshot → Prop
  | .Fn os ob, .Fn ns nb => os = ns ∧ nb &&& ~~~ob = 0
  | .Const os, .Const ns => os = ns
  | .Record _ _ of _ _, .Record _ _ nf _ _ => of = nf
  | .Union _ ovars, .Union _ nvars =>
    ∀ o ∈ ovars, ∃ n, nvars.find? (fun n => n.name = o.name) = some n ∧ n.payload = o.payload
  | .Alias ot, .Alias nt => ot = nt
  | .Actor os oh _ _ _ _, .Actor ns nh _ _ _ _ =>
    os = ns ∧ ∀ h ob, oh.get h = some ob → ∃ nb, nh.get h = some nb ∧ nb &&& ~~~ob = 0
  | _, _ => False

/-- Every one of the changes is compatible. -/
def AllCompatible (changes : List SymbolChange) : Prop :=
  ∀ c ∈ changes, classify fqn c = .Compatible

theorem allCompatible_nil : AllCompatible fqn [] := fun _ hc =>
  absurd hc not_mem_nil

theorem allCompatible_singleton {fqn : String} {c : SymbolChange} :
    AllCompatible fqn [c] ↔ classify fqn c = .Compatible := forall_mem_singleton

theorem capsVerdict_iff {old_bits new_bits : BitVec 16} :
    capsVerdict old_bits new_bits = .Compatible ↔ new_bits &&& ~~~old_bits = 0 := by
  unfold capsVerdict
  split
  · next h => exact iff_of_true rfl h
  · next h => exact iff_of_false Verdict.noConfusion h

/-- A change of the shape is never compatible. -/
theorem recordShapeVerdict_ne (fqn name : String) (old_version : UInt32)
    (old_fields new_fields : List FieldSnap) (covered_by_hook : Bool) :
    recordShapeVerdict fqn name old_version old_fields new_fields covered_by_hook
      ≠ .Compatible := by
  unfold recordShapeVerdict
  split <;> exact Verdict.noConfusion

theorem diffUnion_iff (fqn name : String) (version : UInt32) (old new : List VariantSnap) :
    AllCompatible fqn (diffUnion name version old new) ↔ ∀ o ∈ old,
      ∃ n, new.find? (fun n => n.name = o.name) = some n ∧ n.payload = o.payload := by
  unfold diffUnion
  dsimp only
  generalize hremoved : (old.filter fun v => new.all fun n => n.name ≠ v.name) = removed
  generalize hpayload : (old.filterMap fun o => ((new.find? fun n => n.name = o.name).filter
    fun n => n.payload ≠ o.payload).map fun _ => o.name) = payload_changed
  -- the verdict looks at what is removed and at the payloads, not at what is added
  have hverdict : AllCompatible fqn
      (if (new.filter fun v => old.all fun o => o.name ≠ v.name) ≠ [] ∨ removed ≠ [] ∨
          payload_changed ≠ [] then
        [.UnionVariantsChanged name version (new.filter fun v => old.all fun o => o.name ≠ v.name)
          removed payload_changed]
      else []) ↔ removed = [] ∧ payload_changed = [] := by
    split
    · rw [allCompatible_singleton]
      by_cases h₁ : removed = [] <;> by_cases h₂ : payload_changed = [] <;>
        simp [classify, h₁, h₂]
    · next hnone =>
      simp only [not_or, not_not] at hnone
      exact iff_of_true (allCompatible_nil fqn) hnone.2
  rw [hverdict, ← hremoved, ← hpayload, filter_eq_nil_iff, filterMap_eq_nil_iff,
    ← forall₂_and]
  refine forall₂_congr fun o ho => ?_
  cases hfind : new.find? fun n => n.name = o.name with
  | none =>
    have hall : ∀ n ∈ new, n.name ≠ o.name := by simpa using find?_eq_none.mp hfind
    simpa using hall
  | some n =>
    have hmem := mem_of_find?_eq_some hfind
    have hname : n.name = o.name := by simpa using find?_some hfind
    have hsome : ∃ n ∈ new, n.name = o.name := ⟨n, hmem, hname⟩
    simpa [Option.filter] using fun _ => hsome

theorem diffHandlers_iff (fqn name : String) (old new : Table (BitVec 16)) :
    AllCompatible fqn (diffHandlers name old new) ↔ ∀ h ob, old.get h = some ob →
      ∃ nb, new.get h = some nb ∧ nb &&& ~~~ob = 0 := by
  unfold diffHandlers
  dsimp only
  generalize hremoved : (old.keys.filter fun h => (new.get h).isNone) = removed
  generalize hcaps : (old.entries.filterMap fun e =>
    ((new.get e.1).filter fun nb => nb ≠ e.2).map fun nb => (e.1, e.2, nb)) = caps_changed
  have hverdict : AllCompatible fqn
      (if (new.keys.filter fun h => (old.get h).isNone) ≠ [] ∨ removed ≠ [] ∨
          caps_changed ≠ [] then
        [.ActorHandlersChanged name (new.keys.filter fun h => (old.get h).isNone) removed
          caps_changed]
      else []) ↔ removed = [] ∧ ∀ c ∈ caps_changed, c.2.2 &&& ~~~c.2.1 = 0 := by
    split
    · rw [allCompatible_singleton]
      cases removed with
      | cons _ _ => simp [classify]
      | nil =>
        cases hwidened : caps_changed.filter fun c => c.2.2 &&& ~~~c.2.1 ≠ 0 with
        | nil => 
          have hnone := filter_eq_nil_iff.mp hwidened
          simp only [classify, hwidened]
          simpa using hnone
        | cons c _ => 
          have hc : c ∈ caps_changed.filter fun c => c.2.2 &&& ~~~c.2.1 ≠ 0 := by
            rw [hwidened]
            exact mem_cons_self
          simp only [classify, hwidened]
          rw [mem_filter, decide_eq_true_eq] at hc
          simpa using ⟨_, _, _, hc.1, hc.2⟩
    · next hnone =>
      simp only [not_or, not_not] at hnone
      refine iff_of_true (allCompatible_nil fqn) ⟨hnone.2.1, fun c hc => ?_⟩
      rw [hnone.2.2] at hc
      cases hc
  rw [hverdict, ← hremoved, ← hcaps]
  constructor
  · rintro ⟨hkept, hcaps⟩ h ob hob
    have hmem := (old.get_eq_some_iff).mp hob
    have hnew : (new.get h).isSome := by
      have hkey := filter_eq_nil_iff.mp hkept h (mem_map_of_mem hmem)
      simpa [isSome_iff_ne_none] using hkey
    obtain ⟨nb, hnb⟩ := isSome_iff_exists.mp hnew
    refine ⟨nb, hnb, ?_⟩
    by_cases hsame : nb = ob
    · rw [hsame, BitVec.and_not_self]
    · exact hcaps (h, ob, nb) (mem_filterMap.mpr ⟨(h, ob), hmem, by simp [hnb, hsame]⟩)
  · intro hkept
    refine ⟨filter_eq_nil_iff.mpr fun h hh => ?_, fun c hc => ?_⟩
    · obtain ⟨ob, hob⟩ := isSome_iff_exists.mp (old.get_isSome_iff.mpr hh)
      obtain ⟨nb, hnb, -⟩ := hkept h ob hob
      simp [hnb]
    · obtain ⟨e, he, hc⟩ := mem_filterMap.mp hc
      obtain ⟨nb, hnb, rfl⟩ := map_eq_some_iff.mp hc
      obtain ⟨nb', hnb', hcaps⟩ := hkept e.1 e.2 (old.get_eq_some_iff.mpr he)
      rw [hnb'] at hnb
      obtain rfl := some.inj (filter_eq_some_iff.mp hnb).1
      exact hcaps

/-- The changes between two snapshots of a symbol are compatible when it is kept. -/
theorem diffSymbolPair_iff (fqn name : String) (old new : SymbolSnapshot) :
    AllCompatible fqn (diffSymbolPair name old new) ↔ Kept old new := by
  cases old <;> cases new
  case Fn.Fn os ob ns nb =>
    simp only [diffSymbolPair, Kept]
    by_cases hs : os = ns
    · by_cases hb : ob = nb
      · simp [hs, hb, allCompatible_nil]
      · simp [hs, hb, allCompatible_singleton, classify, capsVerdict_iff]
    · simp [hs, allCompatible_singleton, classify]
  case Const.Const os ns =>
    by_cases hs : os = ns <;>
      simp [diffSymbolPair, Kept, hs, allCompatible_nil, allCompatible_singleton, classify]
  case Alias.Alias ot nt =>
    by_cases ht : ot = nt <;>
      simp [diffSymbolPair, Kept, ht, allCompatible_nil, allCompatible_singleton, classify]
  case Record.Record ov _ of _ _ _ _ nf _ edges =>
    by_cases hf : of = nf <;>
      simp [diffSymbolPair, Kept, hf, allCompatible_nil, allCompatible_singleton, classify,
        recordShapeVerdict_ne]
  case Union.Union ov ovars _ nvars => exact diffUnion_iff fqn name ov ovars nvars
  case Actor.Actor os oh ov _ _ _ ns nh _ _ _ edges =>
    show AllCompatible fqn (_ ++ _) ↔ _ ∧ _
    rw [← diffHandlers_iff fqn name oh nh]
    by_cases hs : os = ns
    · simp [hs]
    · simp only [hs, ne_eq, not_false_eq_true, if_true, false_and, iff_false]
      intro h
      refine absurd (h _ (mem_append_left _ (mem_singleton_self _))) ?_
      unfold classify actorStateVerdict
      dsimp only
      split
      · exact Verdict.noConfusion
      · split <;> exact Verdict.noConfusion
  all_goals
    refine iff_of_false (fun h => ?_) id
    exact Verdict.noConfusion (allCompatible_singleton.mp h)

theorem mem_allKeys {α : Type} {old new : Table α} {key : String} :
    key ∈ allKeys old new ↔ (old.get key).isSome ∨ (new.get key).isSome := by
  unfold allKeys
  rw [mem_dedup, mem_mergeSort, mem_append, old.get_isSome_iff,
    new.get_isSome_iff]

theorem diffSymbols_iff (old new : Table SymbolSnapshot) :
    AllCompatible fqn (diffSymbols old new) ↔
      ∀ name o, old.get name = some o → ∃ n, new.get name = some n ∧ Kept o n := by
  unfold AllCompatible diffSymbols
  simp only [mem_flatMap, mem_allKeys]
  constructor
  · intro h name o ho
    have hname : ∀ c ∈ (match some o, new.get name with
        | some o, none => [.Removed name (kindName o)]
        | none, some _ => [.Added name]
        | some o, some n => diffSymbolPair name o n
        | none, none => [] : List SymbolChange), classify fqn c = .Compatible := by
      intro c hc
      exact h c ⟨name, .inl (by rw [ho]; rfl), by rw [ho]; exact hc⟩
    cases hn : new.get name with
    | none =>
      rw [hn] at hname
      exact Verdict.noConfusion (hname _ (mem_singleton_self _))
    | some n =>
      rw [hn] at hname
      exact ⟨n, rfl, (diffSymbolPair_iff fqn name o n).mp hname⟩
  · rintro h c ⟨name, -, hc⟩
    cases ho : old.get name with
    | none =>
      rw [ho] at hc
      cases hn : new.get name with
      | none =>
        rw [hn] at hc
        cases hc
      | some n =>
        rw [hn] at hc
        obtain rfl := mem_singleton.mp hc
        rfl
    | some o =>
      obtain ⟨n, hn, hkept⟩ := h name o ho
      rw [ho, hn] at hc
      exact (diffSymbolPair_iff fqn name o n).mpr hkept c hc

/-- All verdicts are compatible exactly when every old public symbol is kept. -/
theorem check_iff (old new : WorkspaceSnapshot) :
    (∀ v ∈ check (diff old new), v.verdict = .Compatible) ↔
      ∀ fqn name o, old.symbol fqn name = some o →
        ∃ n, new.symbol fqn name = some n ∧ Kept o n := by
  unfold check diff
  simp only [mem_flatMap, mem_allKeys]
  constructor
  · intro h fqn name o ho
    obtain ⟨om, hom, ho⟩ := bind_eq_some_iff.mp ho
    cases hnm : new.modules.get fqn with
    | none =>
      -- the old module has this symbol, and its removal is refused
      have hpublic : om.symbols.entries.isEmpty = false := by
        rw [isEmpty_eq_false_iff]
        exact ne_nil_of_mem (om.symbols.get_eq_some_iff.mp ho)
      have hv := h _ ⟨.Removed fqn true, ⟨fqn, .inl (by rw [hom]; rfl), by
        rw [hom, hnm]
        show _ ∈ [ModuleChange.Removed fqn (!om.symbols.entries.isEmpty)]
        rw [hpublic]
        exact mem_singleton_self _⟩, mem_singleton_self _⟩
      exact Verdict.noConfusion hv
    | some nm =>
      have hall : AllCompatible fqn (diffSymbols om.symbols nm.symbols) := by
        intro c hc
        refine h ⟨fqn, changeName c, classify fqn c⟩
          ⟨.Changed fqn (diffSymbols om.symbols nm.symbols), ⟨fqn, .inl (by rw [hom]; rfl), ?_⟩,
            mem_map_of_mem hc⟩
        rw [hom, hnm]
        show _ ∈ if _ then _ else _
        rw [if_pos (.inl (ne_nil_of_mem hc))]
        exact mem_singleton_self _
      obtain ⟨n, hn, hkept⟩ := (diffSymbols_iff fqn om.symbols nm.symbols).mp hall name o ho
      exact ⟨n, by
        unfold WorkspaceSnapshot.symbol
        rw [hnm]
        exact hn, hkept⟩
  · rintro h v ⟨m, ⟨fqn, -, hm⟩, hv⟩
    cases hom : old.modules.get fqn with
    | none =>
      rw [hom] at hm
      cases hnm : new.modules.get fqn with
      | none =>
        rw [hnm] at hm
        cases hm
      | some nm =>
        rw [hnm] at hm
        obtain rfl := mem_singleton.mp hm
        obtain rfl := mem_singleton.mp hv
        rfl
    | some om =>
      have hsymbols : ∀ name o, om.symbols.get name = some o →
          ∃ n, new.symbol fqn name = some n ∧ Kept o n := by
        intro name o ho
        refine h fqn name o ?_
        unfold WorkspaceSnapshot.symbol
        rw [hom]
        exact ho
      rw [hom] at hm
      cases hnm : new.modules.get fqn with
      | none =>
        rw [hnm] at hm
        obtain rfl := mem_singleton.mp hm
        obtain rfl := mem_singleton.mp hv
        -- a module without public symbols may go
        have hempty : om.symbols.entries = [] := by
          refine eq_nil_iff_forall_not_mem.mpr fun e he => ?_
          obtain ⟨n, hn, -⟩ := hsymbols e.1 e.2 (om.symbols.get_eq_some_iff.mpr he)
          unfold WorkspaceSnapshot.symbol at hn
          rw [hnm] at hn
          cases hn
        simp [hempty]
      | some nm =>
        rw [hnm] at hm
        unfold diffModules at hm
        dsimp only at hm
        split at hm
        · obtain rfl := mem_singleton.mp hm
          obtain ⟨c, hc, rfl⟩ := mem_map.mp hv
          refine (diffSymbols_iff fqn om.symbols nm.symbols).mpr (fun name o ho => ?_) c hc
          obtain ⟨n, hn, hkept⟩ := hsymbols name o ho
          unfold WorkspaceSnapshot.symbol at hn
          rw [hnm] at hn
          exact ⟨n, hn, hkept⟩
        · cases hm

end Ridge.Reload
