import Mathlib.Data.List.Nodup
import Mathlib.Data.String.Basic

/-!
# Snapshots and version histories

The snapshots of `ridge-reload/src/snapshot.rs`, the part of their extraction that gives a record
or an actor its version (`versioned_identity`, `prev_versioned`), and the history that is read back
out of them (`history_of`, and the lookups of `ridge-types/src/history.rs`). Rendered types are
texts. `FxHasher` is a parameter: a state, what a write makes of it, and what it ends with.
-/

namespace Ridge.Reload

open List Option

/-- A `BTreeMap` with text keys: its entries, in the order of the keys. -/
structure Table (α : Type) where
  entries : List (String × α)
  sorted : entries.Pairwise fun a b => a.1 < b.1

namespace Table

variable {α : Type}

variable (t : Table α)

def get (key : String) : Option α := t.entries.lookup key

def keys : List String := t.entries.map Prod.fst

theorem nodup_keys : t.keys.Nodup :=
  pairwise_map.mpr (t.sorted.imp fun hlt heq => absurd (heq ▸ hlt) (lt_irrefl _))

variable {key : String}

theorem get_eq_some_iff {v : α} : t.get key = some v ↔ (key, v) ∈ t.entries := by
  have hnodup : (t.entries.map Prod.fst).Nodup := t.nodup_keys
  unfold get
  revert hnodup
  generalize t.entries = entries
  intro hnodup
  induction entries with
  | nil => simp
  | cons e entries ih =>
    rw [map_cons, nodup_cons] at hnodup
    rw [lookup_cons, mem_cons]
    by_cases hkey : key = e.1
    · simp only [hkey, beq_self_eq_true, some.injEq]
      constructor
      · rintro rfl
        exact .inl rfl
      · rintro (heq | hmem)
        · exact congrArg Prod.snd heq.symm
        · exact absurd (mem_map_of_mem hmem) hnodup.1
    · rw [beq_eq_false_iff_ne.mpr hkey]
      refine (ih hnodup.2).trans ?_
      constructor
      · exact .inr
      · rintro (heq | hmem)
        · exact absurd (congrArg Prod.fst heq) hkey
        · exact hmem

theorem get_isSome_iff : (t.get key).isSome ↔ key ∈ t.keys := by
  rw [isSome_iff_exists]
  constructor
  · rintro ⟨v, hv⟩
    exact mem_map.mpr ⟨(key, v), t.get_eq_some_iff.mp hv, rfl⟩
  · intro hmem
    obtain ⟨e, he, rfl⟩ := mem_map.mp hmem
    exact ⟨e.2, t.get_eq_some_iff.mpr he⟩

end Table

/-- A record field: name and rendered type. -/
structure FieldSnap where
  name : String
  ty : String
  deriving DecidableEq

/-- An actor state field: name, rendered type, and whether a default exists. -/
structure StateSnap where
  name : String
  ty : String
  has_default : Bool
  deriving DecidableEq

/-- A union variant: name and rendered payload. -/
structure VariantSnap where
  name : String
  payload : String
  deriving DecidableEq

/-- One recorded version of the shape of a record or of an actor's state. -/
structure VersionSnap where
  ordinal : UInt32
  hash : UInt64
  shape : List FieldSnap
  deriving DecidableEq

inductive SymbolSnapshot where
  | Fn (signature : String) (caps_bits : BitVec 16)
  | Const (signature : String)
  | Record (version : UInt32) (hash : UInt64) (fields : List FieldSnap)
      (history : List VersionSnap) (migrate_edges : List UInt32)
  | Union (version : UInt32) (variants : List VariantSnap)
  | Alias (target : String)
  | Actor (state : List StateSnap) (handlers : Table (BitVec 16)) (version : UInt32)
      (hash : UInt64) (history : List VersionSnap) (migrate_edges : List UInt32)

structure ModuleSnapshot where
  symbols : Table SymbolSnapshot
  content_hash : UInt64

structure WorkspaceSnapshot where
  modules : Table ModuleSnapshot

/-! ## Shape hashes -/

/-- `FxHasher`. -/
structure Hasher where
  State : Type
  start : State
  write : State → String → State
  finish : State → UInt64

/-- The 64-bit words that `FxHasher` makes of a text: 16 bytes at a time, and the last 16. -/
def leWord (bytes : List UInt8) : UInt64 :=
  bytes.foldr (fun b n => n <<< 8 ||| b.toUInt64) 0

def multiplyMix (x y : UInt64) : UInt64 :=
  let full := x.toNat * y.toNat
  UInt64.ofNat full ^^^ UInt64.ofNat (full >>> 64)

def hashBytes (bytes : List UInt8) : UInt64 :=
  let len := bytes.length
  let bulk := (List.range ((len - 1) / 16)).foldl
    (fun (s : UInt64 × UInt64) k =>
      (s.2, multiplyMix (s.1 ^^^ leWord ((bytes.drop (16 * k)).take 8))
        (0xa4093822299f31d0 ^^^ leWord ((bytes.drop (16 * k + 8)).take 8))))
    (0x243f6a8885a308d3, 0x13198a2e03707344)
  let ends : UInt64 × UInt64 :=
    if len > 16 then (leWord ((bytes.drop (len - 16)).take 8), leWord (bytes.drop (len - 8)))
    else if len ≥ 8 then (leWord (bytes.take 8), leWord (bytes.drop (len - 8)))
    else if len ≥ 4 then (leWord (bytes.take 4), leWord (bytes.drop (len - 4)))
    else (bytes.headD 0 |>.toUInt64,
      (bytes.getLastD 0).toUInt64 <<< 8 ||| ((bytes.drop (len / 2)).headD 0).toUInt64)
  multiplyMix (bulk.1 ^^^ ends.1) (bulk.2 ^^^ ends.2) ^^^ UInt64.ofNat len

/-- The hasher of the crate that the repository builds with. -/
def fxHasher : Hasher where
  State := UInt64
  start := 0
  write h s := (h + hashBytes s.toUTF8.toList) * 0xf1357aea2e62a9c5
  finish h := h <<< 26 ||| h >>> 38

variable (fx : Hasher)

def shapeHash (shape : List FieldSnap) : UInt64 :=
  fx.finish <| shape.foldl
    (fun h f => fx.write (fx.write (fx.write (fx.write h f.name) ":") f.ty) ";") fx.start

/-! ## The version of a symbol -/

def stateShape (state : List StateSnap) : List FieldSnap :=
  state.map fun s => { name := s.name, ty := s.ty }

/-- Version, hash, shape and history of a symbol. -/
structure Versioned where
  version : UInt32
  hash : UInt64
  shape : List FieldSnap
  history : List VersionSnap
  deriving DecidableEq

/-- Version, hash and history for the shape of a build. -/
def versionedIdentity (prev : Option Versioned) (declared : Option UInt32)
    (current : List FieldSnap) : Versioned :=
  match prev with
  | some p =>
    if p.shape = current then
      { version := p.version, hash := shapeHash fx current, shape := current, history := p.history }
    else
      { version := declared.getD (p.version + 1), hash := shapeHash fx current, shape := current,
        history := p.history ++ [{ ordinal := p.version, hash := p.hash, shape := p.shape }] }
  | none =>
    { version := declared.getD 1, hash := shapeHash fx current, shape := current, history := [] }

def WorkspaceSnapshot.symbol (ws : WorkspaceSnapshot) (fqn name : String) :
    Option SymbolSnapshot :=
  (ws.modules.get fqn).bind fun m => m.symbols.get name

/-- What `prev_versioned` takes from a symbol. An actor with hash 0 counts as one from before
there were histories. -/
def SymbolSnapshot.versioned : SymbolSnapshot → Option Versioned
  | .Record version hash fields history _ => some ⟨version, hash, fields, history⟩
  | .Actor state _ version hash history _ =>
    if hash ≠ 0 then some ⟨version, hash, stateShape state, history⟩ else none
  | _ => none

def prevVersioned (prev : Option WorkspaceSnapshot) (fqn name : String) : Option Versioned :=
  (prev.bind fun ws => ws.symbol fqn name).bind SymbolSnapshot.versioned

/-- The record part of `type_snapshot`; `edges` are the ordinals of its `migrate` blocks. -/
def recordSnapshot (prev : Option WorkspaceSnapshot) (fqn name : String)
    (declared : Option UInt32) (fields : List FieldSnap) (edges : List UInt32) : SymbolSnapshot :=
  let v := versionedIdentity fx (prevVersioned prev fqn name) declared fields
  .Record v.version v.hash fields v.history edges

/-- `actor_snapshot`; an actor's source has no `@version`. -/
def actorSnapshot (prev : Option WorkspaceSnapshot) (fqn name : String)
    (state : List StateSnap) (handlers : Table (BitVec 16)) (edges : List UInt32) :
    SymbolSnapshot :=
  let v := versionedIdentity fx (prevVersioned prev fqn name) none (stateShape state)
  .Actor state handlers v.version v.hash v.history edges

/-! ## The history -/

/-- An entry of a version history. -/
abbrev VersionEntry := VersionSnap

/-- Versions by module and name. -/
abbrev Versions := List ((String × String) × List VersionEntry)

structure VersionHistory where
  records : Versions
  actors : Versions

/-- The entries of a symbol, its current version last. -/
def Versioned.entries (v : Versioned) : List VersionEntry :=
  v.history ++ [{ ordinal := v.version, hash := v.hash, shape := v.shape }]

/-- The record of a symbol that is one, with ordinal 0 for one without a history. -/
def SymbolSnapshot.record? : SymbolSnapshot → Option Versioned
  | .Record version hash fields history _ =>
    if version = 0 then none else some ⟨version, hash, fields, history⟩
  | _ => none

def SymbolSnapshot.actor? : SymbolSnapshot → Option Versioned
  | .Actor state _ version hash history _ =>
    if version = 0 then none else some ⟨version, hash, stateShape state, history⟩
  | _ => none

def versionsOf (kind : SymbolSnapshot → Option Versioned) (ws : WorkspaceSnapshot) : Versions :=
  ws.modules.entries.flatMap fun m => m.2.symbols.entries.filterMap fun s =>
    (kind s.2).map fun v => ((m.1, s.1), v.entries)

def historyOf (ws : WorkspaceSnapshot) : VersionHistory where
  records := versionsOf SymbolSnapshot.record? ws
  actors := versionsOf SymbolSnapshot.actor? ws

def lookupVersion (versions : Versions) (fqn name : String) (ordinal : UInt32) :
    Option VersionEntry :=
  (versions.lookup (fqn, name)).bind fun entries =>
    entries.reverse.find? fun e => e.ordinal = ordinal

def VersionHistory.lookupRecord (h : VersionHistory) : String → String → UInt32 →
    Option VersionEntry :=
  lookupVersion h.records

def VersionHistory.lookupActor (h : VersionHistory) : String → String → UInt32 →
    Option VersionEntry :=
  lookupVersion h.actors

/-! ## What the history holds of a symbol -/

variable {kind : SymbolSnapshot → Option Versioned} {entries : List (String × SymbolSnapshot)}

/-- Nothing is found under a name that no symbol has. -/
theorem lookup_symbols_none {fqn mod name : String} (h : mod = fqn → name ∉ entries.map Prod.fst) :
    (entries.filterMap fun s => (kind s.2).map fun v => ((mod, s.1), v.entries)).lookup
      (fqn, name) = none := by
  rw [lookup_eq_none_iff]
  intro e he
  obtain ⟨s, hs, hes⟩ := mem_filterMap.mp he
  obtain ⟨v, -, rfl⟩ := map_eq_some_iff.mp hes
  simp only [bne_iff_ne, ne_eq, Prod.mk.injEq, not_and]
  rintro rfl rfl
  exact h rfl (mem_map_of_mem hs)

theorem lookup_symbols (hnodup : (entries.map Prod.fst).Nodup) (fqn name : String) :
    (entries.filterMap fun s => (kind s.2).map fun v => ((fqn, s.1), v.entries)).lookup (fqn, name)
      = ((entries.lookup name).bind kind).map Versioned.entries := by
  induction entries with
  | nil => rfl
  | cons s entries ih =>
    rw [map_cons, nodup_cons] at hnodup
    rw [lookup_cons]
    by_cases hname : name = s.1
    · subst hname
      have hrest : (entries.filterMap fun t =>
          (kind t.2).map fun v => ((fqn, t.1), v.entries)).lookup (fqn, s.1) = none :=
        lookup_symbols_none fun _ => hnodup.1
      cases hkind : kind s.2 with
      | none =>
        rw [filterMap_cons_none (by rw [hkind]; rfl), hrest]
        simp [hkind]
      | some v =>
        rw [filterMap_cons_some (b := ((fqn, s.1), v.entries)) (by rw [hkind]; rfl),
          lookup_cons]
        simp [hkind]
    · rw [beq_eq_false_iff_ne.mpr hname]
      dsimp only
      rw [← ih hnodup.2]
      cases hkind : kind s.2 with
      | none => rw [filterMap_cons_none (by rw [hkind]; rfl)]
      | some v =>
        rw [filterMap_cons_some (b := ((fqn, s.1), v.entries)) (by rw [hkind]; rfl),
          lookup_cons, beq_eq_false_iff_ne.mpr fun heq => hname (Prod.mk.inj heq).2]

/-- The entries of a symbol are found under its module and name, whatever else is there. -/
theorem lookup_versionsOf (kind : SymbolSnapshot → Option Versioned) (ws : WorkspaceSnapshot)
    (fqn name : String) : (versionsOf kind ws).lookup (fqn, name)
      = ((ws.symbol fqn name).bind kind).map Versioned.entries := by
  have hnodup : (ws.modules.entries.map Prod.fst).Nodup := ws.modules.nodup_keys
  unfold versionsOf WorkspaceSnapshot.symbol Table.get
  revert hnodup
  generalize ws.modules.entries = entries
  intro hnodup
  induction entries with
  | nil => rfl
  | cons m entries ih =>
    rw [map_cons, nodup_cons] at hnodup
    rw [flatMap_cons, lookup_append, lookup_cons, ih hnodup.2]
    by_cases hfqn : fqn = m.1
    · subst hfqn
      -- the other modules have other names
      have hrest : entries.lookup m.1 = none := by
        rw [lookup_eq_none_iff]
        intro e he
        simp only [bne_iff_ne, ne_eq]
        intro heq
        exact hnodup.1 (heq ▸ mem_map_of_mem he)
      rw [lookup_symbols m.2.symbols.nodup_keys, hrest, beq_self_eq_true]
      simp
    · rw [lookup_symbols_none fun heq => absurd heq.symm hfqn, beq_eq_false_iff_ne.mpr hfqn,
        none_or]

end Ridge.Reload
