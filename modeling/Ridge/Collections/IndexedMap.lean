import Ridge.Collections.TypedMapIndex

/-!
# ridge_rt — indexed maps

The maps of the language carry the evidence they were indexed with: the methods of their key type
and the generation of the loaded code these belong to (`indexed_map_*`). A reload starts a new
generation; the next operation on a map migrates its entries and indexes them again.
-/

namespace Ridge

/-- What the loaded code determines: the methods of the key type in each generation, and the
migration of an entry to the shapes of that generation. -/
structure LoadedCode (κ α Stream ε : Type) where
  methods : Nat → KeyMethods κ Stream
  migrate : Nat → κ × α → Except ε (κ × α)

variable {Seed Stream Digest κ α ε : Type}

/-- `{ridge_key_evidence, Generation, Hash, Eq}`. A `pending` generation is missing: its methods
were taken at two different ones. -/
structure KeyEvidence (C : LoadedCode κ α Stream ε) where
  generation : Option Nat
  methods : KeyMethods κ Stream
  snapshot : ∀ g, generation = some g → methods = C.methods g

/-- `{ridge_indexed_map, Evidence, Snapshot, Inner}`, with the generation of the snapshot. -/
structure IndexedMap (Seed Digest : Type) (C : LoadedCode κ α Stream ε) where
  evidence : Option (KeyEvidence C)
  epoch : Option Nat
  inner : RidgeMap Seed Digest κ α

/-- How an operation can fail: an entry cannot be migrated, or a map with entries has lost its
evidence and no clause applies. -/
inductive MapFault (ε : Type) where
  | migrationFailed (reason : ε)
  | functionClause

variable {C : LoadedCode κ α Stream ε}

def keyEvidenceCurrent (now : Nat) (e : KeyEvidence C) : KeyEvidence C :=
  if e.generation = some now then e
  else ⟨some now, C.methods now, fun _ h => congrArg C.methods (Option.some.inj h)⟩

def indexedMapEmpty : IndexedMap Seed Digest C := ⟨none, none, typedMapEmpty⟩

/-- A map without entries keeps its seed and no evidence. -/
def indexedMapWrap (evidence : Option (KeyEvidence C)) (inner : RidgeMap Seed Digest κ α) :
    Except (MapFault ε) (IndexedMap Seed Digest C) :=
  if inner.size = 0 ∧ inner.buckets.isEmpty then .ok ⟨none, none, inner⟩
  else
    match evidence with
    | some e => .ok ⟨some e, e.generation, inner⟩
    | none => .error .functionClause

/-- Walk the children in order; the first that fails ends the walk. -/
def migrateEntries (f : κ × α → Except ε (κ × α)) : List (κ × α) → Except ε (List (κ × α))
  | [] => .ok []
  | e :: rest =>
    match f e with
    | .error reason => .error reason
    | .ok e' =>
      match migrateEntries f rest with
      | .error reason => .error reason
      | .ok rest' => .ok (e' :: rest')

variable [DecidableEq Digest] [DecidableEq κ] [DecidableEq α]

/-- The buckets after a walk over the iterator, whether a key changed, and whether anything did. -/
def indexedMigrateBuckets (f : κ × α → Except ε (κ × α)) :
    List (Digest × List (κ × α)) → List (Digest × List (κ × α)) → Bool → Bool →
      Except ε (List (Digest × List (κ × α)) × Bool × Bool)
  | [], buckets, keysChanged, changed => .ok (buckets, keysChanged, changed)
  | (digest, bucket) :: next, buckets, keysChanged, changed =>
    match migrateEntries f bucket with
    | .error reason => .error reason
    | .ok entries =>
      if entries = bucket then indexedMigrateBuckets f next buckets keysChanged changed
      else
        let newKeys := (bucket.zip entries).any fun p => p.1.1 ≠ p.2.1
        indexedMigrateBuckets f next (putBucket digest entries buckets)
          (keysChanged || newKeys) true

variable (H : MapHost Seed Stream Digest)

/-- A changed key or contract rebuilds the index under the retained seed. -/
def indexedMapMigrate (now : Nat) (m : IndexedMap Seed Digest C) :
    Except (MapFault ε) (IndexedMap Seed Digest C) :=
  if m.inner.size = 0 then indexedMapWrap none m.inner
  else
    match m.evidence with
    | none => .error .functionClause
    | some evidence =>
      let current := keyEvidenceCurrent now evidence
      match indexedMigrateBuckets (C.migrate now) (H.traversal m.inner.buckets) m.inner.buckets
          false false with
      | .error reason => .error (.migrationFailed reason)
      | .ok (next, keysChanged, changed) =>
        let inner : RidgeMap Seed Digest κ α := ⟨m.inner.seed, m.inner.size, next⟩
        if keysChanged ∨ m.epoch ≠ current.generation then
          match m.inner.seed with
          | none => .error .functionClause
          | some seed =>
            indexedMapWrap (some current)
              ((typedMapToList H inner).foldl
                (fun acc e => typedMapInsert H current.methods seed e.1 e.2 acc)
                ⟨some seed, 0, []⟩)
        else if changed then indexedMapWrap (some current) inner
        else .ok m

/-- The map for the current generation. `indexed_map_cached_migrate` gives the outcome of
`indexed_map_migrate`: its memo answers for a snapshot it has migrated in this generation. -/
def indexedMapCurrent (now : Nat) (m : IndexedMap Seed Digest C) :
    Except (MapFault ε) (IndexedMap Seed Digest C) :=
  if m.inner.size = 0 then indexedMapWrap none m.inner
  else if m.epoch = some now then .ok m
  else indexedMapMigrate H now m

/-- An empty map takes the evidence of the operation, for this operation only. -/
def indexedMapBind (now : Nat) (evidence : KeyEvidence C)
    (m : IndexedMap Seed Digest C) : Except (MapFault ε) (IndexedMap Seed Digest C) :=
  match indexedMapCurrent H now m with
  | .error fault => .error fault
  | .ok current =>
    match current.evidence with
    | none =>
      let e := keyEvidenceCurrent now evidence
      .ok ⟨some e, e.generation, current.inner⟩
    | some _ => .ok current

/-- The evidence and the inner map that an operation takes out of a bound map. -/
def indexedMapBound (now : Nat) (evidence : KeyEvidence C)
    (m : IndexedMap Seed Digest C) : Except (MapFault ε) (KeyEvidence C × RidgeMap Seed Digest κ α) :=
  match indexedMapBind H now evidence m with
  | .error fault => .error fault
  | .ok bound =>
    match bound.evidence with
    | none => .error .functionClause
    | some e => .ok (e, bound.inner)

/-! ## The operations -/

section

variable (H : MapHost Seed Stream Digest) (now : Nat)

def indexedMapFromList (fresh : Seed) (evidence : KeyEvidence C) (pairs : List (κ × α)) :
    Except (MapFault ε) (IndexedMap Seed Digest C) :=
  let current := keyEvidenceCurrent now evidence
  indexedMapWrap (some current) (typedMapFromList H current.methods fresh pairs)

def indexedMapInsert (fresh : Seed) (evidence : KeyEvidence C) (k : κ) (v : α)
    (m : IndexedMap Seed Digest C) : Except (MapFault ε) (IndexedMap Seed Digest C) := do
  let (current, inner) ← indexedMapBound H now evidence m
  indexedMapWrap (some current) (typedMapInsert H current.methods fresh k v inner)

def indexedMapUpdate (fresh : Seed) (evidence : KeyEvidence C) (k : κ) (f : Option α → α)
    (m : IndexedMap Seed Digest C) : Except (MapFault ε) (IndexedMap Seed Digest C) := do
  let (current, inner) ← indexedMapBound H now evidence m
  indexedMapWrap (some current) (typedMapUpdate H current.methods fresh k f inner)

variable (evidence : KeyEvidence C)

def indexedMapGet (k : κ) (m : IndexedMap Seed Digest C) :
    Except (MapFault ε) (Option α) := do
  let (current, inner) ← indexedMapBound H now evidence m
  return typedMapGet H current.methods k inner

def indexedMapContains (k : κ) (m : IndexedMap Seed Digest C) :
    Except (MapFault ε) Bool := do
  return (← indexedMapGet H now evidence k m).isSome

def indexedMapRemove (k : κ) (m : IndexedMap Seed Digest C) :
    Except (MapFault ε) (IndexedMap Seed Digest C) := do
  let (current, inner) ← indexedMapBound H now evidence m
  indexedMapWrap (some current) (typedMapRemove H current.methods k inner)

def indexedMapToList (m : IndexedMap Seed Digest C) : Except (MapFault ε) (List (κ × α)) := do
  let current ← indexedMapCurrent H now m
  return typedMapToList H current.inner

def indexedMapSize (m : IndexedMap Seed Digest C) : Except (MapFault ε) Nat := do
  let current ← indexedMapCurrent H now m
  return typedMapSize current.inner

def indexedMapMap (f : κ → α → α) (m : IndexedMap Seed Digest C) :
    Except (MapFault ε) (IndexedMap Seed Digest C) := do
  let current ← indexedMapCurrent H now m
  indexedMapWrap current.evidence (typedMapMap f current.inner)

def indexedMapFilterMap (f : κ → α → Option α) (m : IndexedMap Seed Digest C) :
    Except (MapFault ε) (IndexedMap Seed Digest C) := do
  let current ← indexedMapCurrent H now m
  indexedMapWrap current.evidence (typedMapFilterMap H f current.inner)

def indexedMapFilter (p : κ → α → Bool) (m : IndexedMap Seed Digest C) :
    Except (MapFault ε) (IndexedMap Seed Digest C) :=
  indexedMapFilterMap H now (fun k v => if p k v then some v else none) m

def indexedMapMerge (fresh : Seed) (evidence : KeyEvidence C) (a b : IndexedMap Seed Digest C) :
    Except (MapFault ε) (IndexedMap Seed Digest C) := do
  let (current, innerA) ← indexedMapBound H now evidence a
  let b' ← indexedMapCurrent H now b
  indexedMapWrap (some current) (typedMapMerge H current.methods fresh innerA b'.inner)

/-- `b` is bound before the walk over `a`: the look-ups of the walk find it current. -/
def indexedSetIntersection (a b : IndexedMap Seed Digest C) :
    Except (MapFault ε) (IndexedMap Seed Digest C) := do
  let currentB ← indexedMapBind H now evidence b
  indexedMapFilter H now (fun k _ =>
    match indexedMapContains H now evidence k currentB with
    | .ok found => found
    | .error _ => false) a

def indexedSetDifference (a b : IndexedMap Seed Digest C) :
    Except (MapFault ε) (IndexedMap Seed Digest C) := do
  let currentB ← indexedMapBind H now evidence b
  indexedMapFilter H now (fun k _ =>
    match indexedMapContains H now evidence k currentB with
    | .ok found => !found
    | .error _ => false) a

/-- `typed_map_eq` of two indexed maps, with the methods of the comparison. -/
def indexedMapEq (M : KeyMethods κ Stream) (R : α → α → Bool) (a b : IndexedMap Seed Digest C) :
    Except (MapFault ε) Bool := do
  let a' ← indexedMapCurrent H now a
  let b' ← indexedMapCurrent H now b
  return typedMapEq H M R a'.inner b'.inner

end

end Ridge
