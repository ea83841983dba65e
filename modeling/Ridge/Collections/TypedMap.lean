import Ridge.Lib.EntryMap

/-!
# ridge_rt — typed maps and sets

A map indexes its entries by the digest of the key under a private seed
(`runtime/ridge_rt.erl`, `typed_map_*`). The identity of keys comes from the `Eq` of their type, so
a bucket holds all entries whose digests are the same. Sets are maps to `true`.
-/

namespace Ridge

/-- The methods of a key type: `Hash` feeds equal keys alike, whatever was fed before. -/
structure KeyMethods (κ Stream : Type) extends KeyEq κ where
  hash : κ → Stream → Stream
  hash_eq : ∀ {a b}, eq a b = true → ∀ s, hash a s = hash b s

/-- What a map takes from the host: the keyed digest, and the order in which a native map is
traversed. -/
structure MapHost (Seed Stream Digest : Type) where
  hashNew : Seed → Stream
  hashFinish : Stream → Digest
  traversal : {β : Type} → List (Digest × β) → List (Digest × β)
  traversal_perm : ∀ {β : Type} (m : List (Digest × β)), (traversal m).Perm m

/-- `{ridge_map, Seed, Size, Buckets}`; the seed of an `unseeded` map is missing. -/
structure RidgeMap (Seed Digest κ α : Type) where
  seed : Option Seed
  size : Nat
  buckets : List (Digest × List (κ × α))
  deriving DecidableEq

variable {Seed Stream Digest κ α β : Type} [DecidableEq Digest]

/-! ## Native maps of buckets -/

def bucketAt (d : Digest) (buckets : List (Digest × List (κ × α))) : List (κ × α) :=
  (EntryMap.get (.exact Digest) d buckets).getD []

def putBucket (d : Digest) (bucket : List (κ × α)) (buckets : List (Digest × List (κ × α))) :
    List (Digest × List (κ × α)) :=
  EntryMap.insert (.exact Digest) d bucket buckets

def dropBucket (d : Digest) (buckets : List (Digest × List (κ × α))) :
    List (Digest × List (κ × α)) :=
  EntryMap.remove (.exact Digest) d buckets

/-! ## Buckets -/

def typedBucketUpdate (eq : κ → κ → Bool) (k : κ) (f : Option α → α) :
    List (κ × α) → List (κ × α) → List (κ × α) × Nat
  | [], seen => (seen.reverseAux [(k, f none)], 1)
  | (stored, old) :: rest, seen =>
    if eq k stored then (seen.reverseAux ((stored, f (some old)) :: rest), 0)
    else typedBucketUpdate eq k f rest ((stored, old) :: seen)

def typedBucketPut (eq : κ → κ → Bool) (k : κ) (v : α) :
    List (κ × α) → List (κ × α) → List (κ × α) × Nat
  | [], seen => (seen.reverseAux [(k, v)], 1)
  | (stored, old) :: rest, seen =>
    if eq k stored then (seen.reverseAux ((stored, v) :: rest), 0)
    else typedBucketPut eq k v rest ((stored, old) :: seen)

def typedBucketGet (eq : κ → κ → Bool) (k : κ) : List (κ × α) → Option α
  | [] => none
  | (stored, v) :: rest => if eq k stored then some v else typedBucketGet eq k rest

/-- `absent` is `none`. -/
def typedBucketRemove (eq : κ → κ → Bool) (k : κ) :
    List (κ × α) → List (κ × α) → Option (List (κ × α))
  | [], _ => none
  | (stored, v) :: rest, seen =>
    if eq k stored then some (seen.reverseAux rest)
    else typedBucketRemove eq k rest ((stored, v) :: seen)

def typedBucketFilterMap (f : κ → α → Option β) :
    List (κ × α) → List (κ × β) → Nat → List (κ × β) × Nat
  | [], acc, count => (acc.reverse, count)
  | (k, v) :: rest, acc, count =>
    match f k v with
    | some w => typedBucketFilterMap f rest ((k, w) :: acc) (count + 1)
    | none => typedBucketFilterMap f rest acc count

/-! ## Maps -/

def typedMapEmpty : RidgeMap Seed Digest κ α := ⟨none, 0, []⟩

variable (H : MapHost Seed Stream Digest)

variable (M : KeyMethods κ Stream)

def typedKeyDigest (k : κ)
    (seed : Seed) : Digest :=
  H.hashFinish (M.hash k (H.hashNew seed))

/-- `fresh` is the seed that an unseeded map draws. -/
def typedMapInsert (fresh : Seed) (k : κ)
    (v : α) (m : RidgeMap Seed Digest κ α) : RidgeMap Seed Digest κ α :=
  let seed := m.seed.getD fresh
  let digest := typedKeyDigest H M k seed
  let (bucket, added) := typedBucketPut M.eq k v (bucketAt digest m.buckets) []
  ⟨some seed, m.size + added, putBucket digest bucket m.buckets⟩

def typedMapUpdate (fresh : Seed) (k : κ)
    (f : Option α → α) (m : RidgeMap Seed Digest κ α) : RidgeMap Seed Digest κ α :=
  let seed := m.seed.getD fresh
  let digest := typedKeyDigest H M k seed
  let (bucket, added) := typedBucketUpdate M.eq k f (bucketAt digest m.buckets) []
  ⟨some seed, m.size + added, putBucket digest bucket m.buckets⟩

def typedMapFromList (fresh : Seed)
    (pairs : List (κ × α)) : RidgeMap Seed Digest κ α :=
  pairs.foldl (fun m e => typedMapInsert H M fresh e.1 e.2 m) typedMapEmpty

/-- An unseeded map is empty: it never gets as far as its seed. -/
def typedMapGet (k : κ)
    (m : RidgeMap Seed Digest κ α) : Option α :=
  if m.size = 0 then none
  else m.seed.bind fun seed =>
    typedBucketGet M.eq k (bucketAt (typedKeyDigest H M k seed) m.buckets)

def typedMapContains (k : κ)
    (m : RidgeMap Seed Digest κ α) : Bool :=
  match typedMapGet H M k m with
  | some _ => true
  | none => false

def typedMapRemove (k : κ)
    (m : RidgeMap Seed Digest κ α) : RidgeMap Seed Digest κ α :=
  if m.size = 0 then m
  else
    match m.seed with
    | none => m
    | some seed =>
      let digest := typedKeyDigest H M k seed
      match typedBucketRemove M.eq k (bucketAt digest m.buckets) [] with
      | none => m
      | some [] => ⟨some seed, m.size - 1, dropBucket digest m.buckets⟩
      | some bucket => ⟨some seed, m.size - 1, putBucket digest bucket m.buckets⟩

def typedMapToList (m : RidgeMap Seed Digest κ α) :
    List (κ × α) :=
  (H.traversal m.buckets).foldl (fun acc b => b.2.reverseAux acc) []

def typedMapSize (m : RidgeMap Seed Digest κ α) : Nat := m.size

def typedMapMap (f : κ → α → β) (m : RidgeMap Seed Digest κ α) : RidgeMap Seed Digest κ β :=
  ⟨m.seed, m.size, m.buckets.map fun b => (b.1, b.2.map fun e => (e.1, f e.1 e.2))⟩

/-- One bucket of `typed_map_filter_map`: a bucket that comes out empty is left out. -/
def typedFilterStep (f : κ → α → Option β) (acc : List (Digest × List (κ × β)) × Nat)
    (b : Digest × List (κ × α)) : List (Digest × List (κ × β)) × Nat :=
  let (kept, added) := typedBucketFilterMap f b.2 [] 0
  match kept with
  | [] => acc
  | _ => (putBucket b.1 kept acc.1, acc.2 + added)

def typedMapFilterMap (f : κ → α → Option β)
    (m : RidgeMap Seed Digest κ α) : RidgeMap Seed Digest κ β :=
  let (next, size) := (H.traversal m.buckets).foldl (typedFilterStep f) ([], 0)
  ⟨m.seed, size, next⟩

def typedMapFilter (p : κ → α → Bool)
    (m : RidgeMap Seed Digest κ α) : RidgeMap Seed Digest κ α :=
  typedMapFilterMap H (fun k v => if p k v then some v else none) m

/-- The right side is indexed again under the left seed. -/
def typedMapMerge (fresh : Seed)
    (a b : RidgeMap Seed Digest κ α) : RidgeMap Seed Digest κ α :=
  if a.size = 0 then b
  else (H.traversal b.buckets).foldl
    (fun acc bucket => bucket.2.foldl (fun m e => typedMapInsert H M fresh e.1 e.2 m) acc) a

def typedBucketEqual (H : MapHost Seed Stream Digest) (M : KeyMethods κ Stream) (R : α → β → Bool)
    (b : RidgeMap Seed Digest κ β) : List (κ × α) → Bool
  | [] => true
  | (k, v) :: rest =>
    match typedMapGet H M k b with
    | none => false
    | some w => R v w && typedBucketEqual H M R b rest

def typedMapBucketsEqual (H : MapHost Seed Stream Digest) (M : KeyMethods κ Stream)
    (R : α → β → Bool) (b : RidgeMap Seed Digest κ β) : List (Digest × List (κ × α)) → Bool
  | [] => true
  | bucket :: rest =>
    typedBucketEqual H M R b bucket.2 && typedMapBucketsEqual H M R b rest

def typedMapEq (R : α → β → Bool)
    (a : RidgeMap Seed Digest κ α) (b : RidgeMap Seed Digest κ β) : Bool :=
  if a.size = b.size then typedMapBucketsEqual H M R b (H.traversal a.buckets) else false

/-! ## Sets -/

def typedSetIntersection
    (a : RidgeMap Seed Digest κ α) (b : RidgeMap Seed Digest κ β) : RidgeMap Seed Digest κ α :=
  typedMapFilter H (fun k _ => typedMapContains H M k b) a

def typedSetDifference
    (a : RidgeMap Seed Digest κ α) (b : RidgeMap Seed Digest κ β) : RidgeMap Seed Digest κ α :=
  typedMapFilter H (fun k _ => !typedMapContains H M k b) a

def typedSetEq
    (a : RidgeMap Seed Digest κ α) (b : RidgeMap Seed Digest κ β) : Bool :=
  typedMapEq H M (fun _ _ => true) a b

end Ridge
