import Ridge.Collections.IndexedMapRefine

/-!
# Indexed maps — runs of operations and reloads

Maps live in numbered variables. A run stores the results of operations in them, and the code is
reloaded at any point of it. The reference runs alongside, on plain finite maps; it has no digests,
seeds or counters.
-/

namespace Ridge

open EntryMap

open EntryMap (find Distinct)
open RidgeMap (Indexed)

variable {Seed Stream Digest κ α ε : Type} {C : LoadedCode κ α Stream ε}

/-- An operation on the maps of the named variables. -/
inductive MapTerm (Seed : Type) (C : LoadedCode κ α Stream ε) where
  | migrate (src : Nat)
  | fromList (fresh : Seed) (evidence : KeyEvidence C) (pairs : List (κ × α))
  | insert (fresh : Seed) (evidence : KeyEvidence C) (k : κ) (v : α) (src : Nat)
  | update (fresh : Seed) (evidence : KeyEvidence C) (k : κ) (f : Option α → α) (src : Nat)
  | remove (evidence : KeyEvidence C) (k : κ) (src : Nat)
  | map (f : κ → α → α) (src : Nat)
  | filter (p : κ → α → Bool) (src : Nat)
  | filterMap (f : κ → α → Option α) (src : Nat)
  | merge (fresh : Seed) (evidence : KeyEvidence C) (left right : Nat)
  | intersection (evidence : KeyEvidence C) (left right : Nat)
  | difference (evidence : KeyEvidence C) (left right : Nat)

inductive MapEvent (Seed : Type) (C : LoadedCode κ α Stream ε) where
  | reload
  | store (dst : Nat) (t : MapTerm Seed C)

structure MapWorld (Seed Digest : Type) (C : LoadedCode κ α Stream ε) where
  now : Nat
  maps : Nat → IndexedMap Seed Digest C

structure RefWorld (κ α : Type) where
  now : Nat
  maps : Nat → RefMap κ α

/-! ## The reference -/

/-- What an operation means for the reference maps, each brought to the current generation. -/
inductive Denotes (C : LoadedCode κ α Stream ε) (now : Nat) (refs : Nat → RefMap κ α) :
    MapTerm Seed C → List (κ × α) → Prop
  | migrate {src entries'} (h : Migrated C now (refs src).entries entries') :
      Denotes C now refs (.migrate src) entries'
  | fromList {fresh evidence pairs} :
      Denotes C now refs (.fromList fresh evidence pairs)
        (EntryMap.ofList (C.methods now).toKeyEq pairs)
  | insert {fresh evidence k v src r} (h : Refreshed C now (refs src) r) :
      Denotes C now refs (.insert fresh evidence k v src)
        (EntryMap.insert (C.methods now).toKeyEq k v r.entries)
  | update {fresh evidence k f src r} (h : Refreshed C now (refs src) r) :
      Denotes C now refs (.update fresh evidence k f src)
        (EntryMap.update (C.methods now).toKeyEq k f r.entries)
  | remove {evidence k src r} (h : Refreshed C now (refs src) r) :
      Denotes C now refs (.remove evidence k src)
        (EntryMap.remove (C.methods now).toKeyEq k r.entries)
  | map {f src r} (h : Refreshed C now (refs src) r) :
      Denotes C now refs (.map f src) (r.entries.map fun e => (e.1, f e.1 e.2))
  | filter {p src r} (h : Refreshed C now (refs src) r) :
      Denotes C now refs (.filter p src) (r.entries.filter fun e => p e.1 e.2)
  | filterMap {f src r} (h : Refreshed C now (refs src) r) :
      Denotes C now refs (.filterMap f src) (EntryMap.filterMap f r.entries)
  | merge {fresh evidence left right a b} (ha : Refreshed C now (refs left) a)
      (hb : Refreshed C now (refs right) b) :
      Denotes C now refs (.merge fresh evidence left right)
        (EntryMap.merge (C.methods now).toKeyEq a.entries b.entries)
  | intersection {evidence left right a b} (ha : Refreshed C now (refs left) a)
      (hb : Refreshed C now (refs right) b) :
      Denotes C now refs (.intersection evidence left right)
        (a.entries.filter fun e => (find (C.methods now).toKeyEq e.1 b.entries).isSome)
  | difference {evidence left right a b} (ha : Refreshed C now (refs left) a)
      (hb : Refreshed C now (refs right) b) :
      Denotes C now refs (.difference evidence left right)
        (a.entries.filter fun e => !(find (C.methods now).toKeyEq e.1 b.entries).isSome)

/-- When an operation raises: an entry of a map it has to migrate has no migration. -/
def MapTerm.Fails (now : Nat) (refs : Nat → RefMap κ α) : MapTerm Seed C → Prop
  | .migrate src => Unmigratable C now (refs src)
  | .fromList .. => False
  | .insert _ _ _ _ src | .update _ _ _ _ src | .remove _ _ src | .map _ src | .filter _ src
  | .filterMap _ src => Stuck C now (refs src)
  | .merge _ _ left right | .intersection _ left right | .difference _ left right =>
    Stuck C now (refs left) ∨ Stuck C now (refs right)

inductive RefStep (r : RefWorld κ α) : MapEvent Seed C → RefWorld κ α → Prop
  | reload : RefStep r .reload ⟨r.now + 1, r.maps⟩
  | stored {dst t entries} (h : Denotes C r.now r.maps t entries) :
      RefStep r (.store dst t) ⟨r.now, Function.update r.maps dst ⟨r.now, entries⟩⟩
  | failed {dst t} (h : t.Fails r.now r.maps) : RefStep r (.store dst t) r

inductive RefRun : RefWorld κ α → List (MapEvent Seed C) → RefWorld κ α → Prop
  | nil (r) : RefRun r [] r
  | cons {r r' r'' e events} (h : RefStep r e r') (hrest : RefRun r' events r'') :
      RefRun r (e :: events) r''

def RefWorld.start (now : Nat) : RefWorld κ α := ⟨now, fun _ => ⟨now, []⟩⟩

/-! ## The code -/

section

variable [DecidableEq Digest] [DecidableEq κ] [DecidableEq α]

variable (H : MapHost Seed Stream Digest)

def MapTerm.eval (now : Nat)
    (maps : Nat → IndexedMap Seed Digest C) :
    MapTerm Seed C → Except (MapFault ε) (IndexedMap Seed Digest C)
  | .migrate src => indexedMapMigrate H now (maps src)
  | .fromList fresh evidence pairs => indexedMapFromList H now fresh evidence pairs
  | .insert fresh evidence k v src => indexedMapInsert H now fresh evidence k v (maps src)
  | .update fresh evidence k f src => indexedMapUpdate H now fresh evidence k f (maps src)
  | .remove evidence k src => indexedMapRemove H now evidence k (maps src)
  | .map f src => indexedMapMap H now f (maps src)
  | .filter p src => indexedMapFilter H now p (maps src)
  | .filterMap f src => indexedMapFilterMap H now f (maps src)
  | .merge fresh evidence left right =>
    indexedMapMerge H now fresh evidence (maps left) (maps right)
  | .intersection evidence left right =>
    indexedSetIntersection H now evidence (maps left) (maps right)
  | .difference evidence left right =>
    indexedSetDifference H now evidence (maps left) (maps right)

/-- An operation that raises leaves the maps as they were. -/
def MapWorld.step (w : MapWorld Seed Digest C) :
    MapEvent Seed C → MapWorld Seed Digest C
  | .reload => ⟨w.now + 1, w.maps⟩
  | .store dst t =>
    match t.eval H w.now w.maps with
    | .ok m => ⟨w.now, Function.update w.maps dst m⟩
    | .error _ => w

def MapWorld.run (w : MapWorld Seed Digest C)
    (events : List (MapEvent Seed C)) : MapWorld Seed Digest C :=
  events.foldl (MapWorld.step H) w

def MapWorld.start (now : Nat) : MapWorld Seed Digest C := ⟨now, fun _ => indexedMapEmpty⟩

end

/-! ## Operations -/

variable [DecidableEq Digest] [DecidableEq κ] [DecidableEq α] {H : MapHost Seed Stream Digest}

variable {m : IndexedMap Seed Digest C} {r : RefMap κ α}

omit [DecidableEq κ] [DecidableEq α] in
/-- A transformed map keeps the evidence of the map, unless it is empty now. -/
theorem indexedMapWrap_current (h : Represents H m r) {now : Nat} (hr : r.generation = now)
    {inner : RidgeMap Seed Digest κ α} (hinner : Indexed H (C.methods now) inner)
    (hnil : m.inner.size = 0 → inner.size = 0) {l : List (κ × α)} (hl : inner.entries.Perm l)
    (Q : Prop) :
    Delivers (indexedMapWrap m.evidence inner) (fun m' => Represents H m' ⟨now, l⟩) Q := by
  have hcoherent := h.coherent
  rw [IndexedMap.Coherent] at hcoherent
  cases he : m.evidence with
  | none =>
    rw [he] at hcoherent
    have hsize := hnil hcoherent.1
    have hbs := indexed_nil hinner hsize
    rw [indexedMapWrap_nil hsize hbs]
    exact ⟨⟨hsize, hbs⟩, hl, fun hne => absurd rfl hne⟩
  | some e =>
    rw [he] at hcoherent
    obtain ⟨g, heg, hmg, -⟩ := hcoherent
    have hepoch := h.epoch (by rw [he]; exact Option.some_ne_none e)
    rw [hmg, hr] at hepoch
    exact indexedMapWrap_spec (heg.trans hepoch) hinner hl Q

theorem indexedMapFilterMap_spec (h : Represents H m r) (now : Nat) (f : κ → α → Option α) :
    Delivers (indexedMapFilterMap H now f m)
      (fun m' => ∃ r', Refreshed C now r r' ∧
        Represents H m' ⟨now, EntryMap.filterMap f r'.entries⟩) (Stuck C now r) := by
  refine (indexedMapCurrent_spec h now).bind id fun m' ⟨r', hr', hm'⟩ => ?_
  have hindexed := hm'.indexed
  rw [hr'.generation] at hindexed
  obtain ⟨hnew, hperm⟩ := typedMapFilterMap_spec hindexed f
  refine (indexedMapWrap_current hm' hr'.generation hnew (fun hsize => ?_)
    (hperm.trans (filterMap_perm hm'.entries f)) _).mono id fun m'' hm'' => ⟨r', hr', hm''⟩
  have hnil : m'.inner.entries = [] :=
    List.length_eq_zero_iff.mp (hindexed.sized.symm.trans hsize)
  rw [hnew.sized, hperm.length_eq, hnil]
  rfl

theorem indexedMapFilter_spec (h : Represents H m r) (now : Nat) (p : κ → α → Bool) :
    Delivers (indexedMapFilter H now p m)
      (fun m' => ∃ r', Refreshed C now r r' ∧
        Represents H m' ⟨now, r'.entries.filter fun e => p e.1 e.2⟩) (Stuck C now r) := by
  refine (indexedMapFilterMap_spec h now _).mono id fun m' ⟨r', hr', hm'⟩ => ⟨r', hr', ?_⟩
  rw [filterMap_ite] at hm'
  exact hm'

theorem indexedMapGet_spec (h : Represents H m r) (now : Nat) (evidence : KeyEvidence C) (k : κ) :
    Delivers (indexedMapGet H now evidence k m)
      (fun v => ∃ r', Refreshed C now r r' ∧ v = EntryMap.get (C.methods now).toKeyEq k r'.entries)
      (Stuck C now r) := by
  refine (indexedMapBound_spec h now evidence).bind id fun p hp => ?_
  obtain ⟨-, hmethods, r', hr', hindexed, hperm⟩ := hp
  refine ⟨r', hr', ?_⟩
  rw [hmethods, typedMapGet_eq hindexed]
  exact get_perm hperm hindexed.distinct k

theorem indexedMapContains_spec (h : Represents H m r) (now : Nat) (evidence : KeyEvidence C)
    (k : κ) :
    Delivers (indexedMapContains H now evidence k m)
      (fun b => ∃ r', Refreshed C now r r' ∧
        b = (find (C.methods now).toKeyEq k r'.entries).isSome) (Stuck C now r) := by
  refine (indexedMapGet_spec h now evidence k).bind id fun v hv => ?_
  obtain ⟨r', hr', rfl⟩ := hv
  refine ⟨r', hr', ?_⟩
  rw [EntryMap.get, Option.isSome_map]

theorem indexedMapContains_current (h : Represents H m r) {now : Nat} (hr : r.generation = now)
    (evidence : KeyEvidence C) (k : κ) :
    indexedMapContains H now evidence k m
      = .ok (find (C.methods now).toKeyEq k r.entries).isSome := by
  have hspec := indexedMapContains_spec h now evidence k
  cases hx : indexedMapContains H now evidence k m with
  | ok b =>
    rw [hx] at hspec
    obtain ⟨r', hr', rfl⟩ := hspec
    rw [hr'.of_current hr]
  | error fault =>
    rw [hx] at hspec
    cases fault with
    | migrationFailed reason => exact absurd hr hspec.1
    | functionClause => exact hspec.elim

/-- An operation stores what it means for the reference, or raises where the reference says so. -/
theorem MapTerm.eval_spec {maps : Nat → IndexedMap Seed Digest C} {refs : Nat → RefMap κ α}
    (h : ∀ i, Represents H (maps i) (refs i)) (now : Nat) (t : MapTerm Seed C) :
    Delivers (t.eval H now maps)
      (fun m => ∃ entries, Denotes C now refs t entries ∧ Represents H m ⟨now, entries⟩)
      (t.Fails now refs) := by
  cases t with
  | migrate src =>
    refine (indexedMapMigrate_spec (h src) now).mono id fun m hm => ?_
    obtain ⟨entries', hmigrated, hm⟩ := hm
    exact ⟨_, .migrate hmigrated, hm⟩
  | fromList fresh evidence pairs =>
    have hnow := keyEvidenceCurrent_generation now evidence
    have hmethods := (keyEvidenceCurrent now evidence).snapshot now hnow
    obtain ⟨hnew, hperm⟩ := typedMapFromList_spec (H := H) (M := C.methods now) fresh pairs
    rw [MapTerm.eval, indexedMapFromList, hmethods]
    exact (indexedMapWrap_spec hnow hnew hperm _).mono id fun m hm => ⟨_, .fromList, hm⟩
  | insert fresh evidence k v src =>
    refine (indexedMapBound_spec (h src) now evidence).bind id fun p hp => ?_
    obtain ⟨hnow, hmethods, r', hr', hindexed, hperm⟩ := hp
    have hnew := typedMapUpdate_indexed hindexed fresh k fun _ => v
    have hentries := (typedMapUpdate_entries hindexed fresh k fun _ => v).trans
      (update_perm hperm hindexed.distinct k _)
    show Delivers (indexedMapWrap _ _) _ _
    rw [hmethods, typedMapInsert_eq]
    exact (indexedMapWrap_spec hnow hnew hentries _).mono id fun m hm => ⟨_, .insert hr', hm⟩
  | update fresh evidence k f src =>
    refine (indexedMapBound_spec (h src) now evidence).bind id fun p hp => ?_
    obtain ⟨hnow, hmethods, r', hr', hindexed, hperm⟩ := hp
    have hnew := typedMapUpdate_indexed hindexed fresh k f
    have hentries := (typedMapUpdate_entries hindexed fresh k f).trans
      (update_perm hperm hindexed.distinct k _)
    show Delivers (indexedMapWrap _ _) _ _
    rw [hmethods]
    exact (indexedMapWrap_spec hnow hnew hentries _).mono id fun m hm => ⟨_, .update hr', hm⟩
  | remove evidence k src =>
    refine (indexedMapBound_spec (h src) now evidence).bind id fun p hp => ?_
    obtain ⟨hnow, hmethods, r', hr', hindexed, hperm⟩ := hp
    obtain ⟨hnew, hremoved⟩ := typedMapRemove_spec hindexed k
    have hentries := hremoved.trans (remove_perm hperm hindexed.distinct k)
    show Delivers (indexedMapWrap _ _) _ _
    rw [hmethods]
    exact (indexedMapWrap_spec hnow hnew hentries _).mono id fun m hm => ⟨_, .remove hr', hm⟩
  | map f src =>
    refine (indexedMapCurrent_spec (h src) now).bind id fun m' hcurrent => ?_
    obtain ⟨r', hr', hm'⟩ := hcurrent
    have hindexed := hm'.indexed
    rw [hr'.generation] at hindexed
    obtain ⟨hnew, hmapped⟩ := typedMapMap_spec hindexed f
    refine (indexedMapWrap_current hm' hr'.generation hnew id
      (hmapped ▸ hm'.entries.map _) _).mono id fun m hm => ⟨_, .map hr', hm⟩
  | filter p src =>
    refine (indexedMapFilter_spec (h src) now p).mono id fun m hkept => ?_
    obtain ⟨r', hr', hm⟩ := hkept
    exact ⟨_, .filter hr', hm⟩
  | filterMap f src =>
    refine (indexedMapFilterMap_spec (h src) now f).mono id fun m hkept => ?_
    obtain ⟨r', hr', hm⟩ := hkept
    exact ⟨_, .filterMap hr', hm⟩
  | merge fresh evidence left right =>
    refine (indexedMapBound_spec (h left) now evidence).bind .inl fun p hp => ?_
    obtain ⟨hnow, hmethods, a, ha, hindexed, hperm⟩ := hp
    refine (indexedMapCurrent_spec (h right) now).bind .inr fun m' hcurrent => ?_
    obtain ⟨b, hb, hm'⟩ := hcurrent
    have hright := hm'.indexed
    rw [hb.generation] at hright
    obtain ⟨hnew, hmerged⟩ := typedMapMerge_spec hindexed hright fresh
    have hentries := hmerged.trans
      (merge_perm hperm hm'.entries hindexed.distinct hright.distinct)
    rw [hmethods]
    exact (indexedMapWrap_spec hnow hnew hentries _).mono id fun m hm => ⟨_, .merge ha hb, hm⟩
  | intersection evidence left right =>
    refine (indexedMapBind_spec (h right) now evidence).bind .inr fun b hbound => ?_
    obtain ⟨-, rb, hb, hmb⟩ := hbound
    refine (indexedMapFilter_spec (h left) now _).mono .inl fun m hkept => ?_
    obtain ⟨ra, ha, hm⟩ := hkept
    simp only [indexedMapContains_current hmb hb.generation] at hm
    exact ⟨_, .intersection ha hb, hm⟩
  | difference evidence left right =>
    refine (indexedMapBind_spec (h right) now evidence).bind .inr fun b hbound => ?_
    obtain ⟨-, rb, hb, hmb⟩ := hbound
    refine (indexedMapFilter_spec (h left) now _).mono .inl fun m hkept => ?_
    obtain ⟨ra, ha, hm⟩ := hkept
    simp only [indexedMapContains_current hmb hb.generation] at hm
    exact ⟨_, .difference ha hb, hm⟩

theorem indexedMapToList_spec (h : Represents H m r) (now : Nat) :
    Delivers (indexedMapToList H now m) (fun l => ∃ r', Refreshed C now r r' ∧ l.Perm r'.entries)
      (Stuck C now r) := by
  refine (indexedMapCurrent_spec h now).bind id fun m' ⟨r', hr', hm'⟩ => ?_
  exact ⟨r', hr', (typedMapToList_perm m'.inner).trans hm'.entries⟩

theorem indexedMapSize_spec (h : Represents H m r) (now : Nat) :
    Delivers (indexedMapSize H now m) (fun n => ∃ r', Refreshed C now r r' ∧ n = r'.entries.length)
      (Stuck C now r) := by
  refine (indexedMapCurrent_spec h now).bind id fun m' ⟨r', hr', hm'⟩ => ⟨r', hr', ?_⟩
  rw [typedMapSize, hm'.indexed.sized, hm'.entries.length_eq]

theorem indexedMapEq_spec {a b : IndexedMap Seed Digest C} {ra rb : RefMap κ α}
    (ha : Represents H a ra) (hb : Represents H b rb) (now : Nat) (R : α → α → Bool) :
    Delivers (indexedMapEq H now (C.methods now) R a b)
      (fun same => ∃ ra' rb', Refreshed C now ra ra' ∧ Refreshed C now rb rb' ∧
        (same = true ↔ EntryMap.Same (C.methods now).toKeyEq (fun v w => R v w = true)
          ra'.entries rb'.entries))
      (Stuck C now ra ∨ Stuck C now rb) := by
  refine (indexedMapCurrent_spec ha now).bind .inl fun a' ⟨ra', hra', ha'⟩ => ?_
  refine (indexedMapCurrent_spec hb now).bind .inr fun b' ⟨rb', hrb', hb'⟩ => ?_
  have hindexedA := ha'.indexed
  have hindexedB := hb'.indexed
  rw [hra'.generation] at hindexedA
  rw [hrb'.generation] at hindexedB
  refine ⟨ra', rb', hra', hrb', (typedMapEq_iff hindexedA hindexedB R).trans ?_⟩
  exact EntryMap.Same.perm ha'.entries hb'.entries hindexedA.distinct hindexedB.distinct

/-! ## Runs -/

structure Refines (H : MapHost Seed Stream Digest) (w : MapWorld Seed Digest C)
    (r : RefWorld κ α) : Prop where
  now_eq : r.now = w.now
  maps : ∀ i, Represents H (w.maps i) (r.maps i)

omit [DecidableEq κ] [DecidableEq α] in
theorem Refines.start (H : MapHost Seed Stream Digest) (C : LoadedCode κ α Stream ε) (now : Nat) :
    Refines H (MapWorld.start now : MapWorld Seed Digest C) (RefWorld.start now) where
  now_eq := rfl
  maps _ := ⟨⟨rfl, rfl⟩, List.Perm.refl _, fun hne => absurd rfl hne⟩

variable {w : MapWorld Seed Digest C}

theorem Refines.step {r : RefWorld κ α} (h : Refines H w r) (e : MapEvent Seed C) :
    ∃ r', RefStep r e r' ∧ Refines H (w.step H e) r' := by
  cases e with
  | reload => exact ⟨_, .reload, congrArg (· + 1) h.now_eq, h.maps⟩
  | store dst t =>
    have heval := MapTerm.eval_spec h.maps w.now t
    have hnow := h.now_eq
    rw [← hnow] at heval
    rw [MapWorld.step, ← hnow]
    cases hx : t.eval H r.now w.maps with
    | error fault =>
      rw [hx] at heval
      cases fault with
      | migrationFailed reason => exact ⟨r, .failed heval, h⟩
      | functionClause => exact heval.elim
    | ok m =>
      rw [hx] at heval
      obtain ⟨entries, hdenotes, hm⟩ := heval
      refine ⟨_, .stored hdenotes, rfl, fun i => ?_⟩
      by_cases hi : i = dst
      · subst hi
        simp only [Function.update_self]
        exact hm
      · simp only [Function.update_of_ne hi]
        exact h.maps i

theorem Refines.run {r : RefWorld κ α} (h : Refines H w r) (events : List (MapEvent Seed C)) :
    ∃ r', RefRun r events r' ∧ Refines H (w.run H events) r' := by
  induction events generalizing w r with
  | nil => exact ⟨r, .nil r, h⟩
  | cons e events ih =>
    obtain ⟨r', hstep, h'⟩ := h.step e
    obtain ⟨r'', hrun, h''⟩ := ih h'
    exact ⟨r'', .cons hstep hrun, h''⟩

/-- The stored maps are well formed, and every query of them answers for the reference. -/
structure ReadsAs (H : MapHost Seed Stream Digest) (w : MapWorld Seed Digest C)
    (r : RefWorld κ α) : Prop where
  stored : ∀ i, Indexed H (C.methods (r.maps i).generation) (w.maps i).inner
  get : ∀ i evidence k, Delivers (indexedMapGet H w.now evidence k (w.maps i))
    (fun v => ∃ r', Refreshed C w.now (r.maps i) r' ∧
      v = EntryMap.get (C.methods w.now).toKeyEq k r'.entries) (Stuck C w.now (r.maps i))
  contains : ∀ i evidence k, Delivers (indexedMapContains H w.now evidence k (w.maps i))
    (fun b => ∃ r', Refreshed C w.now (r.maps i) r' ∧
      b = (find (C.methods w.now).toKeyEq k r'.entries).isSome) (Stuck C w.now (r.maps i))
  size : ∀ i, Delivers (indexedMapSize H w.now (w.maps i))
    (fun n => ∃ r', Refreshed C w.now (r.maps i) r' ∧ n = r'.entries.length)
    (Stuck C w.now (r.maps i))
  toList : ∀ i, Delivers (indexedMapToList H w.now (w.maps i))
    (fun l => ∃ r', Refreshed C w.now (r.maps i) r' ∧ l.Perm r'.entries)
    (Stuck C w.now (r.maps i))
  equal : ∀ i j R, Delivers (indexedMapEq H w.now (C.methods w.now) R (w.maps i) (w.maps j))
    (fun same => ∃ a b, Refreshed C w.now (r.maps i) a ∧ Refreshed C w.now (r.maps j) b ∧
      (same = true ↔ EntryMap.Same (C.methods w.now).toKeyEq (fun v w => R v w = true)
        a.entries b.entries))
    (Stuck C w.now (r.maps i) ∨ Stuck C w.now (r.maps j))

theorem Refines.readsAs {r : RefWorld κ α} (h : Refines H w r) :
    ReadsAs H w r where
  stored i := (h.maps i).indexed
  get i := indexedMapGet_spec (h.maps i) w.now
  contains i := indexedMapContains_spec (h.maps i) w.now
  size i := indexedMapSize_spec (h.maps i) w.now
  toList i := indexedMapToList_spec (h.maps i) w.now
  equal i j := indexedMapEq_spec (h.maps i) (h.maps j) w.now

/-- Along every run of operations and reloads, the maps of the code are the finite maps of a run of
the reference. -/
theorem indexed_maps_finite (H : MapHost Seed Stream Digest) (C : LoadedCode κ α Stream ε)
    (now : Nat) (events : List (MapEvent Seed C)) :
    ∃ r, RefRun (RefWorld.start now) events r ∧
      ReadsAs H ((MapWorld.start now : MapWorld Seed Digest C).run H events) r := by
  obtain ⟨r, hrun, h⟩ := (Refines.start H C now).run events
  exact ⟨r, hrun, h.readsAs⟩

end Ridge
