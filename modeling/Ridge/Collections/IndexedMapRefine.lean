import Ridge.Collections.IndexedMap

/-!
# Indexed maps — every operation does what the finite map does

`RefMap` is the reference: entries, and the generation whose keys they are. `Represents` ties an
indexed map to it; each operation keeps the tie, or fails on an entry that has no migration.
-/

namespace Ridge

open List Bool

open EntryMap (find Distinct)
open RidgeMap (Indexed)

variable {Seed Stream Digest κ α ε : Type}

/-- A finite map and the generation its keys are compared in. -/
structure RefMap (κ α : Type) where
  generation : Nat
  entries : List (κ × α)

variable (C : LoadedCode κ α Stream ε)

/-- The entries migrated in some order, and inserted in that order. -/
def Migrated (now : Nat) (entries entries' : List (κ × α)) : Prop :=
  ∃ order es, order.Perm entries ∧ migrateEntries (C.migrate now) order = .ok es ∧
    entries' = EntryMap.ofList (C.methods now).toKeyEq es

/-- The reference in the current generation. -/
inductive Refreshed (C : LoadedCode κ α Stream ε) (now : Nat) : RefMap κ α → RefMap κ α → Prop
  | current {r} (h : r.entries = [] ∨ r.generation = now) : Refreshed C now r ⟨now, r.entries⟩
  | migrated {r entries'} (h : r.generation ≠ now) (hm : Migrated C now r.entries entries') :
      Refreshed C now r ⟨now, entries'⟩

/-- Some entry has no migration. -/
def Unmigratable (now : Nat) (r : RefMap κ α) : Prop :=
  ∃ e ∈ r.entries, ∃ reason, C.migrate now e = .error reason

/-- The map is of an earlier generation and some entry has no migration. -/
def Stuck (now : Nat) (r : RefMap κ α) : Prop :=
  r.generation ≠ now ∧ Unmigratable C now r

variable {C : LoadedCode κ α Stream ε} {r : RefMap κ α} {m : IndexedMap Seed Digest C}
    {f : κ × α → Except ε (κ × α)} {l : List (κ × α)} {buckets : List (Digest × List (κ × α))}

variable {now : Nat} {r' : RefMap κ α}

theorem Refreshed.generation (h : Refreshed C now r r') : r'.generation = now := by
  cases h <;> rfl

theorem Refreshed.of_current (h : Refreshed C now r r') (hr : r.generation = now) : r' = r := by
  cases h with
  | current =>
    subst hr
    rfl
  | migrated hne => exact absurd hr hne

/-- An outcome: a value with the property, or a failed migration under the condition. -/
def Delivers {β : Type} (x : Except (MapFault ε) β) (P : β → Prop) (Q : Prop) : Prop :=
  match x with
  | .ok b => P b
  | .error (.migrationFailed _) => Q
  | .error .functionClause => False

variable {Q Q' : Prop}

theorem Delivers.mono {β : Type} {x : Except (MapFault ε) β} {P P' : β → Prop} (hx : Delivers x P Q)
    (hQ : Q → Q') (hP : ∀ b, P b → P' b) : Delivers x P' Q' := by
  cases x with
  | ok b => exact hP b hx
  | error fault =>
    cases fault with
    | migrationFailed reason => exact hQ hx
    | functionClause => exact hx

theorem Delivers.bind {β γ : Type} {x : Except (MapFault ε) β} {f : β → Except (MapFault ε) γ}
    {P : β → Prop} {P' : γ → Prop} (hx : Delivers x P Q) (hQ : Q → Q')
    (hf : ∀ b, P b → Delivers (f b) P' Q') : Delivers (x >>= f) P' Q' := by
  cases x with
  | ok b => exact hf b hx
  | error fault =>
    cases fault with
    | migrationFailed reason => exact hQ hx
    | functionClause => exact hx

/-! ## The walk over the entries -/

variable {l' : List (κ × α)}

theorem migrateEntries_ok_iff :
    migrateEntries f l = .ok l' ↔ List.Forall₂ (fun e e' => f e = .ok e') l l' := by
  induction l generalizing l' with
  | nil =>
    rw [migrateEntries, forall₂_nil_left_iff]
    exact ⟨fun h => by cases h; rfl, fun h => by rw [h]⟩
  | cons e l ih =>
    rw [migrateEntries]
    cases hf : f e with
    | error reason =>
      refine ⟨nofun, fun h => ?_⟩
      cases h with
      | cons he => exact nomatch hf.symm.trans he
    | ok e' =>
      cases hl : migrateEntries f l with
      | error reason =>
        refine ⟨nofun, fun h => ?_⟩
        cases h with
        | cons _ htail => exact nomatch hl.symm.trans (ih.mpr htail)
      | ok rest =>
        constructor
        · intro h
          cases h
          exact .cons hf (ih.mp hl)
        · intro h
          cases h with
          | cons he htail =>
            cases hf.symm.trans he
            cases hl.symm.trans (ih.mpr htail)
            rfl

variable {reason : ε}

theorem migrateEntries_error (h : migrateEntries f l = .error reason) :
    ∃ e ∈ l, ∃ reason, f e = .error reason := by
  induction l with
  | nil => cases h
  | cons e l ih =>
    rw [migrateEntries] at h
    cases hf : f e with
    | error reason' => exact ⟨e, mem_cons_self, reason', hf⟩
    | ok e' =>
      rw [hf] at h
      cases hl : migrateEntries f l with
      | error reason' =>
        rw [hl] at h
        cases h
        obtain ⟨a, ha, hreason⟩ := ih hl
        exact ⟨a, mem_cons_of_mem e ha, hreason⟩
      | ok rest =>
        rw [hl] at h
        cases h

/-- The walk goes through in any order in which it goes through at all. -/
theorem migrateEntries_perm {l' es : List (κ × α)} (h : migrateEntries f l = .ok l')
    (hperm : es.Perm l') : ∃ order, order.Perm l ∧ migrateEntries f order = .ok es := by
  have hflip : List.Forall₂ (flip fun e e' => f e = .ok e') l' l :=
    List.Forall₂.flip (migrateEntries_ok_iff.mp h)
  obtain ⟨order, hes, horder⟩ := perm_comp_forall₂ hperm hflip
  exact ⟨order, horder, migrateEntries_ok_iff.mpr (List.Forall₂.flip hes)⟩

/-! ## The walk over the buckets -/

/-- A bucket after its walk. -/
def migratedBucket (f : κ × α → Except ε (κ × α)) (b : Digest × List (κ × α)) :
    Digest × List (κ × α) :=
  match migrateEntries f b.2 with
  | .ok es => (b.1, es)
  | .error _ => b

theorem migratedBucket_fst (f : κ × α → Except ε (κ × α)) (b : Digest × List (κ × α)) :
    (migratedBucket f b).1 = b.1 := by
  rw [migratedBucket]
  split <;> rfl

variable {b : Digest × List (κ × α)}

variable {es : List (κ × α)}

theorem migratedBucket_ok (h : migrateEntries f b.2 = .ok es) : migratedBucket f b = (b.1, es) := by
  rw [migratedBucket, h]

variable [DecidableEq Digest]

/-- A bucket of a map whose walk has come past the digests of `done`. -/
def walked (f : κ × α → Except ε (κ × α)) (done : List Digest) (b : Digest × List (κ × α)) :
    Digest × List (κ × α) :=
  if b.1 ∈ done then migratedBucket f b else b

theorem walked_fst (f : κ × α → Except ε (κ × α)) (done : List Digest)
    (b : Digest × List (κ × α)) : (walked f done b).1 = b.1 := by
  rw [walked]
  split
  · exact migratedBucket_fst f b
  · rfl

theorem bucket_unique (hbs : Distinct (.exact Digest) buckets) {x b : Digest × List (κ × α)}
    (hx : x ∈ buckets) (hb : b ∈ buckets) (hxb : x.1 = b.1) : x = b := by
  have hfind := hbs.find_of_mem hx (exact_eq.mpr hxb.symm)
  rw [hbs.find_of_mem hb ((KeyEq.exact Digest).refl b.1)] at hfind
  exact (Option.some.inj hfind).symm

theorem putBucket_map {d : Digest} (bucket : List (κ × α)) (hbs : Distinct (.exact Digest) buckets)
    (hd : ∃ b ∈ buckets, b.1 = d) :
    putBucket d bucket buckets = buckets.map fun b => if b.1 = d then (d, bucket) else b := by
  induction buckets with
  | nil =>
    obtain ⟨b, hb, -⟩ := hd
    cases hb
  | cons b buckets ih =>
    obtain ⟨hhead, htail⟩ := Distinct.cons_iff.mp hbs
    rw [putBucket, EntryMap.insert, EntryMap.update, map_cons]
    by_cases hb : b.1 = d
    · have hrest : ∀ b' ∈ buckets, b'.1 ≠ d := by
        intro b' hb' heq
        cases (exact_eq.mpr (hb.trans heq.symm)).symm.trans (hhead b' hb')
      rw [if_pos (exact_eq.mpr hb.symm), if_pos hb, hb]
      congr 1
      refine (map_id _).symm.trans (map_congr_left fun b' hb' => ?_)
      rw [if_neg (hrest b' hb')]
      rfl
    · rw [if_neg fun h => hb (exact_eq.mp h).symm, if_neg hb]
      congr 1
      refine ih htail ?_
      obtain ⟨b', hb', hd'⟩ := hd
      rcases mem_cons.mp hb' with rfl | hb'
      · exact absurd hd' hb
      · exact ⟨b', hb', hd'⟩

theorem putBucket_walked (hbs : Distinct (.exact Digest) buckets) (hb : b ∈ buckets)
    (done : List Digest) (hes : migrateEntries f b.2 = .ok es) :
    putBucket b.1 es (buckets.map (walked f done)) = buckets.map (walked f (done ++ [b.1])) := by
  have hwalked : Distinct (.exact Digest) (buckets.map (walked f done)) := by
    refine pairwise_map.mpr (hbs.imp fun {x y} hxy => ?_)
    rw [walked_fst, walked_fst]
    exact hxy
  rw [putBucket_map es hwalked ⟨walked f done b, mem_map_of_mem hb, walked_fst f done b⟩,
    map_map]
  refine map_congr_left fun x hx => ?_
  rw [Function.comp_apply, walked_fst, walked.eq_1 f (done ++ [b.1])]
  by_cases hxb : x.1 = b.1
  · have hsame := bucket_unique hbs hx hb hxb
    have hmem : x.1 ∈ done ++ [b.1] := mem_append_right _ (mem_singleton.mpr hxb)
    rw [if_pos hxb, if_pos hmem, hsame, migratedBucket_ok hes]
  · have hmem : x.1 ∈ done ++ [b.1] ↔ x.1 ∈ done := by
      rw [mem_append, mem_singleton, or_iff_left hxb]
    rw [if_neg hxb]
    simp only [walked, hmem]

theorem keys_of_zip [DecidableEq κ] (hlen : l.length = l'.length)
    (h : ((l.zip l').any fun p => p.1.1 ≠ p.2.1) = false) : l'.map Prod.fst = l.map Prod.fst := by
  induction l generalizing l' with
  | nil =>
    cases l' with
    | nil => rfl
    | cons => cases hlen
  | cons e l ih =>
    cases l' with
    | nil => cases hlen
    | cons e' l' =>
      rw [zip_cons_cons, List.any_cons, or_eq_false_iff] at h
      have hhead : e.1 = e'.1 := by simpa using h.1
      rw [map_cons, map_cons, hhead, ih (Nat.succ.inj hlen) h.2]

variable [DecidableEq κ] [DecidableEq α]

theorem indexedMigrateBuckets_ok (hbs : Distinct (.exact Digest) buckets)
    (iterator : List (Digest × List (κ × α))) (hit : ∀ b ∈ iterator, b ∈ buckets)
    (done : List Digest) {keysChanged changed keysChanged' changed' : Bool}
    {next : List (Digest × List (κ × α))}
    (h : indexedMigrateBuckets f iterator (buckets.map (walked f done)) keysChanged changed
      = .ok (next, keysChanged', changed')) :
    next = buckets.map (walked f (done ++ iterator.map Prod.fst)) ∧
      (∀ b ∈ iterator, migrateEntries f b.2 = .ok (migratedBucket f b).2) ∧
      (keysChanged' = false → keysChanged = false ∧
        ∀ b ∈ iterator, (migratedBucket f b).2.map Prod.fst = b.2.map Prod.fst) ∧
      (changed' = false → changed = false ∧ ∀ b ∈ iterator, migratedBucket f b = b) := by
  induction iterator generalizing done keysChanged changed with
  | nil =>
    rw [indexedMigrateBuckets] at h
    cases h
    rw [map_nil, append_nil]
    exact ⟨rfl, nofun, fun h => ⟨h, nofun⟩, fun h => ⟨h, nofun⟩⟩
  | cons b iterator ih =>
    obtain ⟨digest, bucket⟩ := b
    have hb : (digest, bucket) ∈ buckets := hit _ mem_cons_self
    have hrest : ∀ b ∈ iterator, b ∈ buckets := fun b hb => hit b (mem_cons_of_mem _ hb)
    rw [indexedMigrateBuckets] at h
    cases hes : migrateEntries f bucket with
    | error reason =>
      rw [hes] at h
      cases h
    | ok es =>
      have hstep := putBucket_walked hbs hb done hes
      have hmigrated : migratedBucket f (digest, bucket) = (digest, es) := migratedBucket_ok hes
      have happend : done ++ ((digest, bucket) :: iterator).map Prod.fst
          = (done ++ [digest]) ++ iterator.map Prod.fst := by
        rw [map_cons, append_assoc]
        rfl
      rw [hes] at h
      simp only at h
      rw [happend]
      by_cases hsame : es = bucket
      · subst hsame
        rw [if_pos rfl] at h
        -- Nothing changed in this bucket: the walk goes on with the same buckets.
        have hwalk : buckets.map (walked f done) = buckets.map (walked f (done ++ [digest])) := by
          refine map_congr_left fun x hx => ?_
          rw [walked, walked]
          by_cases hxd : x.1 = digest
          · rw [bucket_unique hbs hx hb hxd, hmigrated, ite_self, ite_self]
          · have hmem : x.1 ∈ done ++ [digest] ↔ x.1 ∈ done := by
              rw [mem_append, mem_singleton, or_iff_left hxd]
            simp only [hmem]
        rw [hwalk] at h
        obtain ⟨hnext, hok, hkeys, hchanged⟩ := ih hrest _ h
        refine ⟨hnext, fun b hb => ?_, fun hk => ?_, fun hc => ?_⟩
        · rcases mem_cons.mp hb with rfl | hb
          · rw [hmigrated]
            exact hes
          · exact hok b hb
        · refine ⟨(hkeys hk).1, fun b hb => ?_⟩
          rcases mem_cons.mp hb with rfl | hb
          · rw [hmigrated]
          · exact (hkeys hk).2 b hb
        · refine ⟨(hchanged hc).1, fun b hb => ?_⟩
          rcases mem_cons.mp hb with rfl | hb
          · exact hmigrated
          · exact (hchanged hc).2 b hb
      · rw [if_neg hsame, hstep] at h
        obtain ⟨hnext, hok, hkeys, hchanged⟩ := ih hrest _ h
        refine ⟨hnext, fun b hb => ?_, fun hk => ?_, fun hc => ?_⟩
        · rcases mem_cons.mp hb with rfl | hb
          · rw [hmigrated]
            exact hes
          · exact hok b hb
        · obtain ⟨hor, hkeys⟩ := hkeys hk
          obtain ⟨hfalse, hnew⟩ := or_eq_false_iff.mp hor
          refine ⟨hfalse, fun b hb => ?_⟩
          rcases mem_cons.mp hb with rfl | hb
          · rw [hmigrated]
            exact keys_of_zip (migrateEntries_ok_iff.mp hes).length_eq hnew
          · exact hkeys b hb
        · exact nomatch (hchanged hc).1

theorem indexedMigrateBuckets_error (iterator buckets : List (Digest × List (κ × α)))
    {keysChanged changed : Bool}
    (h : indexedMigrateBuckets f iterator buckets keysChanged changed = .error reason) :
    ∃ b ∈ iterator, ∃ e ∈ b.2, ∃ reason, f e = .error reason := by
  induction iterator generalizing buckets keysChanged changed with
  | nil => cases h
  | cons b iterator ih =>
    obtain ⟨digest, bucket⟩ := b
    rw [indexedMigrateBuckets] at h
    cases hes : migrateEntries f bucket with
    | error reason' =>
      obtain ⟨e, he, hreason⟩ := migrateEntries_error hes
      exact ⟨_, mem_cons_self, e, he, hreason⟩
    | ok es =>
      rw [hes] at h
      simp only at h
      split at h
      all_goals
        obtain ⟨b, hb, hfails⟩ := ih _ h
        exact ⟨b, mem_cons_of_mem _ hb, hfails⟩

/-! ## Maps and their reference -/

variable {H : MapHost Seed Stream Digest}

/-- The evidence of a map is that of its snapshot, and its index is kept with it. -/
def IndexedMap.Coherent (H : MapHost Seed Stream Digest) (m : IndexedMap Seed Digest C) : Prop :=
  match m.evidence with
  | none => m.inner.size = 0 ∧ m.inner.buckets = []
  | some e => ∃ g, e.generation = some g ∧ m.epoch = some g ∧ Indexed H (C.methods g) m.inner

structure Represents (H : MapHost Seed Stream Digest) (m : IndexedMap Seed Digest C)
    (r : RefMap κ α) : Prop where
  coherent : m.Coherent H
  entries : m.inner.entries.Perm r.entries
  epoch : m.evidence ≠ none → m.epoch = some r.generation

variable {M : KeyMethods κ Stream}

omit [DecidableEq κ] [DecidableEq α] in
theorem indexed_nil {m : RidgeMap Seed Digest κ α} (h : Indexed H M m) (hsize : m.size = 0) :
    m.buckets = [] := by
  cases hbs : m.buckets with
  | nil => rfl
  | cons b buckets =>
    have hnil : m.entries = [] := length_eq_zero_iff.mp (h.sized.symm.trans hsize)
    rw [RidgeMap.entries, hbs, flat_cons, append_eq_nil_iff] at hnil
    exact absurd hnil.1 (h.nonempty b (hbs ▸ mem_cons_self))

omit [DecidableEq κ] [DecidableEq α] in
theorem indexed_of_nil (M : KeyMethods κ Stream) {m : RidgeMap Seed Digest κ α} (hsize : m.size = 0)
    (hbs : m.buckets = []) : Indexed H M m := by
  have hnil : m.entries = [] := by
    rw [RidgeMap.entries, hbs]
    rfl
  refine ⟨?_, ?_, ?_, ?_, ?_⟩
  · rw [hbs]
    exact List.Pairwise.nil
  · rw [hbs]
    exact fun b hb => absurd hb not_mem_nil
  · rw [hbs]
    exact fun b hb => absurd hb not_mem_nil
  · rw [hnil]
    exact List.Pairwise.nil
  · rw [hnil]
    exact hsize

omit [DecidableEq κ] [DecidableEq α] in
theorem Represents.indexed (h : Represents H m r) : Indexed H (C.methods r.generation) m.inner := by
  have hcoherent := h.coherent
  rw [IndexedMap.Coherent] at hcoherent
  cases he : m.evidence with
  | none =>
    rw [he] at hcoherent
    exact indexed_of_nil _ hcoherent.1 hcoherent.2
  | some e =>
    rw [he] at hcoherent
    obtain ⟨g, -, hg, hindexed⟩ := hcoherent
    have hepoch := h.epoch (by rw [he]; exact nofun)
    cases hg.symm.trans hepoch
    exact hindexed

omit [DecidableEq κ] [DecidableEq α] in
theorem Represents.nil (h : Represents H m r) (hsize : m.inner.size = 0) : r.entries = [] := by
  have hnil : m.inner.entries = [] :=
    length_eq_zero_iff.mp (h.indexed.sized.symm.trans hsize)
  have hperm := h.entries
  rw [hnil] at hperm
  exact nil_perm.mp hperm

omit [DecidableEq κ] [DecidableEq α] in
theorem Represents.evidence (h : Represents H m r) (hsize : m.inner.size ≠ 0) :
    ∃ e, m.evidence = some e ∧ m.epoch = some r.generation := by
  have hcoherent := h.coherent
  rw [IndexedMap.Coherent] at hcoherent
  cases he : m.evidence with
  | none =>
    rw [he] at hcoherent
    exact absurd hcoherent.1 hsize
  | some e => exact ⟨e, rfl, h.epoch (by rw [he]; exact nofun)⟩

variable {inner : RidgeMap Seed Digest κ α}

omit [DecidableEq κ] [DecidableEq α] in
theorem indexedMapWrap_spec {e : KeyEvidence C} (he : e.generation = some now)
    (h : Indexed H (C.methods now) inner) (hl : inner.entries.Perm l) (Q : Prop) :
    Delivers (indexedMapWrap (some e) inner) (fun m => Represents H m ⟨now, l⟩) Q := by
  rw [indexedMapWrap]
  by_cases hsize : inner.size = 0
  · have hbs := indexed_nil h hsize
    rw [if_pos ⟨hsize, by rw [hbs]; rfl⟩]
    exact ⟨⟨hsize, hbs⟩, hl, fun hne => absurd rfl hne⟩
  · rw [if_neg fun hand => hsize hand.1]
    exact ⟨⟨now, he, he, h⟩, hl, fun _ => he⟩

omit [DecidableEq κ] [DecidableEq α] [DecidableEq Digest] in
theorem indexedMapWrap_nil (hsize : inner.size = 0) (hbs : inner.buckets = [])
    (evidence : Option (KeyEvidence C)) :
    indexedMapWrap evidence inner = .ok ⟨none, none, inner⟩ := by
  unfold indexedMapWrap
  rw [if_pos ⟨hsize, by rw [hbs]; rfl⟩]

omit [DecidableEq κ] [DecidableEq α] [DecidableEq Digest] in
theorem keyEvidenceCurrent_generation (now : Nat) (e : KeyEvidence C) :
    (keyEvidenceCurrent now e).generation = some now := by
  rw [keyEvidenceCurrent]
  split
  · assumption
  · rfl

omit [DecidableEq κ] [DecidableEq α] [DecidableEq Digest] in
theorem flat_migrated (h : ∀ b ∈ buckets, migrateEntries f b.2 = .ok (migratedBucket f b).2) :
    migrateEntries f (flat buckets) = .ok (flat (buckets.map (migratedBucket f))) := by
  rw [migrateEntries_ok_iff]
  induction buckets with
  | nil => exact .nil
  | cons b buckets ih =>
    rw [map_cons, flat_cons, flat_cons]
    have hhead := migrateEntries_ok_iff.mp (h b mem_cons_self)
    exact rel_append hhead (ih fun b hb => h b (mem_cons_of_mem _ hb))

omit [DecidableEq κ] [DecidableEq α] in
/-- With the keys as they were, the index stands. -/
theorem Indexed.migrated {m : RidgeMap Seed Digest κ α} (h : Indexed H M m)
    (hkeys : ∀ b ∈ m.buckets, (migratedBucket f b).2.map Prod.fst = b.2.map Prod.fst) :
    Indexed H M ⟨m.seed, m.size, m.buckets.map (migratedBucket f)⟩ := by
  have hfst : (flat (m.buckets.map (migratedBucket f))).map Prod.fst
      = (flat m.buckets).map Prod.fst := by
    generalize m.buckets = buckets at hkeys
    induction buckets with
    | nil => rfl
    | cons b buckets ih =>
      rw [map_cons, flat_cons, flat_cons, map_append, map_append,
        hkeys b mem_cons_self, ih fun b hb => hkeys b (mem_cons_of_mem _ hb)]
  have hlen : (flat (m.buckets.map (migratedBucket f))).length = (flat m.buckets).length := by
    have := congrArg List.length hfst
    rwa [length_map, length_map] at this
  refine ⟨?_, ?_, ?_, ?_, ?_⟩
  · refine pairwise_map.mpr (h.digests.imp fun {x y} hxy => ?_)
    rw [migratedBucket_fst, migratedBucket_fst]
    exact hxy
  · intro b hb hnil
    obtain ⟨b', hb', rfl⟩ := mem_map.mp hb
    have hk := hkeys b' hb'
    rw [hnil, map_nil] at hk
    exact h.nonempty b' hb' (map_eq_nil_iff.mp hk.symm)
  · intro b hb e he
    obtain ⟨b', hb', rfl⟩ := mem_map.mp hb
    have hmem : e.1 ∈ b'.2.map Prod.fst := hkeys b' hb' ▸ mem_map_of_mem he
    obtain ⟨e', he', hkey⟩ := mem_map.mp hmem
    obtain ⟨seed, hseed, hdigest⟩ := h.keyed b' hb' e' he'
    refine ⟨seed, hseed, ?_⟩
    rw [migratedBucket_fst, ← hkey]
    exact hdigest
  · have hold : ((flat m.buckets).map Prod.fst).Pairwise fun a b => M.eq a b = false :=
      pairwise_map.mpr h.distinct
    rw [← hfst] at hold
    exact pairwise_map.mp hold
  · exact h.sized.trans hlen.symm

theorem indexedMapMigrate_spec (h : Represents H m r) (now : Nat) :
    Delivers (indexedMapMigrate H now m)
      (fun m' => ∃ entries', Migrated C now r.entries entries' ∧ Represents H m' ⟨now, entries'⟩)
      (Unmigratable C now r) := by
  rw [indexedMapMigrate]
  by_cases hsize : m.inner.size = 0
  · have hbs := indexed_nil h.indexed hsize
    rw [if_pos hsize, indexedMapWrap_nil hsize hbs]
    refine ⟨[], ⟨[], [], ?_, rfl, rfl⟩, ⟨hsize, hbs⟩, ?_, fun hne => absurd rfl hne⟩
    · rw [h.nil hsize]
    · rw [RidgeMap.entries, hbs]
      exact List.Perm.refl _
  · obtain ⟨e, he, hepoch⟩ := h.evidence hsize
    have hindexed := h.indexed
    have hcurrent := keyEvidenceCurrent_generation now e
    have htraversal := H.traversal_perm m.inner.buckets
    rw [if_neg hsize, he]
    simp only
    cases hwalk : indexedMigrateBuckets (C.migrate now) (H.traversal m.inner.buckets)
        m.inner.buckets false false with
    | error reason =>
      obtain ⟨b, hb, x, hx, hreason⟩ := indexedMigrateBuckets_error _ _ hwalk
      refine ⟨x, ?_, hreason⟩
      exact h.entries.subset (mem_flat.mpr ⟨b, htraversal.subset hb, hx⟩)
    | ok walk =>
      obtain ⟨next, keysChanged, changed⟩ := walk
      have hstart : m.inner.buckets.map (walked (C.migrate now) []) = m.inner.buckets := by
        refine (map_congr_left fun b _ => ?_).trans (map_id _)
        rw [walked, if_neg not_mem_nil]
        rfl
      obtain ⟨hnext, hok, hkeys, hchanged⟩ := indexedMigrateBuckets_ok hindexed.digests
        (H.traversal m.inner.buckets) (fun b hb => htraversal.subset hb) [] (by
          rw [hstart]
          exact hwalk)
      have hall : next = m.inner.buckets.map (migratedBucket (C.migrate now)) := by
        rw [hnext]
        refine map_congr_left fun b hb => ?_
        rw [walked, nil_append, if_pos]
        exact mem_map_of_mem (htraversal.symm.subset hb)
      have hflat : migrateEntries (C.migrate now) (flat m.inner.buckets) = .ok (flat next) := by
        rw [hall]
        exact flat_migrated fun b hb => hok b (htraversal.symm.subset hb)
      simp only
      by_cases hrebuild : keysChanged = true ∨ m.epoch ≠ (keyEvidenceCurrent now e).generation
      · rw [if_pos hrebuild]
        cases hseed : m.inner.seed with
        | none =>
          -- An entry would name a seed.
          refine absurd ?_ hsize
          rw [hindexed.sized]
          refine length_eq_zero_iff.mpr (eq_nil_iff_forall_not_mem.mpr fun x hx => ?_)
          obtain ⟨b, hb, hx⟩ := mem_flat.mp hx
          obtain ⟨seed, hsome, -⟩ := hindexed.keyed b hb x hx
          cases hseed.symm.trans hsome
        | some seed =>
          simp only
          have hlist := typedMapToList_perm (H := H)
            (⟨some seed, m.inner.size, next⟩ : RidgeMap Seed Digest κ α)
          obtain ⟨order, horder, hes⟩ := migrateEntries_perm hflat hlist
          have hmethods : (keyEvidenceCurrent now e).methods = C.methods now :=
            (keyEvidenceCurrent now e).snapshot now hcurrent
          have hempty : Indexed H (C.methods now)
              (⟨some seed, 0, []⟩ : RidgeMap Seed Digest κ α) := indexed_of_nil _ rfl rfl
          obtain ⟨hnew, hperm⟩ := typedMapInsert_fold hempty seed
            (typedMapToList H ⟨some seed, m.inner.size, next⟩)
          rw [hmethods]
          refine (indexedMapWrap_spec hcurrent hnew hperm _).mono id fun m' hm' => ?_
          exact ⟨_, ⟨order, _, horder.trans h.entries, hes, rfl⟩, hm'⟩
      · rw [if_neg hrebuild]
        obtain ⟨hkc, hsame⟩ := not_or.mp hrebuild
        rw [not_eq_true] at hkc
        have hgeneration : r.generation = now := by
          have := (not_not.mp hsame).trans hcurrent
          exact Option.some.inj (hepoch.symm.trans this)
        rw [hgeneration] at hindexed
        have hkept := Indexed.migrated hindexed (f := C.migrate now) fun b hb =>
          (hkeys hkc).2 b (htraversal.symm.subset hb)
        rw [← hall] at hkept
        have hmigrated : Migrated C now r.entries
            (EntryMap.ofList (C.methods now).toKeyEq (flat next)) :=
          ⟨flat m.inner.buckets, flat next, h.entries, hflat, rfl⟩
        have hentries : (flat next).Perm
            (EntryMap.ofList (C.methods now).toKeyEq (flat next)) :=
          (EntryMap.ofList_perm hkept.distinct).symm
        by_cases hc : changed = true
        · rw [if_pos hc]
          refine (indexedMapWrap_spec hcurrent hkept hentries _).mono id fun m' hm' => ?_
          exact ⟨_, hmigrated, hm'⟩
        · rw [if_neg hc]
          have hunchanged := (hchanged (not_eq_true _ ▸ hc)).2
          have hnext' : next = m.inner.buckets := by
            rw [hall]
            refine (map_congr_left fun b hb => ?_).trans (map_id _)
            exact hunchanged b (htraversal.symm.subset hb)
          refine ⟨_, hmigrated, h.coherent, ?_, fun hne => ?_⟩
          · rw [RidgeMap.entries, ← hnext']
            exact hentries
          · rw [h.epoch hne, hgeneration]

theorem indexedMapCurrent_spec (h : Represents H m r) (now : Nat) :
    Delivers (indexedMapCurrent H now m) (fun m' => ∃ r', Refreshed C now r r' ∧ Represents H m' r')
      (Stuck C now r) := by
  rw [indexedMapCurrent]
  by_cases hsize : m.inner.size = 0
  · have hbs := indexed_nil h.indexed hsize
    rw [if_pos hsize, indexedMapWrap_nil hsize hbs]
    refine ⟨_, .current (.inl (h.nil hsize)), ⟨hsize, hbs⟩, h.entries, fun hne => absurd rfl hne⟩
  · obtain ⟨e, he, hepoch⟩ := h.evidence hsize
    rw [if_neg hsize]
    by_cases hnow : m.epoch = some now
    · have hgeneration : r.generation = now := Option.some.inj (hepoch.symm.trans hnow)
      rw [if_pos hnow]
      refine ⟨_, .current (.inr hgeneration), h.coherent, h.entries, fun _ => hnow⟩
    · have hne : r.generation ≠ now := fun heq => hnow (heq ▸ hepoch)
      rw [if_neg hnow]
      refine (indexedMapMigrate_spec h now).mono (fun hun => ⟨hne, hun⟩) fun m' hm' => ?_
      obtain ⟨entries', hmigrated, hm'⟩ := hm'
      exact ⟨_, .migrated hne hmigrated, hm'⟩

theorem indexedMapBind_spec (h : Represents H m r) (now : Nat) (evidence : KeyEvidence C) :
    Delivers (indexedMapBind H now evidence m)
      (fun m' => (∃ e, m'.evidence = some e ∧ e.generation = some now) ∧
        ∃ r', Refreshed C now r r' ∧ Represents H m' r') (Stuck C now r) := by
  have hcurrent := indexedMapCurrent_spec h now
  unfold indexedMapBind
  cases hx : indexedMapCurrent H now m with
  | error fault =>
    rw [hx] at hcurrent
    cases fault with
    | migrationFailed reason | functionClause => exact hcurrent
  | ok m' =>
    rw [hx] at hcurrent
    obtain ⟨r', hr', hm'⟩ := hcurrent
    have hgeneration := hr'.generation
    have hcoherent := hm'.coherent
    rw [IndexedMap.Coherent] at hcoherent
    simp only
    cases he : m'.evidence with
    | none =>
      have hnow := keyEvidenceCurrent_generation now evidence
      rw [he] at hcoherent
      refine ⟨⟨_, rfl, hnow⟩, r', hr', ?_, hm'.entries, fun _ => ?_⟩
      · exact ⟨now, hnow, hnow, indexed_of_nil _ hcoherent.1 hcoherent.2⟩
      · rw [hgeneration]
        exact hnow
    | some e =>
      rw [he] at hcoherent
      obtain ⟨g, heg, hmg, -⟩ := hcoherent
      have hepoch := hm'.epoch (by rw [he]; exact nofun)
      rw [hmg, hgeneration] at hepoch
      exact ⟨⟨e, he, heg.trans hepoch⟩, r', hr', hm'⟩

/-- What an operation works with: current methods, and an index made with them. -/
theorem indexedMapBound_spec (h : Represents H m r) (now : Nat) (evidence : KeyEvidence C) :
    Delivers (indexedMapBound H now evidence m)
      (fun p => p.1.generation = some now ∧ p.1.methods = C.methods now ∧
        ∃ r', Refreshed C now r r' ∧ Indexed H (C.methods now) p.2 ∧ p.2.entries.Perm r'.entries)
      (Stuck C now r) := by
  have hbind := indexedMapBind_spec h now evidence
  unfold indexedMapBound
  cases hx : indexedMapBind H now evidence m with
  | error fault =>
    rw [hx] at hbind
    cases fault with
    | migrationFailed reason => exact hbind
    | functionClause => exact hbind
  | ok m' =>
    rw [hx] at hbind
    obtain ⟨⟨e, he, hnow⟩, r', hr', hm'⟩ := hbind
    have hindexed := hm'.indexed
    rw [hr'.generation] at hindexed
    simp only [he]
    exact ⟨hnow, e.snapshot now hnow, r', hr', hindexed, hm'.entries⟩

end Ridge
