import Ridge.Collections.TypedMap

/-!
# Typed maps — the index and the entries it stands for

`Indexed` is the invariant of the stored structure. Under it every operation does to the entries
what the finite map of the library does, up to their order, and keeps the invariant. The digest is
any function: keys that are not equivalent may share a bucket.
-/

namespace Ridge

open List Option EntryMap

open EntryMap (find Distinct)

variable {Seed Stream Digest κ α β : Type} {H : MapHost Seed Stream Digest} {M : KeyMethods κ Stream}
    {buckets : List (Digest × List (κ × α))} {a m : RidgeMap Seed Digest κ α}
    {b : RidgeMap Seed Digest κ β} {d : Digest}

/-! ## Buckets -/

theorem typedBucketUpdate_eq (E : KeyEq κ) (k : κ) (f : Option α → α) (bucket seen : List (κ × α)) :
    typedBucketUpdate E.eq k f bucket seen
      = (seen.reverse ++ EntryMap.update E k f bucket,
          if (find E k bucket).isSome then 0 else 1) := by
  induction bucket generalizing seen with
  | nil =>
    rw [typedBucketUpdate, reverseAux_eq]
    rfl
  | cons e bucket ih =>
    rw [typedBucketUpdate, EntryMap.update, find_cons]
    by_cases hk : E.eq k e.1 = true
    · rw [if_pos hk, if_pos hk, if_pos hk, reverseAux_eq]
      rfl
    · rw [if_neg hk, if_neg hk, if_neg hk, ih, reverse_cons, append_assoc]
      rfl

theorem typedBucketPut_eq (eq : κ → κ → Bool) (k : κ) (v : α) (bucket seen : List (κ × α)) :
    typedBucketPut eq k v bucket seen = typedBucketUpdate eq k (fun _ => v) bucket seen := by
  induction bucket generalizing seen with
  | nil => rfl
  | cons e bucket ih =>
    rw [typedBucketPut, typedBucketUpdate, ih]

theorem typedBucketGet_eq (E : KeyEq κ) (k : κ) (bucket : List (κ × α)) :
    typedBucketGet E.eq k bucket = EntryMap.get E k bucket := by
  induction bucket with
  | nil => rfl
  | cons e bucket ih =>
    rw [typedBucketGet, EntryMap.get, find_cons]
    by_cases hk : E.eq k e.1 = true
    · rw [if_pos hk, if_pos hk]
      rfl
    · rw [if_neg hk, if_neg hk, ih, EntryMap.get]

theorem typedBucketRemove_eq (E : KeyEq κ) (k : κ) (bucket seen : List (κ × α)) :
    typedBucketRemove E.eq k bucket seen
      = if (find E k bucket).isSome then some (seen.reverse ++ EntryMap.remove E k bucket)
        else none := by
  induction bucket generalizing seen with
  | nil => rfl
  | cons e bucket ih =>
    rw [typedBucketRemove, EntryMap.remove, find_cons]
    by_cases hk : E.eq k e.1 = true
    · rw [if_pos hk, if_pos hk, if_pos hk, reverseAux_eq]
      rfl
    · rw [if_neg hk, if_neg hk, if_neg hk, ih, reverse_cons, append_assoc]
      rfl

theorem typedBucketFilterMap_eq (f : κ → α → Option β) (bucket : List (κ × α))
    (acc : List (κ × β)) (count : Nat) :
    typedBucketFilterMap f bucket acc count
      = (acc.reverse ++ EntryMap.filterMap f bucket,
          count + (EntryMap.filterMap f bucket).length) := by
  induction bucket generalizing acc count with
  | nil =>
    rw [typedBucketFilterMap]
    simp [EntryMap.filterMap]
  | cons e bucket ih =>
    rw [typedBucketFilterMap, EntryMap.filterMap, filterMap_cons]
    cases h : f e.1 e.2 with
    | none =>
      simp only [map_none]
      exact ih acc count
    | some w =>
      simp only [map_some]
      rw [ih, reverse_cons, append_assoc, EntryMap.filterMap, length_cons]
      refine Prod.ext rfl ?_
      show _ + 1 + _ = _
      omega

/-! ## Native maps of buckets -/

def flat (buckets : List (Digest × List (κ × α))) : List (κ × α) := buckets.flatMap (·.2)

theorem flat_cons (b : Digest × List (κ × α)) (buckets : List (Digest × List (κ × α))) :
    flat (b :: buckets) = b.2 ++ flat buckets := flatMap_cons

variable {e : κ × α}

theorem mem_flat :
    e ∈ flat buckets ↔ ∃ b ∈ buckets, e ∈ b.2 := mem_flatMap

theorem flat_perm {a b : List (Digest × List (κ × α))} (h : a.Perm b) :
    (flat a).Perm (flat b) := h.flatMap_right _

theorem typedKeyDigest_congr {k k' : κ} (h : M.eq k k' = true) (seed : Seed) :
    typedKeyDigest H M k seed = typedKeyDigest H M k' seed := by
  rw [typedKeyDigest, typedKeyDigest, M.hash_eq h]

variable [DecidableEq Digest]

theorem exact_eq {d' : Digest} : (KeyEq.exact Digest).eq d d' = true ↔ d = d' :=
  decide_eq_true_iff

theorem flat_split (d : Digest) (buckets : List (Digest × List (κ × α))) :
    (flat buckets).Perm (bucketAt d buckets ++ flat (dropBucket d buckets)) := by
  induction buckets with
  | nil => exact List.Perm.refl _
  | cons b buckets ih =>
    rw [bucketAt, EntryMap.get, find_cons, dropBucket, EntryMap.remove, flat_cons]
    by_cases hd : (KeyEq.exact Digest).eq d b.1 = true
    · rw [if_pos hd, if_pos hd]
      exact List.Perm.refl _
    · rw [if_neg hd, if_neg hd, flat_cons]
      rw [bucketAt, EntryMap.get, dropBucket] at ih
      refine (ih.append_left b.2).trans ?_
      rw [← append_assoc, ← append_assoc]
      exact perm_append_comm.append_right _

theorem flat_put (d : Digest) (bucket : List (κ × α)) (buckets : List (Digest × List (κ × α))) :
    (flat (putBucket d bucket buckets)).Perm (bucket ++ flat (dropBucket d buckets)) := by
  induction buckets with
  | nil =>
    rw [putBucket, EntryMap.insert, EntryMap.update, flat_cons]
    exact List.Perm.refl _
  | cons b buckets ih =>
    rw [putBucket, EntryMap.insert, EntryMap.update, dropBucket, EntryMap.remove]
    by_cases hd : (KeyEq.exact Digest).eq d b.1 = true
    · rw [if_pos hd, if_pos hd, flat_cons]
    · rw [if_neg hd, if_neg hd, flat_cons, flat_cons]
      rw [putBucket, EntryMap.insert, dropBucket] at ih
      refine (ih.append_left b.2).trans ?_
      rw [← append_assoc, ← append_assoc]
      exact perm_append_comm.append_right _

theorem mem_bucketAt (h : e ∈ bucketAt d buckets) : ∃ b ∈ buckets, b.1 = d ∧ e ∈ b.2 := by
  rw [bucketAt, EntryMap.get] at h
  cases hfind : find (.exact Digest) d buckets with
  | none =>
    rw [hfind] at h
    cases h
  | some b =>
    rw [hfind] at h
    obtain ⟨hb, hd⟩ := find_some hfind
    exact ⟨b, hb, (exact_eq.mp hd).symm, h⟩

theorem mem_putBucket {bucket : List (κ × α)} {b : Digest × List (κ × α)}
    (h : b ∈ putBucket d bucket buckets) : (b.1 = d ∧ b.2 = bucket) ∨ b ∈ buckets :=
  (mem_update h).imp_left fun ⟨hd, _, hval⟩ => ⟨(exact_eq.mp hd).symm, hval⟩

theorem mem_dropBucket (hbs : Distinct (.exact Digest) buckets) {b : Digest × List (κ × α)}
    (h : b ∈ dropBucket d buckets) : b ∈ buckets ∧ b.1 ≠ d := by
  refine ⟨(remove_sublist d buckets).subset h, fun hd => ?_⟩
  have hnone : find (.exact Digest) d (dropBucket d buckets) = none := by
    rw [dropBucket, hbs.find_remove, if_pos ((KeyEq.exact Digest).refl d)]
  have hne := find_eq_none_iff.mp hnone b h
  exact nomatch (exact_eq.mpr hd.symm).symm.trans hne

/-! ## The invariant -/

namespace RidgeMap

def entries (m : RidgeMap Seed Digest κ α) : List (κ × α) := flat m.buckets

variable (H M)

/-- One entry a class, each under the digest of its own key; no empty bucket; the size counts
them. -/
structure Indexed (m : RidgeMap Seed Digest κ α) : Prop where
  digests : Distinct (.exact Digest) m.buckets
  nonempty : ∀ b ∈ m.buckets, b.2 ≠ []
  keyed : ∀ b ∈ m.buckets, ∀ e ∈ b.2, ∃ seed, m.seed = some seed ∧ typedKeyDigest H M e.1 seed = b.1
  distinct : Distinct M.toKeyEq m.entries
  sized : m.size = m.entries.length

variable {H M}

theorem Indexed.empty : Indexed H M (typedMapEmpty : RidgeMap Seed Digest κ α) where
  digests := List.Pairwise.nil
  nonempty := nofun
  keyed := nofun
  distinct := List.Pairwise.nil
  sized := rfl

/-- The seed an operation works with is that of every entry. -/
theorem Indexed.keyed_getD (h : Indexed H M m) (fresh : Seed) :
    ∀ b ∈ m.buckets, ∀ e ∈ b.2, typedKeyDigest H M e.1 (m.seed.getD fresh) = b.1 := by
  intro b hb e he
  obtain ⟨seed, hseed, hdigest⟩ := h.keyed b hb e he
  rw [hseed]
  exact hdigest

end RidgeMap

open RidgeMap (Indexed)

variable {seed : Seed}

theorem find_dropBucket (hbs : Distinct (.exact Digest) buckets)
    (hkeyed : ∀ b ∈ buckets, ∀ e ∈ b.2, typedKeyDigest H M e.1 seed = b.1) (k : κ) :
    find M.toKeyEq k (flat (dropBucket (typedKeyDigest H M k seed) buckets)) = none := by
  refine find_eq_none_iff.mpr fun e he => Bool.eq_false_iff.mpr fun hk => ?_
  obtain ⟨b, hb, he⟩ := mem_flat.mp he
  obtain ⟨hb, hne⟩ := mem_dropBucket hbs hb
  exact hne ((hkeyed b hb e he).symm.trans (typedKeyDigest_congr hk seed).symm)

theorem find_bucketAt (hbs : Distinct (.exact Digest) buckets)
    (hkeyed : ∀ b ∈ buckets, ∀ e ∈ b.2, typedKeyDigest H M e.1 seed = b.1)
    (hdistinct : Distinct M.toKeyEq (flat buckets)) (k : κ) :
    find M.toKeyEq k (bucketAt (typedKeyDigest H M k seed) buckets)
      = find M.toKeyEq k (flat buckets) := by
  rw [find_perm (flat_split (typedKeyDigest H M k seed) buckets) hdistinct,
    find_append, find_dropBucket hbs hkeyed, or_none]

/-! ## Queries -/

omit [DecidableEq Digest] in
theorem typedMapToList_perm (m : RidgeMap Seed Digest κ α) :
    (typedMapToList H m).Perm m.entries := by
  have hfold : ∀ (buckets : List (Digest × List (κ × α))) (acc : List (κ × α)),
      (buckets.foldl (fun acc b => b.2.reverseAux acc) acc).Perm (flat buckets ++ acc) := by
    intro buckets
    induction buckets with
    | nil => exact fun acc => List.Perm.refl _
    | cons b buckets ih =>
      intro acc
      rw [foldl_cons, flat_cons, reverseAux_eq]
      refine (ih _).trans ?_
      rw [← append_assoc]
      refine List.Perm.append_right _ (perm_append_comm.trans ?_)
      exact (reverse_perm b.2).append_right _
  rw [typedMapToList]
  refine (hfold _ []).trans ?_
  rw [append_nil]
  exact flat_perm (H.traversal_perm m.buckets)

theorem typedMapGet_eq (h : Indexed H M m) (k : κ) :
    typedMapGet H M k m = EntryMap.get M.toKeyEq k m.entries := by
  rw [typedMapGet]
  by_cases hsize : m.size = 0
  · have hnil : m.entries = [] := length_eq_zero_iff.mp (h.sized.symm.trans hsize)
    rw [if_pos hsize, hnil]
    rfl
  · rw [if_neg hsize]
    cases hseed : m.seed with
    | none =>
      -- An entry would name a seed.
      have hnil : m.entries = [] := eq_nil_iff_forall_not_mem.mpr fun e he => by
        obtain ⟨b, hb, he⟩ := mem_flat.mp he
        obtain ⟨seed, hsome, -⟩ := h.keyed b hb e he
        exact nomatch hseed.symm.trans hsome
      rw [hnil]
      rfl
    | some seed =>
      have hkeyed := h.keyed_getD seed
      rw [hseed] at hkeyed
      show typedBucketGet M.eq k _ = _
      rw [typedBucketGet_eq, EntryMap.get, EntryMap.get]
      exact congrArg _ (find_bucketAt h.digests hkeyed h.distinct k)

theorem typedMapContains_eq (h : Indexed H M m) (k : κ) :
    typedMapContains H M k m = (find M.toKeyEq k m.entries).isSome := by
  rw [typedMapContains, typedMapGet_eq h, EntryMap.get]
  cases find M.toKeyEq k m.entries <;> rfl

/-! ## Updates -/

theorem typedMapInsert_eq (fresh : Seed) (k : κ) (v : α) (m : RidgeMap Seed Digest κ α) :
    typedMapInsert H M fresh k v m = typedMapUpdate H M fresh k (fun _ => v) m := by
  rw [typedMapInsert, typedMapUpdate, typedBucketPut_eq]

theorem typedMapUpdate_entries (h : Indexed H M m) (fresh : Seed) (k : κ) (f : Option α → α) :
    (typedMapUpdate H M fresh k f m).entries.Perm (EntryMap.update M.toKeyEq k f m.entries) := by
  have hkeyed := h.keyed_getD fresh
  generalize hseed : m.seed.getD fresh = seed at hkeyed
  have hentries : (typedMapUpdate H M fresh k f m).entries
      = flat (putBucket (typedKeyDigest H M k seed) (EntryMap.update M.toKeyEq k f
          (bucketAt (typedKeyDigest H M k seed) m.buckets)) m.buckets) := by
    simp only [typedMapUpdate, typedBucketUpdate_eq, hseed]
    rfl
  have hrest := find_dropBucket h.digests hkeyed k
  rw [hentries]
  refine (flat_put _ _ _).trans ?_
  refine (update_append f _ hrest).symm.trans ?_
  exact (update_perm (flat_split _ m.buckets) h.distinct k f).symm

theorem typedMapUpdate_indexed (h : Indexed H M m) (fresh : Seed) (k : κ) (f : Option α → α) :
    Indexed H M (typedMapUpdate H M fresh k f m) := by
  have hperm := typedMapUpdate_entries h fresh k f
  have hkeyed := h.keyed_getD fresh
  have hform : typedMapUpdate H M fresh k f m
      = ⟨some (m.seed.getD fresh),
          m.size + if (find M.toKeyEq k
            (bucketAt (typedKeyDigest H M k (m.seed.getD fresh)) m.buckets)).isSome then 0 else 1,
          putBucket (typedKeyDigest H M k (m.seed.getD fresh)) (EntryMap.update M.toKeyEq k f
            (bucketAt (typedKeyDigest H M k (m.seed.getD fresh)) m.buckets)) m.buckets⟩ := by
    simp only [typedMapUpdate, typedBucketUpdate_eq]
    rfl
  generalize m.seed.getD fresh = seed at hform hkeyed
  refine ⟨?_, ?_, ?_, ?_, ?_⟩
  · rw [hform]
    exact h.digests.update _ _
  · rw [hform]
    intro b hb
    rcases mem_putBucket hb with ⟨-, hb⟩ | hb
    · rw [hb]
      intro hnil
      have hlen := length_update (E := M.toKeyEq) k f
        (bucketAt (typedKeyDigest H M k seed) m.buckets)
      rw [hnil] at hlen
      cases hfind : find M.toKeyEq k (bucketAt (typedKeyDigest H M k seed) m.buckets) with
      | none =>
        rw [hfind] at hlen
        cases hlen
      | some e =>
        have hpos := length_pos_of_mem (find_some hfind).1
        rw [length_nil] at hlen
        omega
    · exact h.nonempty b hb
  · rw [hform]
    intro b hb e he
    refine ⟨seed, rfl, ?_⟩
    rcases mem_putBucket hb with ⟨hd, hval⟩ | hb
    · rw [hval] at he
      rw [hd]
      rcases mem_update he with ⟨hk, -⟩ | he
      · exact (typedKeyDigest_congr hk seed).symm
      · obtain ⟨b', hb', hd', he'⟩ := mem_bucketAt he
        rw [← hd']
        exact hkeyed b' hb' e he'
    · exact hkeyed b hb e he
  · exact distinct_perm hperm.symm (h.distinct.update k f)
  · rw [hperm.length_eq, length_update, hform, ← h.sized,
      find_bucketAt h.digests hkeyed h.distinct]
    rfl

theorem typedMapInsert_fold (h : Indexed H M m) (fresh : Seed) (l : List (κ × α)) :
    Indexed H M (l.foldl (fun m e => typedMapInsert H M fresh e.1 e.2 m) m) ∧
      (l.foldl (fun m e => typedMapInsert H M fresh e.1 e.2 m) m).entries.Perm
        (EntryMap.merge M.toKeyEq m.entries l) := by
  induction l generalizing m with
  | nil => exact ⟨h, List.Perm.refl _⟩
  | cons e l ih =>
    rw [foldl_cons, typedMapInsert_eq]
    have hstep := typedMapUpdate_indexed h fresh e.1 fun _ => e.2
    obtain ⟨hindexed, hperm⟩ := ih hstep
    refine ⟨hindexed, hperm.trans ?_⟩
    exact merge_perm_left (typedMapUpdate_entries h fresh e.1 _) hstep.distinct l

theorem typedMapFromList_spec (fresh : Seed) (pairs : List (κ × α)) :
    Indexed H M (typedMapFromList H M fresh pairs) ∧
      (typedMapFromList H M fresh pairs).entries.Perm (EntryMap.ofList M.toKeyEq pairs) :=
  typedMapInsert_fold Indexed.empty fresh pairs

theorem typedMapMerge_spec {b : RidgeMap Seed Digest κ α} (ha : Indexed H M a) (hb : Indexed H M b)
    (fresh : Seed) :
    Indexed H M (typedMapMerge H M fresh a b) ∧
      (typedMapMerge H M fresh a b).entries.Perm
        (EntryMap.merge M.toKeyEq a.entries b.entries) := by
  rw [typedMapMerge]
  by_cases hsize : a.size = 0
  · have hnil : a.entries = [] := length_eq_zero_iff.mp (ha.sized.symm.trans hsize)
    rw [if_pos hsize, hnil]
    exact ⟨hb, (ofList_perm hb.distinct).symm⟩
  · have hfold : ∀ (buckets : List (Digest × List (κ × α))) (m : RidgeMap Seed Digest κ α),
        buckets.foldl (fun acc bucket =>
            bucket.2.foldl (fun m e => typedMapInsert H M fresh e.1 e.2 m) acc) m
          = (flat buckets).foldl (fun m e => typedMapInsert H M fresh e.1 e.2 m) m := by
      intro buckets
      induction buckets with
      | nil => exact fun m => rfl
      | cons bucket buckets ih =>
        intro m
        rw [foldl_cons, flat_cons, foldl_append, ih]
    rw [if_neg hsize, hfold]
    obtain ⟨hindexed, hperm⟩ := typedMapInsert_fold ha fresh (flat (H.traversal b.buckets))
    have htraversal : (flat (H.traversal b.buckets)).Perm b.entries :=
      flat_perm (H.traversal_perm b.buckets)
    refine ⟨hindexed, hperm.trans ?_⟩
    exact merge_perm (List.Perm.refl _) htraversal ha.distinct
      (distinct_perm htraversal.symm hb.distinct)

/-! ## Removals -/

/-- A removal leaves the map, or takes the entry out of its bucket, or the bucket out of the index. -/
theorem typedMapRemove_cases (k : κ) (hd : typedKeyDigest H M k seed = d) (hsize : m.size ≠ 0)
    (hseed : m.seed = some seed) :
    find M.toKeyEq k (bucketAt d m.buckets) = none ∧ typedMapRemove H M k m = m ∨
    (find M.toKeyEq k (bucketAt d m.buckets)).isSome = true ∧
      (typedMapRemove H M k m).seed = some seed ∧ (typedMapRemove H M k m).size = m.size - 1 ∧
      (EntryMap.remove M.toKeyEq k (bucketAt d m.buckets) = [] ∧
          (typedMapRemove H M k m).buckets = dropBucket d m.buckets ∨
        EntryMap.remove M.toKeyEq k (bucketAt d m.buckets) ≠ [] ∧
          (typedMapRemove H M k m).buckets
            = putBucket d (EntryMap.remove M.toKeyEq k (bucketAt d m.buckets)) m.buckets) := by
  subst hd
  rw [typedMapRemove, if_neg hsize, hseed]
  simp only [typedBucketRemove_eq]
  cases hfind : find M.toKeyEq k (bucketAt (typedKeyDigest H M k seed) m.buckets) with
  | none => exact .inl ⟨rfl, rfl⟩
  | some e =>
    refine .inr ⟨rfl, ?_⟩
    rw [isSome_some, if_pos rfl, reverse_nil, nil_append]
    cases hbucket : EntryMap.remove M.toKeyEq k
        (bucketAt (typedKeyDigest H M k seed) m.buckets) with
    | nil => exact ⟨rfl, rfl, .inl ⟨rfl, rfl⟩⟩
    | cons x rest => exact ⟨rfl, rfl, .inr ⟨cons_ne_nil _ _, rfl⟩⟩

theorem typedMapRemove_spec (h : Indexed H M m) (k : κ) :
    Indexed H M (typedMapRemove H M k m) ∧
      (typedMapRemove H M k m).entries.Perm (EntryMap.remove M.toKeyEq k m.entries) := by
  by_cases hsize : m.size = 0
  · have hnil : m.entries = [] := length_eq_zero_iff.mp (h.sized.symm.trans hsize)
    rw [typedMapRemove, if_pos hsize]
    refine ⟨h, ?_⟩
    rw [hnil]
    exact List.Perm.refl _
  · obtain ⟨e, he⟩ : ∃ e, e ∈ m.entries := by
      refine exists_mem_of_ne_nil _ fun hnil => hsize ?_
      rw [h.sized, hnil]
      rfl
    obtain ⟨b, hb, heb⟩ := mem_flat.mp he
    obtain ⟨seed, hseed, -⟩ := h.keyed b hb e heb
    have hkeyed := h.keyed_getD seed
    rw [hseed, getD_some] at hkeyed
    have hbucket := find_bucketAt h.digests hkeyed h.distinct k
    generalize hd : typedKeyDigest H M k seed = d at hbucket
    rcases typedMapRemove_cases k hd hsize hseed with
      ⟨hnone, hsame⟩ | ⟨hsome, hseed', hsize', hcases⟩
    · rw [hsame]
      refine ⟨h, ?_⟩
      rw [RidgeMap.entries, remove_of_find_none (hbucket.symm.trans hnone)]
    · have hrest : find M.toKeyEq k (flat (dropBucket d m.buckets)) = none :=
        hd ▸ find_dropBucket h.digests hkeyed k
      have hentries : (typedMapRemove H M k m).entries.Perm
          (EntryMap.remove M.toKeyEq k (bucketAt d m.buckets) ++ flat (dropBucket d m.buckets)) := by
        rcases hcases with ⟨hnil, hbs⟩ | ⟨-, hbs⟩
        · rw [RidgeMap.entries, hbs, hnil]
          exact List.Perm.refl _
        · rw [RidgeMap.entries, hbs]
          exact flat_put _ _ _
      have hperm : (typedMapRemove H M k m).entries.Perm
          (EntryMap.remove M.toKeyEq k m.entries) := by
        refine hentries.trans ?_
        rw [← remove_append _ hrest]
        exact (remove_perm (flat_split d m.buckets) h.distinct k).symm
      refine ⟨⟨?_, ?_, ?_, ?_, ?_⟩, hperm⟩
      · rcases hcases with ⟨-, hbs⟩ | ⟨-, hbs⟩
        · rw [hbs]
          exact h.digests.remove d
        · rw [hbs]
          exact h.digests.update d _
      · rcases hcases with ⟨-, hbs⟩ | ⟨hne, hbs⟩
        · rw [hbs]
          exact fun b hb => h.nonempty b (mem_dropBucket h.digests hb).1
        · rw [hbs]
          intro b hb
          rcases mem_putBucket hb with ⟨-, hval⟩ | hb
          · rw [hval]
            exact hne
          · exact h.nonempty b hb
      · have hold : ∀ b ∈ m.buckets, ∀ e ∈ b.2, ∃ seed, (typedMapRemove H M k m).seed = some seed ∧
            typedKeyDigest H M e.1 seed = b.1 :=
          fun b hb e he => ⟨seed, hseed', hkeyed b hb e he⟩
        rcases hcases with ⟨-, hbs⟩ | ⟨-, hbs⟩
        · rw [hbs]
          exact fun b hb => hold b (mem_dropBucket h.digests hb).1
        · rw [hbs]
          intro b hb e he
          rcases mem_putBucket hb with ⟨hd', hval⟩ | hb
          · rw [hval] at he
            obtain ⟨b', hb', hd'', he'⟩ :=
              mem_bucketAt ((remove_sublist k _).subset he)
            rw [hd', ← hd'']
            exact hold b' hb' e he'
          · exact hold b hb e he
      · exact distinct_perm hperm.symm (h.distinct.remove k)
      · rw [hbucket] at hsome
        rw [hsize', hperm.length_eq, length_remove, h.sized, RidgeMap.entries,
          if_pos hsome]

/-! ## Transformations -/

omit [DecidableEq Digest] in
theorem flat_map (f : κ → α → β) (buckets : List (Digest × List (κ × α))) :
    flat (buckets.map fun b => (b.1, b.2.map fun e => (e.1, f e.1 e.2)))
      = (flat buckets).map fun e => (e.1, f e.1 e.2) := by
  induction buckets with
  | nil => rfl
  | cons b buckets ih => rw [map_cons, flat_cons, flat_cons, map_append, ih]

theorem typedMapMap_spec (h : Indexed H M m) (f : κ → α → β) :
    Indexed H M (typedMapMap f m) ∧
      (typedMapMap f m).entries = m.entries.map fun e => (e.1, f e.1 e.2) := by
  have hentries : (typedMapMap f m).entries = m.entries.map fun e => (e.1, f e.1 e.2) :=
    flat_map f m.buckets
  refine ⟨⟨pairwise_map.mpr h.digests, ?_, ?_, ?_, ?_⟩, hentries⟩
  · intro b hb
    obtain ⟨b', hb', rfl⟩ := mem_map.mp hb
    exact fun hnil => h.nonempty b' hb' (map_eq_nil_iff.mp hnil)
  · intro b hb e he
    obtain ⟨b', hb', rfl⟩ := mem_map.mp hb
    obtain ⟨e', he', rfl⟩ := mem_map.mp he
    exact h.keyed b' hb' e' he'
  · rw [hentries]
    exact pairwise_map.mpr h.distinct
  · rw [hentries, length_map]
    exact h.sized

/-- What `typed_map_filter_map` keeps of a bucket, if anything. -/
def keptBuckets (f : κ → α → Option β) (buckets : List (Digest × List (κ × α))) :
    List (Digest × List (κ × β)) :=
  (buckets.map fun b => (b.1, EntryMap.filterMap f b.2)).filter fun b => !b.2.isEmpty

theorem putBucket_new (bucket : List (κ × α)) (h : ∀ b ∈ buckets, b.1 ≠ d) :
    putBucket d bucket buckets = buckets ++ [(d, bucket)] := by
  induction buckets with
  | nil => rfl
  | cons b buckets ih =>
    have hne : ¬ (KeyEq.exact Digest).eq d b.1 = true := fun hd =>
      h b mem_cons_self (exact_eq.mp hd).symm
    have hrest := ih fun b hb => h b (mem_cons_of_mem _ hb)
    rw [putBucket, EntryMap.insert] at hrest ⊢
    rw [EntryMap.update, if_neg hne, hrest, cons_append]

theorem typedFilterStep_fold (f : κ → α → Option β) (buckets : List (Digest × List (κ × α)))
    (hbs : Distinct (.exact Digest) buckets) (acc : List (Digest × List (κ × β)) × Nat)
    (hnew : ∀ b ∈ buckets, ∀ b' ∈ acc.1, b'.1 ≠ b.1) :
    buckets.foldl (typedFilterStep f) acc
      = (acc.1 ++ keptBuckets f buckets, acc.2 + (flat (keptBuckets f buckets)).length) := by
  induction buckets generalizing acc with
  | nil => simp [keptBuckets, flat]
  | cons b buckets ih =>
    obtain ⟨hhead, htail⟩ := Distinct.cons_iff.mp hbs
    have hb : b.1 ≠ b.1 → False := fun h => h rfl
    rw [foldl_cons, typedFilterStep, typedBucketFilterMap_eq, keptBuckets, map_cons]
    simp only [reverse_nil, nil_append, Nat.zero_add]
    cases hkept : EntryMap.filterMap f b.2 with
    | nil =>
      rw [filter_cons_of_neg (by simp), ← keptBuckets]
      exact ih htail acc fun b' hb' => hnew b' (mem_cons_of_mem _ hb')
    | cons x rest =>
      rw [filter_cons_of_pos (by simp), ← keptBuckets, flat_cons,
        putBucket_new _ (hnew b mem_cons_self), ih htail]
      · simp only [append_assoc, singleton_append, length_append]
        rw [Nat.add_assoc]
      · intro b' hb' x' hx'
        rcases mem_append.mp hx' with hx' | hx'
        · exact hnew b' (mem_cons_of_mem _ hb') x' hx'
        · rw [mem_singleton] at hx'
          rw [hx']
          exact fun heq => nomatch (exact_eq.mpr heq).symm.trans (hhead b' hb')

omit [DecidableEq Digest] in
theorem flat_kept (f : κ → α → Option β) (buckets : List (Digest × List (κ × α))) :
    flat (keptBuckets f buckets) = EntryMap.filterMap f (flat buckets) := by
  induction buckets with
  | nil => rfl
  | cons b buckets ih =>
    have happend : EntryMap.filterMap f (flat (b :: buckets))
        = EntryMap.filterMap f b.2 ++ EntryMap.filterMap f (flat buckets) := by
      rw [flat_cons]
      exact filterMap_append
    rw [happend, ← ih, keptBuckets, map_cons]
    cases hkept : EntryMap.filterMap f b.2 with
    | nil =>
      rw [filter_cons_of_neg (by simp)]
      rfl
    | cons x rest =>
      rw [filter_cons_of_pos (by simp), flat_cons]
      rfl

theorem typedMapFilterMap_spec (h : Indexed H M m) (f : κ → α → Option β) :
    Indexed H M (typedMapFilterMap H f m) ∧
      (typedMapFilterMap H f m).entries.Perm (EntryMap.filterMap f m.entries) := by
  have htraversal := H.traversal_perm m.buckets
  have hbs : Distinct (.exact Digest) (H.traversal m.buckets) :=
    distinct_perm htraversal.symm h.digests
  have hform : typedMapFilterMap H f m = ⟨m.seed,
      (flat (keptBuckets f (H.traversal m.buckets))).length,
      keptBuckets f (H.traversal m.buckets)⟩ := by
    rw [typedMapFilterMap, typedFilterStep_fold f _ hbs ([], 0) fun _ _ _ => nofun]
    simp only [nil_append, Nat.zero_add]
  have hentries : (typedMapFilterMap H f m).entries.Perm (EntryMap.filterMap f m.entries) := by
    rw [hform]
    show (flat (keptBuckets f (H.traversal m.buckets))).Perm _
    rw [flat_kept]
    exact filterMap_perm (flat_perm htraversal) f
  have hmem : ∀ b ∈ keptBuckets f (H.traversal m.buckets), b.2 ≠ [] ∧
      ∃ b' ∈ m.buckets, b'.1 = b.1 ∧ b.2 = EntryMap.filterMap f b'.2 := by
    intro b hb
    obtain ⟨hb, hne⟩ := mem_filter.mp hb
    obtain ⟨b', hb', rfl⟩ := mem_map.mp hb
    refine ⟨fun hnil => ?_, b', htraversal.subset hb', rfl, rfl⟩
    rw [hnil] at hne
    cases hne
  refine ⟨⟨?_, ?_, ?_, ?_, ?_⟩, hentries⟩
  · rw [hform]
    exact List.Pairwise.sublist filter_sublist (pairwise_map.mpr hbs)
  · rw [hform]
    exact fun b hb => (hmem b hb).1
  · rw [hform]
    intro b hb e he
    obtain ⟨-, b', hb', hd, hval⟩ := hmem b hb
    rw [hval] at he
    obtain ⟨e', he', hsome⟩ := mem_filterMap.mp he
    obtain ⟨w, -, rfl⟩ := map_eq_some_iff.mp hsome
    rw [← hd]
    exact h.keyed b' hb' e' he'
  · exact distinct_perm hentries.symm (h.distinct.filterMap f)
  · rw [hform]
    rfl

theorem filterMap_ite (p : κ → α → Bool) (m : List (κ × α)) :
    EntryMap.filterMap (fun k v => if p k v then some v else none) m
      = m.filter fun e => p e.1 e.2 := by
  induction m with
  | nil => rfl
  | cons e m ih =>
    rw [EntryMap.filterMap] at ih ⊢
    rw [filterMap_cons, ih, filter_cons]
    cases p e.1 e.2 <;> rfl

theorem typedMapFilter_spec (h : Indexed H M m) (p : κ → α → Bool) :
    Indexed H M (typedMapFilter H p m) ∧
      (typedMapFilter H p m).entries.Perm (m.entries.filter fun e => p e.1 e.2) := by
  rw [← filterMap_ite]
  exact typedMapFilterMap_spec h _

/-! ## Equality -/

theorem typedBucketEqual_eq (R : α → β → Bool) (b : RidgeMap Seed Digest κ β)
    (bucket : List (κ × α)) :
    typedBucketEqual H M R b bucket
      = bucket.all fun e => match typedMapGet H M e.1 b with
        | none => false
        | some w => R e.2 w := by
  induction bucket with
  | nil => rfl
  | cons e bucket ih =>
    rw [typedBucketEqual, all_cons, ih]
    cases typedMapGet H M e.1 b <;> rfl

theorem typedMapBucketsEqual_eq (R : α → β → Bool) (b : RidgeMap Seed Digest κ β)
    (buckets : List (Digest × List (κ × α))) :
    typedMapBucketsEqual H M R b buckets = typedBucketEqual H M R b (flat buckets) := by
  induction buckets with
  | nil => rfl
  | cons bucket buckets ih =>
    rw [typedMapBucketsEqual, ih, typedBucketEqual_eq, typedBucketEqual_eq, typedBucketEqual_eq,
      flat_cons, all_append]

/-- Map equality compares the finite maps, whatever the seeds and the order of insertion. -/
theorem typedMapEq_iff (ha : Indexed H M a) (hb : Indexed H M b) (R : α → β → Bool) :
    typedMapEq H M R a b = true
      ↔ EntryMap.Same M.toKeyEq (fun v w => R v w = true) a.entries b.entries := by
  have htraversal : (flat (H.traversal a.buckets)).Perm a.entries :=
    flat_perm (H.traversal_perm a.buckets)
  rw [typedMapEq, typedMapBucketsEqual_eq, typedBucketEqual_eq, htraversal.all_eq]
  simp only [typedMapGet_eq hb]
  have hsizes : a.size = b.size ↔ a.entries.length = b.entries.length := by
    rw [ha.sized, hb.sized]
  constructor
  · intro h
    split at h
    · rename_i hsize
      have hlen := hsizes.mp hsize
      have hall := all_eq_true.mp h
      have hcover : ∀ e ∈ a.entries, (find M.toKeyEq e.1 b.entries).isSome = true := by
        intro e he
        have hget := hall e he
        rw [EntryMap.get] at hget
        cases hfind : find M.toKeyEq e.1 b.entries with
        | none =>
          rw [hfind] at hget
          cases hget
        | some y => rfl
      have hback := ha.distinct.covers hb.distinct (Nat.le_of_eq hlen.symm) hcover
      intro k
      rw [EntryMap.get, EntryMap.get]
      cases hk : find M.toKeyEq k a.entries with
      | none =>
        cases hk' : find M.toKeyEq k b.entries with
        | none => trivial
        | some y =>
          obtain ⟨hy, hky⟩ := find_some hk'
          have hsome := hback y hy
          rw [← find_congr hky, hk] at hsome
          cases hsome
      | some e =>
        obtain ⟨he, hke⟩ := find_some hk
        have hget := hall e he
        rw [EntryMap.get, ← find_congr hke] at hget
        cases hk' : find M.toKeyEq k b.entries with
        | none =>
          rw [hk'] at hget
          cases hget
        | some y =>
          rw [hk'] at hget
          exact hget
    · cases h
  · intro h
    have hpoint : ∀ e ∈ a.entries, ∃ y, find M.toKeyEq e.1 b.entries = some y ∧ R e.2 y.2 = true := by
      intro e he
      have hsame := h e.1
      rw [EntryMap.get, EntryMap.get, ha.distinct.find_of_mem he (M.refl e.1)] at hsame
      cases hfind : find M.toKeyEq e.1 b.entries with
      | none =>
        rw [hfind] at hsame
        cases hsame
      | some y =>
        rw [hfind] at hsame
        exact ⟨y, rfl, hsame⟩
    have hback : ∀ y ∈ b.entries, (find M.toKeyEq y.1 a.entries).isSome = true := by
      intro y hy
      have hsame := h y.1
      rw [EntryMap.get, EntryMap.get, hb.distinct.find_of_mem hy (M.refl y.1)] at hsame
      cases hfind : find M.toKeyEq y.1 a.entries with
      | none =>
        rw [hfind] at hsame
        cases hsame
      | some e => rfl
    have hle := ha.distinct.length_le hb.distinct fun e he => by
      obtain ⟨y, hy, -⟩ := hpoint e he
      rw [hy]
      rfl
    have hge := hb.distinct.length_le ha.distinct hback
    rw [if_pos (hsizes.mpr (Nat.le_antisymm hle hge))]
    refine all_eq_true.mpr fun e he => ?_
    obtain ⟨y, hy, hR⟩ := hpoint e he
    rw [EntryMap.get, hy]
    exact hR

/-! ## Sets -/

/-- What is in `a`, and in `b` or not. -/
theorem typedSetFilter_spec (ha : Indexed H M a) (hb : Indexed H M b) (p : Bool → Bool) :
    Indexed H M (typedMapFilter H (fun k _ => p (typedMapContains H M k b)) a) ∧ ∀ x, (find M.toKeyEq x
        (typedMapFilter H (fun k _ => p (typedMapContains H M k b)) a).entries).isSome
      = ((find M.toKeyEq x a.entries).isSome && p (find M.toKeyEq x b.entries).isSome) := by
  obtain ⟨hnew, hperm⟩ := typedMapFilter_spec ha fun k _ => p (typedMapContains H M k b)
  refine ⟨hnew, fun x => ?_⟩
  have hcongr : ∀ k, M.eq x k = true →
      typedMapContains H M k b = (find M.toKeyEq x b.entries).isSome := by
    intro k hk
    rw [typedMapContains_eq hb, find_congr hk]
  rw [find_perm hperm hnew.distinct, Bool.eq_iff_iff, Bool.and_eq_true, find, find?_isSome, find,
    find?_isSome]
  constructor
  · rintro ⟨e, he, hx⟩
    obtain ⟨he, hp⟩ := mem_filter.mp he
    exact ⟨⟨e, he, hx⟩, hcongr e.1 hx ▸ hp⟩
  · rintro ⟨⟨e, he, hx⟩, hp⟩
    exact ⟨e, mem_filter.mpr ⟨he, (hcongr e.1 hx).symm ▸ hp⟩, hx⟩

theorem typedSetEq_iff (ha : Indexed H M a) (hb : Indexed H M b) :
    typedSetEq H M a b = true
      ↔ ∀ k, (find M.toKeyEq k a.entries).isSome = (find M.toKeyEq k b.entries).isSome := by
  rw [typedSetEq, typedMapEq_iff ha hb, EntryMap.Same]
  refine forall_congr' fun k => ?_
  rw [EntryMap.get, EntryMap.get]
  cases find M.toKeyEq k a.entries <;> cases find M.toKeyEq k b.entries <;> simp

/-- Sets built from sets; whatever may have to draw a seed comes with one. -/
inductive SetTerm (Seed κ : Type) where
  | empty
  | insert (fresh : Seed) (k : κ) (s : SetTerm Seed κ)
  | remove (k : κ) (s : SetTerm Seed κ)
  | union (fresh : Seed) (a b : SetTerm Seed κ)
  | intersection (a b : SetTerm Seed κ)
  | difference (a b : SetTerm Seed κ)

/-- The set that is meant, up to the equality of the keys. -/
def SetTerm.has (E : KeyEq κ) (x : κ) : SetTerm Seed κ → Bool
  | .empty => false
  | .insert _ k s => E.eq k x || s.has E x
  | .remove k s => !E.eq k x && s.has E x
  | .union _ a b => a.has E x || b.has E x
  | .intersection a b => a.has E x && b.has E x
  | .difference a b => a.has E x && !b.has E x

def SetTerm.eval (H : MapHost Seed Stream Digest) (M : KeyMethods κ Stream) :
    SetTerm Seed κ → RidgeMap Seed Digest κ Bool
  | .empty => typedMapEmpty
  | .insert fresh k s => typedMapInsert H M fresh k true (s.eval H M)
  | .remove k s => typedMapRemove H M k (s.eval H M)
  | .union fresh a b => typedMapMerge H M fresh (a.eval H M) (b.eval H M)
  | .intersection a b => typedSetIntersection H M (a.eval H M) (b.eval H M)
  | .difference a b => typedSetDifference H M (a.eval H M) (b.eval H M)

theorem SetTerm.eval_spec (t : SetTerm Seed κ) : Indexed H M (t.eval H M) ∧
    ∀ x, (find M.toKeyEq x (t.eval H M).entries).isSome = t.has M.toKeyEq x := by
  induction t with
  | empty => exact ⟨.empty, fun _ => rfl⟩
  | insert fresh k s ih =>
    have hnew := typedMapUpdate_indexed ih.1 fresh k fun _ => true
    rw [eval, typedMapInsert_eq]
    refine ⟨hnew, fun x => ?_⟩
    rw [find_perm (typedMapUpdate_entries ih.1 fresh k _) hnew.distinct, find_update, has, ← ih.2]
    split <;> simp_all
  | remove k s ih =>
    obtain ⟨hnew, hperm⟩ := typedMapRemove_spec ih.1 k
    refine ⟨hnew, fun x => ?_⟩
    rw [eval, find_perm hperm hnew.distinct, ih.1.distinct.find_remove, has, ← ih.2]
    split <;> simp_all
  | union fresh a b iha ihb =>
    obtain ⟨hnew, hperm⟩ := typedMapMerge_spec iha.1 ihb.1 fresh
    refine ⟨hnew, fun x => ?_⟩
    rw [eval, find_perm hperm hnew.distinct, find_merge _ ihb.1.distinct, has, ← iha.2, ← ihb.2]
    split <;> simp_all
  | intersection a b iha ihb =>
    obtain ⟨hnew, hfind⟩ := typedSetFilter_spec iha.1 ihb.1 id
    refine ⟨hnew, fun x => ?_⟩
    rw [has, ← iha.2, ← ihb.2]
    exact hfind x
  | difference a b iha ihb =>
    obtain ⟨hnew, hfind⟩ := typedSetFilter_spec iha.1 ihb.1 (! ·)
    refine ⟨hnew, fun x => ?_⟩
    rw [has, ← iha.2, ← ihb.2]
    exact hfind x

/-- Of a set nothing shows but what it contains: no seed, digest, collision or order of the host's.
It answers for the keys it should contain, lists one key of each class, counts these, and is equal
to another exactly when they contain the same. -/
theorem typed_sets_extensional (H : MapHost Seed Stream Digest) (M : KeyMethods κ Stream)
    (s t : SetTerm Seed κ) :
    (∀ x, typedMapContains H M x (s.eval H M) = s.has M.toKeyEq x) ∧
      (∀ x, ((typedMapToList H (s.eval H M)).any fun e => M.eq x e.1) = s.has M.toKeyEq x) ∧
      Distinct M.toKeyEq (typedMapToList H (s.eval H M)) ∧
      typedMapSize (s.eval H M) = (typedMapToList H (s.eval H M)).length ∧
      (typedSetEq H M (s.eval H M) (t.eval H M) = true
        ↔ ∀ x, s.has M.toKeyEq x = t.has M.toKeyEq x) := by
  obtain ⟨hs, hhas⟩ := s.eval_spec (H := H) (M := M)
  obtain ⟨ht, hhas'⟩ := t.eval_spec (H := H) (M := M)
  have hperm := typedMapToList_perm (H := H) (s.eval H M)
  refine ⟨fun x => (typedMapContains_eq hs x).trans (hhas x), fun x => ?_,
    distinct_perm hperm.symm hs.distinct, ?_, ?_⟩
  · rw [hperm.any_eq, ← hhas, find, isSome_find?]
  · rw [typedMapSize, hs.sized, hperm.length_eq]
  · simp only [typedSetEq_iff hs ht, hhas, hhas']

end Ridge
