import Mathlib.Data.List.Perm.Basic
import Mathlib.Data.List.Sort
import Mathlib.Data.List.Destutter

/-!
# Keyed lists

Association lists over a linearly ordered key type, in the style of a `Vec<(K, V)>` that is
kept sorted and duplicate-free by hand. A list is read through `lastOf`, the value written
last under a key, so that shadowing is what normalisation must preserve:

* `normalise` — reverse, sort stably, keep the first of each run. Its result is strictly
  increasing in the key and answers `lookup` exactly as the input answers `lastOf`.
* `split` — the two-pointer walk over two sorted lists that separates the entries they share
  from the entries only one of them has.

`split_lastOf` is the fact a merge of two such lists rests on: writing the entries only the
right list has after the left one, and the other way round, gives the same last writes.
-/

/-!
## Lib — finding a record by its key

A list of records read by `find?` on one of their fields. When no two records share the key, the
record found is the one that has it, whatever the order of the list.
-/

namespace Ridge

open List

variable {α κ : Type*} [DecidableEq κ] {key : α → κ} {l l' : List α} {k : κ} {a : α}

theorem find?_key_eq_none_iff : l.find? (key · = k) = none ↔ k ∉ l.map key := by
  simp

theorem find?_key_some (h : l.find? (key · = k) = some a) : a ∈ l ∧ key a = k :=
  ⟨mem_of_find?_eq_some h, by simpa using find?_some h⟩

omit [DecidableEq κ] in
/-- Two records of a list without repeated keys that share their key are one. -/
theorem eq_of_key_eq (h : (l.map key).Nodup) {b : α} (ha : a ∈ l) (hb : b ∈ l)
    (hkey : key a = key b) : a = b :=
  inj_on_of_nodup_map h ha hb hkey

theorem find?_key_of_mem (h : (l.map key).Nodup) (ha : a ∈ l) :
    l.find? (key · = key a) = some a := by
  cases hfind : l.find? (key · = key a) with
  | none => exact absurd (mem_map_of_mem ha) (find?_key_eq_none_iff.mp hfind)
  | some b =>
    obtain ⟨hb, hkey⟩ := find?_key_some hfind
    rw [eq_of_key_eq h hb ha hkey]

theorem find?_key_eq_some_iff (h : (l.map key).Nodup) :
    l.find? (key · = k) = some a ↔ a ∈ l ∧ key a = k := by
  constructor
  · exact find?_key_some
  · rintro ⟨ha, rfl⟩
    exact find?_key_of_mem h ha

omit [DecidableEq κ] in
/-- In a list without repeated keys, the key of an element is neither before nor after it. -/
theorem key_notMem_of_split (h : (l.map key).Nodup) {pre post : List α}
    (hsplit : l = pre ++ a :: post) : key a ∉ pre.map key ∧ key a ∉ post.map key := by
  rw [hsplit, map_append, map_cons, nodup_append] at h
  obtain ⟨-, hpost, hdisj⟩ := h
  refine ⟨fun hmem => hdisj _ hmem _ mem_cons_self rfl, ?_⟩
  exact (nodup_cons.mp hpost).1

end Ridge

namespace Ridge.KeyedList

open List Option

variable {κ : Type*} [LinearOrder κ] {α β : Type*} {l : List (κ × α)}

/-- The value written last under `k`. -/
def lastOf (k : κ) (l : List (κ × α)) : Option α := l.reverse.lookup k

/-- Stable sort by key. -/
def sort (l : List (κ × α)) : List (κ × α) := l.insertionSort fun a b => a.1 ≤ b.1

/-- Drop every entry whose key equals that of the entry kept before it. -/
def dedup (l : List (κ × α)) : List (κ × α) := l.destutter fun a b => a.1 ≠ b.1

/-- Sort by key and drop earlier duplicates: the last write under a key wins. -/
def normalise (l : List (κ × α)) : List (κ × α) := dedup (sort l.reverse)

/-! ## Last writes -/

@[simp] theorem lastOf_nil (k : κ) : lastOf k ([] : List (κ × α)) = none := rfl

theorem lastOf_append (k : κ) (l m : List (κ × α)) :
    lastOf k (l ++ m) = (lastOf k m).or (lastOf k l) := by
  simp only [lastOf, reverse_append, lookup_append]

theorem lookup_cons_ite (k : κ) (e : κ × α) (l : List (κ × α)) :
    (e :: l).lookup k = if k = e.1 then some e.2 else l.lookup k := by
  rw [lookup_cons]
  by_cases h : k = e.1
  · simp [h]
  · simp [h, beq_eq_false_iff_ne.mpr h]

theorem lastOf_cons (k : κ) (e : κ × α) (l : List (κ × α)) :
    lastOf k (e :: l) = (lastOf k l).or (if k = e.1 then some e.2 else none) := by
  rw [← singleton_append, lastOf_append]
  congr 1
  rw [lastOf, reverse_singleton, lookup_cons_ite, lookup_nil]

theorem lastOf_eq_none {k : κ} (h : ∀ e ∈ l, e.1 ≠ k) : lastOf k l = none := by
  rw [lastOf, lookup_eq_none_iff]
  intro e he
  simpa using Ne.symm (h e (by simpa using he))

variable (f : α → β)

theorem lookup_map (k : κ) (l : List (κ × α)) :
    (l.map fun e => (e.1, f e.2)).lookup k = (l.lookup k).map f := by
  induction l with
  | nil => rfl
  | cons e l ih =>
    rw [map_cons, lookup_cons_ite, lookup_cons_ite, ih]
    split <;> rfl

theorem lastOf_map (k : κ) (l : List (κ × α)) :
    lastOf k (l.map fun e => (e.1, f e.2)) = (lastOf k l).map f := by
  rw [lastOf, ← map_reverse, lookup_map]
  rfl

/-! ## Sorting and deduplication keep first answers -/

theorem lookup_orderedInsert (k : κ) (e : κ × α) (l : List (κ × α)) :
    (l.orderedInsert (fun a b => a.1 ≤ b.1) e).lookup k = (e :: l).lookup k := by
  induction l with
  | nil => rfl
  | cons b l ih =>
    rw [orderedInsert_cons]
    split
    · rfl
    · next hlt =>
      -- `b` is strictly smaller, so at most one of the two answers at `k`
      have hne : e.1 ≠ b.1 := fun h => hlt (le_of_eq h)
      rw [lookup_cons_ite, ih, lookup_cons_ite, lookup_cons_ite, lookup_cons_ite]
      by_cases hb : k = b.1
      · simp [hb, Ne.symm hne]
      · simp [hb]

theorem lookup_sort (k : κ) (l : List (κ × α)) : (sort l).lookup k = l.lookup k := by
  induction l with
  | nil => rfl
  | cons e l ih =>
    rw [sort, insertionSort_cons, lookup_orderedInsert, lookup_cons_ite, lookup_cons_ite]
    rw [sort] at ih
    rw [ih]

theorem lastOf_orderedInsert (k : κ) (e : κ × α) (l : List (κ × α)) :
    lastOf k (l.orderedInsert (fun a b => a.1 ≤ b.1) e) = lastOf k (e :: l) := by
  induction l with
  | nil => rfl
  | cons b l ih =>
    rw [orderedInsert_cons]
    split
    · rfl
    · next hlt =>
      have hne : e.1 ≠ b.1 := fun h => hlt (le_of_eq h)
      rw [lastOf_cons, ih, lastOf_cons, lastOf_cons k e (b :: l), lastOf_cons k b l]
      by_cases hb : k = b.1
      · simp [hb, Ne.symm hne]
      · simp [hb]

/-- The sort is stable, so it keeps last answers too. -/
theorem lastOf_sort (k : κ) (l : List (κ × α)) : lastOf k (sort l) = lastOf k l := by
  induction l with
  | nil => rfl
  | cons e l ih =>
    rw [sort, insertionSort_cons, lastOf_orderedInsert, lastOf_cons, lastOf_cons k e l]
    rw [sort] at ih
    rw [ih]

variable {e : κ × α}

@[simp] theorem mem_sort : e ∈ sort l ↔ e ∈ l :=
  mem_insertionSort _

theorem lookup_destutter' (k : κ) (a : κ × α) (l : List (κ × α)) :
    (l.destutter' (fun a b => a.1 ≠ b.1) a).lookup k = (a :: l).lookup k := by
  induction l generalizing a with
  | nil => rfl
  | cons b l ih =>
    rw [destutter'_cons]
    split
    · rw [lookup_cons_ite, ih, lookup_cons_ite k a]
    · next h =>
      have hab : a.1 = b.1 := not_not.mp h
      rw [ih, lookup_cons_ite, lookup_cons_ite, lookup_cons_ite, hab]
      split <;> rfl

theorem lookup_dedup (k : κ) (l : List (κ × α)) : (dedup l).lookup k = l.lookup k := by
  cases l with
  | nil => rfl
  | cons a l => exact lookup_destutter' k a l

theorem lookup_normalise (k : κ) (l : List (κ × α)) : (normalise l).lookup k = lastOf k l := by
  rw [normalise, lookup_dedup, lookup_sort, lastOf]

theorem mem_of_mem_normalise (h : e ∈ normalise l) : e ∈ l := by
  have hsub : (normalise l).Sublist (sort l.reverse) := destutter_sublist _ _
  have hsort : e ∈ sort l.reverse := hsub.subset h
  simpa [sort] using hsort

/-! ## Strictly increasing lists -/

/-- Keys strictly increase: the invariant of a normalised list. -/
def Strict (l : List (κ × α)) : Prop := l.Pairwise fun a b => a.1 < b.1

/-- Sorting puts the keys in order. -/
theorem sort_pairwise (l : List (κ × α)) : (sort l).Pairwise fun a b => a.1 ≤ b.1 :=
  have : IsTrans (κ × α) fun a b => a.1 ≤ b.1 := ⟨fun _ _ _ => le_trans⟩
  have : Std.Total fun a b : κ × α => a.1 ≤ b.1 := ⟨fun a b => le_total a.1 b.1⟩
  pairwise_insertionSort _ l

theorem isChain_lt (hle : l.Pairwise fun a b => a.1 ≤ b.1) (hne : l.IsChain fun a b => a.1 ≠ b.1) :
    l.IsChain fun a b => a.1 < b.1 := by
  induction hne with
  | nil => exact .nil
  | singleton a => exact .singleton a
  | cons_cons hab _ ih =>
    obtain ⟨hhead, htail⟩ := pairwise_cons.mp hle
    exact .cons_cons (lt_of_le_of_ne (hhead _ mem_cons_self) hab) (ih htail)

theorem strict_normalise (l : List (κ × α)) : Strict (normalise l) := by
  have hsub : (normalise l).Sublist (sort l.reverse) := destutter_sublist _ _
  have hle : (normalise l).Pairwise fun a b => a.1 ≤ b.1 := (sort_pairwise _).sublist hsub
  have hne : (normalise l).IsChain fun a b => a.1 ≠ b.1 := isChain_destutter _ _
  have : IsTrans (κ × α) fun a b => a.1 < b.1 := ⟨fun _ _ _ => lt_trans⟩
  exact (isChain_lt hle hne).pairwise

theorem Strict.map (h : Strict l) : Strict (l.map fun e => (e.1, f e.2)) :=
  pairwise_map.mpr h

theorem Strict.lookup_eq_none {k : κ} (h : ∀ e ∈ l, k < e.1) : l.lookup k = none := by
  rw [lookup_eq_none_iff]
  intro e he
  simpa using ne_of_lt (h e he)

/-- Two strictly increasing lists with the same answers are the same list. -/
theorem Strict.ext {m : List (κ × α)} (hl : Strict l) (hm : Strict m)
    (h : ∀ k, l.lookup k = m.lookup k) : l = m := by
  induction l generalizing m with
  | nil =>
    cases m with
    | nil => rfl
    | cons b m => simpa [lookup_cons_ite] using h b.1
  | cons a l ih =>
    cases m with
    | nil => simpa [lookup_cons_ite] using h a.1
    | cons b m =>
      obtain ⟨hal, hl'⟩ := pairwise_cons.mp hl
      obtain ⟨hbm, hm'⟩ := pairwise_cons.mp hm
      -- the smaller head key is answered by one list only
      have hkey : a.1 = b.1 := by
        rcases lt_trichotomy a.1 b.1 with hlt | heq | hgt
        · have hnone : (b :: m).lookup a.1 = none :=
            Strict.lookup_eq_none fun e he => by
              rcases mem_cons.mp he with rfl | he
              · exact hlt
              · exact hlt.trans (hbm e he)
          simpa [hnone, lookup_cons_ite] using h a.1
        · exact heq
        · have hnone : (a :: l).lookup b.1 = none :=
            Strict.lookup_eq_none fun e he => by
              rcases mem_cons.mp he with rfl | he
              · exact hgt
              · exact hgt.trans (hal e he)
          simpa [hnone, lookup_cons_ite] using h b.1
      have hval : a.2 = b.2 := by
        simpa [lookup_cons_ite, hkey] using h a.1
      have hab : a = b := Prod.ext hkey hval
      subst hab
      congr 1
      refine ih hl' hm' fun k => ?_
      by_cases hk : k = a.1
      · subst hk
        rw [Strict.lookup_eq_none hal, Strict.lookup_eq_none hbm]
      · simpa [lookup_cons_ite, hk] using h k

theorem Strict.lastOf_eq_lookup (h : Strict l) (k : κ) : lastOf k l = l.lookup k := by
  induction l with
  | nil => rfl
  | cons a l ih =>
    obtain ⟨hal, hl⟩ := pairwise_cons.mp h
    rw [lastOf_cons, ih hl, lookup_cons_ite]
    by_cases hk : k = a.1
    · simp [hk, Strict.lookup_eq_none hal]
    · simp [hk]

theorem lastOf_normalise (k : κ) (l : List (κ × α)) : lastOf k (normalise l) = lastOf k l := by
  rw [(strict_normalise l).lastOf_eq_lookup, lookup_normalise]

/-- Normal forms are equal exactly when the last writes agree. -/
theorem normalise_eq_iff (l m : List (κ × α)) :
    normalise l = normalise m ↔ ∀ k, lastOf k l = lastOf k m := by
  constructor
  · intro h k
    rw [← lookup_normalise, h, lookup_normalise]
  · intro h
    refine (strict_normalise l).ext (strict_normalise m) fun k => ?_
    rw [lookup_normalise, lookup_normalise, h]

@[simp] theorem normalise_normalise (l : List (κ × α)) : normalise (normalise l) = normalise l :=
  (normalise_eq_iff _ _).mpr fun k => lastOf_normalise k l

theorem normalise_map (l : List (κ × α)) :
    normalise (l.map fun e => (e.1, f e.2)) = (normalise l).map fun e => (e.1, f e.2) := by
  refine (strict_normalise _).ext ((strict_normalise l).map f) fun k => ?_
  rw [lookup_normalise, lastOf_map, lookup_map, lookup_normalise]

/-! ## Last writes and entries -/

variable {v : α}

theorem mem_of_lookup {k : κ} (h : l.lookup k = some v) : (k, v) ∈ l := by
  induction l with
  | nil => cases h
  | cons e l ih =>
    rw [lookup_cons_ite] at h
    by_cases hk : k = e.1
    · rw [if_pos hk] at h
      cases h
      rw [hk]
      exact mem_cons_self
    · rw [if_neg hk] at h
      exact mem_cons_of_mem e (ih h)

theorem mem_of_lastOf {k : κ} (h : lastOf k l = some v) : (k, v) ∈ l :=
  mem_reverse.mp (mem_of_lookup h)

theorem lastOf_eq_none_iff {k : κ} : lastOf k l = none ↔ k ∉ l.map Prod.fst := by
  induction l with
  | nil => simp
  | cons e l ih =>
    rw [lastOf_cons, or_eq_none_iff, ih, map_cons, mem_cons, not_or, and_comm]
    refine and_congr_left fun _ => ?_
    by_cases hk : k = e.1 <;> simp [hk]

/-- Without repeated keys every entry is the last of its key. -/
theorem lastOf_iff_mem (h : (l.map Prod.fst).Nodup) {k : κ} : lastOf k l = some v ↔ (k, v) ∈ l := by
  refine ⟨mem_of_lastOf, fun hmem => ?_⟩
  cases hlast : lastOf k l with
  | none => exact absurd (mem_map_of_mem hmem) (lastOf_eq_none_iff.mp hlast)
  | some w =>
    have heq := inj_on_of_nodup_map h (mem_of_lastOf hlast) hmem rfl
    rw [(Prod.mk.inj heq).2]

theorem Strict.nodup (h : Strict l) : (l.map Prod.fst).Nodup :=
  pairwise_map.mpr (h.imp fun hlt => ne_of_lt hlt)

/-! ## Splitting two sorted lists -/

/-- What two lists share, and what only the left or only the right one has. -/
structure Split (κ α : Type*) where
  common : List (α × α)
  only₁ : List (κ × α)
  only₂ : List (κ × α)

/-- One row of the walk: the left list starts with `a`, `k` continues with its tail. -/
def splitWith (a : κ × α) (f : List (κ × α)) (k : List (κ × α) → Split κ α) :
    List (κ × α) → Split κ α
  | [] => ⟨[], a :: f, []⟩
  | b :: g =>
    if a.1 < b.1 then
      let r := k (b :: g)
      { r with only₁ := a :: r.only₁ }
    else if b.1 < a.1 then
      let r := splitWith a f k g
      { r with only₂ := b :: r.only₂ }
    else
      let r := k g
      { r with common := (a.2, b.2) :: r.common }

/-- The two-pointer walk over two sorted lists. -/
def split : List (κ × α) → List (κ × α) → Split κ α
  | [], g => ⟨[], [], g⟩
  | a :: f, g => splitWith a f (split f) g

/-- The shared entries and the left-only entries come from the left list, the shared entries and
the right-only entries from the right one. -/
theorem split_mem : ∀ (f g : List (κ × α)),
    (∀ p ∈ (split f g).common, (∃ e ∈ f, e.2 = p.1) ∧ ∃ e ∈ g, e.2 = p.2) ∧
      (∀ e ∈ (split f g).only₁, e ∈ f) ∧ ∀ e ∈ (split f g).only₂, e ∈ g := by
  intro f
  induction f with
  | nil => intro g; simp [split]
  | cons a f ihf =>
    intro g
    induction g with
    | nil => simp [split, splitWith]
    | cons b g ihg =>
      simp only [split, splitWith]
      split
      · obtain ⟨h₁, h₂, h₃⟩ := ihf (b :: g)
        refine ⟨fun p hp => ?_, fun e he => ?_, h₃⟩
        · obtain ⟨⟨e, he, hep⟩, hr⟩ := h₁ p hp
          exact ⟨⟨e, mem_cons_of_mem a he, hep⟩, hr⟩
        · rcases mem_cons.mp he with rfl | he
          · exact mem_cons_self
          · exact mem_cons_of_mem a (h₂ e he)
      · split
        · obtain ⟨h₁, h₂, h₃⟩ := ihg
          refine ⟨fun p hp => ?_, h₂, fun e he => ?_⟩
          · obtain ⟨hl, e, he, hep⟩ := h₁ p hp
            exact ⟨hl, e, mem_cons_of_mem b he, hep⟩
          · rcases mem_cons.mp he with rfl | he
            · exact mem_cons_self
            · exact mem_cons_of_mem b (h₃ e he)
        · obtain ⟨h₁, h₂, h₃⟩ := ihf g
          refine ⟨fun p hp => ?_, fun e he => mem_cons_of_mem a (h₂ e he),
            fun e he => mem_cons_of_mem b (h₃ e he)⟩
          rcases mem_cons.mp hp with rfl | hp
          · exact ⟨⟨a, mem_cons_self, rfl⟩, b, mem_cons_self, rfl⟩
          · obtain ⟨⟨e, he, hep⟩, e', he', hep'⟩ := h₁ p hp
            exact ⟨⟨e, mem_cons_of_mem a he, hep⟩, e', mem_cons_of_mem b he', hep'⟩

/-- Writing the right-only entries after the left list and the left-only entries after the
right list leaves the same last writes, as soon as the shared entries agree under `φ`. -/
theorem split_lastOf (φ : α → β) (k : κ) :
    ∀ (f g : List (κ × α)), f.Pairwise (fun a b => a.1 ≤ b.1) →
      g.Pairwise (fun a b => a.1 ≤ b.1) →
      (∀ p ∈ (split f g).common, φ p.1 = φ p.2) →
      ((lastOf k (split f g).only₂).or (lastOf k f)).map φ
        = ((lastOf k (split f g).only₁).or (lastOf k g)).map φ := by
  intro f
  induction f with
  | nil => intro g _ _ _; simp [split]
  | cons a f ihf =>
    intro g hf hg
    have hf' := (pairwise_cons.mp hf).2
    have haf := (pairwise_cons.mp hf).1
    induction g with
    | nil => intro _; simp [split, splitWith]
    | cons b g ihg =>
      have hg' := (pairwise_cons.mp hg).2
      have hbg := (pairwise_cons.mp hg).1
      intro hcommon
      simp only [split, splitWith] at hcommon ⊢
      split at hcommon
      · next hlt =>
        simp only [hlt, if_true] at hcommon ⊢
        have ih := ihf (b :: g) hf' hg hcommon
        rw [lastOf_cons k a f, ← Option.or_assoc, map_or, ih, lastOf_cons k a]
        by_cases hk : k = a.1
        · subst hk
          have hnone : lastOf a.1 (b :: g) = none :=
            lastOf_eq_none fun e he => by
              rcases mem_cons.mp he with rfl | he
              · exact ne_of_gt hlt
              · exact ne_of_gt (lt_of_lt_of_le hlt (hbg e he))
          simp [hnone]
        · simp [hk]
      · split at hcommon
        · next hnlt hlt =>
          simp only [hnlt, hlt, if_true, if_false] at hcommon ⊢
          have ih := ihg hg' hcommon
          change (Option.or (lastOf k (splitWith a f (split f) g).only₂) _).map φ
            = (Option.or (lastOf k (splitWith a f (split f) g).only₁) _).map φ at ih
          rw [lastOf_cons k b g, ← Option.or_assoc, map_or (o := Option.or _ _), ← ih]
          rw [lastOf_cons k b]
          by_cases hk : k = b.1
          · subst hk
            have hnone : lastOf b.1 (a :: f) = none :=
              lastOf_eq_none fun e he => by
                rcases mem_cons.mp he with rfl | he
                · exact ne_of_gt hlt
                · exact ne_of_gt (lt_of_lt_of_le hlt (haf e he))
            simp [hnone]
          · simp [hk]
        · next hnlt hngt =>
          simp only [hnlt, hngt, if_false] at hcommon ⊢
          have hab : a.1 = b.1 := le_antisymm (not_lt.mp hngt) (not_lt.mp hnlt)
          have hφ : φ a.2 = φ b.2 := hcommon _ mem_cons_self
          have ih := ihf g hf' hg' fun p hp => hcommon p (mem_cons_of_mem _ hp)
          rw [lastOf_cons k a f, lastOf_cons k b g, ← Option.or_assoc, ← Option.or_assoc,
            map_or, map_or (o := Option.or (lastOf k (split f g).only₁) _), ih, hab]
          congr 1
          split
          · simp [hφ]
          · rfl

end Ridge.KeyedList
