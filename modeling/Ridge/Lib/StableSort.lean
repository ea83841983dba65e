import Mathlib.Data.List.Pairwise
import Mathlib.Data.List.Perm.Basic

/-!
# Stable sorting by a comparison that need not be an order

What a stable sort owes a caller who ranks only some pairs (`Ranking`, `Ranked`). A sort whose
comparison is a total preorder of the list pays it exactly where the comparison follows the ranking
(`ranked_mergeSort`); where the comparison is none, some rearrangement of the list breaks it unless
nothing is ranked (`exists_not_ranked`).
-/

namespace Ridge

open List

/-! ## Merge sort on the elements of a list -/

section

variable {α : Type} {le : α → α → Bool} {l : List α}

def TotalOn (le : α → α → Bool) (l : List α) : Prop := ∀ a ∈ l, ∀ b ∈ l, le a b || le b a

def TransOn (le : α → α → Bool) (l : List α) : Prop :=
  ∀ a ∈ l, ∀ b ∈ l, ∀ c ∈ l, le a b → le b c → le a c

instance : Decidable (TotalOn le l) := inferInstanceAs (Decidable (∀ a ∈ l, ∀ b ∈ l, _))

instance : Decidable (TransOn le l) :=
  inferInstanceAs (Decidable (∀ a ∈ l, ∀ b ∈ l, ∀ c ∈ l, le a b → le b c → le a c))

variable {le' : α → α → Bool}

theorem TotalOn.congr (h : ∀ a ∈ l, ∀ b ∈ l, le a b = le' a b) :
    TotalOn le l → TotalOn le' l := fun htotal a ha b hb => by
  rw [← h a ha b hb, ← h b hb a ha]
  exact htotal a ha b hb

theorem TransOn.congr (h : ∀ a ∈ l, ∀ b ∈ l, le a b = le' a b) :
    TransOn le l → TransOn le' l := fun htrans a ha b hb c hc => by
  rw [← h a ha b hb, ← h b hb c hc, ← h a ha c hc]
  exact htrans a ha b hb c hc

/-- The comparison of the elements with their membership at hand. -/
theorem mergeSort_attach (le : α → α → Bool) (l : List α) :
    (l.attach.mergeSort fun a b => le a.1 b.1).map Subtype.val = l.mergeSort le := by
  rw [map_mergeSort (s := le) fun a _ b _ => rfl, attach_map_subtype_val]

theorem pairwise_mergeSort_on (htotal : TotalOn le l) (htrans : TransOn le l) :
    (l.mergeSort le).Pairwise fun a b => le a b = true := by
  rw [← mergeSort_attach, pairwise_map]
  exact pairwise_mergeSort (fun a b c => htrans a.1 a.2 b.1 b.2 c.1 c.2)
    (fun a b => htotal a.1 a.2 b.1 b.2) _

theorem sublist_mergeSort_on (htotal : TotalOn le l) (htrans : TransOn le l) {sub : List α}
    (hsorted : sub.Pairwise fun a b => le a b = true) (hsub : sub.Sublist l) :
    sub.Sublist (l.mergeSort le) := by
  rw [← attach_map_subtype_val l] at hsub
  obtain ⟨sub', hsub', rfl⟩ := sublist_map_iff.mp hsub
  rw [← mergeSort_attach]
  apply List.Sublist.map
  exact sublist_mergeSort (fun a b c => htrans a.1 a.2 b.1 b.2 c.1 c.2)
    (fun a b => htotal a.1 a.2 b.1 b.2) (pairwise_map.mp hsorted) hsub'

/-- A part of the list that is in order already stays as it is. -/
theorem filter_mergeSort_on (htotal : TotalOn le l) (htrans : TransOn le l) {p : α → Bool}
    (h : (l.filter p).Pairwise fun a b => le a b = true) :
    (l.mergeSort le).filter p = l.filter p := by
  have hsub := (sublist_mergeSort_on htotal htrans h filter_sublist).filter p
  rw [filter_filter] at hsub
  simp only [Bool.and_self] at hsub
  exact (hsub.eq_of_length ((mergeSort_perm l le).symm.filter p).length_eq).symm

theorem mergeSort_congr_on (h : ∀ a ∈ l, ∀ b ∈ l, le a b = le' a b) :
    l.mergeSort le = l.mergeSort le' := by
  have hmap := map_mergeSort (f := id) h
  rwa [map_id, map_id] at hmap

end

/-! ## Two elements of a list -/

section

variable {α : Type} {l : List α} {a b : α}

theorem pair_sublist_or (ha : a ∈ l) (hb : b ∈ l) (hne : a ≠ b) :
    [a, b].Sublist l ∨ [b, a].Sublist l := by
  obtain ⟨before, after, rfl⟩ := append_of_mem ha
  rcases mem_append.mp hb with hbefore | hafter
  · exact .inr ((singleton_sublist.mpr hbefore).append
      (singleton_sublist.mpr mem_cons_self))
  · have hb' := (mem_cons.mp hafter).resolve_left hne.symm
    exact .inl (((singleton_sublist.mpr hb').cons_cons a).trans
      (sublist_append_right before _))

theorem related_of_pair {R : α → α → Prop} (h : l.Pairwise R) (hsub : [a, b].Sublist l) : R a b :=
  pairwise_iff_forall_sublist.mp h hsub

theorem mem_of_pair_sublist (h : [a, b].Sublist l) : a ∈ l ∧ b ∈ l :=
  ⟨h.subset mem_cons_self, h.subset (mem_cons_of_mem _ mem_cons_self)⟩

theorem perm_of_pair_sublist (h : [a, b].Sublist l) : ∃ rest, (a :: b :: rest).Perm l := by
  obtain ⟨rest, hrest⟩ := h.exists_perm_append
  exact ⟨rest, hrest.symm⟩

end

/-! ## Rankings -/

/-- A ranking of some of the pairs: `none` where two are not ranked, `eq` where they rank the
same. -/
structure Ranking (α : Type) where
  cmp : α → α → Option Ordering
  refl : ∀ a, cmp a a = some .eq
  swap : ∀ a b, cmp b a = (cmp a b).map Ordering.swap
  trans : ∀ a b c, cmp a b = some .eq → cmp b c = some .eq → cmp a c = some .eq

namespace Ranking

variable {α : Type} (r : Ranking α)

theorem swap_eq {a b : α} {o : Ordering} (h : r.cmp a b = some o) : r.cmp b a = some o.swap := by
  rw [r.swap, h]
  rfl

/-! ### Building rankings -/

section

variable {α β : Type}

/-- Everything ranks the same. -/
def level : Ranking α where
  cmp _ _ := some .eq
  refl _ := rfl
  swap _ _ := rfl
  trans _ _ _ _ _ := rfl

/-- The ranking of what a function makes of the elements. -/
def comap (f : α → β) (r : Ranking β) : Ranking α where
  cmp a b := r.cmp (f a) (f b)
  refl a := r.refl (f a)
  swap a b := r.swap (f a) (f b)
  trans a b c := r.trans (f a) (f b) (f c)

def descending (r : Ranking α) : Ranking α where
  cmp a b := (r.cmp a b).map Ordering.swap
  refl a := by rw [r.refl]; rfl
  swap a b := by rw [r.swap]
  trans a b c hab hbc := by
    have heq : ∀ {x y : α}, (r.cmp x y).map Ordering.swap = some .eq → r.cmp x y = some .eq := by
      intro x y h
      rw [← r.swap] at h
      exact r.swap_eq h
    rw [r.trans a b c (heq hab) (heq hbc)]
    rfl

/-- The second ranking decides where the first ranks two the same. -/
def andThen (r s : Ranking α) : Ranking α where
  cmp a b := if r.cmp a b = some .eq then s.cmp a b else r.cmp a b
  refl a := by rw [if_pos (r.refl a), s.refl]
  swap a b := by
    by_cases h : r.cmp a b = some .eq
    · have h' : r.cmp b a = some .eq := r.swap_eq h
      rw [if_pos h, if_pos h', s.swap]
    · have h' : r.cmp b a ≠ some .eq := fun h' => h (r.swap_eq h')
      rw [if_neg h, if_neg h', r.swap]
  trans a b c hab hbc := by
    have hfirst : ∀ {x y : α}, (if r.cmp x y = some .eq then s.cmp x y else r.cmp x y) = some .eq →
        r.cmp x y = some .eq ∧ s.cmp x y = some .eq := by
      intro x y h
      split at h
      · next hxy => exact ⟨hxy, h⟩
      · next hxy => exact absurd h hxy
    obtain ⟨hab, hab'⟩ := hfirst hab
    obtain ⟨hbc, hbc'⟩ := hfirst hbc
    rw [if_pos (r.trans a b c hab hbc), s.trans a b c hab' hbc']

/-- What is missing ranks with what is missing only. -/
def ofOption (r : Ranking α) : Ranking (Option α) where
  cmp
    | some a, some b => r.cmp a b
    | none, none => some .eq
    | _, _ => none
  refl
    | some a => r.refl a
    | none => rfl
  swap
    | some a, some b => r.swap a b
    | none, none | some _, none | none, some _ => rfl
  trans
    | some a, some b, some c => r.trans a b c
    | none, none, none => fun _ _ => rfl
    | some _, none, _ | none, some _, _ => nofun
    | some _, some _, none | none, none, some _ => fun _ h => nomatch h

end

/-! ### What a sort owes -/

/-- The elements ranked the same as one. -/
def peers (a : α) (l : List α) : List α := l.filter fun b => r.cmp a b = some .eq

/-- Nothing that ranks higher comes in front, and what ranks the same stays in its order. -/
structure Ranked (l out : List α) : Prop where
  perm : out.Perm l
  sorted : out.Pairwise fun a b => r.cmp a b ≠ some .gt
  stable : ∀ a ∈ l, r.peers a out = r.peers a l

/-- A comparison follows the ranking on two elements, the first in front. -/
def Follows (le : α → α → Bool) (a b : α) : Prop :=
  (r.cmp a b = some .gt → le a b = false) ∧
    (r.cmp a b = some .lt ∨ r.cmp a b = some .eq → le a b = true)

/-- Two elements that may stand in any order. -/
def Unranked (a b : α) : Prop := a = b ∨ r.cmp a b = none

theorem unranked_symm {a b : α} (h : r.Unranked a b) : r.Unranked b a := by
  rcases h with rfl | h
  · exact .inl rfl
  · refine .inr ?_
    rw [r.swap, h]
    rfl

variable {r} {le : α → α → Bool} {l out : List α}

theorem mem_peers {a b : α} : b ∈ r.peers a l ↔ b ∈ l ∧ r.cmp a b = some .eq := by
  unfold peers
  rw [mem_filter, decide_eq_true_iff]

theorem eq_of_mem_peers {a b c : α} (hb : b ∈ r.peers a l) (hc : c ∈ r.peers a l) :
    r.cmp b c = some .eq :=
  r.trans b a c (r.swap_eq (mem_peers.mp hb).2) (mem_peers.mp hc).2

/-- A stable sort by a total preorder pays what the ranking asks for exactly where its comparison
follows the ranking. -/
theorem ranked_mergeSort (htotal : TotalOn le l) (htrans : TransOn le l) :
    r.Ranked l (l.mergeSort le) ↔ l.Pairwise (r.Follows le) := by
  have hperm := mergeSort_perm l le
  have hsorted : ∀ {a b : α}, [a, b].Sublist (l.mergeSort le) → le a b = true := fun hsub =>
    related_of_pair (R := fun a b => le a b = true) (pairwise_mergeSort_on htotal htrans) hsub
  have hkept : ∀ {a b : α}, [a, b].Sublist l → le a b = true →
      [a, b].Sublist (l.mergeSort le) := fun hsub hle =>
    sublist_mergeSort_on htotal htrans (pairwise_pair.mpr hle) hsub
  rw [pairwise_iff_forall_sublist]
  constructor
  · -- A pair in the wrong order of the comparison comes out in the wrong order.
    rintro ⟨-, hranked, hstable⟩ a b hsub
    rw [pairwise_iff_forall_sublist] at hranked
    obtain ⟨ha, hb⟩ := mem_of_pair_sublist hsub
    refine ⟨fun hgt => ?_, fun hle => ?_⟩
    · cases hab : le a b with
      | false => rfl
      | true => exact absurd hgt (hranked (hkept hsub hab))
    · cases hab : le a b with
      | true => rfl
      | false =>
        have hnot : ¬[a, b].Sublist (l.mergeSort le) := fun hout => by
          rw [hsorted hout] at hab
          cases hab
        rcases hle with hlt | heq
        · have hne : a ≠ b := by
            rintro rfl
            rw [r.refl] at hlt
            cases hlt
          have hout := (pair_sublist_or (hperm.mem_iff.mpr ha) (hperm.mem_iff.mpr hb)
            hne).resolve_left hnot
          exact absurd (r.swap_eq hlt) (hranked hout)
        · have hpeers : [a, b].Sublist (r.peers a l) := by
            have hfilter := hsub.filter fun b => decide (r.cmp a b = some .eq)
            rwa [filter_cons_of_pos (by simp [r.refl]), filter_cons_of_pos
              (by simp [heq]), filter_nil] at hfilter
          rw [← hstable a ha] at hpeers
          exact absurd (hpeers.trans filter_sublist) hnot
  · intro hfollows
    refine ⟨hperm, pairwise_iff_forall_sublist.mpr fun {a b} hout hgt => ?_,
      fun a ha => ?_⟩
    · obtain ⟨ha, hb⟩ := mem_of_pair_sublist hout
      have ha := hperm.mem_iff.mp ha
      have hb := hperm.mem_iff.mp hb
      have hle := hsorted hout
      have hforward : ¬[a, b].Sublist l := fun hsub => by
        rw [(hfollows hsub).1 hgt] at hle
        cases hle
      have hne : a ≠ b := by
        rintro rfl
        rw [r.refl] at hgt
        cases hgt
      have hback := (pair_sublist_or ha hb hne).resolve_left hforward
      have hle' := (hfollows hback).2 (.inl (r.swap_eq hgt))
      -- The two count as equal for the sort, which keeps all such in their order.
      let same := fun c => le a c && le c a
      have hsame : ∀ c, same c = true → le a c = true ∧ le c a = true := fun c hc =>
        Bool.and_eq_true_iff.mp hc
      have hkeep : (l.mergeSort le).filter same = l.filter same := by
        apply filter_mergeSort_on htotal htrans
        rw [pairwise_iff_forall_sublist]
        intro c d hcd
        obtain ⟨hc, hd⟩ := mem_of_pair_sublist hcd
        obtain ⟨hcl, hc⟩ := mem_filter.mp hc
        obtain ⟨hdl, hd⟩ := mem_filter.mp hd
        exact htrans c hcl a ha d hdl (hsame c hc).2 (hsame d hd).1
      have haa : le a a = true := by
        have htot := htotal a ha a ha
        rwa [Bool.or_self] at htot
      have hout' := hout.filter same
      rw [filter_cons_of_pos (by simp [same, haa]),
        filter_cons_of_pos (by simp [same, hle, hle']), filter_nil, hkeep] at hout'
      exact hforward (hout'.trans filter_sublist)
    · apply filter_mergeSort_on htotal htrans
      rw [pairwise_iff_forall_sublist]
      intro b c hbc
      obtain ⟨hb, hc⟩ := mem_of_pair_sublist hbc
      exact (hfollows (hbc.trans filter_sublist)).2 (.inr (eq_of_mem_peers hb hc))

/-- Where nothing is ranked every order will do. -/
theorem ranked_of_unranked (h : l.Pairwise r.Unranked) (hperm : out.Perm l) : r.Ranked l out := by
  have hany := (hperm.pairwise_iff fun hab => r.unranked_symm hab).mpr h
  refine ⟨hperm, pairwise_iff_forall_sublist.mpr fun {a b} hsub hgt => ?_, fun a ha => ?_⟩
  · rcases related_of_pair hany hsub with rfl | hnone
    · rw [r.refl] at hgt
      cases hgt
    · rw [hnone] at hgt
      cases hgt
  · -- What ranks the same as `a` is `a` itself.
    have hall : ∀ b ∈ r.peers a l, b = a := fun b hb => by
      obtain ⟨hbl, hcmp⟩ := mem_peers.mp hb
      by_cases hne : a = b
      · exact hne.symm
      · have hu : r.Unranked a b := by
          rcases pair_sublist_or ha hbl hne with hsub | hsub
          · exact related_of_pair h hsub
          · exact r.unranked_symm (related_of_pair h hsub)
        rcases hu with heq | hnone
        · exact heq.symm
        · rw [hnone] at hcmp
          cases hcmp
    have hpeers : (r.peers a out).Perm (r.peers a l) := hperm.filter _
    rw [eq_replicate_of_mem hall] at hpeers ⊢
    exact perm_replicate.mp hpeers

/-- Where two are ranked some order of the list is wrong. -/
theorem exists_not_ranked (h : ¬l.Pairwise r.Unranked) : ∃ out, out.Perm l ∧ ¬r.Ranked l out := by
  rw [pairwise_iff_forall_sublist] at h
  push Not at h
  obtain ⟨a, b, hsub, hranked⟩ := h
  have hne : a ≠ b := fun heq => hranked (.inl heq)
  obtain ⟨rest, hrest⟩ := perm_of_pair_sublist hsub
  obtain ⟨ha, hb⟩ := mem_of_pair_sublist hsub
  cases hcmp : r.cmp a b with
  | none => exact absurd (.inr hcmp) hranked
  | some o =>
    cases o with
    | lt =>
      refine ⟨b :: a :: rest, (List.Perm.swap a b rest).trans hrest, fun hout => ?_⟩
      exact (pairwise_cons.mp hout.sorted).1 a mem_cons_self (r.swap_eq hcmp)
    | gt =>
      exact ⟨a :: b :: rest, hrest, fun hout =>
        (pairwise_cons.mp hout.sorted).1 b mem_cons_self hcmp⟩
    | eq =>
      -- Both orders of `a` and `b` cannot leave the peers of `a` as they are.
      by_contra hall
      push Not at hall
      have hfirst := (hall (a :: b :: rest) hrest).stable a ha
      have hsecond := (hall (b :: a :: rest) ((List.Perm.swap a b rest).trans hrest)).stable a ha
      have heq := hfirst.trans hsecond.symm
      unfold peers at heq
      rw [filter_cons_of_pos (by simp [r.refl]),
        filter_cons_of_pos (l := a :: rest) (by simp [hcmp])] at heq
      exact hne (cons.inj heq).1

end Ranking

/-! ## Rearranging a list of any type -/

/-- A way to rearrange lists that does not look at their elements. -/
structure Shuffle where
  run : {α : Type} → List α → List α
  perm : ∀ {α : Type} (l : List α), (run l).Perm l

namespace Shuffle

def keep : Shuffle := ⟨id, fun _ => List.Perm.refl _⟩

def inTail (s : Shuffle) : Shuffle where
  run
    | [] => []
    | a :: l => a :: s.run l
  perm
    | [] => List.Perm.nil
    | a :: l => (s.perm l).cons a

def swapTwo : Shuffle where
  run
    | a :: b :: l => b :: a :: l
    | l => l
  perm
    | [] => List.Perm.nil
    | [_] => List.Perm.refl _
    | a :: b :: l => List.Perm.swap a b l

def after (s t : Shuffle) : Shuffle where
  run l := s.run (t.run l)
  perm l := (s.perm _).trans (t.perm l)

/-- Every rearrangement of a list is one of these. -/
theorem exists_run {α : Type} {out l : List α} (h : out.Perm l) : ∃ s : Shuffle, s.run l = out := by
  induction h with
  | nil => exact ⟨keep, rfl⟩
  | cons a _ ih =>
    obtain ⟨s, hs⟩ := ih
    exact ⟨s.inTail, congrArg (a :: ·) hs⟩
  | swap a b l => exact ⟨swapTwo, rfl⟩
  | trans _ _ ih₁ ih₂ =>
    obtain ⟨s, hs⟩ := ih₁
    obtain ⟨t, ht⟩ := ih₂
    exact ⟨s.after t, (congrArg s.run ht).trans hs⟩

end Shuffle

end Ridge
