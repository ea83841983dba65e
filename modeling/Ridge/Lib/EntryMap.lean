import Mathlib.Data.List.Nodup
import Mathlib.Data.List.Perm.Basic

/-!
# Lib — finite maps up to an equivalence of keys

A list of entries read through a Boolean equivalence of keys. The first entry of a class answers
for it; an update keeps the key that is stored and changes the value. When no two keys are
equivalent (`Distinct`), the answers determine the entries up to order (`perm_of_find`), which is
how every fact about a reordered list is proved here.
-/

namespace Ridge

open List Option Bool

/-- A Boolean equivalence of keys. -/
structure KeyEq (κ : Type) where
  eq : κ → κ → Bool
  refl : ∀ k, eq k k = true
  symm : ∀ {a b}, eq a b = true → eq b a = true
  trans : ∀ {a b c}, eq a b = true → eq b c = true → eq a c = true

/-- Equality itself. -/
def KeyEq.exact (κ : Type) [DecidableEq κ] : KeyEq κ where
  eq a b := decide (a = b)
  refl _ := decide_eq_true rfl
  symm h := decide_eq_true (of_decide_eq_true h).symm
  trans h h' := decide_eq_true ((of_decide_eq_true h).trans (of_decide_eq_true h'))

theorem KeyEq.congr {κ : Type} (E : KeyEq κ) {a b : κ} (h : E.eq a b = true) (c : κ) :
    E.eq a c = E.eq b c := by
  rw [Bool.eq_iff_iff]
  exact ⟨fun hac => E.trans (E.symm h) hac, fun hbc => E.trans h hbc⟩

namespace EntryMap

variable {κ α β : Type} (E : KeyEq κ) {k : κ} {m m' a : List (κ × α)}

/-- The entry that answers for a key. -/
def find (k : κ) (m : List (κ × α)) : Option (κ × α) := m.find? fun e => E.eq k e.1

def get (k : κ) (m : List (κ × α)) : Option α := (find E k m).map Prod.snd

/-- Change the value of a key, or give it one. The stored key stays. -/
def update (k : κ) (f : Option α → α) : List (κ × α) → List (κ × α)
  | [] => [(k, f none)]
  | e :: m => if E.eq k e.1 then (e.1, f (some e.2)) :: m else e :: update k f m

def insert (k : κ) (v : α) (m : List (κ × α)) : List (κ × α) := update E k (fun _ => v) m

def remove (k : κ) : List (κ × α) → List (κ × α)
  | [] => []
  | e :: m => if E.eq k e.1 then m else e :: remove k m

def filterMap (f : κ → α → Option β) (m : List (κ × α)) : List (κ × β) :=
  m.filterMap fun e => (f e.1 e.2).map (e.1, ·)

/-- The entries of the second after those of the first, whose keys stay. -/
def merge (a b : List (κ × α)) : List (κ × α) := b.foldl (fun m e => insert E e.1 e.2 m) a

def ofList (l : List (κ × α)) : List (κ × α) := merge E [] l

def Distinct (m : List (κ × α)) : Prop := m.Pairwise fun a b => E.eq a.1 b.1 = false

/-- The maps have the same classes of keys, with related values. -/
def Same (R : α → β → Prop) (a : List (κ × α)) (b : List (κ × β)) : Prop :=
  ∀ k, match get E k a, get E k b with
    | none, none => True
    | some v, some w => R v w
    | _, _ => False

variable {E}

/-! ## Answers -/

theorem find_cons (k : κ) (e : κ × α) (m : List (κ × α)) :
    find E k (e :: m) = if E.eq k e.1 = true then some e else find E k m := by
  rw [find, find?_cons]
  cases E.eq k e.1 <;> rfl

theorem find_append (k : κ) (a b : List (κ × α)) :
    find E k (a ++ b) = (find E k a).or (find E k b) :=
  find?_append

theorem find_congr {k' : κ} (h : E.eq k k' = true) (m : List (κ × α)) :
    find E k m = find E k' m := by
  have hsame : (fun e : κ × α => E.eq k e.1) = fun e => E.eq k' e.1 :=
    funext fun e => E.congr h e.1
  rw [find, hsame, find]

variable {e : κ × α}

theorem find_some (h : find E k m = some e) : e ∈ m ∧ E.eq k e.1 = true := by
  have hk := find?_some h
  exact ⟨mem_of_find?_eq_some h, hk⟩

theorem find_eq_none_iff : find E k m = none ↔ ∀ e ∈ m, E.eq k e.1 = false := by
  rw [find, find?_eq_none]
  simp only [not_eq_true]

theorem Distinct.cons_iff :
    Distinct E (e :: m) ↔ (∀ e' ∈ m, E.eq e.1 e'.1 = false) ∧ Distinct E m :=
  pairwise_cons

theorem Distinct.find_of_mem (h : Distinct E m) (he : e ∈ m) (hk : E.eq k e.1 = true) :
    find E k m = some e := by
  induction m with
  | nil => cases he
  | cons a m ih =>
    obtain ⟨ha, hm⟩ := Distinct.cons_iff.mp h
    rw [find_cons]
    rcases mem_cons.mp he with rfl | he
    · rw [if_pos hk]
    · have hne : ¬ E.eq k a.1 = true := fun hka => by
        exact nomatch (E.trans (E.symm hka) hk).symm.trans (ha e he)
      rw [if_neg hne]
      exact ih hm he

theorem Distinct.find_iff (h : Distinct E m) : find E k m = some e ↔ e ∈ m ∧ E.eq k e.1 = true :=
  ⟨find_some, fun he => h.find_of_mem he.1 he.2⟩

theorem Distinct.nodup (h : Distinct E m) : m.Nodup := by
  refine h.imp fun {a b} hne heq => ?_
  subst heq
  exact nomatch (E.refl a.1).symm.trans hne

theorem distinct_perm (hperm : m.Perm m') (h : Distinct E m) : Distinct E m' := by
  refine hperm.pairwise h fun {a b} hab => ?_
  rw [eq_false_iff] at hab ⊢
  exact fun hba => hab (E.symm hba)

/-- The answers determine the entries up to order. -/
theorem perm_of_find (h : Distinct E m) (h' : Distinct E m') (hfind : ∀ k, find E k m = find E k m') :
    m.Perm m' := by
  refine (perm_ext_iff_of_nodup h.nodup h'.nodup).mpr fun e => ?_
  have hm : e ∈ m ↔ find E e.1 m = some e := by
    rw [h.find_iff, and_iff_left (E.refl e.1)]
  have hm' : e ∈ m' ↔ find E e.1 m' = some e := by
    rw [h'.find_iff, and_iff_left (E.refl e.1)]
  rw [hm, hm', hfind]

theorem find_perm (hperm : m.Perm m') (h : Distinct E m) (k : κ) : find E k m = find E k m' := by
  apply ext
  intro e
  rw [h.find_iff, (distinct_perm hperm h).find_iff, hperm.mem_iff]

theorem get_perm (hperm : m.Perm m') (h : Distinct E m) (k : κ) : get E k m = get E k m' := by
  rw [get, get, find_perm hperm h]

variable {a' : List (κ × α)}

theorem Same.perm {R : α → β → Prop} {b b' : List (κ × β)} (ha : a.Perm a') (hb : b.Perm b')
    (hda : Distinct E a) (hdb : Distinct E b) : Same E R a b ↔ Same E R a' b' := by
  unfold Same
  simp only [get_perm ha hda, get_perm hb hdb]

/-! ## Updates -/

/-- What an update stores for its key. -/
def updated (E : KeyEq κ) (k : κ) (f : Option α → α) (m : List (κ × α)) : κ × α :=
  match find E k m with
  | some e => (e.1, f (some e.2))
  | none => (k, f none)

theorem find_update (k : κ) (f : Option α → α) (m : List (κ × α)) (k' : κ) :
    find E k' (update E k f m)
      = if E.eq k k' = true then some (updated E k f m) else find E k' m := by
  induction m with
  | nil =>
    rw [update, find_cons, updated]
    by_cases h : E.eq k k' = true
    · rw [if_pos h, if_pos (E.symm h)]
      rfl
    · rw [if_neg h, if_neg fun h' => h (E.symm h')]
  | cons e m ih =>
    rw [update, updated, find_cons, find_cons]
    by_cases hk : E.eq k e.1 = true
    · rw [if_pos hk, if_pos hk, find_cons]
      by_cases h : E.eq k k' = true
      · rw [if_pos h, if_pos (E.trans (E.symm h) hk)]
      · have hne : ¬ E.eq k' e.1 = true := fun h' => h (E.trans hk (E.symm h'))
        rw [if_neg h, if_neg hne, if_neg hne]
    · rw [if_neg hk, if_neg hk, find_cons, ih]
      by_cases h : E.eq k k' = true
      · have hne : ¬ E.eq k' e.1 = true := fun h' => hk (E.trans h h')
        rw [if_neg hne, if_pos h, if_pos h, updated]
      · rw [if_neg h, if_neg h]

/-- What an update leaves is what it changed, or was there. -/
theorem mem_update {f : Option α → α} (he : e ∈ update E k f m) :
    (E.eq k e.1 = true ∧ ∃ old, e.2 = f old) ∨ e ∈ m := by
  induction m with
  | nil =>
    rw [update, mem_singleton] at he
    rw [he]
    exact .inl ⟨E.refl k, none, rfl⟩
  | cons a m ih =>
    rw [update] at he
    by_cases hk : E.eq k a.1 = true
    · rw [if_pos hk] at he
      rcases mem_cons.mp he with rfl | he
      · exact .inl ⟨hk, some a.2, rfl⟩
      · exact .inr (mem_cons_of_mem a he)
    · rw [if_neg hk] at he
      rcases mem_cons.mp he with rfl | he
      · exact .inr mem_cons_self
      · exact (ih he).imp id (mem_cons_of_mem a)

theorem Distinct.update {m : List (κ × α)} (h : Distinct E m) (k : κ) (f : Option α → α) :
    Distinct E (update E k f m) := by
  induction m with
  | nil => exact pairwise_singleton _ _
  | cons a m ih =>
    obtain ⟨ha, hm⟩ := Distinct.cons_iff.mp h
    rw [EntryMap.update]
    by_cases hk : E.eq k a.1 = true
    · rw [if_pos hk]
      exact Distinct.cons_iff.mpr ⟨ha, hm⟩
    · rw [if_neg hk]
      refine Distinct.cons_iff.mpr ⟨fun e he => ?_, ih hm⟩
      rcases mem_update he with ⟨hke, -⟩ | he
      · exact eq_false_iff.mpr fun hae => hk (E.trans hke (E.symm hae))
      · exact ha e he

theorem update_perm (hperm : m.Perm m') (h : Distinct E m) (k : κ) (f : Option α → α) :
    (update E k f m).Perm (update E k f m') := by
  refine perm_of_find (h.update k f) ((distinct_perm hperm h).update k f) fun k' => ?_
  rw [find_update, find_update, updated, updated, find_perm hperm h, find_perm hperm h]

variable {b : List (κ × α)}

/-- A key that is not among the later entries is updated among the first ones. -/
theorem update_append (f : Option α → α) (a : List (κ × α)) (hb : find E k b = none) :
    (update E k f (a ++ b)).Perm (update E k f a ++ b) := by
  induction a with
  | nil =>
    have hlast : ∀ b : List (κ × α), find E k b = none → update E k f b = b ++ [(k, f none)] := by
      intro b hb
      induction b with
      | nil => rfl
      | cons e b ih =>
        rw [find_cons] at hb
        by_cases hk : E.eq k e.1 = true
        · rw [if_pos hk] at hb
          cases hb
        · rw [if_neg hk] at hb
          rw [update, if_neg hk, ih hb, cons_append]
    rw [nil_append, hlast b hb]
    exact perm_append_comm
  | cons e a ih =>
    rw [cons_append, update, update]
    by_cases hk : E.eq k e.1 = true
    · rw [if_pos hk, if_pos hk, cons_append]
    · rw [if_neg hk, if_neg hk, cons_append]
      exact ih.cons e

theorem length_update (k : κ) (f : Option α → α) (m : List (κ × α)) :
    (update E k f m).length = m.length + if (find E k m).isSome then 0 else 1 := by
  induction m with
  | nil => rfl
  | cons e m ih =>
    rw [update, find_cons]
    by_cases hk : E.eq k e.1 = true
    · rw [if_pos hk, if_pos hk]
      rfl
    · rw [if_neg hk, if_neg hk, length_cons, ih, length_cons]
      omega

/-! ## Removals -/

theorem remove_sublist (k : κ) (m : List (κ × α)) : (remove E k m).Sublist m := by
  induction m with
  | nil => exact List.Sublist.refl _
  | cons e m ih =>
    rw [remove]
    split
    · exact sublist_cons_self e m
    · exact ih.cons_cons e

theorem Distinct.remove {m : List (κ × α)} (h : Distinct E m) (k : κ) : Distinct E (remove E k m) :=
  List.Pairwise.sublist (remove_sublist k m) h

theorem Distinct.find_remove (h : Distinct E m) (k k' : κ) :
    find E k' (EntryMap.remove E k m) = if E.eq k k' = true then none else find E k' m := by
  induction m with
  | nil =>
    rw [EntryMap.remove]
    split <;> rfl
  | cons e m ih =>
    obtain ⟨he, hm⟩ := Distinct.cons_iff.mp h
    rw [EntryMap.remove, find_cons]
    by_cases hk : E.eq k e.1 = true
    · rw [if_pos hk]
      by_cases hkk : E.eq k k' = true
      · rw [if_pos hkk]
        refine find_eq_none_iff.mpr fun a ha => ?_
        rw [← he a ha]
        exact E.congr (E.trans (E.symm hkk) hk) a.1
      · rw [if_neg hkk, if_neg fun h' => hkk (E.trans hk (E.symm h'))]
    · rw [if_neg hk, find_cons, ih hm]
      by_cases hkk : E.eq k k' = true
      · rw [if_pos hkk, if_neg fun h' => hk (E.trans hkk h'), if_pos hkk]
      · rw [if_neg hkk, if_neg hkk]

theorem remove_perm (hperm : m.Perm m') (h : Distinct E m) (k : κ) :
    (remove E k m).Perm (remove E k m') := by
  have h' := distinct_perm hperm h
  refine perm_of_find (h.remove k) (h'.remove k) fun k' => ?_
  rw [h.find_remove, h'.find_remove, find_perm hperm h]

theorem remove_append (a : List (κ × α)) (hb : find E k b = none) :
    remove E k (a ++ b) = remove E k a ++ b := by
  have hnone : remove E k b = b := by
    induction b with
    | nil => rfl
    | cons e b ih =>
      rw [find_cons] at hb
      by_cases hk : E.eq k e.1 = true
      · rw [if_pos hk] at hb
        cases hb
      · rw [if_neg hk] at hb
        rw [remove, if_neg hk, ih hb]
  induction a with
  | nil => exact hnone
  | cons e a ih =>
    rw [cons_append, remove, remove]
    by_cases hk : E.eq k e.1 = true
    · rw [if_pos hk, if_pos hk]
    · rw [if_neg hk, if_neg hk, ih, cons_append]

theorem remove_of_find_none (h : find E k m = none) : remove E k m = m := by
  have happend := remove_append (E := E) (k := k) [] h
  exact happend

theorem length_remove (k : κ) (m : List (κ × α)) :
    (remove E k m).length = m.length - if (find E k m).isSome then 1 else 0 := by
  induction m with
  | nil => rfl
  | cons e m ih =>
    rw [remove, find_cons]
    by_cases hk : E.eq k e.1 = true
    · rw [if_pos hk, if_pos hk]
      rfl
    · rw [if_neg hk, if_neg hk, length_cons, ih, length_cons]
      cases hf : find E k m with
      | none => rfl
      | some e' =>
        have hpos : 0 < m.length := length_pos_of_mem (find_some hf).1
        simp only [isSome_some, if_true]
        omega

/-! ## Filtered maps -/

theorem Distinct.filterMap {m : List (κ × α)} (h : Distinct E m) (f : κ → α → Option β) :
    Distinct E (filterMap f m) := by
  refine pairwise_filterMap.mpr (h.imp fun {a b} hab x hx y hy => ?_)
  obtain ⟨v, -, rfl⟩ := map_eq_some_iff.mp hx
  obtain ⟨w, -, rfl⟩ := map_eq_some_iff.mp hy
  exact hab

theorem filterMap_perm (hperm : m.Perm m') (f : κ → α → Option β) :
    (filterMap f m).Perm (filterMap f m') :=
  hperm.filterMap _

/-! ## Merges -/

theorem merge_cons (a : List (κ × α)) (e : κ × α) (b : List (κ × α)) :
    merge E a (e :: b) = merge E (insert E e.1 e.2 a) b := rfl

theorem Distinct.merge {a : List (κ × α)} (h : Distinct E a) (b : List (κ × α)) :
    Distinct E (merge E a b) := by
  induction b generalizing a with
  | nil => exact h
  | cons e b ih => exact ih (h.update e.1 _)

theorem distinct_ofList (l : List (κ × α)) : Distinct E (ofList E l) :=
  Distinct.merge List.Pairwise.nil l

/-- A merge answers with the right value under the left key. -/
theorem find_merge (a : List (κ × α)) (hb : Distinct E b) (k : κ) :
    find E k (merge E a b)
      = match find E k b with
        | none => find E k a
        | some y => some (((find E k a).map Prod.fst).getD y.1, y.2) := by
  induction b generalizing a with
  | nil => rfl
  | cons e b ih =>
    obtain ⟨he, hb⟩ := Distinct.cons_iff.mp hb
    rw [merge_cons, ih _ hb, find_cons, insert]
    by_cases hk : E.eq k e.1 = true
    · have hnone : find E k b = none := by
        refine find_eq_none_iff.mpr fun x hx => ?_
        rw [E.congr hk]
        exact he x hx
      rw [if_pos hk, hnone]
      simp only
      rw [find_update, if_pos (E.symm hk), updated, find_congr hk]
      cases find E e.1 a with
      | none => rfl
      | some x => rfl
    · rw [if_neg hk, find_update, if_neg fun h' => hk (E.symm h')]

theorem merge_perm_left (ha : a.Perm a') (hda : Distinct E a) (b : List (κ × α)) :
    (merge E a b).Perm (merge E a' b) := by
  induction b generalizing a a' with
  | nil => exact ha
  | cons e b ih => exact ih (update_perm ha hda e.1 _) (hda.update e.1 _)

theorem merge_perm {a' b b' : List (κ × α)} (ha : a.Perm a') (hb : b.Perm b') (hda : Distinct E a)
    (hdb : Distinct E b) : (merge E a b).Perm (merge E a' b') := by
  have hdb' := distinct_perm hb hdb
  refine perm_of_find (hda.merge b) ((distinct_perm ha hda).merge b') fun k => ?_
  rw [find_merge _ hdb, find_merge _ hdb', find_perm hb hdb, find_perm ha hda]

/-- Inserting distinct entries one after the other gives them back. -/
theorem ofList_perm {l : List (κ × α)} (h : Distinct E l) : (ofList E l).Perm l := by
  refine perm_of_find (distinct_ofList l) h fun k => ?_
  rw [ofList, find_merge _ h]
  cases find E k l <;> rfl

/-! ## Comparing by one side -/

theorem Distinct.length_le {b : List (κ × β)} (ha : Distinct E a) (hb : Distinct E b)
    (h : ∀ e ∈ a, (find E e.1 b).isSome = true) : a.length ≤ b.length := by
  induction a generalizing b with
  | nil => exact Nat.zero_le _
  | cons e a ih =>
    obtain ⟨he, ha⟩ := Distinct.cons_iff.mp ha
    have hsome := h e mem_cons_self
    have hlen := ih ha (hb.remove e.1) fun x hx => by
      have hne : ¬ E.eq e.1 x.1 = true := fun hex => nomatch hex.symm.trans (he x hx)
      rw [hb.find_remove, if_neg hne]
      exact h x (mem_cons_of_mem e hx)
    obtain ⟨y, hy⟩ := isSome_iff_exists.mp hsome
    have hpos : 0 < b.length := length_pos_of_mem (find_some hy).1
    rw [length_remove, if_pos hsome] at hlen
    rw [length_cons]
    omega

/-- A map whose classes are all in another one of the same size has the same classes. -/
theorem Distinct.covers {b : List (κ × β)} (ha : Distinct E a) (hb : Distinct E b)
    (hlen : b.length ≤ a.length) (h : ∀ e ∈ a, (find E e.1 b).isSome = true) (y : κ × β)
    (hy : y ∈ b) : (find E y.1 a).isSome = true := by
  by_contra hnone
  rw [not_isSome_iff_eq_none, find_eq_none_iff] at hnone
  -- Without the class of `y`, the second map would be too small.
  have hle := ha.length_le (hb.remove y.1) fun e he => by
    rw [hb.find_remove, if_neg (eq_false_iff.mp (hnone e he))]
    exact h e he
  have hpos : 0 < b.length := length_pos_of_mem hy
  rw [length_remove, hb.find_of_mem hy (E.refl y.1), isSome_some, if_pos rfl] at hle
  omega

end EntryMap

end Ridge
