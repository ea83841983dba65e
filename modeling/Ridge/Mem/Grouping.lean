import Ridge.Lib.Answers
import Ridge.Mem.Aggregate

/-!
# ridge_rt — the groups of a GROUP BY

`mem_group_nary_by` finds a row's group by `==` and matches it by `=:=`, so it returns exactly where
no two keys are equal without being the same term: two zeros of opposite sign.
-/

namespace Ridge

open List

variable {groups : List (SqlValue × List SqlRow)}

section

variable {D : Doubles}

mutual

theorem termEq_refl : ∀ a : SqlValue, termEq D a a = true
  | .sqlArray as => termsEq_refl as
  | .sqlNull => rfl
  | .sqlInt _ | .sqlText _ | .sqlBool _ | .sqlFloat _ | .sqlInstant _ | .sqlDecimal _ | .sqlUuid _
  | .sqlBytes _ | .sqlJson _ | .sqlDate _ | .sqlTime _ | .sqlInterval _ => decide_eq_true rfl

theorem termsEq_refl : ∀ as : List SqlValue, termsEq D as as = true
  | [] => rfl
  | a :: as => Bool.and_eq_true_iff.mpr ⟨termEq_refl a, termsEq_refl as⟩

end

mutual

theorem termEq_symm : ∀ {a b : SqlValue}, termEq D a b = true → termEq D b a = true
  | .sqlArray as, b, h => by
    cases b with
    | sqlArray bs => exact termsEq_symm (show termsEq D as bs = true from h)
    | _ => cases h
  | .sqlFloat x, b, h => by
    cases b with
    | sqlFloat y => exact decide_eq_true (of_decide_eq_true h).symm
    | _ => cases h
  | .sqlInt _, _, h | .sqlText _, _, h | .sqlBool _, _, h | .sqlNull, _, h | .sqlInstant _, _, h
  | .sqlDecimal _, _, h | .sqlUuid _, _, h | .sqlBytes _, _, h | .sqlJson _, _, h
  | .sqlDate _, _, h | .sqlTime _, _, h | .sqlInterval _, _, h => by
    cases of_decide_eq_true h
    exact termEq_refl _

theorem termsEq_symm : ∀ {as bs : List SqlValue}, termsEq D as bs = true → termsEq D bs as = true
  | [], [], _ => rfl
  | a :: as, b :: bs, h => by
    obtain ⟨hab, hrest⟩ := Bool.and_eq_true_iff.mp h
    exact Bool.and_eq_true_iff.mpr ⟨termEq_symm hab, termsEq_symm hrest⟩

end

/-- No two keys are equal numbers and different terms. -/
def KeysApart (D : Doubles) (keys : List SqlValue) : Prop :=
  ∀ a ∈ keys, ∀ b ∈ keys, termEq D a b → a = b

def groupKeys (groups : List (SqlValue × List SqlRow)) : List SqlValue := groups.map Prod.fst

variable {key : SqlValue}

variable {row : SqlRow}

theorem answers_addToGroup (h : KeysApart D (groupKeys groups)) :
    Answers (addToGroup D key row groups) ↔ ∀ k ∈ groupKeys groups, termEq D k key → k = key := by
  induction groups with
  | nil => exact iff_of_true (answers_ok _) fun k hk => nomatch hk
  | cons g groups ih =>
    obtain ⟨k, rows⟩ := g
    have htail : KeysApart D (groupKeys groups) := fun a ha b hb =>
      h a (mem_cons_of_mem _ ha) b (mem_cons_of_mem _ hb)
    show _ ↔ ∀ k' ∈ k :: groupKeys groups, _
    rw [forall_mem_cons]
    unfold addToGroup
    by_cases heq : termEq D k key = true
    · rw [if_pos heq]
      by_cases hk : k = key
      · rw [if_pos hk]
        refine iff_of_true (answers_ok _) ⟨fun _ => hk, fun k' hk' heq' => ?_⟩
        rw [← hk] at heq' ⊢
        exact h k' (mem_cons_of_mem _ hk') k mem_cons_self heq'
      · rw [if_neg hk]
        exact iff_of_false (not_answers_error _) fun hall => hk (hall.1 heq)
    · rw [if_neg heq, answers_bind, ih htail]
      exact ⟨fun hall => ⟨fun hk => absurd hk heq, hall.1⟩,
        fun hall => ⟨hall.2, fun _ _ => answers_pure _⟩⟩

theorem mem_groupKeys_addToGroup {groups' : List (SqlValue × List SqlRow)}
    (h : addToGroup D key row groups = .ok groups') (k : SqlValue) :
    k ∈ groupKeys groups' ↔ k ∈ groupKeys groups ∨ k = key := by
  induction groups generalizing groups' with
  | nil =>
    cases h
    simp [groupKeys]
  | cons g groups ih =>
    obtain ⟨k', rows⟩ := g
    unfold addToGroup at h
    split at h
    · split at h
      · next hkey =>
          cases h
          show k ∈ k' :: groupKeys groups ↔ k ∈ k' :: groupKeys groups ∨ k = key
          rw [← hkey]
          exact ⟨.inl, fun hmem => hmem.elim id fun hk => hk ▸ mem_cons_self⟩
      · cases h
    · obtain ⟨rest, hrest, hout⟩ := eval_bind_eq_ok.mp h
      cases hout
      show k ∈ k' :: groupKeys rest ↔ k ∈ k' :: groupKeys groups ∨ k = key
      rw [mem_cons, mem_cons, ih hrest, or_assoc]

theorem keysApart_insert {keys : List SqlValue} (h : KeysApart D keys) :
    KeysApart D (key :: keys) ↔ ∀ k ∈ keys, termEq D k key → k = key := by
  refine ⟨fun hall k hk => hall k (mem_cons_of_mem _ hk) key mem_cons_self,
    fun hall a ha b hb heq => ?_⟩
  rcases mem_cons.mp ha with rfl | hka <;> rcases mem_cons.mp hb with rfl | hkb
  · rfl
  · exact (hall b hkb (termEq_symm heq)).symm
  · exact hall a hka heq
  · exact h a hka b hkb heq

theorem KeysApart.congr {keys keys' : List SqlValue} (h : ∀ k, k ∈ keys ↔ k ∈ keys') :
    KeysApart D keys ↔ KeysApart D keys' := by
  unfold KeysApart
  simp only [h]

variable {keyName : String} {rows : List SqlRow}

/-- The rows to come find their groups where their keys are apart from those and each other. -/
theorem answers_foldGroups (h : KeysApart D (groupKeys groups)) :
    Answers (rows.foldlM (fun groups row => addToGroup D (cellOf keyName row) row groups) groups) ↔
      KeysApart D (groupKeys groups ++ rows.map (cellOf keyName)) := by
  induction rows generalizing groups with
  | nil =>
    rw [map_nil, append_nil]
    exact iff_of_true (answers_pure groups) h
  | cons row rows ih =>
    rw [answers_foldlM_cons, answers_addToGroup h, ← keysApart_insert h]
    have hstep : ∀ groups', addToGroup D (cellOf keyName row) row groups = .ok groups' →
        ∀ k, k ∈ groupKeys groups' ↔ k ∈ cellOf keyName row :: groupKeys groups := by
      intro groups' hgroups' k
      rw [mem_groupKeys_addToGroup hgroups', mem_cons, or_comm]
    have hlist : ∀ groups', addToGroup D (cellOf keyName row) row groups = .ok groups' →
        (KeysApart D (groupKeys groups' ++ rows.map (cellOf keyName)) ↔
          KeysApart D (groupKeys groups ++ (row :: rows).map (cellOf keyName))) := by
      intro groups' hgroups'
      apply KeysApart.congr
      intro k
      rw [mem_append, hstep groups' hgroups', mem_cons, mem_append, map_cons,
        mem_cons, or_comm (a := k = _), or_assoc]
    constructor
    · rintro ⟨hapart, hrest⟩
      obtain ⟨groups', hgroups'⟩ := (answers_addToGroup h).mpr ((keysApart_insert h).mp hapart)
      have hapart' := (KeysApart.congr (hstep groups' hgroups')).mpr hapart
      exact (hlist groups' hgroups').mp ((ih hapart').mp (hrest groups' hgroups'))
    · intro hall
      have hapart : KeysApart D (cellOf keyName row :: groupKeys groups) := by
        intro a ha b hb
        apply hall
        · rw [mem_append, map_cons, mem_cons]
          exact (mem_cons.mp ha).elim (fun ha => .inr (.inl ha)) .inl
        · rw [mem_append, map_cons, mem_cons]
          exact (mem_cons.mp hb).elim (fun hb => .inr (.inl hb)) .inl
      refine ⟨hapart, fun groups' hgroups' => ?_⟩
      have hapart' := (KeysApart.congr (hstep groups' hgroups')).mpr hapart
      exact (ih hapart').mpr ((hlist groups' hgroups').mpr hall)

/-- Grouping returns exactly where the keys are apart. -/
theorem answers_memGroupNaryBy :
    Answers (memGroupNaryBy D keyName rows) ↔ KeysApart D (rows.map (cellOf keyName)) := by
  have hnone : KeysApart D (groupKeys []) := fun _ ha => nomatch ha
  exact answers_foldGroups hnone

end

end Ridge
