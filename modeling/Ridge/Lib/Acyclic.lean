import Mathlib.Data.Finset.Card

/-!
# Acyclic relations

A relation is acyclic when no vertex reaches itself along one or more edges. Two changes keep a
relation acyclic: new edges out of one vertex into vertices that do not reach it, and merging
vertices that have no way out. With finitely many sources an acyclic relation has a height, a
number that drops along every edge, which is what recursion along the edges runs on.
-/

namespace Ridge

open Relation

variable {α : Type*}

/-- No vertex reaches itself. -/
def Acyclic (r : α → α → Prop) : Prop := ∀ v, ¬ TransGen r v v

namespace Acyclic

variable {r r' : α → α → Prop}

/-- Without edges there is no cycle. -/
theorem of_no_edge (h : ∀ u w, ¬ r u w) : Acyclic r := by
  intro v hv
  obtain ⟨w, hvw, -⟩ := TransGen.head'_iff.mp hv
  exact h v w hvw

/-- A number that drops along every edge rules cycles out. -/
theorem of_height (height : α → Nat) (h : ∀ u w, r u w → height w < height u) : Acyclic r := by
  have hpath : ∀ u w, TransGen r u w → height w < height u := by
    intro u w huw
    induction huw with
    | single huw => exact h _ _ huw
    | tail _ hbc ih => exact Nat.lt_trans (h _ _ hbc) ih
  exact fun v hv => Nat.lt_irrefl _ (hpath v v hv)

theorem mono (hr : Acyclic r) (h : ∀ u w, r' u w → r u w) : Acyclic r' :=
  fun v hv => hr v (TransGen.mono h v v hv)

variable {S : Set α}

/-- A path of the larger relation either was there before or passes through `x`. -/
private theorem path_through {x : α} (h : ∀ u w, r' u w → r u w ∨ (u = x ∧ w ∈ S)) {u v : α}
    (huv : ReflTransGen r' u v) :
    ReflTransGen r u v ∨ (ReflTransGen r u x ∧ ∃ w ∈ S, ReflTransGen r w v) := by
  induction huv using ReflTransGen.head_induction_on with
  | refl => exact .inl .refl
  | head hstep _ ih =>
    rcases h _ _ hstep with hr | ⟨rfl, hS⟩
    · rcases ih with hold | ⟨hx, hw⟩
      · exact .inl (.head hr hold)
      · exact .inr ⟨.head hr hx, hw⟩
    · rcases ih with hold | ⟨-, hw⟩
      · exact .inr ⟨.refl, _, hS, hold⟩
      · exact .inr ⟨.refl, hw⟩

/-- New edges out of `x` close no cycle as long as none of their targets reaches `x`. -/
theorem add_out (hr : Acyclic r) {x : α} (h : ∀ u w, r' u w → r u w ∨ (u = x ∧ w ∈ S))
    (hS : ∀ w ∈ S, ¬ ReflTransGen r w x) : Acyclic r' := by
  intro v hv
  obtain ⟨w, hvw, hwv⟩ := TransGen.head'_iff.mp hv
  rcases path_through h hwv with hold | ⟨hx, w', hw', hwv'⟩
  · rcases h _ _ hvw with hedge | ⟨rfl, hw⟩
    · exact hr v (TransGen.head' hedge hold)
    · exact hS w hw hold
  · rcases h _ _ hvw with hedge | ⟨rfl, hw⟩
    · exact hS w' hw' (hwv'.trans (ReflTransGen.head hedge hx))
    · exact hS w hw hx

/-- Merging vertices without a way out closes no cycle. -/
theorem merge (hr : Acyclic r) (f : α → α) (h : ∀ u w, r' u w → ∃ w₀, r u w₀ ∧ w = f w₀)
    (hsink : ∀ w, f w ≠ w → ∀ z, ¬ r' (f w) z) : Acyclic r' := by
  have hedge : ∀ u w z, r' u w → r' w z → r u w := by
    intro u w z huw hwz
    obtain ⟨w₀, hr₀, rfl⟩ := h u w huw
    by_cases hw : f w₀ = w₀
    · rwa [hw]
    · exact absurd hwz (hsink w₀ hw z)
  have hpath : ∀ u v, TransGen r' u v → (∃ z, r' v z) → TransGen r u v := by
    intro u v huv
    induction huv with
    | single huv => exact fun ⟨z, hz⟩ => .single (hedge _ _ z huv hz)
    | tail _ hbc ih => exact fun ⟨z, hz⟩ => (ih ⟨_, hbc⟩).tail (hedge _ _ z hbc hz)
  intro v hv
  obtain ⟨w, hvw, -⟩ := TransGen.head'_iff.mp hv
  exact hr v (hpath v v hv ⟨w, hvw⟩)

/-- With finitely many sources, some number drops along every edge. -/
theorem exists_height (hr : Acyclic r) (sources : Finset α) (h : ∀ u w, r u w → u ∈ sources) :
    ∃ height : α → Nat, ∀ u w, r u w → height w < height u := by
  classical
  refine ⟨fun u => (sources.filter fun w => ReflTransGen r u w).card, fun u w huw => ?_⟩
  refine Finset.card_lt_card (Finset.ssubset_iff_subset_ne.mpr ⟨?_, ?_⟩)
  · intro v hv
    rw [Finset.mem_filter] at hv ⊢
    exact ⟨hv.1, .head huw hv.2⟩
  · -- `u` itself is counted above `u` and not above `w`
    intro heq
    have hu : u ∈ sources.filter fun w => ReflTransGen r u w :=
      Finset.mem_filter.mpr ⟨h u w huw, .refl⟩
    rw [← heq, Finset.mem_filter] at hu
    exact hr u (TransGen.head' huw hu.2)

end Acyclic

end Ridge
