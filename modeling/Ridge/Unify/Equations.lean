import Ridge.Unify.MostGeneral

/-!
# Equations one after the other

The checker unifies as it goes along: what stands here is about the calls together, and about the
test each of them makes before it binds a variable.
-/

namespace Ridge.Unifiers

open Run InferCtx List UnificationTable

variable {W : Workspace} {σ : InferCtx} {ρ : Assignment} {pairs : List (Ty × Ty)}

/-- A substitution that extends the bindings and solves all the equations. -/
structure CommonUnifier (W : Workspace) (σ : InferCtx) (pairs : List (Ty × Ty)) (ρ : Assignment) :
    Prop where
  sat : Sat W ρ σ
  sorted : ∀ rv, KeyedList.Strict (ρ.row rv).fields
  each : ∀ p ∈ pairs, Unifier W σ p.1 p.2 ρ

/-- Equations between ordinary types that have a common unifier are solved in whatever order they
are taken, and every common unifier factors through the bindings that are made. -/
theorem unifyAll_most_general (W : Workspace) (hσ : σ.AcyclicBindings) (hal : Allocated σ)
    (hold : ∀ p ∈ pairs, Old σ p.1.vars ∧ Old σ p.2.vars)
    (hord : ∀ p ∈ pairs, Ordinary W σ p.1 ∧ Ordinary W σ p.2) (hρ : CommonUnifier W σ pairs ρ)
    {order : List (Ty × Ty)} (hperm : order.Perm pairs) :
    ∃ σ' es, Converges (fun n => unifyAll (unify W n) order σ) (.ok (), σ', es) ∧
      ∀ ρ, CommonUnifier W σ pairs ρ → ∃ ρ', Sat W ρ' σ' ∧ SameOn σ ρ ρ' := by
  have hfactors : ∀ ρ, CommonUnifier W σ pairs ρ → ∃ σ' es,
      Converges (fun n => unifyAll (unify W n) order σ) (.ok (), σ', es) ∧
        ∃ ρ', Sat W ρ' σ' ∧ SameOn σ ρ ρ' := by
    intro ρ hρ
    obtain ⟨σ', ρ', ⟨es, hends⟩, hext⟩ := factors_unifyAll (unify_factors W (scope W σ ρ)
      (Ty.heightAll (pairs.map fun p => interp W ρ p.1) + 1))
      (models_scope hσ hal hρ.sat hρ.sorted) fun p (hp : p ∈ order) => by
        have hp := hperm.subset hp
        have heach := hρ.each p hp
        exact ⟨fit_of_fine hρ.sorted (fun u hu => ⟨(hord p hp).1 u hu, heach.apart u (.inl hu)⟩)
          (hold p hp).1, fit_of_fine hρ.sorted
            (fun u hu => ⟨(hord p hp).2 u hu, heach.apart u (.inr hu)⟩) (hold p hp).2,
          heach.equal, Nat.lt_succ_of_le (Ty.height_le_heightAll (mem_map_of_mem hp))⟩
    exact ⟨σ', es, hends, ρ', hext.models.sat, hext.same⟩
  obtain ⟨σ', es, hends, -⟩ := hfactors ρ hρ
  refine ⟨σ', es, hends, fun ρ hρ => ?_⟩
  obtain ⟨σ₁, es₁, hends₁, hρ'⟩ := hfactors ρ hρ
  cases hends.eq_of_eq hends₁
  exact hρ'

/-- `?0 = A`, twice. -/
theorem unifyAll_most_general_twice : ∃ σ' es,
    Converges (fun n => unifyAll (unify .bare n) (replicate 2 (.var 0, .con 20 []))
      InferCtx.new.freshTyvid.2) (.ok (), σ', es) := by
  let σ := InferCtx.new.freshTyvid.2
  have hvar : ∀ {P : Ty → Prop}, P (.var 0) → ∀ u, Reaches σ u (.var 0) → P u := by
    intro P hP u hu
    cases hu with
    | here => exact hP
    | var h _ => cases h
  have hunifier : Unifier .bare σ (.var 0) (.con 20 [])
      { constantRow ⟨[], .closed⟩ with ty := fun _ => .con 20 [] } :=
    ⟨⟨fun _ => rfl, nofun, fun _ => rfl, nofun, fun _ => rfl, nofun⟩, fun _ => .nil, fun u hu =>
      hu.elim (hvar trivial u) (forall_reaches_nullary trivial u), rfl⟩
  have hpair : ∀ {P : Ty × Ty → Prop}, P (.var 0, .con 20 []) →
      ∀ p ∈ replicate 2 (.var 0, .con 20 []), P p := fun hP p hp => eq_of_mem_replicate hp ▸ hP
  obtain ⟨σ', es, hends, -⟩ := unifyAll_most_general .bare acyclicBindings_new.fresh.1
    ⟨fun w rv hrv => (by cases w <;> cases hrv), fun rv hrv => hrv⟩
    (hpair ⟨fun rv hrv => by simp [Ty.vars] at hrv, nofun⟩)
    (hpair ⟨hvar trivial, forall_reaches_nullary
      (show (20 : TyConId) ∉ Workspace.bare.builtins.projections by decide)⟩)
    ⟨hunifier.sat, hunifier.sorted, hpair hunifier⟩ (.refl _)
  exact ⟨σ', es, hends⟩

end Ridge.Unifiers

/-! ## What the occurs check decides -/

namespace Ridge.InferCtx

open UnificationTable Relation

variable {σ : InferCtx} {x : TyVid} {t : Ty}

theorem binding_closes_cycle (hx : σ.tyvids.probeValue x = none)
    (h : σ.ReachesFrom t.vars (.ty (σ.tyvids.root x))) :
    ¬ ({ σ with tyvids := σ.tyvids.unionValue x t } : InferCtx).AcyclicBindings := by
  obtain ⟨w, hw, hwx⟩ := h
  -- every old edge is still there: the only vertex that changed was unbound
  have hold : ∀ u v, σ.Edge u v →
      ({ σ with tyvids := σ.tyvids.unionValue x t } : InferCtx).Edge u v := by
    rintro u v ⟨hu, v₀, hv₀, rfl⟩
    refine ⟨by rw [rootOf_unionValue_ty, hu], v₀, ?_, by rw [rootOf_unionValue_ty]⟩
    cases u with
    | ty u =>
      have hne : σ.tyvids.root u ≠ σ.tyvids.root x := by
        intro heq
        rw [← bindingVars_rootOf, rootOf, heq, ← rootOf, bindingVars_rootOf,
          bindingVars_ty_none hx] at hv₀
        simp at hv₀
      simpa [bindingVars, probeValue_unionValue _ t hx, hne] using hv₀
    | row u => exact hv₀
    | cap u => exact hv₀
  intro hacyc
  refine hacyc (.ty (σ.tyvids.root x)) (TransGen.head' ?_ (ReflTransGen.mono hold _ _ hwx))
  refine ⟨by simp [rootOf, σ.tyvids.root_root], w, ?_, by rw [rootOf_unionValue_ty]⟩
  simpa [bindingVars, probeValue_unionValue _ t hx, σ.tyvids.root_root] using hw

/-- On acyclic bindings the occurs check answers, and binding the variable keeps them acyclic exactly
if the answer is no and no row variable hides the way from the type to the variable. -/
theorem occurs_decides_cycles (hσ : σ.AcyclicBindings) (hx : σ.tyvids.probeValue x = none)
    (t : Ty) : ∃ b, Converges (fun n => σ.occurs n x t) b ∧
      (({ σ with tyvids := σ.tyvids.unionValue x t } : InferCtx).AcyclicBindings ↔
        b = false ∧ ¬ σ.HiddenOccurrence x t) := by
  obtain ⟨b, N, hN⟩ := (hσ.resolves .bare).occurs x t
  have hanswer : σ.occurs N x t = some b := hN N (Nat.le_refl N)
  refine ⟨b, ⟨N, hN⟩, fun h => ⟨Bool.eq_false_iff.mpr fun hb => ?_, ?_⟩, ?_⟩
  · exact binding_closes_cycle hx (Unifiers.reaches_of_occurs (hb ▸ hanswer)) h
  · rintro ⟨ρ, ⟨w, hw, hwρ⟩, hρx⟩
    exact binding_closes_cycle hx ⟨w, hw, hwρ.trans hρx⟩ h
  · rintro ⟨rfl, hhidden⟩
    exact hσ.bindTy fun hreach => hhidden (occurs_complete hanswer hreach)

theorem occurs_decides_cycles_fresh :
    ∃ b, Converges (fun n => InferCtx.new.occurs n 0 (.var 1)) b :=
  (occurs_decides_cycles acyclicBindings_new rfl (.var 1)).imp fun _ h => h.1

end Ridge.InferCtx
