import Ridge.Unify.Unify
import Ridge.Unify.Termination

/-!
# Unification keeps the bindings acyclic

Every write unification makes is one of four: a union of two unbound variables, a binding of a
type variable after `occurs`, a binding of a row variable after `row_occurs`, a binding of a
capability variable that does not occur in its row. The first merges vertices without a way
out, the others add edges out of one vertex, so acyclicity is a question of reachability, and
for rows and capabilities the checks answer it. For type variables `occurs` looks at part of
the graph only: `UnifyEvent.Seen` says that a binding of the journal is not of the kind it
misses.

`unify_acyclic` is the step, `runs_acyclic` the run: from a fresh context, through allocations
and calls of `unify` and `try_unify`, successful or not.
-/

namespace Ridge

open Run InferCtx Relation List UnificationTable

variable {W : Workspace} {n : Nat} {σ σ' : InferCtx} {es : List UnifyEvent}

/-- The occurs check saw everything there was to see. -/
def UnifyEvent.Seen : UnifyEvent → Prop
  | .bindTy σ x t => ¬ σ.HiddenOccurrence x t
  | .bindRow _ _ _ => True
  | .reduced _ _ => True

/-- From an acyclic context, journal bindings of the right kind lead to an acyclic context. -/
def KeepsAcyclic (σ : InferCtx) (es : List UnifyEvent) (σ' : InferCtx) : Prop :=
  (∀ e ∈ es, e.Seen) → σ.AcyclicBindings → σ'.AcyclicBindings

theorem journaled_keepsAcyclic : Journaled KeepsAcyclic where
  refl _ _ h := h
  trans h₁ h₂ hes h :=
    h₂ (fun e he => hes e (mem_append_right _ he))
      (h₁ (fun e he => hes e (mem_append_left _ he)) h)

/-! ## The writes -/

namespace InferCtx

theorem not_reachesFrom_nil {v : Vertex} : ¬ σ.ReachesFrom [] v := by
  simp [ReachesFrom]

theorem eq_of_reachesFrom_unbound {w v : Vertex} (hw : σ.bindingVars w = [])
    (h : σ.ReachesFrom [w] v) : v = σ.rootOf w := by
  rcases reachesFrom_singleton.mp h with heq | hreach
  · exact heq
  · rw [hw] at hreach
    exact absurd hreach not_reachesFrom_nil

/-- Binding one class adds edges out of that class. -/
theorem AcyclicBindings.bind (h : σ.AcyclicBindings) (u : Vertex) (vs : List Vertex)
    (hroot : σ'.rootOf = σ.rootOf)
    (hvars : ∀ w, σ'.bindingVars w = if σ.rootOf w = σ.rootOf u then vs else σ.bindingVars w)
    (hreach : ¬ σ.ReachesFrom vs (σ.rootOf u)) : σ'.AcyclicBindings := by
  refine Acyclic.add_out h (x := σ.rootOf u) (S := {w | ∃ w₀ ∈ vs, w = σ.rootOf w₀}) ?_ ?_
  · rintro v w ⟨hv, w₀, hw₀, rfl⟩
    rw [hroot] at hv ⊢
    rw [hvars] at hw₀
    split at hw₀
    · next heq => exact .inr ⟨by rw [← hv, heq], w₀, hw₀, rfl⟩
    · exact .inl ⟨hv, w₀, hw₀, rfl⟩
  · rintro w ⟨w₀, hw₀, rfl⟩ hpath
    exact hreach ⟨w₀, hw₀, hpath⟩

/-- A write that changes neither classes nor bindings. -/
theorem AcyclicBindings.same (h : σ.AcyclicBindings) (hroot : σ'.rootOf = σ.rootOf)
    (hvars : σ'.bindingVars = σ.bindingVars) : σ'.AcyclicBindings := by
  refine Acyclic.mono h ?_
  rintro u w ⟨hu, w₀, hw₀, rfl⟩
  rw [hroot] at hu ⊢
  rw [hvars] at hw₀
  exact ⟨hu, w₀, hw₀, rfl⟩

/-- Uniting unbound classes merges vertices without a way out. -/
theorem AcyclicBindings.unite (h : σ.AcyclicBindings) {a b c : Vertex}
    (ha : σ.bindingVars a = []) (hb : σ.bindingVars b = [])
    (hc : c = σ.rootOf a ∨ c = σ.rootOf b)
    (hroot : ∀ w, σ'.rootOf w
      = if σ.rootOf w = σ.rootOf a ∨ σ.rootOf w = σ.rootOf b then c else σ.rootOf w)
    (hvars : σ'.bindingVars = σ.bindingVars) : σ'.AcyclicBindings := by
  have hcnil : σ.bindingVars c = [] := by
    rcases hc with rfl | rfl
    · rw [bindingVars_rootOf, ha]
    · rw [bindingVars_rootOf, hb]
  have hnil : ∀ w, (σ.rootOf w = σ.rootOf a ∨ σ.rootOf w = σ.rootOf b) →
      σ.bindingVars w = [] := by
    rintro w (hw | hw)
    · rw [← bindingVars_rootOf, hw, bindingVars_rootOf, ha]
    · rw [← bindingVars_rootOf, hw, bindingVars_rootOf, hb]
  refine Acyclic.merge h
    (fun w => if w = σ.rootOf a ∨ w = σ.rootOf b then c else w) ?_ ?_
  · rintro u w ⟨hu, w₀, hw₀, rfl⟩
    rw [hvars] at hw₀
    refine ⟨σ.rootOf w₀, ⟨?_, w₀, hw₀, rfl⟩, hroot w₀⟩
    -- a bound vertex is in neither of the two classes, so it keeps its root
    rw [hroot] at hu
    split at hu
    · next hw => rw [hnil u hw] at hw₀; simp at hw₀
    · exact hu
  · rintro w hw z ⟨-, w₀, hw₀, -⟩
    split at hw
    · next hwab =>
      rw [if_pos hwab, hvars, hcnil] at hw₀
      simp at hw₀
    · exact hw rfl

theorem rootOf_unionValue_ty (x : TyVid) (t : Ty) :
    ({ σ with tyvids := σ.tyvids.unionValue x t } : InferCtx).rootOf = σ.rootOf := by
  funext w; cases w <;> rfl

section

variable (h : σ.AcyclicBindings)
include h

/-- Binding a type variable the type does not reach. -/
theorem AcyclicBindings.bindTy {x : TyVid} {t : Ty}
    (hreach : ¬ σ.ReachesFrom t.vars (.ty (σ.tyvids.root x))) :
    ({ σ with tyvids := σ.tyvids.unionValue x t } : InferCtx).AcyclicBindings := by
  cases hx : σ.tyvids.probeValue x with
  | none =>
    refine h.bind (.ty x) t.vars (rootOf_unionValue_ty x t) (fun w => ?_) hreach
    cases w with
    | ty v =>
      simp only [bindingVars, rootOf, Vertex.ty.injEq, probeValue_unionValue _ t hx]
      split <;> simp
    | row v | cap v => simp [bindingVars, rootOf]
  | some b =>
    have hprobe := σ.tyvids.probeValue_unionValue_bound (a := x) t (by rw [hx]; simp)
    refine h.same (rootOf_unionValue_ty x t) (funext fun w => ?_)
    cases w <;> simp [bindingVars, hprobe]

theorem AcyclicBindings.bindRow {rv : RowVid} {row : Row}
    (hreach : ¬ σ.ReachesFrom row.vars (.row (σ.rowvids.root rv))) :
    ({ σ with rowvids := σ.rowvids.unionValue rv row } : InferCtx).AcyclicBindings := by
  have hroot : ({ σ with rowvids := σ.rowvids.unionValue rv row } : InferCtx).rootOf
      = σ.rootOf := by funext w; cases w <;> rfl
  cases hrv : σ.rowvids.probeValue rv with
  | none =>
    refine h.bind (.row rv) row.vars hroot (fun w => ?_) hreach
    cases w with
    | row v =>
      simp only [bindingVars, rootOf, Vertex.row.injEq,
        probeValue_unionValue _ row hrv]
      split <;> simp
    | ty v | cap v => simp [bindingVars, rootOf]
  | some b =>
    have hprobe := σ.rowvids.probeValue_unionValue_bound (a := rv) row (by rw [hrv]; simp)
    refine h.same hroot (funext fun w => ?_)
    cases w <;> simp [bindingVars, hprobe]

/-- Binding a capability variable the row does not reach. -/
theorem AcyclicBindings.bindCap {v : CapVid} {c : CapRow}
    (hreach : ¬ σ.ReachesFrom c.vertices (.cap (σ.capvids.root v))) :
    ({ σ with capvids := σ.capvids.unionValue v c } : InferCtx).AcyclicBindings := by
  have hroot : ({ σ with capvids := σ.capvids.unionValue v c } : InferCtx).rootOf
      = σ.rootOf := by funext w; cases w <;> rfl
  cases hv : σ.capvids.probeValue v with
  | none =>
    refine h.bind (.cap v) c.vertices hroot (fun w => ?_) hreach
    cases w with
    | cap w =>
      simp only [bindingVars, rootOf, Vertex.cap.injEq,
        probeValue_unionValue _ c hv]
      split <;> simp
    | ty w | row w => simp [bindingVars, rootOf]
  | some b =>
    have hprobe := σ.capvids.probeValue_unionValue_bound (a := v) c (by rw [hv]; simp)
    refine h.same hroot (funext fun w => ?_)
    cases w <;> simp [bindingVars, hprobe]

/-- Uniting two unbound type variables. -/
theorem AcyclicBindings.unionTy {x y : TyVid} (hx : σ.tyvids.probeValue x = none)
    (hy : σ.tyvids.probeValue y = none) :
    ({ σ with tyvids := σ.tyvids.union x y } : InferCtx).AcyclicBindings := by
  obtain ⟨c, hc, hroot⟩ := σ.tyvids.root_union x y
  have hprobe := σ.tyvids.probeValue_union hx hy
  refine h.unite (a := .ty x) (b := .ty y) (c := .ty c) (bindingVars_ty_none hx)
    (bindingVars_ty_none hy) (by simpa [rootOf] using hc) (fun w => ?_) (funext fun w => ?_)
  · cases w with
    | ty v =>
      simp only [rootOf, hroot, Vertex.ty.injEq]
      split <;> rfl
    | row v | cap v => simp [rootOf]
  · cases w <;> simp [bindingVars, hprobe]

/-- Uniting two unbound capability variables. -/
theorem AcyclicBindings.unionCap {v w : CapVid} (hv : σ.capvids.probeValue v = none)
    (hw : σ.capvids.probeValue w = none) :
    ({ σ with capvids := σ.capvids.union v w } : InferCtx).AcyclicBindings := by
  obtain ⟨c, hc, hroot⟩ := σ.capvids.root_union v w
  have hprobe := σ.capvids.probeValue_union hv hw
  refine h.unite (a := .cap v) (b := .cap w) (c := .cap c) (bindingVars_cap_none hv)
    (bindingVars_cap_none hw) (by simpa [rootOf] using hc) (fun u => ?_) (funext fun u => ?_)
  · cases u with
    | cap u =>
      simp only [rootOf, hroot, Vertex.cap.injEq]
      split <;> rfl
    | ty u | row u => simp [rootOf]
  · cases u <;> simp [bindingVars, hprobe]

/-- Handing out keys leaves the graph as it is. -/
theorem AcyclicBindings.fresh :
    σ.freshTyvid.2.AcyclicBindings ∧ σ.freshCapvid.2.AcyclicBindings
      ∧ σ.freshRowvid.2.AcyclicBindings := by
  refine ⟨h.same ?_ ?_, h.same ?_ ?_, h.same ?_ ?_⟩ <;>
    (funext w; cases w <;> rfl)

end

/-- A fresh context binds nothing. -/
theorem acyclicBindings_new : InferCtx.new.AcyclicBindings := by
  refine Acyclic.of_no_edge ?_
  rintro u w ⟨-, w₀, hw₀, -⟩
  cases u <;> simp [bindingVars, InferCtx.new, probeValue,
    UnificationTable.empty] at hw₀

end InferCtx

/-! ## Each part of `unify` -/

/-- Binding an unbound capability variable to resolved parts it is not among. -/
theorem InferCtx.AcyclicBindings.bindCap_resolved {v : CapVid} {b : CapRow} (hocc : v ∉ b.vars)
    (hunb : ∀ w ∈ b.vars, σ.capvids.root w = w ∧ σ.capvids.probeValue w = none)
    (hv : σ.capvids.root v = v) (h : σ.AcyclicBindings) :
    ({ σ with capvids := σ.capvids.unionValue v b } : InferCtx).AcyclicBindings := by
  refine h.bindCap ?_
  rintro ⟨w, hw, hpath⟩
  obtain ⟨u, hu, rfl⟩ := mem_map.mp hw
  have hreach : σ.ReachesFrom [.cap u] (.cap (σ.capvids.root v)) :=
    ⟨.cap u, mem_singleton_self _, hpath⟩
  have heq := eq_of_reachesFrom_unbound (bindingVars_cap_none (hunb u hu).2) hreach
  rw [rootOf, (hunb u hu).1, hv] at heq
  cases heq
  exact hocc hu

theorem follows_unifyCaps (a b : CapRow) : Follows KeepsAcyclic (unifyCaps n a b) := by
  induction n generalizing a b with
  | zero => exact follows_diverge
  | succ n ih =>
    intro σ r σ' es h
    rw [unifyCaps] at h
    obtain ⟨a', ha, h⟩ := read_bind_eq_some.mp h
    obtain ⟨b', hb, h⟩ := read_bind_eq_some.mp h
    have hau := shallowResolveCaps_unbound ha
    have hbu := shallowResolveCaps_unbound hb
    cases hrec : CapRow.recursiveUnion a' b' with
    | some p => rw [hrec] at h; exact ih _ _ _ _ _ _ h
    | none =>
      rw [hrec] at h
      dsimp only at h
      split at h
      · cases h; exact journaled_keepsAcyclic.refl _
      · have hmis : ∀ {x y : String}, capMismatch x y σ = some (r, σ', es) →
            KeepsAcyclic σ es σ' := fun hm => by cases hm; exact journaled_keepsAcyclic.refl _
        cases a' with
        | concrete s =>
          cases b' with
          | concrete t => exact hmis h
          | var w =>
            dsimp only at h
            split at h
            · next hw => cases h; exact fun _ hσ => hσ.bindCap_resolved hw hau (hbu w (by simp [CapRow.vars])).1
            · exact hmis h
          | union rows => exact hmis h
        | var v =>
          have hv := hau v (by simp [CapRow.vars])
          cases b' with
          | concrete t =>
            dsimp only at h
            split at h
            · next hw => cases h; exact fun _ hσ => hσ.bindCap_resolved hw hbu hv.1
            · exact hmis h
          | var w =>
            cases h
            exact fun _ hσ => hσ.unionCap hv.2 (hbu w (by simp [CapRow.vars])).2
          | union rows =>
            dsimp only at h
            split at h
            · next hw => cases h; exact fun _ hσ => hσ.bindCap_resolved hw hbu hv.1
            · exact hmis h
        | union rows =>
          cases b' with
          | concrete t => exact hmis h
          | var w =>
            dsimp only at h
            split at h
            · next hw => cases h; exact fun _ hσ => hσ.bindCap_resolved hw hau (hbu w (by simp [CapRow.vars])).1
            · exact hmis h
          | union rows => exact hmis h

section
variable (W n)

theorem follows_mismatch {α : Type} (a b : Ty) :
    Follows KeepsAcyclic (W.mismatch n a b : UnifyM α) := by
  have hJ := journaled_keepsAcyclic
  refine follows_bind hJ (follows_read hJ _) fun a => follows_bind hJ (follows_read hJ _) fun b => ?_
  cases W.insertShapeFullEntity a b with
  | some err | none => exact follows_fail hJ _

theorem follows_rowMismatch {α : Type} (f₁ : List Field) (t₁ : RowTail) (f₂ : List Field)
    (t₂ : RowTail) (only₁ only₂ : List Field) :
    Follows KeepsAcyclic (W.rowMismatch n f₁ t₁ f₂ t₂ only₁ only₂ : UnifyM α) := by
  have hJ := journaled_keepsAcyclic
  exact follows_bind hJ (follows_read hJ _) fun _ =>
    follows_bind hJ (follows_read hJ _) fun _ => follows_fail hJ _

theorem follows_bindVar (x : TyVid) (t : Ty) : Follows KeepsAcyclic (bindVar W n x t) := by
  have hJ := journaled_keepsAcyclic
  intro σ r σ' es h
  obtain ⟨b, hb, h⟩ := read_bind_eq_some.mp h
  cases b with
  | true =>
    have hfail : Follows KeepsAcyclic (W.occursCheckTy n x t : UnifyM Unit) :=
      follows_bind hJ (follows_read hJ _) fun _ =>
        follows_bind hJ (follows_read hJ _) fun _ => follows_fail hJ _
    exact hfail _ _ _ _ h
  | false =>
    obtain ⟨es₁, h, rfl⟩ := record_bind_eq_some.mp h
    cases h
    intro hseen hσ
    -- whatever `occurs` misses is hidden behind a row, and the journal rules that out
    refine hσ.bindTy fun hreach => ?_
    exact hseen _ mem_cons_self (occurs_complete hb hreach)

theorem follows_bindRow (rv : RowVid) (fields : List Field) (tail : RowTail) :
    Follows KeepsAcyclic (bindRow W n rv fields tail) := by
  have hJ := journaled_keepsAcyclic
  intro σ r σ' es h
  obtain ⟨b, hb, h⟩ := read_bind_eq_some.mp h
  cases b with
  | true =>
    have hfail : Follows KeepsAcyclic (W.occursCheckRow n fields tail : UnifyM Unit) :=
      follows_bind hJ (follows_read hJ _) fun _ => follows_fail hJ _
    exact hfail _ _ _ _ h
  | false =>
    obtain ⟨es₁, h, rfl⟩ := record_bind_eq_some.mp h
    cases h
    refine fun _ hσ => hσ.bindRow fun hreach => rowOccurs_complete n hb (hreach.mono fun w hw => ?_)
    rw [Row.vars, mem_append, Ty.mem_varsFields] at hw
    rw [mem_append, Ty.mem_varsFields]
    rcases hw with ⟨f, hf, hw⟩ | hw
    · exact .inl ⟨f, KeyedList.mem_of_mem_normalise hf, hw⟩
    · exact .inr hw

theorem follows_freshRowvid :
    Follows KeepsAcyclic (modifyGet InferCtx.freshRowvid : UnifyM RowVid) := by
  intro σ r σ' es h
  cases h
  exact fun _ hσ => hσ.fresh.2.2

variable {rec : Ty → Ty → UnifyM Unit} (hrec : ∀ a b, Follows KeepsAcyclic (rec a b))
include hrec

theorem follows_unifyAll (pairs : List (Ty × Ty)) : Follows KeepsAcyclic (unifyAll rec pairs) :=
  follows_forEach journaled_keepsAcyclic fun p _ => hrec p.1 p.2

theorem follows_unifyRows (f₁ : List Field) (t₁ : RowTail) (f₂ : List Field) (t₂ : RowTail) :
    Follows KeepsAcyclic (unifyRows W n rec f₁ t₁ f₂ t₂) := by
  have hJ := journaled_keepsAcyclic
  refine follows_bind hJ (follows_read hJ _) fun ⟨f₁, t₁⟩ => ?_
  refine follows_bind hJ (follows_read hJ _) fun ⟨f₂, t₂⟩ => ?_
  refine follows_bind hJ (follows_unifyAll hrec _) fun _ => ?_
  cases t₁ with
  | closed =>
    cases t₂ with
    | closed =>
      dsimp only
      split
      · exact follows_pure hJ ()
      · exact follows_rowMismatch W n _ _ _ _ _ _
    | opened rv₂ =>
      dsimp only
      split
      · exact follows_bindRow W n _ _ _
      · exact follows_rowMismatch W n _ _ _ _ _ _
  | opened rv₁ =>
    cases t₂ with
    | closed =>
      dsimp only
      split
      · exact follows_bindRow W n _ _ _
      · exact follows_rowMismatch W n _ _ _ _ _ _
    | opened rv₂ =>
      dsimp only
      split
      · split
        · exact follows_pure hJ ()
        · exact follows_rowMismatch W n _ _ _ _ _ _
      · exact follows_bind hJ follows_freshRowvid fun _ =>
          follows_bind hJ (follows_bindRow W n _ _ _) fun _ => follows_bindRow W n _ _ _

/-- Comparing two resolved shapes: the variables among the two operands are unbound. -/
theorem keepsAcyclic_unifyShapes {a b : Ty} {r : Except TypeError Unit}
    (ha : ∀ x, a = .var x → σ.tyvids.probeValue x = none)
    (hb : ∀ y, b = .var y → σ.tyvids.probeValue y = none)
    (h : unifyShapes W n rec a b σ = some (r, σ', es)) : KeepsAcyclic σ es σ' := by
  have hJ := journaled_keepsAcyclic
  have hpure : (pure () : UnifyM Unit) σ = some (r, σ', es) → KeepsAcyclic σ es σ' :=
    fun h => follows_pure hJ () _ _ _ _ h
  have hmis : ∀ {a b : Ty}, (W.mismatch n a b : UnifyM Unit) σ = some (r, σ', es) →
      KeepsAcyclic σ es σ' := fun h => follows_mismatch W n _ _ _ _ _ _ h
  unfold unifyShapes at h
  split at h
  · exact hpure h
  · exact hpure h
  · next x y => cases h; exact fun _ hσ => hσ.unionTy (ha x rfl) (hb y rfl)
  · exact follows_bindVar W n _ _ _ _ _ _ h
  · exact follows_bindVar W n _ _ _ _ _ _ h
  · split at h
    · exact hpure h
    · exact hmis h
  · split at h
    · exact hmis h
    · exact follows_unifyAll hrec _ _ _ _ _ h
  · split at h
    · exact follows_fail hJ _ _ _ _ _ h
    · exact follows_bind hJ (follows_unifyAll hrec _) (fun _ =>
        follows_bind hJ (hrec _ _) fun _ => follows_unifyCaps _ _) _ _ _ _ h
  · split at h
    · exact follows_fail hJ _ _ _ _ _ h
    · exact follows_unifyAll hrec _ _ _ _ _ h
  · exact follows_unifyRows W n hrec _ _ _ _ _ _ _ _ h
  · exact hrec _ _ _ _ _ _ h
  · exact hrec _ _ _ _ _ _ h
  · exact hmis h

end

/-! ## Calls and runs -/

theorem unify_keepsAcyclic (W : Workspace) (n : Nat) (a b : Ty) :
    Follows KeepsAcyclic (unify W n a b) := by
  have hJ := journaled_keepsAcyclic
  induction n generalizing a b with
  | zero => exact follows_diverge
  | succ n ih =>
    intro σ r σ' es h
    obtain ⟨a', b', ha, hb, hstep⟩ := unify_cases h
    cases hstep with
    | reduceLeft _ _ hrun | reduceRight _ _ hrun =>
      exact fun hseen => ih _ _ _ _ _ _ hrun fun e he => hseen e (mem_cons_of_mem _ he)
    | invertLeft _ hent hrun
    | invertRight _ hent hrun => exact hJ.trans (ih _ _ _ _ _ _ hent) (ih _ _ _ _ _ _ hrun)
    | shapes hshapes =>
      exact keepsAcyclic_unifyShapes W n ih
        (fun x hx => (shallowResolve_eq_var (by rw [ha, hx])).2)
        (fun y hy => (shallowResolve_eq_var (by rw [hb, hy])).2) hshapes

/-- `try_unify` hands back either the tables of a successful call or the ones it was given. -/
theorem tryUnify_keepsAcyclic (W : Workspace) (n : Nat) (a b : Ty) :
    Follows KeepsAcyclic (tryUnify W n a b) := by
  intro σ r σ' es h
  unfold tryUnify at h
  rcases hu : unify W n a b σ with _ | ⟨_ | _, σ₁, es₁⟩
  · rw [hu] at h; cases h
  · rw [hu] at h; cases h; exact journaled_keepsAcyclic.refl σ
  · rw [hu] at h; cases h; exact unify_keepsAcyclic W n a b _ _ _ _ hu

/-- What a client of the context does: hand out variables and unify. -/
inductive ClientStep (W : Workspace) : InferCtx → List UnifyEvent → InferCtx → Prop
  | freshTyvid (σ : InferCtx) : ClientStep W σ [] σ.freshTyvid.2
  | freshCapvid (σ : InferCtx) : ClientStep W σ [] σ.freshCapvid.2
  | freshRowvid (σ : InferCtx) : ClientStep W σ [] σ.freshRowvid.2
  | unify {n : Nat} {a b : Ty} {σ σ' : InferCtx} {r : Except TypeError Unit}
      {es : List UnifyEvent} : unify W n a b σ = some (r, σ', es) → ClientStep W σ es σ'
  | tryUnify {n : Nat} {a b : Ty} {σ σ' : InferCtx} {r : Except TypeError Bool}
      {es : List UnifyEvent} : tryUnify W n a b σ = some (r, σ', es) → ClientStep W σ es σ'

/-- A run of a client, with the journal of the bindings it leaves behind. -/
inductive ClientRun (W : Workspace) : InferCtx → List UnifyEvent → InferCtx → Prop
  | nil (σ : InferCtx) : ClientRun W σ [] σ
  | snoc {σ σ₁ σ₂ : InferCtx} {es fs : List UnifyEvent} : ClientRun W σ es σ₁ →
      ClientStep W σ₁ fs σ₂ → ClientRun W σ (es ++ fs) σ₂

theorem ClientStep.keepsAcyclic (h : ClientStep W σ es σ') : KeepsAcyclic σ es σ' := by
  cases h with
  | freshTyvid => exact fun _ hσ => hσ.fresh.1
  | freshCapvid => exact fun _ hσ => hσ.fresh.2.1
  | freshRowvid => exact fun _ hσ => hσ.fresh.2.2
  | unify h => exact unify_keepsAcyclic W _ _ _ _ _ _ _ h
  | tryUnify h => exact tryUnify_keepsAcyclic W _ _ _ _ _ _ _ h

theorem ClientRun.keepsAcyclic (h : ClientRun W σ es σ') : KeepsAcyclic σ es σ' := by
  induction h with
  | nil => exact journaled_keepsAcyclic.refl _
  | snoc _ hstep ih => exact journaled_keepsAcyclic.trans ih hstep.keepsAcyclic

/-- Along every run from a fresh context whose bindings the occurs check saw through, the
bindings form no cycle, and every resolution function returns on every type. -/
theorem runs_acyclic (W : Workspace) {σ : InferCtx} {es : List UnifyEvent}
    (hrun : ClientRun W .new es σ) (hseen : ∀ e ∈ es, e.Seen) :
    σ.AcyclicBindings ∧ σ.Resolves W := by
  have hσ := hrun.keepsAcyclic hseen acyclicBindings_new
  exact ⟨hσ, hσ.resolves W⟩

/-- A run that binds `?0` to a constructor. -/
theorem runs_acyclic_constructor : ∃ σ es, ClientRun .bare .new es σ ∧ es ≠ [] ∧
    σ.AcyclicBindings ∧ σ.Resolves .bare := by
  refine ⟨_, _, .snoc (.snoc (.nil .new) (.freshTyvid _))
    (.unify (n := 3) (a := .var 0) (b := .con 20 []) rfl), by simp, runs_acyclic .bare
      (.snoc (.snoc (.nil .new) (.freshTyvid _))
        (.unify (n := 3) (a := .var 0) (b := .con 20 []) rfl)) ?_⟩
  simp [UnifyEvent.Seen, HiddenOccurrence, Ty.vars, Ty.varsAll, ReachesFrom]

/-- A context in which `?0` is bound to the open record over `?0`'s own row. -/
structure BindsThroughTail (σ : InferCtx) : Prop where
  ty : σ.tyvids.probeValue 0 = some (.record [] (.opened 0))
  row : σ.rowvids.probeValue 0 = some ⟨[("f", .var 0)], .closed⟩
  tyRoot : σ.tyvids.root 0 = 0
  rowRoot : σ.rowvids.root 0 = 0

theorem BindsThroughTail.not_acyclic (h : BindsThroughTail σ) : ¬ σ.AcyclicBindings := by
  intro hacyc
  have h₁ : σ.Edge (.ty 0) (.row 0) :=
    ⟨by rw [rootOf, h.tyRoot], .row 0, by rw [bindingVars_ty h.ty]; simp [Ty.vars, RowTail.vars,
      Ty.varsFields], by rw [rootOf, h.rowRoot]⟩
  have h₂ : σ.Edge (.row 0) (.ty 0) :=
    ⟨by rw [rootOf, h.rowRoot], .ty 0, by rw [bindingVars_row h.row]; simp [Row.vars,
      Ty.varsFields, Ty.vars], by rw [rootOf, h.tyRoot]⟩
  exact hacyc _ (.head h₁ (.single h₂))

theorem BindsThroughTail.deepResolve_none (h : BindsThroughTail σ) :
    ∀ n, σ.deepResolve W n (.var 0) = none ∧
      σ.deepResolve W n (.record [] (.opened 0)) = none := by
  have hrow : ∀ n, σ.resolveRow n [] (.opened 0) = none ∨
      σ.resolveRow n [] (.opened 0) = some ([("f", .var 0)], .closed) := by
    rintro (_ | _ | n)
    · exact .inl rfl
    · left; simp [resolveRow, UnificationTable.find, h.row]
    · right; simp [resolveRow, UnificationTable.find, h.row]
  have hty : ∀ n, σ.shallowResolve n (.var 0) = none ∨
      σ.shallowResolve n (.var 0) = some (.record [] (.opened 0)) := by
    rintro (_ | _ | n)
    · exact .inl rfl
    · left; simp [shallowResolve, UnificationTable.find, h.ty]
    · right; simp [shallowResolve, UnificationTable.find, h.ty]
  intro n
  induction n with
  | zero => exact ⟨rfl, rfl⟩
  | succ n ih =>
    constructor
    · rw [deepResolve]
      rcases hty n with hn | hn <;> rw [hn]
      · rfl
      · exact ih.2
    · rw [deepResolve]
      rcases hrow n with hn | hn <;> rw [hn]
      · rfl
      · simp [mapM_cons, ih.1]

theorem BindsThroughTail.breaks (h : BindsThroughTail σ) :
    ¬ σ.AcyclicBindings ∧ ¬ Terminates fun n => σ.deepResolve W n (.var 0) := by
  refine ⟨h.not_acyclic, ?_⟩
  rintro ⟨u, N, hN⟩
  have hnone := hN N (Nat.le_refl N)
  dsimp only at hnone
  rw [(h.deepResolve_none N).1] at hnone
  cases hnone

/-- Two calls that succeed from a fresh context and leave a cycle: `{ | ρ0 }` against
`{ f: ?0 }`, then `?0` against `{ | ρ0 }`. Deep resolution of `?0` never returns. -/
theorem row_tail_closes_cycle : ∃ σ₁ es₁ σ₂ es₂,
    unify .bare 5 (.record [] (.opened 0)) (.record [("f", .var 0)] .closed)
      InferCtx.new.freshTyvid.2.freshRowvid.2 = some (.ok (), σ₁, es₁) ∧
    unify .bare 5 (.var 0) (.record [] (.opened 0)) σ₁ = some (.ok (), σ₂, es₂) ∧
    ClientRun .bare .new (es₁ ++ es₂) σ₂ ∧ ¬ σ₂.AcyclicBindings ∧
    ¬ Terminates fun n => σ₂.deepResolve .bare n (.var 0) := by
  refine ⟨_, _, _, _, rfl, rfl, ?_, ?_⟩
  · exact .snoc (.snoc (.snoc (.snoc (.nil .new) (.freshTyvid _)) (.freshRowvid _))
      (.unify (n := 5) (a := .record [] (.opened 0)) (b := .record [("f", .var 0)] .closed) rfl))
      (.unify (n := 5) (a := .var 0) (b := .record [] (.opened 0)) rfl)
  · exact BindsThroughTail.breaks ⟨rfl, rfl, rfl, rfl⟩

end Ridge
