import Ridge.Unify.Assignment
import Ridge.Unify.Termination

/-!
# The assignment of an acyclic context

Bindings without a cycle can be unfolded: `approx k` unfolds them `k` times, and past the
heights of the bound variables another round changes nothing. The limit satisfies the context
and leaves the free variables alone (`exists_canonical`), so it is deep resolution seen as an
assignment: `interp_deepResolve` says that it gives a type the meaning `deep_resolve` computes
for it, alias wrappers aside.

The exception is a projection `deep_resolve` cannot reduce because an argument wears an alias:
`unify` peels aliases before it reduces, `deep_resolve` does not. `SeesThrough` excludes it.
-/

namespace Ridge

open InferCtx List Option UnificationTable CapRow Workspace

variable {ρ : Assignment}

variable {W : Workspace} {σ : InferCtx} {n : Nat}

/-! ## Interpretation only reads the variables of a type -/

def Agree (ρ ρ' : Assignment) : Vertex → Prop
  | .ty v => ρ.ty v = ρ'.ty v
  | .row v => ρ.row v = ρ'.row v
  | .cap v => ρ.cap v = ρ'.cap v

variable {ρ' : Assignment}

theorem interpCaps_congr {c : CapRow} (h : ∀ w ∈ c.vertices, Agree ρ ρ' w) :
    ρ.interpCaps c = ρ'.interpCaps c := by
  induction c using CapRow.inductionOn with
  | concrete s => rfl
  | var v => exact h (.cap v) (by simp [vertices, CapRow.vars])
  | union rows ih =>
    have hrows : ∀ rs : List CapRow, (∀ r ∈ rs, r ∈ rows) →
        ρ.interpCapsAll rs = ρ'.interpCapsAll rs := by
      intro rs
      induction rs with
      | nil => exact fun _ => rfl
      | cons r rs ihr =>
        intro hmem
        have hr := hmem r mem_cons_self
        have heq := ih r hr fun w hw => by
          obtain ⟨v, hv, rfl⟩ := mem_map.mp hw
          exact h _ (mem_map.mpr ⟨v, CapRow.mem_varsAll.mpr ⟨r, hr, hv⟩, rfl⟩)
        rw [Assignment.interpCapsAll, Assignment.interpCapsAll, heq,
          ihr fun x hx => hmem x (mem_cons_of_mem _ hx)]
    exact hrows rows fun _ h => h

theorem tailRow_congr {tail : RowTail} (h : ∀ w ∈ tail.vars, Agree ρ ρ' w) :
    ρ.tailRow tail = ρ'.tailRow tail := by
  cases tail with
  | closed => rfl
  | opened rv => exact h (.row rv) (by simp [RowTail.vars])

theorem interp_congr {t : Ty} (h : ∀ w ∈ t.vars, Agree ρ ρ' w) : interp W ρ t = interp W ρ' t := by
  induction t using Ty.inductionOn with
  | var v => exact h (.ty v) (by simp [Ty.vars])
  | rigid id name => rfl
  | error => rfl
  | con id args ih | tuple ts ih =>
    rw [interp, interp, interpAll_eq_map, interpAll_eq_map, map_congr_left fun a ha =>
      ih a ha fun w hw => h w (Ty.mem_varsAll.mpr ⟨a, ha, hw⟩)]
  | wrapper name body ih => rw [interp, interp, ih h]
  | fn params ret caps ihp ihr =>
    simp only [Ty.vars, mem_append, or_imp, forall_and] at h
    rw [interp, interp, interpAll_eq_map, interpAll_eq_map, map_congr_left fun a ha =>
      ihp a ha fun w hw => h.1.1 w (Ty.mem_varsAll.mpr ⟨a, ha, hw⟩), ihr h.1.2,
      interpCaps_congr h.2]
  | record fields tail ih =>
    simp only [Ty.vars, mem_append, or_imp, forall_and] at h
    rw [interp, interp, interpFields_eq_map, interpFields_eq_map, tailRow_congr h.2,
      map_congr_left fun f hf => by
        rw [ih f hf fun w hw => h.1 w (Ty.mem_varsFields.mpr ⟨f, hf, hw⟩)]]

theorem interpRow_congr {row : Row} (h : ∀ w ∈ row.vars, Agree ρ ρ' w) :
    interpRow W ρ row = interpRow W ρ' row := by
  simp only [Row.vars, mem_append, or_imp, forall_and] at h
  rw [interpRow, interpRow, interpFields_eq_map, interpFields_eq_map, tailRow_congr h.2,
    map_congr_left fun f hf => by
      rw [interp_congr fun w hw => h.1 w (Ty.mem_varsFields.mpr ⟨f, hf, hw⟩)]]

/-! ## Unfolding the bindings -/

/-- Unfold the bindings `k` times. -/
def approx (W : Workspace) (σ : InferCtx) : Nat → Assignment
  | 0 =>
    { ty := fun v => .var (σ.tyvids.root v)
      row := fun v => ⟨[], .opened (σ.rowvids.root v)⟩
      cap := fun v => .var (σ.capvids.root v)
      cap_canonical := fun _ => CapRow.canonical_var _ }
  | k + 1 =>
    { ty := fun v => match σ.tyvids.probeValue v with
        | some t => interp W (approx W σ k) t
        | none => .var (σ.tyvids.root v)
      row := fun v => match σ.rowvids.probeValue v with
        | some row => interpRow W (approx W σ k) row
        | none => ⟨[], .opened (σ.rowvids.root v)⟩
      cap := fun v => match σ.capvids.probeValue v with
        | some c => (approx W σ k).interpCaps c
        | none => .var (σ.capvids.root v)
      cap_canonical := fun v => by
        split
        · exact (approx W σ k).interpCaps_canonical _
        · exact CapRow.canonical_var _ }

/-- Below height `k` round `k` changes nothing. -/
theorem agree_approx {height : Vertex → Nat} (hh : σ.IsHeight height) (k : Nat) (w : Vertex)
    (hw : height (σ.rootOf w) < k) : Agree (approx W σ k) (approx W σ (k + 1)) w := by
  induction k generalizing w with
  | zero => exact absurd hw (Nat.not_lt_zero _)
  | succ k ih =>
    have hbelow := hh.below_binding w
    have hvars : ∀ w₀ ∈ σ.bindingVars w, Agree (approx W σ k) (approx W σ (k + 1)) w₀ :=
      fun w₀ hw₀ => ih w₀ (lt_of_lt_of_le (hbelow w₀ hw₀) (Nat.le_of_lt_succ hw))
    cases w with
    | ty v =>
      simp only [Agree, approx]
      cases hv : σ.tyvids.probeValue v with
      | none => rfl
      | some t => exact interp_congr fun w₀ hw₀ => hvars w₀ (by rwa [bindingVars_ty hv])
    | row v =>
      simp only [Agree, approx]
      cases hv : σ.rowvids.probeValue v with
      | none => rfl
      | some row => exact interpRow_congr fun w₀ hw₀ => hvars w₀ (by rwa [bindingVars_row hv])
    | cap v =>
      simp only [Agree, approx]
      cases hv : σ.capvids.probeValue v with
      | none => rfl
      | some c => exact interpCaps_congr fun w₀ hw₀ => hvars w₀ (by rwa [bindingVars_cap hv])

/-- An unbound variable unfolds to its class at every round. -/
theorem agree_approx_of_free {j k : Nat} {w : Vertex}
    (hty : ∀ v, w = .ty v → σ.tyvids.probeValue v = none)
    (hrow : ∀ v, w = .row v → σ.rowvids.probeValue v = none)
    (hcap : ∀ v, w = .cap v → σ.capvids.probeValue v = none) :
    Agree (approx W σ j) (approx W σ k) w := by
  cases w with
  | ty v => cases j <;> cases k <;> simp [Agree, approx, hty v rfl]
  | row v => cases j <;> cases k <;> simp [Agree, approx, hrow v rfl]
  | cap v => cases j <;> cases k <;> simp [Agree, approx, hcap v rfl]

theorem exists_stable (W : Workspace) (h : σ.AcyclicBindings) :
    ∃ k, ∀ w, Agree (approx W σ k) (approx W σ (k + 1)) w := by
  obtain ⟨height, hh⟩ := h.exists_height
  -- every key of the three tables lies below some height; past them nothing is bound
  obtain ⟨k, hk⟩ := exists_below σ height
    ((List.range σ.tyvids.len).map .ty ++ (List.range σ.rowvids.len).map .row
      ++ (List.range σ.capvids.len).map .cap)
  refine ⟨k, fun w => ?_⟩
  cases w with
  | ty v =>
    by_cases hv : v < σ.tyvids.len
    · exact agree_approx hh k _ (hk _ (by simp [hv]))
    · refine agree_approx_of_free (fun u hu => ?_) (by simp) (by simp)
      cases hu
      exact σ.tyvids.probeValue_fresh (not_lt.mp hv)
  | row v =>
    by_cases hv : v < σ.rowvids.len
    · exact agree_approx hh k _ (hk _ (by simp [hv]))
    · refine agree_approx_of_free (by simp) (fun u hu => ?_) (by simp)
      cases hu
      exact σ.rowvids.probeValue_fresh (not_lt.mp hv)
  | cap v =>
    by_cases hv : v < σ.capvids.len
    · exact agree_approx hh k _ (hk _ (by simp [hv]))
    · refine agree_approx_of_free (by simp) (by simp) fun u hu => ?_
      cases hu
      exact σ.capvids.probeValue_fresh (not_lt.mp hv)

/-- The unbound variables stand for their own classes. -/
structure Free (ρ : Assignment) (σ : InferCtx) : Prop where
  ty : ∀ v, σ.tyvids.probeValue v = none → ρ.ty v = .var (σ.tyvids.root v)
  row : ∀ v, σ.rowvids.probeValue v = none → ρ.row v = ⟨[], .opened (σ.rowvids.root v)⟩
  cap : ∀ v, σ.capvids.probeValue v = none → ρ.cap v = .var (σ.capvids.root v)

theorem free_approx (k : Nat) : Free (approx W σ k) σ where
  ty v hv := by cases k <;> simp [approx, hv]
  row v hv := by cases k <;> simp [approx, hv]
  cap v hv := by cases k <;> simp [approx, hv]

/-- The assignment an acyclic context unfolds to. -/
theorem exists_canonical (W : Workspace) (h : σ.AcyclicBindings) : ∃ ρ, Sat W ρ σ ∧ Free ρ σ := by
  obtain ⟨k, hk⟩ := exists_stable W h
  refine ⟨approx W σ k, ⟨fun v => ?_, fun v t hv => ?_, fun v => ?_, fun v row hv => ?_,
    fun v => ?_, fun v c hv => ?_⟩, free_approx k⟩
  · cases k <;> simp [approx, σ.tyvids.root_root]
  · rw [show (approx W σ k).ty v = (approx W σ (k + 1)).ty v from hk (.ty v)]
    simp [approx, hv]
  · cases k <;> simp [approx, σ.rowvids.root_root]
  · rw [show (approx W σ k).row v = (approx W σ (k + 1)).row v from hk (.row v)]
    simp [approx, hv]
  · cases k <;> simp [approx, σ.capvids.root_root]
  · rw [show (approx W σ k).cap v = (approx W σ (k + 1)).cap v from hk (.cap v)]
    simp [approx, hv]

/-! ## Deep resolution computes the canonical meaning -/

theorem hom_strip (W : Workspace) : W.Hom Ty.strip where
  nil id := rfl
  con id args _ := by rw [Ty.strip, Ty.stripAll_eq_map]
  fn params ret caps := ⟨caps, by rw [Ty.strip, Ty.stripAll_eq_map]⟩
  fnPure params ret := by rw [Ty.strip, Ty.stripAll_eq_map]
  tuple ts := by rw [Ty.strip, Ty.stripAll_eq_map]

/-- The projection is not held back by the alias wrappers of its arguments. -/
def SeesThrough (W : Workspace) (id : TyConId) (args : List Ty) : Prop :=
  W.reduceProjection id args = none → W.reduceProjection id (args.map Ty.strip) = none

theorem strip_project {id : TyConId} {args : List Ty} (h : SeesThrough W id args) :
    (W.project id args).strip = W.project id (args.map Ty.strip) := by
  cases hred : W.reduceProjection id args with
  | none =>
    rw [project, hred, project, h hred, getD_none, getD_none,
      Ty.strip, Ty.stripAll_eq_map]
  | some u =>
    -- the head is in the table, and the reduction commutes with stripping
    have hid : id ∈ W.builtins.projections := by
      by_contra hid
      rw [W.reduceProjection_of_not_mem hid] at hred
      cases hred
    rw [← W.heads_eq] at hid
    obtain ⟨p, hp, rfl⟩ := mem_map.mp hid
    rw [project, hred, getD_some]
    rw [W.reduceProjection_head hp] at hred
    split at hred
    · next hlen =>
      exact (W.project_of_reduce hp (by rw [length_map, hlen])
        ((hom_strip W).reduce hp (fun _ id as _ => by rw [Ty.strip, Ty.stripAll_eq_map])
          hred)).symm
    · cases hred

/-- While resolving `t`, `deep_resolve` comes to apply `id` to the resolved `args`. -/
inductive Meets (W : Workspace) (σ : InferCtx) : Ty → TyConId → List Ty → Prop
  | here {n id raw args} : raw.mapM (σ.deepResolve W n) = some args →
      Meets W σ (.con id raw) id args
  | var {n v u id args} : σ.shallowResolve n (.var v) = some u → Meets W σ u id args →
      Meets W σ (.var v) id args
  | arg {head raw a id args} : a ∈ raw → Meets W σ a id args → Meets W σ (.con head raw) id args
  | param {params ret caps a id args} : a ∈ params → Meets W σ a id args →
      Meets W σ (.fn params ret caps) id args
  | ret {params ret caps id args} : Meets W σ ret id args →
      Meets W σ (.fn params ret caps) id args
  | elem {ts a id args} : a ∈ ts → Meets W σ a id args → Meets W σ (.tuple ts) id args
  | body {name t id args} : Meets W σ t id args → Meets W σ (.aliased name t) id args
  | field {n fields tail peeled tail' f id args} :
      σ.resolveRow n fields tail = some (peeled, tail') → f ∈ peeled → Meets W σ f.2 id args →
      Meets W σ (.record fields tail) id args

variable {c r : CapRow}

/-- Resolving a capability row rebuilds it. -/
theorem shallowResolveCaps_canonical (h : σ.shallowResolveCaps n c = some r) : r.Canonical := by
  induction n generalizing c r with
  | zero => cases h
  | succ n ih =>
    cases c with
    | concrete s => cases h; exact canonical_concrete s
    | var v =>
      simp only [shallowResolveCaps, UnificationTable.find, probeValue_root] at h
      cases hv : σ.capvids.probeValue v with
      | some bound => rw [hv] at h; exact ih h
      | none => rw [hv] at h; cases h; exact canonical_var _
    | union rows =>
      have hfold : ∀ (rows : List CapRow) (acc : CapRow), acc.Canonical →
          rows.foldlM (fun acc row => (σ.shallowResolveCaps n row).map acc.unionWith) acc
            = some r → r.Canonical := by
        intro rows
        induction rows with
        | nil => intro acc hacc hr; cases hr; exact hacc
        | cons row rows ihr =>
          intro acc _ hr
          rw [foldlM_cons] at hr
          obtain ⟨acc', hacc', hr⟩ := bind_eq_some_iff.mp hr
          obtain ⟨row', -, rfl⟩ := map_eq_some_iff.mp hacc'
          exact ihr _ (canonical_unionWith _ _) hr
      exact hfold rows _ (canonical_concrete _) h

/-- A resolved capability row stands for itself. -/
theorem interpCaps_of_free (hfree : Free ρ σ) (h : σ.shallowResolveCaps n c = some r) :
    ρ.interpCaps r = r := by
  apply (ρ.interpCaps_canonical r).ext (shallowResolveCaps_canonical h)
  rw [Assignment.parts_interpCaps, Assignment.interpParts]
  have hvar : ∀ v ∈ r.parts.2, (ρ.cap v).parts = (⊥, {v}) := by
    intro v hv
    obtain ⟨hroot, hnone⟩ := shallowResolveCaps_unbound h v ((r.mem_vars_iff v).mpr hv)
    rw [hfree.cap v hnone, hroot]
    rfl
  have hsup : ∀ s : Finset Nat, (s.sup fun v => ((⊥, {v}) : CapRow.Parts)) = (⊥, s) := by
    intro s
    induction s using Finset.induction_on with
    | empty => rfl
    | insert v s _ ih =>
      rw [Finset.sup_insert, ih, Prod.mk_sup_mk, sup_idem]
      rfl
  rw [Finset.sup_congr rfl hvar, hsup, Prod.mk_sup_mk, sup_bot_eq]
  exact Prod.ext rfl (bot_sup_eq _)

theorem resolveRow_free {out out' : List Field} {tail tail' : RowTail}
    (h : σ.resolveRow n out tail = some (out', tail')) (hfree : Free ρ σ) :
    ρ.tailRow tail' = ⟨[], tail'⟩ := by
  induction n generalizing out tail with
  | zero => cases h
  | succ n ih =>
    cases tail with
    | closed => cases h; rfl
    | opened rv =>
      simp only [resolveRow, UnificationTable.find, probeValue_root] at h
      cases hrv : σ.rowvids.probeValue rv with
      | some row => rw [hrv] at h; exact ih h
      | none =>
        rw [hrv] at h
        cases h
        rw [Assignment.tailRow, hfree.row _ (by rw [probeValue_root, hrv]),
          σ.rowvids.root_root]

theorem interp_mapM_deepResolve {ts ds : List Ty} (h : ts.mapM (σ.deepResolve W n) = some ds)
    (ih : ∀ t ∈ ts, ∀ d, σ.deepResolve W n t = some d → interp W ρ t = d.strip) :
    ts.map (interp W ρ) = ds.map Ty.strip := by
  induction ts generalizing ds with
  | nil => cases h; rfl
  | cons t ts iht =>
    rw [mapM_cons] at h
    obtain ⟨d, hd, h⟩ := bind_eq_some_iff.mp h
    obtain ⟨ds', hds', h⟩ := bind_eq_some_iff.mp h
    cases h
    rw [map_cons, map_cons, ih t mem_cons_self d hd,
      iht hds' fun u hu => ih u (mem_cons_of_mem t hu)]

theorem interp_mapM_fields {fs gs : List Field}
    (h : (fs.mapM fun f => (σ.deepResolve W n f.2).map fun t => (f.1, t)) = some gs)
    (ih : ∀ f ∈ fs, ∀ d, σ.deepResolve W n f.2 = some d → interp W ρ f.2 = d.strip) :
    interpFields W ρ fs = Ty.stripFields gs := by
  induction fs generalizing gs with
  | nil => cases h; rfl
  | cons f fs ihf =>
    rw [mapM_cons] at h
    obtain ⟨g, hg, h⟩ := bind_eq_some_iff.mp h
    obtain ⟨gs', hgs', h⟩ := bind_eq_some_iff.mp h
    obtain ⟨d, hd, rfl⟩ := map_eq_some_iff.mp hg
    cases h
    rw [interpFields, Ty.stripFields, ih f mem_cons_self d hd,
      ihf hgs' fun x hx => ih x (mem_cons_of_mem f hx)]

/-- Under the canonical assignment a type means what `deep_resolve` makes of it. -/
theorem interp_deepResolve (hρ : Sat W ρ σ) (hfree : Free ρ σ) {t d : Ty}
    (hmeets : ∀ id args, Meets W σ t id args → SeesThrough W id args)
    (h : σ.deepResolve W n t = some d) : interp W ρ t = d.strip := by
  induction n generalizing t d with
  | zero => cases h
  | succ n ih =>
    cases t with
    | rigid id name => cases h; rfl
    | error => cases h; rfl
    | var v =>
      rw [deepResolve] at h
      obtain ⟨u, hu, h⟩ := bind_eq_some_iff.mp h
      rw [← interp_shallowResolve hρ hu]
      cases u with
      | var w =>
        cases h
        obtain ⟨hroot, hnone⟩ := shallowResolve_eq_var hu
        rw [interp, hfree.ty w hnone, hroot, Ty.strip]
      | rigid | con | fn | tuple | record | aliased | error =>
        exact ih (fun id args hm => hmeets id args (.var hu hm)) h
    | con id raw =>
      rw [deepResolve] at h
      obtain ⟨args, hargs, h⟩ := bind_eq_some_iff.mp h
      cases h
      rw [interp, interpAll_eq_map, interp_mapM_deepResolve hargs fun a ha d hd =>
        ih (fun id args hm => hmeets id args (.arg ha hm)) hd]
      exact (strip_project (hmeets id args (.here hargs))).symm
    | tuple ts =>
      rw [deepResolve] at h
      obtain ⟨ds, hds, h⟩ := bind_eq_some_iff.mp h
      cases h
      rw [interp, interpAll_eq_map, interp_mapM_deepResolve hds fun a ha d hd =>
        ih (fun id args hm => hmeets id args (.elem ha hm)) hd, Ty.strip, Ty.stripAll_eq_map]
    | aliased name body =>
      rw [deepResolve] at h
      obtain ⟨b, hb, h⟩ := bind_eq_some_iff.mp h
      cases h
      rw [interp, Ty.strip, ih (fun id args hm => hmeets id args (.body hm)) hb]
    | fn params ret caps =>
      rw [deepResolve] at h
      obtain ⟨ps, hps, h⟩ := bind_eq_some_iff.mp h
      obtain ⟨r, hr, h⟩ := bind_eq_some_iff.mp h
      obtain ⟨c, hc, h⟩ := bind_eq_some_iff.mp h
      cases h
      rw [interp, interpAll_eq_map, interp_mapM_deepResolve hps fun a ha d hd =>
        ih (fun id args hm => hmeets id args (.param ha hm)) hd,
        ih (fun id args hm => hmeets id args (.ret hm)) hr, Ty.strip, Ty.stripAll_eq_map,
        ← interpCaps_shallowResolveCaps hρ hc, interpCaps_of_free hfree hc]
    | record fields tail =>
      rw [deepResolve] at h
      obtain ⟨⟨peeled, tail'⟩, hrow, h⟩ := bind_eq_some_iff.mp h
      obtain ⟨resolved, hres, h⟩ := bind_eq_some_iff.mp h
      cases h
      have hfields := interp_mapM_fields hres fun f hf d hd =>
        ih (fun id args hm => hmeets id args (.field hrow hf hm)) hd
      have hstrip : Ty.stripFields (normaliseFields resolved)
          = normaliseFields (Ty.stripFields resolved) := by
        rw [Ty.stripFields_eq_map, Ty.stripFields_eq_map]
        exact (KeyedList.normalise_map _ _).symm
      rw [interp, ← interp_resolveRow hρ hrow, hfields, resolveRow_free hrow hfree, Row.extend,
        append_nil, Ty.mkRecord, Ty.strip, hstrip, Ty.mkRecord, normaliseFields,
        normaliseFields, KeyedList.normalise_normalise]
      rfl

end Ridge
