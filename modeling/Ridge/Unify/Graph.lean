import Ridge.Unify.Ctx
import Ridge.Lib.Acyclic
import Ridge.Lib.Fuel

/-!
# The binding graph

The vertices are the classes of the three kinds of variables, named by their roots; an edge
leads from a bound class to the class of every variable occurring in its binding. Resolution
walks this graph, so what it needs to return is that the graph has no cycle.

* `ReachesFrom σ t v` — some variable of `t` reaches `v`.
* `rowOccurs_complete` — when `row_occurs` answers no, the row variable is unreachable.
* `occurs_complete` — when `occurs` answers no, the type variable is unreachable *except behind
  a bound row tail*: `occurs` walks a record's own fields and never the row its tail is bound
  to. `HiddenOccurrence` names what it misses.
* `Acyclic.exists_height` gives a height to an acyclic graph; the functions of
  `Ridge.Unify.Ctx` terminate by induction on it.
-/

namespace Ridge

open Relation List Option UnificationTable CapRow

variable {w v : Vertex}

/-- A variable of one of the three kinds. -/
inductive Vertex where
  | ty (v : TyVid)
  | row (v : RowVid)
  | cap (v : CapVid)
  deriving DecidableEq

/-! ## The variables of a type -/

def RowTail.vars : RowTail → List Vertex
  | .closed => []
  | .opened rv => [.row rv]

def CapRow.vertices (c : CapRow) : List Vertex := c.vars.map .cap

mutual
/-- The variables occurring in a type. -/
def Ty.vars : Ty → List Vertex
  | .var v => [.ty v]
  | .rigid _ _ => []
  | .con _ args => Ty.varsAll args
  | .fn params ret caps => Ty.varsAll params ++ ret.vars ++ caps.vertices
  | .tuple ts => Ty.varsAll ts
  | .record fields tail => Ty.varsFields fields ++ tail.vars
  | .aliased _ body => body.vars
  | .error => []

def Ty.varsAll : List Ty → List Vertex
  | [] => []
  | t :: ts => t.vars ++ Ty.varsAll ts

def Ty.varsFields : List Field → List Vertex
  | [] => []
  | (_, t) :: fs => t.vars ++ Ty.varsFields fs
end

variable {ts : List Ty}

theorem Ty.mem_varsAll : w ∈ Ty.varsAll ts ↔ ∃ t ∈ ts, w ∈ t.vars := by
  induction ts with
  | nil => simp [Ty.varsAll]
  | cons t ts ih => simp [Ty.varsAll, ih]

variable {fs : List Field}

theorem Ty.mem_varsFields : w ∈ Ty.varsFields fs ↔ ∃ f ∈ fs, w ∈ f.2.vars := by
  induction fs with
  | nil => simp [Ty.varsFields]
  | cons f fs ih => simp [Ty.varsFields, ih]

/-- The variables occurring in a row. -/
def Row.vars (row : Row) : List Vertex := Ty.varsFields row.fields ++ row.tail.vars

namespace InferCtx

variable (σ : InferCtx)

/-! ## Edges -/

/-- The class of a variable. -/
def rootOf : Vertex → Vertex
  | .ty v => .ty (σ.tyvids.root v)
  | .row v => .row (σ.rowvids.root v)
  | .cap v => .cap (σ.capvids.root v)

/-- The variables occurring in the binding of a variable; none when it is unbound. -/
def bindingVars : Vertex → List Vertex
  | .ty v => ((σ.tyvids.probeValue v).map Ty.vars).getD []
  | .row v => ((σ.rowvids.probeValue v).map Row.vars).getD []
  | .cap v => ((σ.capvids.probeValue v).map CapRow.vertices).getD []

attribute [grind =] rootOf bindingVars

/-- From a bound class to the classes of the variables in its binding. -/
def Edge (u w : Vertex) : Prop := σ.rootOf u = u ∧ ∃ w₀ ∈ σ.bindingVars u, w = σ.rootOf w₀

/-- The bindings form no cycle. -/
def AcyclicBindings : Prop := Acyclic σ.Edge

/-- Some variable of `vs` reaches `v`. -/
def ReachesFrom (vs : List Vertex) (v : Vertex) : Prop :=
  ∃ w ∈ vs, ReflTransGen σ.Edge (σ.rootOf w) v

variable {σ}

@[simp] theorem rootOf_rootOf (w : Vertex) : σ.rootOf (σ.rootOf w) = σ.rootOf w := by
  cases w with
  | ty v | row v | cap v => simp [rootOf, UnificationTable.root_root]

@[simp] theorem bindingVars_rootOf (w : Vertex) : σ.bindingVars (σ.rootOf w) = σ.bindingVars w := by
  cases w <;> simp [bindingVars, rootOf]

variable {u : Vertex}

theorem edge_rootOf : σ.Edge (σ.rootOf u) w ↔ ∃ w₀ ∈ σ.bindingVars u, w = σ.rootOf w₀ := by
  simp [Edge]

variable {vs ws : List Vertex}

theorem ReachesFrom.mono (h : ∀ w ∈ vs, w ∈ ws) (hv : σ.ReachesFrom vs v) : σ.ReachesFrom ws v := by
  obtain ⟨w, hw, hwv⟩ := hv
  exact ⟨w, h w hw, hwv⟩

theorem reachesFrom_append :
    σ.ReachesFrom (vs ++ ws) v ↔ σ.ReachesFrom vs v ∨ σ.ReachesFrom ws v := by
  simp only [ReachesFrom, mem_append, or_and_right, exists_or]

theorem reachesFrom_varsAll :
    σ.ReachesFrom (Ty.varsAll ts) v ↔ ∃ t ∈ ts, σ.ReachesFrom t.vars v := by
  constructor
  · rintro ⟨w, hw, hwv⟩
    obtain ⟨t, ht, hwt⟩ := Ty.mem_varsAll.mp hw
    exact ⟨t, ht, w, hwt, hwv⟩
  · rintro ⟨t, ht, w, hw, hwv⟩
    exact ⟨w, Ty.mem_varsAll.mpr ⟨t, ht, hw⟩, hwv⟩

theorem reachesFrom_varsFields :
    σ.ReachesFrom (Ty.varsFields fs) v ↔ ∃ f ∈ fs, σ.ReachesFrom f.2.vars v := by
  constructor
  · rintro ⟨w, hw, hwv⟩
    obtain ⟨f, hf, hwf⟩ := Ty.mem_varsFields.mp hw
    exact ⟨f, hf, w, hwf, hwv⟩
  · rintro ⟨f, hf, w, hw, hwv⟩
    exact ⟨w, Ty.mem_varsFields.mpr ⟨f, hf, hw⟩, hwv⟩

theorem reachesFrom_singleton :
    σ.ReachesFrom [w] v ↔ v = σ.rootOf w ∨ σ.ReachesFrom (σ.bindingVars w) v := by
  constructor
  · rintro ⟨w', hw', hpath⟩
    obtain rfl := mem_singleton.mp hw'
    rcases ReflTransGen.cases_head hpath with heq | ⟨u, hedge, htail⟩
    · exact Or.inl heq.symm
    · obtain ⟨w₀, hw₀, rfl⟩ := edge_rootOf.mp hedge
      exact Or.inr ⟨w₀, hw₀, htail⟩
  · rintro (rfl | ⟨w₀, hw₀, hpath⟩)
    · exact ⟨w, mem_singleton_self w, .refl⟩
    · exact ⟨w, mem_singleton_self w, .head (edge_rootOf.mpr ⟨w₀, hw₀, rfl⟩) hpath⟩

variable {t : Ty}

theorem bindingVars_ty {v : TyVid} (h : σ.tyvids.probeValue v = some t) :
    σ.bindingVars (.ty v) = t.vars := by simp [bindingVars, h]

theorem bindingVars_ty_none {v : TyVid} (h : σ.tyvids.probeValue v = none) :
    σ.bindingVars (.ty v) = [] := by simp [bindingVars, h]

theorem bindingVars_row {v : RowVid} {row : Row} (h : σ.rowvids.probeValue v = some row) :
    σ.bindingVars (.row v) = row.vars := by simp [bindingVars, h]

theorem bindingVars_row_none {v : RowVid} (h : σ.rowvids.probeValue v = none) :
    σ.bindingVars (.row v) = [] := by simp [bindingVars, h]

variable {c : CapRow}

theorem bindingVars_cap {v : CapVid} (h : σ.capvids.probeValue v = some c) :
    σ.bindingVars (.cap v) = c.vertices := by simp [bindingVars, h]

theorem bindingVars_cap_none {v : CapVid} (h : σ.capvids.probeValue v = none) :
    σ.bindingVars (.cap v) = [] := by simp [bindingVars, h]

/-- Capability variables only lead to capability variables. -/
theorem reachesFrom_vertices (h : σ.ReachesFrom c.vertices v) : ∃ k, v = .cap k := by
  have hpath : ∀ u, ReflTransGen σ.Edge u v → (∃ k, u = .cap k) → ∃ k, v = .cap k := by
    intro u hu hcap
    clear h
    induction hu with
    | refl => exact hcap
    | tail _ hedge ih =>
      obtain ⟨k, rfl⟩ := ih
      obtain ⟨-, w₀, hw₀, rfl⟩ := hedge
      cases hc : σ.capvids.probeValue k with
      | none => rw [bindingVars_cap_none hc] at hw₀; simp at hw₀
      | some c =>
        rw [bindingVars_cap hc, vertices] at hw₀
        obtain ⟨j, -, rfl⟩ := mem_map.mp hw₀
        exact ⟨_, rfl⟩
  obtain ⟨w, hw, hwv⟩ := h
  obtain ⟨j, -, rfl⟩ := mem_map.mp hw
  exact hpath _ hwv ⟨_, rfl⟩

/-! ## The occurs checks are complete, up to bound row tails -/

variable {n : Nat}

theorem shallowResolve_eq_var {v : TyVid} (h : σ.shallowResolve n t = some (.var v)) :
    σ.tyvids.root v = v ∧ σ.tyvids.probeValue v = none := by
  induction n generalizing t with
  | zero => cases h
  | succ n ih =>
    cases t with
    | var w =>
      simp only [shallowResolve, UnificationTable.find, probeValue_root] at h
      cases hw : σ.tyvids.probeValue w with
      | none =>
        rw [hw] at h
        cases h
        exact ⟨σ.tyvids.root_root w, by rw [probeValue_root, hw]⟩
      | some bound => rw [hw] at h; exact ih h
    | aliased name body => exact ih h
    | rigid | con | fn | tuple | record | error => cases h

theorem shallowResolveCaps_unbound {c r : CapRow} (h : σ.shallowResolveCaps n c = some r) :
    ∀ v ∈ r.vars, σ.capvids.root v = v ∧ σ.capvids.probeValue v = none := by
  induction n generalizing c r with
  | zero => cases h
  | succ n ih =>
    cases c with
    | concrete s => cases h; simp [CapRow.vars]
    | var v =>
      simp only [shallowResolveCaps, UnificationTable.find, probeValue_root] at h
      cases hv : σ.capvids.probeValue v with
      | some bound => rw [hv] at h; exact ih h
      | none =>
        rw [hv] at h
        cases h
        simp [CapRow.vars, σ.capvids.root_root, hv]
    | union rows =>
      -- the fold only ever adds variables of resolved components
      have hfold : ∀ (rows : List CapRow) (acc r : CapRow),
          (∀ v ∈ acc.vars, σ.capvids.root v = v ∧ σ.capvids.probeValue v = none) →
          rows.foldlM (fun acc row => (σ.shallowResolveCaps n row).map acc.unionWith) acc
            = some r →
          ∀ v ∈ r.vars, σ.capvids.root v = v ∧ σ.capvids.probeValue v = none := by
        intro rows
        induction rows with
        | nil => intro acc r hacc hr; cases hr; exact hacc
        | cons row rows ihr =>
          intro acc r hacc hr
          rw [foldlM_cons] at hr
          obtain ⟨acc', hacc', hr⟩ := bind_eq_some_iff.mp hr
          obtain ⟨row', hrow', rfl⟩ := map_eq_some_iff.mp hacc'
          refine ihr _ r (fun v hv => ?_) hr
          rw [mem_vars_iff, parts_unionWith, Prod.snd_sup, Finset.sup_eq_union,
            Finset.mem_union, ← mem_vars_iff, ← mem_vars_iff] at hv
          exact hv.elim (hacc v) (ih hrow' v)
      exact hfold rows _ r (by simp [CapRow.vars]) h

/-- What shallow resolution shows reaches every row variable its operand reaches. -/
theorem reachesFrom_shallowResolve {t u : Ty} {ρ : RowVid} (h : σ.shallowResolve n t = some u)
    (ht : σ.ReachesFrom t.vars (.row ρ)) : σ.ReachesFrom u.vars (.row ρ) := by
  induction n generalizing t with
  | zero => cases h
  | succ n ih =>
    cases t with
    | var v =>
      simp only [shallowResolve, UnificationTable.find, probeValue_root] at h
      rw [Ty.vars, reachesFrom_singleton] at ht
      obtain hroot | ht := ht
      · simp [rootOf] at hroot
      · cases hv : σ.tyvids.probeValue v with
        | none => rw [bindingVars_ty_none hv] at ht; simp [ReachesFrom] at ht
        | some bound =>
          rw [hv] at h
          rw [bindingVars_ty hv] at ht
          exact ih h ht
    | aliased name body =>
      rw [shallowResolve] at h
      exact ih h ht
    | rigid | con | fn | tuple | record | error => cases h; exact ht

theorem anyM_false {α : Type} {f : α → Option Bool} {l : List α}
    (h : l.anyM f = some false) : ∀ a ∈ l, f a = some false := by
  induction l with
  | nil => simp
  | cons a l ih =>
    rw [anyM_cons] at h
    cases ha : f a with
    | none => rw [ha] at h; cases h
    | some b =>
      cases b with
      | true => rw [ha] at h; cases h
      | false =>
        rw [ha] at h
        simpa [ha] using ih h

mutual
/-- When `row_occurs` answers no, nothing in the row reaches the row variable. -/
theorem rowOccurs_complete {ρ : RowVid} : ∀ (n : Nat) {fields : List Field} {tail : RowTail},
    σ.rowOccurs n ρ fields tail = some false →
      ¬ σ.ReachesFrom (Ty.varsFields fields ++ tail.vars) (.row (σ.rowvids.root ρ))
  | 0, _, _, h => by cases h
  | n + 1, fields, .closed, h => by
    rw [rowOccurs] at h
    rw [RowTail.vars, append_nil, reachesFrom_varsFields]
    rintro ⟨f, hf, hreach⟩
    exact tyOccursRowvid_complete n (anyM_false h f hf) hreach
  | n + 1, fields, .opened t, h => by
    simp only [rowOccurs, UnificationTable.find, probeValue_root] at h
    split at h
    · cases h
    · next hne =>
      rw [reachesFrom_append, reachesFrom_varsFields, RowTail.vars, reachesFrom_singleton]
      cases ht : σ.rowvids.probeValue t with
      | none =>
        rw [ht] at h
        simp only [bind_eq_bind, bind_some, Bool.false_eq_true, if_false] at h
        rintro (⟨f, hf, hreach⟩ | hroot | hreach)
        · exact tyOccursRowvid_complete n (anyM_false h f hf) hreach
        · exact hne (by simpa [rootOf] using hroot)
        · rw [bindingVars_row_none ht] at hreach; simp [ReachesFrom] at hreach
      | some row =>
        rw [ht] at h
        simp only [bind_eq_bind] at h
        cases hrow : σ.rowOccurs n ρ row.fields row.tail with
        | none => rw [hrow] at h; cases h
        | some behind =>
          cases behind with
          | true => rw [hrow] at h; cases h
          | false =>
            rw [hrow] at h
            simp only [bind_some, Bool.false_eq_true, if_false] at h
            rintro (⟨f, hf, hreach⟩ | hroot | hreach)
            · exact tyOccursRowvid_complete n (anyM_false h f hf) hreach
            · exact hne (by simpa [rootOf] using hroot)
            · rw [bindingVars_row ht] at hreach
              exact rowOccurs_complete n hrow hreach

/-- When `ty_occurs_rowvid` answers no, nothing in the type reaches the row variable. -/
theorem tyOccursRowvid_complete {ρ : RowVid} : ∀ (n : Nat) {t : Ty},
    σ.tyOccursRowvid n ρ t = some false →
      ¬ σ.ReachesFrom t.vars (.row (σ.rowvids.root ρ))
  | 0, _, h => by cases h
  | n + 1, t, h => by
    intro hreach
    rw [tyOccursRowvid] at h
    obtain ⟨u, hu, h⟩ := bind_eq_some_iff.mp h
    have hreach := reachesFrom_shallowResolve hu hreach
    cases u with
    | record fields tail => exact rowOccurs_complete n h hreach
    | con id args | tuple ts =>
      obtain ⟨a, ha, hreach⟩ := reachesFrom_varsAll.mp hreach
      exact tyOccursRowvid_complete n (anyM_false h a ha) hreach
    | aliased name body => exact tyOccursRowvid_complete n h hreach
    | fn params ret caps =>
      obtain ⟨b, hb, h⟩ := bind_eq_some_iff.mp h
      cases b with
      | true => cases h
      | false =>
        rw [Ty.vars, reachesFrom_append, reachesFrom_append] at hreach
        obtain (hp | hr) | hc := hreach
        · obtain ⟨p, hp, hreach⟩ := reachesFrom_varsAll.mp hp
          exact tyOccursRowvid_complete n (anyM_false hb p hp) hreach
        · exact tyOccursRowvid_complete n h hr
        · obtain ⟨k, hk⟩ := reachesFrom_vertices hc
          cases hk
    | var v =>
      rw [Ty.vars, reachesFrom_singleton,
        bindingVars_ty_none (shallowResolve_eq_var hu).2] at hreach
      simp [rootOf, ReachesFrom] at hreach
    | rigid id name | error => simp [Ty.vars, ReachesFrom] at hreach
end

/-- The type variable `x` is reachable from `t` behind a row variable: along a path that
`occurs` does not walk. -/
def HiddenOccurrence (σ : InferCtx) (x : TyVid) (t : Ty) : Prop :=
  ∃ ρ, σ.ReachesFrom t.vars (.row ρ) ∧ ReflTransGen σ.Edge (.row ρ) (.ty (σ.tyvids.root x))

theorem HiddenOccurrence.mono {x : TyVid} {t u : Ty} (h : σ.HiddenOccurrence x t)
    (hvars : ∀ ρ, σ.ReachesFrom t.vars (.row ρ) → σ.ReachesFrom u.vars (.row ρ)) :
    σ.HiddenOccurrence x u := by
  obtain ⟨ρ, hρ, hx⟩ := h
  exact ⟨ρ, hvars ρ hρ, hx⟩

/-- When `occurs` answers no, every path from the type to the variable runs behind a row
tail. -/
theorem occurs_complete {x : TyVid} (h : σ.occurs n x t = some false)
    (hreach : σ.ReachesFrom t.vars (.ty (σ.tyvids.root x))) : σ.HiddenOccurrence x t := by
  induction n generalizing t with
  | zero => cases h
  | succ n ih =>
    cases t with
    | var w =>
      simp only [occurs, UnificationTable.find, UnificationTable.probeValue_root] at h
      split at h
      · cases h
      · next hne =>
        obtain hroot | hreach := reachesFrom_singleton.mp hreach
        · exact absurd (by simpa [rootOf] using hroot) hne
        · cases hw : σ.tyvids.probeValue w with
          | none => rw [bindingVars_ty_none hw] at hreach; simp [ReachesFrom] at hreach
          | some bound =>
            rw [hw] at h
            rw [bindingVars_ty hw] at hreach
            refine (ih h hreach).mono fun ρ hρ => ?_
            exact reachesFrom_singleton.mpr (Or.inr (by rwa [bindingVars_ty hw]))
    | con id args | tuple ts =>
      obtain ⟨a, ha, hreach⟩ := reachesFrom_varsAll.mp hreach
      exact (ih (anyM_false h a ha) hreach).mono fun ρ hρ => reachesFrom_varsAll.mpr ⟨a, ha, hρ⟩
    | aliased name body =>
      rw [occurs] at h
      exact (ih h hreach).mono fun _ => id
    | record fields tail =>
      rw [Ty.vars, reachesFrom_append] at hreach
      obtain hreach | hreach := hreach
      · obtain ⟨f, hf, hreach⟩ := reachesFrom_varsFields.mp hreach
        refine (ih (anyM_false h f hf) hreach).mono fun ρ hρ => ?_
        exact reachesFrom_append.mpr (Or.inl (reachesFrom_varsFields.mpr ⟨f, hf, hρ⟩))
      · -- the path leaves through the tail
        cases tail with
        | closed => simp [RowTail.vars, ReachesFrom] at hreach
        | opened rv =>
          obtain ⟨w, hw, hpath⟩ := hreach
          obtain rfl := mem_singleton.mp hw
          exact ⟨σ.rowvids.root rv, ⟨.row rv, by simp [Ty.vars, RowTail.vars], .refl⟩, hpath⟩
    | fn params ret caps =>
      obtain ⟨b, hb, h⟩ := bind_eq_some_iff.mp h
      cases b with
      | true => cases h
      | false =>
        rw [Ty.vars, reachesFrom_append, reachesFrom_append] at hreach
        obtain (hp | hr) | hc := hreach
        · obtain ⟨p, hp, hreach⟩ := reachesFrom_varsAll.mp hp
          refine (ih (anyM_false hb p hp) hreach).mono fun ρ hρ => ?_
          rw [Ty.vars, reachesFrom_append, reachesFrom_append]
          exact Or.inl (Or.inl (reachesFrom_varsAll.mpr ⟨p, hp, hρ⟩))
        · refine (ih h hr).mono fun ρ hρ => ?_
          rw [Ty.vars, reachesFrom_append, reachesFrom_append]
          exact Or.inl (Or.inr hρ)
        · obtain ⟨k, hk⟩ := reachesFrom_vertices hc
          cases hk
    | rigid id name | error => simp [Ty.vars, ReachesFrom] at hreach

/-! ## Heights and termination -/

/-- The bound vertices, all below the lengths of the tables. -/
theorem edge_mem_sources (σ : InferCtx) (h : σ.Edge u w) :
    u ∈ (Finset.range σ.tyvids.len).image Vertex.ty
      ∪ (Finset.range σ.rowvids.len).image Vertex.row
      ∪ (Finset.range σ.capvids.len).image Vertex.cap := by
  obtain ⟨-, w₀, hw₀, -⟩ := h
  simp only [Finset.mem_union, Finset.mem_image, Finset.mem_range]
  cases u with
  | ty v =>
    refine Or.inl (Or.inl ⟨v, ?_, rfl⟩)
    by_contra hv
    rw [bindingVars_ty_none (σ.tyvids.probeValue_fresh (not_lt.mp hv))] at hw₀
    simp at hw₀
  | row v =>
    refine Or.inl (Or.inr ⟨v, ?_, rfl⟩)
    by_contra hv
    rw [bindingVars_row_none (σ.rowvids.probeValue_fresh (not_lt.mp hv))] at hw₀
    simp at hw₀
  | cap v =>
    refine Or.inr ⟨v, ?_, rfl⟩
    by_contra hv
    rw [bindingVars_cap_none (σ.capvids.probeValue_fresh (not_lt.mp hv))] at hw₀
    simp at hw₀

/-- A height that drops along every edge. -/
def IsHeight (σ : InferCtx) (height : Vertex → Nat) : Prop :=
  ∀ u w, σ.Edge u w → height w < height u

theorem AcyclicBindings.exists_height (h : σ.AcyclicBindings) : ∃ height, σ.IsHeight height :=
  Acyclic.exists_height h _ fun _ _ => σ.edge_mem_sources

variable (σ) in
/-- Every variable of `vs` has a height below `k`. -/
def Below (height : Vertex → Nat) (k : Nat) (vs : List Vertex) : Prop :=
  ∀ w ∈ vs, height (σ.rootOf w) < k

variable {height : Vertex → Nat} {k : Nat}

theorem below_append : σ.Below height k (vs ++ ws) ↔ σ.Below height k vs ∧ σ.Below height k ws :=
  forall_mem_append

theorem below_varsAll : σ.Below height k (Ty.varsAll ts) ↔ ∀ t ∈ ts, σ.Below height k t.vars := by
  simp only [Below, Ty.mem_varsAll]
  exact ⟨fun h t ht w hw => h w ⟨t, ht, hw⟩, fun h w ⟨t, ht, hw⟩ => h t ht w hw⟩

theorem below_varsFields :
    σ.Below height k (Ty.varsFields fs) ↔ ∀ f ∈ fs, σ.Below height k f.2.vars := by
  simp only [Below, Ty.mem_varsFields]
  exact ⟨fun h f hf w hw => h w ⟨f, hf, hw⟩, fun h w ⟨f, hf, hw⟩ => h f hf w hw⟩

theorem below_singleton :
    σ.Below height k [w] ↔ height (σ.rootOf w) < k := by simp [Below]

theorem IsHeight.below_binding (hh : σ.IsHeight height) (w : Vertex) :
    σ.Below height (height (σ.rootOf w)) (σ.bindingVars w) :=
  fun w₀ hw₀ => hh _ _ (edge_rootOf.mpr ⟨w₀, hw₀, rfl⟩)

end InferCtx

end Ridge
