import Ridge.Unify.Graph

/-!
# Resolution terminates on acyclic bindings

Each function of `Ridge.Unify.Ctx` returns, given enough fuel, on every type of a context whose
bindings form no cycle. All proofs have one shape: a bound on the heights of the variables of
the argument drops when a binding is followed, and below a fixed bound the recursion is on the
structure of the type.
-/

namespace Ridge.InferCtx

variable {σ : InferCtx} {height : Vertex → Nat} {k : Nat}

theorem Below.mono {j k : Nat} {vs : List Vertex} (h : σ.Below height j vs) (hjk : j ≤ k) :
    σ.Below height k vs := fun w hw => lt_of_lt_of_le (h w hw) hjk

theorem exists_below (σ : InferCtx) (height : Vertex → Nat) :
    ∀ vs : List Vertex, ∃ k, σ.Below height k vs
  | [] => ⟨0, by simp [Below]⟩
  | w :: vs => by
    obtain ⟨k, hk⟩ := exists_below σ height vs
    refine ⟨max k (height (σ.rootOf w) + 1), fun u hu => ?_⟩
    rcases List.mem_cons.mp hu with rfl | hu
    · omega
    · exact lt_of_lt_of_le (hk u hu) (Nat.le_max_left _ _)

/-! ## Shallow resolution -/

theorem shallowResolve_converges (hh : σ.IsHeight height) (t : Ty) (ht : σ.Below height k t.vars) :
    ∃ u, Converges (fun n => σ.shallowResolve n t) u ∧ σ.Below height k u.vars := by
  induction k using Nat.strong_induction_on generalizing t with
  | _ k ihk =>
    induction t using Ty.inductionOn with
    | var v =>
      rw [Ty.vars, below_singleton] at ht
      cases hv : σ.tyvids.probeValue v with
      | some bound =>
        have hb := hh.below_binding (.ty v)
        rw [bindingVars_ty hv] at hb
        obtain ⟨u, hu, hbelow⟩ := ihk _ ht bound hb
        refine ⟨u, hu.step fun n => ?_, hbelow.mono (Nat.le_of_lt ht)⟩
        simp [shallowResolve, UnificationTable.find, hv]
      | none =>
        refine ⟨.var (σ.tyvids.root v), (Converges.const _).step fun n => ?_, ?_⟩
        · simp [shallowResolve, UnificationTable.find, hv]
        · simpa [Ty.vars, Below, rootOf, σ.tyvids.root_root] using ht
    | wrapper name body ih =>
      obtain ⟨u, hu, hbelow⟩ := ih ht
      exact ⟨u, hu.step fun _ => rfl, hbelow⟩
    | rigid | con | fn | tuple | record | error =>
      exact ⟨_, (Converges.const _).step fun _ => rfl, ht⟩

/-- Row resolution returns; a field it gathers behind the tail lies below the tail. -/
theorem resolveRow_converges (hh : σ.IsHeight height) (out : List Field) (tail : RowTail)
    (ht : σ.Below height k tail.vars) :
    ∃ r, Converges (fun n => σ.resolveRow n out tail) r ∧
      ∀ f ∈ r.1, f ∈ out ∨ ∃ j < k, σ.Below height j f.2.vars := by
  induction k using Nat.strong_induction_on generalizing out tail with
  | _ k ihk =>
    cases tail with
    | closed => exact ⟨(out, .closed), (Converges.const _).step fun _ => rfl, fun f hf => .inl hf⟩
    | opened rv =>
      rw [RowTail.vars, below_singleton] at ht
      cases hrv : σ.rowvids.probeValue rv with
      | none =>
        refine ⟨(out, .opened (σ.rowvids.root rv)), (Converges.const _).step fun n => ?_,
          fun f hf => .inl hf⟩
        simp [resolveRow, UnificationTable.find, hrv]
      | some row =>
        have hb := hh.below_binding (.row rv)
        rw [bindingVars_row hrv, Row.vars, below_append] at hb
        obtain ⟨r, hr, hfields⟩ := ihk _ ht (out ++ row.fields) row.tail hb.2
        refine ⟨r, hr.step fun n => ?_, fun f hf => ?_⟩
        · simp [resolveRow, UnificationTable.find, hrv]
        · rcases hfields f hf with hf | ⟨j, hj, hbelow⟩
          · rcases List.mem_append.mp hf with hf | hf
            · exact .inl hf
            · exact .inr ⟨_, ht, below_varsFields.mp hb.1 f hf⟩
          · exact .inr ⟨j, lt_trans hj ht, hbelow⟩

theorem shallowResolveCaps_terminates (hh : σ.IsHeight height) (c : CapRow)
    (hc : σ.Below height k c.vertices) : Terminates fun n => σ.shallowResolveCaps n c := by
  induction k using Nat.strong_induction_on generalizing c with
  | _ k ihk =>
    induction c using CapRow.inductionOn with
    | concrete s => exact ⟨_, (Converges.const _).step fun _ => rfl⟩
    | var v =>
      have hc' : height (σ.rootOf (.cap v)) < k := hc _ (by simp [CapRow.vertices, CapRow.vars])
      cases hv : σ.capvids.probeValue v with
      | some bound =>
        have hb := hh.below_binding (.cap v)
        rw [bindingVars_cap hv] at hb
        obtain ⟨r, hr⟩ := ihk _ hc' bound hb
        exact ⟨r, hr.step fun n => by simp [shallowResolveCaps, UnificationTable.find, hv]⟩
      | none =>
        exact ⟨_, (Converges.const _).step fun n => by
          simp [shallowResolveCaps, UnificationTable.find, hv]; rfl⟩
    | union rows ih =>
      obtain ⟨r, hr⟩ := terminates_foldlM (l := rows)
        (f := fun n (acc : CapRow) row => (σ.shallowResolveCaps n row).map acc.unionWith)
        (CapRow.concrete .PURE) fun acc row hrow => by
          obtain ⟨r, hr⟩ := ih row hrow fun w hw => by
            obtain ⟨v, hv, rfl⟩ := List.mem_map.mp hw
            exact hc _ (List.mem_map.mpr ⟨v, CapRow.mem_varsAll.mpr ⟨row, hrow, hv⟩, rfl⟩)
          exact ⟨_, hr.map _⟩
      exact ⟨r, hr.step fun _ => rfl⟩

/-! ## Deep resolution -/

theorem deepResolve_terminates (W : Workspace) (hh : σ.IsHeight height) (t : Ty)
    (ht : σ.Below height k t.vars) : Terminates fun n => σ.deepResolve W n t := by
  induction k using Nat.strong_induction_on generalizing t with
  | _ k ihk =>
    have hall : ∀ ts : List Ty, (∀ t ∈ ts, σ.Below height k t.vars →
        Terminates fun n => σ.deepResolve W n t) → σ.Below height k (Ty.varsAll ts) →
        Terminates fun n => ts.mapM (σ.deepResolve W n) :=
      fun ts ih hts => terminates_mapM fun t ht => ih t ht (below_varsAll.mp hts t ht)
    induction t using Ty.inductionOn with
    | var v =>
      rw [Ty.vars, below_singleton] at ht
      cases hv : σ.tyvids.probeValue v with
      | none =>
        have hu : Converges (fun n => σ.shallowResolve n (.var v)) (.var (σ.tyvids.root v)) :=
          (Converges.const _).step fun n => by
            simp [shallowResolve, UnificationTable.find, hv]
        refine ⟨.var (σ.tyvids.root v), (hu.bind ?_).step fun _ => rfl⟩
        exact .const _
      | some bound =>
        have hb := hh.below_binding (.ty v)
        rw [bindingVars_ty hv] at hb
        obtain ⟨u, hu, hbelow⟩ := shallowResolve_converges hh bound hb
        have hu : Converges (fun n => σ.shallowResolve n (.var v)) u :=
          hu.step fun n => by simp [shallowResolve, UnificationTable.find, hv]
        cases u with
        | var w =>
          refine ⟨.var w, (hu.bind ?_).step fun _ => rfl⟩
          exact .const _
        | rigid | con | fn | tuple | record | aliased | error =>
          obtain ⟨r, hr⟩ := ihk _ ht _ hbelow
          refine ⟨r, (hu.bind ?_).step fun _ => rfl⟩
          exact hr
    | rigid id name | error => exact ⟨_, (Converges.const _).step fun _ => rfl⟩
    | con id args ih =>
      obtain ⟨as, has⟩ := hall args ih ht
      exact ⟨_, (has.bind (g := fun _ as => some (W.project id as)) (.const _)).step fun _ => rfl⟩
    | tuple ts ih =>
      obtain ⟨as, has⟩ := hall ts ih ht
      exact ⟨_, (has.bind (g := fun _ as => some (.tuple as)) (.const _)).step fun _ => rfl⟩
    | wrapper name body ih =>
      obtain ⟨b, hb⟩ := ih ht
      exact ⟨_, (hb.bind (g := fun _ b => some (.aliased name b)) (.const _)).step fun _ => rfl⟩
    | fn params ret caps ihp ihr =>
      rw [Ty.vars, below_append, below_append] at ht
      obtain ⟨ps, hps⟩ := hall params ihp ht.1.1
      obtain ⟨r, hr⟩ := ihr ht.1.2
      obtain ⟨c, hc⟩ := shallowResolveCaps_terminates hh caps ht.2
      refine ⟨.fn ps r c, (hps.bind
        (g := fun n ps => (σ.deepResolve W n ret).bind fun r =>
          (σ.shallowResolveCaps n caps).bind fun c => some (Ty.fn ps r c))
        (hr.bind (g := fun n r => (σ.shallowResolveCaps n caps).bind fun c => some (Ty.fn ps r c))
          (hc.bind (g := fun _ c => some (Ty.fn ps r c)) (.const _)))).step fun _ => rfl⟩
    | record fields tail ih =>
      rw [Ty.vars, below_append] at ht
      obtain ⟨⟨peeled, tail'⟩, hr, hpeeled⟩ := resolveRow_converges hh fields tail ht.2
      obtain ⟨fs, hfs⟩ : Terminates fun n => peeled.mapM fun f =>
          (σ.deepResolve W n f.2).map fun t => (f.1, t) := by
        refine terminates_mapM fun f hf => ?_
        obtain ⟨t, ht⟩ : Terminates fun n => σ.deepResolve W n f.2 := by
          rcases hpeeled f hf with hf | ⟨j, hj, hbelow⟩
          · exact ih f hf (below_varsFields.mp ht.1 f hf)
          · exact ihk j hj f.2 hbelow
        exact ⟨_, ht.map _⟩
      exact ⟨_, (hr.bind (g := fun n r => (r.1.mapM fun f =>
          (σ.deepResolve W n f.2).map fun t => (f.1, t)).bind fun fs => some (.mkRecord fs r.2))
        (hfs.bind (g := fun _ fs => some (Ty.mkRecord fs tail')) (.const _))).step fun _ => rfl⟩

/-! ## The occurs checks -/

theorem occurs_terminates (hh : σ.IsHeight height) (x : TyVid) (t : Ty)
    (ht : σ.Below height k t.vars) : Terminates fun n => σ.occurs n x t := by
  induction k using Nat.strong_induction_on generalizing t with
  | _ k ihk =>
    induction t using Ty.inductionOn with
    | var w =>
      rw [Ty.vars, below_singleton] at ht
      by_cases hroot : σ.tyvids.root x = σ.tyvids.root w
      · exact ⟨true, (Converges.const _).step fun n => by
          simp [occurs, UnificationTable.find, hroot]⟩
      · cases hw : σ.tyvids.probeValue w with
        | none =>
          exact ⟨false, (Converges.const _).step fun n => by
            simp [occurs, UnificationTable.find, hroot, hw]⟩
        | some bound =>
          have hb := hh.below_binding (.ty w)
          rw [bindingVars_ty hw] at hb
          obtain ⟨b, hb⟩ := ihk _ ht bound hb
          exact ⟨b, hb.step fun n => by simp [occurs, UnificationTable.find, hroot, hw]⟩
    | con id args ih | tuple ts ih =>
      obtain ⟨b, hb⟩ := terminates_anyM fun a ha => ih a ha (below_varsAll.mp ht a ha)
      exact ⟨b, hb.step fun _ => rfl⟩
    | wrapper name body ih =>
      obtain ⟨b, hb⟩ := ih ht
      exact ⟨b, hb.step fun _ => rfl⟩
    | record fields tail ih =>
      rw [Ty.vars, below_append] at ht
      obtain ⟨b, hb⟩ := terminates_anyM (f := fun n (f : Field) => σ.occurs n x f.2)
        fun f hf => ih f hf (below_varsFields.mp ht.1 f hf)
      exact ⟨b, hb.step fun _ => rfl⟩
    | fn params ret caps ihp ihr =>
      rw [Ty.vars, below_append, below_append] at ht
      obtain ⟨b, hb⟩ := terminates_anyM fun p hp => ihp p hp (below_varsAll.mp ht.1.1 p hp)
      obtain ⟨c, hc⟩ := ihr ht.1.2
      refine ⟨if b then true else c, (hb.bind
        (g := fun n b => if b then some true else σ.occurs n x ret) ?_).step fun _ => rfl⟩
      cases b with
      | true => exact .const _
      | false => exact hc
    | rigid | error => exact ⟨false, (Converges.const _).step fun _ => rfl⟩

/-- What `ty_occurs_rowvid` does once its operand is shallow-resolved. -/
def shapeOccursRowvid (σ : InferCtx) (n : Nat) (rv : RowVid) : Ty → Option Bool
  | .record fields tail => σ.rowOccurs n rv fields tail
  | .con _ args => args.anyM (σ.tyOccursRowvid n rv)
  | .fn params ret _ =>
    (params.anyM (σ.tyOccursRowvid n rv)).bind fun b =>
      if b then some true else σ.tyOccursRowvid n rv ret
  | .tuple ts => ts.anyM (σ.tyOccursRowvid n rv)
  | .aliased _ body => σ.tyOccursRowvid n rv body
  | _ => some false

theorem tyOccursRowvid_succ (n : Nat) (rv : RowVid) (t : Ty) :
    σ.tyOccursRowvid (n + 1) rv t
      = (σ.shallowResolve n t).bind (σ.shapeOccursRowvid n rv) := by
  rw [tyOccursRowvid]
  show (σ.shallowResolve n t).bind _ = _
  congr 1

theorem rowOccurs_terminates_of (hh : σ.IsHeight height) (rv : RowVid)
    (hty : ∀ j < k, ∀ t : Ty, σ.Below height j t.vars →
      Terminates fun n => σ.tyOccursRowvid n rv t) (fields : List Field) (tail : RowTail)
    (hfields : ∀ f ∈ fields, Terminates fun n => σ.tyOccursRowvid n rv f.2)
    (ht : σ.Below height k tail.vars) : Terminates fun n => σ.rowOccurs n rv fields tail := by
  induction k using Nat.strong_induction_on generalizing fields tail with
  | _ k ihk =>
    obtain ⟨b, hb⟩ := terminates_anyM (f := fun n (f : Field) => σ.tyOccursRowvid n rv f.2)
      hfields
    cases tail with
    | closed => exact ⟨b, hb.step fun _ => rfl⟩
    | opened t =>
      rw [RowTail.vars, below_singleton] at ht
      by_cases hroot : σ.rowvids.root rv = σ.rowvids.root t
      · exact ⟨true, (Converges.const _).step fun n => by
          simp [rowOccurs, UnificationTable.find, hroot]⟩
      · cases hv : σ.rowvids.probeValue t with
        | none =>
          exact ⟨b, hb.step fun n => by
            simp [rowOccurs, UnificationTable.find, hroot, hv]⟩
        | some row =>
          have hrow := hh.below_binding (.row t)
          rw [bindingVars_row hv, Row.vars, below_append] at hrow
          obtain ⟨c, hc⟩ := ihk _ ht (fun j hj => hty j (lt_trans hj ht)) row.fields row.tail
            (fun f hf => hty _ ht f.2 (below_varsFields.mp hrow.1 f hf)) hrow.2
          refine ⟨if c then true else b, (hc.bind (g := fun n c =>
            if c then some true else fields.anyM fun f => σ.tyOccursRowvid n rv f.2) ?_).step
            fun n => by simp [rowOccurs, UnificationTable.find, hroot, hv]⟩
          cases c with
          | true => exact .const _
          | false => exact hb

/-- Resolution of the operand returns, and so does the search through what it shows. -/
theorem shapeOccursRowvid_terminates (hh : σ.IsHeight height) (rv : RowVid) (t : Ty)
    (ht : σ.Below height k t.vars) :
    ∃ u, Converges (fun n => σ.shallowResolve n t) u ∧
      Terminates fun n => σ.shapeOccursRowvid n rv u := by
  induction k using Nat.strong_induction_on generalizing t with
  | _ k ihk =>
    have hcall : ∀ t : Ty, (∃ u, Converges (fun n => σ.shallowResolve n t) u ∧
        Terminates fun n => σ.shapeOccursRowvid n rv u) →
        Terminates fun n => σ.tyOccursRowvid n rv t := by
      rintro t ⟨u, hu, b, hb⟩
      exact ⟨b, (hu.bind (g := fun n => σ.shapeOccursRowvid n rv) hb).step fun n =>
        tyOccursRowvid_succ n rv t⟩
    have hself : ∀ u : Ty, (∀ n, σ.shallowResolve (n + 1) u = some u) →
        (Terminates fun n => σ.shapeOccursRowvid n rv u) →
        ∃ u', Converges (fun n => σ.shallowResolve n u) u' ∧
          Terminates fun n => σ.shapeOccursRowvid n rv u' :=
      fun u hu hb => ⟨u, (Converges.const u).step hu, hb⟩
    induction t using Ty.inductionOn with
    | var v =>
      rw [Ty.vars, below_singleton] at ht
      cases hv : σ.tyvids.probeValue v with
      | none =>
        exact ⟨.var (σ.tyvids.root v), (Converges.const _).step fun n => by
          simp [shallowResolve, UnificationTable.find, hv], false, .const _⟩
      | some bound =>
        have hb := hh.below_binding (.ty v)
        rw [bindingVars_ty hv] at hb
        obtain ⟨u, hu, hterm⟩ := ihk _ ht bound hb
        exact ⟨u, hu.step fun n => by simp [shallowResolve, UnificationTable.find, hv], hterm⟩
    | wrapper name body ih =>
      obtain ⟨u, hu, hterm⟩ := ih ht
      exact ⟨u, hu.step fun _ => rfl, hterm⟩
    | con id args ih | tuple ts ih =>
      exact hself _ (fun _ => rfl)
        (terminates_anyM fun a ha => hcall a (ih a ha (below_varsAll.mp ht a ha)))
    | record fields tail ih =>
      rw [Ty.vars, below_append] at ht
      exact hself _ (fun _ => rfl) (rowOccurs_terminates_of hh rv
        (fun j hj t ht => hcall t (ihk j hj t ht)) fields tail
        (fun f hf => hcall f.2 (ih f hf (below_varsFields.mp ht.1 f hf))) ht.2)
    | fn params ret caps ihp ihr =>
      rw [Ty.vars, below_append, below_append] at ht
      obtain ⟨b, hb⟩ := terminates_anyM (f := fun n => σ.tyOccursRowvid n rv)
        fun p hp => hcall p (ihp p hp (below_varsAll.mp ht.1.1 p hp))
      obtain ⟨c, hc⟩ := hcall ret (ihr ht.1.2)
      refine hself _ (fun _ => rfl) ⟨if b then true else c, (hb.bind
        (g := fun n b => if b then some true else σ.tyOccursRowvid n rv ret)
        (b := if b then true else c) ?_).congr fun _ => rfl⟩
      cases b with
      | true => exact .const _
      | false => exact hc
    | rigid | error => exact hself _ (fun _ => rfl) ⟨false, .const _⟩

theorem tyOccursRowvid_terminates (hh : σ.IsHeight height) (rv : RowVid) (t : Ty)
    (ht : σ.Below height k t.vars) : Terminates fun n => σ.tyOccursRowvid n rv t := by
  obtain ⟨u, hu, b, hb⟩ := shapeOccursRowvid_terminates hh rv t ht
  exact ⟨b, (hu.bind (g := fun n => σ.shapeOccursRowvid n rv) hb).step fun n =>
    tyOccursRowvid_succ n rv t⟩

/-! ## All of them, on an acyclic context -/

/-- The five walks return on every type and every row. -/
structure Resolves (W : Workspace) (σ : InferCtx) : Prop where
  shallowResolve : ∀ t, Terminates fun n => σ.shallowResolve n t
  resolveRow : ∀ fields tail, Terminates fun n => σ.resolveRow n fields tail
  occurs : ∀ x t, Terminates fun n => σ.occurs n x t
  rowOccurs : ∀ rv fields tail, Terminates fun n => σ.rowOccurs n rv fields tail
  deepResolve : ∀ t, Terminates fun n => σ.deepResolve W n t

theorem AcyclicBindings.resolves (W : Workspace) (h : σ.AcyclicBindings) : σ.Resolves W := by
  obtain ⟨height, hh⟩ := h.exists_height
  refine ⟨fun t => ?_, fun fields tail => ?_, fun x t => ?_, fun rv fields tail => ?_,
    fun t => ?_⟩
  · obtain ⟨k, hk⟩ := exists_below σ height t.vars
    obtain ⟨u, hu, -⟩ := shallowResolve_converges hh t hk
    exact ⟨u, hu⟩
  · obtain ⟨k, hk⟩ := exists_below σ height tail.vars
    obtain ⟨r, hr, -⟩ := resolveRow_converges hh fields tail hk
    exact ⟨r, hr⟩
  · obtain ⟨k, hk⟩ := exists_below σ height t.vars
    exact occurs_terminates hh x t hk
  · obtain ⟨k, hk⟩ := exists_below σ height tail.vars
    refine rowOccurs_terminates_of hh rv (fun j _ t ht => tyOccursRowvid_terminates hh rv t ht)
      fields tail (fun f _ => ?_) hk
    obtain ⟨j, hj⟩ := exists_below σ height f.2.vars
    exact tyOccursRowvid_terminates hh rv f.2 hj
  · obtain ⟨k, hk⟩ := exists_below σ height t.vars
    exact deepResolve_terminates W hh t hk

end Ridge.InferCtx
