import Ridge.Unify.Assignment

/-!
# Unification only accepts equations that hold

The soundness argument of `unify`, read over assignments: when a call succeeds, every assignment
that satisfies the tables afterwards satisfies the tables before, and gives the two operands the
same meaning. No acyclicity is involved; each write contributes its own equation, and a merge
that would drop one is excluded by the journal.

`UnifyEvent.Faithful` says what the journal has to exclude: a row bound while it already carries
a row (the merge keeps the old one and the new one is lost), and an `InsertShape` reduced over
another projection. Operands are assumed free of `Type::Error`, which equals everything;
`CleanSet` carries that assumption through the bindings.
-/

namespace Ridge

open Run InferCtx List Option KeyedList UnificationTable CapRow Workspace

variable {t : Ty}

variable {W : Workspace} {n : Nat} {σ σ' : InferCtx} {es : List UnifyEvent}

/-- The write or the reduction is one the merge and the projection rules account for. -/
def UnifyEvent.Faithful (W : Workspace) : UnifyEvent → Prop
  | .bindTy _ _ _ => True
  | .bindRow σ rv _ => σ.rowvids.probeValue rv = none
  | .reduced head args => W.InsertsData head args

/-! ## Types without errors -/

/-- Variables whose bindings are free of `Type::Error`. -/
structure CleanSet where
  ty : TyVid → Prop
  row : RowVid → Prop

def RowTail.Clean (C : CleanSet) : RowTail → Prop
  | .closed => True
  | .opened rv => C.row rv

mutual
/-- No `Type::Error` in the type, and only variables of `C`. -/
def Ty.Clean (C : CleanSet) : Ty → Prop
  | .var v => C.ty v
  | .rigid _ _ => True
  | .con _ args => Ty.CleanAll C args
  | .fn params ret _ => Ty.CleanAll C params ∧ ret.Clean C
  | .tuple ts => Ty.CleanAll C ts
  | .record fields tail => Ty.CleanFields C fields ∧ tail.Clean C
  | .aliased _ body => body.Clean C
  | .error => False

def Ty.CleanAll (C : CleanSet) : List Ty → Prop
  | [] => True
  | t :: ts => t.Clean C ∧ Ty.CleanAll C ts

def Ty.CleanFields (C : CleanSet) : List Field → Prop
  | [] => True
  | (_, t) :: fs => t.Clean C ∧ Ty.CleanFields C fs
end

variable {C : CleanSet}

theorem Ty.cleanAll_iff {ts : List Ty} : Ty.CleanAll C ts ↔ ∀ t ∈ ts, t.Clean C := by
  induction ts with
  | nil => simp [Ty.CleanAll]
  | cons t ts ih => simp [Ty.CleanAll, ih]

theorem Ty.cleanFields_iff {fs : List Field} : Ty.CleanFields C fs ↔ ∀ f ∈ fs, f.2.Clean C := by
  induction fs with
  | nil => simp [Ty.CleanFields]
  | cons f fs ih => simp [Ty.CleanFields, ih]

/-- The set is closed under the classes and the bindings of the context. -/
structure CleanSet.Holds (C : CleanSet) (σ : InferCtx) : Prop where
  ty_root : ∀ v, C.ty (σ.tyvids.root v) ↔ C.ty v
  ty_bound : ∀ v t, C.ty v → σ.tyvids.probeValue v = some t → t.Clean C
  row_root : ∀ v, C.row (σ.rowvids.root v) ↔ C.row v
  row_bound : ∀ v row, C.row v → σ.rowvids.probeValue v = some row →
    Ty.CleanFields C row.fields ∧ row.tail.Clean C
  row_fresh : ∀ v, σ.rowvids.len ≤ v → C.row v

namespace CleanSet.Holds

theorem shallowResolve (hC : C.Holds σ) {u : Ty} (h : σ.shallowResolve n t = some u)
    (ht : t.Clean C) : u.Clean C := by
  induction n generalizing t with
  | zero => cases h
  | succ n ih =>
    cases t with
    | var v =>
      simp only [InferCtx.shallowResolve, UnificationTable.find,
        probeValue_root] at h
      cases hv : σ.tyvids.probeValue v with
      | some bound => rw [hv] at h; exact ih h (hC.ty_bound v bound ht hv)
      | none => rw [hv] at h; cases h; exact (hC.ty_root v).mpr ht
    | aliased name body => exact ih h ht
    | rigid | con | fn | tuple | record | error => cases h; exact ht

theorem resolveRow (hC : C.Holds σ) {out out' : List Field} {tail tail' : RowTail}
    (h : σ.resolveRow n out tail = some (out', tail')) (hout : Ty.CleanFields C out)
    (htail : tail.Clean C) : Ty.CleanFields C out' ∧ tail'.Clean C := by
  induction n generalizing out tail with
  | zero => cases h
  | succ n ih =>
    cases tail with
    | closed => cases h; exact ⟨hout, htail⟩
    | opened rv =>
      simp only [InferCtx.resolveRow, UnificationTable.find,
        probeValue_root] at h
      cases hrv : σ.rowvids.probeValue rv with
      | none => rw [hrv] at h; cases h; exact ⟨hout, (hC.row_root rv).mpr htail⟩
      | some row =>
        rw [hrv] at h
        obtain ⟨hfields, hrest⟩ := hC.row_bound rv row htail hrv
        refine ih h (Ty.cleanFields_iff.mpr fun f hf => ?_) hrest
        rcases mem_append.mp hf with hf | hf
        · exact Ty.cleanFields_iff.mp hout f hf
        · exact Ty.cleanFields_iff.mp hfields f hf

end CleanSet.Holds

/-! ## Equations -/

/-- From `σ` to `σ'` clean bindings stay clean, and every assignment of `σ'` is one of `σ` and
solves `E`. -/
structure Solves (W : Workspace) (C : CleanSet) (σ σ' : InferCtx) (E : Assignment → Prop) :
    Prop where
  holds : C.Holds σ'
  sat : ∀ ρ, Sat W ρ σ' → Sat W ρ σ ∧ E ρ

variable {E F : Assignment → Prop}

theorem Solves.refl (hC : C.Holds σ) (hE : ∀ ρ, Sat W ρ σ → E ρ) : Solves W C σ σ E :=
  ⟨hC, fun ρ hρ => ⟨hρ, hE ρ hρ⟩⟩

theorem Solves.imp (h : Solves W C σ σ' E) (hEF : ∀ ρ, Sat W ρ σ' → Sat W ρ σ → E ρ → F ρ) :
    Solves W C σ σ' F :=
  ⟨h.holds, fun ρ hρ => ⟨(h.sat ρ hρ).1, hEF ρ hρ (h.sat ρ hρ).1 (h.sat ρ hρ).2⟩⟩

theorem Solves.trans {σ₁ : InferCtx} (h₁ : Solves W C σ σ₁ E) (h₂ : Solves W C σ₁ σ' F) :
    Solves W C σ σ' fun ρ => E ρ ∧ F ρ :=
  ⟨h₂.holds, fun ρ hρ =>
    have hρ₁ := h₂.sat ρ hρ
    have hρ₀ := h₁.sat ρ hρ₁.1
    ⟨hρ₀.1, hρ₀.2, hρ₁.2⟩⟩

/-! ## The writes -/

theorem solves_unionTy (hC : C.Holds σ) {x y : TyVid} (hx : σ.tyvids.probeValue x = none)
    (hy : σ.tyvids.probeValue y = none) (hCx : C.ty x) (hCy : C.ty y) :
    Solves W C σ { σ with tyvids := σ.tyvids.union x y } fun ρ => ρ.ty x = ρ.ty y := by
  obtain ⟨c, hc, hroot⟩ := σ.tyvids.root_union x y
  have hprobe := σ.tyvids.probeValue_union hx hy
  have hxc : (σ.tyvids.union x y).root x = c := by rw [hroot]; simp
  have hyc : (σ.tyvids.union x y).root y = c := by rw [hroot]; simp
  -- the new class of a variable is the new class of its old root
  have hrr : ∀ v, (σ.tyvids.union x y).root (σ.tyvids.root v) = (σ.tyvids.union x y).root v := by
    intro v; rw [hroot, hroot, σ.tyvids.root_root]
  constructor
  · have hCc : C.ty c := by
      rcases hc with rfl | rfl
      · exact (hC.ty_root x).mpr hCx
      · exact (hC.ty_root y).mpr hCy
    refine ⟨fun v => ?_, fun v t hv ht => hC.ty_bound v t hv (by rw [← ht]; exact congrFun hprobe.symm v),
      hC.row_root, hC.row_bound, hC.row_fresh⟩
    show C.ty ((σ.tyvids.union x y).root v) ↔ C.ty v
    rw [hroot]
    split
    · next h =>
      refine iff_of_true hCc ?_
      rw [← hC.ty_root v]
      rcases h with h | h <;> rw [h]
      · exact (hC.ty_root x).mpr hCx
      · exact (hC.ty_root y).mpr hCy
    · exact hC.ty_root v
  · intro ρ hρ
    have hroot' : ∀ v, ρ.ty ((σ.tyvids.union x y).root v) = ρ.ty v := hρ.ty_root
    refine ⟨⟨fun v => ?_, fun v t ht => hρ.ty_bound v t (by rw [← ht]; exact congrFun hprobe v),
      hρ.row_root, hρ.row_bound, hρ.cap_root, hρ.cap_bound⟩, ?_⟩
    · rw [← hroot' (σ.tyvids.root v), hrr, hroot']
    · rw [← hroot' x, hxc, ← hyc, hroot']

theorem solves_bindTy (hC : C.Holds σ) {x : TyVid} (hx : σ.tyvids.probeValue x = none)
    (ht : t.Clean C) :
    Solves W C σ { σ with tyvids := σ.tyvids.unionValue x t }
      fun ρ => ρ.ty x = interp W ρ t := by
  have hprobe := σ.tyvids.probeValue_unionValue t hx
  constructor
  · refine ⟨hC.ty_root, fun v u hv hu => ?_, hC.row_root, hC.row_bound, hC.row_fresh⟩
    replace hu : (σ.tyvids.unionValue x t).probeValue v = some u := hu
    rw [hprobe] at hu
    split at hu
    · cases hu; exact ht
    · exact hC.ty_bound v u hv hu
  · intro ρ hρ
    refine ⟨⟨hρ.ty_root, fun v u hu => hρ.ty_bound v u ?_, hρ.row_root, hρ.row_bound,
      hρ.cap_root, hρ.cap_bound⟩, hρ.ty_bound x t ?_⟩
    · show (σ.tyvids.unionValue x t).probeValue v = some u
      rw [hprobe, if_neg, hu]
      intro heq
      rw [← probeValue_root, heq, probeValue_root, hx] at hu
      cases hu
    · show (σ.tyvids.unionValue x t).probeValue x = some t
      rw [hprobe, if_pos rfl]

variable {rv : RowVid}

theorem solves_bindRow (hC : C.Holds σ) {row : Row} (hrv : σ.rowvids.probeValue rv = none)
    (hfields : Ty.CleanFields C row.fields) (htail : row.tail.Clean C) :
    Solves W C σ { σ with rowvids := σ.rowvids.unionValue rv row }
      fun ρ => ρ.row rv = interpRow W ρ row := by
  have hprobe := σ.rowvids.probeValue_unionValue row hrv
  constructor
  · refine ⟨hC.ty_root, hC.ty_bound, hC.row_root, fun v r hv hr => ?_, fun v hv =>
      hC.row_fresh v (le_trans (σ.rowvids.len_le_unionValue rv row) hv)⟩
    replace hr : (σ.rowvids.unionValue rv row).probeValue v = some r := hr
    rw [hprobe] at hr
    split at hr
    · cases hr; exact ⟨hfields, htail⟩
    · exact hC.row_bound v r hv hr
  · intro ρ hρ
    refine ⟨⟨hρ.ty_root, hρ.ty_bound, hρ.row_root, fun v r hr => hρ.row_bound v r ?_,
      hρ.cap_root, hρ.cap_bound⟩, hρ.row_bound rv row ?_⟩
    · show (σ.rowvids.unionValue rv row).probeValue v = some r
      rw [hprobe, if_neg, hr]
      intro heq
      rw [← probeValue_root, heq, probeValue_root, hrv] at hr
      cases hr
    · show (σ.rowvids.unionValue rv row).probeValue rv = some row
      rw [hprobe, if_pos rfl]

variable {v : CapVid}

theorem solves_bindCap (hC : C.Holds σ) {c : CapRow} (hv : σ.capvids.probeValue v = none) :
    Solves W C σ { σ with capvids := σ.capvids.unionValue v c }
      fun ρ => ρ.cap v = ρ.interpCaps c := by
  have hprobe := σ.capvids.probeValue_unionValue c hv
  refine ⟨⟨hC.ty_root, hC.ty_bound, hC.row_root, hC.row_bound, hC.row_fresh⟩, fun ρ hρ => ?_⟩
  refine ⟨⟨hρ.ty_root, hρ.ty_bound, hρ.row_root, hρ.row_bound, hρ.cap_root,
    fun w d hd => hρ.cap_bound w d ?_⟩, hρ.cap_bound v c ?_⟩
  · show (σ.capvids.unionValue v c).probeValue w = some d
    rw [hprobe, if_neg, hd]
    intro heq
    rw [← probeValue_root, heq, probeValue_root, hv] at hd
    cases hd
  · show (σ.capvids.unionValue v c).probeValue v = some c
    rw [hprobe, if_pos rfl]

theorem solves_unionCap (hC : C.Holds σ) {v w : CapVid} (hv : σ.capvids.probeValue v = none)
    (hw : σ.capvids.probeValue w = none) :
    Solves W C σ { σ with capvids := σ.capvids.union v w } fun ρ => ρ.cap v = ρ.cap w := by
  obtain ⟨c, -, hroot⟩ := σ.capvids.root_union v w
  have hprobe := σ.capvids.probeValue_union hv hw
  have hvc : (σ.capvids.union v w).root v = c := by rw [hroot]; simp
  have hwc : (σ.capvids.union v w).root w = c := by rw [hroot]; simp
  have hrr : ∀ u, (σ.capvids.union v w).root (σ.capvids.root u) = (σ.capvids.union v w).root u := by
    intro u; rw [hroot, hroot, σ.capvids.root_root]
  refine ⟨⟨hC.ty_root, hC.ty_bound, hC.row_root, hC.row_bound, hC.row_fresh⟩, fun ρ hρ => ?_⟩
  have hroot' : ∀ u, ρ.cap ((σ.capvids.union v w).root u) = ρ.cap u := hρ.cap_root
  refine ⟨⟨hρ.ty_root, hρ.ty_bound, hρ.row_root, hρ.row_bound, fun u => ?_,
    fun u d hd => hρ.cap_bound u d (by rw [← hd]; exact congrFun hprobe u)⟩, ?_⟩
  · rw [← hroot' (σ.capvids.root u), hrr, hroot']
  · rw [← hroot' v, hvc, ← hwc, hroot']

/-! ## Capability rows -/

theorem parts_foldl (rows : List CapRow) (acc : CapRow) :
    (rows.foldl unionWith acc).parts = acc.parts ⊔ partsAll rows := by
  induction rows generalizing acc with
  | nil => exact (sup_bot_eq _).symm
  | cons row rows ih => rw [foldl_cons, ih, parts_unionWith, partsAll, sup_assoc]

variable {rows : List CapRow}

/-- A union is its variable together with its other components. -/
theorem partsAll_withoutVar (hv : .var v ∈ rows) :
    partsAll rows = (withoutVar v rows).parts ⊔ parts (.var v) := by
  have hrest : (withoutVar v rows).parts = partsAll (rows.filter (· ≠ .var v)) := by
    rw [withoutVar, parts_foldl]
    exact bot_sup_eq _
  rw [hrest]
  -- filtering out a component loses its parts and nothing else
  have hfilter : ∀ rows : List CapRow,
      partsAll rows ⊔ parts (.var v) = partsAll (rows.filter (· ≠ .var v)) ⊔ parts (.var v) := by
    intro rows
    induction rows with
    | nil => rfl
    | cons row rows ih =>
      by_cases hrow : row = .var v
      · rw [filter_cons_of_neg (by simp [hrow]), ← ih, hrow, partsAll, sup_comm (parts _),
          sup_assoc, sup_idem]
      · rw [filter_cons_of_pos (by simp [hrow]), partsAll, partsAll, sup_assoc, ih, sup_assoc]
  have hmem : ∀ rows : List CapRow, .var v ∈ rows → partsAll rows = partsAll rows ⊔ parts (.var v) := by
    intro rows
    induction rows with
    | nil => simp
    | cons row rows ih =>
      intro h
      rcases mem_cons.mp h with rfl | h
      · rw [partsAll, sup_comm (parts _), sup_assoc, sup_idem]
      · rw [partsAll, sup_assoc, ← ih h]
  rw [hmem rows hv, hfilter]

/-- The least solution of `c = c ∪ r` solves it. -/
theorem Assignment.interpCaps_union_of_withoutVar (ρ : Assignment) (hv : .var v ∈ rows)
    (h : ρ.interpCaps (.var v) = ρ.interpCaps (withoutVar v rows)) :
    ρ.interpCaps (.var v) = ρ.interpCaps (.union rows) := by
  rw [interpCaps_eq_iff] at h ⊢
  rw [show (CapRow.union rows).parts = partsAll rows by rw [CapRow.parts],
    partsAll_withoutVar hv, interpParts_sup, ← h, sup_idem]

variable {a b : CapRow}

theorem recursiveUnion_eq_some (h : recursiveUnion a b = some (v, rows)) :
    .var v ∈ rows ∧
      ((a = .var v ∧ b = .union rows) ∨ (a = .union rows ∧ b = .var v)) := by
  unfold recursiveUnion at h
  split at h
  · split at h
    · next hmem => cases h; exact ⟨hmem, .inl ⟨rfl, rfl⟩⟩
    · cases h
  · split at h
    · next hmem => cases h; exact ⟨hmem, .inr ⟨rfl, rfl⟩⟩
    · cases h
  · cases h

theorem unifyCaps_sound (hC : C.Holds σ) (h : unifyCaps n a b σ = some (.ok (), σ', es)) :
    Solves W C σ σ' fun ρ => ρ.interpCaps a = ρ.interpCaps b := by
  induction n generalizing a b with
  | zero => cases h
  | succ n ih =>
    rw [unifyCaps] at h
    obtain ⟨a', ha, h⟩ := read_bind_eq_some.mp h
    obtain ⟨b', hb, h⟩ := read_bind_eq_some.mp h
    -- it is enough to solve the equation between the resolved rows
    suffices hsuff : Solves W C σ σ' fun ρ => ρ.interpCaps a' = ρ.interpCaps b' by
      refine hsuff.imp fun ρ _ hρ heq => ?_
      rw [← interpCaps_shallowResolveCaps hρ ha, ← interpCaps_shallowResolveCaps hρ hb, heq]
    have hau := shallowResolveCaps_unbound ha
    have hbu := shallowResolveCaps_unbound hb
    cases hrec : recursiveUnion a' b' with
    | some p =>
      obtain ⟨v, rows⟩ := p
      rw [hrec] at h
      obtain ⟨hmem, ⟨rfl, rfl⟩ | ⟨rfl, rfl⟩⟩ := recursiveUnion_eq_some hrec
      · exact (ih h).imp fun ρ _ _ heq => ρ.interpCaps_union_of_withoutVar hmem heq
      · exact (ih h).imp fun ρ _ _ heq => (ρ.interpCaps_union_of_withoutVar hmem heq).symm
    | none =>
      rw [hrec] at h
      dsimp only at h
      split at h
      · next heq => cases h; exact .refl hC fun ρ _ => by rw [heq]
      · cases a' with
        | concrete s =>
          cases b' with
          | concrete t => cases h
          | var w =>
            dsimp only at h
            split at h
            · cases h
              exact (solves_bindCap hC (hbu w (by simp [CapRow.vars])).2).imp
                fun ρ _ _ heq => heq.symm
            · cases h
          | union rows => cases h
        | var v =>
          have hv := (hau v (by simp [CapRow.vars])).2
          cases b' with
          | concrete t =>
            dsimp only at h
            split at h
            · cases h; exact solves_bindCap hC hv
            · cases h
          | var w =>
            cases h
            exact solves_unionCap hC hv (hbu w (by simp [CapRow.vars])).2
          | union rows =>
            dsimp only at h
            split at h
            · cases h; exact solves_bindCap hC hv
            · cases h
        | union rows =>
          cases b' with
          | concrete t => cases h
          | var w =>
            dsimp only at h
            split at h
            · cases h
              exact (solves_bindCap hC (hbu w (by simp [CapRow.vars])).2).imp
                fun ρ _ _ heq => heq.symm
            · cases h
          | union rows => cases h

/-! ## Reductions -/

theorem hom_interp (W : Workspace) (ρ : Assignment) : W.Hom (interp W ρ) where
  nil id := by rw [interp, interpAll, project_nil]
  con id args hid := by rw [interp, interpAll_eq_map, W.project_of_not_mem hid]
  fn params ret caps := ⟨_, by rw [interp, interpAll_eq_map]⟩
  fnPure params ret := by rw [interp, interpAll_eq_map, Assignment.interpCaps]
  tuple ts := by rw [interp, interpAll_eq_map]

variable {ρ : Assignment}

variable {ts us : List Ty}

theorem interp_mapM (hρ : Sat W ρ σ) (h : ts.mapM (σ.shallowResolve n) = some us) :
    us.map (interp W ρ) = ts.map (interp W ρ) ∧ us.length = ts.length := by
  induction ts generalizing us with
  | nil => cases h; exact ⟨rfl, rfl⟩
  | cons t ts ih =>
    rw [mapM_cons] at h
    obtain ⟨u, hu, h⟩ := bind_eq_some_iff.mp h
    obtain ⟨us', hus', h⟩ := bind_eq_some_iff.mp h
    cases h
    obtain ⟨hmap, hlen⟩ := ih hus'
    exact ⟨by rw [map_cons, map_cons, interp_shallowResolve hρ hu, hmap],
      by rw [length_cons, length_cons, hlen]⟩

variable {p : Workspace.Projection} {args : List Ty}

variable {u : Ty}

theorem interp_reducesTo (hρ : Sat W ρ σ) (hp : p ∈ W.projections) (h : ReducesTo σ n p args t u)
    (hins : W.InsertsData p.head args) : interp W ρ t = interp W ρ u := by
  obtain ⟨⟨raw, rfl, hlen, hargs⟩, hred⟩ := h
  obtain ⟨hmap, hlen'⟩ := interp_mapM hρ hargs
  rw [interp, interpAll_eq_map, ← hmap]
  exact W.project_of_reduce hp (by rw [length_map, hlen', hlen])
    ((hom_interp W ρ).reduce hp (fun hhead id as has =>
      (hom_interp W ρ).con id as (hins hhead id as has)) hred)

theorem interpAll_eq_of_zip {xs ys : List Ty} (hlen : xs.length = ys.length)
    (h : ∀ p ∈ xs.zip ys, interp W ρ p.1 = interp W ρ p.2) :
    interpAll W ρ xs = interpAll W ρ ys := by
  rw [interpAll_eq_map, interpAll_eq_map]
  refine ext_getElem (by simpa using hlen) fun i hi hj => ?_
  rw [length_map] at hi hj
  rw [getElem_map, getElem_map]
  exact h (xs[i], ys[i]) (mem_iff_getElem.mpr ⟨i, by simp [hi, hj], by simp⟩)

/-! ### Reductions keep types clean -/

theorem Ty.clean_con {id : TyConId} : (Ty.con id args).Clean C ↔ ∀ a ∈ args, a.Clean C := by
  rw [Ty.Clean, Ty.cleanAll_iff]

theorem Ty.clean_tuple {ts : List Ty} : (Ty.tuple ts).Clean C ↔ ∀ t ∈ ts, t.Clean C := by
  rw [Ty.Clean, Ty.cleanAll_iff]

theorem clean_optionOf : (W.optionOf t).Clean C ↔ t.Clean C := by
  rw [Workspace.optionOf, Ty.clean_con]
  simp

theorem clean_reduceRowsArg (h : W.reduceRowsArg t = some u) (ht : t.Clean C) : u.Clean C := by
  induction t using Ty.inductionOn generalizing u with
  | con qid qargs ih =>
    rw [Ty.clean_con] at ht
    cases qargs with
    | nil => simp [Workspace.reduceRowsArg] at h
    | cons q rest =>
      have hq := ht q mem_cons_self
      have ihq := fun u hu => ih q mem_cons_self (u := u) hu hq
      unfold Workspace.reduceRowsArg at h
      cases hrt : W.rowsTycons with
      | none => rw [hrt] at h; cases h
      | some rt =>
        rw [hrt] at h
        cases rest with
        | nil =>
          dsimp only at h
          split_ifs at h <;> (cases h; exact hq)
        | cons f rest =>
          have hf := ht f (mem_cons_of_mem _ mem_cons_self)
          have hnested : ∀ {g : Ty → Ty}, (∀ inner, inner.Clean C → (g inner).Clean C) →
              (W.reduceRowsArg q).map g = some u → u.Clean C := by
            intro g hg h
            obtain ⟨inner, hinner, rfl⟩ := map_eq_some_iff.mp h
            exact hg inner (ihq inner hinner)
          dsimp only at h
          split_ifs at h
          iterate 2 · cases h; exact hq
          iterate 4 · cases h; simp [Ty.clean_tuple, clean_optionOf, hq, hf]
          iterate 4 · exact hnested (fun _ hi => by simp [Ty.clean_tuple, clean_optionOf, hi, hf]) h
  | var | rigid | fn | tuple | record | wrapper | error => cases h

theorem clean_joinEntities {us : List Ty} (h : W.joinEntities t = some us) (ht : t.Clean C) :
    ∀ u ∈ us, u.Clean C := by
  induction t using Ty.inductionOn generalizing us with
  | con qid qargs ih =>
    rw [Ty.clean_con] at ht
    cases qargs with
    | nil => simp [Workspace.joinEntities] at h
    | cons q rest =>
      have hq := ht q mem_cons_self
      unfold Workspace.joinEntities at h
      cases hrt : W.rowsTycons with
      | none => rw [hrt] at h; cases h
      | some rt =>
        rw [hrt] at h
        cases rest with
        | nil =>
          dsimp only at h
          split_ifs at h
          cases h
          simpa using hq
        | cons f rest =>
          have hf := ht f (mem_cons_of_mem _ mem_cons_self)
          dsimp only at h
          split_ifs at h
          · cases h; simpa using hq
          · cases h; simp [hq, hf]
          · obtain ⟨inner, hinner, rfl⟩ := map_eq_some_iff.mp h
            have := ih q mem_cons_self hinner hq
            simpa [or_imp, forall_and] using ⟨this, hf⟩
  | var | rigid | fn | tuple | record | wrapper | error => cases h

theorem clean_joinAdapter {a : Ty} (h : W.joinAdapter t = some a) (ht : t.Clean C) : a.Clean C := by
  cases t with
  | con qid qargs =>
    rw [Ty.clean_con] at ht
    unfold Workspace.joinAdapter at h
    cases hrt : W.rowsTycons with
    | none => rw [hrt] at h; cases h
    | some rt =>
      rw [hrt] at h
      dsimp only at h
      split_ifs at h <;> exact ht a (mem_of_getElem? h)
  | var | rigid | fn | tuple | record | aliased | error => cases h

theorem clean_reduceResultArg {binary : RowsTycons → TyConId}
    {nested : RowsTycons → Option TyConId} {q e u : Ty}
    (h : W.reduceResultArg binary nested q e = some u) (hq : q.Clean C) (he : e.Clean C) :
    u.Clean C := by
  unfold Workspace.reduceResultArg at h
  split at h
  · next rt qid qargs hrt =>
    split at h
    · cases h
    · next a ha =>
      have ha := clean_joinAdapter ha hq
      split_ifs at h
      · obtain ⟨x, hx, rfl⟩ := map_eq_some_iff.mp h
        have hx := Ty.clean_con.mp hq x (mem_of_getElem? hx)
        rw [Ty.clean_con]
        simp [hx, he, ha]
      · obtain ⟨id, -, rfl⟩ := map_eq_some_iff.mp h
        rw [Ty.clean_con]
        simp [hq, he, ha]
  · cases h

theorem clean_reduce (hp : p ∈ W.projections) (h : p.reduce args = some u)
    (hargs : ∀ a ∈ args, a.Clean C) : u.Clean C := by
  simp only [Workspace.projections, mem_cons, not_mem_nil, or_false] at hp
  have hresult : ∀ {head binary nested},
      (Workspace.binary head (W.reduceResultArg binary nested)).reduce args = some u →
        u.Clean C := by
    intro head binary nested h
    obtain ⟨q, e, rfl, hq⟩ := binary_reduce h
    exact clean_reduceResultArg hq (hargs q (by simp)) (hargs e (by simp))
  rcases hp with rfl | rfl | rfl | rfl | rfl | rfl | rfl | rfl
  · obtain ⟨q, rfl, hq⟩ := unary_reduce h
    have hfn := hargs q (by simp)
    cases q with
    | fn params ret caps => cases hq; exact hfn.2
    | var | rigid | con | tuple | record | aliased | error => cases hq
  · obtain ⟨q, rfl, hq⟩ := unary_reduce h
    exact clean_reduceRowsArg hq (hargs q (by simp))
  · obtain ⟨q, e, rfl, hq⟩ := binary_reduce h
    obtain ⟨us, hus, rfl⟩ := map_eq_some_iff.mp hq
    have hall := clean_joinEntities hus (hargs q (by simp))
    have he := hargs e (by simp)
    refine ⟨Ty.cleanAll_iff.mpr ?_, Ty.clean_con.mpr (by simp)⟩
    simpa [or_imp, forall_and] using ⟨hall, he⟩
  · exact hresult h
  · exact hresult h
  · exact hresult h
  · exact hresult h
  · obtain ⟨q, rfl, hq⟩ := unary_reduce h
    have hdata := hargs q (by simp)
    cases q with
    | con eid as =>
      simp only [Workspace.reduceInsertShapeArg] at hq
      split at hq
      · cases hq; exact Ty.clean_con.mpr (by simp)
      · cases hq; exact hdata
    | var | rigid | fn | tuple | record | aliased | error => cases hq

theorem clean_mapM (hC : C.Holds σ) (h : ts.mapM (σ.shallowResolve n) = some us)
    (hts : ∀ t ∈ ts, t.Clean C) : ∀ u ∈ us, u.Clean C := by
  induction ts generalizing us with
  | nil => cases h; simp
  | cons t ts ih =>
    rw [mapM_cons] at h
    obtain ⟨u, hu, h⟩ := bind_eq_some_iff.mp h
    obtain ⟨us', hus', h⟩ := bind_eq_some_iff.mp h
    cases h
    intro x hx
    rcases mem_cons.mp hx with rfl | hx
    · exact hC.shallowResolve hu (hts t mem_cons_self)
    · exact ih hus' (fun t ht => hts t (mem_cons_of_mem _ ht)) x hx

variable {lhs rhs arg entity : Ty}

theorem Inverts.clean_arg (h : Inverts W σ n lhs rhs arg entity) (hl : lhs.Clean C) :
    arg.Clean C := by
  rw [h.stuck, Ty.clean_con] at hl
  exact hl arg mem_cons_self

theorem Inverts.clean_entity (h : Inverts W σ n lhs rhs arg entity) : entity.Clean C := by
  have hent := h.inverse
  unfold insertShapeInverse at hent
  split at hent
  · cases hent; exact Ty.clean_con.mpr (by simp)
  · cases hent

theorem ReducesTo.clean (hC : C.Holds σ) (hp : p ∈ W.projections) (h : ReducesTo σ n p args t u)
    (ht : t.Clean C) : u.Clean C := by
  obtain ⟨⟨raw, rfl, -, hargs⟩, hred⟩ := h
  exact clean_reduce hp hred (clean_mapM hC hargs (Ty.clean_con.mp ht))

/-! ## Records -/

theorem bindVar_sound (hC : C.Holds σ) {x : TyVid} (hx : σ.tyvids.probeValue x = none)
    (ht : t.Clean C) (h : bindVar W n x t σ = some (.ok (), σ', es)) :
    Solves W C σ σ' fun ρ => ρ.ty x = interp W ρ t := by
  obtain ⟨b, -, h⟩ := read_bind_eq_some.mp h
  cases b with
  | true =>
    obtain ⟨_, -, h⟩ := read_bind_eq_some.mp h
    obtain ⟨_, -, h⟩ := read_bind_eq_some.mp h
    cases h
  | false =>
    obtain ⟨es₁, h, -⟩ := record_bind_eq_some.mp h
    cases h
    exact solves_bindTy hC hx ht

theorem bindRow_sound (hC : C.Holds σ) {fields : List Field} {tail : RowTail}
    (hfields : Ty.CleanFields C fields) (htail : tail.Clean C) (hes : ∀ e ∈ es, e.Faithful W)
    (h : bindRow W n rv fields tail σ = some (.ok (), σ', es)) :
    Solves W C σ σ' fun ρ =>
      ρ.row rv = Row.extend (interpFields W ρ fields) (ρ.tailRow tail) := by
  obtain ⟨b, -, h⟩ := read_bind_eq_some.mp h
  cases b with
  | true =>
    obtain ⟨_, -, h⟩ := read_bind_eq_some.mp h
    cases h
  | false =>
    obtain ⟨es₁, h, rfl⟩ := record_bind_eq_some.mp h
    cases h
    have hrv : σ.rowvids.probeValue rv = none := hes _ mem_cons_self
    refine (solves_bindRow hC hrv ?_ htail).imp fun ρ _ _ heq => ?_
    · exact Ty.cleanFields_iff.mpr fun f hf =>
        Ty.cleanFields_iff.mp hfields f (mem_of_mem_normalise hf)
    · -- normalising before or after interpreting keeps the last writes
      rw [heq, interpRow, Row.extend_eq_iff]
      refine ⟨rfl, fun k => ?_⟩
      simp only [lastOf_append, lastOf_interpFields, Row.new, normaliseFields,
        lastOf_normalise]

/-- With the shared fields solved, what one record lacks is what the other one adds. -/
theorem extend_split {f g : List Field} (row : Row)
    (hcommon : ∀ p ∈ (KeyedList.split (KeyedList.sort f) (KeyedList.sort g)).common, interp W ρ p.1 = interp W ρ p.2) :
    Row.extend (interpFields W ρ
        (f ++ (KeyedList.split (KeyedList.sort f) (KeyedList.sort g)).only₂)) row
      = Row.extend (interpFields W ρ
        (g ++ (KeyedList.split (KeyedList.sort f) (KeyedList.sort g)).only₁)) row := by
  rw [Row.extend_eq_iff]
  refine ⟨rfl, fun k => ?_⟩
  have hlast := split_lastOf (interp W ρ) k _ _ (sort_pairwise f)
    (sort_pairwise g) hcommon
  rw [lastOf_sort, lastOf_sort] at hlast
  rw [lastOf_append, lastOf_append, lastOf_interpFields, lastOf_interpFields,
    lastOf_append, lastOf_append, hlast]

theorem solves_freshRowvid (hC : C.Holds σ) : Solves W C σ σ.freshRowvid.2 fun _ => True := by
  refine ⟨⟨hC.ty_root, hC.ty_bound, hC.row_root, hC.row_bound, fun v hv => ?_⟩,
    fun ρ hρ => ⟨⟨hρ.ty_root, hρ.ty_bound, hρ.row_root, hρ.row_bound, hρ.cap_root,
      hρ.cap_bound⟩, trivial⟩⟩
  exact hC.row_fresh v (Nat.le_of_succ_le hv)

/-- `rec` solves its equation whenever it succeeds with a faithful journal. -/
def SolvesAll (W : Workspace) (C : CleanSet) (rec : Ty → Ty → UnifyM Unit) : Prop :=
  ∀ a b σ σ' es, C.Holds σ → a.Clean C → b.Clean C → (∀ e ∈ es, e.Faithful W) →
    rec a b σ = some (.ok (), σ', es) → Solves W C σ σ' fun ρ => interp W ρ a = interp W ρ b

theorem not_mismatch_ok {a b : Ty} :
    (W.mismatch n a b : UnifyM Unit) σ ≠ some (.ok (), σ', es) := by
  intro h
  obtain ⟨expected, -, h⟩ := read_bind_eq_some.mp h
  obtain ⟨found, -, h⟩ := read_bind_eq_some.mp h
  cases hfull : W.insertShapeFullEntity expected found with
  | some err | none => rw [hfull] at h; cases h

section
variable {rec : Ty → Ty → UnifyM Unit} (hrec : SolvesAll W C rec)
include hrec

theorem unifyAll_sound {pairs : List (Ty × Ty)} (hC : C.Holds σ)
    (hpairs : ∀ p ∈ pairs, p.1.Clean C ∧ p.2.Clean C) (hes : ∀ e ∈ es, e.Faithful W)
    (h : unifyAll rec pairs σ = some (.ok (), σ', es)) :
    Solves W C σ σ' fun ρ => ∀ p ∈ pairs, interp W ρ p.1 = interp W ρ p.2 := by
  induction pairs generalizing σ es with
  | nil => cases h; exact .refl hC (by simp)
  | cons p pairs ih =>
    rcases bind_eq_some.mp h with ⟨e, -, hr⟩ | ⟨u, σ₁, es₁, es₂, hp, htail, rfl⟩
    · cases hr
    have hhead := hpairs p mem_cons_self
    have hs := hrec _ _ _ _ _ hC hhead.1 hhead.2 (fun e he => hes e (mem_append_left _ he)) hp
    have hrest := ih hs.holds (fun q hq => hpairs q (mem_cons_of_mem p hq))
      (fun e he => hes e (mem_append_right _ he)) htail
    refine (hs.trans hrest).imp fun ρ _ _ heq q hq => ?_
    rcases mem_cons.mp hq with rfl | hq
    · exact heq.1
    · exact heq.2 q hq

theorem unifyRows_sound {f₁ f₂ : List Field} {t₁ t₂ : RowTail} (hC : C.Holds σ)
    (hf₁ : Ty.CleanFields C f₁) (ht₁ : t₁.Clean C) (hf₂ : Ty.CleanFields C f₂)
    (ht₂ : t₂.Clean C) (hes : ∀ e ∈ es, e.Faithful W)
    (h : unifyRows W n rec f₁ t₁ f₂ t₂ σ = some (.ok (), σ', es)) :
    Solves W C σ σ' fun ρ => interp W ρ (.record f₁ t₁) = interp W ρ (.record f₂ t₂) := by
  obtain ⟨⟨g₁, u₁⟩, h₁, h⟩ := read_bind_eq_some.mp h
  obtain ⟨⟨g₂, u₂⟩, h₂, h⟩ := read_bind_eq_some.mp h
  obtain ⟨hg₁, hu₁⟩ := hC.resolveRow h₁ hf₁ ht₁
  obtain ⟨hg₂, hu₂⟩ := hC.resolveRow h₂ hf₂ ht₂
  -- it is enough to solve the equation between the peeled rows
  suffices hsuff : Solves W C σ σ' fun ρ =>
      Row.extend (interpFields W ρ g₁) (ρ.tailRow u₁)
        = Row.extend (interpFields W ρ g₂) (ρ.tailRow u₂) by
    refine hsuff.imp fun ρ _ hρ heq => ?_
    rw [interp, interp, ← interp_resolveRow hρ h₁, ← interp_resolveRow hρ h₂, heq]
  dsimp only at h
  have hsplit := split_mem (KeyedList.sort g₁) (KeyedList.sort g₂)
  have hext := fun ρ => extend_split (W := W) (ρ := ρ) (f := g₁) (g := g₂)
  generalize hs : KeyedList.split (KeyedList.sort g₁) (KeyedList.sort g₂) = s at h hsplit hext
  obtain ⟨hmem, hmem₁, hmem₂⟩ := hsplit
  have hclean₁ : Ty.CleanFields C s.only₁ := Ty.cleanFields_iff.mpr fun e he =>
    Ty.cleanFields_iff.mp hg₁ e (mem_sort.mp (hmem₁ e he))
  have hclean₂ : Ty.CleanFields C s.only₂ := Ty.cleanFields_iff.mpr fun e he =>
    Ty.cleanFields_iff.mp hg₂ e (mem_sort.mp (hmem₂ e he))
  have hcommon : ∀ p ∈ s.common, p.1.Clean C ∧ p.2.Clean C := by
    intro p hp
    obtain ⟨⟨e, he, hep⟩, e', he', hep'⟩ := hmem p hp
    rw [← hep, ← hep']
    exact ⟨Ty.cleanFields_iff.mp hg₁ e (mem_sort.mp he),
      Ty.cleanFields_iff.mp hg₂ e' (mem_sort.mp he')⟩
  rcases bind_eq_some.mp h with ⟨e, -, hr⟩ | ⟨_, σ₁, es₁, es₂, hall, htails, rfl⟩
  · cases hr
  clear h
  have hfields := unifyAll_sound hrec hC hcommon
    (fun e he => hes e (mem_append_left _ he)) hall
  have hes₂ := fun e he => hes e (mem_append_right es₁ he)
  have hmis : ∀ {f₁ t₁ f₂ t₂ o₁ o₂}, (W.rowMismatch n f₁ t₁ f₂ t₂ o₁ o₂ : UnifyM Unit) σ₁
      ≠ some (.ok (), σ', es₂) := by
    intro f₁ t₁ f₂ t₂ o₁ o₂ h
    obtain ⟨_, -, h⟩ := read_bind_eq_some.mp h
    obtain ⟨_, -, h⟩ := read_bind_eq_some.mp h
    cases h
  cases u₁ with
  | closed =>
    cases u₂ with
    | closed =>
      dsimp only at htails
      split at htails
      · next hempty =>
        cases htails
        rw [List.isEmpty_iff, List.isEmpty_iff] at hempty
        refine hfields.imp fun ρ _ _ heq => ?_
        have := hext ρ (ρ.tailRow .closed) heq
        rwa [hempty.1, hempty.2, append_nil, append_nil] at this
      · exact absurd htails hmis
    | opened rv₂ =>
      dsimp only at htails
      split at htails
      · next hempty =>
        rw [List.isEmpty_iff] at hempty
        have hbind := bindRow_sound hfields.holds hclean₁ (show RowTail.Clean C .closed from trivial) hes₂ htails
        refine (hfields.trans hbind).imp fun ρ _ _ hboth => ?_
        obtain ⟨heq, hrow⟩ := hboth
        have := hext ρ (ρ.tailRow .closed) heq
        rw [hempty, append_nil] at this
        rw [this, interpFields_append, ← Row.extend_extend, ← hrow, Assignment.tailRow]
      · exact absurd htails hmis
  | opened rv₁ =>
    cases u₂ with
    | closed =>
      dsimp only at htails
      split at htails
      · next hempty =>
        rw [List.isEmpty_iff] at hempty
        have hbind := bindRow_sound hfields.holds hclean₂ (show RowTail.Clean C .closed from trivial) hes₂ htails
        refine (hfields.trans hbind).imp fun ρ _ _ hboth => ?_
        obtain ⟨heq, hrow⟩ := hboth
        have := hext ρ (ρ.tailRow .closed) heq
        rw [hempty, append_nil] at this
        rw [← this, interpFields_append, ← Row.extend_extend, ← hrow, Assignment.tailRow]
      · exact absurd htails hmis
    | opened rv₂ =>
      dsimp only at htails
      split at htails
      · next hrv =>
        split at htails
        · next hempty =>
          cases htails
          rw [List.isEmpty_iff, List.isEmpty_iff] at hempty
          refine hfields.imp fun ρ _ _ heq => ?_
          have := hext ρ (ρ.tailRow (.opened rv₁)) heq
          rw [hempty.1, hempty.2, append_nil, append_nil] at this
          rw [this, hrv]
        · exact absurd htails hmis
      · -- both tails grow by the other side's extras, over one fresh tail
        rcases bind_eq_some.mp htails with ⟨e, he, -⟩ | ⟨fresh, σ₂, es₃, es₄, hfr, hbinds, rfl⟩
        · cases he
        cases hfr
        rcases bind_eq_some.mp hbinds with ⟨e, -, hr⟩ | ⟨_, σ₃, es₅, es₆, hb₁, hb₂, rfl⟩
        · cases hr
        have hfresh := solves_freshRowvid (W := W) hfields.holds
        have hCfresh : RowTail.Clean C (.opened σ₁.freshRowvid.1) := hfields.holds.row_fresh _ (Nat.le_refl _)
        have hbind₁ := bindRow_sound hfresh.holds hclean₂ hCfresh
          (fun e he => hes₂ e (by simp [he])) hb₁
        have hbind₂ := bindRow_sound hbind₁.holds hclean₁ hCfresh
          (fun e he => hes₂ e (by simp [he])) hb₂
        refine (((hfields.trans hfresh).trans hbind₁).trans hbind₂).imp
          fun ρ _ _ hall => ?_
        obtain ⟨⟨⟨heq, -⟩, hrow₁⟩, hrow₂⟩ := hall
        have := hext ρ (ρ.tailRow (.opened σ₁.freshRowvid.1)) heq
        rw [interpFields_append, interpFields_append, ← Row.extend_extend, ← Row.extend_extend,
          ← hrow₁, ← hrow₂] at this
        exact this

theorem unifyShapes_sound {a b : Ty} (hC : C.Holds σ) (ha : a.Clean C) (hb : b.Clean C)
    (hfa : ∀ x, a = .var x → σ.tyvids.probeValue x = none)
    (hfb : ∀ x, b = .var x → σ.tyvids.probeValue x = none) (hes : ∀ e ∈ es, e.Faithful W)
    (h : unifyShapes W n rec a b σ = some (.ok (), σ', es)) :
    Solves W C σ σ' fun ρ => interp W ρ a = interp W ρ b := by
  have hall : ∀ {xs ys : List Ty}, (∀ t ∈ xs, t.Clean C) → (∀ t ∈ ys, t.Clean C) →
      ∀ p ∈ xs.zip ys, p.1.Clean C ∧ p.2.Clean C := fun hxs hys p hp =>
    ⟨hxs _ (of_mem_zip hp).1, hys _ (of_mem_zip hp).2⟩
  unfold unifyShapes at h
  split at h
  · exact ha.elim
  · exact hb.elim
  · next x y => cases h; exact solves_unionTy hC (hfa x rfl) (hfb y rfl) ha hb
  · exact bindVar_sound hC (hfa _ rfl) hb h
  · exact (bindVar_sound hC (hfb _ rfl) ha h).imp fun ρ _ _ heq => heq.symm
  · split at h
    · next hxy => cases h; exact .refl hC fun ρ _ => by rw [interp, interp, hxy]
    · exact absurd h not_mismatch_ok
  · next c xs d ys =>
    split at h
    · exact absurd h not_mismatch_ok
    · next hcd =>
      obtain ⟨rfl, hlen⟩ := not_or.mp hcd |>.imp not_not.mp not_not.mp
      refine (unifyAll_sound hrec hC (hall (Ty.clean_con.mp ha) (Ty.clean_con.mp hb)) hes h).imp
        fun ρ _ _ heq => ?_
      rw [interp, interp, interpAll_eq_of_zip hlen heq]
  · next ps r c qs s d =>
    split at h
    · cases h
    · next hlen =>
      rw [ne_eq, not_not] at hlen
      rcases bind_eq_some.mp h with ⟨e, -, hr⟩ | ⟨_, σ₁, es₁, es₂, hps, hrest, rfl⟩
      · cases hr
      rcases bind_eq_some.mp hrest with ⟨e, -, hr⟩ | ⟨_, σ₂, es₃, es₄, hret, hcaps, rfl⟩
      · cases hr
      have h₁ := unifyAll_sound hrec hC
        (hall (Ty.cleanAll_iff.mp ha.1) (Ty.cleanAll_iff.mp hb.1))
        (fun e he => hes e (by simp [he])) hps
      have h₂ := hrec _ _ _ _ _ h₁.holds ha.2 hb.2 (fun e he => hes e (by simp [he])) hret
      have h₃ := unifyCaps_sound (W := W) h₂.holds hcaps
      refine ((h₁.trans h₂).trans h₃).imp fun ρ _ _ hboth => ?_
      obtain ⟨⟨heq, hr⟩, hc⟩ := hboth
      rw [interp, interp, interpAll_eq_of_zip hlen heq, hr, hc]
  · next xs ys =>
    split at h
    · cases h
    · next hlen =>
      rw [ne_eq, not_not] at hlen
      refine (unifyAll_sound hrec hC (hall (Ty.clean_tuple.mp ha) (Ty.clean_tuple.mp hb)) hes
        h).imp fun ρ _ _ heq => ?_
      rw [interp, interp, interpAll_eq_of_zip hlen heq]
  · exact unifyRows_sound hrec hC ha.1 ha.2 hb.1 hb.2 hes h
  · next _ body _ _ =>
    exact (hrec body _ _ _ _ hC ha hb hes h).imp fun ρ _ _ heq => by rw [interp, heq]
  · next _ body _ _ _ =>
    exact (hrec _ body _ _ _ hC ha hb hes h).imp fun ρ _ _ heq => by rw [interp, heq]
  · exact absurd h not_mismatch_ok

end

/-! ## The whole call -/

/-- A successful call whose journal is faithful solves its equation. -/
theorem unify_sound (W : Workspace) (C : CleanSet) (n : Nat) : SolvesAll W C (unify W n) := by
  induction n with
  | zero => intro a b σ σ' es _ _ _ _ h; cases h
  | succ n ih =>
    intro a b σ σ' es hC ha hb hes h
    obtain ⟨a', b', ha', hb', hstep⟩ := unify_cases h
    -- it is enough to solve the equation between the resolved operands
    suffices hsuff : Solves W C σ σ' fun ρ => interp W ρ a' = interp W ρ b' by
      refine hsuff.imp fun ρ _ hρ heq => ?_
      rw [← interp_shallowResolve hρ ha', ← interp_shallowResolve hρ hb', heq]
    have hca := hC.shallowResolve ha' ha
    have hcb := hC.shallowResolve hb' hb
    cases hstep with
    | reduceLeft hp hred hrun =>
      have hins : W.InsertsData _ _ := hes _ mem_cons_self
      refine (ih _ _ _ _ _ hC (hred.clean hC hp hca) hcb
        (fun e he => hes e (mem_cons_of_mem _ he)) hrun).imp fun ρ _ hρ heq => ?_
      rw [interp_reducesTo hρ hp hred hins, heq]
    | reduceRight hp hred hrun =>
      have hins : W.InsertsData _ _ := hes _ mem_cons_self
      refine (ih _ _ _ _ _ hC hca (hred.clean hC hp hcb)
        (fun e he => hes e (mem_cons_of_mem _ he)) hrun).imp fun ρ _ hρ heq => ?_
      rw [interp_reducesTo hρ hp hred hins, heq]
    | invertLeft hinv hpin hrun =>
      have h₁ := ih _ _ _ _ _ hC (hinv.clean_arg hca) hinv.clean_entity
        (fun e he => hes e (mem_append_left _ he)) hpin
      exact (h₁.trans (ih _ _ _ _ _ h₁.holds hca hcb
        (fun e he => hes e (mem_append_right _ he)) hrun)).imp fun ρ _ _ heq => heq.2
    | invertRight hinv hpin hrun =>
      have h₁ := ih _ _ _ _ _ hC (hinv.clean_arg hcb) hinv.clean_entity
        (fun e he => hes e (mem_append_left _ he)) hpin
      exact (h₁.trans (ih _ _ _ _ _ h₁.holds hca hcb
        (fun e he => hes e (mem_append_right _ he)) hrun)).imp fun ρ _ _ heq => heq.2
    | shapes hshapes =>
      exact unifyShapes_sound ih hC hca hcb (fun x hx => (shallowResolve_eq_var (hx ▸ ha')).2)
        (fun x hx => (shallowResolve_eq_var (hx ▸ hb')).2) hes hshapes

end Ridge
