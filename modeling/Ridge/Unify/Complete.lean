import Ridge.Unify.Unifier

/-!
# Unification is complete and most general

Dual to `Ridge.Unify.Sound`: every write `unify` makes is a consequence of the equation it was
called on, so a unifier of the two operands stays one. `Factors` says this of a step of the
algorithm, for a given unifier: the step returns normally, and what the unifier gives the
variables there were before solves the bindings there are now. Only the row variables a step makes
need a value of their own.

The induction is on the height of what the unifier makes of the operands. On the way it shows that
the context stays acyclic, so that every walk over the bindings returns.
-/

namespace Ridge.KeyedList

open List

variable {κ α : Type*} [LinearOrder κ]

variable {a b e : κ × α} {k : κ} {l m : List (κ × α)}

omit [LinearOrder κ] in
theorem not_mem_keys_cons : k ∉ (a :: l).map Prod.fst ↔ k ≠ a.1 ∧ k ∉ l.map Prod.fst := by
  rw [map_cons, mem_cons, not_or]

omit [LinearOrder κ] in
/-- A head whose key the other list lacks is left over. -/
theorem left_cons (ha : a.1 ∉ m.map Prod.fst) :
    e ∈ a :: l ∧ e.1 ∉ m.map Prod.fst ↔ e = a ∨ e ∈ l ∧ e.1 ∉ m.map Prod.fst := by
  rw [mem_cons, or_and_right]
  exact or_congr_left ⟨fun h => h.1, fun h => ⟨h, h ▸ ha⟩⟩

omit [LinearOrder κ] in
/-- A head whose key this list lacks takes nothing from what is left over. -/
theorem left_skip (hb : b.1 ∉ l.map Prod.fst) :
    e ∈ l ∧ e.1 ∉ (b :: m).map Prod.fst ↔ e ∈ l ∧ e.1 ∉ m.map Prod.fst := by
  rw [not_mem_keys_cons]
  exact and_congr_right fun he => and_iff_right fun heq => hb (heq ▸ mem_map_of_mem he)

omit [LinearOrder κ] in
theorem left_both (hab : a.1 = b.1) (ha : a.1 ∉ l.map Prod.fst) :
    e ∈ a :: l ∧ e.1 ∉ (b :: m).map Prod.fst ↔ e ∈ l ∧ e.1 ∉ m.map Prod.fst := by
  rw [← left_skip (m := m) (hab ▸ ha), mem_cons, or_and_right, not_mem_keys_cons]
  refine or_iff_right ?_
  rintro ⟨rfl, hne, -⟩
  exact hne hab

theorem not_mem_keys_of_le (h : ∀ e ∈ l, b.1 < e.1) (hk : k ≤ b.1) : k ∉ l.map Prod.fst := by
  intro hmem
  obtain ⟨e, he, rfl⟩ := mem_map.mp hmem
  exact absurd (h e he) (not_lt.mpr hk)

/-- On strictly increasing lists the walk pairs the values of equal keys, and leaves on each side
the entries whose key the other one lacks. -/
theorem split_of_strict : ∀ {f g : List (κ × α)}, Strict f → Strict g →
    (∀ p ∈ (split f g).common, ∃ k, (k, p.1) ∈ f ∧ (k, p.2) ∈ g) ∧
      (∀ e, e ∈ (split f g).only₁ ↔ e ∈ f ∧ e.1 ∉ g.map Prod.fst) ∧
      ∀ e, e ∈ (split f g).only₂ ↔ e ∈ g ∧ e.1 ∉ f.map Prod.fst := by
  intro f
  induction f with
  | nil => intro g _ _; simp [split]
  | cons a f ihf =>
    intro g hf
    obtain ⟨haf, hf'⟩ := pairwise_cons.mp hf
    induction g with
    | nil => intro _; simp [split, splitWith]
    | cons b g ihg =>
      intro hg
      obtain ⟨hbg, hg'⟩ := pairwise_cons.mp hg
      simp only [split, splitWith]
      split
      · next hlt =>
        obtain ⟨hc, h₁, h₂⟩ := ihf hf' hg
        have ha : a.1 ∉ (b :: g).map Prod.fst :=
          not_mem_keys_cons.mpr ⟨ne_of_lt hlt, not_mem_keys_of_le hbg (le_of_lt hlt)⟩
        refine ⟨fun p hp => ?_, fun e => ?_, fun e => (h₂ e).trans (left_skip ha).symm⟩
        · obtain ⟨k, hk, hk'⟩ := hc p hp
          exact ⟨k, mem_cons_of_mem a hk, hk'⟩
        · rw [mem_cons, h₁]
          exact (left_cons ha).symm
      · next hnlt =>
        split
        · next hlt =>
          obtain ⟨hc, h₁, h₂⟩ := ihg hg'
          have hb : b.1 ∉ (a :: f).map Prod.fst :=
            not_mem_keys_cons.mpr ⟨ne_of_lt hlt, not_mem_keys_of_le haf (le_of_lt hlt)⟩
          refine ⟨fun p hp => ?_, fun e => (h₁ e).trans (left_skip hb).symm, fun e => ?_⟩
          · obtain ⟨k, hk, hk'⟩ := hc p hp
            exact ⟨k, hk, mem_cons_of_mem b hk'⟩
          · show e ∈ b :: (split (a :: f) g).only₂ ↔ _
            rw [mem_cons, h₂]
            exact (left_cons hb).symm
        · next hngt =>
          have hab : a.1 = b.1 := le_antisymm (not_lt.mp hngt) (not_lt.mp hnlt)
          obtain ⟨hc, h₁, h₂⟩ := ihf hf' hg'
          refine ⟨fun p hp => ?_, fun e => (h₁ e).trans (left_both hab ?_).symm,
            fun e => (h₂ e).trans (left_both hab.symm ?_).symm⟩
          · rcases mem_cons.mp hp with rfl | hp
            · exact ⟨a.1, mem_cons_self, by rw [hab]; exact mem_cons_self⟩
            · obtain ⟨k, hk, hk'⟩ := hc p hp
              exact ⟨k, mem_cons_of_mem a hk, mem_cons_of_mem b hk'⟩
          · exact not_mem_keys_of_le haf le_rfl
          · exact not_mem_keys_of_le hbg le_rfl

/-- The walk keeps the order of what it leaves. -/
theorem split_sublist : ∀ f g : List (κ × α),
    (split f g).only₁.Sublist f ∧ (split f g).only₂.Sublist g := by
  intro f
  induction f with
  | nil => intro g; exact ⟨.slnil, .refl g⟩
  | cons a f ihf =>
    intro g
    induction g with
    | nil => exact ⟨.refl _, .slnil⟩
    | cons b g ihg =>
      simp only [split, splitWith]
      split
      · obtain ⟨h₁, h₂⟩ := ihf (b :: g)
        exact ⟨h₁.cons_cons a, h₂⟩
      · split
        · obtain ⟨h₁, h₂⟩ := ihg
          exact ⟨h₁, h₂.cons_cons b⟩
        · obtain ⟨h₁, h₂⟩ := ihf g
          exact ⟨h₁.cons a, h₂.cons b⟩

theorem strict_sort {l : List (κ × α)} (h : (l.map Prod.fst).Nodup) : Strict (sort l) := by
  have hperm : (sort l).Perm l := perm_insertionSort _ l
  have hne : ((sort l).map Prod.fst).Nodup := (hperm.map Prod.fst).nodup_iff.mpr h
  have hboth := (sort_pairwise l).and (pairwise_map.mp hne)
  exact hboth.imp fun hab => lt_of_le_of_ne hab.1 hab.2

/-- Strictly increasing lists with the same entries are the same list. -/
theorem Strict.ext_mem {l m : List (κ × α)} (hl : Strict l) (hm : Strict m)
    (h : ∀ e, e ∈ l ↔ e ∈ m) : l = m := by
  refine hl.ext hm fun k => Option.ext fun v => ?_
  rw [← hl.lastOf_eq_lookup, ← hm.lastOf_eq_lookup, lastOf_iff_mem hl.nodup,
    lastOf_iff_mem hm.nodup, h]

end Ridge.KeyedList

namespace Ridge.Unifiers

open Run InferCtx List Function KeyedList UnificationTable CapRow

/-! ## Steps that return -/

section
variable {α β : Type} {σ σ₁ σ' : InferCtx}

/-- With enough fuel `m` returns `a` from `σ` and leaves `σ'`. -/
def Ends (m : Nat → UnifyM α) (σ : InferCtx) (a : α) (σ' : InferCtx) : Prop :=
  ∃ es, Converges (fun n => m n σ) (.ok a, σ', es)

theorem Ends.pure {a : α} : Ends (fun _ => (pure a : UnifyM α)) σ a σ := ⟨[], .const _⟩

theorem Ends.modify {f : InferCtx → InferCtx} : Ends (fun _ => Run.modify f) σ () (f σ) :=
  ⟨[], .const _⟩

theorem Ends.modifyGet {f : InferCtx → α × InferCtx} :
    Ends (fun _ => Run.modifyGet f) σ (f σ).1 (f σ).2 := ⟨[], .const _⟩

theorem Ends.record {f : InferCtx → UnifyEvent} : Ends (fun _ => Run.record f) σ () σ :=
  ⟨[f σ], .const _⟩

theorem Ends.read {f : Nat → InferCtx → Option α} {a : α} (h : Converges (fun n => f n σ) a) :
    Ends (fun n => Run.read (f n)) σ a σ := by
  obtain ⟨N, hN⟩ := h
  exact ⟨[], N, fun n hn => read_eq_some.mpr ⟨a, hN n hn, rfl, rfl, rfl⟩⟩

theorem Ends.bind {m : Nat → UnifyM α} {f : Nat → α → UnifyM β} {a : α} {b : β}
    (hm : Ends m σ a σ₁) (hf : Ends (fun n => f n a) σ₁ b σ') :
    Ends (fun n => m n >>= f n) σ b σ' := by
  obtain ⟨es₁, N, hN⟩ := hm
  obtain ⟨es₂, M, hM⟩ := hf
  refine ⟨es₁ ++ es₂, max N M, fun n hn => ?_⟩
  exact bind_eq_some.mpr
    (.inr ⟨a, σ₁, es₁, es₂, hN n (by omega), hM n (by omega), rfl⟩)

end

variable {W : Workspace} {S : Scope} {ρ ρ' : Assignment} {σ σ' : InferCtx} {t : Ty} {tail : RowTail}
    {fields : List Field}

/-! ## A unifier through a step -/

/-- From `σ` to `σ'` the unifier keeps its values, and solves what was bound. -/
structure Extends (W : Workspace) (S : Scope) (σ : InferCtx) (ρ : Assignment) (σ' : InferCtx)
    (ρ' : Assignment) : Prop where
  models : Models W S ρ' σ'
  same : SameOn σ ρ ρ'
  len : σ.rowvids.len ≤ σ'.rowvids.len

theorem Extends.refl (hm : Models W S ρ σ) : Extends W S σ ρ σ ρ :=
  ⟨hm, .refl σ ρ, Nat.le_refl _⟩

theorem Extends.trans {σ₁ : InferCtx} {ρ₁ : Assignment} (h₁ : Extends W S σ ρ σ₁ ρ₁)
    (h₂ : Extends W S σ₁ ρ₁ σ' ρ') : Extends W S σ ρ σ' ρ' := by
  refine ⟨h₂.models, ⟨h₂.same.ty.trans h₁.same.ty, h₂.same.cap.trans h₁.same.cap,
    fun rv hrv => ?_⟩, le_trans h₁.len h₂.len⟩
  rw [h₂.same.row rv (lt_of_lt_of_le hrv h₁.len), h₁.same.row rv hrv]

theorem Old.mono {vs : List Vertex} (h : Old σ vs) (hlen : σ.rowvids.len ≤ σ'.rowvids.len) :
    Old σ' vs := fun rv hrv => lt_of_lt_of_le (h rv hrv) hlen

theorem Part.vars {u : Ty} (h : Part u t) : ∀ w ∈ u.vars, w ∈ t.vars := by
  induction h with
  | here => exact fun _ hw => hw
  | arg ha _ ih | elem ha _ ih => exact fun w hw => Ty.mem_varsAll.mpr ⟨_, ha, ih w hw⟩
  | body _ ih => exact ih
  | param ha _ ih =>
    intro w hw
    rw [Ty.vars, mem_append, mem_append]
    exact .inl (.inl (Ty.mem_varsAll.mpr ⟨_, ha, ih w hw⟩))
  | ret _ ih =>
    intro w hw
    rw [Ty.vars, mem_append, mem_append]
    exact .inl (.inr (ih w hw))
  | field hf _ ih =>
    intro w hw
    rw [Ty.vars, mem_append]
    exact .inl (Ty.mem_varsFields.mpr ⟨_, hf, ih w hw⟩)

theorem Fit.extend (ht : Fit W S ρ σ t) (hsame : SameOn σ ρ ρ')
    (hlen : σ.rowvids.len ≤ σ'.rowvids.len) : Fit W S ρ' σ' t := by
  refine ⟨fun u hu => ?_, ht.old.mono hlen⟩
  have hfits := ht.parts u hu
  cases u with
  | record fields tail =>
    refine ⟨hfits.1, ?_⟩
    have htail : ρ'.tailRow tail = ρ.tailRow tail := tailRow_congr (hsame.agree fun rv hrv =>
      ht.old rv (Part.vars hu _ (mem_append.mpr (.inr hrv))))
    show (labels fields ++ labels (ρ'.tailRow tail).fields).Nodup
    rw [htail]
    exact hfits.2
  | var | rigid | con | fn | tuple | aliased | error => exact hfits

theorem Fit.interp_eq (ht : Fit W S ρ σ t) (hsame : SameOn σ ρ ρ') :
    interp W ρ' t = interp W ρ t := interp_congr (hsame.agree ht.old)

/-- The step returns, and the unifier goes through it. -/
def Factors (W : Workspace) (S : Scope) (σ : InferCtx) (ρ : Assignment) (m : Nat → UnifyM Unit) :
    Prop :=
  ∃ σ' ρ', Ends m σ () σ' ∧ Extends W S σ ρ σ' ρ'

theorem Factors.pure (hm : Models W S ρ σ) : Factors W S σ ρ fun _ => (pure () : UnifyM Unit) :=
  ⟨σ, ρ, .pure, .refl hm⟩

theorem Factors.bind {m m' : Nat → UnifyM Unit} (hm : Factors W S σ ρ m)
    (hm' : ∀ σ' ρ', Extends W S σ ρ σ' ρ' → Factors W S σ' ρ' m') :
    Factors W S σ ρ fun n => m n >>= fun _ => m' n := by
  obtain ⟨σ₁, ρ₁, hends, hext⟩ := hm
  obtain ⟨σ₂, ρ₂, hends', hext'⟩ := hm' σ₁ ρ₁ hext
  exact ⟨σ₂, ρ₂, hends.bind hends', hext.trans hext'⟩

/-- A step that writes nothing, then another one. -/
theorem Factors.after {α : Type} {m : Nat → UnifyM α} {f : Nat → α → UnifyM Unit} {a : α}
    (hm : Ends m σ a σ) (hf : Factors W S σ ρ fun n => f n a) :
    Factors W S σ ρ fun n => m n >>= f n := by
  obtain ⟨σ', ρ', hends, hext⟩ := hf
  exact ⟨σ', ρ', hm.bind hends, hext⟩

/-- One unit of fuel spent on a call. -/
theorem Factors.succ {m : Nat → UnifyM Unit} (h : Factors W S σ ρ fun n => m (n + 1)) :
    Factors W S σ ρ m := by
  obtain ⟨σ', ρ', ⟨es, hends⟩, hext⟩ := h
  exact ⟨σ', ρ', ⟨es, hends.step fun _ => rfl⟩, hext⟩

/-! ## Resolution -/

theorem Models.fit_shallowResolve (hm : Models W S ρ σ) {n : Nat} {u : Ty}
    (h : σ.shallowResolve n t = some u) (ht : Fit W S ρ σ t) :
    Fit W S ρ σ u ∧ ∀ name body, u ≠ .aliased name body := by
  induction n generalizing t with
  | zero => cases h
  | succ n ih =>
    cases t with
    | var v =>
      simp only [shallowResolve, UnificationTable.find, probeValue_root] at h
      cases hv : σ.tyvids.probeValue v with
      | some bound =>
        rw [hv] at h
        exact ih h (hm.ty_bound v bound (ht.parts _ .here) hv)
      | none =>
        rw [hv] at h
        cases h
        refine ⟨⟨fun u hu => ?_, fun rv hrv => ?_⟩, fun _ _ => Ty.noConfusion⟩
        · cases hu
          exact hm.root (.ty v) (ht.parts _ .here)
        · rw [Ty.vars, mem_singleton] at hrv
          cases hrv
    | aliased name body => exact ih h ht.body
    | rigid | con | fn | tuple | record | error =>
      cases h
      exact ⟨ht, fun _ _ => Ty.noConfusion⟩

theorem Models.shallowResolve (hm : Models W S ρ σ) (ht : Fit W S ρ σ t) :
    ∃ u, Converges (fun n => σ.shallowResolve n t) u ∧ Fit W S ρ σ u ∧
      (∀ name body, u ≠ .aliased name body) ∧
      (∀ x, u = .var x → σ.tyvids.probeValue x = none) ∧ interp W ρ u = interp W ρ t := by
  obtain ⟨u, N, hN⟩ := (hm.acyclic.resolves W).shallowResolve t
  have hu := hN N (Nat.le_refl N)
  obtain ⟨hfit, halias⟩ := hm.fit_shallowResolve hu ht
  refine ⟨u, ⟨N, hN⟩, hfit, halias, fun x hx => ?_, interp_shallowResolve hm.sat hu⟩
  exact (shallowResolve_eq_var (hx ▸ hu)).2

theorem labels_append (fs gs : List Field) : labels (fs ++ gs) = labels fs ++ labels gs :=
  map_append

theorem labels_extend {fs : List Field} {row : Row} (h : (labels fs ++ labels row.fields).Nodup)
    {k : String} :
    k ∈ labels (Row.extend fs row).fields ↔ k ∈ labels fs ∨ k ∈ labels row.fields := by
  simp only [labels, mem_map]
  constructor
  · rintro ⟨f, hf, rfl⟩
    exact ((mem_extend h).mp hf).imp (fun hf => ⟨f, hf, rfl⟩) fun hf => ⟨f, hf, rfl⟩
  · rintro (⟨f, hf, rfl⟩ | ⟨f, hf, rfl⟩)
    · exact ⟨f, (mem_extend h).mpr (.inl hf), rfl⟩
    · exact ⟨f, (mem_extend h).mpr (.inr hf), rfl⟩

theorem Apart.peel {out : List Field} {rv : RowVid} {row : Row}
    (h : Apart ρ out (.opened rv)) (hrow : Apart ρ row.fields row.tail)
    (hρ : ρ.row rv = interpRow W ρ row) : Apart ρ (out ++ row.fields) row.tail := by
  unfold Apart at h ⊢
  rw [Assignment.tailRow, hρ, interpRow, nodup_append] at h
  obtain ⟨hout, -, hdisj⟩ := h
  rw [labels_append, append_assoc, nodup_append]
  refine ⟨hout, hrow, fun a ha b hb => hdisj a ha b ((labels_extend hrow.interp).mpr ?_)⟩
  rw [labels_interpFields]
  exact mem_append.mp hb

theorem Models.fit_resolveRow (hm : Models W S ρ σ) {n : Nat} {out out' : List Field}
    {tail' : RowTail} (h : σ.resolveRow n out tail = some (out', tail'))
    (ht : Fit W S ρ σ (.record out tail)) : Fit W S ρ σ (.record out' tail') := by
  induction n generalizing out tail with
  | zero => cases h
  | succ n ih =>
    cases tail with
    | closed => cases h; exact ht
    | opened rv =>
      obtain ⟨hfields, htail, hold, hapart⟩ := ht.record
      simp only [InferCtx.resolveRow, UnificationTable.find, probeValue_root] at h
      cases hrv : σ.rowvids.probeValue rv with
      | none =>
        rw [hrv] at h
        cases h
        refine .of_record hfields (hm.root (.row rv) htail) (fun r hr => ?_) ?_
        · rw [RowTail.vars, mem_singleton] at hr
          cases hr
          exact hm.allocated.root rv (hold rv (by simp [RowTail.vars]))
        · unfold Apart
          rw [Assignment.tailRow, hm.sat.row_root]
          exact hapart
      | some row =>
        rw [hrv] at h
        obtain ⟨hfields', htail', hold', hapart'⟩ := (hm.row_bound rv row htail hrv).record
        refine ih h (.of_record (fun f hf => ?_) htail' hold'
          (hapart.peel hapart' (hm.sat.row_bound rv row hrv)))
        rcases mem_append.mp hf with hf | hf
        · exact hfields f hf
        · exact hfields' f hf

theorem Models.resolveRow (hm : Models W S ρ σ) (ht : Fit W S ρ σ (.record fields tail)) :
    ∃ g u, Converges (fun n => σ.resolveRow n fields tail) (g, u) ∧
      Fit W S ρ σ (.record g u) ∧
      interp W ρ (.record g u) = interp W ρ (.record fields tail) := by
  obtain ⟨⟨g, u⟩, N, hN⟩ := (hm.acyclic.resolves W).resolveRow fields tail
  have hu := hN N (Nat.le_refl N)
  refine ⟨g, u, ⟨N, hN⟩, hm.fit_resolveRow hu ht, ?_⟩
  rw [interp, interp, interp_resolveRow hm.sat hu]

/-- Within the scope a capability row resolves to a set or to an unbound variable. -/
theorem Models.has_shallowResolveCaps (hm : Models W S ρ σ) {n : Nat} {c r : CapRow}
    (h : σ.shallowResolveCaps n c = some r) (hc : S.HasCaps c) : S.HasCaps r := by
  induction n generalizing c with
  | zero => cases h
  | succ n ih =>
    cases c with
    | concrete s => cases h; exact hc
    | union rows => exact hc.elim
    | var v =>
      simp only [shallowResolveCaps, UnificationTable.find, probeValue_root] at h
      cases hv : σ.capvids.probeValue v with
      | some bound => rw [hv] at h; exact ih h (hm.cap_bound v bound hc hv)
      | none => rw [hv] at h; cases h; exact hm.root (.cap v) hc

theorem Models.shallowResolveCaps (hm : Models W S ρ σ) {c : CapRow} (hc : S.HasCaps c) :
    ∃ r, Converges (fun n => σ.shallowResolveCaps n c) r ∧ S.HasCaps r ∧
      (∀ v ∈ r.vars, σ.capvids.root v = v ∧ σ.capvids.probeValue v = none) ∧
      ρ.interpCaps r = ρ.interpCaps c := by
  obtain ⟨height, hh⟩ := hm.acyclic.exists_height
  obtain ⟨k, hk⟩ := exists_below σ height c.vertices
  obtain ⟨r, N, hN⟩ := shallowResolveCaps_terminates hh c hk
  have hr := hN N (Nat.le_refl N)
  exact ⟨r, ⟨N, hN⟩, hm.has_shallowResolveCaps hr hc, shallowResolveCaps_unbound hr,
    interpCaps_shallowResolveCaps hm.sat hr⟩

/-! ## The writes -/

/-- A write to another table leaves the types of the context as they are. -/
theorem Fit.same (ht : Fit W S ρ σ t) (hlen : σ.rowvids.len ≤ σ'.rowvids.len) :
    Fit W S ρ σ' t := ht.extend (.refl σ ρ) hlen

theorem Models.unionTy (hm : Models W S ρ σ) {x y : TyVid} (hx : σ.tyvids.probeValue x = none)
    (hy : σ.tyvids.probeValue y = none) (hSx : S.ty x) (hSy : S.ty y) (heq : ρ.ty x = ρ.ty y) :
    Models W S ρ { σ with tyvids := σ.tyvids.union x y } := by
  obtain ⟨c, hc, hroot⟩ := σ.tyvids.root_union x y
  have hprobe := σ.tyvids.probeValue_union hx hy
  have hScc : S.ty c := by
    rcases hc with rfl | rfl
    · exact hm.root (.ty x) hSx
    · exact hm.root (.ty y) hSy
  have hρc : ρ.ty c = ρ.ty x := by
    rcases hc with rfl | rfl
    · exact hm.sat.ty_root x
    · rw [hm.sat.ty_root y, heq]
  refine ⟨hm.acyclic.unionTy hx hy, ⟨fun w => ?_, hm.allocated.root⟩,
    ⟨fun v => ?_, fun v t ht => hm.sat.ty_bound v t (by rw [← ht]; exact congrFun hprobe.symm v),
      hm.sat.row_root, hm.sat.row_bound, hm.sat.cap_root, hm.sat.cap_bound⟩, hm.sorted,
    fun w hw => ?_, fun v t hv ht => (hm.ty_bound v t hv ?_).same (Nat.le_refl _),
    fun rv row hv hrow => (hm.row_bound rv row hv hrow).same (Nat.le_refl _), hm.row_fresh,
    hm.cap_bound⟩
  · cases w with
    | ty v =>
      have hvars : ({ σ with tyvids := σ.tyvids.union x y } : InferCtx).bindingVars (.ty v)
          = σ.bindingVars (.ty v) := by simp only [bindingVars, hprobe]
      rw [hvars]
      exact hm.allocated.bound (.ty v)
    | row v => exact hm.allocated.bound (.row v)
    | cap v => exact hm.allocated.bound (.cap v)
  · show ρ.ty ((σ.tyvids.union x y).root v) = ρ.ty v
    rw [hroot]
    split
    · next h =>
      rw [hρc, ← hm.sat.ty_root v]
      rcases h with h | h <;> rw [h, hm.sat.ty_root]
      exact heq
    · exact hm.sat.ty_root v
  · cases w with
    | ty v =>
      show S.ty ((σ.tyvids.union x y).root v)
      rw [hroot]
      split
      · exact hScc
      · exact hm.root (.ty v) hw
    | row v => exact hm.root (.row v) hw
    | cap v => exact hm.root (.cap v) hw
  · rw [← ht]
    exact congrFun hprobe.symm v

theorem Models.bindTy (hm : Models W S ρ σ) {x : TyVid} (hx : σ.tyvids.probeValue x = none)
    (ht : Fit W S ρ σ t) (hvar : ∀ v, t ≠ .var v) (halias : ∀ name body, t ≠ .aliased name body)
    (heq : ρ.ty x = interp W ρ t) : Models W S ρ { σ with tyvids := σ.tyvids.unionValue x t } := by
  have hprobe := σ.tyvids.probeValue_unionValue t hx
  have hclass : ∀ v, σ.tyvids.root v = σ.tyvids.root x → ρ.ty v = ρ.ty x := by
    intro v hv
    rw [← hm.sat.ty_root v, hv, hm.sat.ty_root]
  refine ⟨hm.acyclic.bindTy (hm.not_reaches_ty ht hvar halias heq),
    ⟨fun w => ?_, hm.allocated.root⟩,
    ⟨hm.sat.ty_root, fun v u hu => ?_, hm.sat.row_root, hm.sat.row_bound, hm.sat.cap_root,
      hm.sat.cap_bound⟩, hm.sorted, fun w hw => ?_, fun v u hv hu => ?_,
    fun rv row hv hrow => (hm.row_bound rv row hv hrow).same (Nat.le_refl _), hm.row_fresh,
    hm.cap_bound⟩
  · cases w with
    | ty v =>
      intro rv hrv
      simp only [bindingVars, hprobe] at hrv
      split at hrv
      · exact ht.old rv hrv
      · exact hm.allocated.bound (.ty v) rv hrv
    | row v => exact hm.allocated.bound (.row v)
    | cap v => exact hm.allocated.bound (.cap v)
  · replace hu : (σ.tyvids.unionValue x t).probeValue v = some u := hu
    rw [hprobe] at hu
    split at hu
    · next hv => cases hu; rw [hclass v hv, heq]
    · exact hm.sat.ty_bound v u hu
  · cases w with
    | ty v => exact hm.root (.ty v) hw
    | row v => exact hm.root (.row v) hw
    | cap v => exact hm.root (.cap v) hw
  · replace hu : (σ.tyvids.unionValue x t).probeValue v = some u := hu
    rw [hprobe] at hu
    split at hu
    · cases hu; exact ht.same (Nat.le_refl _)
    · exact (hm.ty_bound v u hv hu).same (Nat.le_refl _)

theorem Models.bindCap (hm : Models W S ρ σ) {v : CapVid} {s : CapabilitySet}
    (hv : σ.capvids.probeValue v = none) (heq : ρ.cap v = .concrete s) :
    Models W S ρ { σ with capvids := σ.capvids.unionValue v (.concrete s) } := by
  have hprobe := σ.capvids.probeValue_unionValue (.concrete s) hv
  refine ⟨hm.acyclic.bindCap ?_, ⟨fun w => ?_, hm.allocated.root⟩,
    ⟨hm.sat.ty_root, hm.sat.ty_bound, hm.sat.row_root, hm.sat.row_bound, hm.sat.cap_root,
      fun w c hc => ?_⟩, hm.sorted, fun w hw => ?_,
    fun w t hw ht => (hm.ty_bound w t hw ht).same (Nat.le_refl _),
    fun rv row hrv hrow => (hm.row_bound rv row hrv hrow).same (Nat.le_refl _), hm.row_fresh,
    fun w c hw hc => ?_⟩
  · rintro ⟨w, hw, -⟩
    simp [vertices, CapRow.vars] at hw
  · intro rv hrv
    cases w with
    | cap w =>
      obtain ⟨k, -, hk⟩ : ∃ k, True ∧ Vertex.row rv = .cap k := by
        simp only [bindingVars] at hrv
        cases hc : (σ.capvids.unionValue v (.concrete s)).probeValue w with
        | none => rw [hc] at hrv; cases hrv
        | some c =>
          rw [hc] at hrv
          obtain ⟨k, -, hk⟩ := mem_map.mp hrv
          exact ⟨k, trivial, hk.symm⟩
      cases hk
    | row w => exact hm.allocated.bound (.row w) rv hrv
    | ty w => exact hm.allocated.bound (.ty w) rv hrv
  · replace hc : (σ.capvids.unionValue v (.concrete s)).probeValue w = some c := hc
    rw [hprobe] at hc
    split at hc
    · next hroot =>
      cases hc
      rw [← hm.sat.cap_root w, hroot, hm.sat.cap_root, heq]
      rfl
    · exact hm.sat.cap_bound w c hc
  · cases w with
    | ty v => exact hm.root (.ty v) hw
    | row v => exact hm.root (.row v) hw
    | cap v => exact hm.root (.cap v) hw
  · replace hc : (σ.capvids.unionValue v (.concrete s)).probeValue w = some c := hc
    rw [hprobe] at hc
    split at hc
    · cases hc; exact trivial
    · exact hm.cap_bound w c hw hc

theorem Models.unionCap (hm : Models W S ρ σ) {x y : CapVid} (hx : σ.capvids.probeValue x = none)
    (hy : σ.capvids.probeValue y = none) (hSx : S.cap x) (hSy : S.cap y) (heq : ρ.cap x = ρ.cap y) :
    Models W S ρ { σ with capvids := σ.capvids.union x y } := by
  obtain ⟨c, hc, hroot⟩ := σ.capvids.root_union x y
  have hprobe := σ.capvids.probeValue_union hx hy
  have hScc : S.cap c := by
    rcases hc with rfl | rfl
    · exact hm.root (.cap x) hSx
    · exact hm.root (.cap y) hSy
  have hρc : ρ.cap c = ρ.cap x := by
    rcases hc with rfl | rfl
    · exact hm.sat.cap_root x
    · rw [hm.sat.cap_root y, heq]
  refine ⟨hm.acyclic.unionCap hx hy, ⟨fun w => ?_, hm.allocated.root⟩,
    ⟨hm.sat.ty_root, hm.sat.ty_bound, hm.sat.row_root, hm.sat.row_bound, fun v => ?_,
      fun v d hd => hm.sat.cap_bound v d (by rw [← hd]; exact congrFun hprobe.symm v)⟩,
    hm.sorted, fun w hw => ?_, fun v t hv ht => (hm.ty_bound v t hv ht).same (Nat.le_refl _),
    fun rv row hv hrow => (hm.row_bound rv row hv hrow).same (Nat.le_refl _), hm.row_fresh,
    fun v d hv hd => hm.cap_bound v d hv (by rw [← hd]; exact congrFun hprobe.symm v)⟩
  · cases w with
    | cap v =>
      have hvars : ({ σ with capvids := σ.capvids.union x y } : InferCtx).bindingVars (.cap v)
          = σ.bindingVars (.cap v) := by simp only [bindingVars, hprobe]
      rw [hvars]
      exact hm.allocated.bound (.cap v)
    | row v => exact hm.allocated.bound (.row v)
    | ty v => exact hm.allocated.bound (.ty v)
  · show ρ.cap ((σ.capvids.union x y).root v) = ρ.cap v
    rw [hroot]
    split
    · next h =>
      rw [hρc, ← hm.sat.cap_root v]
      rcases h with h | h <;> rw [h, hm.sat.cap_root]
      exact heq
    · exact hm.sat.cap_root v
  · cases w with
    | cap v =>
      show S.cap ((σ.capvids.union x y).root v)
      rw [hroot]
      split
      · exact hScc
      · exact hm.root (.cap v) hw
    | row v => exact hm.root (.row v) hw
    | ty v => exact hm.root (.ty v) hw

theorem interpRow_new :
    interpRow W ρ (Row.new fields tail)
      = Row.extend (interpFields W ρ fields) (ρ.tailRow tail) := by
  rw [interpRow, Row.extend_eq_iff]
  refine ⟨rfl, fun k => ?_⟩
  simp only [lastOf_append, lastOf_interpFields, Row.new, normaliseFields,
    lastOf_normalise]

theorem Fit.new (h : Fit W S ρ σ (.record fields tail)) :
    Fit W S ρ σ (Row.new fields tail).toTy := by
  obtain ⟨hfields, htail, hold, hapart⟩ := h.record
  refine .of_record (fun f hf => hfields f (mem_of_mem_normalise hf)) htail hold ?_
  unfold Apart at hapart ⊢
  rw [nodup_append] at hapart ⊢
  refine ⟨(strict_normalise fields).nodup, hapart.2.1, fun a ha b hb => ?_⟩
  obtain ⟨f, hf, rfl⟩ := mem_map.mp ha
  exact hapart.2.2 f.1 (mem_map_of_mem (mem_of_mem_normalise hf)) b hb

/-- A row variable bound to what the unifier gives it. A variable that is bound already keeps the
row it carries, which the unifier solves as well. -/
theorem Models.bindRow (hm : Models W S ρ σ) {rv : RowVid} (ht : Fit W S ρ σ (.record fields tail))
    (hold : rv < σ.rowvids.len)
    (heq : ρ.row rv = Row.extend (interpFields W ρ fields) (ρ.tailRow tail))
    (hreach : ¬ σ.ReachesFrom (Row.new fields tail).vars (.row (σ.rowvids.root rv))) :
    Models W S ρ { σ with rowvids := σ.rowvids.unionValue rv (Row.new fields tail) } := by
  have hlen := σ.rowvids.len_le_unionValue rv (Row.new fields tail)
  have hlen' : (σ.rowvids.unionValue rv (Row.new fields tail)).len = σ.rowvids.len :=
    max_eq_left (hm.allocated.root rv hold)
  have hacyclic := hm.acyclic.bindRow hreach
  have hrow : ∀ v row,
      (σ.rowvids.unionValue rv (Row.new fields tail)).probeValue v = some row →
        (σ.rowvids.root v = σ.rowvids.root rv ∧ row = Row.new fields tail) ∨
          σ.rowvids.probeValue v = some row := by
    intro v row hv
    cases hbound : σ.rowvids.probeValue rv with
    | none =>
      rw [σ.rowvids.probeValue_unionValue _ hbound] at hv
      split at hv
      · next hroot => cases hv; exact .inl ⟨hroot, rfl⟩
      · exact .inr hv
    | some b =>
      rw [σ.rowvids.probeValue_unionValue_bound _ (by rw [hbound]; simp)] at hv
      exact .inr hv
  have hnew := ht.new
  refine ⟨hacyclic, ⟨fun w => ?_, fun v hv => ?_⟩,
    ⟨hm.sat.ty_root, hm.sat.ty_bound, hm.sat.row_root, fun v row hv => ?_, hm.sat.cap_root,
      hm.sat.cap_bound⟩, hm.sorted, fun w hw => ?_,
    fun v t hv ht => (hm.ty_bound v t hv ht).same hlen, fun v row hSv hv => ?_,
    fun v hv => hm.row_fresh v (le_trans hlen hv), hm.cap_bound⟩
  · cases w with
    | ty v => exact (hm.allocated.bound (.ty v)).mono hlen
    | cap v => exact (hm.allocated.bound (.cap v)).mono hlen
    | row v =>
      intro r hr
      cases hv : (σ.rowvids.unionValue rv (Row.new fields tail)).probeValue v with
      | none => simp only [bindingVars, hv] at hr; cases hr
      | some row =>
        simp only [bindingVars, hv] at hr
        refine lt_of_lt_of_le ?_ hlen
        rcases hrow v row hv with ⟨-, rfl⟩ | hv
        · exact hnew.old r hr
        · exact hm.allocated.bound (.row v) r (by rw [bindingVars_row hv]; exact hr)
  · show (σ.rowvids.unionValue rv (Row.new fields tail)).root v < _
    rw [root_unionValue]
    refine lt_of_lt_of_le (hm.allocated.root v ?_) hlen
    exact lt_of_lt_of_eq hv hlen'
  · rcases hrow v row hv with ⟨hroot, rfl⟩ | hv
    · rw [interpRow_new, ← heq, ← hm.sat.row_root v, hroot, hm.sat.row_root]
    · exact hm.sat.row_bound v row hv
  · cases w with
    | ty v => exact hm.root (.ty v) hw
    | row v => exact hm.root (.row v) hw
    | cap v => exact hm.root (.cap v) hw
  · rcases hrow v row hv with ⟨-, rfl⟩ | hv
    · exact hnew.same hlen
    · exact (hm.row_bound v row hSv hv).same hlen

def Assignment.withRow (ρ : Assignment) (rv : RowVid) (row : Row) : Assignment :=
  { ρ with row := Function.update ρ.row rv row }

theorem Models.freshRowvid (hm : Models W S ρ σ) {row : Row} (hrow : KeyedList.Strict row.fields) :
    Extends W S σ ρ σ.freshRowvid.2 (Assignment.withRow ρ σ.rowvids.len row) := by
  have hsame : SameOn σ ρ (Assignment.withRow ρ σ.rowvids.len row) :=
    ⟨rfl, rfl, fun rv hrv => update_of_ne (ne_of_lt hrv) _ _⟩
  have hlen : σ.rowvids.len ≤ σ.freshRowvid.2.rowvids.len := Nat.le_succ _
  have hbound : ∀ w, Old σ (σ.bindingVars w) := hm.allocated.bound
  refine ⟨⟨hm.acyclic.fresh.2.2, ⟨fun w => ?_, fun rv hrv => ?_⟩,
    ⟨hm.sat.ty_root, fun v t ht => ?_, fun rv => ?_, fun rv r hr => ?_, hm.sat.cap_root,
      fun v c hc => ?_⟩, fun rv => ?_, fun w hw => ?_,
    fun v t hv ht => (hm.ty_bound v t hv ht).extend hsame hlen,
    fun rv r hv hr => (hm.row_bound rv r hv hr).extend hsame hlen,
    fun rv hrv => hm.row_fresh rv (Nat.le_of_succ_le hrv), hm.cap_bound⟩, hsame, hlen⟩
  · cases w with
    | ty v => exact (hbound (.ty v)).mono hlen
    | row v => exact (hbound (.row v)).mono hlen
    | cap v => exact (hbound (.cap v)).mono hlen
  · show σ.rowvids.root rv < σ.rowvids.len + 1
    rcases Nat.lt_or_ge rv σ.rowvids.len with h | h
    · exact Nat.lt_succ_of_lt (hm.allocated.root rv h)
    · rw [σ.rowvids.root_fresh rv h]
      exact hrv
  · have ht' : σ.tyvids.probeValue v = some t := ht
    have hold := hbound (.ty v)
    rw [bindingVars_ty ht'] at hold
    rw [interp_congr (hsame.agree hold)]
    exact hm.sat.ty_bound v t ht'
  · show (Assignment.withRow ρ σ.rowvids.len row).row (σ.rowvids.root rv) = _
    rcases Nat.lt_or_ge rv σ.rowvids.len with h | h
    · rw [hsame.row rv h, hsame.row _ (hm.allocated.root rv h), hm.sat.row_root]
    · rw [σ.rowvids.root_fresh rv h]
  · have hr' : σ.rowvids.probeValue rv = some r := hr
    have hold := hbound (.row rv)
    rw [bindingVars_row hr'] at hold
    have hlt : rv < σ.rowvids.len := by
      by_contra h
      rw [σ.rowvids.probeValue_fresh (not_lt.mp h)] at hr'
      cases hr'
    rw [interpRow_congr (hsame.agree hold), hsame.row rv hlt]
    exact hm.sat.row_bound rv r hr'
  · have hc' : σ.capvids.probeValue v = some c := hc
    have hcaps : (Assignment.withRow ρ σ.rowvids.len row).interpCaps c = ρ.interpCaps c := by
      refine interpCaps_congr fun w hw => ?_
      obtain ⟨k, -, rfl⟩ := mem_map.mp hw
      exact rfl
    rw [hcaps]
    exact hm.sat.cap_bound v c hc'
  · show KeyedList.Strict (update ρ.row σ.rowvids.len row rv).fields
    rw [update_apply]
    split
    · exact hrow
    · exact hm.sorted rv
  · cases w with
    | ty v => exact hm.root (.ty v) hw
    | row v => exact hm.root (.row v) hw
    | cap v => exact hm.root (.cap v) hw

/-! ## Capability rows -/

theorem factors_unifyCaps (hm : Models W S ρ σ) {a b : CapRow} (ha : S.HasCaps a)
    (hb : S.HasCaps b) (heq : ρ.interpCaps a = ρ.interpCaps b) :
    Factors W S σ ρ fun n => unifyCaps n a b := by
  obtain ⟨a', hca, hSa, hua, hia⟩ := hm.shallowResolveCaps ha
  obtain ⟨b', hcb, hSb, hub, hib⟩ := hm.shallowResolveCaps hb
  rw [← hia, ← hib] at heq
  refine .succ ?_
  simp only [unifyCaps]
  refine .after (.read hca) (.after (.read hcb) ?_)
  cases a' with
  | union rows => exact hSa.elim
  | concrete s =>
    cases b' with
    | union rows => exact hSb.elim
    | concrete t =>
      obtain rfl : s = t := CapRow.concrete.inj heq
      simp only [recursiveUnion, if_true]
      exact .pure hm
    | var w =>
      refine ⟨_, ρ, Ends.modify, hm.bindCap (hub w (by simp [CapRow.vars])).2 heq.symm,
        .refl σ ρ, Nat.le_refl _⟩
  | var v =>
    have hv := (hua v (by simp [CapRow.vars])).2
    cases b' with
    | union rows => exact hSb.elim
    | concrete t => exact ⟨_, ρ, Ends.modify, hm.bindCap hv heq, .refl σ ρ, Nat.le_refl _⟩
    | var w =>
      have hw := (hub w (by simp [CapRow.vars])).2
      by_cases hvw : v = w
      · subst hvw
        simp only [recursiveUnion, if_true]
        exact .pure hm
      · simp only [recursiveUnion, CapRow.var.injEq, hvw, if_false]
        exact ⟨_, ρ, Ends.modify, hm.unionCap hv hw hSa hSb heq, .refl σ ρ, Nat.le_refl _⟩

/-! ## Rows

`R` is the equation of two records whose labels are apart: they end in the same tail, and a field
written in one is written in the other or stands in its tail. -/

section
variable {g₁ g₂ : List Field} {r₁ r₂ : Row}

/-- Two records, labels apart, that stand for the same. -/
structure SameRecord (W : Workspace) (ρ : Assignment) (g₁ : List Field) (r₁ : Row)
    (g₂ : List Field) (r₂ : Row) : Prop where
  apart₁ : (labels g₁ ++ labels r₁.fields).Nodup
  apart₂ : (labels g₂ ++ labels r₂.fields).Nodup
  equal : Row.extend (interpFields W ρ g₁) r₁ = Row.extend (interpFields W ρ g₂) r₂

namespace SameRecord

theorem symm (h : SameRecord W ρ g₁ r₁ g₂ r₂) : SameRecord W ρ g₂ r₂ g₁ r₁ :=
  ⟨h.apart₂, h.apart₁, h.equal.symm⟩

variable (h : SameRecord W ρ g₁ r₁ g₂ r₂)
include h

theorem tail_eq : r₁.tail = r₂.tail := (Row.extend_eq_iff.mp h.equal).1

variable {f : Field}

theorem mem_iff : (f ∈ interpFields W ρ g₁ ∨ f ∈ r₁.fields) ↔
    (f ∈ interpFields W ρ g₂ ∨ f ∈ r₂.fields) := by
  have h₁ := h.apart₁
  have h₂ := h.apart₂
  rw [← labels_interpFields (W := W) (ρ := ρ)] at h₁ h₂
  rw [← mem_extend h₁, ← mem_extend h₂, h.equal]

theorem common {k : String} {x y : Ty} (hx : (k, x) ∈ g₁) (hy : (k, y) ∈ g₂) :
    interp W ρ x = interp W ρ y := by
  have h₁ := h.apart₁
  have h₂ := h.apart₂
  rw [← labels_interpFields (W := W) (ρ := ρ)] at h₁ h₂
  have hmem₁ := (mem_extend h₁).mpr (.inl (mem_interpFields (W := W) (ρ := ρ) hx))
  have hmem₂ := (mem_extend h₂).mpr (.inl (mem_interpFields (W := W) (ρ := ρ) hy))
  rw [h.equal] at hmem₁
  have hstrict : KeyedList.Strict (Row.extend (interpFields W ρ g₂) r₂).fields :=
    strict_normalise _
  have heq := inj_on_of_nodup_map hstrict.nodup hmem₁ hmem₂ rfl
  exact (Prod.mk.inj heq).2

/-- A field only the first record writes stands in the tail of the second one. -/
theorem mem_tail {e : Field} (he : e ∈ g₁) (hne : e.1 ∉ labels g₂) :
    (e.1, interp W ρ e.2) ∈ r₂.fields := by
  rcases h.mem_iff.mp (.inl (mem_interpFields he)) with hmem | hmem
  · refine absurd ?_ hne
    rw [← labels_interpFields (W := W) (ρ := ρ)]
    exact mem_map.mpr ⟨_, hmem, rfl⟩
  · exact hmem

/-- The part of the tail of the first record that the second record does not write. -/
def rest (_ : SameRecord W ρ g₁ r₁ g₂ r₂) : Row :=
  ⟨r₁.fields.filter fun f => f.1 ∉ labels g₂, r₁.tail⟩

theorem mem_rest : f ∈ h.rest.fields ↔ f ∈ r₁.fields ∧ f.1 ∉ labels g₂ := by
  simp [rest]

omit h in
theorem not_mem_written {g : List Field} {r : Row} (hapart : (labels g ++ labels r.fields).Nodup)
    (hf : f ∈ r.fields) : f.1 ∉ labels g := fun hmem =>
  (nodup_append.mp hapart).2.2 f.1 hmem f.1 (mem_map_of_mem hf) rfl

theorem mem_rest_symm (hf : f ∈ h.rest.fields) : f ∈ h.symm.rest.fields := by
  obtain ⟨hr, hne⟩ := h.mem_rest.mp hf
  refine h.symm.mem_rest.mpr ⟨?_, not_mem_written h.apart₁ hr⟩
  rcases h.mem_iff.mp (.inr hr) with hmem | hmem
  · refine absurd ?_ hne
    rw [← labels_interpFields (W := W) (ρ := ρ)]
    exact mem_map_of_mem hmem
  · exact hmem

variable (hs₁ : KeyedList.Strict r₁.fields)
include hs₁

theorem strict_rest : KeyedList.Strict h.rest.fields := List.Pairwise.filter _ hs₁

theorem rest_symm (hs₂ : KeyedList.Strict r₂.fields) : h.symm.rest = h.rest := by
  have hmem : ∀ f, f ∈ h.symm.rest.fields ↔ f ∈ h.rest.fields := fun f =>
    ⟨fun hf => h.symm.mem_rest_symm hf, fun hf => h.mem_rest_symm hf⟩
  have hfields := (h.symm.strict_rest hs₂).ext_mem (h.strict_rest hs₁) hmem
  exact Row.mk.injEq .. ▸ ⟨hfields, h.tail_eq.symm⟩

/-- The first tail is what only the second record writes, in front of the rest. -/
theorem tail_split {o : List Field} (hnodup : (labels o).Nodup)
    (ho : ∀ e, e ∈ o ↔ e ∈ g₂ ∧ e.1 ∉ labels g₁) :
    (labels o ++ labels h.rest.fields).Nodup ∧
      r₁ = Row.extend (interpFields W ρ o) h.rest := by
  have hlabels : ∀ k ∈ labels o, k ∈ labels g₂ := by
    intro k hk
    obtain ⟨e, he, rfl⟩ := mem_map.mp hk
    exact mem_map_of_mem ((ho e).mp he).1
  have hapart : (labels o ++ labels h.rest.fields).Nodup := by
    refine nodup_append.mpr ⟨hnodup, (h.strict_rest hs₁).nodup, fun a ha b hb hab => ?_⟩
    obtain ⟨f, hf, rfl⟩ := mem_map.mp hb
    exact (h.mem_rest.mp hf).2 (hab ▸ hlabels a ha)
  refine ⟨hapart, ?_⟩
  have hapart' := hapart
  rw [← labels_interpFields (W := W) (ρ := ρ)] at hapart'
  have hmem : ∀ f, f ∈ r₁.fields ↔ f ∈ (Row.extend (interpFields W ρ o) h.rest).fields := by
    intro f
    rw [mem_extend hapart', h.mem_rest]
    constructor
    · intro hf
      by_cases hk : f.1 ∈ labels g₂
      · left
        rcases h.mem_iff.mp (.inr hf) with hmem | hmem
        · rw [interpFields_eq_map] at hmem ⊢
          obtain ⟨e, he, rfl⟩ := mem_map.mp hmem
          exact mem_map.mpr 
            ⟨e, (ho e).mpr ⟨he, not_mem_written (f := (e.1, interp W ρ e.2)) h.apart₁ hf⟩, rfl⟩
        · exact absurd hk (not_mem_written h.apart₂ hmem)
      · exact .inr ⟨hf, hk⟩
    · rintro (hf | ⟨hf, -⟩)
      · rw [interpFields_eq_map] at hf
        obtain ⟨e, he, rfl⟩ := mem_map.mp hf
        obtain ⟨hg, hne⟩ := (ho e).mp he
        exact h.symm.mem_tail hg hne
      · exact hf
  have hfields := hs₁.ext_mem (strict_normalise _) hmem
  exact Row.mk.injEq .. ▸ ⟨hfields, rfl⟩

omit hs₁ in
/-- Against a record without a tail nothing is left over. -/
theorem only_nil (hnil : r₂.fields = []) {o : List Field}
    (ho : ∀ e, e ∈ o ↔ e ∈ g₁ ∧ e.1 ∉ labels g₂) : o = [] := by
  refine eq_nil_iff_forall_not_mem.mpr fun e he => ?_
  obtain ⟨hg, hne⟩ := (ho e).mp he
  have hmem := h.mem_tail hg hne
  rw [hnil] at hmem
  cases hmem

end SameRecord

end

theorem strict_tailRow (hm : Models W S ρ σ) (tail : RowTail) :
    KeyedList.Strict (ρ.tailRow tail).fields := by
  cases tail with
  | closed => exact List.Pairwise.nil
  | opened rv => exact hm.sorted rv

theorem Fit.sameRecord {g₁ g₂ : List Field} {u₁ u₂ : RowTail}
    (h₁ : Fit W S ρ σ (.record g₁ u₁)) (h₂ : Fit W S ρ σ (.record g₂ u₂))
    (heq : interp W ρ (.record g₁ u₁) = interp W ρ (.record g₂ u₂)) :
    SameRecord W ρ g₁ (ρ.tailRow u₁) g₂ (ρ.tailRow u₂) := by
  refine ⟨h₁.record.2.2.2, h₂.record.2.2.2, ?_⟩
  rw [interp, interp, Row.toTy, Row.toTy] at heq
  obtain ⟨hfields, htail⟩ := Ty.record.inj heq
  exact Row.mk.injEq .. ▸ ⟨hfields, htail⟩

/-- Binding a row variable to what the unifier gives it passes the occurs check. -/
theorem Models.ends_bindRow (hm : Models W S ρ σ) {rv : RowVid}
    (ht : Fit W S ρ σ (.record fields tail)) (hold : rv < σ.rowvids.len)
    (heq : ρ.row rv = Row.extend (interpFields W ρ fields) (ρ.tailRow tail))
    (htail : ∀ r, tail = .opened r →
      σ.rowvids.probeValue r = none ∧ σ.rowvids.root rv ≠ σ.rowvids.root r) :
    Ends (fun n => Ridge.bindRow W n rv fields tail) σ ()
        { σ with rowvids := σ.rowvids.unionValue rv (Row.new fields tail) } ∧
      Models W S ρ { σ with rowvids := σ.rowvids.unionValue rv (Row.new fields tail) } := by
  obtain ⟨hfields, -, -, hapart⟩ := ht.record
  have hreach : ¬ σ.ReachesFrom (Ty.varsFields fields ++ tail.vars)
      (.row (σ.rowvids.root rv)) := by
    rw [reachesFrom_append, reachesFrom_varsFields]
    rintro (⟨f, hf, hreach⟩ | hreach)
    · exact hm.not_reaches_row hfields hapart heq hf hreach
    · cases tail with
      | closed => simp [RowTail.vars, ReachesFrom] at hreach
      | opened r =>
        obtain ⟨hr, hne⟩ := htail r rfl
        have hroot := eq_of_reachesFrom_unbound (bindingVars_row_none hr) hreach
        exact hne (Vertex.row.inj hroot)
  have hoccurs : Converges (fun n => σ.rowOccurs n rv fields tail) false := by
    obtain ⟨b, N, hN⟩ := (hm.acyclic.resolves W).rowOccurs rv fields tail
    cases b with
    | false => exact ⟨N, hN⟩
    | true => exact absurd (reaches_of_rowOccurs N (hN N (Nat.le_refl N))) hreach
  refine ⟨?_, hm.bindRow ht hold heq fun h => hreach (h.mono fun w hw => ?_)⟩
  · simp only [Ridge.bindRow]
    exact Ends.bind (.read hoccurs) (Ends.bind .record .modify)
  · rw [Row.vars, mem_append, Ty.mem_varsFields] at hw
    rw [mem_append, Ty.mem_varsFields]
    rcases hw with ⟨f, hf, hw⟩ | hw
    · exact .inl ⟨f, mem_of_mem_normalise hf, hw⟩
    · exact .inr hw

/-- The rows of two tails that are read before they are bound: each gets what only the other record
writes, over a rest they share. -/
theorem Models.ends_bindRows (hm : Models W S ρ σ) {g₁ g₂ o₁ o₂ : List Field} {rv₁ rv₂ : RowVid}
    (h₁ : Fit W S ρ σ (.record g₁ (.opened rv₁))) (h₂ : Fit W S ρ σ (.record g₂ (.opened rv₂)))
    (hsame : SameRecord W ρ g₁ (ρ.row rv₁) g₂ (ρ.row rv₂))
    (hnodup₁ : (labels o₁).Nodup) (hnodup₂ : (labels o₂).Nodup)
    (ho₁ : ∀ e, e ∈ o₁ ↔ e ∈ g₁ ∧ e.1 ∉ labels g₂)
    (ho₂ : ∀ e, e ∈ o₂ ↔ e ∈ g₂ ∧ e.1 ∉ labels g₁) :
    Factors W S σ ρ (fun n => do
      let fresh ← Run.modifyGet InferCtx.freshRowvid
      Ridge.bindRow W n rv₁ o₂ (.opened fresh)
      Ridge.bindRow W n rv₂ o₁ (.opened fresh)) := by
  have hs₁ := hm.sorted rv₁
  have hs₂ := hm.sorted rv₂
  have hlt₁ : rv₁ < σ.rowvids.len := h₁.record.2.2.1 rv₁ (by simp [RowTail.vars])
  have hlt₂ : rv₂ < σ.rowvids.len := h₂.record.2.2.1 rv₂ (by simp [RowTail.vars])
  -- the fresh variable stands for the rest
  have hext := hm.freshRowvid (hsame.strict_rest hs₁)
  generalize hρ' : Assignment.withRow ρ σ.rowvids.len hsame.rest = ρ' at hext
  have hfresh : ρ'.tailRow (.opened σ.rowvids.len) = hsame.rest := by
    rw [← hρ']
    exact update_self _ _ _
  obtain ⟨hm', hagree, hlen⟩ := hext
  have hrow₁ : ρ'.row rv₁ = ρ.row rv₁ := hagree.row rv₁ hlt₁
  have hrow₂ : ρ'.row rv₂ = ρ.row rv₂ := hagree.row rv₂ hlt₂
  have hfields : ∀ {g o : List Field} {tail : RowTail}, Fit W S ρ σ (.record g tail) →
      (∀ e ∈ o, e ∈ g) → (∀ f ∈ o, Fit W S ρ' σ.freshRowvid.2 f.2) ∧
        interpFields W ρ' o = interpFields W ρ o := by
    intro g o tail hg ho
    refine ⟨fun f hf => (hg.record.1 f (ho f hf)).extend hagree hlen, ?_⟩
    rw [interpFields_eq_map, interpFields_eq_map]
    refine map_congr_left fun f hf => ?_
    rw [(hg.record.1 f (ho f hf)).interp_eq hagree]
  obtain ⟨hfit₁, hi₁⟩ := hfields (o := o₁) h₁ fun e he => ((ho₁ e).mp he).1
  obtain ⟨hfit₂, hi₂⟩ := hfields (o := o₂) h₂ fun e he => ((ho₂ e).mp he).1
  have hrec : ∀ {o : List Field}, (∀ f ∈ o, Fit W S ρ' σ.freshRowvid.2 f.2) →
      (labels o ++ labels hsame.rest.fields).Nodup →
        Fit W S ρ' σ.freshRowvid.2 (.record o (.opened σ.rowvids.len)) := by
    intro o ho hapart
    refine .of_record ho (hm.row_fresh _ (Nat.le_refl _)) (fun r hr => ?_) ?_
    · rw [RowTail.vars, mem_singleton] at hr
      cases hr
      exact Nat.lt_succ_self _
    · unfold Apart
      rw [hfresh]
      exact hapart
  obtain ⟨hapart₂, hsplit₁⟩ := hsame.tail_split hs₁ hnodup₂ ho₂
  obtain ⟨hapart₁, hsplit₂⟩ := hsame.symm.tail_split hs₂ hnodup₁ ho₁
  rw [hsame.rest_symm hs₁ hs₂] at hapart₁ hsplit₂
  have hroot : σ.rowvids.root σ.rowvids.len = σ.rowvids.len :=
    σ.rowvids.root_fresh _ (Nat.le_refl _)
  have hprobe := σ.rowvids.probeValue_fresh (Nat.le_refl σ.rowvids.len)
  have hne : ∀ {rv}, rv < σ.rowvids.len → σ.rowvids.root rv ≠ σ.rowvids.root σ.rowvids.len := by
    intro rv hrv heq
    have := hm.allocated.root rv hrv
    omega
  obtain ⟨hends₁, hm₁⟩ := hm'.ends_bindRow (hrec hfit₂ hapart₂) (Nat.lt_succ_of_lt hlt₁)
    (by rw [hrow₁, hfresh, hi₂]; exact hsplit₁) fun r hr => by
      cases hr
      exact ⟨hprobe, hne hlt₁⟩
  have hlen₁ := σ.freshRowvid.2.rowvids.len_le_unionValue rv₁
    (Row.new o₂ (.opened σ.rowvids.len))
  have hprobe₁ : (σ.freshRowvid.2.rowvids.unionValue rv₁
      (Row.new o₂ (.opened σ.rowvids.len))).probeValue σ.rowvids.len = none := by
    cases hbound : σ.freshRowvid.2.rowvids.probeValue rv₁ with
    | none =>
      rw [probeValue_unionValue _ _ hbound, if_neg]
      · exact hprobe
      · exact fun heq => hne hlt₁ heq.symm
    | some b =>
      rw [probeValue_unionValue_bound _ _ (by rw [hbound]; simp)]
      exact hprobe
  obtain ⟨hends₂, hm₂⟩ := hm₁.ends_bindRow ((hrec hfit₁ hapart₁).same hlen₁)
    (lt_of_lt_of_le (Nat.lt_succ_of_lt hlt₂) hlen₁)
    (by rw [hrow₂, hfresh, hi₁]; exact hsplit₂) fun r hr => by
      cases hr
      exact ⟨hprobe₁, hne hlt₂⟩
  exact ⟨_, ρ', Ends.bind .modifyGet (Ends.bind hends₁ hends₂), hm₂, hagree,
    le_trans hlen (le_trans hlen₁ (len_le_unionValue _ _ _))⟩

/-- `unify` goes along with a unifier of operands that stand for types lower than `k`. -/
def FactorsBelow (W : Workspace) (S : Scope) (k : Nat) : Prop :=
  ∀ σ ρ a b, Models W S ρ σ → Fit W S ρ σ a → Fit W S ρ σ b → interp W ρ a = interp W ρ b →
    (interp W ρ a).height < k → Factors W S σ ρ fun n => unify W n a b

/-- A pair of types that stand for one type lower than `k`. -/
structure Pair (W : Workspace) (S : Scope) (ρ : Assignment) (σ : InferCtx) (k : Nat)
    (p : Ty × Ty) : Prop where
  left : Fit W S ρ σ p.1
  right : Fit W S ρ σ p.2
  equal : interp W ρ p.1 = interp W ρ p.2
  height : (interp W ρ p.1).height < k

theorem Pair.extend {k : Nat} {p : Ty × Ty} (h : Pair W S ρ σ k p) (hext : Extends W S σ ρ σ' ρ') :
    Pair W S ρ' σ' k p where
  left := h.left.extend hext.same hext.len
  right := h.right.extend hext.same hext.len
  equal := by rw [h.left.interp_eq hext.same, h.right.interp_eq hext.same, h.equal]
  height := by rw [h.left.interp_eq hext.same]; exact h.height

theorem factors_unifyAll {k : Nat} (hk : FactorsBelow W S k) {pairs : List (Ty × Ty)}
    (hm : Models W S ρ σ) (hpairs : ∀ p ∈ pairs, Pair W S ρ σ k p) :
    Factors W S σ ρ fun n => unifyAll (unify W n) pairs := by
  induction pairs generalizing σ ρ with
  | nil => exact .pure hm
  | cons p pairs ih =>
    have hp := hpairs p mem_cons_self
    refine Factors.bind (m := fun n => unify W n p.1 p.2)
      (hk σ ρ p.1 p.2 hm hp.left hp.right hp.equal hp.height) fun σ' ρ' hext => ?_
    exact ih hext.models fun q hq => (hpairs q (mem_cons_of_mem p hq)).extend hext

/-- What `unify_rows` does once the shared fields are unified. -/
def bindTails (W : Workspace) (n : Nat) (f₁ o₁ : List Field) (u₁ : RowTail) (f₂ o₂ : List Field)
    (u₂ : RowTail) : UnifyM Unit :=
  match u₁, u₂ with
  | .closed, .closed =>
    if o₁.isEmpty ∧ o₂.isEmpty then pure () else W.rowMismatch n f₁ u₁ f₂ u₂ o₁ o₂
  | .closed, .opened rv₂ =>
    if o₂.isEmpty then Ridge.bindRow W n rv₂ o₁ .closed
    else W.rowMismatch n f₁ u₁ f₂ u₂ o₁ o₂
  | .opened rv₁, .closed =>
    if o₁.isEmpty then Ridge.bindRow W n rv₁ o₂ .closed
    else W.rowMismatch n f₁ u₁ f₂ u₂ o₁ o₂
  | .opened rv₁, .opened rv₂ =>
    if rv₁ = rv₂ then
      if o₁.isEmpty ∧ o₂.isEmpty then pure () else W.rowMismatch n f₁ u₁ f₂ u₂ o₁ o₂
    else do
      let fresh ← Run.modifyGet InferCtx.freshRowvid
      Ridge.bindRow W n rv₁ o₂ (.opened fresh)
      Ridge.bindRow W n rv₂ o₁ (.opened fresh)

theorem factors_bindTails (hm : Models W S ρ σ) {g₁ g₂ o₁ o₂ f₁ f₂ : List Field} {u₁ u₂ : RowTail}
    (h₁ : Fit W S ρ σ (.record g₁ u₁)) (h₂ : Fit W S ρ σ (.record g₂ u₂))
    (heq : interp W ρ (.record g₁ u₁) = interp W ρ (.record g₂ u₂))
    (hnodup₁ : (labels o₁).Nodup) (hnodup₂ : (labels o₂).Nodup)
    (ho₁ : ∀ e, e ∈ o₁ ↔ e ∈ g₁ ∧ e.1 ∉ labels g₂) (ho₂ : ∀ e, e ∈ o₂ ↔ e ∈ g₂ ∧ e.1 ∉ labels g₁) :
    Factors W S σ ρ fun n => bindTails W n f₁ o₁ u₁ f₂ o₂ u₂ := by
  have hsame := h₁.sameRecord h₂ heq
  have hfit₁ : ∀ f ∈ o₁, Fit W S ρ σ f.2 := fun f hf => h₁.record.1 f ((ho₁ f).mp hf).1
  have hfit₂ : ∀ f ∈ o₂, Fit W S ρ σ f.2 := fun f hf => h₂.record.1 f ((ho₂ f).mp hf).1
  cases u₁ with
  | closed =>
    have hnil₂ : o₂ = [] := hsame.symm.only_nil rfl ho₂
    cases u₂ with
    | closed =>
      have hnil₁ : o₁ = [] := hsame.only_nil rfl ho₁
      simp only [bindTails, hnil₁, hnil₂, isEmpty_nil, and_self, if_true]
      exact .pure hm
    | opened rv₂ =>
      simp only [bindTails, hnil₂, isEmpty_nil, if_true]
      have hrest : hsame.symm.rest = ρ.tailRow .closed :=
        hsame.rest_symm (strict_tailRow hm _) (strict_tailRow hm _)
      obtain ⟨hapart, hrow⟩ := hsame.symm.tail_split (strict_tailRow hm _) hnodup₁ ho₁
      rw [hrest] at hapart hrow
      have hfit : Fit W S ρ σ (.record o₁ .closed) :=
        .of_record hfit₁ trivial (fun _ h => by cases h) hapart
      obtain ⟨hends, hm'⟩ := hm.ends_bindRow hfit
        (h₂.record.2.2.1 rv₂ (by simp [RowTail.vars])) hrow fun _ h => by cases h
      exact ⟨_, ρ, hends, hm', .refl σ ρ, σ.rowvids.len_le_unionValue _ _⟩
  | opened rv₁ =>
    cases u₂ with
    | closed =>
      have hnil₁ : o₁ = [] := hsame.only_nil rfl ho₁
      simp only [bindTails, hnil₁, isEmpty_nil, if_true]
      have hrest : hsame.rest = ρ.tailRow .closed :=
        (hsame.rest_symm (strict_tailRow hm _) (strict_tailRow hm _)).symm
      obtain ⟨hapart, hrow⟩ := hsame.tail_split (strict_tailRow hm _) hnodup₂ ho₂
      rw [hrest] at hapart hrow
      have hfit : Fit W S ρ σ (.record o₂ .closed) :=
        .of_record hfit₂ trivial (fun _ h => by cases h) hapart
      obtain ⟨hends, hm'⟩ := hm.ends_bindRow hfit
        (h₁.record.2.2.1 rv₁ (by simp [RowTail.vars])) hrow fun _ h => by cases h
      exact ⟨_, ρ, hends, hm', .refl σ ρ, σ.rowvids.len_le_unionValue _ _⟩
    | opened rv₂ =>
      by_cases hrv : rv₁ = rv₂
      · subst hrv
        have hnil : ∀ {g g' o : List Field}, SameRecord W ρ g (ρ.row rv₁) g' (ρ.row rv₁) →
            (∀ e, e ∈ o ↔ e ∈ g ∧ e.1 ∉ labels g') → o = [] := by
          intro g g' o h ho
          refine eq_nil_iff_forall_not_mem.mpr fun e he => ?_
          obtain ⟨hg, hne⟩ := (ho e).mp he
          exact SameRecord.not_mem_written h.apart₁ (h.mem_tail hg hne)
            (mem_map.mpr ⟨e, hg, rfl⟩)
        simp only [bindTails, hnil hsame ho₁, hnil hsame.symm ho₂, isEmpty_nil, and_self,
          if_true]
        exact .pure hm
      · simp only [bindTails, hrv, if_false]
        exact hm.ends_bindRows h₁ h₂ hsame hnodup₁ hnodup₂ ho₁ ho₂

theorem pairs_of_zip {k : Nat} {xs ys : List Ty} (hxs : ∀ t ∈ xs, Fit W S ρ σ t)
    (hys : ∀ t ∈ ys, Fit W S ρ σ t) (heq : xs.map (interp W ρ) = ys.map (interp W ρ))
    (hk : ∀ t ∈ xs, (interp W ρ t).height < k) : ∀ p ∈ xs.zip ys, Pair W S ρ σ k p := by
  intro p hp
  obtain ⟨hx, hy⟩ := of_mem_zip hp
  refine ⟨hxs _ hx, hys _ hy, ?_, hk _ hx⟩
  obtain ⟨i, hi, rfl⟩ := mem_iff_getElem.mp hp
  rw [length_zip] at hi
  have hget := getElem_of_eq heq (i := i) (by rw [length_map]; omega)
  rw [getElem_map, getElem_map] at hget
  rw [getElem_zip]
  exact hget

theorem factors_unifyRows {k : Nat} (hk : FactorsBelow W S k) (hm : Models W S ρ σ)
    {f₁ f₂ : List Field} {t₁ t₂ : RowTail} (h₁ : Fit W S ρ σ (.record f₁ t₁))
    (h₂ : Fit W S ρ σ (.record f₂ t₂))
    (heq : interp W ρ (.record f₁ t₁) = interp W ρ (.record f₂ t₂))
    (hheight : (interp W ρ (.record f₁ t₁)).height ≤ k) :
    Factors W S σ ρ fun n => unifyRows W n (unify W n) f₁ t₁ f₂ t₂ := by
  obtain ⟨g₁, u₁, hc₁, hg₁, hi₁⟩ := hm.resolveRow h₁
  obtain ⟨g₂, u₂, hc₂, hg₂, hi₂⟩ := hm.resolveRow h₂
  rw [← hi₁] at hheight
  rw [← hi₁, ← hi₂] at heq
  clear hi₁ hi₂ h₁ h₂
  simp only [unifyRows]
  refine .after (.read hc₁) (.after (.read hc₂) ?_)
  have hsame := hg₁.sameRecord hg₂ heq
  have hs₁ := strict_sort (nodup_append.mp hsame.apart₁).1
  have hs₂ := strict_sort (nodup_append.mp hsame.apart₂).1
  have hlabels₁ : ∀ k, k ∈ (KeyedList.sort g₁).map Prod.fst ↔ k ∈ labels g₁ := fun k => by
    simp only [labels, mem_map, mem_sort]
  have hlabels₂ : ∀ k, k ∈ (KeyedList.sort g₂).map Prod.fst ↔ k ∈ labels g₂ := fun k => by
    simp only [labels, mem_map, mem_sort]
  obtain ⟨hcommon, honly₁, honly₂⟩ := split_of_strict hs₁ hs₂
  obtain ⟨hsub₁, hsub₂⟩ := split_sublist (KeyedList.sort g₁) (KeyedList.sort g₂)
  dsimp only
  generalize KeyedList.split (KeyedList.sort g₁) (KeyedList.sort g₂) = s at *
  simp only [hlabels₁, hlabels₂, mem_sort] at hcommon honly₁ honly₂
  have hnodup₁ : (labels s.only₁).Nodup := KeyedList.Strict.nodup (hs₁.sublist hsub₁)
  have hnodup₂ : (labels s.only₂).Nodup := KeyedList.Strict.nodup (hs₂.sublist hsub₂)
  refine Factors.bind (m := fun n => unifyAll (unify W n) s.common)
    (factors_unifyAll hk hm fun p hp => ?_) fun σ' ρ' hext => ?_
  · -- the shared fields stand for one type, lower than the records
    obtain ⟨l, hx, hy⟩ := hcommon p hp
    have hfield := interp_height_field (W := W) hg₁.record.2.2.2 hx
    exact ⟨hg₁.record.1 _ hx, hg₂.record.1 _ hy, hsame.common hx hy, by
      simp only at hfield; omega⟩
  -- the tails were read before the fields were unified; the unifier solves them all the same
  exact factors_bindTails hext.models (hg₁.extend hext.same hext.len)
    (hg₂.extend hext.same hext.len) (by
      rw [hg₁.interp_eq hext.same, hg₂.interp_eq hext.same, heq]) hnodup₁ hnodup₂ honly₁ honly₂

/-! ## Shapes -/

theorem factors_bindVar (hm : Models W S ρ σ) {x : TyVid} (hx : σ.tyvids.probeValue x = none)
    (ht : Fit W S ρ σ t) (hvar : ∀ v, t ≠ .var v) (halias : ∀ name body, t ≠ .aliased name body)
    (heq : ρ.ty x = interp W ρ t) : Factors W S σ ρ fun n => bindVar W n x t := by
  have hoccurs : Converges (fun n => σ.occurs n x t) false := by
    obtain ⟨b, N, hN⟩ := (hm.acyclic.resolves W).occurs x t
    cases b with
    | false => exact ⟨N, hN⟩
    | true =>
      exact absurd (reaches_of_occurs (hN N (Nat.le_refl N)))
        (hm.not_reaches_ty ht hvar halias heq)
  simp only [bindVar]
  exact ⟨_, ρ, Ends.bind (.read hoccurs) (Ends.bind .record .modify),
    hm.bindTy hx ht hvar halias heq, .refl σ ρ, Nat.le_refl _⟩

theorem interp_con {id : TyConId} {args : List Ty} (hid : id ∉ W.builtins.projections) :
    interp W ρ (.con id args) = .con id (args.map (interp W ρ)) := by
  rw [interp, W.project_of_not_mem hid, interpAll_eq_map]

/-- The type that a type with a head stands for has that head. -/
theorem interp_ctorIdx (ht : Fit W S ρ σ t) (hvar : ∀ x, t ≠ .var x)
    (halias : ∀ name body, t ≠ .aliased name body) : (interp W ρ t).ctorIdx = t.ctorIdx := by
  cases t with
  | error => exact (ht.parts _ .here).elim
  | aliased name body => exact absurd rfl (halias name body)
  | var x => exact absurd rfl (hvar x)
  | con id args =>
    rw [interp_con (ht.parts _ .here)]
    rfl
  | rigid | fn | tuple | record => rfl

theorem factors_unifyShapes {k : Nat} (hk : FactorsBelow W S k) (hm : Models W S ρ σ) {a b : Ty}
    (ha : Fit W S ρ σ a) (hb : Fit W S ρ σ b) (heq : interp W ρ a = interp W ρ b)
    (hheight : (interp W ρ a).height ≤ k) (haa : ∀ name body, a ≠ .aliased name body)
    (hba : ∀ name body, b ≠ .aliased name body)
    (hau : ∀ x, a = .var x → σ.tyvids.probeValue x = none)
    (hbu : ∀ x, b = .var x → σ.tyvids.probeValue x = none) :
    Factors W S σ ρ fun n => unifyShapes W n (unify W n) a b := by
  by_cases hbv : ∃ y, b = .var y
  · obtain ⟨y, rfl⟩ := hbv
    cases a with
    | var x =>
      exact ⟨_, ρ, Ends.modify, hm.unionTy (hau x rfl) (hbu y rfl) (ha.parts _ .here)
        (hb.parts _ .here) heq, .refl σ ρ, Nat.le_refl _⟩
    | error => exact (ha.parts _ .here).elim
    | aliased name body => exact absurd rfl (haa name body)
    | rigid | con | fn | tuple | record =>
      exact factors_bindVar hm (hbu y rfl) ha (fun _ => Ty.noConfusion) haa heq.symm
  have hbv' : ∀ y, b ≠ .var y := fun y hy => hbv ⟨y, hy⟩
  by_cases hav : ∃ x, a = .var x
  · obtain ⟨x, rfl⟩ := hav
    have hbind := factors_bindVar hm (hau x rfl) hb hbv' hba heq
    cases b with
    | var y => exact absurd rfl (hbv' y)
    | error => exact (hb.parts _ .here).elim
    | aliased name body => exact absurd rfl (hba name body)
    | rigid | con | fn | tuple | record => exact hbind
  -- two types with heads, which are one
  have hhead : a.ctorIdx = b.ctorIdx := by
    rw [← interp_ctorIdx ha (fun x hx => hav ⟨x, hx⟩) haa, heq, interp_ctorIdx hb hbv' hba]
  cases a with
  | var x => exact absurd ⟨x, rfl⟩ hav
  | error => exact (ha.parts _ .here).elim
  | aliased name body => exact absurd rfl (haa name body)
  | rigid x name =>
    cases b with
    | rigid y name' =>
      obtain ⟨rfl, -⟩ := Ty.rigid.inj heq
      simp only [unifyShapes, if_true]
      exact .pure hm
    | _ => cases hhead
  | con c xs =>
    cases b with
    | con d ys =>
      rw [interp_con (ha.parts _ .here), interp_con (hb.parts _ .here)] at heq
      obtain ⟨rfl, hargs⟩ := Ty.con.inj heq
      have hlen : xs.length = ys.length := by simpa using congrArg List.length hargs
      simp only [unifyShapes, hlen, ne_eq, not_true_eq_false, or_self, if_false]
      refine factors_unifyAll hk hm (pairs_of_zip ha.arg hb.arg hargs fun t ht => ?_)
      have := interp_height_con (W := W) (ρ := ρ) (ha.parts _ .here) ht
      omega
    | _ => cases hhead
  | fn ps r c =>
    cases b with
    | fn qs s d =>
      obtain ⟨haps, har, hac⟩ := ha.fn
      obtain ⟨hbps, hbr, hbc⟩ := hb.fn
      have heq' := heq
      rw [interp, interp, interpAll_eq_map, interpAll_eq_map] at heq'
      obtain ⟨hparams, hret, hcaps⟩ := Ty.fn.inj heq'
      have hlen : ps.length = qs.length := by simpa using congrArg List.length hparams
      simp only [unifyShapes, hlen, ne_eq, not_true_eq_false, if_false]
      refine Factors.bind (m := fun n => unifyAll (unify W n) (ps.zip qs))
        (factors_unifyAll hk hm (pairs_of_zip haps hbps hparams fun t ht => ?_)) ?_
      · have := interp_height_param (W := W) (ρ := ρ) r c ht
        omega
      intro σ₁ ρ₁ h₁
      refine Factors.bind (m := fun n => unify W n r s) (hk σ₁ ρ₁ r s h₁.models
        (har.extend h₁.same h₁.len) (hbr.extend h₁.same h₁.len) ?_ ?_) ?_
      · rw [har.interp_eq h₁.same, hbr.interp_eq h₁.same, hret]
      · have := interp_height_ret (W := W) (ρ := ρ) ps r c
        rw [har.interp_eq h₁.same]
        omega
      intro σ₂ ρ₂ h₂
      refine factors_unifyCaps h₂.models hac hbc ?_
      have hcap : ρ₂.cap = ρ.cap := h₂.same.cap.trans h₁.same.cap
      have hcongr : ∀ e : CapRow, ρ₂.interpCaps e = ρ.interpCaps e := fun e =>
        interpCaps_congr fun w hw => by
          obtain ⟨v, -, rfl⟩ := mem_map.mp hw
          exact congrFun hcap v
      rw [hcongr, hcongr, hcaps]
    | _ => cases hhead
  | tuple xs =>
    cases b with
    | tuple ys =>
      have heq' := heq
      rw [interp, interp, interpAll_eq_map, interpAll_eq_map] at heq'
      have hargs := Ty.tuple.inj heq'
      have hlen : xs.length = ys.length := by simpa using congrArg List.length hargs
      simp only [unifyShapes, hlen, ne_eq, not_true_eq_false, if_false]
      refine factors_unifyAll hk hm (pairs_of_zip ha.elem hb.elem hargs fun t ht => ?_)
      have := interp_height_tuple (W := W) (ρ := ρ) ht
      omega
    | _ => cases hhead
  | record f₁ t₁ =>
    cases b with
    | record f₂ t₂ => exact factors_unifyRows hk hm ha hb heq hheight
    | _ => cases hhead

/-! ## The call -/

theorem not_head {id : TyConId} {args : List Ty} (h : Fit W S ρ σ (.con id args)) :
    id ∉ W.builtins.projections :=
  h.parts _ .here

theorem reduceHead_ordinary (ht : Fit W S ρ σ t) {p : Workspace.Projection} (hp : p ∈ W.projections) :
    ∀ n, reduceHead n p t = pure none := by
  intro n
  cases t with
  | con id args =>
    have hne : id ≠ p.head := fun h => not_head ht (by
      rw [h, ← W.heads_eq]
      exact mem_map_of_mem hp)
    rw [reduceHead, if_neg fun h => hne h.1]
  | var | rigid | fn | tuple | record | aliased | error => rfl

theorem firstReduction_ordinary {a b : Ty} (ha : Fit W S ρ σ a) (hb : Fit W S ρ σ b) :
    ∀ ps : List Workspace.Projection, (∀ p ∈ ps, p ∈ W.projections) →
      Ends (fun n => firstReduction n a b ps) σ none σ := by
  intro ps
  induction ps with
  | nil => exact fun _ => .pure
  | cons p ps ih =>
    intro hps
    have hp := hps p mem_cons_self
    simp only [firstReduction, reduceHead_ordinary ha hp, reduceHead_ordinary hb hp]
    exact Ends.bind .pure (Ends.bind .pure (ih fun q hq => hps q (mem_cons_of_mem p hq)))

/-- And no entity to recover. -/
theorem invertInsertShape_ordinary {a : Ty} (ha : Fit W S ρ σ a) (b : Ty) (n : Nat)
    (rec : Ty → Ty → UnifyM Unit) : invertInsertShape W n rec a b = pure false := by
  unfold invertInsertShape
  split
  · next id arg =>
    have hne : id ≠ W.builtins.insertShape := fun h => not_head ha (by
      rw [h]
      simp [BuiltinTyCons.projections])
    rw [if_neg hne]
  · rfl

/-- `unify` returns on two types a unifier makes equal, and the unifier goes through. -/
theorem unify_factors (W : Workspace) (S : Scope) (k : Nat) : FactorsBelow W S k := by
  induction k with
  | zero => exact fun _ _ _ _ _ _ _ _ h => absurd h (Nat.not_lt_zero _)
  | succ k ih =>
    intro σ ρ a b hm ha hb heq hheight
    obtain ⟨a', hca, ha', haa, hau, hia⟩ := hm.shallowResolve ha
    obtain ⟨b', hcb, hb', hba, hbu, hib⟩ := hm.shallowResolve hb
    refine .succ ?_
    simp only [unify]
    refine .after (.read hca) (.after (.read hcb)
      (.after (firstReduction_ordinary ha' hb' _ fun _ h => h) ?_))
    simp only [invertInsertShape_ordinary ha', invertInsertShape_ordinary hb']
    refine .after .pure (.after .pure ?_)
    rw [← hia] at hheight
    exact factors_unifyShapes ih hm ha' hb' (by rw [hia, hib, heq]) (by omega) haa hba hau hbu

end Ridge.Unifiers
