import Ridge.Unify.Graph

/-!
# Unification

`ridge-typecheck/src/unify.rs`. `unify` resolves the heads of both operands, reduces a
projection at one of the heads, tries to invert a stuck `InsertShape`, and otherwise compares
the two shapes. A failing call keeps the bindings it made (`UnifyM`); `tryUnify` takes them
back.

The recursion is on fuel; the parts below `unify` take the recursive call as an argument.
-/

namespace Ridge

open Run

namespace CapRow

/-- The effect equation of a recursive function: a variable against a union that contains it. -/
def recursiveUnion : CapRow → CapRow → Option (CapVid × List CapRow)
  | .var v, .union rows => if .var v ∈ rows then some (v, rows) else none
  | .union rows, .var v => if .var v ∈ rows then some (v, rows) else none
  | _, _ => none

/-- The other components of such a union. -/
def withoutVar (v : CapVid) (rows : List CapRow) : CapRow :=
  (rows.filter (· ≠ .var v)).foldl unionWith (.concrete .PURE)

end CapRow

def capMismatch {α : Type} (a b : String) : UnifyM α :=
  fail (.typeMismatch (.text a) (.text b) none)

def unifyCaps : Nat → CapRow → CapRow → UnifyM Unit
  | 0, _, _ => diverge
  | n + 1, a, b => do
    let a ← read fun σ => σ.shallowResolveCaps n a
    let b ← read fun σ => σ.shallowResolveCaps n b
    match CapRow.recursiveUnion a b with
    | some (v, rows) => unifyCaps n (.var v) (CapRow.withoutVar v rows)
    | none =>
      if a = b then pure ()
      else match a, b with
        | .concrete s, .concrete t => capMismatch s.display t.display
        | .var v, .var w => modify fun σ => { σ with capvids := σ.capvids.union v w }
        | .var v, b =>
          if v ∉ b.vars then modify fun σ => { σ with capvids := σ.capvids.unionValue v b }
          else capMismatch (capabilityDescription a) (capabilityDescription b)
        | a, .var w =>
          if w ∉ a.vars then modify fun σ => { σ with capvids := σ.capvids.unionValue w a }
          else capMismatch (capabilityDescription a) (capabilityDescription b)
        | a, b => capMismatch (capabilityDescription a) (capabilityDescription b)

section
variable (W : Workspace) (n : Nat)

/-! ## Binding -/

/-- Bind the unbound type variable `x`, after the occurs check. -/
def bindVar (x : TyVid) (t : Ty) : UnifyM Unit := do
  if ← read fun σ => σ.occurs n x t then W.occursCheckTy n x t
  else
    record fun σ => .bindTy σ x t
    modify fun σ => { σ with tyvids := σ.tyvids.unionValue x t }

/-- Bind the row variable `rv`, after the occurs check. -/
def bindRow (rv : RowVid) (fields : List Field) (tail : RowTail) : UnifyM Unit := do
  if ← read fun σ => σ.rowOccurs n rv fields tail then W.occursCheckRow n fields tail
  else
    record fun σ => .bindRow σ rv (Row.new fields tail)
    modify fun σ => { σ with rowvids := σ.rowvids.unionValue rv (Row.new fields tail) }

/-! ## Projections at the head -/

/-- Reduce the projection `p` at the head of `t`, with its arguments shallow-resolved. -/
def reduceHead (p : Workspace.Projection) (t : Ty) : UnifyM (Option Ty) :=
  match t with
  | .con id args =>
    if id = p.head ∧ args.length = p.arity then do
      let args ← read fun σ => args.mapM (σ.shallowResolve n)
      match p.reduce args with
      | some r => do
        record fun _ => .reduced p.head args
        pure (some r)
      | none => pure none
    else pure none
  | _ => pure none

/-- The first projection that reduces on either side, with the operands to retry on. -/
def firstReduction (a b : Ty) : List Workspace.Projection → UnifyM (Option (Ty × Ty))
  | [] => pure none
  | p :: ps => do
    match ← reduceHead n p a with
    | some r => pure (some (r, b))
    | none =>
      match ← reduceHead n p b with
      | some r => pure (some (a, r))
      | none => firstReduction a b ps

variable (rec : Ty → Ty → UnifyM Unit)

/-- Recover the entity of a stuck `InsertShape` from the shape on the
other side. -/
def invertInsertShape (lhs rhs : Ty) : UnifyM Bool :=
  match lhs with
  | .con id [arg] =>
    if id = W.builtins.insertShape then do
      match ← read fun σ => σ.shallowResolve n arg with
      | .var _ =>
        match W.insertShapeInverse rhs with
        | some entity => (rec arg entity).succeeds
        | none => pure false
      | _ => pure false
    else pure false
  | _ => pure false

/-! ## Shapes -/

def unifyAll (pairs : List (Ty × Ty)) : UnifyM Unit := forEach (fun p => rec p.1 p.2) pairs

def unifyRows (fields₁ : List Field) (tail₁ : RowTail) (fields₂ : List Field)
    (tail₂ : RowTail) : UnifyM Unit := do
  let (f₁, t₁) ← read fun σ => σ.resolveRow n fields₁ tail₁
  let (f₂, t₂) ← read fun σ => σ.resolveRow n fields₂ tail₂
  let f₁ := KeyedList.sort f₁
  let f₂ := KeyedList.sort f₂
  let s := KeyedList.split f₁ f₂
  unifyAll rec s.common
  match t₁, t₂ with
  | .closed, .closed =>
    if s.only₁.isEmpty ∧ s.only₂.isEmpty then pure ()
    else W.rowMismatch n f₁ t₁ f₂ t₂ s.only₁ s.only₂
  | .closed, .opened rv₂ =>
    if s.only₂.isEmpty then bindRow W n rv₂ s.only₁ .closed
    else W.rowMismatch n f₁ t₁ f₂ t₂ s.only₁ s.only₂
  | .opened rv₁, .closed =>
    if s.only₁.isEmpty then bindRow W n rv₁ s.only₂ .closed
    else W.rowMismatch n f₁ t₁ f₂ t₂ s.only₁ s.only₂
  | .opened rv₁, .opened rv₂ =>
    if rv₁ = rv₂ then
      if s.only₁.isEmpty ∧ s.only₂.isEmpty then pure ()
      else W.rowMismatch n f₁ t₁ f₂ t₂ s.only₁ s.only₂
    else do
      let fresh ← modifyGet InferCtx.freshRowvid
      bindRow W n rv₁ s.only₂ (.opened fresh)
      bindRow W n rv₂ s.only₁ (.opened fresh)

/-- The dispatch of `unify` on two resolved operands. -/
def unifyShapes (a b : Ty) : UnifyM Unit :=
  match a, b with
  | .error, _ => pure ()
  | _, .error => pure ()
  | .var x, .var y => modify fun σ => { σ with tyvids := σ.tyvids.union x y }
  | .var x, other => bindVar W n x other
  | other, .var y => bindVar W n y other
  | .rigid x nx, .rigid y ny =>
    if x = y then pure () else W.mismatch n (.rigid x nx) (.rigid y ny)
  | .con c xs, .con d ys =>
    if c ≠ d ∨ xs.length ≠ ys.length then W.mismatch n (.con c xs) (.con d ys)
    else unifyAll rec (xs.zip ys)
  | .fn ps r c, .fn qs s d =>
    if ps.length ≠ qs.length then
      fail (.arityMismatch "" ps.length qs.length (curryHint ps.length qs.length s))
    else do
      unifyAll rec (ps.zip qs)
      rec r s
      unifyCaps n c d
  | .tuple xs, .tuple ys =>
    if xs.length ≠ ys.length then fail (.tupleWidthMismatch xs.length ys.length)
    else unifyAll rec (xs.zip ys)
  | .record f₁ t₁, .record f₂ t₂ => unifyRows W n rec f₁ t₁ f₂ t₂
  | .aliased _ body, other => rec body other
  | other, .aliased _ body => rec other body
  | a, b => W.mismatch n a b

end

def unify (W : Workspace) : Nat → Ty → Ty → UnifyM Unit
  | 0, _, _ => diverge
  | n + 1, a, b => do
    let a ← read fun σ => σ.shallowResolve n a
    let b ← read fun σ => σ.shallowResolve n b
    match ← firstReduction n a b W.projections with
    | some (a, b) => unify W n a b
    | none =>
      if ← invertInsertShape W n (unify W n) a b then unify W n a b
      else if ← invertInsertShape W n (unify W n) b a then unify W n a b
      else unifyShapes W n (unify W n) a b

/-- On failure the three tables are rolled back, and with them the journal. -/
def tryUnify (W : Workspace) (n : Nat) (a b : Ty) : UnifyM Bool := fun σ =>
  match unify W n a b σ with
  | none => none
  | some (.ok _, σ₁, es) => some (.ok true, σ₁, es)
  | some (.error _, _, _) => some (.ok false, σ, [])

/-!
## What one call of `unify` does

`unify_cases` is the one place that takes the definition of `unify` apart: with both operands
resolved, a call reduces a projection and retries, recovers the entity of a stuck `InsertShape`
and retries, or compares the two shapes in the tables it started from. Recovering an entity
never fails (`unify_entity`), so no call leaves bindings behind before it compares shapes.
-/

open InferCtx

variable {W : Workspace} {n : Nat} {σ σ' : InferCtx} {es : List UnifyEvent}

/-! ## Shallow resolution does not depend on the fuel -/

theorem shallowResolve_succ {t u : Ty} (h : σ.shallowResolve n t = some u) :
    σ.shallowResolve (n + 1) t = some u := by
  induction n generalizing t with
  | zero => cases h
  | succ n ih =>
    cases t with
    | var v =>
      rw [shallowResolve] at h ⊢
      cases hv : σ.tyvids.probeValue (σ.tyvids.find v) with
      | some bound => rw [hv] at h; exact ih h
      | none => rw [hv] at h; exact h
    | aliased name body => exact ih h
    | rigid | con | fn | tuple | record | error => exact h

theorem shallowResolve_mono {m n : Nat} (hmn : m ≤ n) {t u : Ty}
    (h : σ.shallowResolve m t = some u) : σ.shallowResolve n t = some u := by
  induction hmn with
  | refl => exact h
  | step _ ih => exact shallowResolve_succ ih

theorem shallowResolve_unique {m n : Nat} {t u v : Ty} (hm : σ.shallowResolve m t = some u)
    (hn : σ.shallowResolve n t = some v) : u = v := by
  have hu := shallowResolve_mono (Nat.le_max_left m n) hm
  have hv := shallowResolve_mono (Nat.le_max_right m n) hn
  exact Option.some.inj (hu.symm.trans hv)

/-! ## Reductions -/

/-- `t` is an application of the projection `p` whose shallow-resolved arguments reduce to
`u`. -/
structure ReducesTo (σ : InferCtx) (n : Nat) (p : Workspace.Projection) (args : List Ty)
    (t u : Ty) : Prop where
  shape : ∃ raw, t = .con p.head raw ∧ raw.length = p.arity ∧
    raw.mapM (σ.shallowResolve n) = some args
  reduce : p.reduce args = some u

theorem reduceHead_eq_some {p : Workspace.Projection} {t : Ty}
    {r : Except TypeError (Option Ty)} (h : reduceHead n p t σ = some (r, σ', es)) :
    σ' = σ ∧ ((r = .ok none ∧ es = []) ∨
      ∃ args u, ReducesTo σ n p args t u ∧ r = .ok (some u) ∧ es = [.reduced p.head args]) := by
  cases t with
  | con id raw =>
    rw [reduceHead] at h
    split at h
    · next hp =>
      obtain ⟨rfl, harity⟩ := hp
      obtain ⟨args, hargs, h⟩ := read_bind_eq_some.mp h
      cases hu : p.reduce args with
      | some u =>
        rw [hu] at h
        cases h
        exact ⟨rfl, .inr ⟨args, u, ⟨⟨raw, rfl, harity, hargs⟩, hu⟩, rfl, rfl⟩⟩
      | none => rw [hu] at h; cases h; exact ⟨rfl, .inl ⟨rfl, rfl⟩⟩
    · cases h; exact ⟨rfl, .inl ⟨rfl, rfl⟩⟩
  | var | rigid | fn | tuple | record | aliased | error =>
    cases h; exact ⟨rfl, .inl ⟨rfl, rfl⟩⟩

theorem firstReduction_eq_some {a b : Ty} {r : Except TypeError (Option (Ty × Ty))}
    {ps : List Workspace.Projection} (h : firstReduction n a b ps σ = some (r, σ', es)) :
    σ' = σ ∧ ((r = .ok none ∧ es = []) ∨ ∃ p ∈ ps, ∃ args u, es = [.reduced p.head args] ∧
      ((ReducesTo σ n p args a u ∧ r = .ok (some (u, b))) ∨
        (ReducesTo σ n p args b u ∧ r = .ok (some (a, u))))) := by
  induction ps generalizing es with
  | nil => cases h; exact ⟨rfl, .inl ⟨rfl, rfl⟩⟩
  | cons p ps ih =>
    rw [firstReduction] at h
    rcases bind_eq_some.mp h with ⟨e, he, -⟩ | ⟨oa, σ₁, es₁, es₂, hoa, h, rfl⟩
    · obtain ⟨-, ⟨hr, -⟩ | ⟨_, _, -, hr, -⟩⟩ := reduceHead_eq_some he <;> cases hr
    obtain ⟨rfl, ⟨hr, rfl⟩ | ⟨args, u, hu, hr, rfl⟩⟩ := reduceHead_eq_some hoa <;> cases hr
    · rcases bind_eq_some.mp h with ⟨e, he, -⟩ | ⟨ob, σ₂, es₃, es₄, hob, h, rfl⟩
      · obtain ⟨-, ⟨hr, -⟩ | ⟨_, _, -, hr, -⟩⟩ := reduceHead_eq_some he <;> cases hr
      obtain ⟨rfl, ⟨hr, rfl⟩ | ⟨args, u, hu, hr, rfl⟩⟩ := reduceHead_eq_some hob <;> cases hr
      · obtain ⟨rfl, hrest | ⟨q, hq, hrest⟩⟩ := ih h
        · exact ⟨rfl, .inl hrest⟩
        · exact ⟨rfl, .inr ⟨q, List.mem_cons_of_mem p hq, hrest⟩⟩
      · cases h
        exact ⟨rfl, .inr ⟨p, List.mem_cons_self, args, u, rfl, .inr ⟨hu, rfl⟩⟩⟩
    · cases h
      exact ⟨rfl, .inr ⟨p, List.mem_cons_self, args, u, rfl, .inl ⟨hu, rfl⟩⟩⟩

/-! ## Inverting `InsertShape` -/

/-- Pinning an unbound variable to an arity-0 constructor succeeds. -/
theorem unify_entity {m : Nat} {arg : Ty} {x : TyVid} {id : TyConId}
    {r : Except TypeError Unit} (harg : σ.shallowResolve m arg = some (.var x))
    (h : unify W n arg (.con id []) σ = some (r, σ', es)) : r = .ok () := by
  cases n with
  | zero => cases h
  | succ n =>
    rw [unify] at h
    obtain ⟨a, ha, h⟩ := read_bind_eq_some.mp h
    obtain rfl := shallowResolve_unique ha harg
    obtain ⟨b, hb, h⟩ := read_bind_eq_some.mp h
    cases n with
    | zero => cases hb
    | succ n =>
      cases hb
      rcases bind_eq_some.mp h with ⟨e, he, -⟩ | ⟨o, σ₁, es₁, es₂, ho, h, rfl⟩
      · obtain ⟨-, ⟨hr, -⟩ | ⟨p, hp, args, u, -, ⟨-, hr⟩ | ⟨-, hr⟩⟩⟩ := firstReduction_eq_some he
          <;> cases hr
      · obtain ⟨rfl, ⟨hr, rfl⟩ | ⟨p, hp, args, u, -, ⟨hred, -⟩ | ⟨hred, -⟩⟩⟩ :=
          firstReduction_eq_some ho
        · -- no reduction, nothing to invert: the variable is bound
          cases hr
          replace h := pure_bind_eq_some.mp h
          replace h := pure_bind_eq_some.mp h
          obtain ⟨b, hb, h⟩ := read_bind_eq_some.mp h
          cases hb
          obtain ⟨es₁, h, rfl⟩ := record_bind_eq_some.mp h
          cases h
          rfl
        · obtain ⟨⟨raw, hraw, -⟩, -⟩ := hred
          cases hraw
        · -- nor is a constructor without arguments a projection
          obtain ⟨⟨raw, hraw, hlen, -⟩, -⟩ := hred
          cases hraw
          have := Workspace.arity_pos hp
          simp at hlen
          omega

/-- `lhs` is a stuck `InsertShape` and `rhs` the shape of `entity`. -/
structure Inverts (W : Workspace) (σ : InferCtx) (n : Nat) (lhs rhs arg entity : Ty) :
    Prop where
  stuck : lhs = .con W.builtins.insertShape [arg]
  free : ∃ x, σ.shallowResolve n arg = some (.var x)
  inverse : W.insertShapeInverse rhs = some entity

theorem invertInsertShape_eq_some {lhs rhs : Ty} {r : Except TypeError Bool}
    (h : invertInsertShape W n (unify W n) lhs rhs σ = some (r, σ', es)) :
    (r = .ok false ∧ σ' = σ ∧ es = []) ∨ (r = .ok true ∧ ∃ arg entity,
      Inverts W σ n lhs rhs arg entity ∧ unify W n arg entity σ = some (.ok (), σ', es)) := by
  unfold invertInsertShape at h
  split at h
  · next id arg =>
    split at h
    · next hid =>
      obtain ⟨u, hu, h⟩ := read_bind_eq_some.mp h
      cases u with
      | var x =>
        cases hent : W.insertShapeInverse rhs with
        | none => rw [hent] at h; cases h; exact .inl ⟨rfl, rfl, rfl⟩
        | some entity =>
          rw [hent] at h
          obtain ⟨id', rfl⟩ : ∃ id', entity = .con id' [] := by
            unfold Workspace.insertShapeInverse at hent
            split at hent
            · exact ⟨_, (Option.some.inj hent).symm⟩
            · cases hent
          rcases succeeds_eq_some.mp h with ⟨rfl, u, hrun⟩ | ⟨-, e, hrun⟩
          · exact .inr ⟨rfl, arg, _, ⟨by rw [hid], ⟨x, hu⟩, hent⟩, hrun⟩
          · cases unify_entity hu hrun
      | rigid | con | fn | tuple | record | aliased | error =>
        cases h; exact .inl ⟨rfl, rfl, rfl⟩
    · cases h; exact .inl ⟨rfl, rfl, rfl⟩
  · cases h; exact .inl ⟨rfl, rfl, rfl⟩

/-! ## The call -/

/-- What a call of `unify` on the resolved operands `a` and `b` does. -/
inductive UnifyStep (W : Workspace) (n : Nat) (σ : InferCtx) (a b : Ty) :
    Except TypeError Unit → InferCtx → List UnifyEvent → Prop
  | reduceLeft {p args u r σ' es} : p ∈ W.projections → ReducesTo σ n p args a u →
      unify W n u b σ = some (r, σ', es) → UnifyStep W n σ a b r σ' (.reduced p.head args :: es)
  | reduceRight {p args u r σ' es} : p ∈ W.projections → ReducesTo σ n p args b u →
      unify W n a u σ = some (r, σ', es) → UnifyStep W n σ a b r σ' (.reduced p.head args :: es)
  | invertLeft {arg entity σ₁ es₁ r σ' es} : Inverts W σ n a b arg entity →
      unify W n arg entity σ = some (.ok (), σ₁, es₁) → unify W n a b σ₁ = some (r, σ', es) →
      UnifyStep W n σ a b r σ' (es₁ ++ es)
  | invertRight {arg entity σ₁ es₁ r σ' es} : Inverts W σ n b a arg entity →
      unify W n arg entity σ = some (.ok (), σ₁, es₁) → unify W n a b σ₁ = some (r, σ', es) →
      UnifyStep W n σ a b r σ' (es₁ ++ es)
  | shapes {r σ' es} : unifyShapes W n (unify W n) a b σ = some (r, σ', es) →
      UnifyStep W n σ a b r σ' es

theorem unify_cases {a b : Ty} {r : Except TypeError Unit}
    (h : unify W (n + 1) a b σ = some (r, σ', es)) :
    ∃ a' b', σ.shallowResolve n a = some a' ∧ σ.shallowResolve n b = some b' ∧
      UnifyStep W n σ a' b' r σ' es := by
  rw [unify] at h
  obtain ⟨a', ha, h⟩ := read_bind_eq_some.mp h
  obtain ⟨b', hb, h⟩ := read_bind_eq_some.mp h
  refine ⟨a', b', ha, hb, ?_⟩
  rcases bind_eq_some.mp h with ⟨e, he, -⟩ | ⟨o, σ₁, es₁, es₂, ho, h, rfl⟩
  · obtain ⟨-, ⟨hr, -⟩ | ⟨p, hp, args, u, -, ⟨-, hr⟩ | ⟨-, hr⟩⟩⟩ := firstReduction_eq_some he
      <;> cases hr
  obtain ⟨rfl, ⟨hr, rfl⟩ | ⟨p, hp, args, u, rfl, ⟨hred, hr⟩ | ⟨hred, hr⟩⟩⟩ :=
    firstReduction_eq_some ho <;> cases hr
  · rcases bind_eq_some.mp h with ⟨e, he, -⟩ | ⟨inverted, σ₂, es₃, es₄, hinv, h, rfl⟩
    · obtain ⟨hr, -⟩ | ⟨hr, -⟩ := invertInsertShape_eq_some he <;> cases hr
    obtain ⟨hr, rfl, rfl⟩ | ⟨hr, arg, entity, hstuck, hrun⟩ := invertInsertShape_eq_some hinv
      <;> cases hr
    · rcases bind_eq_some.mp h with ⟨e, he, -⟩ | ⟨inverted, σ₃, es₅, es₆, hinv, h, rfl⟩
      · obtain ⟨hr, -⟩ | ⟨hr, -⟩ := invertInsertShape_eq_some he <;> cases hr
      obtain ⟨hr, rfl, rfl⟩ | ⟨hr, arg, entity, hstuck, hrun⟩ := invertInsertShape_eq_some hinv
        <;> cases hr
      · rw [if_neg Bool.false_ne_true] at h
        exact .shapes h
      · rw [if_pos rfl] at h
        exact (UnifyStep.invertRight hstuck hrun h : UnifyStep W n _ a' b' r σ' (es₅ ++ es₆))
    · rw [if_pos rfl] at h
      exact (UnifyStep.invertLeft hstuck hrun h : UnifyStep W n _ a' b' r σ' (es₃ ++ es₄))
  · exact .reduceLeft hp hred h
  · exact .reduceRight hp hred h

end Ridge
