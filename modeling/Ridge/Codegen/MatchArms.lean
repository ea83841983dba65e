import Ridge.Codegen.LiftGuards
import Ridge.CoreErlang.Rules

/-!
# One arm of a match

How the ordered reading and the emitted clauses go on after one arm: the arm is taken, it is
passed over, or its guard never ends. A kept guard and a lifted one differ only where the guard
raises.
-/

namespace Ridge

open Early List

variable {W : Type} {M : CErlMachine W} {s₁ s' : CErlState W} {r₁ : Except CErlStop CErlVal}
    {r : Except CErlStop (Option CErlVal)} {code : Except CErlStop CErlVal → CErlState W → Prop}

/-- The arms are tried on `v`, and end with `r`. -/
def Tries (M : CErlMachine W) (v : CErlVal) (arms : List LoweredArm) (s : CErlState W)
    (r : Except CErlStop (Option CErlVal)) (s' : CErlState W) : Prop :=
  Yields .timeout (fun n => orderedArms .skips (eval M n) v arms) s r s'

theorem guardEnd_timeout (d : GuardRaise) : guardEnd d (.error .timeout) = .error .timeout := rfl

theorem increasing_tryArm (d : GuardRaise) (arm : LoweredArm) :
    Increasing .timeout fun n => tryArm d (eval M n) arm := by
  refine Increasing.bind ((increasing_eval M arm.guard).ending (guardEnd_timeout d)) fun taken => ?_
  cases taken with
  | true => exact (increasing_eval M arm.body).bind fun v => Increasing.const _
  | false => exact Increasing.const _

theorem increasing_orderedArms (d : GuardRaise) (v : CErlVal) (arms : List LoweredArm) :
    Increasing .timeout fun n => orderedArms d (eval M n) v arms := by
  induction arms with
  | nil => exact Increasing.const _
  | cons arm arms ih =>
    simp only [orderedArms]
    cases arm.pattern.match v with
    | none => exact ih
    | some bs =>
      refine Increasing.bind (Increasing.within (increasing_tryArm d arm)) fun found => ?_
      cases found with
      | some _ => exact Increasing.const _
      | none => exact ih

variable {v : CErlVal} {arms : List LoweredArm}

theorem Tries.unique {s s₂ : CErlState W} {r₁ r₂ : Except CErlStop (Option CErlVal)}
    (h₁ : Tries M v arms s r₁ s₁) (h₂ : Tries M v arms s r₂ s₂) : r₁ = r₂ ∧ s₁ = s₂ :=
  Yields.unique (increasing_orderedArms .skips v arms) h₁ h₂

/-! ## The reading -/

variable {s : CErlState W}

theorem tries_nil :
    Tries M v [] s r s' ↔ r = .ok none ∧ s' = s := yields_pure

variable {arm : LoweredArm}

theorem tries_of_none (h : arm.pattern.match v = none) :
    Tries M v (arm :: arms) s r s' ↔ Tries M v arms s r s' := by
  simp only [Tries, orderedArms, h]

theorem yields_guardEnd {guard : CErlExpr} {r : Except CErlStop Bool} :
    Yields .timeout (fun n => ending (guardEnd .skips) (eval M n guard)) s r s' ↔
      ∃ r₁, Evaluates M guard s r₁ s' ∧ r = .ok (guardHolds r₁) := by
  refine (yields_ending (guardEnd_timeout .skips)).trans ?_
  constructor
  · rintro ⟨_, r₁, h, rfl⟩
    refine ⟨r₁, h, ?_⟩
    rcases r₁ with (_ | _) | _
    · rfl
    · exact absurd rfl h.1
    · rfl
  · rintro ⟨r₁, h, rfl⟩
    refine ⟨(nomatch ·), r₁, h, ?_⟩
    rcases r₁ with (_ | _) | _
    · rfl
    · exact absurd rfl h.1
    · rfl

variable {body : CErlExpr}

theorem yields_armBody :
    Yields .timeout (fun n => bind (eval M n body) fun v => pure (some v)) s r s' ↔
      ∃ r₂, Evaluates M body s r₂ s' ∧ r = r₂.map some := by
  refine (yields_bind (increasing_eval M body) fun v => Increasing.const (pure (some v))).trans ?_
  constructor
  · rintro (⟨e, rfl, he⟩ | ⟨a, s₃, ha, hr⟩)
    · exact ⟨_, he, rfl⟩
    · obtain ⟨rfl, rfl⟩ := yields_pure.mp hr
      exact ⟨_, ha, rfl⟩
  · rintro ⟨e | a, hr₂, rfl⟩
    · exact .inl ⟨e, rfl, hr₂⟩
    · exact .inr ⟨a, s', hr₂, yields_pure.mpr ⟨rfl, rfl⟩⟩

/-- One arm ends with the value of its body if its guard holds, and without a value if not. -/
theorem yields_tryArm :
    Yields .timeout (fun n => tryArm .skips (eval M n) arm) s r s' ↔
      ∃ r₁ s₁, Evaluates M arm.guard s r₁ s₁ ∧
        if guardHolds r₁ then ∃ r₂, Evaluates M arm.body s₁ r₂ s' ∧ r = r₂.map some
        else r = .ok none ∧ s' = s₁ := by
  have hinc : ∀ taken : Bool, Increasing .timeout fun n =>
      if taken then bind (eval M n arm.body) fun v => pure (some v) else pure none := by
    intro taken
    cases taken with
    | true => exact (increasing_eval M arm.body).bind fun v => Increasing.const _
    | false => exact Increasing.const _
  refine (yields_bind ((increasing_eval M arm.guard).ending (guardEnd_timeout .skips))
    hinc).trans ?_
  constructor
  · rintro (⟨e, rfl, he⟩ | ⟨taken, s₁, hg, hrest⟩)
    · obtain ⟨r₁, _, heq⟩ := yields_guardEnd.mp he
      cases heq
    · obtain ⟨r₁, hr₁, heq⟩ := yields_guardEnd.mp hg
      cases heq
      refine ⟨r₁, s₁, hr₁, ?_⟩
      cases hgr : guardHolds r₁ with
      | true =>
        rw [hgr] at hrest
        exact yields_armBody.mp hrest
      | false =>
        rw [hgr] at hrest
        exact yields_pure.mp hrest
  · rintro ⟨r₁, s₁, hr₁, hrest⟩
    refine .inr ⟨guardHolds r₁, s₁, yields_guardEnd.mpr ⟨r₁, hr₁, rfl⟩, ?_⟩
    cases hgr : guardHolds r₁ with
    | true =>
      rw [hgr] at hrest
      exact yields_armBody.mpr hrest
    | false =>
      rw [hgr] at hrest
      exact yields_pure.mpr hrest

/-- An arm whose pattern matches is taken if its guard holds, and passed over if not. -/
theorem tries_of_some {bs : List (String × CErlVal)} (h : arm.pattern.match v = some bs) :
    Tries M v (arm :: arms) s r s' ↔
      ∃ r₁ s₁, Evaluates M arm.guard (s.bind bs) r₁ s₁ ∧
        if guardHolds r₁ then
          ∃ r₂ s₂, Evaluates M arm.body s₁ r₂ s₂ ∧ r = r₂.map some ∧ s' = s.setWorld s₂.world
        else Tries M v arms (s.setWorld s₁.world) r s' := by
  simp only [Tries, orderedArms, h]
  refine (yields_bind (Increasing.within (increasing_tryArm .skips arm)) fun found => ?_).trans ?_
  · cases found with
    | some _ => exact Increasing.const _
    | none => exact increasing_orderedArms .skips v arms
  constructor
  · rintro (⟨e, rfl, he⟩ | ⟨found, s₁, hf, hrest⟩)
    · obtain ⟨s₂, hend, rfl⟩ := yields_within.mp he
      obtain ⟨r₁, s₁, hr₁, hcase⟩ := yields_tryArm.mp hend
      refine ⟨r₁, s₁, hr₁, ?_⟩
      cases hgr : guardHolds r₁ with
      | true =>
        rw [hgr, if_pos rfl] at hcase
        obtain ⟨r₂, hr₂, heq⟩ := hcase
        exact ⟨r₂, s₂, hr₂, heq, rfl⟩
      | false =>
        rw [hgr] at hcase
        cases hcase.1
    · obtain ⟨s₂, hend, rfl⟩ := yields_within.mp hf
      obtain ⟨r₁, s₁, hr₁, hcase⟩ := yields_tryArm.mp hend
      refine ⟨r₁, s₁, hr₁, ?_⟩
      cases hgr : guardHolds r₁ with
      | true =>
        rw [hgr, if_pos rfl] at hcase
        obtain ⟨e | a, hr₂, heq⟩ := hcase
        · cases heq
        · cases heq
          obtain ⟨rfl, rfl⟩ := yields_pure.mp hrest
          exact ⟨.ok a, s₂, hr₂, rfl, rfl⟩
      | false =>
        rw [hgr] at hcase
        obtain ⟨heq, rfl⟩ := hcase
        cases heq
        exact hrest
  · rintro ⟨r₁, s₁, hr₁, hrest⟩
    cases hgr : guardHolds r₁ with
    | true =>
      rw [hgr, if_pos rfl] at hrest
      obtain ⟨r₂, s₂, hr₂, rfl, rfl⟩ := hrest
      have hend := yields_tryArm.mpr ⟨r₁, s₁, hr₁, by rw [hgr]; exact ⟨r₂, hr₂, rfl⟩⟩
      cases r₂ with
      | error e => exact .inl ⟨e, rfl, yields_within.mpr ⟨s₂, hend, rfl⟩⟩
      | ok a =>
        exact .inr ⟨some a, _, yields_within.mpr ⟨s₂, hend, rfl⟩, yields_pure.mpr ⟨rfl, rfl⟩⟩
    | false =>
      rw [hgr] at hrest
      have hend := yields_tryArm.mpr ⟨r₁, s₁, hr₁, by rw [hgr]; exact ⟨rfl, rfl⟩⟩
      exact .inr ⟨none, _, yields_within.mpr ⟨s₁, hend, rfl⟩, hrest⟩

/-- The arms leave no variable behind. -/
theorem Tries.state (h : Tries M v arms s r s') : s' = s.setWorld s'.world := by
  induction arms generalizing s with
  | nil =>
    obtain ⟨_, rfl⟩ := tries_nil.mp h
    rfl
  | cons arm arms ih =>
    cases hp : arm.pattern.match v with
    | none => exact ih ((tries_of_none hp).mp h)
    | some bs =>
      obtain ⟨r₁, s₁, _, hrest⟩ := (tries_of_some hp).mp h
      split at hrest
      · obtain ⟨_, s₂, _, _, rfl⟩ := hrest
        rfl
      · have hstate := ih hrest
        exact hstate

variable {cs : List CErlClause}

/-- A selection leaves no variable behind. -/
theorem Selects.state {r : Except CErlStop CErlVal} (h : Selects M v cs s r s') :
    s' = s.setWorld s'.world := by
  induction cs with
  | nil =>
    obtain ⟨_, rfl⟩ := selects_nil.mp h
    rfl
  | cons c cs ih =>
    cases c with
    | mk pattern guard body =>
      cases hp : pattern.match v with
      | none => exact ih ((selects_cons_of_none hp).mp h)
      | some bs =>
        obtain ⟨r₁, s₁, _, hrest⟩ := (selects_cons_of_some hp).mp h
        split at hrest
        · obtain ⟨s₂, _, rfl⟩ := hrest
          rfl
        · exact ih hrest

/-! ## Ends that agree -/

/-- The ends of the code render those of the reading, in the same worlds. -/
structure SameEnd (code : Except CErlStop CErlVal → CErlState W → Prop)
    (meaning : Except CErlStop (Option CErlVal) → CErlState W → Prop) : Prop where
  sound : ∀ r t, code r t → ∃ r₀ s, meaning r₀ s ∧ Renders r₀ r ∧ s.world = t.world
  complete : ∀ r₀ s, meaning r₀ s → ∃ r t, code r t ∧ Renders r₀ r ∧ s.world = t.world

theorem sameEnd_congr {code' : Except CErlStop CErlVal → CErlState W → Prop}
    {meaning meaning' : Except CErlStop (Option CErlVal) → CErlState W → Prop}
    (hcode : ∀ r, (∀ t, code r t → ∃ t', code' r t' ∧ t'.world = t.world) ∧
      ∀ t, code' r t → ∃ t', code r t' ∧ t'.world = t.world)
    (hmeaning : ∀ r s, meaning r s ↔ meaning' r s) :
    SameEnd code meaning ↔ SameEnd code' meaning' := by
  obtain rfl : meaning = meaning' := funext fun r => funext fun s => propext (hmeaning r s)
  have hdirect : ∀ {c c' : Except CErlStop CErlVal → CErlState W → Prop},
      (∀ r, (∀ t, c r t → ∃ t', c' r t' ∧ t'.world = t.world) ∧
        ∀ t, c' r t → ∃ t', c r t' ∧ t'.world = t.world) →
      SameEnd c meaning → SameEnd c' meaning := by
    intro c c' hc h
    refine ⟨fun r t ht => ?_, fun r₀ s hs => ?_⟩
    · obtain ⟨t', ht', hw⟩ := (hc r).2 t ht
      obtain ⟨r₀, s, hs, hr, hws⟩ := h.sound r t' ht'
      exact ⟨r₀, s, hs, hr, hws.trans hw⟩
    · obtain ⟨r, t, ht, hr, hws⟩ := h.complete r₀ s hs
      obtain ⟨t', ht', hw⟩ := (hc r).1 t ht
      exact ⟨r, t', ht', hr, hws.trans hw.symm⟩
  exact ⟨hdirect hcode, hdirect fun r => (hcode r).symm⟩

theorem SameEnd.stuck {meaning : Except CErlStop (Option CErlVal) → CErlState W → Prop}
    (hcode : ∀ r t, ¬ code r t) (hmeaning : ∀ r s, ¬ meaning r s) : SameEnd code meaning :=
  ⟨fun r t h => absurd h (hcode r t), fun r s h => absurd h (hmeaning r s)⟩

theorem renders_map (r : Except CErlStop CErlVal) : Renders (r.map some) r := by
  cases r with
  | error e => exact .left e
  | ok v => exact .value v

/-! ## One arm -/

section Arm

variable {v : CErlVal} {arm : LoweredArm} {arms : List LoweredArm} {s t : CErlState W}
  {bs : List (String × CErlVal)}

theorem AgreeOn.symm {A : String → Prop} (h : AgreeOn A s t) : AgreeOn A t s :=
  ⟨h.world.symm, h.fns.symm, fun x hx => (h.vars x hx).symm⟩

/-- Inside of its clause an arm reads the same in both states. -/
theorem AgreeOn.bind (h : AgreeOn (· ∈ arm.reads) s t) (hp : arm.pattern.match v = some bs) :
    AgreeOn (· ∈ arm.guard.freeVars ++ arm.body.freeVars) (s.bind bs) (t.bind bs) := by
  refine ⟨h.world, h.fns, fun x hx => bindVars_congr h.vars ?_⟩
  rw [CErlPat.match_vars hp]
  by_cases hxp : x ∈ arm.pattern.vars
  · exact .inl hxp
  · exact .inr (mem_filter.mpr ⟨hx, by simpa using hxp⟩)

theorem liftedGuardsEnd_of_none (hp : arm.pattern.match v = none) :
    LiftedGuardsEnd M v (arm :: arms) s ↔ LiftedGuardsEnd M v arms s := by
  simp only [LiftedGuardsEnd, hp]

theorem exists_ended {p : Except CErlStop CErlVal → CErlState W → Prop} {e : CErlExpr}
    (h : Evaluates M e s r₁ s₁) : (∃ r₂ s₂, Evaluates M e s r₂ s₂ ∧ p r₂ s₂) ↔ p r₁ s₁ := by
  refine ⟨?_, fun hp => ⟨r₁, s₁, h, hp⟩⟩
  rintro ⟨r₂, s₂, hr₂, hp⟩
  obtain ⟨rfl, rfl⟩ := hr₂.unique h
  exact hp

section

variable (hp : arm.pattern.match v = some bs)
include hp

/-- What the condition says of an arm depends on how the arm's guard ends. -/
theorem liftedGuardsEnd_of_some :
    Evaluates M arm.guard (s.bind bs) r₁ s₁ →
    (LiftedGuardsEnd M v (arm :: arms) s ↔
      match r₁ with
      | .ok g => g.isTrue = false → LiftedGuardsEnd M v arms (s.setWorld s₁.world)
      | .error e =>
        if arm.guardIsSafe then LiftedGuardsEnd M v arms (s.setWorld s₁.world)
        else OnlyRaises M v arms (s.setWorld s₁.world) e) := by
  intro hr₁
  simp only [LiftedGuardsEnd, hp]
  constructor
  · exact fun h => h r₁ s₁ hr₁
  · intro h r s' hr
    obtain ⟨rfl, rfl⟩ := hr.unique hr₁
    exact h

theorem liftedGuardsEnd_of_stuck (hg : ∀ r₁ s₁, ¬ Evaluates M arm.guard (s.bind bs) r₁ s₁) :
    LiftedGuardsEnd M v (arm :: arms) s := by
  simp only [LiftedGuardsEnd, hp]
  exact fun r s₁ h => absurd h (hg r s₁)

theorem tries_stuck (hg : ∀ r₁ s₁, ¬ Evaluates M arm.guard (s.bind bs) r₁ s₁) :
    ¬ Tries M v (arm :: arms) s r s' := by
  rw [tries_of_some hp]
  rintro ⟨r₁, s₁, hr₁, _⟩
  exact hg r₁ s₁ hr₁

section

variable (hr₁ : Evaluates M arm.guard (s.bind bs) r₁ s₁)
include hr₁

theorem tries_passed (hg : guardHolds r₁ = false) :
    Tries M v (arm :: arms) s r s' ↔ Tries M v arms (s.setWorld s₁.world) r s' := by
  rw [tries_of_some hp, exists_ended hr₁, hg]
  exact Iff.rfl

theorem tries_taken (hg : guardHolds r₁ = true) :
    Tries M v (arm :: arms) s r s' ↔
      ∃ r₂ s₂, Evaluates M arm.body s₁ r₂ s₂ ∧ r = r₂.map some ∧ s' = s.setWorld s₂.world := by
  rw [tries_of_some hp, exists_ended hr₁, hg]
  exact Iff.rfl

theorem sameEnd_taken {t₁ : CErlState W} (hg : guardHolds r₁ = true)
    (hagree : AgreeOn (· ∈ arm.guard.freeVars ++ arm.body.freeVars) s₁ t₁)
    (hcode : ∀ r t', code r t' ↔ ∃ t₂, Evaluates M arm.body t₁ r t₂ ∧ t' = t.setWorld t₂.world) :
    SameEnd code (Tries M v (arm :: arms) s) where
  sound := by
    intro r t' h
    obtain ⟨t₂, ht₂, rfl⟩ := (hcode r t').mp h
    obtain ⟨s₂, hs₂, hw⟩ := ht₂.agree (fun x hx => mem_append_right _ hx) hagree.symm
    refine ⟨r.map some, s.setWorld s₂.world, ?_, renders_map r, hw.world⟩
    exact (tries_taken hp hr₁ hg).mpr ⟨r, s₂, hs₂, rfl, rfl⟩
  complete := by
    intro r₀ s' h
    obtain ⟨r, s₂, hs₂, rfl, rfl⟩ := (tries_taken hp hr₁ hg).mp h
    obtain ⟨t₂, ht₂, hw⟩ := hs₂.agree (fun x hx => mem_append_right _ hx) hagree
    exact ⟨r, t.setWorld t₂.world, (hcode r _).mpr ⟨t₂, ht₂, rfl⟩, renders_map r, hw.world.symm⟩

/-- The condition asks nothing of the arms after the one that is taken. -/
theorem liftedGuardsEnd_taken (hg : guardHolds r₁ = true) :
    LiftedGuardsEnd M v (arm :: arms) s := by
  rw [liftedGuardsEnd_of_some hp hr₁]
  cases r₁ with
  | error e => cases hg
  | ok g =>
    intro hfalse
    rw [show g.isTrue = true from hg] at hfalse
    cases hfalse

end

end

/-- A kept guard does in its clause what the reading does with it, raising included. -/
theorem sameEnd_kept (hguard : arm.guard.isGuardExpr = true) (hsafe : arm.guardIsSafe = true)
    (hagree : AgreeOn (· ∈ arm.reads) s t)
    (hrest : SameEnd (Selects M v cs t) (Tries M v arms s) ↔ LiftedGuardsEnd M v arms s) :
    SameEnd (Selects M v (arm.keptClause :: cs) t) (Tries M v (arm :: arms) s) ↔
      LiftedGuardsEnd M v (arm :: arms) s := by
  cases hp : arm.pattern.match v with
  | none =>
    rw [liftedGuardsEnd_of_none hp, ← hrest]
    have hcode : Selects M v (arm.keptClause :: cs) t = Selects M v cs t :=
      funext fun r => funext fun t' => propext (selects_cons_of_none hp)
    have hmeaning : Tries M v (arm :: arms) s = Tries M v arms s :=
      funext fun r => funext fun s' => propext (tries_of_none hp)
    rw [hcode, hmeaning]
  | some bs =>
    by_cases hends : ∃ r₁ s₁, Evaluates M arm.guard (s.bind bs) r₁ s₁
    · obtain ⟨r₁, s₁, hr₁⟩ := hends
      obtain rfl : s₁ = s.bind bs := hr₁.pure hguard
      have hbind := hagree.bind hp
      obtain ⟨t₁, ht₁, _⟩ := hr₁.agree (fun x hx => mem_append_left _ hx) hbind
      obtain rfl : t₁ = t.bind bs := ht₁.pure hguard
      have hselects : ∀ r t', Selects M v (arm.keptClause :: cs) t r t' ↔
          if guardHolds r₁ then
            ∃ t₂, Evaluates M arm.body (t.bind bs) r t₂ ∧ t' = t.setWorld t₂.world
          else Selects M v cs t r t' := by
        intro r t'
        rw [show arm.keptClause = .mk arm.pattern arm.guard arm.body from rfl,
          selects_cons_of_some hp, exists_ended ht₁]
      cases hg : guardHolds r₁ with
      | true =>
        simp only [hg, if_true] at hselects
        exact iff_of_true (sameEnd_taken hp hr₁ hg hbind hselects) (liftedGuardsEnd_taken hp hr₁ hg)
      | false =>
        simp only [hg, Bool.false_eq_true, if_false] at hselects
        have hcode : Selects M v (arm.keptClause :: cs) t = Selects M v cs t :=
          funext fun r => funext fun t' => propext (hselects r t')
        have hmeaning : Tries M v (arm :: arms) s = Tries M v arms s :=
          funext fun r => funext fun s' => propext ((tries_passed hp hr₁ hg).trans Iff.rfl)
        rw [hcode, hmeaning, hrest, liftedGuardsEnd_of_some hp hr₁]
        show _ ↔ _
        cases r₁ with
        | error e =>
          simp only [hsafe, if_true]
          exact Iff.rfl
        | ok g => exact ⟨fun h _ => h, fun h => h hg⟩
    · -- The guard never ends: neither do the clause and the arm.
      have hstuck : ∀ r₁ s₁, ¬ Evaluates M arm.guard (s.bind bs) r₁ s₁ :=
        fun r₁ s₁ h => hends ⟨r₁, s₁, h⟩
      refine iff_of_true (SameEnd.stuck (fun r t' h => ?_) fun r s' => tries_stuck hp hstuck)
        (liftedGuardsEnd_of_stuck hp hstuck)
      obtain ⟨r₁, t₁, ht₁, _⟩ := (selects_cons_of_some hp).mp h
      obtain ⟨s₁, hs₁, _⟩ := ht₁.agree (fun x hx => mem_append_left _ hx)
        (hagree.bind hp).symm
      exact hstuck r₁ s₁ hs₁

/-! ## A lifted guard -/

section Lifted

variable {depth : Nat} {rest : CErlExpr} {vars : List (String × CErlVal)} {fns : CErlFns}

variable {t' : CErlState W}

/-- The clause for every other value goes on with the arms after the lifted one. -/
theorem selects_rest {w : CErlVal} {r : Except CErlStop CErlVal}
    (hx : t.vars (restVar depth) = some (.closure [] rest vars fns)) :
    Selects M w [.mk .wild litTrue (invokeRest depth)] t r t' ↔
      ∃ t₁, Evaluates M rest ⟨t.world, bindVars vars fun _ => none, fns⟩ r t₁ ∧
        t' = t.setWorld t₁.world := by
  have hwild : CErlPat.wild.match w = some [] := by rw [CErlPat.match]
  rw [selects_unguarded hwild]
  constructor
  · rintro ⟨t₂, ht₂, rfl⟩
    obtain ⟨t₁, ht₁, rfl⟩ := (evaluates_thunk hx).mp ht₂
    exact ⟨t₁, ht₁, rfl⟩
  · rintro ⟨t₁, ht₁, rfl⟩
    exact ⟨t.setWorld t₁.world, (evaluates_thunk hx).mpr ⟨t₁, ht₁, rfl⟩, rfl⟩

theorem isLit_true (g : CErlVal) : g.isLit (.atom "true") = g.isTrue := by
  cases g with
  | tuple elems => cases elems <;> rfl
  | _ => rfl

/-- The value of a lifted guard selects the body of its arm, or the arms after it. -/
theorem selects_dispatch {g : CErlVal} {r : Except CErlStop CErlVal}
    (hx : t.vars (restVar depth) = some (.closure [] rest vars fns)) :
    Selects M g [.mk (.lit (.atom "true")) litTrue body, .mk .wild litTrue (invokeRest depth)]
        t r t' ↔
      if g.isTrue then ∃ t₂, Evaluates M body t r t₂ ∧ t' = t.setWorld t₂.world
      else ∃ t₁, Evaluates M rest ⟨t.world, bindVars vars fun _ => none, fns⟩ r t₁ ∧
        t' = t.setWorld t₁.world := by
  have hlit : (CErlPat.lit (.atom "true")).match g = if g.isTrue then some [] else none := by
    rw [CErlPat.match, isLit_true]
  cases hg : g.isTrue with
  | true =>
    rw [hg, if_pos rfl] at hlit
    rw [selects_unguarded hlit, if_pos rfl]
    exact Iff.rfl
  | false =>
    rw [hg] at hlit
    rw [selects_cons_of_none hlit, selects_rest hx]
    exact Iff.rfl

/-- A lifted guard that raises leaves the match, where the reading passes its arm over. -/
theorem sameEnd_lifted (hlift : arm.guardIsSafe = false)
    (hx : t.vars (restVar depth) = some (.closure [] rest vars fns))
    (hxp : restVar depth ∉ arm.pattern.vars) (hxg : restVar depth ∉ arm.guard.exports)
    (hagree : AgreeOn (· ∈ arm.reads) s t)
    (hrest : ∀ w, SameEnd (Evaluates M rest ⟨w, bindVars vars fun _ => none, fns⟩)
        (Tries M v arms (s.setWorld w)) ↔ LiftedGuardsEnd M v arms (s.setWorld w)) :
    SameEnd (Selects M v [arm.liftedClause depth, .mk .wild litTrue (invokeRest depth)] t)
        (Tries M v (arm :: arms) s) ↔ LiftedGuardsEnd M v (arm :: arms) s := by
  cases hp : arm.pattern.match v with
  | none =>
    rw [liftedGuardsEnd_of_none hp]
    have hmeaning : Tries M v (arm :: arms) s = Tries M v arms s :=
      funext fun r => funext fun s' => propext (tries_of_none hp)
    have hs : s.setWorld t.world = s := by rw [hagree.world]; rfl
    rw [hmeaning]
    refine Iff.trans ?_ (hs ▸ hrest t.world)
    refine sameEnd_congr (fun r => ⟨fun t' h => ?_, fun t' h => ?_⟩) fun r s' => ?_
    · obtain ⟨t₁, ht₁, rfl⟩ := (selects_rest hx).mp ((selects_cons_of_none hp).mp h)
      exact ⟨t₁, ht₁, rfl⟩
    · exact ⟨t.setWorld t'.world,
        (selects_cons_of_none hp).mpr ((selects_rest hx).mpr ⟨t', h, rfl⟩), rfl⟩
    · exact Iff.rfl
  | some bs =>
    have hbind := hagree.bind hp
    -- The selected clause tries the guard in its body.
    have hclause : ∀ r t', Selects M v
        [arm.liftedClause depth, .mk .wild litTrue (invokeRest depth)] t r t' ↔
          ∃ t₂, Evaluates M (.case arm.guard [.mk (.lit (.atom "true")) litTrue arm.body,
            .mk .wild litTrue (invokeRest depth)]) (t.bind bs) r t₂ ∧
              t' = t.setWorld t₂.world := fun r t' => selects_unguarded hp
    by_cases hends : ∃ r₁ s₁, Evaluates M arm.guard (s.bind bs) r₁ s₁
    · obtain ⟨r₁, s₁, hr₁⟩ := hends
      obtain ⟨t₁, ht₁, hst₁⟩ := hr₁.agree (fun x hx => mem_append_left _ hx) hbind
      -- The guard leaves the function of the later arms where it was.
      have hx₁ : t₁.vars (restVar depth) = some (.closure [] rest vars fns) := by
        rw [ht₁.untouched.vars _ hxg, ← hx]
        refine bindVars_of_not_mem ?_ t.vars
        rw [CErlPat.match_vars hp]
        exact hxp
      cases r₁ with
      | error e =>
        have hcode : ∀ r t', Selects M v
            [arm.liftedClause depth, .mk .wild litTrue (invokeRest depth)] t r t' ↔
              r = .error e ∧ t' = t.setWorld t₁.world := by
          intro r t'
          simp only [hclause, evaluates_case_error ht₁, and_assoc, exists_and_left, exists_eq_left]
        rw [liftedGuardsEnd_of_some hp hr₁]
        simp only [hlift, Bool.false_eq_true, if_false]
        constructor
        · intro hsame
          obtain ⟨r₀, s', hr₀, hrender, hw⟩ :=
            hsame.sound _ _ ((hcode _ _).mpr ⟨rfl, rfl⟩)
          have htries := (tries_passed hp hr₁ rfl).mp hr₀
          have hs' : s' = s.setWorld s₁.world := by
            rw [htries.state]
            show s.setWorld s'.world = _
            rw [hw]
            exact congrArg s.setWorld hst₁.world
          subst hs'
          exact ⟨r₀, htries, hrender⟩
        · rintro ⟨r₀, hr₀, hrender⟩
          have htries := (tries_passed hp hr₁ rfl).mpr hr₀
          refine ⟨fun r t' h => ?_, fun r₀' s' h => ?_⟩
          · obtain ⟨rfl, rfl⟩ := (hcode r t').mp h
            exact ⟨r₀, _, htries, hrender, hst₁.world.symm⟩
          · obtain ⟨rfl, rfl⟩ := h.unique htries
            exact ⟨_, _, (hcode _ _).mpr ⟨rfl, rfl⟩, hrender, hst₁.world.symm⟩
      | ok g =>
        have hcode : ∀ r t', Selects M v
            [arm.liftedClause depth, .mk .wild litTrue (invokeRest depth)] t r t' ↔
              if g.isTrue then ∃ t₂, Evaluates M arm.body t₁ r t₂ ∧ t' = t.setWorld t₂.world
              else ∃ t₂, Evaluates M rest ⟨t₁.world, bindVars vars fun _ => none, fns⟩ r t₂ ∧
                t' = t.setWorld t₂.world := by
          intro r t'
          -- leaving the inner clause and the outer one restores the outer state
          have hleave : ∀ {p : CErlState W → Prop},
              (∃ t₂, (∃ t₃, p t₃ ∧ t₂ = t₁.setWorld t₃.world) ∧ t' = t.setWorld t₂.world) ↔
                ∃ t₃, p t₃ ∧ t' = t.setWorld t₃.world := by
            intro p
            constructor
            · rintro ⟨_, ⟨t₃, ht₃, rfl⟩, rfl⟩
              exact ⟨t₃, ht₃, rfl⟩
            · rintro ⟨t₃, ht₃, rfl⟩
              exact ⟨_, ⟨t₃, ht₃, rfl⟩, rfl⟩
          simp only [hclause, evaluates_case_ok ht₁, selects_dispatch hx₁]
          cases g.isTrue <;> exact hleave
        cases hg : g.isTrue with
        | true =>
          simp only [hg, if_true] at hcode
          exact iff_of_true (sameEnd_taken hp hr₁ hg hst₁ hcode) (liftedGuardsEnd_taken hp hr₁ hg)
        | false =>
          simp only [hg, Bool.false_eq_true, if_false] at hcode
          rw [liftedGuardsEnd_of_some hp hr₁]
          show _ ↔ (g.isTrue = false → _)
          rw [forall_prop_of_true hg, ← hrest s₁.world]
          refine sameEnd_congr (fun r => ⟨fun t' h => ?_, fun t' h => ?_⟩) fun r s' =>
            tries_passed hp hr₁ hg
          · obtain ⟨t₂, ht₂, rfl⟩ := (hcode r t').mp h
            exact ⟨t₂, hst₁.world ▸ ht₂, rfl⟩
          · exact ⟨t.setWorld t'.world, (hcode r _).mpr ⟨t', hst₁.world.symm ▸ h, rfl⟩, rfl⟩
    · have hstuck : ∀ r₁ s₁, ¬ Evaluates M arm.guard (s.bind bs) r₁ s₁ :=
        fun r₁ s₁ h => hends ⟨r₁, s₁, h⟩
      refine iff_of_true (SameEnd.stuck (fun r t' h => ?_) fun r s' => tries_stuck hp hstuck)
        (liftedGuardsEnd_of_stuck hp hstuck)
      -- The body of the clause begins with the guard.
      have hguard : ∀ r₁ t₁, ¬ Evaluates M arm.guard (t.bind bs) r₁ t₁ := by
        intro r₁ t₁ ht₁
        obtain ⟨s₁, hs₁, _⟩ := ht₁.agree (fun x hx => mem_append_left _ hx) hbind.symm
        exact hstuck r₁ s₁ hs₁
      obtain ⟨t₂, ht₂, _⟩ := (hclause r t').mp h
      rcases evaluates_case.mp ht₂ with ⟨e, _, he⟩ | ⟨g, t₃, hg, _⟩
      · exact hguard _ _ he
      · exact hguard _ _ hg

end Lifted

end Arm

end Ridge
