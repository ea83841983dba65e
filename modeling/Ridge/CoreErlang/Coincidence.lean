import Ridge.CoreErlang.Semantics

/-!
# What an evaluation looks at

An expression ends alike in states that agree on the variables it reads, and a higher bound on
the depth changes nothing once there is an answer. Both are one simulation, proved for one step
of the evaluator and then for every depth.
-/

namespace Ridge

open Early List Function

variable {W α : Type}

/-- States that differ at most in variables outside `A`. -/
structure AgreeOn (A : String → Prop) (s t : CErlState W) : Prop where
  world : t.world = s.world
  fns : t.fns = s.fns
  vars : ∀ x, A x → t.vars x = s.vars x

theorem AgreeOn.refl (A : String → Prop) (s : CErlState W) : AgreeOn A s s :=
  ⟨rfl, rfl, fun _ _ => rfl⟩

variable {s t : CErlState W}

theorem AgreeOn.mono {A B : String → Prop} (h : AgreeOn A s t) (hBA : ∀ x, B x → A x) :
    AgreeOn B s t := ⟨h.world, h.fns, fun x hx => h.vars x (hBA x hx)⟩

theorem agreeOn_all : AgreeOn (fun _ => True) s t ↔ s = t := by
  constructor
  · intro h
    cases s with
    | mk world vars fns =>
      cases t with
      | mk world' vars' fns' =>
        obtain rfl : world' = world := h.world
        obtain rfl : fns' = fns := h.fns
        obtain rfl : vars' = vars := funext fun x => h.vars x trivial
        rfl
  · rintro rfl
    exact AgreeOn.refl _ s

variable {bs : List (String × CErlVal)}

variable {x : String}

theorem bindVars_of_not_mem (h : x ∉ bs.map Prod.fst) (vars : CErlVars) :
    bindVars bs vars x = vars x := by
  induction bs generalizing vars with
  | nil => rfl
  | cons b bs ih =>
    simp only [map_cons, mem_cons, not_or] at h
    show bindVars bs (update vars b.1 (some b.2)) x = vars x
    rw [ih h.2, update_of_ne h.1]

variable {vars vars' : CErlVars}

/-- Bindings hide what was bound before. -/
theorem bindVars_congr {A : String → Prop} (h : ∀ x, A x → vars' x = vars x)
    (hx : x ∈ bs.map Prod.fst ∨ A x) : bindVars bs vars' x = bindVars bs vars x := by
  induction bs generalizing vars vars' A with
  | nil =>
    rcases hx with hx | hx
    · cases hx
    · exact h x hx
  | cons b bs ih =>
    show bindVars bs (update vars' b.1 (some b.2)) x =
      bindVars bs (update vars b.1 (some b.2)) x
    apply ih (A := fun y => y = b.1 ∨ A y)
    · intro y hy
      by_cases hyb : y = b.1
      · subst hyb
        simp only [update_self]
      · rw [update_of_ne hyb, update_of_ne hyb]
        exact h y (hy.resolve_left hyb)
    · rcases hx with hx | hx
      · rcases mem_cons.mp hx with hx | hx
        · exact .inr (.inl hx)
        · exact .inl hx
      · exact .inr (.inr hx)

variable {names : List String}

theorem captured_congr (h : ∀ x ∈ names, vars' x = vars x) :
    captured vars' names = captured vars names :=
  filterMap_congr fun x hx => by rw [h x hx]

mutual

/-- A match binds the variables of the pattern. -/
theorem CErlPat.match_vars : ∀ {p : CErlPat} {v : CErlVal} {bs : List (String × CErlVal)},
    p.match v = some bs → bs.map Prod.fst = p.vars
  | .var name, v, bs, h => by
    simp only [CErlPat.match, Option.some.injEq] at h
    subst h
    rfl
  | .lit value, v, bs, h => by
    simp only [CErlPat.match] at h
    split at h
    · cases h
      rfl
    · cases h
  | .tuple elems, .tuple vs, bs, h => by
    simp only [CErlPat.match] at h
    exact matchPats_vars h
  | .cons head tail, .cons v w, bs, h => by
    simp only [CErlPat.match] at h
    split at h
    · next hhead htail =>
      cases h
      rw [map_append, CErlPat.match_vars hhead, CErlPat.match_vars htail, CErlPat.vars]
    · cases h
  | .alias var inner, v, bs, h => by
    simp only [CErlPat.match] at h
    obtain ⟨bs', hinner, rfl⟩ := Option.map_eq_some_iff.mp h
    rw [map_cons, CErlPat.match_vars hinner, CErlPat.vars]
  | .mapPat entries, .map pairs, bs, h => by
    simp only [CErlPat.match] at h
    exact matchEntries_vars h
  | .wild, v, bs, h => by
    simp only [CErlPat.match, Option.some.injEq] at h
    subst h
    rfl

theorem matchPats_vars : ∀ {ps : List CErlPat} {vs : List CErlVal}
    {bs : List (String × CErlVal)}, matchPats ps vs = some bs → bs.map Prod.fst = patsVars ps
  | [], [], bs, h => by
    simp only [matchPats, Option.some.injEq] at h
    subst h
    rfl
  | p :: ps, v :: vs, bs, h => by
    simp only [matchPats] at h
    split at h
    · next hp hps =>
      cases h
      rw [map_append, CErlPat.match_vars hp, matchPats_vars hps, patsVars]
    · cases h

theorem matchEntries_vars : ∀ {es : List (CErlLit × CErlPat)} {pairs : List (CErlVal × CErlVal)}
    {bs : List (String × CErlVal)}, matchEntries es pairs = some bs →
      bs.map Prod.fst = entriesVars es
  | [], _, bs, h => by
    simp only [matchEntries, Option.some.injEq] at h
    subst h
    rfl
  | (key, p) :: es, pairs, bs, h => by
    simp only [matchEntries] at h
    split at h
    · cases h
    · split at h
      · next hp hes =>
        cases h
        rw [map_append, CErlPat.match_vars hp, matchEntries_vars hes, entriesVars]
      · cases h

end

/-! ## Scopes -/

section Scopes

variable {A B : String → Prop} {m m' : CErlRun W α}

theorem sim_inScope (h : Sim .timeout (AgreeOn B) m m')
    (hB : ∀ x, B x → x ∈ bs.map Prod.fst ∨ A x) :
    Sim .timeout (AgreeOn A) (CErlRun.inScope bs m) (CErlRun.inScope bs m') :=
  h.within
    (fun _ _ hst => ⟨hst.world, hst.fns, fun x hx => bindVars_congr hst.vars (hB x hx)⟩)
    (fun _ _ _ _ hst hst' => ⟨hst'.world, hst.fns, hst.vars⟩)

variable {v : CErlVal}

theorem sim_withVar (h : Sim .timeout (AgreeOn B) m m') (hBA : ∀ y, B y ↔ y = x ∨ A y) :
    Sim .timeout (AgreeOn A) (CErlRun.withVar x v m) (CErlRun.withVar x v m') := by
  refine h.within (fun s t hst => ⟨hst.world, hst.fns, fun y hy => ?_⟩)
    fun s t s' t' hst hst' => ⟨hst'.world, hst.fns, fun y hy => ?_⟩
  · show update t.vars x (some v) y = update s.vars x (some v) y
    by_cases hyx : y = x
    · rw [hyx, update_self, update_self]
    · rw [update_of_ne hyx, update_of_ne hyx]
      exact hst.vars y (((hBA y).mp hy).resolve_left hyx)
  · show update t'.vars x (t.vars x) y = update s'.vars x (s.vars x) y
    by_cases hyx : y = x
    · subst hyx
      rw [update_self, update_self]
      exact hst.vars y hy
    · rw [update_of_ne hyx, update_of_ne hyx]
      exact hst'.vars y ((hBA y).mpr (.inr hy))

variable {fns : CErlFns}

theorem sim_withFns (h : Sim .timeout (AgreeOn A) m m') :
    Sim .timeout (AgreeOn A) (CErlRun.withFns fns m) (CErlRun.withFns fns m') :=
  h.within (fun _ _ hst => ⟨hst.world, congrArg (fns ++ ·) hst.fns, hst.vars⟩)
    fun _ _ _ _ hst hst' => ⟨hst'.world, hst.fns, hst'.vars⟩

theorem sim_frame {vars : CErlVars} (h : Sim .timeout (AgreeOn fun _ => True) m m') :
    Sim .timeout (AgreeOn A) (CErlRun.frame vars fns m) (CErlRun.frame vars fns m') :=
  h.within (fun _ _ hst => ⟨hst.world, rfl, fun _ _ => rfl⟩)
    fun _ _ _ _ hst hst' => ⟨hst'.world, hst.fns, hst.vars⟩

theorem sim_readVar (hx : A x) :
    Sim .timeout (AgreeOn A) (CErlRun.readVar x : CErlRun W CErlVal) (CErlRun.readVar x) := by
  refine (Sim.read fun s t hst => hst.vars x hx).bind fun found => ?_
  cases found with
  | some v => exact Sim.pure v
  | none => exact Sim.leave _

theorem sim_exportTuple :
    Sim .timeout (AgreeOn A) (CErlRun.exportTuple names v : CErlRun W CErlVal)
      (CErlRun.exportTuple names v) := by
  unfold CErlRun.exportTuple
  split
  · split
    · refine (Sim.modify fun s t hst => ?_).bind fun _ => Sim.pure _
      exact ⟨hst.world, hst.fns, fun x hx => bindVars_congr hst.vars (.inr hx)⟩
    · exact Sim.leave _
  · exact Sim.leave _

theorem sim_guardTest {m m' : CErlRun W CErlVal} (h : Sim .timeout (AgreeOn A) m m') :
    Sim .timeout (AgreeOn A) (CErlRun.guardTest m) (CErlRun.guardTest m') := by
  intro s t hst hne
  have hms : (m s).1 ≠ .error .timeout := by
    intro heq
    exact hne (by simp only [CErlRun.guardTest, heq])
  have heq := (h s t hst hms).1
  unfold CErlRun.guardTest at hne ⊢
  rw [heq]
  rcases hm : (m s).1 with (_ | _) | v
  · exact ⟨rfl, hst⟩
  · exact absurd hm hms
  · exact ⟨rfl, hst⟩

end Scopes

/-! ## One step -/

section Step

variable {M : CErlMachine W} {ev ev' : CErlExpr → CErlRun W CErlVal}

/-- What the evaluator is shown to do with the parts of an expression. -/
def SimParts (ev ev' : CErlExpr → CErlRun W CErlVal) : Prop :=
  ∀ e (A : String → Prop), (∀ x ∈ e.freeVars, A x) → Sim .timeout (AgreeOn A) (ev e) (ev' e)

variable (hev : SimParts ev ev')
include hev

theorem sim_applyVal (A : String → Prop) (f : CErlVal) (args : List CErlVal) :
    Sim .timeout (AgreeOn A) (applyVal M ev f args) (applyVal M ev' f args) := by
  have hbody := fun e => hev e (fun _ => True) fun _ _ => trivial
  cases f with
  | closure params body vars fns | recFun params body defs vars fns =>
    simp only [applyVal]
    split
    · exact sim_frame (hbody body)
    · exact Sim.leave _
  | localFn name arity =>
    simp only [applyVal]
    split
    · split
      · exact sim_frame (hbody _)
      · exact Sim.leave _
    · exact Sim.leave _
  | int _ | float _ | atom _ | binary _ | nil | cons _ _ | tuple _ | map _
  | stack => exact Sim.leave _

theorem sim_runForeign (A : String → Prop) (code : W → Foreign W CErlVal (String × CErlVal)) :
    Sim .timeout (AgreeOn A) (runForeign M ev code) (runForeign M ev' code) := by
  refine (Sim.read fun s t hst => hst.world).bind fun w => ?_
  exact Foreign.sim_run rfl (fun s t hst => hst.world)
    (fun w s t hst => ⟨rfl, hst.fns, hst.vars⟩) (sim_applyVal hev A) (code w)

theorem sim_callRemote (A : String → Prop) (module fnName : String) (vs : List CErlVal) :
    Sim .timeout (AgreeOn A) (callRemote M ev module fnName vs)
      (callRemote M ev' module fnName vs) := by
  unfold callRemote
  split
  · refine (Sim.read fun s t hst => by rw [hst.world]).bind fun answer => ?_
    cases answer with
    | ok v => exact Sim.pure v
    | error reason => exact Sim.leave _
  · split
    · exact Sim.leave _
    · exact sim_runForeign hev A _

theorem sim_selectClause {A : String → Prop} (v : CErlVal) :
    ∀ {cs : List CErlClause}, (∀ x ∈ freeVarsClauses cs, A x) →
      Sim .timeout (AgreeOn A) (selectClause ev v cs) (selectClause ev' v cs)
  | [], _ => Sim.leave _
  | .mk pattern guard body :: cs, hA => by
    have hrest : ∀ x ∈ freeVarsClauses cs, A x := fun x hx =>
      hA x (by rw [freeVarsClauses, mem_append]; exact Or.inr hx)
    simp only [selectClause]
    split
    · exact sim_selectClause v hrest
    · next bs hbs =>
      have hvars := CErlPat.match_vars hbs
      -- A variable of the clause is bound by its pattern, or read from outside.
      have hclause : ∀ x ∈ guard.freeVars ++ body.freeVars, x ∈ bs.map Prod.fst ∨ A x := by
        intro x hx
        by_cases hxp : x ∈ pattern.vars
        · exact Or.inl (hvars ▸ hxp)
        · refine Or.inr (hA x ?_)
          rw [freeVarsClauses, mem_append, mem_filter]
          exact Or.inl ⟨hx, by simpa using hxp⟩
      have hguard := hev guard (fun x => x ∈ guard.freeVars ++ body.freeVars)
        fun x hx => mem_append_left _ hx
      have hbody := hev body (fun x => x ∈ guard.freeVars ++ body.freeVars)
        fun x hx => mem_append_right _ hx
      refine (sim_inScope (sim_guardTest hguard) hclause).bind fun holds => ?_
      cases holds with
      | true => exact sim_inScope hbody hclause
      | false => exact sim_selectClause v hrest

theorem sim_evalAll {A : String → Prop} {es : List CErlExpr} (hA : ∀ x ∈ freeVarsList es, A x) :
    Sim .timeout (AgreeOn A) (all (es.map ev)) (all (es.map ev')) := by
  apply Sim.all
  rw [forall₂_map_left_iff, forall₂_map_right_iff, forall₂_same]
  exact fun e he => hev e A fun x hx => hA x (freeVars_subset_list he hx)

theorem sim_evalPairs {A : String → Prop} :
    ∀ {ps : List (CErlExpr × CErlExpr)}, (∀ x ∈ freeVarsPairs ps, A x) →
      Sim .timeout (AgreeOn A) (all ((pairOperands ps).map ev)) (all ((pairOperands ps).map ev'))
  | [], _ => Sim.pure []
  | (k, v) :: ps, hA => by
    simp only [freeVarsPairs, mem_append] at hA
    refine (hev k A fun x hx => hA x (.inl hx)).bind fun _ => Sim.bind ?_ fun _ => Sim.pure _
    refine (hev v A fun x hx => hA x (.inr (.inl hx))).bind fun _ => Sim.bind ?_ fun _ =>
      Sim.pure _
    exact sim_evalPairs fun x hx => hA x (.inr (.inr hx))

theorem sim_evalStep : SimParts (evalStep M ev) (evalStep M ev') := by
  intro e A hA
  cases e with
  | lit value => exact Sim.pure _
  | var name => exact sim_readVar (hA name (by simp [CErlExpr.freeVars]))
  | funOf params body =>
    simp only [CErlExpr.freeVars] at hA
    refine Sim.read fun s t hst => ?_
    rw [hst.fns, captured_congr fun x hx => hst.vars x (hA x hx)]
  | apply callee args =>
    simp only [CErlExpr.freeVars, mem_append] at hA
    refine (hev callee A fun x hx => hA x (.inl hx)).bind fun f => ?_
    exact (sim_evalAll hev fun x hx => hA x (.inr hx)).bind fun vs => sim_applyVal hev A f vs
  | call module fnName args =>
    exact (sim_evalAll hev hA).bind fun vs => sim_callRemote hev A module fnName vs
  | primOp name args => exact (sim_evalAll hev hA).bind fun vs => sim_runForeign hev A _
  | localFnRef name arity => exact Sim.read fun s t hst => by rw [hst.fns]
  | letIn var value body =>
    simp only [CErlExpr.freeVars, mem_append, mem_filter] at hA
    refine (hev value A fun x hx => hA x (.inl hx)).bind fun v => ?_
    refine sim_withVar (hev body (fun y => y = var ∨ A y) fun x hx => ?_) fun _ => Iff.rfl
    by_cases hxv : x = var
    · exact .inl hxv
    · exact .inr (hA x (.inr ⟨hx, by simpa using hxv⟩))
  | bindTuple result state value => exact (hev value A hA).bind fun v => sim_exportTuple
  | letRec defs body =>
    simp only [CErlExpr.freeVars, mem_append] at hA
    refine Sim.bind (Sim.read fun s t hst => ?_) fun fns =>
      sim_withFns (hev body A fun x hx => hA x (.inr hx))
    rw [hst.fns, captured_congr fun x hx => hst.vars x (hA x (.inl hx))]
  | case scrutinee clauses =>
    simp only [CErlExpr.freeVars, mem_append] at hA
    refine (hev scrutinee A fun x hx => hA x (.inl hx)).bind fun v => ?_
    exact sim_selectClause hev v fun x hx => hA x (.inr hx)
  | seq first rest =>
    simp only [CErlExpr.freeVars, mem_append] at hA
    exact (hev first A fun x hx => hA x (.inl hx)).bind fun _ =>
      hev rest A fun x hx => hA x (.inr hx)
  | tuple elems => exact (sim_evalAll hev hA).bind fun vs => Sim.pure _
  | cons head tail =>
    simp only [CErlExpr.freeVars, mem_append] at hA
    refine (hev head A fun x hx => hA x (.inl hx)).bind fun v => ?_
    exact (hev tail A fun x hx => hA x (.inr hx)).bind fun w => Sim.pure _
  | listLit elems => exact (sim_evalAll hev hA).bind fun vs => Sim.pure _
  | mapLit pairs => exact (sim_evalPairs hev hA).bind fun vs => Sim.pure _
  | mapUpdate base updates =>
    simp only [CErlExpr.freeVars, mem_append] at hA
    refine (hev base A fun x hx => hA x (.inl hx)).bind fun b => ?_
    refine (sim_evalPairs hev fun x hx => hA x (.inr hx)).bind fun vs => ?_
    cases b with
    | map pairs => exact Sim.pure _
    | _ => exact Sim.leave _
  | tryOf body ofs catches =>
    simp only [CErlExpr.freeVars, mem_append] at hA
    have hbody := hev body A fun x hx => hA x (.inl hx)
    refine ((sim_inScope hbody fun x hx => .inr hx).ending rfl).bind fun answer => ?_
    cases answer with
    | ok v => exact sim_selectClause hev v fun x hx => hA x (.inr (.inl hx))
    | error x => exact sim_selectClause hev _ fun x hx => hA x (.inr (.inr hx))

end Step

/-! ## Every depth -/

/-- A deeper evaluation from a state that agrees on what is read ends alike. -/
theorem sim_eval (M : CErlMachine W) {n m : Nat} (h : n ≤ m) : SimParts (eval M n) (eval M m) := by
  induction n generalizing m with
  | zero => exact fun _ _ _ => Sim.stopped _
  | succ n ih =>
    obtain ⟨k, rfl⟩ : ∃ k, m = k + 1 := ⟨m - 1, by omega⟩
    exact sim_evalStep (ih (by omega))

theorem increasing_eval (M : CErlMachine W) (e : CErlExpr) :
    Increasing .timeout fun n => eval M n e := by
  intro n m h s t hst
  have hsim := sim_eval M h e (fun _ => True) (fun _ _ => trivial) s t (agreeOn_all.mpr hst)
  exact fun hne => ⟨(hsim hne).1, agreeOn_all.mp (hsim hne).2⟩

/-- An expression ends alike where the variables that it reads are the same. -/
theorem Evaluates.agree {M : CErlMachine W} {e : CErlExpr} {A : String → Prop}
    {s t s' : CErlState W} {r : Except CErlStop CErlVal} (h : Evaluates M e s r s')
    (hA : ∀ x ∈ e.freeVars, A x) (hst : AgreeOn A s t) :
    ∃ t', Evaluates M e t r t' ∧ AgreeOn A s' t' := by
  obtain ⟨hr, n, hn⟩ := h
  have hn : eval M n e s = (r, s') := hn
  have hsim := sim_eval M (Nat.le_refl n) e A hA s t hst (by rw [hn]; exact hr)
  rw [hn] at hsim
  exact ⟨(eval M n e t).2, ⟨hr, n, Prod.ext hsim.1 rfl⟩, hsim.2⟩

end Ridge
