import Ridge.Codegen.MatchArms

/-!
# Lifting guards keeps the meaning of a match

The clauses of one level and the function of the arms after it, level by level. The code of a
match means what the match means exactly if no guard that it lifts out of its clause raises.
-/

namespace Ridge

open Early List Function

variable {arms : List LoweredArm}

variable {W : Type} {M : CErlMachine W} {v : CErlVal}

/-! ## The variables of the code -/

/-- Some arm reads `x` from around the match. -/
def ReadByArms (arms : List LoweredArm) (x : String) : Prop := ∃ arm ∈ arms, x ∈ arm.reads

theorem freeVarsClauses_append (cs cs' : List CErlClause) :
    freeVarsClauses (cs ++ cs') = freeVarsClauses cs ++ freeVarsClauses cs' := by
  induction cs with
  | nil => rfl
  | cons c cs ih =>
    cases c with
    | mk pattern guard body =>
      simp only [cons_append, freeVarsClauses, ih, append_assoc]

variable {x : String}

theorem mem_freeVars_liftedClause {arm : LoweredArm} (depth : Nat) (h : x ∈ arm.reads) :
    x ∈ freeVarsClauses [arm.liftedClause depth] := by
  obtain ⟨hx, hxp⟩ := mem_filter.mp h
  simp only [LoweredArm.liftedClause, freeVarsClauses, CErlExpr.freeVars, litTrue, CErlPat.vars,
    nil_append, append_nil, mem_filter, mem_append]
  refine ⟨?_, hxp⟩
  rcases mem_append.mp hx with hx | hx
  · exact .inl hx
  · exact .inr (.inl ⟨hx, by simp⟩)

theorem mem_freeVars_lift {scrut x : String} (hx : ∀ d, x ≠ restVar d)
    (arms : List LoweredArm) : ∀ (depth : Nat) (clauses : List CErlClause),
      x = scrut ∨ x ∈ freeVarsClauses clauses ∨ ReadByArms arms x →
        x ∈ (liftGuardedMatchAtDepth scrut depth clauses arms).freeVars := by
  induction arms with
  | nil =>
    intro depth clauses h
    simp only [liftGuardedMatchAtDepth, CErlExpr.freeVars, mem_append, mem_singleton]
    rcases h with h | h | ⟨_, harm, _⟩
    · exact .inl h
    · exact .inr h
    · cases harm
  | cons arm arms ih =>
    intro depth clauses h
    have hkept : x ∈ arm.reads → x ∈ freeVarsClauses [arm.keptClause] := by
      intro harm
      simp only [LoweredArm.keptClause, freeVarsClauses, append_nil]
      exact harm
    by_cases hsafe : arm.guardIsSafe = true
    · rw [lift_of_safe hsafe]
      apply ih
      rw [freeVarsClauses_append, mem_append]
      rcases h with h | h | ⟨arm', harm', h⟩
      · exact .inl h
      · exact .inr (.inl (.inl h))
      · rcases mem_cons.mp harm' with rfl | harm'
        · exact .inr (.inl (.inr (hkept h)))
        · exact .inr (.inr ⟨arm', harm', h⟩)
    · rw [lift_of_lifted hsafe]
      simp only [CErlExpr.freeVars, mem_append, mem_filter, not_mem_nil,
        not_false_eq_true, decide_true, and_true, mem_singleton, freeVarsClauses_append]
      have hne : decide (x ≠ restVar depth) = true := by simpa using hx depth
      rcases h with h | h | ⟨arm', harm', h⟩
      · exact .inr ⟨.inl h, hne⟩
      · exact .inr ⟨.inr (.inl h), hne⟩
      · rcases mem_cons.mp harm' with rfl | harm'
        · have hclause := mem_freeVars_liftedClause depth h
          refine .inr ⟨.inr (.inr ?_), hne⟩
          rw [← singleton_append, freeVarsClauses_append, mem_append]
          exact .inl hclause
        · cases arms with
          | nil => cases harm'
          | cons arm₂ arms₂ => exact .inl (ih (depth + 1) [] (.inr (.inr ⟨arm', harm', h⟩)))

/-- Bindings that agree with `vars` give every variable they bind its value there. -/
theorem bindVars_of_agree {vars : CErlVars} :
    ∀ {bs : List (String × CErlVal)} (base : CErlVars), (∀ b ∈ bs, vars b.1 = some b.2) →
      x ∈ bs.map Prod.fst → bindVars bs base x = vars x
  | [], _, _, h => by cases h
  | (y, w) :: bs, base, hbs, h => by
    have htail := fun b hb => hbs b (mem_cons_of_mem _ hb)
    by_cases hmem : x ∈ bs.map Prod.fst
    · exact bindVars_of_agree (update base y (some w)) htail hmem
    · -- The last binding of `x` is this one.
      obtain rfl : x = y := (mem_cons.mp h).resolve_right hmem
      show bindVars bs (update base x (some w)) x = vars x
      rw [bindVars_of_not_mem hmem, update_self]
      exact (hbs (x, w) mem_cons_self).symm

/-- What is kept of a variable is its value. -/
theorem bindVars_captured {names : List String} (h : x ∈ names) (vars : CErlVars) :
    bindVars (captured vars names) (fun _ => none) x = vars x := by
  have hagree : ∀ b ∈ captured vars names, vars b.1 = some b.2 := by
    intro b hb
    obtain ⟨y, _, hy⟩ := mem_filterMap.mp hb
    obtain ⟨w, hw, rfl⟩ := Option.map_eq_some_iff.mp hy
    exact hw
  cases hx : vars x with
  | none =>
    refine bindVars_of_not_mem (fun hmem => ?_) _
    obtain ⟨b, hb, rfl⟩ := mem_map.mp hmem
    rw [hagree b hb] at hx
    cases hx
  | some w =>
    rw [← hx]
    refine bindVars_of_agree _ hagree (mem_map.mpr ⟨(x, w), ?_, rfl⟩)
    exact mem_filterMap.mpr ⟨x, h, by rw [hx]; rfl⟩

/-! ## Level by level -/

/-- The condition under which the arms are lifted. -/
structure ArmsLegal (scrut : String) (arms : List LoweredArm) : Prop where
  guards : ∀ arm ∈ arms, arm.guardIsSafe = true → arm.guard.isGuardExpr = true
  fresh : ArmsFresh scrut arms

variable {scrut : String}

theorem ArmsLegal.mono {arms' : List LoweredArm} (h : ArmsLegal scrut arms) (hsub : arms' ⊆ arms) :
    ArmsLegal scrut arms' :=
  ⟨fun arm harm => h.guards arm (hsub harm), h.fresh.mono hsub⟩

theorem ReadByArms.fresh {scrut x : String} (h : ReadByArms arms x) (hfresh : ArmsFresh scrut arms) :
    ¬ GeneratedVar scrut x := by
  obtain ⟨arm, harm, hx⟩ := h
  refine hfresh arm harm x ?_
  exact mem_append_left _ (mem_append_right _ (mem_filter.mp hx).1)

/-- The variable of the later arms holds their function, which means what they mean. -/
def RestBound (M : CErlMachine W) (v : CErlVal) (scrut : String) (depth : Nat)
    (later : List LoweredArm) (s t : CErlState W) : Prop :=
  ∃ vars fns, t.vars (restVar depth) = some (.closure [] (restExpr scrut depth later) vars fns) ∧
    ∀ w, SameEnd (Evaluates M (restExpr scrut depth later) ⟨w, bindVars vars fun _ => none, fns⟩)
      (Tries M v later (s.setWorld w)) ↔ LiftedGuardsEnd M v later (s.setWorld w)

/-- The clauses of one level mean what the arms mean if the function of the later arms does. -/
theorem sameEnd_level {s t : CErlState W} (depth : Nat) :
    ∀ {arms : List LoweredArm}, ArmsLegal scrut arms → AgreeOn (ReadByArms arms) s t →
      (∀ later, afterLifted arms = some later → RestBound M v scrut depth later s t) →
      (SameEnd (Selects M v (levelClauses depth arms) t) (Tries M v arms s) ↔
        LiftedGuardsEnd M v arms s)
  | [], _, hagree, _ => by
    refine iff_of_true ⟨fun r t' h => ?_, fun r₀ s' h => ?_⟩ trivial
    · obtain ⟨rfl, rfl⟩ := selects_nil.mp h
      exact ⟨.ok none, s, tries_nil.mpr ⟨rfl, rfl⟩, .noArm _ (.withValue v), hagree.world.symm⟩
    · obtain ⟨rfl, rfl⟩ := tries_nil.mp h
      exact ⟨_, t, selects_nil.mpr ⟨rfl, rfl⟩, .noArm _ (.withValue v), hagree.world.symm⟩
  | arm :: arms, hlegal, hagree, hlater => by
    have harm : arm ∈ arm :: arms := mem_cons_self
    have hreads : AgreeOn (· ∈ arm.reads) s t := hagree.mono fun x hx => ⟨arm, harm, hx⟩
    by_cases hsafe : arm.guardIsSafe = true
    · rw [levelClauses, if_pos hsafe]
      refine sameEnd_kept (hlegal.guards arm harm hsafe) hsafe hreads ?_
      refine sameEnd_level depth (hlegal.mono (subset_cons_self _ _)) (hagree.mono ?_) ?_
      · exact fun x ⟨arm', harm', hx⟩ => ⟨arm', mem_cons_of_mem _ harm', hx⟩
      · intro later h
        exact hlater later (by rw [afterLifted, if_pos hsafe]; exact h)
    · rw [levelClauses, if_neg hsafe]
      obtain ⟨vars, fns, hx, hrest⟩ := hlater arms (by rw [afterLifted, if_neg hsafe])
      have hgen : GeneratedVar scrut (restVar depth) := .inr ⟨depth, rfl⟩
      have hfresh := hlegal.fresh arm harm (restVar depth)
      refine sameEnd_lifted (by simpa using hsafe) hx (fun h => ?_) (fun h => ?_) hreads hrest
      · exact hfresh (mem_append_left _ (mem_append_left _ h)) hgen
      · exact hfresh (mem_append_right _ h) hgen

variable {r : Except CErlStop CErlVal}

theorem evaluates_caseVar {cs : List CErlClause} {t t' : CErlState W} (h : t.vars x = some v) :
    Evaluates M (.case (.var x) cs) t r t' ↔ Selects M v cs t r t' :=
  evaluates_case_ok ((evaluates_var h).mpr ⟨rfl, rfl⟩)

def restThunk (scrut : String) (depth : Nat) (later : List LoweredArm) (t : CErlState W) :
    CErlVal :=
  .closure [] (restExpr scrut depth later)
    (captured t.vars ((restExpr scrut depth later).freeVars.filter (· ∉ []))) t.fns

variable {idx : Nat}

/-- The code of a list of arms, over a scrutinee bound to `v`, means what the arms mean exactly if
no guard it lifts raises. -/
theorem sameEnd_lift : ∀ (k : Nat) {arms : List LoweredArm}, arms.length < k →
    ∀ (depth : Nat) {s t : CErlState W}, ArmsLegal (scrutVar idx) arms →
      AgreeOn (ReadByArms arms) s t → t.vars (scrutVar idx) = some v →
      (SameEnd (Evaluates M (liftGuardedMatchAtDepth (scrutVar idx) depth [] arms) t)
        (Tries M v arms s) ↔ LiftedGuardsEnd M v arms s) := by
  intro k
  induction k with
  | zero => exact fun h => absurd h (Nat.not_lt_zero _)
  | succ k ih =>
    intro arms hlen depth s t hlegal hagree hscrut
    rw [liftGuardedMatchAtDepth_eq]
    cases hafter : afterLifted arms with
    | none =>
      have hlevel := sameEnd_level (M := M) (v := v) depth hlegal hagree
        fun later h => by rw [hafter] at h; cases h
      rw [← hlevel]
      have hcode : Evaluates M (.case (.var (scrutVar idx)) ([] ++ levelClauses depth arms)) t =
          Selects M v (levelClauses depth arms) t :=
        funext fun r => funext fun t' => propext (evaluates_caseVar hscrut)
      rw [hcode]
    | some later =>
      have hsub := afterLifted_subset hafter
      have hlater := hlegal.mono hsub
      -- The state in which the function of the later arms is bound.
      let t₀ := t.bind [(restVar depth, restThunk (scrutVar idx) depth later t)]
      have hscrut₀ : t₀.vars (scrutVar idx) = some v := by
        show update t.vars _ _ _ = _
        rw [update_of_ne (scrutVar_ne_restVar idx depth), hscrut]
      have hagree₀ : AgreeOn (ReadByArms arms) s t₀ := by
        refine ⟨hagree.world, hagree.fns, fun x hx => ?_⟩
        have hne : x ≠ restVar depth := fun h => hx.fresh hlegal.fresh (.inr ⟨depth, h⟩)
        show update t.vars _ _ _ = _
        rw [update_of_ne hne, hagree.vars x hx]
      have hbound : RestBound M v (scrutVar idx) depth later s t₀ := by
        refine ⟨_, t.fns, update_self _ _ _, fun w => ?_⟩
        cases hl : later with
        | nil =>
          refine iff_of_true ⟨fun r t' h => ?_, fun r₀ s' h => ?_⟩ trivial
          · obtain ⟨rfl, rfl⟩ := evaluates_error.mp h
            exact ⟨.ok none, _, tries_nil.mpr ⟨rfl, rfl⟩, .noArm _ .bare, rfl⟩
          · obtain ⟨rfl, rfl⟩ := tries_nil.mp h
            exact ⟨_, _, evaluates_error.mpr ⟨rfl, rfl⟩, .noArm _ .bare, rfl⟩
        | cons arm₁ arms₁ =>
          rw [← hl]
          have hrest : restExpr (scrutVar idx) depth later =
              liftGuardedMatchAtDepth (scrutVar idx) (depth + 1) [] later := by rw [hl]; rfl
          -- The function has kept what the later arms read, and the scrutinee.
          have hkept : ∀ x, x = scrutVar idx ∨ ReadByArms later x → bindVars (captured t.vars
              ((restExpr (scrutVar idx) depth later).freeVars.filter (· ∉ []))) (fun _ => none) x =
                t.vars x := by
            intro x hx
            refine bindVars_captured (mem_filter.mpr ⟨?_, by simp⟩) t.vars
            rw [hrest]
            refine mem_freeVars_lift (fun d hd => ?_) later (depth + 1) []
              (hx.imp id .inr)
            rcases hx with rfl | hx
            · exact scrutVar_ne_restVar idx d hd
            · exact hx.fresh hlater.fresh (.inr ⟨d, hd⟩)
          have hlen' : later.length < k :=
            Nat.lt_of_lt_of_le (length_afterLifted hafter) (Nat.le_of_lt_succ hlen)
          have hih := @ih later hlen' (depth + 1) (s.setWorld w)
            ⟨w, bindVars (captured t.vars ((restExpr (scrutVar idx) depth later).freeVars.filter
              (· ∉ []))) (fun _ => none), t.fns⟩ hlater
            ⟨rfl, hagree.fns, fun x hx => ?_⟩ ?_
          · rw [← hrest] at hih
            exact hih
          · obtain ⟨arm, harm, hxa⟩ := hx
            exact (hkept x (.inr ⟨arm, harm, hxa⟩)).trans
              (hagree.vars x ⟨arm, hsub harm, hxa⟩)
          · exact (hkept _ (.inl rfl)).trans hscrut
      have hlevel := sameEnd_level (M := M) (v := v) depth hlegal hagree₀
        fun later' h => by
          rw [hafter] at h
          cases h
          exact hbound
      rw [← hlevel]
      refine sameEnd_congr (fun r => ⟨fun t' h => ?_, fun t' h => ?_⟩) fun r s' => Iff.rfl
      · rcases evaluates_letIn.mp h with ⟨e, _, he⟩ | ⟨w, t₁, t₂, hw, hbody, rfl⟩
        · cases (evaluates_funOf.mp he).1
        · obtain ⟨heq, rfl⟩ := evaluates_funOf.mp hw
          cases heq
          exact ⟨t₂, (evaluates_caseVar hscrut₀).mp hbody, rfl⟩
      · refine ⟨_, evaluates_letIn.mpr (.inr ⟨_, t, t', evaluates_funOf.mpr ⟨rfl, rfl⟩, ?_, rfl⟩),
          rfl⟩
        exact (evaluates_caseVar hscrut₀).mpr h

/-! ## A whole match -/

/-- What the emitted code does once the scrutinee has ended with `v`. -/
def ArmsCode (M : CErlMachine W) (idx : Nat) (v : CErlVal) (arms : List LoweredArm)
    (s : CErlState W) (r : Except CErlStop CErlVal) (s' : CErlState W) : Prop :=
  if arms.all LoweredArm.guardIsSafe then Selects M v (arms.map LoweredArm.keptClause) s r s'
  else ∃ t, Evaluates M (liftGuardedMatch (scrutVar idx) arms) (s.bind [(scrutVar idx, v)]) r t ∧
    s' = s.setWorld t.world

variable {s s' : CErlState W}

theorem ArmsCode.state (h : ArmsCode M idx v arms s r s') : s' = s.setWorld s'.world := by
  unfold ArmsCode at h
  split at h
  · exact h.state
  · obtain ⟨t, _, rfl⟩ := h
    rfl

variable {scrutinee : CErlExpr}

/-- The emitted code evaluates the scrutinee, once, and goes on from its value. -/
theorem evaluates_lowerMatch :
    Evaluates M (lowerMatch idx scrutinee arms) s r s' ↔
      (∃ e, r = .error e ∧ Evaluates M scrutinee s (.error e) s') ∨
        ∃ v s₁, Evaluates M scrutinee s (.ok v) s₁ ∧ ArmsCode M idx v arms s₁ r s' := by
  unfold lowerMatch ArmsCode
  split
  · exact evaluates_case
  · rw [evaluates_letIn]
    refine or_congr Iff.rfl (exists_congr fun v => exists_congr fun s₁ => ?_)
    rw [← exists_and_left]
    refine exists_congr fun t => and_congr_right fun _ => and_congr_right fun ht => ?_
    -- Leaving the `let`, every variable is again what it was.
    have hframe := Evaluates.untouched ht
    have hexports : (liftGuardedMatch (scrutVar idx) arms).exports = [] := by
      rw [liftGuardedMatch, liftGuardedMatchAtDepth_eq]
      split <;> rfl
    rw [hexports] at hframe
    have hvars : update t.vars (scrutVar idx) (s₁.vars (scrutVar idx)) = s₁.vars := by
      funext x
      by_cases hx : x = scrutVar idx
      · rw [hx, update_self]
      · rw [update_of_ne hx, hframe.vars x not_mem_nil]
        exact update_of_ne hx _ _
    rw [hvars]
    exact Iff.rfl

theorem means_iff {d : GuardRaise} {r : Except CErlStop (Option CErlVal)} :
    Means M d scrutinee arms s r s' ↔
      (∃ e, r = .error e ∧ Evaluates M scrutinee s (.error e) s') ∨
        ∃ v s₁, Evaluates M scrutinee s (.ok v) s₁ ∧
          Yields .timeout (fun n => orderedArms d (eval M n) v arms) s₁ r s' :=
  yields_bind (increasing_eval M scrutinee) fun v => increasing_orderedArms d v arms

/-- From the scrutinee's value on, the code means what the arms mean exactly if no guard it lifts
raises. -/
theorem sameEnd_armsCode (idx : Nat) (s : CErlState W) (hlegal : ArmsLegal (scrutVar idx) arms) :
    SameEnd (ArmsCode M idx v arms s) (Tries M v arms s) ↔ LiftedGuardsEnd M v arms s := by
  by_cases hsafe : arms.all LoweredArm.guardIsSafe = true
  · obtain ⟨hnone, hclauses⟩ := afterLifted_eq_none hsafe
    have hlevel := sameEnd_level (M := M) (v := v) 0 hlegal
      (AgreeOn.refl (ReadByArms arms) s) fun later h => by rw [hnone] at h; cases h
    rw [← hlevel, hclauses]
    have hcode : ArmsCode M idx v arms s =
        Selects M v (arms.map LoweredArm.keptClause) s :=
      funext fun r => funext fun s' => by rw [ArmsCode, if_pos hsafe]
    rw [hcode]
  · have hscrut : (s.bind [(scrutVar idx, v)]).vars (scrutVar idx) = some v :=
      update_self _ _ _
    have hagree : AgreeOn (ReadByArms arms) s (s.bind [(scrutVar idx, v)]) :=
      ⟨rfl, rfl, fun x hx =>
        update_of_ne (fun h => hx.fresh hlegal.fresh (.inl h)) _ _⟩
    rw [← sameEnd_lift (M := M) _ (Nat.lt_succ_self _) 0 hlegal hagree hscrut]
    refine sameEnd_congr (fun r => ⟨fun t h => ?_, fun t h => ?_⟩) fun r s' => Iff.rfl
    · rw [ArmsCode, if_neg hsafe] at h
      obtain ⟨t', ht', rfl⟩ := h
      exact ⟨t', ht', rfl⟩
    · refine ⟨s.setWorld t.world, ?_, rfl⟩
      rw [ArmsCode, if_neg hsafe]
      exact ⟨t, h, rfl⟩

/-- A module whose function `check` raises. -/
def checkModule : CErlMachine Unit where
  fns
    | "check", 1 => some (["V_N"], .call "erlang" "error" [.lit (.atom "check_failed")])
    | _, _ => none
  guardBif
    | "rem", [.int a, .int b], _ => if b = 0 then .error (.atom "badarith") else .ok (.int (a.tmod b))
    | "=:=", [.int a, .int b], _ => .ok (.atom (if a = b then "true" else "false"))
    | _, _, _ => .error (.atom "badarg")
  call := fun _ _ _ w => .done (.error ("error", .atom "undef")) w
  primOp := fun _ _ w => .done (.error ("error", .atom "undef")) w
  same := fun _ _ => false

/-- `m when check m -> value`. -/
def checkArm (value : Int) : LoweredArm :=
  ⟨.var "V_M", .apply (.localFnRef "check" 1) [.var "V_M"], .lit (.int value)⟩

/-- `m when Int.rem 1 m == 0 -> value`. -/
def remArm (value : Int) : LoweredArm :=
  ⟨.var "V_M", .call "erlang" "=:=" [.call "erlang" "rem" [.lit (.int 1), .var "V_M"],
    .lit (.int 0)], .lit (.int value)⟩

/-- `_ -> value`. -/
def lastArm (value : Int) : LoweredArm := ⟨.wild, litTrue, .lit (.int value)⟩

def emptyState : CErlState Unit := ⟨(), fun _ => none, []⟩

theorem armsFresh_of
    (h : ∀ arm ∈ arms, ∀ x ∈ arm.pattern.vars ++ (arm.guard.freeVars ++ arm.body.freeVars) ++
      arm.guard.exports, x.toList[3]? = none) : ArmsFresh (scrutVar idx) arms := by
  have hlong : ∀ x, GeneratedVar (scrutVar idx) x → x.toList[3]? ≠ none := by
    rintro x (rfl | ⟨d, rfl⟩)
    · simp only [scrutVar, ssaVar]
      split <;> simp [String.toList_append]
    · simp [restVar, String.toList_append]
  exact fun arm harm x hx hgen => hlong x hgen (h arm harm x hx)

theorem isCaseClause_atom {name : String} (h : IsCaseClause (.atom name)) :
    name = "case_clause" := by
  generalize hreason : CErlVal.atom name = reason at h
  cases h with
  | bare => exact CErlVal.atom.inj hreason
  | withValue v => cases hreason

end Ridge
