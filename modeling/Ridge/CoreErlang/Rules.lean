import Ridge.CoreErlang.Frame

/-!
# Rules of evaluation

How an expression ends, in terms of how its parts end: one rule for each form that a match is
made of.
-/

namespace Ridge

open Early CErlRun

variable {W : Type} {M : CErlMachine W} {s s' : CErlState W} {r : Except CErlStop CErlVal}
    {body : CErlExpr} {cs : List CErlClause}

/-- The state in which the bindings of a clause are in scope. -/
def CErlState.bind (s : CErlState W) (bs : List (String × CErlVal)) : CErlState W :=
  { s with vars := bindVars bs s.vars }

/-- The state behind a closed scope. -/
def CErlState.setWorld (s : CErlState W) (w : W) : CErlState W := { s with world := w }

/-- The value `v` selects a clause, which ends with `r`. -/
def Selects (M : CErlMachine W) (v : CErlVal) (cs : List CErlClause) (s : CErlState W)
    (r : Except CErlStop CErlVal) (s' : CErlState W) : Prop :=
  Yields .timeout (fun n => selectClause (eval M n) v cs) s r s'

theorem increasing_selectClause (v : CErlVal) (cs : List CErlClause) :
    Increasing .timeout fun n => selectClause (eval M n) v cs := by
  intro n m h s t hst hne
  have hall : ∀ x ∈ freeVarsClauses cs, (fun _ : String => True) x := fun _ _ => trivial
  have hsim := sim_selectClause (sim_eval M h) v hall s t (agreeOn_all.mpr hst) hne
  exact ⟨hsim.1, agreeOn_all.mp hsim.2⟩

theorem increasing_guardTest (e : CErlExpr) :
    Increasing .timeout fun n => guardTest (eval M n e) := by
  intro n m h s t hst hne
  have hsim := sim_guardTest (sim_eval M h e (fun _ => True) fun _ _ => trivial) s t
    (agreeOn_all.mpr hst) hne
  exact ⟨hsim.1, agreeOn_all.mp hsim.2⟩

variable {e : CErlExpr}

theorem Evaluates.unique {s₁ s₂ : CErlState W} {r₁ r₂ : Except CErlStop CErlVal}
    (h₁ : Evaluates M e s r₁ s₁) (h₂ : Evaluates M e s r₂ s₂) : r₁ = r₂ ∧ s₁ = s₂ :=
  Yields.unique (increasing_eval M e) h₁ h₂

theorem evaluates_step :
    Evaluates M e s r s' ↔ Yields .timeout (fun n => evalStep M (eval M n) e) s r s' :=
  (yields_succ (increasing_eval M e)).symm

variable {value : CErlLit}

theorem evaluates_lit : Evaluates M (.lit value) s r s' ↔ r = .ok (.ofLit value) ∧ s' = s :=
  evaluates_step.trans yields_pure

variable {v : CErlVal}

variable {x : String}

theorem evaluates_var (h : s.vars x = some v) :
    Evaluates M (.var x) s r s' ↔ r = .ok v ∧ s' = s := by
  rw [evaluates_step]
  show Yields .timeout (fun _ => readVar x) s r s' ↔ _
  have hread : (readVar x : CErlRun W CErlVal) s = (.ok v, s) := by
    show Early.bind (Early.read fun s => s.vars x) _ s = _
    rw [bind_of_ok (show Early.read (fun s : CErlState W => s.vars x) s = (.ok (some v), s) from
      congrArg (fun found => (Except.ok found, s)) h)]
    rfl
  rw [yields_const, hread]
  constructor
  · rintro ⟨_, heq⟩
    cases heq
    exact ⟨rfl, rfl⟩
  · rintro ⟨rfl, rfl⟩
    exact ⟨(nomatch ·), rfl⟩

theorem evaluates_funOf {params : List String} : Evaluates M (.funOf params body) s r s' ↔
      r = .ok (.closure params body (captured s.vars (body.freeVars.filter (· ∉ params))) s.fns) ∧
        s' = s := by
  rw [evaluates_step]
  show Yields .timeout (fun _ => CErlRun.capture params body) s r s' ↔ _
  rw [yields_const]
  constructor
  · rintro ⟨_, h⟩
    cases h
    exact ⟨rfl, rfl⟩
  · rintro ⟨rfl, rfl⟩
    exact ⟨(nomatch ·), rfl⟩

/-- `erlang:error/1` raises its argument. -/
theorem evaluates_error :
    Evaluates M (.call "erlang" "error" [.lit value]) s r s' ↔
      r = .error (.raised "error" (.ofLit value)) ∧ s' = s := by
  have hcall : ∀ n, callRemote M (eval M n) "erlang" "error" [.ofLit value] =
      CErlRun.raise "error" (.ofLit value) := by
    intro n
    have hguard : ¬ isGuardCall "erlang" "error" [CErlVal.ofLit value].length = true := by
      show ¬ isGuardCall "erlang" "error" 1 = true
      decide
    unfold callRemote
    rw [if_neg hguard]
    rfl
  have hargs : Increasing .timeout fun n => all (([.lit value] : List CErlExpr).map (eval M n)) :=
    fun n m hnm => Sim.all (.cons (increasing_eval M (.lit value) n m hnm) .nil)
  have hcalls : ∀ vs, Increasing .timeout fun n =>
      callRemote M (eval M n) "erlang" "error" vs := fun vs n m hnm s t hst hne => by
    have hsim := sim_callRemote (M := M) (sim_eval M hnm) (fun _ => True) "erlang" "error" vs s t
      (agreeOn_all.mpr hst) hne
    exact ⟨hsim.1, agreeOn_all.mp hsim.2⟩
  have hall : Yields .timeout (fun n => all (([.lit value] : List CErlExpr).map (eval M n))) s
      (.ok [.ofLit value]) s :=
    (yields_bind_ok (increasing_eval M (.lit value))
      (fun v => Increasing.const (bind (pure []) fun vs => pure (v :: vs)))
      (evaluates_lit.mpr ⟨rfl, rfl⟩)).mpr (yields_pure.mpr ⟨rfl, rfl⟩)
  rw [evaluates_step]
  refine (yields_bind_ok hargs hcalls hall).trans ?_
  simp only [hcall]
  exact yields_leave (by rintro ⟨⟩)

theorem evaluates_letIn {value : CErlExpr} : Evaluates M (.letIn x value body) s r s' ↔
      (∃ e, r = .error e ∧ Evaluates M value s (.error e) s') ∨
        ∃ v s₁ s₂, Evaluates M value s (.ok v) s₁ ∧
          Evaluates M body { s₁ with vars := Function.update s₁.vars x (some v) } r s₂ ∧
          s' = { s₂ with vars := Function.update s₂.vars x (s₁.vars x), fns := s₁.fns } := by
  rw [evaluates_step]
  refine (yields_bind (increasing_eval M value) fun v =>
    Increasing.within (increasing_eval M body)).trans (or_congr Iff.rfl ?_)
  refine exists_congr fun v => exists_congr fun s₁ => ?_
  rw [yields_within]
  exact (exists_and_left ..).symm

variable {scrutinee : CErlExpr}

theorem evaluates_case : Evaluates M (.case scrutinee cs) s r s' ↔
      (∃ e, r = .error e ∧ Evaluates M scrutinee s (.error e) s') ∨
        ∃ v s₁, Evaluates M scrutinee s (.ok v) s₁ ∧ Selects M v cs s₁ r s' :=
  evaluates_step.trans
    (yields_bind (increasing_eval M scrutinee) fun v => increasing_selectClause v cs)

variable {s₁ : CErlState W}

/-- A scrutinee that has a value hands it to the clauses. -/
theorem evaluates_case_ok (h : Evaluates M scrutinee s (.ok v) s₁) :
    Evaluates M (.case scrutinee cs) s r s' ↔ Selects M v cs s₁ r s' :=
  evaluates_step.trans
    (yields_bind_ok (increasing_eval M scrutinee) (fun v => increasing_selectClause v cs) h)

theorem evaluates_case_error {e : CErlStop} (h : Evaluates M scrutinee s (.error e) s₁) :
    Evaluates M (.case scrutinee cs) s r s' ↔ r = .error e ∧ s' = s₁ :=
  evaluates_step.trans
    (yields_bind_error (increasing_eval M scrutinee) (fun v => increasing_selectClause v cs) h)

/-- A function without parameters ends as its body does, over the variables it has kept. -/
theorem evaluates_thunk {vars : List (String × CErlVal)} {fns : CErlFns}
    (h : s.vars x = some (.closure [] body vars fns)) :
    Evaluates M (.apply (.var x) []) s r s' ↔
      ∃ s₁, Evaluates M body ⟨s.world, bindVars vars fun _ => none, fns⟩ r s₁ ∧
        s' = s.setWorld s₁.world := by
  rw [evaluates_step]
  have hnil : Increasing .timeout fun n => all (([] : List CErlExpr).map (eval M n)) :=
    Increasing.const (pure [])
  have happly : ∀ f vs, Increasing .timeout fun n => applyVal M (eval M n) f vs := by
    intro f vs n m hnm s t hst hne
    have hsim := sim_applyVal (M := M) (sim_eval M hnm) (fun _ => True) f vs s t
      (agreeOn_all.mpr hst) hne
    exact ⟨hsim.1, agreeOn_all.mp hsim.2⟩
  have hnone : ∀ f, Increasing .timeout fun n =>
      bind (all (([] : List CErlExpr).map (eval M n))) (applyVal M (eval M n) f) :=
    fun f => hnil.bind (happly f)
  refine (yields_bind_ok (increasing_eval M (.var x)) hnone
    ((evaluates_var h).mpr ⟨rfl, rfl⟩)).trans ?_
  show Yields .timeout (fun n => within
    (fun s => { s with vars := bindVars (vars ++ []) fun _ => none, fns := fns })
    (fun s s' => { s with world := s'.world }) (eval M n body)) s r s' ↔ _
  rw [yields_within, List.append_nil]
  exact Iff.rfl

/-! ## Clauses -/

theorem selects_nil :
    Selects M v [] s r s' ↔
      r = .error (.raised "error" (.tuple [.atom "case_clause", v])) ∧ s' = s := by
  have hne : CErlStop.raised "error" (.tuple [.atom "case_clause", v]) ≠ .timeout := by
    rintro ⟨⟩
  exact yields_leave hne

variable {pattern : CErlPat}

variable {guard : CErlExpr}

theorem selects_cons_of_none (h : pattern.match v = none) :
    Selects M v (.mk pattern guard body :: cs) s r s' ↔ Selects M v cs s r s' := by
  simp only [Selects, selectClause, h]

/-- How a guard ends, as its clause sees it. -/
def guardHolds : Except CErlStop CErlVal → Bool
  | .ok v => v.isTrue
  | .error _ => false

theorem yields_guardTest {r : Except CErlStop Bool} :
    Yields .timeout (fun n => guardTest (eval M n guard)) s r s' ↔
      ∃ r₁ s₁, Evaluates M guard s r₁ s₁ ∧ r = .ok (guardHolds r₁) ∧ s' = s := by
  constructor
  · rintro ⟨hr, n, h⟩
    have h : guardTest (eval M n guard) s = (r, s') := h
    unfold guardTest at h
    rcases hn : eval M n guard s with ⟨(⟨cls, reason⟩ | _) | v, s₁⟩ <;> rw [hn] at h <;> cases h
    · refine ⟨.error (.raised cls reason), s₁, ⟨?_, n, hn⟩, rfl, rfl⟩
      rintro ⟨⟩
    · exact absurd rfl hr
    · refine ⟨.ok v, s₁, ⟨?_, n, hn⟩, rfl, rfl⟩
      rintro ⟨⟩
  · rintro ⟨r₁, s₁, ⟨hr₁, n, h⟩, rfl, rfl⟩
    refine ⟨(nomatch ·), n, ?_⟩
    have h : eval M n guard s' = (r₁, s₁) := h
    show guardTest (eval M n guard) s' = _
    unfold guardTest
    rcases r₁ with (_ | _) | v
    · rw [h]; rfl
    · exact absurd rfl hr₁
    · rw [h]; rfl

variable {bs : List (String × CErlVal)}

/-- A clause whose pattern matches is taken if its guard holds, and passed over if not. -/
theorem selects_cons_of_some (h : pattern.match v = some bs) :
    Selects M v (.mk pattern guard body :: cs) s r s' ↔
      ∃ r₁ s₁, Evaluates M guard (s.bind bs) r₁ s₁ ∧
        if guardHolds r₁ then
          ∃ s₂, Evaluates M body (s.bind bs) r s₂ ∧ s' = s.setWorld s₂.world
        else Selects M v cs s r s' := by
  have hinc : ∀ holds : Bool, Increasing .timeout fun n =>
      if holds then CErlRun.inScope bs (eval M n body) else selectClause (eval M n) v cs := by
    intro holds
    cases holds with
    | true =>
      show Increasing .timeout fun n => CErlRun.inScope bs (eval M n body)
      exact Increasing.within (increasing_eval M body)
    | false => exact increasing_selectClause v cs
  have hbody : ∀ s₁ : CErlState W,
      Yields .timeout (fun n => CErlRun.inScope bs (eval M n body)) s₁ r s' ↔
        ∃ s₂, Evaluates M body (s₁.bind bs) r s₂ ∧ s' = s₁.setWorld s₂.world :=
    fun _ => yields_within
  simp only [Selects, selectClause, h]
  refine (yields_bind (Increasing.within (increasing_guardTest guard)) hinc).trans ?_
  constructor
  · rintro (⟨e, _, hg⟩ | ⟨holds, s₁, hg, hrest⟩)
    · obtain ⟨s₂, htest, _⟩ := yields_within.mp hg
      obtain ⟨r₁, s₃, _, hr₁, _⟩ := yields_guardTest.mp htest
      cases hr₁
    · obtain ⟨s₂, htest, rfl⟩ := yields_within.mp hg
      obtain ⟨r₁, s₃, hr₁, hholds, rfl⟩ := yields_guardTest.mp htest
      cases hholds
      refine ⟨r₁, s₃, hr₁, ?_⟩
      cases hgr : guardHolds r₁ with
      | true =>
        rw [hgr] at hrest
        exact (hbody s).mp hrest
      | false =>
        rw [hgr] at hrest
        exact hrest
  · rintro ⟨r₁, s₁, hr₁, hrest⟩
    refine .inr ⟨guardHolds r₁, s, ?_, ?_⟩
    · exact yields_within.mpr ⟨s.bind bs, yields_guardTest.mpr ⟨r₁, s₁, hr₁, rfl, rfl⟩, rfl⟩
    · cases hgr : guardHolds r₁ with
      | true =>
        rw [hgr] at hrest
        exact (hbody s).mpr hrest
      | false =>
        rw [hgr] at hrest
        exact hrest

/-- A clause without a guard is taken where its pattern matches. -/
theorem selects_unguarded (h : pattern.match v = some bs) :
    Selects M v (.mk pattern litTrue body :: cs) s r s' ↔
      ∃ s₂, Evaluates M body (s.bind bs) r s₂ ∧ s' = s.setWorld s₂.world := by
  rw [selects_cons_of_some h]
  constructor
  · rintro ⟨r₁, s₁, hr₁, hbody⟩
    obtain ⟨rfl, _⟩ := evaluates_lit.mp hr₁
    exact hbody
  · exact fun hbody => ⟨_, _, evaluates_lit.mpr ⟨rfl, rfl⟩, hbody⟩

end Ridge
