import Ridge.CoreErlang.Coincidence

/-!
# What an evaluation leaves behind

An evaluation closes every scope it opens: behind it only the variables that a `bindTuple`
exports have changed. A guard that Erlang accepts changes nothing at all.
-/

namespace Ridge

open Early Bool CErlRun

variable {W α : Type}

/-- The local functions, and the variables outside of `xs`, are as they were. -/
structure Untouched (xs : List String) (s s' : CErlState W) : Prop where
  fns : s'.fns = s.fns
  vars : ∀ x, x ∉ xs → s'.vars x = s.vars x

theorem Untouched.refl (xs : List String) (s : CErlState W) : Untouched xs s s :=
  ⟨rfl, fun _ _ => rfl⟩

theorem Untouched.trans {xs : List String} {s t u : CErlState W} (h : Untouched xs s t)
    (h' : Untouched xs t u) : Untouched xs s u :=
  ⟨h'.fns.trans h.fns, fun x hx => (h'.vars x hx).trans (h.vars x hx)⟩

instance (xs : List String) : IsTrans (CErlState W) (Untouched xs) where
  trans _ _ _ := Untouched.trans

section Scopes

variable {xs : List String}

theorem keeps_inScope (bs : List (String × CErlVal)) (m : CErlRun W α) :
    Keeps (Untouched xs) (CErlRun.inScope bs m) := fun _ => ⟨rfl, fun _ _ => rfl⟩

theorem keeps_frame (vars : CErlVars) (fns : CErlFns) (m : CErlRun W α) :
    Keeps (Untouched xs) (CErlRun.frame vars fns m) := fun _ => ⟨rfl, fun _ _ => rfl⟩

variable {m : CErlRun W α}

theorem keeps_withVar {x : String} {v : CErlVal} (h : Keeps (Untouched xs) m) :
    Keeps (Untouched xs) (withVar x v m) := by
  refine fun s => ⟨rfl, fun y hy => ?_⟩
  show Function.update (m { s with vars := Function.update s.vars x (some v) }).2.vars x
    (s.vars x) y = s.vars y
  by_cases hyx : y = x
  · rw [hyx, Function.update_self]
  · rw [Function.update_of_ne hyx, (h _).vars y hy]
    exact Function.update_of_ne hyx _ _

theorem keeps_withFns {fns : CErlFns} (h : Keeps (Untouched xs) m) :
    Keeps (Untouched xs) (withFns fns m) :=
  fun s => ⟨rfl, fun y hy => (h { s with fns := fns ++ s.fns }).vars y hy⟩

theorem keeps_readVar (x : String) : Keeps (Untouched xs) (readVar x : CErlRun W CErlVal) := by
  refine Keeps.bind (Untouched.refl xs) fun found => ?_
  cases found with
  | some v | none => exact Untouched.refl xs

theorem keeps_exportTuple {names : List String} (h : names ⊆ xs) (v : CErlVal) :
    Keeps (Untouched xs) (exportTuple names v : CErlRun W CErlVal) := by
  unfold exportTuple
  split
  · split
    · refine Keeps.bind (fun s => ⟨rfl, fun x hx => ?_⟩) fun _ => Untouched.refl xs
      refine bindVars_of_not_mem (fun hmem => hx (h ?_)) s.vars
      obtain ⟨b, hb, rfl⟩ := List.mem_map.mp hmem
      exact (List.of_mem_zip hb).1
    · exact Untouched.refl xs
  · exact Untouched.refl xs

end Scopes

/-! ## One step -/

section Step

variable {M : CErlMachine W} {ev : CErlExpr → CErlRun W CErlVal} {xs : List String}

theorem keeps_applyVal (f : CErlVal) (args : List CErlVal) :
    Keeps (Untouched xs) (applyVal M ev f args) := by
  cases f with
  | closure params body vars fns | recFun params body defs vars fns =>
    simp only [applyVal]
    split
    · exact keeps_frame _ _ _
    · exact Untouched.refl xs
  | localFn name arity =>
    simp only [applyVal]
    split
    · split
      · exact keeps_frame _ _ _
      · exact Untouched.refl xs
    · exact Untouched.refl xs
  | _ => exact Untouched.refl xs

theorem keeps_runForeign (code : W → Foreign W CErlVal (String × CErlVal)) :
    Keeps (Untouched xs) (runForeign M ev code) :=
  Keeps.bind (Untouched.refl xs) fun w =>
    Foreign.keeps_run (Untouched.refl xs) (fun _ _ => ⟨rfl, fun _ _ => rfl⟩)
      keeps_applyVal (code w)

theorem keeps_callRemote (module fnName : String) (vs : List CErlVal) :
    Keeps (Untouched xs) (callRemote M ev module fnName vs) := by
  unfold callRemote
  split
  · refine Keeps.bind (Untouched.refl xs) fun answer => ?_
    cases answer with
    | ok v | error reason => exact Untouched.refl xs
  · split
    · exact Untouched.refl xs
    · exact keeps_runForeign _

theorem keeps_selectClause (v : CErlVal) :
    ∀ cs : List CErlClause, Keeps (Untouched xs) (selectClause ev v cs)
  | [] => Untouched.refl xs
  | .mk pattern guard body :: cs => by
    simp only [selectClause]
    split
    · exact keeps_selectClause v cs
    · refine Keeps.bind (keeps_inScope _ _) fun holds => ?_
      cases holds with
      | true => exact keeps_inScope _ _
      | false => exact keeps_selectClause v cs

/-- What the evaluator is shown to leave alone in the parts of an expression. -/
def KeepsParts (ev : CErlExpr → CErlRun W CErlVal) : Prop :=
  ∀ e xs, e.exports ⊆ xs → Keeps (Untouched xs) (ev e)

variable (hev : KeepsParts ev)
include hev

theorem keeps_evalAll {es : List CErlExpr} (h : exportsList es ⊆ xs) :
    Keeps (Untouched xs) (all (es.map ev)) := by
  refine Keeps.all (Untouched.refl xs) fun m hm => ?_
  obtain ⟨e, he, rfl⟩ := List.mem_map.mp hm
  exact hev e xs fun x hx => h (exports_subset_list he hx)

theorem keeps_evalPairs : ∀ {ps : List (CErlExpr × CErlExpr)}, exportsPairs ps ⊆ xs →
    Keeps (Untouched xs) (all ((pairOperands ps).map ev))
  | [], _ => Untouched.refl xs
  | (k, v) :: ps, h => by
    simp only [exportsPairs, List.append_subset] at h
    refine Keeps.bind (hev k xs h.1) fun _ =>
      Keeps.bind ?_ fun _ => Untouched.refl xs
    exact Keeps.bind (hev v xs h.2.1) fun _ =>
      Keeps.bind (keeps_evalPairs h.2.2) fun _ => Untouched.refl xs

theorem keeps_evalStep : KeepsParts (evalStep M ev) := by
  intro e xs h
  cases e with
  | lit value => exact Untouched.refl xs
  | var name => exact keeps_readVar name
  | funOf params body => exact Untouched.refl xs
  | apply callee args =>
    simp only [CErlExpr.exports, List.append_subset] at h
    exact Keeps.bind (hev callee xs h.1) fun f =>
      Keeps.bind (keeps_evalAll hev h.2) fun vs => keeps_applyVal f vs
  | call module fnName args =>
    exact Keeps.bind (keeps_evalAll hev h) fun vs =>
      keeps_callRemote module fnName vs
  | primOp name args =>
    exact Keeps.bind (keeps_evalAll hev h) fun vs => keeps_runForeign _
  | localFnRef name arity => exact Untouched.refl xs
  | letIn var value body =>
    simp only [CErlExpr.exports, List.append_subset] at h
    exact Keeps.bind (hev value xs h.1) fun v =>
      keeps_withVar (hev body xs h.2)
  | bindTuple result state value =>
    simp only [CErlExpr.exports, List.cons_subset, List.append_subset] at h
    refine Keeps.bind (hev value xs h.2.2) fun v => keeps_exportTuple ?_ v
    exact List.cons_subset.mpr ⟨h.1, h.2.1⟩
  | letRec defs body =>
    exact Keeps.bind (Untouched.refl xs) fun fns =>
      keeps_withFns (hev body xs h)
  | case scrutinee clauses =>
    exact Keeps.bind (hev scrutinee xs h) fun v => keeps_selectClause v clauses
  | seq first rest =>
    simp only [CErlExpr.exports, List.append_subset] at h
    exact Keeps.bind (hev first xs h.1) fun _ => hev rest xs h.2
  | tuple elems =>
    exact Keeps.bind (keeps_evalAll hev h) fun vs => Untouched.refl xs
  | cons head tail =>
    simp only [CErlExpr.exports, List.append_subset] at h
    exact Keeps.bind (hev head xs h.1) fun v =>
      Keeps.bind (hev tail xs h.2) fun w => Untouched.refl xs
  | listLit elems =>
    exact Keeps.bind (keeps_evalAll hev h) fun vs => Untouched.refl xs
  | mapLit pairs =>
    exact Keeps.bind (keeps_evalPairs hev h) fun vs => Untouched.refl xs
  | mapUpdate base updates =>
    simp only [CErlExpr.exports, List.append_subset] at h
    refine Keeps.bind (hev base xs h.1) fun b =>
      Keeps.bind (keeps_evalPairs hev h.2) fun vs => ?_
    cases b with
    | map pairs | _ => exact Untouched.refl xs
  | tryOf body ofs catches =>
    have htry : Keeps (Untouched xs) (ending CErlRun.tryEnd (CErlRun.inScope [] (ev body))) :=
      keeps_inScope [] (ev body)
    refine Keeps.bind htry fun answer => ?_
    cases answer with
    | ok v => exact keeps_selectClause v ofs
    | error x => exact keeps_selectClause _ catches

end Step

theorem keeps_eval (M : CErlMachine W) (n : Nat) : KeepsParts (eval M n) := by
  induction n with
  | zero => exact fun _ xs _ => Untouched.refl xs
  | succ n ih => exact keeps_evalStep ih

variable {e : CErlExpr} {s s' : CErlState W} {r : Except CErlStop CErlVal}

/-- Behind an evaluation only exported variables have changed. -/
theorem Evaluates.untouched {M : CErlMachine W} (h : Evaluates M e s r s') :
    Untouched e.exports s s' := by
  obtain ⟨_, n, hn⟩ := h
  have hkeeps := keeps_eval M n e e.exports (fun _ hx => hx) s
  rwa [show eval M n e s = (r, s') from hn] at hkeeps

/-! ## Guards -/

/-- What the evaluator is shown to do with the guards among the parts of an expression. -/
def GuardsPure (ev : CErlExpr → CErlRun W CErlVal) : Prop :=
  ∀ e, e.isGuardExpr = true → Keeps Eq (ev e)

section Guards

variable {M : CErlMachine W} {ev : CErlExpr → CErlRun W CErlVal}

theorem pure_callGuard {module fnName : String} {vs : List CErlVal}
    (h : isGuardCall module fnName vs.length = true) :
    Keeps Eq (callRemote M ev module fnName vs) := by
  unfold callRemote
  rw [if_pos h]
  refine Keeps.bind (fun _ => rfl) fun answer => ?_
  cases answer with
  | ok v | error reason => exact fun _ => rfl

/-- The values of a list of operands are as many as the operands. -/
theorem length_of_all {σ ε β : Type} {ms : List (Early σ ε β)} :
    ∀ {s s' : σ} {vs : List β}, all ms s = (.ok vs, s') → vs.length = ms.length := by
  induction ms with
  | nil =>
    intro s s' vs h
    cases h
    rfl
  | cons m ms ih =>
    intro s s' vs h
    rw [all] at h
    rcases hm : m s with ⟨e | a, s₁⟩
    · rw [bind_of_error hm] at h
      cases h
    · rw [bind_of_ok hm] at h
      rcases hms : all ms s₁ with ⟨e | as, s₂⟩
      · rw [bind_of_error hms] at h
        cases h
      · rw [bind_of_ok hms] at h
        cases h
        simp only [List.length_cons, ih hms]

variable (hev : GuardsPure ev)
include hev

theorem pure_evalAll : ∀ {es : List CErlExpr}, CErlExpr.allGuardExprs es = true →
    Keeps Eq (all (es.map ev))
  | [], _ => fun _ => rfl
  | e :: es, h => by
    simp only [CErlExpr.allGuardExprs, and_eq_true] at h
    exact Keeps.bind (hev e h.1) fun _ =>
      Keeps.bind (pure_evalAll h.2) fun _ _ => rfl

theorem pure_evalPairs : ∀ {ps : List (CErlExpr × CErlExpr)},
    CErlExpr.allGuardPairs ps = true → Keeps Eq (all ((pairOperands ps).map ev))
  | [], _ => fun _ => rfl
  | (k, v) :: ps, h => by
    simp only [CErlExpr.allGuardPairs, and_eq_true] at h
    refine Keeps.bind (hev k h.1.1) fun _ => Keeps.bind ?_ fun _ _ => rfl
    exact Keeps.bind (hev v h.1.2) fun _ =>
      Keeps.bind (pure_evalPairs h.2) fun _ _ => rfl

theorem pure_evalStep : GuardsPure (evalStep M ev) := by
  intro e h
  cases e with
  | lit value => exact fun _ => rfl
  | var name =>
    refine Keeps.bind (fun _ => rfl) fun found => ?_
    cases found with
    | some v | none => exact fun _ => rfl
  | call module fnName args =>
    simp only [CErlExpr.isGuardExpr, and_eq_true] at h
    intro s
    -- As many values reach the call as it has operands.
    rcases hall : all (args.map ev) s with ⟨x | vs, s'⟩
    · have hs' := pure_evalAll hev h.2 s
      rw [hall] at hs'
      show s = (bind (all (args.map ev)) (callRemote M ev module fnName) s).2
      rw [bind_of_error hall]
      exact hs'
    · have hs' := pure_evalAll hev h.2 s
      rw [hall] at hs'
      have hlen : vs.length = args.length := by rw [length_of_all hall, List.length_map]
      show s = (bind (all (args.map ev)) (callRemote M ev module fnName) s).2
      rw [bind_of_ok hall]
      exact hs'.trans (pure_callGuard (by rw [hlen]; exact h.1) s')
  | tuple elems | listLit elems => exact Keeps.bind (pure_evalAll hev h) fun _ _ => rfl
  | cons head tail =>
    simp only [CErlExpr.isGuardExpr, and_eq_true] at h
    exact Keeps.bind (hev head h.1) fun _ =>
      Keeps.bind (hev tail h.2) fun _ _ => rfl
  | mapLit pairs => exact Keeps.bind (pure_evalPairs hev h) fun _ _ => rfl
  | mapUpdate base updates =>
    simp only [CErlExpr.isGuardExpr, and_eq_true] at h
    refine Keeps.bind (hev base h.1) fun b =>
      Keeps.bind (pure_evalPairs hev h.2) fun vs => ?_
    cases b with
    | map pairs | _ => exact fun _ => rfl
  | _ => cases h

end Guards

theorem pure_eval (M : CErlMachine W) (n : Nat) : GuardsPure (eval M n) := by
  induction n with
  | zero => exact fun _ _ _ => rfl
  | succ n ih => exact pure_evalStep ih

/-- A guard that Erlang accepts has no effect. -/
theorem Evaluates.pure {M : CErlMachine W} (h : Evaluates M e s r s') (he : e.isGuardExpr = true) :
    s' = s := by
  obtain ⟨_, n, hn⟩ := h
  have hkeeps := pure_eval M n e he s
  rw [show eval M n e s = (r, s') from hn] at hkeeps
  exact hkeeps.symm

end Ridge
