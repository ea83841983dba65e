import Ridge.Applied.Runs

/-!
# When an application is one thing

A call with all its arguments is, of every kind of callee; a call with fewer is not: the lambda that
stands for it evaluates the arguments given when it is called, a class method and a computed callee
get no lambda, and a constructor builds its value too early. A pipe adds its argument to a call
without asking how many the callee takes, and knows neither constructors nor the functions of
`std.actor`.
-/

namespace Ridge.Applied

open List Option

variable {F D : Type} {W : World F D} {S : Site F D} {args : List Arg} {n : Nat} {head : Head F}
    {callee : Callee F}

/-! ## Arguments -/

def Arg.isUnit : Arg → Bool
  | .unit => true
  | _ => false

/-- The lowered arguments. -/
def argIrs (i : Nat) : List Arg → List (Ir F)
  | [] => []
  | a :: as => .arg i a.isUnit :: argIrs (i + 1) as

theorem length_argIrs (i : Nat) (args : List Arg) :
    (argIrs i args : List (Ir F)).length = args.length := by
  induction args generalizing i with
  | nil => rfl
  | cons a as ih =>
    show (argIrs (i + 1) as).length + 1 = as.length + 1
    rw [ih]

theorem lowerArgsFrom_eq (h : ∀ a ∈ args, a.isMessage = false) (i : Nat) :
    (lowerArgsFrom i args : Except LowerError (List (Ir F))) = .ok (argIrs i args) := by
  induction args generalizing i with
  | nil => rfl
  | cons a as ih =>
    rw [forall_mem_cons] at h
    cases a with
    | message b => cases h.1
    | expr | unit =>
      unfold lowerArgsFrom
      rw [ih h.2]
      rfl

theorem argIrs_lambdas (i : Nat) (args : List Arg) (n : Nat) :
    ∀ e ∈ (argIrs i args : List (Ir F)), e.LambdasOf n := by
  induction args generalizing i with
  | nil => exact nofun
  | cons a as ih =>
    show ∀ e ∈ .arg i a.isUnit :: argIrs (i + 1) as, _
    rw [forall_mem_cons]
    exact ⟨.arg _ _, ih (i + 1)⟩

variable {ps : List (Val F D)}

theorem evalAll_argIrs (i : Nat) (args : List Arg) : evalAll W S ps (argIrs i args) =
    some (argEvents i args.length, argVals S i args.length) := by
  induction args generalizing i with
  | nil => rfl
  | cons a as ih =>
    show evalAll W S ps (.arg i a.isUnit :: argIrs (i + 1) as) = _
    rw [evalAll_cons, ih]
    rfl

theorem evalAll_append {es fs : List (Ir F)} {l m : List Event} {vs ws : List (Val F D)}
    (he : evalAll W S ps es = some (l, vs)) (hf : evalAll W S ps fs = some (m, ws)) :
    evalAll W S ps (es ++ fs) = some (l ++ m, vs ++ ws) := by
  induction es generalizing l vs with
  | nil =>
    cases he
    exact hf
  | cons e es ih =>
    rw [evalAll_cons] at he
    rw [cons_append, evalAll_cons]
    split at he
    · next l₁ v l₂ vs₂ h₁ h₂ =>
      cases he
      rw [h₁, ih h₂]
      simp only [append_assoc, cons_append]
    · cases he

theorem evalAll_dicts (ds : List Nat) :
    evalAll W S ps (ds.map .dict) = some ([], ds.map S.dict) := by
  induction ds with
  | nil => rfl
  | cons d ds ih =>
    rw [map_cons, evalAll_cons, ih]
    rfl

theorem evalAll_params (i n : Nat) (h : i + n = ps.length) :
    evalAll W S ps ((List.range' i n).map .param) = some ([], ps.drop i) := by
  induction n generalizing i with
  | zero =>
    rw [drop_eq_nil_of_le (by omega)]
    rfl
  | succ n ih =>
    have hi : i < ps.length := by omega
    rw [range'_succ, map_cons, evalAll_cons, ih (i + 1) (by omega), eval_param,
      getElem?_eq_getElem hi, drop_eq_getElem_cons hi]
    rfl

/-! ## Calls -/

/-- The heads whose call is a call of a function value. -/
def Head.Plain (head : Head F) : Prop := head.isActor = false ∧ head.isCtor = false

theorem Head.kinds (head : Head F) : (∃ op ty, head = .named (.actor op) ty) ∨
    (∃ c, head = .ctor c) ∨ head.Plain := by
  match head with
  | .named (.actor op) ty => exact .inl ⟨op, ty, rfl⟩
  | .ctor c => exact .inr (.inl ⟨c, rfl⟩)
  | .named (.localValue _) _ | .named (.function _ _) _ | .named (.constant _) _
  | .named (.method _ _ _) _ | .computed _ => exact .inr (.inr ⟨rfl, rfl⟩)

/-- The values of the dictionaries a callee takes. -/
def dictVals (S : Site F D) : Head F → List (Val F D)
  | .named (.function _ dicts) _ => dicts.map S.dict
  | _ => []

theorem evalAll_dictArgs (head : Head F) :
    evalAll W S ps (dictArgs head) = some ([], dictVals S head) := by
  match head with
  | .named (.function f dicts) _ => exact evalAll_dicts dicts
  | .named (.localValue _) _ => rfl
  | .named (.constant _) _ => rfl
  | .named (.method _ _ _) _ => rfl
  | .named (.actor _) _ => rfl
  | .ctor _ => rfl
  | .computed _ => rfl

theorem callValue_isSome {v : Val F D} (hv : IsFn W v n) (vs : List (Val F D)) :
    (callValue W v vs).isSome = true ↔ vs.length = n := by
  obtain ⟨f, rfl, hf⟩ := hv
  show (if vs.length = W.arity f then some (W.run f vs) else none).isSome = true ↔ _
  rw [hf]
  split <;> simp [*]

/-- The full call of a function value answers exactly as many arguments as it takes. -/
theorem full_isSome (hplain : head.Plain) (htyped : Typed W S head) (vs : List (Val F D)) :
    (full W S head vs).isSome = true ↔ vs.length = params W S head := by
  match head with
  | .named (.localValue x) ty | .named (.constant c) ty
  | .named (.method d m _) ty => exact callValue_isSome htyped vs
  | .named (.function f dicts) ty =>
    have hcall := callValue_isSome ⟨f, rfl, htyped.2⟩ (dicts.map S.dict ++ vs)
    rw [length_append, length_map, Nat.add_left_cancel_iff] at hcall
    exact hcall
  | .computed shape =>
    obtain ⟨n, hn⟩ := htyped
    have hparams : params W S (.computed shape) = n := by
      obtain ⟨f, hf, hfn⟩ := hn
      unfold params
      rw [hf]
      exact hfn
    rw [hparams]
    exact callValue_isSome hn vs
  | .named (.actor _) _ => cases hplain.1
  | .ctor _ => cases hplain.2

/-- The call of a lowered callee does what the full call does, unless it is taken for a call
without arguments. -/
theorem eval_call (hplain : head.Plain) {as : List (Ir F)} {l : List Event} {vs : List (Val F D)}
    (has : evalAll W S ps as = some (l, vs))
    (hunit : ∀ name ty, head = .named name ty → isUnitCall (dictArgs head ++ as) = true →
      Typed W S head ∧ params W S head ≠ 0) :
    eval W S ps (.call (lowerTarget head) (dictArgs head ++ as)) =
      (full W S head vs).map fun v => (calleeEvents head ++ l, v) := by
  have hall := evalAll_append (evalAll_dictArgs head) has
  match head with
  | .named (.localValue x) ty =>
    show eval W S ps (.call (.localValue x) _) = _
    rw [eval_call_value (e := .localValue x) ps _ nofun nofun nofun, hall]
    rfl
  | .named (.constant c) ty =>
    show eval W S ps (.call (.constant c) _) = _
    rw [eval_call_value (e := .constant c) ps _ nofun nofun nofun, hall]
    rfl
  | .named (.method d m _) ty =>
    show eval W S ps (.call (.method d m) _) = _
    rw [eval_call_value (e := .method d m) ps _ nofun nofun nofun, hall]
    rfl
  | .computed _ =>
    show eval W S ps (.call .callee _) = _
    rw [eval_call_value (e := .callee) ps _ nofun nofun nofun, hall]
    rfl
  | .named (.function f dicts) ty =>
    have hno : ¬ (W.arity f = 0 ∧
        isUnitCall (dictArgs (.named (.function f dicts) ty) ++ as) = true) := by
      rintro ⟨hzero, hcall⟩
      obtain ⟨⟨_, harity⟩, hparams⟩ := hunit _ _ rfl hcall
      exact hparams (show ty.params = 0 by omega)
    show (if W.arity f = 0 ∧ isUnitCall _ then some ([], W.run f []) else _) = _
    rw [if_neg hno, hall]
    simp [full, dictVals, calleeEvents]
  | .named (.actor _) _ => cases hplain.1
  | .ctor _ => cases hplain.2

theorem isUnitCall_length {as : List (Ir F)} (h : isUnitCall as = true) : as.length = 1 := by
  unfold isUnitCall at h
  split at h
  · rfl
  · cases h

theorem lowerTarget_lambdas (head : Head F) (n : Nat) : (lowerTarget head).LambdasOf n := by
  match head with
  | .named (.localValue _) _ => exact .localValue _
  | .named (.function _ _) _ => exact .function _
  | .named (.constant _) _ => exact .constant _
  | .named (.method _ _ _) _ => exact .method _ _
  | .named (.actor _) _ => exact .actor _
  | .ctor (.prelude _) => exact .prelude _
  | .ctor (.union _) => exact .construct nofun
  | .computed _ => exact .callee

theorem dictArgs_lambdas (head : Head F) (n : Nat) : ∀ e ∈ dictArgs head, e.LambdasOf n := by
  unfold dictArgs
  split
  · intro e he
    obtain ⟨d, -, rfl⟩ := mem_map.mp he
    exact .dict d
  · exact nofun

/-- The call of a lowered callee with its dictionaries and the lowered arguments. -/
def plainCall (head : Head F) (args : List Arg) : Ir F :=
  .call (lowerTarget head) (dictArgs head ++ argIrs 0 args)

theorem plainCall_lambdas (head : Head F) (args : List Arg) (n : Nat) :
    (plainCall head args).LambdasOf n := by
  refine .call (lowerTarget_lambdas head n) fun a ha => ?_
  rcases mem_append.mp ha with hdict | harg
  · exact dictArgs_lambdas head n a hdict
  · exact argIrs_lambdas 0 args n a harg

theorem eval_plainCall (hplain : head.Plain) (htyped : Typed W S head)
    (hargs : ∀ name ty, head = .named name ty → args.length = 1 → params W S head ≠ 0) :
    eval W S ps (plainCall head args) = (full W S head (argVals S 0 args.length)).map fun v =>
      (calleeEvents head ++ argEvents 0 args.length, v) := by
  refine eval_call hplain (evalAll_argIrs 0 args) fun name ty hhead hunit => ⟨htyped, ?_⟩
  have hlen := isUnitCall_length hunit
  rw [length_append, length_argIrs] at hlen
  rcases Nat.eq_zero_or_pos args.length with hzero | hpos
  · -- the one argument would be a dictionary
    obtain rfl := length_eq_zero_iff.mp hzero
    unfold dictArgs at hunit
    split at hunit
    · next f ds ty =>
      cases ds with
      | nil => cases hunit
      | cons d ds => cases hunit
    · cases hunit
  · exact hargs name ty hhead (by omega)

theorem length_argVals (i k : Nat) : (argVals S i k).length = k := by
  unfold argVals
  rw [length_map, length_range']

/-- The call of a function value comes out exactly when it gets all its arguments. -/
theorem eval_plainCall_isSome (hplain : head.Plain) (htyped : Typed W S head)
    (hargs : ∀ name ty, head = .named name ty → args.length = 1 → params W S head ≠ 0) :
    (eval W S ps (plainCall head args)).isSome = true ↔ args.length = params W S head := by
  rw [eval_plainCall hplain htyped hargs, isSome_map, full_isSome hplain htyped,
    length_argVals]

/-! ## Pipes -/

/-- The condition: a call gives all the arguments, or none to a name that takes none; a pipe
completes the arguments of a function value; what stands alone is no function of `std.actor`, and a
constructor only if it has no payload. -/
def Complete (W : World F D) (S : Site F D) (n : Nat) : App F → Prop
  | .call callee args => (0 < n ∧ args.length = n) ∨
    n = 0 ∧ ∃ name ty, callee.head = .named name ty
  | .pipeCall _ callee args _ => callee.head.Plain ∧ args.length + 1 = params W S callee.head
  | .pipe _ callee => n = 1 ∧ pipeable callee.head = true
  | .value callee => callee.head.isActor = false ∧ (callee.head.isCtor = true → n = 0)

theorem placed_plain (hactor : head.isActor = false) (h : Placed head args) :
    ∀ a ∈ args, a.isMessage = false := by
  intro a ha
  obtain ⟨i, hi⟩ := mem_iff_getElem?.mp ha
  by_contra hmessage
  have hplaced := (h i a hi).mp (by simpa using hmessage)
  rw [hactor] at hplaced
  cases hplaced.1

theorem preludeArity_le {c : String} (h : preludeArity c = some n) : n ≤ 1 := by
  unfold preludeArity at h
  split at h
  · cases h
    omega
  · split at h
    · cases h
      omega
    · cases h

variable {lhs : Arg}

theorem lowerPipeCall_plain (hactor : callee.head.isActor = false)
    (h : Placed callee.head (args ++ [lhs])) :
    lowerPipeCall lhs callee args = .ok (plainCall callee.head (args ++ [lhs])) := by
  unfold lowerPipeCall
  rw [lowerArgsFrom_eq (placed_plain hactor h)]
  rfl

theorem lowerPipeCall_target {ir : Ir F} (h : lowerPipeCall lhs callee args = .ok ir) :
    ∃ as, ir = .call (lowerTarget callee.head) as := by
  unfold lowerPipeCall at h
  split at h
  · cases h
  · cases h
    exact ⟨_, rfl⟩

/-- A function value that is piped its last argument. -/
theorem pipe_complete {app : App F} (hlower : lowerApp app = .ok (plainCall head args))
    (hplain : head.Plain) (htyped : Typed W S head) (hargs : args.length = params W S head)
    (hpos : 0 < args.length) (hgiven : given W S app = n) (hsat : Saturated W S n app)
    (hexpected : expected W S app = calleeEvents head ++ argEvents 0 args.length)
    (hwhole : whole W S [] app = full W S head (argVals S 0 args.length)) : OneThing W S n app := by
  have hshim : params W S head ≠ 0 := hargs ▸ Nat.ne_of_gt hpos
  obtain ⟨v, hv⟩ := isSome_iff_exists.mp
    ((full_isSome hplain htyped (argVals S 0 args.length)).mpr (by rw [length_argVals, hargs]))
  refine ⟨_, calleeEvents head ++ argEvents 0 args.length, v, hlower, plainCall_lambdas _ _ _, ?_,
    ?_, ?_⟩
  · rw [eval_plainCall hplain htyped fun _ _ _ _ => hshim, hv]
    rfl
  · rw [hexpected]
  · intro rest hrest
    rw [hgiven, Nat.sub_self] at hrest
    obtain rfl := length_eq_zero_iff.mp hrest
    exact ⟨fun _ => hwhole.trans hv, fun hno => absurd hsat hno⟩

variable {parens : Bool}

theorem pipeCall_no_prelude {c : String} (hhead : callee.head = .ctor (.prelude c)) :
    ¬ Accepted W S n (.pipeCall lhs callee args parens) := by
  intro h
  have hle : params W S callee.head ≤ 1 := by
    rw [hhead]
    show (preludeArity c).getD 0 ≤ 1
    cases harity : preludeArity c with
    | none => exact Nat.zero_le 1
    | some k => exact preludeArity_le harity
  cases parens with
  | false =>
    obtain ⟨-, hparams, -, -, hpos, hn⟩ := h
    omega
  | true =>
    obtain ⟨-, -, -, hpos, hn, hleft | ⟨g, hg, ⟨f, rfl, -⟩, -⟩⟩ := h
    · omega
    · rw [hhead] at hg
      cases hg

theorem pipeCall_iff (h : Accepted W S n (.pipeCall lhs callee args parens)) :
    OneThing W S n (.pipeCall lhs callee args parens) ↔
      Complete W S n (.pipeCall lhs callee args parens) := by
  obtain ⟨htyped, hplaced, hpos, hn⟩ : Typed W S callee.head ∧
      Placed callee.head (args ++ [lhs]) ∧ 0 < args.length ∧
      (args.length + 1 = params W S callee.head →
        n = given W S (.pipeCall lhs callee args parens)) := by
    cases parens with
    | false =>
      obtain ⟨htyped, hparams, hplaced, -, hpos, -⟩ := h
      exact ⟨htyped, hplaced, hpos, fun heq => (heq.trans hparams).symm⟩
    | true =>
      obtain ⟨htyped, -, hplaced, hpos, hn, hfn⟩ := h
      refine ⟨htyped, hplaced, hpos, fun heq => ?_⟩
      show n = 1
      rcases hfn with hleft | ⟨-, -, -, hsame | ⟨hzero, -⟩⟩
      · omega
      · omega
      · omega
  have hlen : (args ++ [lhs]).length = args.length + 1 := length_append
  constructor
  · rintro ⟨ir, log, v, hlower, -, heval, -, -⟩
    obtain ⟨as, has⟩ := lowerPipeCall_target hlower
    rcases callee.head.kinds with ⟨op, ty, hhead⟩ | ⟨c, hhead⟩ | hplain
    · rw [has, hhead] at heval
      cases heval
    · cases c with
      | prelude c => exact absurd h (pipeCall_no_prelude hhead)
      | union c =>
        rw [has, hhead] at heval
        -- a union's constructor as the callee is an atom that is applied
        have hnone : eval W S [] (.call (lowerTarget (.ctor (.union c))) as) = none := by
          show eval W S [] (.call (.construct c []) as) = none
          rw [eval_call_value (e := .construct c []) [] _ nofun nofun nofun]
          cases hargs : evalAll W S [] as with
          | none => rfl
          | some r => rfl
        rw [hnone] at heval
        cases heval
    · have hcall : lowerPipeCall lhs callee args = .ok ir := hlower
      rw [lowerPipeCall_plain hplain.1 hplaced] at hcall
      cases hcall
      have hsome := (eval_plainCall_isSome hplain htyped fun _ _ _ hone => by omega).mp
        (isSome_iff_exists.mpr ⟨_, heval⟩)
      exact ⟨hplain, hlen.symm.trans hsome⟩
  · rintro ⟨hplain, hparams⟩
    have hgiven := hn hparams
    refine pipe_complete (lowerPipeCall_plain hplain.1 hplaced) hplain htyped (by omega) (by omega)
      hgiven.symm hgiven.symm ?_ ?_
    · show calleeEvents callee.head ++ (if params W S callee.head = 0 then _ else _) = _
      rw [if_neg (by omega), hlen]
    · show (if _ then _ else full W S callee.head (argVals S 0 (args.length + 1) ++ [])) = _
      rw [if_neg (by omega), append_nil, hlen]

theorem pipe_iff (h : Accepted W S n (.pipe lhs callee)) :
    OneThing W S n (.pipe lhs callee) ↔ Complete W S n (.pipe lhs callee) := by
  obtain ⟨htyped, hparams, hpos, hactor, hlhs⟩ := h
  have hplaced : Placed callee.head ([] ++ [lhs]) := by
    intro i a ha
    rw [hactor]
    have hmem := mem_singleton.mp (mem_of_getElem? ha)
    rw [hmem, hlhs]
    simp
  have hlower : pipeable callee.head = true →
      lowerApp (.pipe lhs callee) = .ok (plainCall callee.head [lhs]) := by
    intro hpipe
    show (if _ then _ else _) = _
    rw [if_pos hpipe]
    exact lowerPipeCall_plain hactor hplaced
  have hplain : pipeable callee.head = true → callee.head.Plain := by
    intro hpipe
    rcases callee.head.kinds with ⟨op, ty, hhead⟩ | ⟨c, hhead⟩ | hplain
    · rw [hhead] at hactor
      cases hactor
    · rw [hhead] at hpipe
      cases hpipe
    · exact hplain
  constructor
  · rintro ⟨ir, log, v, hir, -, heval, -, -⟩
    by_cases hpipe : pipeable callee.head = true
    · rw [hlower hpipe] at hir
      cases hir
      have hsome := (eval_plainCall_isSome (hplain hpipe) htyped fun _ _ _ _ => by omega).mp
        (isSome_iff_exists.mpr ⟨_, heval⟩)
      exact ⟨(hsome.trans hparams).symm, hpipe⟩
    · have herror : lowerApp (.pipe lhs callee) = .error .unknownPipeRhsShape := if_neg hpipe
      rw [herror] at hir
      cases hir
  · rintro ⟨rfl, hpipe⟩
    exact pipe_complete (hlower hpipe) (hplain hpipe) htyped hparams.symm Nat.one_pos rfl rfl rfl rfl

/-! ## Calls -/

theorem callArgs_of_pos {ty : Option Recorded} (h : ∀ t, ty = some t → t.params ≠ 0) :
    callArgsWithoutNullaryUnit args ty = args := by
  unfold callArgsWithoutNullaryUnit
  split
  · next t => rw [if_neg (h t rfl)]
  · rfl

theorem params_named {name : Named F} {ty : Recorded}
    (h : (Head.named name ty).isActor = false) : params W S (.named name ty) = ty.params := by
  cases name with
  | actor op => cases h
  | localValue _ | function _ _ | constant _ | method _ _ _ => rfl

/-- What a call of a function value is lowered to: the call, or the lambda of a partial one. -/
theorem lowerCall_plain (hplain : callee.head.Plain) (hargs : ∀ a ∈ args, a.isMessage = false) :
    let args' := callArgsWithoutNullaryUnit args (calleeType callee.head)
    lowerCall callee args = .ok (plainCall callee.head args') ∨
      args'.length < params W S callee.head ∧
        ∃ k body, lowerCall callee args = .ok (.lambda k body) := by
  intro args'
  have hargs' : ∀ a ∈ args', a.isMessage = false := by
    intro a ha
    refine hargs a ?_
    unfold args' callArgsWithoutNullaryUnit at ha
    split at ha
    · split at ha
      · cases ha
      · exact ha
    · exact ha
  have hirs := @lowerArgsFrom_eq F args' hargs' 0
  have hgeneric : lowerGenericCall callee.head args = .ok (plainCall callee.head args') ∨
      args'.length < params W S callee.head ∧
        ∃ k body, lowerGenericCall callee.head args = .ok (.lambda k body) := by
    have hcall : lowerGenericCall callee.head args = .ok (wrapPartialApplication
        (lowerTarget callee.head) (dictArgs callee.head) (argIrs 0 args')
        (calleeType callee.head)) := by
      unfold lowerGenericCall
      rw [hirs]
      rcases callee with ⟨head, parens⟩
      match head with
      | .ctor _ => cases hplain.2
      | .named _ _ | .computed _ => rfl
    rw [hcall]
    unfold wrapPartialApplication
    rcases hty : (calleeType callee.head).bind Recorded.fnParams with _ | total
    · exact .inl rfl
    · rcases Nat.lt_or_ge args'.length total with hlt | hge
      · right
        refine ⟨?_, ?_⟩
        · obtain ⟨ty, hhead, htotal⟩ := bind_eq_some_iff.mp hty
          rcases callee with ⟨head, parens⟩
          cases head with
          | named name t =>
            cases hhead
            rw [params_named hplain.1]
            cases ty with
            | fn k =>
              cases htotal
              exact hlt
            | aliased k => cases htotal
          | ctor c => cases hhead
          | computed s => cases hhead
        · simp only [length_argIrs, if_neg (Nat.not_le.mpr hlt)]
          exact ⟨_, _, rfl⟩
      · left
        simp only [length_argIrs, if_pos hge]
        rfl
  by_cases hpinned : ∃ d m ty, callee = ⟨.named (.method d m true) ty, false⟩
  · left
    obtain ⟨d, m, ty, rfl⟩ := hpinned
    unfold lowerCall
    simp only
    rw [show lowerArgsFrom 0 (callArgsWithoutNullaryUnit args (some ty)) =
      .ok (argIrs 0 args') from hirs]
    rfl
  · have hsame : lowerCall callee args = lowerGenericCall callee.head args := by
      rcases callee with ⟨head, parens⟩
      match head, parens with
      | .named (.method d m true) ty, false => exact absurd ⟨d, m, ty, rfl⟩ hpinned
      | .named (.method d m true) ty, true => rfl
      | .named (.method d m false) ty, _ => rfl
      | .named (.localValue _) _, _ => rfl
      | .named (.function _ _) _, _ => rfl
      | .named (.constant _) _, _ => rfl
      | .computed _, _ => rfl
      | .named (.actor _) _, _ => cases hplain.1
      | .ctor _, _ => cases hplain.2
    rw [hsame]
    exact hgeneric

theorem call_plain_iff (h : Accepted W S n (.call callee args)) (hplain : callee.head.Plain) :
    OneThing W S n (.call callee args) ↔ Complete W S n (.call callee args) := by
  obtain ⟨htyped, hparams, hplaced, -, hzero, hpos⟩ := h
  have hlow := @lowerCall_plain F D W S args callee hplain (placed_plain hplain.1 hplaced)
  set args' := callArgsWithoutNullaryUnit args (calleeType callee.head) with hargs'
  -- the arguments that are lowered: all of them, or none to a name that takes none
  have hkept : 0 < n → args' = args := by
    intro hn
    refine callArgs_of_pos fun t ht => ?_
    rcases callee with ⟨head, parens⟩
    cases head with
    | named name ty =>
      cases ht
      have hname : t.params = n := (params_named hplain.1).symm.trans hparams
      omega
    | ctor c => cases ht
    | computed s => cases ht
  have hdropped : n = 0 → (args'.length = 0 ↔ ∃ name ty, callee.head = .named name ty) := by
    intro hn
    obtain ⟨rfl, -⟩ := hzero hn
    rcases callee with ⟨head, parens⟩
    cases head with
    | named name ty =>
      have hty : ty.params = 0 := (params_named hplain.1).symm.trans (hparams.trans hn)
      refine iff_of_true ?_ ⟨name, ty, rfl⟩
      show (if ty.params = 0 then [] else [Arg.unit]).length = 0
      rw [if_pos hty]
      rfl
    | ctor c => cases hplain.2
    | computed s =>
      refine iff_of_false ?_ ?_
      · exact Nat.one_ne_zero
      · rintro ⟨name, ty, hhead⟩
        cases hhead
  have hcomplete : Complete W S n (.call callee args) ↔ args'.length = params W S callee.head := by
    rw [hparams]
    rcases Nat.eq_zero_or_pos n with rfl | hn
    · rw [hdropped rfl]
      exact ⟨fun hc => hc.elim (fun hc => absurd hc.1 (Nat.lt_irrefl 0)) And.right, fun hc =>
        .inr ⟨rfl, hc⟩⟩
    · rw [hkept hn]
      exact ⟨fun hc => hc.elim And.right fun hc => absurd hc.1 (Nat.ne_of_gt hn),
        fun hc => .inl ⟨hn, hc⟩⟩
  have hshim : ∀ name ty, callee.head = .named name ty → args'.length = 1 →
      params W S callee.head ≠ 0 := by
    intro name ty hhead hone hnone
    have hno := (hdropped (hparams.symm.trans hnone)).mpr ⟨name, ty, hhead⟩
    omega
  rw [hcomplete]
  constructor
  · rintro ⟨ir, log, v, hir, -, heval, hperm, -⟩
    have hlower : lowerCall callee args = .ok ir := hir
    rcases hlow with hcall | ⟨hlt, k, body, hlambda⟩
    · rw [hcall] at hlower
      cases hlower
      exact (eval_plainCall_isSome hplain htyped hshim).mp (isSome_iff_exists.mpr ⟨_, heval⟩)
    · -- the arguments are evaluated in the lambda, when it is called
      rw [hlambda] at hlower
      cases hlower
      rw [eval_lambda] at heval
      cases heval
      have hn : 0 < n := by omega
      have hempty : calleeEvents callee.head ++ (if params W S callee.head = 0 then [] else
        argEvents 0 args.length) = [] := hperm.symm.eq_nil
      rw [if_neg (by omega)] at hempty
      have hlen := congrArg List.length (append_eq_nil_iff.mp hempty).2
      unfold argEvents at hlen
      rw [length_map, length_range', length_nil] at hlen
      exact absurd hlen (Nat.ne_of_gt (hpos hn).1)
  · intro hlen
    have hcall := hlow.resolve_right fun hlt => absurd hlen (Nat.ne_of_lt hlt.1)
    obtain ⟨v, hv⟩ := isSome_iff_exists.mp
      ((full_isSome hplain htyped (argVals S 0 args'.length)).mpr (by rw [length_argVals, hlen]))
    have hevents : (if params W S callee.head = 0 then [] else argEvents 0 args.length) =
        argEvents 0 args'.length := by
      split
      · next hnone => rw [hlen, hnone]; rfl
      · next hsome => rw [hkept (by omega)]
    have hvals : (if params W S callee.head = 0 then [] else argVals S 0 args.length) =
        argVals S 0 args'.length := by
      split
      · next hnone => rw [hlen, hnone]; rfl
      · next hsome => rw [hkept (by omega)]
    have hgiven : given W S (.call callee args) = n := by
      show (if params W S callee.head = 0 then 0 else args.length) = n
      split
      · next hnone => exact hnone.symm.trans hparams
      · next hsome => rw [← hkept (by omega), hlen, hparams]
    refine ⟨_, calleeEvents callee.head ++ argEvents 0 args'.length, v, hcall,
      plainCall_lambdas _ _ _, ?_, ?_, ?_⟩
    · rw [eval_plainCall hplain htyped hshim, hv]
      rfl
    · show List.Perm _ (calleeEvents callee.head ++ (if _ then [] else argEvents 0 args.length))
      rw [hevents]
    · intro rest hrest
      rw [hgiven, Nat.sub_self] at hrest
      obtain rfl := length_eq_zero_iff.mp hrest
      refine ⟨fun _ => ?_, fun hno => absurd hgiven hno⟩
      show full W S callee.head ((if _ then _ else _) ++ []) = _
      rw [append_nil, hvals, hv]

/-- Lowering does not ask how many fields a constructor has: it is one thing with all of them. -/
theorem call_ctor_iff {c : Ctor} (h : Accepted W S n (.call ⟨.ctor c, parens⟩ args)) :
    OneThing W S n (.call ⟨.ctor c, parens⟩ args) ↔
      Complete W S n (.call ⟨.ctor c, parens⟩ args) := by
  obtain ⟨htyped, hparams, hplaced, -, hzero, hpos⟩ := h
  have hn : 0 < n := by
    rcases Nat.eq_zero_or_pos n with hzero' | hn
    · cases (hzero hzero').2
    · exact hn
  obtain ⟨hlen, hle⟩ := hpos hn
  have hno : params W S (.ctor c : Head F) ≠ 0 := hparams.trans_ne (Nat.ne_of_gt hn)
  have hcomplete : Complete W S n (.call ⟨.ctor c, parens⟩ args) ↔ args.length = n := by
    refine ⟨fun hc => hc.elim And.right fun hc => absurd hc.1 (Nat.ne_of_gt hn), fun hc =>
      .inl ⟨hn, hc⟩⟩
  have hexpected : expected W S (.call ⟨.ctor c, parens⟩ args) = argEvents 0 args.length := by
    show [] ++ (if params W S (.ctor c) = 0 then [] else argEvents 0 args.length) = _
    rw [if_neg hno]
    rfl
  have hgiven : given W S (.call ⟨.ctor c, parens⟩ args) = args.length := if_neg hno
  have hwhole : ∀ rest, whole W S rest (.call ⟨.ctor c, parens⟩ args) =
      full W S (.ctor c) (argVals S 0 args.length ++ rest) := by
    intro rest
    show full W S (.ctor c) ((if _ then _ else _) ++ rest) = _
    rw [if_neg hno]
  have hirs := @lowerArgsFrom_eq F args (placed_plain rfl hplaced) 0
  have hsame : lowerCall (F := F) ⟨.ctor c, parens⟩ args = lowerGenericCall (.ctor c) args := by
    cases parens <;> rfl
  have hevents := @evalAll_argIrs F D W S [] 0 args
  rw [hcomplete]
  cases c with
  | prelude c =>
    have hlower : lowerCall (F := F) ⟨.ctor (.prelude c), parens⟩ args =
        .ok (.call (.prelude c) (argIrs 0 args)) := by
      rw [hsame]
      unfold lowerGenericCall
      rw [show callArgsWithoutNullaryUnit args (calleeType (.ctor (.prelude c) : Head F)) = args from
        callArgs_of_pos nofun, hirs]
      rfl
    obtain ⟨k, hk⟩ := isSome_iff_exists.mp (show (preludeArity c).isSome = true from htyped)
    have hkn : k = n := by
      rw [← hparams]
      show k = (preludeArity c).getD 0
      rw [hk]
      rfl
    have hone := preludeArity_le hk
    refine iff_of_true ?_ (by omega)
    refine ⟨_, argEvents 0 args.length, .tagged c (argVals S 0 args.length), hlower,
      .call (.prelude _) (argIrs_lambdas _ _ _), ?_, ?_, ?_⟩
    · show (evalAll W S [] _).bind _ = _
      rw [hevents]
      show (if preludeArity c = some (argVals S 0 args.length).length then _ else _) = _
      rw [if_pos (by rw [hk, length_argVals]; congr 1; omega)]
    · rw [hexpected]
    · intro rest hrest
      rw [hgiven] at hrest
      obtain rfl := length_eq_zero_iff.mp (show rest.length = 0 by omega)
      refine ⟨fun _ => ?_, fun hunsat => absurd (show given W S _ = n by omega) hunsat⟩
      rw [hwhole, append_nil]
      rfl
  | union c =>
    have hlower : lowerCall (F := F) ⟨.ctor (.union c), parens⟩ args =
        .ok (.construct c (argIrs 0 args)) := by
      rw [hsame]
      unfold lowerGenericCall
      rw [show callArgsWithoutNullaryUnit args (calleeType (.ctor (.union c) : Head F)) = args from
        callArgs_of_pos nofun, hirs]
    have heval : eval W S [] (.construct c (argIrs 0 args)) =
        some (argEvents 0 args.length, .tagged c (argVals S 0 args.length)) := by
      show (evalAll W S [] _).map _ = _
      rw [hevents]
      rfl
    constructor
    · rintro ⟨ir, log, v, hir, -, hv, -, hrest⟩
      have hcall : lowerCall ⟨.ctor (.union c), parens⟩ args = .ok ir := hir
      rw [hlower] at hcall
      cases hcall
      rw [heval] at hv
      cases hv
      by_contra hshort
      -- the value that is built already is applied to the fields that are left
      have happly := hrest (replicate (n - args.length) (.tagged c []))
        (by rw [hgiven, length_replicate])
      obtain ⟨r, hr, -⟩ := happly.2 fun hsat => hshort (hgiven.symm.trans hsat)
      cases hr
    · intro hall
      refine ⟨_, argEvents 0 args.length, .tagged c (argVals S 0 args.length), hlower,
        .construct (argIrs_lambdas _ _ _), heval, ?_, ?_⟩
      · rw [hexpected]
      · intro rest hrest
        rw [hgiven] at hrest
        obtain rfl := length_eq_zero_iff.mp (show rest.length = 0 by omega)
        refine ⟨fun _ => ?_, fun hunsat => absurd (show given W S _ = n by omega) hunsat⟩
        rw [hwhole, append_nil]
        rfl

theorem call_actor {op : ActorOp} {ty : Recorded}
    (h : Accepted W S n (.call ⟨.named (.actor op) ty, parens⟩ args)) :
    OneThing W S n (.call ⟨.named (.actor op) ty, parens⟩ args) := by
  obtain ⟨-, hparams, -, hactor, -, -⟩ := h
  obtain ⟨rfl, hlen⟩ := hactor rfl
  cases op with
  | tryAsk =>
    obtain rfl : 3 = n := hparams
    have hlower : lowerCall (F := F) ⟨.named (.actor .tryAsk) ty, false⟩ args = .ok lowerTryAsk :=
      if_pos hlen
    have hgiven : given W S (.call ⟨.named (.actor .tryAsk) ty, false⟩ args) = 3 := hlen
    refine ⟨lowerTryAsk, argEvents 0 3, W.tryAsk (S.arg 0) (S.arg 1) (S.arg 2), hlower,
      .tryAsk (.arg _ _) (.arg _ _) (.arg _ _), rfl, ?_, ?_⟩
    · show List.Perm _ ([] ++ argEvents 0 args.length)
      rw [hlen]
      rfl
    · intro rest hrest
      rw [hgiven] at hrest
      obtain rfl := length_eq_zero_iff.mp hrest
      refine ⟨fun _ => ?_, fun hunsat => absurd hgiven hunsat⟩
      show full W S (.named (.actor .tryAsk) ty) (argVals S 0 args.length ++ []) = _
      rw [hlen]
      rfl
  | send =>
    obtain rfl : 2 = n := hparams
    have hlower : lowerCall (F := F) ⟨.named (.actor .send) ty, false⟩ args = .ok lowerActorSend :=
      if_pos hlen
    have hgiven : given W S (.call ⟨.named (.actor .send) ty, false⟩ args) = 2 := hlen
    refine ⟨lowerActorSend, argEvents 0 2, W.actorSend (S.arg 0) (S.arg 1), hlower,
      .actorSend (.arg _ _) (.arg _ _), rfl, ?_, ?_⟩
    · show List.Perm _ ([] ++ argEvents 0 args.length)
      rw [hlen]
      rfl
    · intro rest hrest
      rw [hgiven] at hrest
      obtain rfl := length_eq_zero_iff.mp hrest
      refine ⟨fun _ => ?_, fun hunsat => absurd hgiven hunsat⟩
      show full W S (.named (.actor .send) ty) (argVals S 0 args.length ++ []) = _
      rw [hlen]
      rfl

/-! ## Values -/

/-- The value of a callee is a function that does, without dictionaries, what the full call does. -/
theorem eval_target (hplain : head.Plain) (htyped : Typed W S head) :
    ∃ f, eval W S ps (lowerTarget head) = some (calleeEvents head, .fn f) ∧
      (dictVals S head = [] → ∀ rest, callValue W (.fn f) rest = full W S head rest) := by
  match head with
  | .named (.localValue x) ty | .named (.constant c) ty | .named (.method d m _) ty =>
    obtain ⟨f, hf, -⟩ := htyped
    refine ⟨f, ?_, fun _ rest => ?_⟩
    · show some ([], _) = some ([], _)
      rw [hf]
    · rw [← hf]
      rfl
  | .computed _ =>
    obtain ⟨n, f, hf, -⟩ := htyped
    refine ⟨f, ?_, fun _ rest => ?_⟩
    · show some ([Event.callee], S.callee) = _
      rw [hf]
      rfl
    · rw [← hf]
      rfl
  | .named (.function f dicts) ty =>
    refine ⟨f, ?_, fun hdicts rest => ?_⟩
    · rfl
    · show _ = callValue W (.fn f) (dicts.map S.dict ++ rest)
      rw [show dicts.map S.dict = [] from hdicts]
      rfl
  | .named (.actor _) _ => cases hplain.1
  | .ctor _ => cases hplain.2

/-- A function value on its own waits for all its arguments: as itself, or, where it takes
dictionaries, as the lambda that has them. -/
theorem value_plain (h : Accepted W S n (.value callee)) (hplain : callee.head.Plain) :
    OneThing W S n (.value callee) := by
  obtain ⟨htyped, hparams⟩ := h
  have hunsat : ¬ Saturated W S n (.value callee) := by
    rintro ⟨hctor, -⟩
    rw [hplain.2] at hctor
    cases hctor
  have hfull : ∀ rest, rest.length = n → ∃ r, full W S callee.head rest = some r := fun rest hrest =>
    isSome_iff_exists.mp ((full_isSome hplain htyped rest).mpr (hrest.trans hparams.symm))
  by_cases hclosed : ∃ f d ds ty, callee.head = .named (.function f (d :: ds)) ty
  · obtain ⟨f, d, ds, ty, hhead⟩ := hclosed
    rw [hhead] at htyped hparams
    have hty : ty.params = n := hparams
    let body : Ir F := .call (lowerTarget callee.head)
      (dictArgs callee.head ++ (List.range n).map .param)
    have hlower : lowerApp (.value callee) = .ok (.lambda n body) := by
      show Except.ok (closeConstraints callee.head) = _
      unfold closeConstraints body
      rw [hhead]
      simp only [calleeType, bind_some, htyped.1, hty]
      rfl
    refine ⟨_, [], .closure n body, hlower, .lambda (.call (lowerTarget_lambdas _ _) ?_), ?_, ?_, ?_⟩
    · intro a ha
      rcases mem_append.mp ha with hdict | hparam
      · exact dictArgs_lambdas _ _ a hdict
      · obtain ⟨j, -, rfl⟩ := mem_map.mp hparam
        exact .param j
    · exact eval_lambda [] n body
    · show List.Perm [] (calleeEvents callee.head)
      rw [hhead]
      rfl
    · intro rest hrest
      have hlen : rest.length = n := hrest
      obtain ⟨r, hr⟩ := hfull rest hlen
      refine ⟨fun hsat => absurd hsat hunsat, fun _ => ⟨r, ?_, hr⟩⟩
      have hrange := @evalAll_params F D W S rest 0 n (by omega)
      rw [← range_eq_range', drop_zero] at hrange
      have hcall : eval W S rest body = (full W S callee.head rest).map fun v =>
          (calleeEvents callee.head ++ [], v) :=
        eval_call hplain hrange fun name ty' hname hunit => by
          rw [hhead] at hunit
          cases hunit
      show (if rest.length = n then (eval W S rest body).map Prod.snd else none) = _
      rw [if_pos hlen, hcall, hr]
      rfl
  · have hlower : lowerApp (.value callee) = .ok (lowerTarget callee.head) := by
      show Except.ok (closeConstraints callee.head) = _
      congr 1
      unfold closeConstraints
      split
      · next hdicts =>
        unfold dictArgs at hdicts
        split at hdicts
        · next f dicts ty hhead =>
          cases dicts with
          | nil => cases hdicts
          | cons d ds => exact absurd ⟨f, d, ds, ty, hhead⟩ hclosed
        · cases hdicts
      · rfl
    have hdicts : dictVals S callee.head = [] := by
      unfold dictVals
      split
      · next f dicts ty hhead =>
        cases dicts with
        | nil => rfl
        | cons d ds => exact absurd ⟨f, d, ds, ty, hhead⟩ hclosed
      · rfl
    obtain ⟨f, hf, happly⟩ := @eval_target F D W S callee.head [] hplain htyped
    refine ⟨_, _, _, hlower, lowerTarget_lambdas _ _, hf, .refl _, ?_⟩
    intro rest hrest
    obtain ⟨r, hr⟩ := hfull rest hrest
    exact ⟨fun hsat => absurd hsat hunsat, fun _ => ⟨r, (happly hdicts rest).trans hr, hr⟩⟩

theorem value_iff (h : Accepted W S n (.value callee)) :
    OneThing W S n (.value callee) ↔ Complete W S n (.value callee) := by
  rcases callee with ⟨head, parens⟩
  rcases head.kinds with ⟨op, ty, rfl⟩ | ⟨c, rfl⟩ | hplain
  · -- the functions of `std.actor` have no code of their own
    refine iff_of_false ?_ ?_
    · rintro ⟨ir, log, v, hir, -, heval, -⟩
      have hlower : lowerApp (.value ⟨.named (.actor op) ty, parens⟩) =
          (.ok (.actor op) : Except LowerError (Ir F)) := by
        cases ty <;> rfl
      rw [hlower] at hir
      cases hir
      cases heval
    · intro hcomplete
      cases hcomplete.1
  · obtain ⟨htyped, hparams⟩ := h
    have hcomplete : Complete W S n (.value ⟨.ctor c, parens⟩) ↔ n = 0 :=
      ⟨fun hc => hc.2 rfl, fun hc => ⟨rfl, fun _ => hc⟩⟩
    rw [hcomplete]
    cases c with
    | prelude c =>
      obtain ⟨k, hk⟩ := isSome_iff_exists.mp
        (show (preludeArity c).isSome = true from htyped)
      obtain rfl : k = n := by
        rw [← hparams]
        show k = (preludeArity c).getD 0
        rw [hk]
        rfl
      constructor
      · rintro ⟨ir, log, v, hir, -, heval, -⟩
        have hlower : lowerApp (.value ⟨.ctor (.prelude c), parens⟩) =
          (.ok (.prelude c) : Except LowerError (Ir F)) := rfl
        rw [hlower] at hir
        cases hir
        rw [eval_prelude, hk] at heval
        split at heval
        · next hzero => exact some.inj hzero
        · cases heval
      · rintro rfl
        refine ⟨.prelude c, [], .tagged c [], rfl, .prelude c, ?_, .nil, ?_⟩
        · rw [eval_prelude, if_pos hk]
        · intro rest hrest
          obtain rfl := length_eq_zero_iff.mp hrest
          exact ⟨fun _ => rfl, fun hunsat => absurd ⟨rfl, rfl⟩ hunsat⟩
    | union c =>
      have heval : eval W S [] (.construct c []) = some ([], .tagged c []) := rfl
      constructor
      · rintro ⟨ir, log, v, hir, -, hv, -, hrest⟩
        have hlower : lowerApp (.value ⟨.ctor (.union c), parens⟩) =
          (.ok (.construct c []) : Except LowerError (Ir F)) := rfl
        rw [hlower] at hir
        cases hir
        rw [heval] at hv
        cases hv
        by_contra hpayload
        -- the bare constructor is a value without its fields, and no function
        have happly := hrest (replicate n (.tagged c [])) length_replicate
        obtain ⟨r, hr, -⟩ := happly.2 fun hsat => hpayload hsat.2
        cases hr
      · rintro rfl
        refine ⟨.construct c [], [], .tagged c [], rfl, .construct nofun, heval, .nil, ?_⟩
        intro rest hrest
        obtain rfl := length_eq_zero_iff.mp hrest
        exact ⟨fun _ => rfl, fun hunsat => absurd ⟨rfl, rfl⟩ hunsat⟩
  · exact iff_of_true (value_plain h hplain)
      ⟨hplain.1, fun hctor => by rw [hplain.2] at hctor; cases hctor⟩

/-- A program of one function, `add`, of two parameters. -/
def adding : World Unit Nat where
  arity _ := 2
  run _ vs := match vs with
    | [.base a, .base b] => .base (a + b)
    | _ => .base 0
  payload _ := 0
  tryAsk _ _ _ := .base 0
  actorSend _ _ := .base 0

/-- The arguments are their own positions, from one on. -/
def counted : Site Unit Nat where
  arg i := .base (i + 1)
  callee := .base 0
  localValue _ := .base 0
  constant _ := .base 0
  dict _ := .base 0
  method _ _ := .base 0

def add : Callee Unit := ⟨.named (.function () []) (.fn 2), false⟩

theorem add_placed (args : List Arg) (h : ∀ a ∈ args, a.isMessage = false) :
    Placed add.head args := by
  intro i a ha
  rw [h a (mem_of_getElem? ha)]
  exact iff_of_false (fun h => nomatch h) fun h => nomatch h.1

end Ridge.Applied
