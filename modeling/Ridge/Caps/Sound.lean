import Ridge.Caps.Check

/-!
# What capability checking covers

`Performs` derives the calls, asks and spawns that evaluating a body can perform, outside the
bodies of lambdas and inner functions, and says of each which of the two walkers charges it. A
pipe is the call it stands for (`infer_pipe`): `x |> f a` is `f a x`, and `x |> f?` is
`(x |> f)?`.

What no walker charges is what escapes the check: message, ask and spawn arguments are seen by
the second walker only, ask timeouts by none, and a call completed by a pipe by the second one
only.
-/

namespace Ridge

open List Bool

/-- Which of the two walkers charges a site. -/
structure Watch where
  infer : Bool
  check : Bool
  deriving DecidableEq

namespace Watch

def both : Watch := ⟨true, true⟩
def checkOnly : Watch := ⟨false, true⟩
def neither : Watch := ⟨false, false⟩

def inter (v w : Watch) : Watch := ⟨v.infer && w.infer, v.check && w.check⟩

end Watch

/-! ## Evaluation -/

/-- The expressions a sent message evaluates; its head is a handler label. -/
def messageArgs : Expr → List Expr
  | .ident _ => []
  | .call (.ident _) args _ => args
  -- the parser emits no other shape
  | e => [e]

/-- The callable a pipe leads to, and whether a `?` stood after it. -/
def pipeTarget : Expr → Expr × Bool
  | .propagate inner _ => ((pipeTarget inner).1, true)
  | e => (e, false)

def pipeParts (lhs rhs : Expr) : List Expr :=
  match (pipeTarget rhs).1 with
  | .call callee args _ => lhs :: callee :: args
  | f => [lhs, f]

/-- The subexpressions an expression evaluates, and which walkers go on to them. -/
def Expr.evaluates : Expr → List (Expr × Watch)
  | .lambda _ _ _ => []
  | .innerFn _ _ => []
  | .ask handle _ args timeout _ =>
    (handle :: args).map (·, .checkOnly) ++
      (timeout.toList.flatMap AskTimeoutOf.exprs).map (·, .neither)
  | .send handle message _ => (handle :: messageArgs message).map (·, .checkOnly)
  | .spawn _ args _ => args.map (·, .checkOnly)
  | .pipe lhs rhs _ => (pipeParts lhs rhs).map (·, .both)
  | e => e.children.map (·, .both)

def peelAliases : Ty → Ty
  | .aliased _ body => peelAliases body
  | t => t

section

variable (ctx : CapsCtx)

/-- A call with `n` arguments runs the callee, and that takes `c`. With fewer arguments than
parameters it constructs a closure and takes nothing. -/
def Takes (callee : Expr) (n : Nat) (c : Capability) : Prop :=
  ∃ t params ret caps, typedExprType ctx callee = some t ∧ peelAliases t = .fn params ret caps ∧
    params.length ≤ n ∧ caps.Requires c

/-- Inference charges a call of this many arguments with the row of the callee's type. -/
def inferCharges (callee : Expr) (n : Nat) : Bool :=
  match typedExprType ctx callee with
  | some (.fn params _ _) => params.length ≤ n
  | _ => false

/-- The second walker charges a call with the row of the callee's type. -/
def checkCharges (callee : Expr) : Bool := (typedExprCaps ctx callee).isSome

/-- Evaluating an expression that `m` watches performs a site that takes `c` and that `w`
charges. -/
inductive Performs : Watch → Expr → Watch → Capability → Prop where
  | call {m callee args span c} (h : Takes ctx callee args.length c) :
    Performs m (.call callee args span)
      (m.inter ⟨inferCharges ctx callee args.length, checkCharges ctx callee⟩) c
  | pipedCall {m lhs rhs span callee args callSpan c}
    (htarget : (pipeTarget rhs).1 = .call callee args callSpan)
    (h : Takes ctx callee (args.length + 1) c) :
    Performs m (.pipe lhs rhs span)
      (m.inter ⟨inferCharges ctx callee args.length, checkCharges ctx callee⟩) c
  | piped {m lhs rhs span c} (hbare : ∀ callee args callSpan,
      (pipeTarget rhs).1 ≠ .call callee args callSpan)
    (h : Takes ctx (pipeTarget rhs).1 1 c) :
    Performs m (.pipe lhs rhs span)
      (m.inter ⟨!(pipeTarget rhs).2 && inferCharges ctx (pipeTarget rhs).1 1, false⟩) c
  | ask {m handle message args timeout span} :
    Performs m (.ask handle message args timeout span) m .time
  | spawn {m actor args span} : Performs m (.spawn actor args span) m .spawn
  | child {m e x v w c} (hx : (x, v) ∈ e.evaluates) (h : Performs (m.inter v) x w c) :
    Performs m e w c

/-- Evaluating the body can perform a call, ask or spawn that takes `c`. -/
def Required (body : Expr) (c : Capability) : Prop := ∃ w, Performs ctx .both body w c

/-- Neither walker charges some such site. -/
def Unwatched (body : Expr) (c : Capability) : Prop := Performs ctx .both body .neither c

/-- Inference does not charge some such site. -/
def Unseen (body : Expr) (c : Capability) : Prop :=
  ∃ w, w.infer = false ∧ Performs ctx .both body w c

end

variable {ctx : CapsCtx} {m w : Watch} {e x : Expr} {c : Capability}

theorem peelAliases_fn (params : List Ty) (ret : Ty) (caps : CapRow) :
    peelAliases (.fn params ret caps) = .fn params ret caps := rfl

/-! ## What inference charges it sees -/

variable {callee : Expr}

theorem requires_calleeCapRow {args : List Expr} {n : Nat}
    (hcharge : inferCharges ctx callee args.length = true) (h : Takes ctx callee n c) :
    (calleeCapRow ctx callee args).Requires c := by
  obtain ⟨t, params, ret, caps, htype, hfn, -, hc⟩ := h
  unfold inferCharges at hcharge
  rw [htype] at hcharge
  cases t <;> try simp at hcharge
  case fn params' ret' caps' =>
    rw [peelAliases_fn, Ty.fn.injEq] at hfn
    obtain ⟨rfl, rfl, rfl⟩ := hfn
    rw [calleeCapRow, htype]
    dsimp only
    rwa [if_neg (not_lt.mpr hcharge)]

variable {rhs : Expr}

theorem inferSees_pipeTarget (h : InferSees ctx (pipeTarget rhs).1 c) : InferSees ctx rhs c := by
  induction rhs using Expr.inductionOn with
  | _ rhs ih =>
    cases rhs <;> try exact h
    case propagate inner span =>
      refine .child rfl (x := inner) (by simp [Expr.children]) (ih inner ?_ ?_)
      · simp [Expr.children]
      · simpa [pipeTarget] using h

theorem pipeTarget_of_not (h : (pipeTarget rhs).2 = false) : (pipeTarget rhs).1 = rhs := by
  cases rhs <;> first | rfl | simp [pipeTarget] at h

variable {span : Span}

theorem inferSees_pipeParts {lhs rhs : Expr} (hx : x ∈ pipeParts lhs rhs) (h : InferSees ctx x c) :
    InferSees ctx (.pipe lhs rhs span) c := by
  have hrhs : InferSees ctx rhs c → InferSees ctx (.pipe lhs rhs span) c := fun h =>
    .child rfl (x := rhs) (by simp [Expr.children]) h
  have hlhs : InferSees ctx lhs c → InferSees ctx (.pipe lhs rhs span) c := fun h =>
    .child rfl (x := lhs) (by simp [Expr.children]) h
  unfold pipeParts at hx
  split at hx
  · next callee args callSpan htarget =>
    rcases mem_cons.mp hx with rfl | hx
    · exact hlhs h
    · refine hrhs (inferSees_pipeTarget ?_)
      rw [htarget]
      exact .child rfl hx h
  · rcases mem_cons.mp hx with rfl | hx
    · exact hlhs h
    · rw [mem_singleton] at hx
      subst hx
      exact hrhs (inferSees_pipeTarget h)

/-- Inference goes on where its watch does. -/
theorem inferSees_evaluates {v : Watch} (hx : (x, v) ∈ e.evaluates) (hv : v.infer = true)
    (h : InferSees ctx x c) : InferSees ctx e c := by
  have hchildren : e.entersForCaps = true → (x, v) ∈ e.children.map (·, Watch.both) →
      InferSees ctx e c := by
    intro henters hx
    obtain ⟨y, hy, heq⟩ := mem_map.mp hx
    cases heq
    exact .child henters hy h
  cases e
  case lambda | innerFn => simp [Expr.evaluates] at hx
  case ask handle message args timeout span =>
    simp only [Expr.evaluates, mem_append, mem_map, Prod.mk.injEq] at hx
    rcases hx with ⟨_, _, _, rfl⟩ | ⟨_, _, _, rfl⟩ <;> cases hv
  case send | spawn =>
    simp only [Expr.evaluates, mem_map, Prod.mk.injEq] at hx
    obtain ⟨_, _, _, rfl⟩ := hx
    cases hv
  case pipe lhs rhs span =>
    simp only [Expr.evaluates, mem_map, Prod.mk.injEq] at hx
    obtain ⟨_, hx, rfl, rfl⟩ := hx
    exact inferSees_pipeParts hx h
  all_goals exact hchildren rfl hx

theorem Performs.inferSees (h : Performs ctx m e w c) (hw : w.infer = true) :
    m.infer = true ∧ InferSees ctx e c := by
  induction h with
  | call h =>
    simp only [Watch.inter, and_eq_true] at hw
    exact ⟨hw.1, .callee (requires_calleeCapRow hw.2 h)⟩
  | @pipedCall m lhs rhs span callee args callSpan c htarget h =>
    simp only [Watch.inter, and_eq_true] at hw
    refine ⟨hw.1, .child rfl (x := rhs) (by simp [Expr.children]) (inferSees_pipeTarget ?_)⟩
    rw [htarget]
    exact .callee (requires_calleeCapRow hw.2 h)
  | @piped m lhs rhs span c hbare h =>
    simp only [Watch.inter, and_eq_true, not_eq_true'] at hw
    obtain ⟨hm, hnot, hcharge⟩ := hw
    rw [pipeTarget_of_not hnot] at h hcharge
    obtain ⟨t, params, ret, caps, htype, hfn, -, hc⟩ := h
    unfold inferCharges at hcharge
    rw [htype] at hcharge
    cases t <;> try simp at hcharge
    case fn params' ret' caps' =>
      rw [peelAliases_fn, Ty.fn.injEq] at hfn
      obtain ⟨rfl, rfl, rfl⟩ := hfn
      exact ⟨hm, .piped (by rw [typedExprRow, htype]) hc⟩
  | ask => exact ⟨hw, .ask⟩
  | spawn => exact ⟨hw, .spawn⟩
  | child hx _ ih =>
    obtain ⟨hm, hsees⟩ := ih hw
    simp only [Watch.inter, and_eq_true] at hm
    exact ⟨hm.1, inferSees_evaluates hx hm.2 hsees⟩

/-! ## What the second walker charges it checks -/

section

variable {name : String} {effective : CapabilitySet}

theorem contains_callSiteCaps {n : Nat} (hcharge : checkCharges ctx callee = true)
    (h : Takes ctx callee n c) : (callSiteCaps ctx callee).contains c = true := by
  obtain ⟨t, params, ret, caps, htype, hfn, -, hc⟩ := h
  obtain ⟨set, hset⟩ := Option.isSome_iff_exists.mp hcharge
  have htyped := hset
  unfold typedExprCaps typedExprRow at hset
  rw [htype] at hset
  cases t <;> try simp at hset
  case fn params' ret' caps' =>
    rw [peelAliases_fn, Ty.fn.injEq] at hfn
    obtain ⟨rfl, rfl, rfl⟩ := hfn
    cases caps' <;> simp at hset
    subst hset
    rw [callSiteCaps, htyped]
    exact hc

theorem checkBody_pipeTarget (h : checkBody ctx name effective rhs = []) :
    checkBody ctx name effective (pipeTarget rhs).1 = [] := by
  induction rhs using Expr.inductionOn with
  | _ rhs ih =>
    cases rhs <;> try exact h
    case propagate inner span =>
      rw [pipeTarget]
      exact ih inner (by simp [Expr.children])
        (checkBody_children h inner (by simp [Expr.checkedChildren, Expr.children]))

theorem checkBody_pipeParts {lhs rhs : Expr}
    (h : checkBody ctx name effective (.pipe lhs rhs span) = []) :
    ∀ x ∈ pipeParts lhs rhs, checkBody ctx name effective x = [] := by
  have hparts := checkBody_children h
  simp only [Expr.checkedChildren, Expr.children, forall_mem_cons] at hparts
  obtain ⟨hlhs, hrhs, -⟩ := hparts
  have htarget := checkBody_pipeTarget hrhs
  unfold pipeParts
  split
  · next callee args callSpan heq =>
    rw [heq] at htarget
    exact forall_mem_cons.mpr ⟨hlhs, checkBody_children htarget⟩
  · exact forall_mem_cons.mpr ⟨hlhs, by simpa using htarget⟩

/-- The second walker goes on where its watch does. -/
theorem checkBody_evaluates {v : Watch} (hx : (x, v) ∈ e.evaluates) (hv : v.check = true)
    (h : checkBody ctx name effective e = []) : checkBody ctx name effective x = [] := by
  have hchildren : (∀ y ∈ e.children, checkBody ctx name effective y = []) →
      (x, v) ∈ e.children.map (·, Watch.both) → checkBody ctx name effective x = [] := by
    intro hall hx
    obtain ⟨y, hy, heq⟩ := mem_map.mp hx
    cases heq
    exact hall x hy
  cases e
  case lambda | innerFn => simp [Expr.evaluates] at hx
  case ask handle message args timeout span =>
    simp only [Expr.evaluates, mem_append, mem_map, Prod.mk.injEq] at hx
    rcases hx with ⟨y, hy, rfl, rfl⟩ | ⟨_, _, _, rfl⟩
    · exact checkBody_children h y hy
    · cases hv
  case send handle message span =>
    simp only [Expr.evaluates, mem_map, Prod.mk.injEq] at hx
    obtain ⟨y, hy, rfl, rfl⟩ := hx
    have hparts := checkBody_children h
    simp only [Expr.checkedChildren, Expr.children, forall_mem_cons] at hparts
    rcases mem_cons.mp hy with rfl | hy
    · exact hparts.1
    · unfold messageArgs at hy
      split at hy
      · cases hy
      · exact checkBody_children hparts.2.1 y (mem_cons_of_mem _ hy)
      · rw [mem_singleton] at hy
        exact hy ▸ hparts.2.1
  case spawn actor args span =>
    simp only [Expr.evaluates, mem_map, Prod.mk.injEq] at hx
    obtain ⟨y, hy, rfl, rfl⟩ := hx
    exact checkBody_children h y hy
  case pipe lhs rhs span =>
    simp only [Expr.evaluates, mem_map, Prod.mk.injEq] at hx
    obtain ⟨y, hy, rfl, rfl⟩ := hx
    exact checkBody_pipeParts h y hy
  all_goals exact hchildren (checkBody_children h) hx

theorem Performs.checked (h : Performs ctx m e w c) (hw : w.check = true) :
    m.check = true ∧
      (checkBody ctx name effective e = [] → effective.contains c = true) := by
  induction h with
  | call h =>
    simp only [Watch.inter, and_eq_true] at hw
    exact ⟨hw.1, fun hcheck => checkBody_call hcheck (contains_callSiteCaps hw.2 h)⟩
  | @pipedCall m lhs rhs span callee args callSpan c htarget h =>
    simp only [Watch.inter, and_eq_true] at hw
    refine ⟨hw.1, fun hcheck => ?_⟩
    have hrhs := checkBody_pipeTarget (checkBody_children hcheck rhs
      (by simp [Expr.checkedChildren, Expr.children]))
    rw [htarget] at hrhs
    exact checkBody_call hrhs (contains_callSiteCaps hw.2 h)
  | piped =>
    -- a bare callable is no call site for the second walker
    simp [Watch.inter] at hw
  | ask =>
    refine ⟨hw, fun hcheck => ?_⟩
    simp only [checkBody, append_eq_nil_iff] at hcheck
    exact checkSite_eq_nil.mp hcheck.1.1 .time (by simp)
  | spawn =>
    refine ⟨hw, fun hcheck => ?_⟩
    simp only [checkBody, append_eq_nil_iff] at hcheck
    exact checkSite_eq_nil.mp hcheck.1 .spawn (by simp)
  | child hx _ ih =>
    obtain ⟨hm, hcheck⟩ := ih hw
    simp only [Watch.inter, and_eq_true] at hm
    exact ⟨hm.1, fun h => hcheck (checkBody_evaluates hx hm.2 h)⟩

end

/-! ## Soundness -/

/-- The bodies that are checked: those of functions and handlers, and the blocks of callbacks. -/
inductive DeclBody where
  | expr (e : Expr)
  | block (block : Block)

def DeclBody.toExpr : DeclBody → Expr
  | .expr e => e
  | .block region => .block region

/-- The entry point for a body. -/
def DeclBody.checkCaps (ctx : CapsCtx) (declName : String) (kind : CapDeclKind)
    (declared : Option CapabilitySet) (declSpan : Span) :
    DeclBody → CapabilitySet × List CapError
  | .expr e => checkCapsDeclKind ctx declName declared e declSpan kind
  | .block region => checkCapsBlock ctx declName kind declared region declSpan

theorem DeclBody.checkCaps_eq (declName : String) (kind : CapDeclKind)
    (declared : Option CapabilitySet) (declSpan : Span) (body : DeclBody) :
    body.checkCaps ctx declName kind declared declSpan =
      checkCapsDeclKind ctx declName declared body.toExpr declSpan kind := by
  cases body with
  | expr e => rfl
  | block region =>
    obtain ⟨stmts, span⟩ := region
    simp [checkCaps, toExpr, checkCapsBlock, checkCapsDeclKind, inferCapsBlock, inferCaps,
      inferCapRow, checkBody]

/-- A declaration checked without errors takes only what it declares if and only if that holds of
the sites neither walker charges. The effective set of a file-private declaration holds what the
declaration takes if and only if what inference does not charge is also contributed by something
it sees. -/
theorem checkCaps_sound_iff (ctx : CapsCtx) (declName : String) (kind : CapDeclKind)
    (declSpan : Span) (body : DeclBody) :
    (∀ declared, (body.checkCaps ctx declName kind (some declared) declSpan).2 = [] →
      ((∀ c, Required ctx body.toExpr c → declared.contains c = true) ↔
        ∀ c, Unwatched ctx body.toExpr c → declared.contains c = true)) ∧
    ((∀ c, Required ctx body.toExpr c →
        (body.checkCaps ctx declName kind none declSpan).1.contains c = true) ↔
      ∀ c, Unseen ctx body.toExpr c → InferSees ctx body.toExpr c) := by
  constructor
  · intro declared herrors
    rw [DeclBody.checkCaps_eq] at herrors
    obtain ⟨hdeclared, hbody⟩ := append_eq_nil_iff.mp herrors
    refine ⟨fun h c hc => h c ⟨_, hc⟩, fun h c hc => ?_⟩
    obtain ⟨⟨inferred, checked⟩, hperforms⟩ := hc
    cases inferred with
    | true =>
      have hsees := (hperforms.inferSees rfl).2
      exact checkDeclared_eq_nil.mp hdeclared c ((contains_inferCaps _).mpr hsees)
    | false =>
      cases checked with
      | true => exact (hperforms.checked rfl).2 hbody
      | false => exact h c hperforms
  · rw [DeclBody.checkCaps_eq]
    show (∀ c, Required ctx body.toExpr c → (inferCaps ctx body.toExpr).contains c = true) ↔ _
    simp only [contains_inferCaps]
    refine ⟨fun h c ⟨w, _, hc⟩ => h c ⟨w, hc⟩, fun h c hc => ?_⟩
    obtain ⟨w, hperforms⟩ := hc
    cases hw : w.infer with
    | true => exact (hperforms.inferSees hw).2
    | false => exact h c ⟨w, hw, hperforms⟩

/-! ## An effect in an ask timeout -/

/-- `slow ()` takes `io`. -/
def slowCtx : CapsCtx where
  nodeType span _ := if span = ⟨22, 26⟩ then some (.fn [] (.con 0 []) (.concrete (.singleton .io)))
    else none
  env _ := none
  resolveHofCaps _ _ := .PURE

/-- `h ?> ping timeout slow ()`. -/
def askWithSlowTimeout : Expr :=
  .ask (.ident ⟨"h", ⟨0, 1⟩⟩) ⟨"ping", ⟨5, 9⟩⟩ []
    (some (.millis (.call (.ident ⟨"slow", ⟨22, 26⟩⟩) [.unit ⟨27, 29⟩] ⟨22, 29⟩))) ⟨0, 29⟩

/-- The timeout takes `io`; a declaration of `time` alone is checked without errors. -/
theorem ask_timeout_unchecked :
    (checkCapsDecl slowCtx "poll" (some (.singleton .time)) askWithSlowTimeout ⟨0, 29⟩).2 = [] ∧
      Required slowCtx askWithSlowTimeout .io ∧
      (CapabilitySet.singleton .time).contains .io = false := by
  refine ⟨?_, ⟨_, .child (x := .call (.ident ⟨"slow", ⟨22, 26⟩⟩) [.unit ⟨27, 29⟩] ⟨22, 29⟩)
    (v := .neither) ?_ (.call ?_)⟩, by decide⟩
  · rfl
  · simp [askWithSlowTimeout, Expr.evaluates, AskTimeoutOf.exprs]
  · exact ⟨_, _, _, _, rfl, rfl, by decide, rfl⟩

end Ridge
