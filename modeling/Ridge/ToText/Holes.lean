import Ridge.ToText.World

/-!
# What a hole is rendered with

The condition under which a hole is passed to evidence for exactly its own type.
-/

/-!
## Telling renderings apart

A world in which what rendered a value can be read off the text it gave: each dictionary parameter
gives its own name, one marked function of the standard library gives a mark of its own.
-/

namespace Ridge

open Evidence

/-- `code` passes its argument to evidence of `ToText` for `t`: in every world it computes what that
evidence computes. -/
def PassesTo (C : TextCtx) (t : Ty) (code : IrExpr → IrExpr) : Prop :=
  ∃ plan, EvidenceFor C (.toText t) plan ∧
    ∀ (W : World) (env : W.Env), W.Linked C env → ∀ arg v, W.eval env arg = some (.value v) →
      W.eval env (code arg) = (W.renderWith (W.dictionary C plan) v).map .value

theorem PassesTo.text {C : TextCtx} {t : Ty} {code : IrExpr → IrExpr} (h : PassesTo C t code)
    {W : World} {env : W.Env} (hlinked : W.Linked C env) (T : Typing C W) {arg : IrExpr} {v : W.V}
    (harg : W.eval env arg = some (.value v)) (hv : T.is t v) :
    ∃ s, W.eval env (code arg) = some (.value (W.text s)) := by
  obtain ⟨plan, hplan, hcode⟩ := h
  obtain ⟨s, hs⟩ := T.renders hplan hv
  exact ⟨s, by rw [hcode W env hlinked arg v harg, hs]; rfl⟩

namespace Trace

inductive Dict where
  | builtin (t : ToTextTarget)
  | named (name : String)

/-- A call gives `!` where the function is the marked one, and `.` elsewhere. -/
def host (mark : String × String) (m f : String) (vs : List String) : Option String :=
  match vs with
  | [a, b] => some (a ++ b)
  | _ => some (if (m, f) = mark then "!" else ".")

def method (mark : String × String) : Dict → String → Option (List String → Option String)
  | .builtin t, _ => some fun vs =>
    match t.symbol with
    | none => vs.head?
    | some (m, f) => host mark m f vs
  | .named name, _ => some fun _ => some name

section

variable (C : TextCtx)

def Parametric (s : SymbolRef) (id : TyConId) : Prop :=
  ∃ info, C.instances totextClass [id] = some info ∧ info.ctxConstraints ≠ [] ∧
    C.dictSymbol id info = s

open Classical in
noncomputable def symbol (s : SymbolRef) : Option (Rt String Dict) :=
  if h : ∃ id, Parametric C s id then some (.factory ⟨totextClass, [h.choose]⟩)
  else some (.dict (.named "instance"))

/-- The world that marks `mark`. -/
noncomputable def world (mark : String × String) : World where
  V := String
  D := Dict
  text := id
  host := host mark
  param c := .named (C.dictParam c)
  instantiate _ _ := .named "instance"
  synth := .builtin
  method := method mark
  field _ _ := none
  variant _ := none
  symbol := symbol C
  other _ _ := none
  concat _ _ := rfl
  synth_toText t v := by
    show (match t.symbol with | none => _ | some (m, f) => _) = _
    cases t.symbol with
    | none => rfl
    | some p => rfl

/-- Every name is bound to a dictionary that gives it back. -/
def env : String → Option (Rt String Dict) := fun name => some (.dict (.named name))

variable (mark : String × String)

theorem linked : (world C mark).Linked C env where
  params _ _ := rfl
  constants id info hinfo := by
    show symbol C _ = _
    unfold symbol
    -- no other instance has this constant
    have hown : ∀ j, Parametric C (C.dictSymbol id info) j → j = id := by
      intro j ⟨info', hj, _, hs⟩
      exact C.symbols_distinct j id info' info hj hinfo hs
    by_cases hctx : info.ctxConstraints = []
    · rw [dif_neg, if_pos hctx]
      · rfl
      · intro ⟨j, hj⟩
        cases hown j hj
        obtain ⟨info', hinfo', hne, -⟩ := hj
        rw [hinfo, Option.some.injEq] at hinfo'
        exact hne (hinfo' ▸ hctx)
    · have h : ∃ j, Parametric C (C.dictSymbol id info) j := ⟨id, info, hinfo, hctx, rfl⟩
      rw [dif_pos h, if_neg hctx, hown _ h.choose_spec]
      rfl

/-- The text a literal `?` becomes. -/
theorem eval_arg : (world C mark).eval env (.lit (.text "?")) = some (.value "?") :=
  World.eval_text _ _

/-- What a built-in rendering makes of `?`. -/
def marked : Option (String × String) → String
  | none => "?"
  | some p => if p = mark then "!" else "."

/-- What evidence gives: the text itself at `Text`, the mark of a built-in function, the name of a
parameter, or the word `instance`. -/
def given (plan : DictPlan) : String :=
  match plan with
  | .given c => C.dictParam c
  | .rule k _ =>
    match C.builtinOf k with
    | none => "instance"
    | some t => marked mark t.symbol

theorem renderWith_builtin (t : ToTextTarget) :
    (world C mark).renderWith ((world C mark).synth t) "?" =
      some (marked mark t.symbol) := by
  refine ((world C mark).synth_toText t "?").trans ?_
  cases t.symbol with
  | none => rfl
  | some p => rfl

theorem renderWith_dictionary (plan : DictPlan) :
    (world C mark).renderWith ((world C mark).dictionary C plan) "?" =
      some (given C mark plan) := by
  unfold World.dictionary
  cases plan with
  | given c =>
    rw [ProofTree.run_given]
    rfl
  | rule k ts =>
    rw [ProofTree.run_rule, World.apply]
    show _ = some (match C.builtinOf k with | none => _ | some t => _)
    cases C.builtinOf k with
    | none => rfl
    | some t => exact renderWith_builtin C mark t

end

end Trace

/-- What code gives in the tracing world, when it passes its argument to `plan`. -/
theorem PassesTo.given {C : TextCtx} {t : Ty} {code : IrExpr → IrExpr} (h : PassesTo C t code)
    (mark : String × String) :
    ∃ plan, EvidenceFor C (.toText t) plan ∧
      (Trace.world C mark).eval Trace.env (code (.lit (.text "?"))) =
        some (.value (Trace.given C mark plan)) := by
  obtain ⟨plan, hplan, hcode⟩ := h
  refine ⟨plan, hplan, ?_⟩
  rw [hcode _ _ (Trace.linked C mark) _ "?" (Trace.eval_arg C mark),
    Trace.renderWith_dictionary]
  rfl

open List Option

/-! ## Tables -/

namespace TextCtx

variable {C : TextCtx}

/-- Interpolation and dictionaries name the same built-in renderings. -/
theorem wrapToText_con (C : TextCtx) (arg : IrExpr) (id : TyConId) (args : List Ty) :
    C.wrapToText arg (some (.con id args)) =
      match C.target id with
      | some t => (t.call arg, [])
      | none =>
        match C.tryInstanceToText arg id with
        | some call => (call, [])
        | none => (arg, [.toTextLowering]) := by
  unfold wrapToText target preludeTotextTarget
  simp only [C.closedToText_eq]
  cases hactor : actorErrorToTextFn C.stdlibTycon id with
  | none =>
    cases builtinTarget C.builtins id with
    | none =>
      cases C.tryInstanceToText arg id with
      | none => rfl
      | some call => rfl
    | some t => rfl
  | some bridge =>
    have hnone := C.actorErrors_fresh id (by rw [hactor]; rfl)
    rw [hnone]

theorem target_text : C.target C.builtins.text = some .identity := by
  have htext : builtinTarget C.builtins C.builtins.text = some .identity := by
    unfold builtinTarget
    rw [if_pos rfl]
  unfold target preludeTotextTarget
  cases hactor : actorErrorToTextFn C.stdlibTycon C.builtins.text with
  | none => exact htext
  | some bridge =>
    have hnone := C.actorErrors_fresh _ (by rw [hactor]; rfl)
    rw [htext] at hnone
    exact nomatch hnone

theorem eq_text_of_target {id : TyConId} {t : ToTextTarget} (h : C.target id = some t)
    (hsymbol : t.symbol = none) : id = C.builtins.text := by
  unfold target preludeTotextTarget at h
  split at h
  · rw [some.injEq] at h
    rw [← h] at hsymbol
    exact nomatch hsymbol
  · unfold builtinTarget at h
    split_ifs at h with htext
    · exact htext
    all_goals
      rw [some.injEq] at h
      rw [← h] at hsymbol
      exact nomatch hsymbol

theorem dictParam_single (v : TyVid) :
    C.dictParam ⟨totextClass, [v]⟩ = "$dict_" ++ C.className totextClass ++ "_" ++ Nat.repr v := rfl

/-- Parameters of different variables have different names. -/
theorem dictParam_inj {v w : TyVid}
    (h : C.dictParam ⟨totextClass, [v]⟩ = C.dictParam ⟨totextClass, [w]⟩) : v = w := by
  rw [dictParam_single, dictParam_single, ← String.toList_inj] at h
  have hlists : (_ ++ (Nat.repr v).toList) = (_ ++ (Nat.repr w).toList) :=
    String.toList_append.symm.trans (h.trans String.toList_append)
  exact Nat.repr_injective (String.toList_inj.mp (append_cancel_left hlists))

theorem dictParam_ne (v : TyVid) : C.dictParam ⟨totextClass, [v]⟩ ≠ "?" := by
  intro h
  rw [dictParam_single, ← String.toList_inj] at h
  simp [String.toList_append] at h

end TextCtx

/-! ## Evidence run -/

namespace World

variable {W : World}

theorem dictionary_given (C : TextCtx) (c : Constraint) :
    W.dictionary C (.given c) = W.param c := ProofTree.run_given _ _ _

/-- The constant of an instance is a symbol of the program. -/
theorem eval_dictSymbol (C : TextCtx) (env : W.Env) (id : TyConId) (info : InstanceInfo) :
    W.eval env (.symbol (C.dictSymbol id info)) = W.symbol (C.dictSymbol id info) := by
  unfold TextCtx.dictSymbol instanceSymbol
  split
  · rw [World.eval]
    intro _ _ h
    exact nomatch h
  · split <;> rw [World.eval] <;> intro _ _ h <;> exact nomatch h

theorem dictionary_ground (C : TextCtx) (id : TyConId) :
    W.dictionary C (.rule ⟨totextClass, [id]⟩ []) =
      match C.target id with
      | some t => W.synth t
      | none => W.instantiate ⟨totextClass, [id]⟩ [] := by
  rw [World.dictionary, ProofTree.run_rule, World.apply, TextCtx.builtinOf_totext]
  rfl

end World

/-! ## The condition -/

/-- A hole is accepted: its type is one, the checker has no complaint and neither has the
lowering. -/
structure Hole.Accepted (C : TextCtx) (rigids : Nat → Option RigidInfo) (h : Hole) : Prop where
  typed : h.ty ≠ .error
  checked : C.checkHoleToText rigids h.ty = true
  lowered : (C.wrapToText h.inner h.recordedType).2 = []

/-- The type of the hole is `Text`; or it was recorded and is a constructor whose instance has no
context, or the variable of the first `ToText` constraint in scope. -/
def Hole.Direct (C : TextCtx) (h : Hole) : Prop :=
  match h.exported with
  | .con id _ => id = C.builtins.text ∨ (h.recorded = true ∧
      ∃ info, C.instances totextClass [id] = some info ∧ info.ctxConstraints = [])
  | .var v => h.recorded = true ∧
      C.currentFnConstraints.find? (·.cls = totextClass) = some ⟨totextClass, [v]⟩
  | _ => False

/-- The code of a hole, of the code of its expression. -/
def Hole.code (C : TextCtx) (h : Hole) (arg : IrExpr) : IrExpr :=
  (C.wrapToText arg h.recordedType).1

variable {rigids : Nat → Option RigidInfo} {h : Hole}

theorem Hole.Accepted.shape {C : TextCtx} (ha : h.Accepted C rigids) :
    (∃ id args, h.exported = .con id args ∧ (C.instances totextClass [id]).isSome = true) ∨
      ∃ v, h.exported = .var v := by
  have hc := ha.checked
  unfold Hole.exported
  cases ht : h.ty with
  | con id args =>
    rw [ht] at hc
    exact .inl ⟨id, Ty.abstractRigidsAll args, rfl, hc⟩
  | var v => exact .inr ⟨v, rfl⟩
  | rigid id name => exact .inr ⟨id, rfl⟩
  | error => exact absurd ht ha.typed
  | fn params ret caps | tuple ts | record fields tail
  | aliased name body => rw [ht] at hc; exact nomatch hc

section

variable {C : TextCtx}

/-! ### Constructors -/

variable {args : List Ty}

/-- An instance without a context is what its constant holds. -/
theorem passesTo_ground {id : TyConId} {info : InstanceInfo}
    (hinfo : C.instances totextClass [id] = some info) (hctx : info.ctxConstraints = []) :
    PassesTo C (.con id args) fun arg => (C.wrapToText arg (some (.con id args))).1 := by
  refine ⟨.rule ⟨totextClass, [id]⟩ [], .ground rfl hinfo hctx, ?_⟩
  intro W env hlinked arg v harg
  show W.eval env (C.wrapToText arg (some (.con id args))).1 = _
  rw [World.dictionary_ground, C.wrapToText_con]
  cases C.target id with
  | some t => exact World.eval_target t harg
  | none =>
    have hconst := hlinked.constants id info hinfo
    rw [if_pos hctx, ← World.eval_dictSymbol C env] at hconst
    simp only [TextCtx.tryInstanceToText, hinfo, map_some]
    exact World.eval_method hconst harg

theorem passesTo_text (args : List Ty) : PassesTo C (.con C.builtins.text args) id := by
  obtain ⟨info, hinfo, hctx⟩ := C.prelude C.builtins.text
    (by show (C.target C.builtins.text).isSome = true; rw [TextCtx.target_text]; rfl)
  refine ⟨.rule ⟨totextClass, [C.builtins.text]⟩ [], .ground rfl hinfo hctx, ?_⟩
  intro W env _ arg v harg
  rw [World.dictionary_ground, TextCtx.target_text]
  exact World.eval_target .identity harg

/-- The expression itself, passed on unrendered, is no rendering of any other constructor. -/
theorem eq_text_of_passesTo_id {id : TyConId} (h : PassesTo C (.con id args) fun arg => arg) :
    id = C.builtins.text := by
  obtain ⟨plan, hplan, hgiven⟩ := h.given ("", "")
  obtain ⟨info, premises, rfl, -, -⟩ := hplan.con rfl
  have hgiven : "?" = Trace.given C ("", "") _ :=
    Rt.value.inj (some.inj ((Trace.eval_arg C _).symm.trans hgiven))
  change "?" = (match C.target id with | none => _ | some t => _) at hgiven
  cases ht : C.target id with
  | none =>
    rw [ht] at hgiven
    exact absurd hgiven (by decide)
  | some t =>
    refine TextCtx.eq_text_of_target ht ?_
    rw [ht] at hgiven
    cases hs : t.symbol with
    | none => rfl
    | some p =>
      simp only [hs, Trace.marked] at hgiven
      split_ifs at hgiven <;> exact absurd hgiven (by decide)

/-- The constant of a parametric instance is no dictionary: a hole that uses it has no value. -/
theorem context_eq_nil_of_passesTo {id : TyConId} {info : InstanceInfo}
    (hinfo : C.instances totextClass [id] = some info)
    (h : PassesTo C (.con id args) fun arg => (C.wrapToText arg (some (.con id args))).1) :
    info.ctxConstraints = [] := by
  by_contra hctx
  -- a type with a built-in rendering has no context
  have htarget : C.target id = none := by
    cases ht : C.target id with
    | none => rfl
    | some t =>
      obtain ⟨info', hinfo', hnil⟩ := C.prelude id
        (by show (C.target id).isSome = true; rw [ht]; rfl)
      rw [hinfo, some.injEq] at hinfo'
      exact absurd (hinfo' ▸ hnil) hctx
  obtain ⟨plan, -, hgiven⟩ := h.given ("", "")
  simp only [C.wrapToText_con, htarget, TextCtx.tryInstanceToText, hinfo, map_some] at hgiven
  have hconst := (Trace.linked C ("", "")).constants id info hinfo
  rw [if_neg hctx, ← World.eval_dictSymbol C Trace.env] at hconst
  generalize IrExpr.symbol (C.dictSymbol id info) = dict at hconst hgiven
  simp only [World.eval, hconst] at hgiven
  exact nomatch hgiven

/-! ### Variables -/

/-- The dictionary of a constraint on the variable itself. -/
theorem passesTo_first {v : TyVid}
    (h : C.currentFnConstraints.find? (·.cls = totextClass) = some ⟨totextClass, [v]⟩) :
    PassesTo C (.var v) fun arg => (C.wrapToText arg (some (.var v))).1 := by
  have hmem := mem_of_find?_eq_some h
  refine ⟨.given ⟨totextClass, [v]⟩, .assumed hmem, ?_⟩
  intro W env hlinked arg w harg
  have hparam := hlinked.params _ hmem
  show W.eval env (C.wrapToText arg (some (.var v))).1 = _
  simp only [TextCtx.wrapToText, TextCtx.tryDictToText, h, map_some,
    World.dictionary_given]
  refine World.eval_method ?_ harg
  rw [World.eval]
  exact hparam

/-- What reaches the evidence of a variable is the parameter of that variable. -/
theorem first_of_passesTo {v : TyVid} {c : Constraint}
    (hfind : C.currentFnConstraints.find? (·.cls = totextClass) = some c)
    (h : PassesTo C (.var v) fun arg => (C.wrapToText arg (some (.var v))).1) :
    c = ⟨totextClass, [v]⟩ := by
  obtain ⟨plan, hplan, hgiven⟩ := h.given ("", "")
  obtain ⟨rfl, -⟩ := hplan.var
  have hcls : c.cls = totextClass := by simpa using find?_some hfind
  obtain ⟨w, hw⟩ := C.totext_unary c (mem_of_find?_eq_some hfind) hcls
  have hc : c = ⟨totextClass, [w]⟩ := by
    cases c
    simp only at hcls hw
    rw [hcls, hw]
  simp only [TextCtx.wrapToText, TextCtx.tryDictToText, hfind, map_some] at hgiven
  have hcall := World.eval_method (World.eval_local (W := Trace.world C ("", "")) Trace.env
    (C.dictParam c)) (Trace.eval_arg C ("", ""))
  have hname : C.dictParam c = C.dictParam ⟨totextClass, [v]⟩ :=
    Rt.value.inj (some.inj (hcall.symm.trans hgiven))
  rw [hc] at hname ⊢
  rw [TextCtx.dictParam_inj hname]

/-- The expression itself is no rendering of a variable. -/
theorem not_passesTo_id_var {v : TyVid} : ¬ PassesTo C (.var v) fun arg => arg := by
  intro h
  obtain ⟨plan, hplan, hgiven⟩ := h.given ("", "")
  obtain ⟨rfl, -⟩ := hplan.var
  have hname : "?" = C.dictParam ⟨totextClass, [v]⟩ :=
    Rt.value.inj (some.inj ((Trace.eval_arg C _).symm.trans hgiven))
  exact TextCtx.dictParam_ne v hname.symm

/-! ### Holes -/

/-- A hole that was not recorded is passed on as it is. -/
theorem Hole.code_unrecorded (hr : h.recorded = false) (arg : IrExpr) : h.code C arg = arg := by
  unfold Hole.code Hole.recordedType
  rw [hr]
  rfl

theorem Hole.code_recorded (hr : h.recorded = true) (arg : IrExpr) :
    h.code C arg = (C.wrapToText arg (some h.exported)).1 := by
  unfold Hole.code Hole.recordedType
  rw [hr]
  rfl

/-- An accepted hole is passed to evidence for exactly its type when it is direct, and only then. -/
theorem Hole.passesTo_iff (ha : h.Accepted C rigids) :
    PassesTo C h.exported (h.code C) ↔ h.Direct C := by
  unfold Hole.Direct
  rcases ha.shape with ⟨id, args, ht, hinst⟩ | ⟨v, ht⟩
  · obtain ⟨info, hinfo⟩ := isSome_iff_exists.mp hinst
    rw [ht]
    cases hr : h.recorded with
    | false =>
      rw [show h.code C = fun arg => arg from funext (Hole.code_unrecorded hr)]
      show _ ↔ id = C.builtins.text ∨ (false = true ∧ _)
      constructor
      · exact fun hp => .inl (eq_text_of_passesTo_id hp)
      · rintro (rfl | ⟨hfalse, -⟩)
        · exact passesTo_text args
        · exact nomatch hfalse
    | true =>
      rw [show h.code C = fun arg => (C.wrapToText arg (some (.con id args))).1 from
        funext fun arg => ht ▸ Hole.code_recorded hr arg]
      show _ ↔ id = C.builtins.text ∨ (true = true ∧ _)
      constructor
      · exact fun hp => .inr ⟨rfl, info, hinfo, context_eq_nil_of_passesTo hinfo hp⟩
      · rintro (htext | ⟨-, info', hinfo', hctx⟩)
        · obtain ⟨info', hinfo', hctx⟩ := C.prelude id
            (by show (C.target id).isSome = true; rw [htext, TextCtx.target_text]; rfl)
          exact passesTo_ground hinfo' hctx
        · exact passesTo_ground hinfo' hctx
  · rw [ht]
    cases hr : h.recorded with
    | false =>
      rw [show h.code C = fun arg => arg from funext (Hole.code_unrecorded hr)]
      show _ ↔ (false = true ∧ _)
      exact ⟨fun hp => absurd hp not_passesTo_id_var, fun hd => nomatch hd.1⟩
    | true =>
      rw [show h.code C = fun arg => (C.wrapToText arg (some (.var v))).1 from
        funext fun arg => ht ▸ Hole.code_recorded hr arg]
      show _ ↔ (true = true ∧ _)
      constructor
      · intro hp
        cases hfind : C.currentFnConstraints.find? (·.cls = totextClass) with
        | some c => exact ⟨rfl, congrArg some (first_of_passesTo hfind hp)⟩
        | none =>
          -- with no constraint in scope the lowering reports the hole
          have hlow := ha.lowered
          unfold Hole.recordedType at hlow
          rw [hr, if_pos rfl, ht] at hlow
          simp [TextCtx.wrapToText, TextCtx.tryDictToText, hfind] at hlow
      · exact fun hd => passesTo_first hd.2

end

end Ridge
