import Ridge.ToText.Derived

/-!
# What a field of a derived `ToText` is rendered with

The condition under which a field is passed to evidence for its own type, and how the slots of a
derived body are bound and joined.
-/

namespace Ridge

open Evidence List

/-- The evidence for `ToText` is at a constructor or a variable. -/
theorem EvidenceFor.shape {C : TextCtx} {t : Ty} {plan : DictPlan}
    (h : EvidenceFor C (.toText t) plan) :
    (∃ v, t.deepPeelAlias = .var v ∧ C.currentFnConstraints ≠ []) ∨
      ∃ id args, t.deepPeelAlias = .con id args := by
  cases h with
  | @given c _ h =>
    obtain ⟨hmem, -, htys⟩ := h
    left
    simp only [Goal.toText, map_cons, map_nil] at htys
    obtain ⟨v, -, hv⟩ := mem_map.mp
      (htys ▸ mem_singleton_self _ : t.deepPeelAlias ∈ c.tys.map Ty.var)
    exact ⟨v, hv.symm, ne_nil_of_mem hmem⟩
  | @rule k _ _ _ h _ _ =>
    obtain ⟨info, args, -, -, htys, -, -⟩ := h
    right
    simp only [Goal.toText, map_cons, map_nil] at htys
    obtain ⟨p, -, hp⟩ := mem_map.mp
      (htys ▸ mem_singleton_self _ :
        t.deepPeelAlias ∈ (k.head.zip args).map fun p => Ty.con p.1 p.2)
    exact ⟨p.1, p.2, hp.symm⟩

namespace TextCtx

/-- The tables as they are outside every function: no dictionary is in scope. -/
def topLevel (C : TextCtx) : TextCtx :=
  { C with currentFnConstraints := [], totext_unary := fun _ h => nomatch h }

def slotTarget (C : TextCtx) : Option TyConId → ToTextTarget
  | some id => C.fieldTarget id
  | none => .identity

theorem renderSlot_eq (C : TextCtx) (tycon : Option TyConId) (arg : IrExpr) :
    C.renderSlot tycon arg = (C.slotTarget tycon).call arg := by
  cases tycon with
  | some id => rfl
  | none => rfl

end TextCtx

/-- The type of a field has a built-in rendering, and it is the one its written name is known to
have: the field is `Text`, or one of the other built-in types of `wrap_to_text_by_tycon` written by
its bare name. -/
def TypeScope.WrittenDirectly (S : TypeScope) (C : TextCtx) (ty : TypeExpr) : Prop :=
  ∃ id args t, (S.astTypeToRidgeType ty).deepPeelAlias = .con id args ∧
    C.target id = some t ∧ t.symbol = (C.slotTarget (S.resolveAstTypeToTyconId ty)).symbol

/-- The code of a field, of the code of its value. -/
def TypeScope.fieldCode (S : TypeScope) (C : TextCtx) (ty : TypeExpr) (arg : IrExpr) : IrExpr :=
  C.renderSlot (S.resolveAstTypeToTyconId ty) arg

section

variable {C : TextCtx}

theorem World.renderWith_synth {W : World} (t : ToTextTarget) (v : W.V) :
    W.renderWith (W.synth t) v =
      match t.symbol with
      | none => some v
      | some (m, f) => W.host m f [v] := W.synth_toText t v

/-- What a built-in rendering gives in the tracing world. -/
theorem Trace.eval_target (mark : String × String) (t : ToTextTarget) :
    (Trace.world C mark).eval Trace.env (t.call (.lit (.text "?"))) =
      some (.value (Trace.marked mark t.symbol)) := by
  rw [World.eval_target t (Trace.eval_arg C mark), Trace.renderWith_builtin]
  rfl

/-- Two built-in renderings that no mark tells apart are one. -/
theorem symbol_eq_of_traces {a b : Option (String × String)}
    (h : ∀ mark, Trace.marked mark a = Trace.marked mark b) : a = b := by
  cases a with
  | none =>
    cases b with
    | none => rfl
    | some q => exact absurd (h q) (by simp [Trace.marked])
  | some p =>
    have hp := h p
    cases b with
    | none => exact absurd hp (by simp [Trace.marked])
    | some q =>
      simp only [Trace.marked, if_true] at hp
      by_cases hq : q = p
      · rw [hq]
      · rw [if_neg hq] at hp
        exact absurd hp (by decide)

/-- A field of a derived instance is passed to evidence for exactly its type when it is written
directly, and only then. -/
theorem field_passesTo_iff (S : TypeScope) (ty : TypeExpr) :
    PassesTo C.topLevel (S.astTypeToRidgeType ty) (S.fieldCode C ty) ↔ S.WrittenDirectly C ty := by
  constructor
  · intro h
    have ⟨plan₀, hplan₀, _⟩ := h
    rcases hplan₀.shape with ⟨v, -, hne⟩ | ⟨id, args, ht⟩
    · exact absurd rfl hne
    · -- the evidence gives what the built-in rendering of the slot gives, whatever is marked
      have htrace : ∀ mark, ∃ premises,
          Trace.given C.topLevel mark (.rule ⟨totextClass, [id]⟩ premises) =
            Trace.marked mark (C.slotTarget (S.resolveAstTypeToTyconId ty)).symbol := by
        intro mark
        obtain ⟨plan, hplan, hgiven⟩ := h.given mark
        obtain ⟨info, premises, rfl, -, -⟩ := hplan.con ht
        refine ⟨premises, ?_⟩
        unfold TypeScope.fieldCode at hgiven
        rw [C.renderSlot_eq, Trace.eval_target] at hgiven
        exact (Rt.value.inj (Option.some.inj hgiven)).symm
      have hrule : ∀ mark premises,
          Trace.given C.topLevel mark (.rule ⟨totextClass, [id]⟩ premises) =
            (C.target id).elim "instance" fun t => Trace.marked mark t.symbol := by
        intro mark premises
        rw [Trace.given, show C.topLevel.builtinOf ⟨totextClass, [id]⟩ = C.target id from rfl]
        cases C.target id <;> rfl
      cases htarget : C.target id with
      | none =>
        -- an instance written in the program gives what no built-in rendering does
        obtain ⟨premises, hgiven⟩ := htrace ("", "")
        rw [hrule, htarget] at hgiven
        cases hs : (C.slotTarget (S.resolveAstTypeToTyconId ty)).symbol with
        | none =>
          rw [hs] at hgiven
          exact absurd hgiven (by decide)
        | some p =>
          simp only [hs, Trace.marked] at hgiven
          split_ifs at hgiven <;> exact absurd hgiven (by decide)
      | some t =>
        refine ⟨id, args, t, ht, htarget, symbol_eq_of_traces fun mark => ?_⟩
        obtain ⟨premises, hgiven⟩ := htrace mark
        rw [hrule, htarget] at hgiven
        exact hgiven
  · rintro ⟨id, args, t, ht, htarget, hsymbol⟩
    obtain ⟨info, hinfo, hctx⟩ := C.prelude id
      (by show (C.target id).isSome = true; rw [htarget]; rfl)
    refine ⟨.rule ⟨totextClass, [id]⟩ [], .ground (C := C.topLevel) ht hinfo hctx, ?_⟩
    intro W env _ arg v harg
    have htarget' : C.topLevel.target id = some t := htarget
    unfold TypeScope.fieldCode
    rw [World.dictionary_ground, htarget', C.renderSlot_eq, World.eval_target _ harg]
    show Option.map _ (W.renderWith (W.synth _) v) = Option.map _ (W.renderWith (W.synth t) v)
    rw [World.renderWith_synth, World.renderWith_synth, hsymbol]

end

/-! ## Joining slots -/

section

variable {W : World}

/-- The expression evaluates to a text. -/
def World.IsText (W : World) (env : W.Env) (e : IrExpr) : Prop :=
  ∃ s, W.eval env e = some (.value (W.text s))

theorem World.IsText.lit (env : W.Env) (s : String) : W.IsText env (.lit (.text s)) :=
  ⟨s, World.eval_text env s⟩

variable {env : W.Env}

theorem World.IsText.concat {a b : IrExpr} (ha : W.IsText env a) (hb : W.IsText env b) :
    W.IsText env (TextCtx.makeConcatCall a b) := by
  obtain ⟨s, hs⟩ := ha
  obtain ⟨t, ht⟩ := hb
  exact ⟨s ++ t, World.eval_concat hs ht⟩

theorem World.IsText.foldl {es : List IrExpr} (hes : ∀ e ∈ es, W.IsText env e) :
    ∀ {acc}, W.IsText env acc → W.IsText env (es.foldl TextCtx.makeConcatCall acc) := by
  induction es with
  | nil => exact fun h => h
  | cons e es ih =>
    intro acc hacc
    have ⟨he, hrest⟩ := forall_mem_cons.mp hes
    exact ih hrest (hacc.concat he)

theorem World.IsText.appendSlots {slots : List (Option String × IrExpr)}
    (hslots : ∀ s ∈ slots, W.IsText env s.2) :
    ∀ {acc idx}, W.IsText env acc → W.IsText env (TextCtx.appendSlots acc idx slots) := by
  -- on the slots: a separator, a label and a value are joined to a text
  induction slots with
  | nil => exact fun h => h
  | cons slot slots ih =>
    intro acc idx hacc
    have ⟨hslot, hrest⟩ := forall_mem_cons.mp hslots
    obtain ⟨label, value⟩ := slot
    unfold TextCtx.appendSlots
    refine ih hrest (World.IsText.concat ?_ hslot)
    have hsep : W.IsText env
        (if 0 < idx then TextCtx.makeConcatCall acc (.lit (.text ", ")) else acc) := by
      split_ifs
      · exact hacc.concat (.lit env _)
      · exact hacc
    cases label with
    | none => exact hsep
    | some l => exact hsep.concat (.lit env _)

/-! ## Binding slots -/

variable {binds : List (String × W.V)} {x : String}

theorem bindAll_of_notMem (hx : x ∉ binds.map (·.1)) :
    ∀ env : W.Env, World.Env.bindAll env binds x = env x := by
  induction binds with
  | nil => exact fun _ => rfl
  | cons p ps ih =>
    intro env
    rw [map_cons, mem_cons, not_or] at hx
    show World.Env.bindAll (fun y => if y = p.1 then some (.value p.2) else env y) ps x = _
    rw [ih hx.2]
    exact if_neg hx.1

theorem bindAll_of_mem {v : W.V} (hnodup : (binds.map (·.1)).Nodup) (hmem : (x, v) ∈ binds) :
    ∀ env : W.Env, World.Env.bindAll env binds x = some (.value v) := by
  induction binds with
  | nil => exact nomatch hmem
  | cons p ps ih =>
    intro env
    rw [map_cons, nodup_cons] at hnodup
    show World.Env.bindAll (fun y => if y = p.1 then some (.value p.2) else env y) ps x = _
    rcases mem_cons.mp hmem with rfl | hmem
    · rw [bindAll_of_notMem hnodup.1]
      exact if_pos rfl
    · exact ih hnodup.2 hmem _

variable {vs : List W.V}

theorem matchPats_binds {xs : List String} (h : xs.length = vs.length) :
    W.matchPats (xs.map fun x => .bind x none) vs = some (xs.zip vs) := by
  induction xs generalizing vs with
  | nil =>
    rw [length_nil] at h
    rw [length_eq_zero_iff.mp h.symm]
    rfl
  | cons x xs ih =>
    cases vs with
    | nil => exact nomatch h
    | cons v vs =>
      rw [map_cons, World.matchPats, World.matchPat, ih (by simpa using h)]
      rfl

theorem matchFields_binds {r : W.V} {fields xs : List String} (hx : fields.length = xs.length)
    (h : List.Forall₂ (fun f v => W.field r f = some v) fields vs) :
    W.matchFields (fields.zip (xs.map fun x => .bind x none)) r = some (xs.zip vs) := by
  induction h generalizing xs with
  | nil =>
    rw [length_nil] at hx
    rw [length_eq_zero_iff.mp hx.symm]
    rfl
  | cons hf _ ih =>
    cases xs with
    | nil => exact nomatch hx
    | cons x xs =>
      rw [map_cons, zip_cons_cons, World.matchFields, hf, Option.bind_some,
        World.matchPat, ih (by simpa using hx)]
      rfl

end

end Ridge
