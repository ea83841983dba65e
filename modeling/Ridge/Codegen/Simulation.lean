import Ridge.Codegen.Frames

/-!
# Lowering tracks the meaning of a body

By induction on the expression: the emitted code of an expression does what the expression
means, and the stripped code of a body without a frame does it up to its tail returns.
-/

namespace Ridge

open Early Monitor List Bool

variable {value body : IrExpr}

variable {W : Type} {M : Machine W} {apply apply' : HostVal → List HostVal → HostRun W HostVal}
  {T : CodegenTables} {framed inTry : Bool}

/-! ## Equations of the overlapping cases -/

section

-- Generates the equations of the two definitions before the lemmas that rewrite with them: those
-- are elaborated side by side, and each would wait for the same equations.
attribute [local simp] lowerExpr lowerBlock runSource runBlock

end

theorem lowerFieldOf_none {name : String} :
    ∀ {fields : List (String × IrExpr)}, hasKey name fields = false →
      lowerFieldOf T name fields = none
  | [], _ => by rw [lowerFieldOf]
  | (key, e) :: fs, h => by
    simp only [hasKey, List.any_cons, or_eq_false_iff, decide_eq_false_iff_not] at h
    rw [lowerFieldOf, if_neg h.1]
    exact lowerFieldOf_none h.2

/-- A statement that is not the last of its block, before the rest of the block. -/
def runStmt (M : Machine W) (apply : HostVal → List HostVal → HostRun W HostVal) (p : Place)
    (stmt : IrExpr) (rest : HostRun W HostVal) : HostRun W HostVal :=
  match stmt with
  | .assign (.local name) value =>
    Early.bind (runSource M apply p value) fun v =>
      Early.bind (HostRun.setLocal name v) fun _ => rest
  | .assign (.stateField _) _ => HostRun.rejected
  | .letIn _ _ _ => HostRun.rejected
  | .varIn _ _ _ => HostRun.rejected
  | e => Early.bind (runSource M apply p e) fun _ => rest

def lowerStmt (T : CodegenTables) (stmt : IrExpr) (rest : Host) : Host :=
  match stmt with
  | .assign (.local name) value => .assign name (lowerExpr T value) rest
  | .assign (.stateField name) _ => .reject (.stateFieldAssign name)
  | .letIn _ _ _ => .reject .continuationFormInBlock
  | .varIn _ _ _ => .reject .continuationFormInBlock
  | e => .seq (lowerExpr T e) rest

theorem runBlock_cons (p : Place) (e e' : IrExpr) (es : List IrExpr) :
    runBlock M apply p (e :: e' :: es) = runStmt M apply p e (runBlock M apply p (e' :: es)) := by
  cases e
  case assign target value => cases target <;> rfl
  all_goals rfl

theorem lowerBlock_cons (e : IrExpr) {rest : List IrExpr} (h : rest ≠ []) :
    lowerBlock T (e :: rest) = lowerStmt T e (lowerBlock T rest) := by
  cases rest with
  | nil => exact absurd rfl h
  | cons e' es =>
    cases e
    case assign target value => cases target <;> rw [lowerBlock] <;> first | rfl | simp
    all_goals rw [lowerBlock] <;> first | rfl | simp

theorem runOperands_append (hs hs' : List Host) :
    runOperands M apply (hs ++ hs') = runOperands M apply hs ++ runOperands M apply hs' := by
  induction hs with
  | nil => rfl
  | cons h hs ih => simp only [cons_append, runOperands, ih]

theorem runOperands_tail (hs : List Host) :
    runOperands M apply hs.tail = (runOperands M apply hs).tail := by
  cases hs with
  | nil => rfl
  | cons h hs => rfl

theorem length_runOperands (hs : List Host) : (runOperands M apply hs).length = hs.length := by
  induction hs with
  | nil => rfl
  | cons h hs ih => simp only [runOperands, length_cons, ih]

/-! ## Shapes shared by many forms -/

section Shapes

variable (happly : ∀ f args, EmitsPlain (apply f args) (apply' f args))

variable {ms : List (HostRun W HostVal)}

variable {hs : List Host}

include happly in
theorem Emits.operate {op : HostOp}
    (h : List.Forall₂ (Emits framed inTry) ms (runOperands M apply' hs)) :
    Emits framed inTry (Early.bind (Early.all ms) (perform M apply op))
      (runHost M apply' (.operate op hs)) := by
  rw [runHost]
  apply (Tracks.all h).bind
  intro vs
  exact (EmitsPlain.perform happly op vs).emits

include happly in
theorem Emits.staticCall (sym : SymbolRef)
    (h : List.Forall₂ (Emits framed inTry) ms (runOperands M apply' hs)) :
    Emits framed inTry (runStaticCall M apply sym ms) (runHost M apply' (staticCall sym hs)) := by
  have hlen : ms.length = hs.length := by rw [h.length_eq, length_runOperands]
  unfold runStaticCall Ridge.staticCall
  rw [hlen]
  cases calleeError sym hs.length with
  | some err => exact (EmitsPlain.error _).emits
  | none =>
    have hhead : Emits framed inTry (ms.headD HostRun.rejected)
        (runHost M apply' (hs.headD (.reject (.argCount sym 1 0)))) := by
      cases hs with
      | nil =>
        cases h
        exact (EmitsPlain.error _).emits
      | cons _ _ =>
        cases h with
        | cons hm _ => exact hm
    have hcall : Emits framed inTry
        (if isIdentityCall sym then ms.headD HostRun.rejected
          else Early.bind (Early.all ms) (perform M apply (.callSymbol sym)))
        (runHost M apply' (if isIdentityCall sym then hs.headD (.reject (.argCount sym 1 0))
          else .operate (.callSymbol sym) hs)) := by
      split
      · exact hhead
      · exact Emits.operate happly h
    cases sym with
    | constructor kind name | prelude name => exact Emits.operate happly h
    | «local» name module => exact hcall
    | stdlib module name => exact hcall
    | external module name => exact hcall
    | handler actorModule actor handler => exact hcall
    | actorType module name => exact hcall
    | method cls method => exact hcall

variable {m : HostRun W HostVal}

theorem Emits.whenHandler (message : SymbolRef) {h : Host}
    (hm : Emits framed inTry m (runHost M apply' h)) :
    Emits framed inTry (whenHandler message m) (runHost M apply' (withHandler message h)) := by
  cases message
  case handler => exact hm
  all_goals exact (EmitsPlain.error _).emits

theorem Emits.whenActor (actor : SymbolRef) {h : Host}
    (hm : Emits framed inTry m (runHost M apply' h)) :
    Emits framed inTry (whenActor actor m) (runHost M apply' (withActor actor h)) := by
  cases actor
  case actorType => exact hm
  all_goals exact (EmitsPlain.error _).emits

/-- Code that contains its throws, in step: no exit leaves it. -/
theorem Emits.plain {m h : HostRun W HostVal} (hm : Emits framed inTry m h) (hc : Contained h) :
    EmitsPlain m h where
  marked := hm.marked
  fine := hm.fine
  markedTarget := hm.markedTarget
  run := by
    intro s t hst hfin
    rcases hm.run s t hst hfin with ⟨hin, hend⟩ | ⟨hs, ht | ⟨d, hd, hp⟩⟩
    · refine .inl ⟨hin, ?_⟩
      -- a control throw would have been written down
      have hnot : ∀ tag v, (h t).1 ≠ .error (.raised "throw" (controlReason tag v)) := by
        intro tag v hthrow
        have hesc := hc.run t _ hthrow ⟨_, _, rfl, by simp⟩
        have h0 : (h t).2.escapes = 0 := hin.2.2
        omega
      rcases hend.cases with ⟨v, hv, hv'⟩ | ⟨e, d, he, hd, hed⟩
      · rw [hv, hv']
        exact (rfl : v = v)
      · rw [he, hd]
        cases e with
        | returned v | exited v => exact absurd (hed.2 ▸ hd) (hnot _ v)
        | raised cls reason => exact hed
        | timeout => exact hed
    · exact .inr ⟨hs, .inl ht⟩
    · refine .inr ⟨hs, .inl ?_⟩
      rcases hp with ⟨_, v, rfl⟩ | ⟨_, v, rfl⟩
      · exact hc.run t _ hd ⟨_, _, rfl, by simp⟩
      · exact hc.run t _ hd ⟨_, _, rfl, by simp⟩

/-- A guard, kept in its clause only if its code contains its throws. -/
theorem Emits.guardValue {kept : Bool} {m h : HostRun W HostVal} (hm : Emits framed inTry m h)
    (hc : kept = true → Contained h) :
    Emits framed inTry (HostRun.guardValue kept m) (HostRun.guardValue kept h) := by
  cases kept with
  | true => exact ((hm.plain (hc rfl)).keptGuard).emits
  | false => exact hm.liftedGuard

/-- An operand with no code opposite it, which a fine run shows to be silent. -/
theorem Emits.discard {f : HostVal → HostRun W HostVal} {h : HostRun W HostVal}
    (hf : ∀ v, Emits framed inTry (f v) h) :
    Emits framed inTry (Early.bind (HostRun.discarded m) f) h := by
  have : Nonempty HostVal := ⟨.nil⟩
  refine Tracks.skip (fun _ hs => hs) ?_ ?_ hf
  · intro s hs d hd
    exact hs d (mem_append_left _ hd)
  · rintro s t ⟨hst, hu, he⟩ hs
    have hsilent := hs ⟨s.store, HostRun.endsInValue (m s).1, (m s).2.store⟩
      (mem_append_right _ (mem_singleton.mpr rfl))
    obtain ⟨hvalue, hsame⟩ := hsilent
    dsimp only at hvalue hsame
    rcases hr : (m s).1 with e | v
    · rw [hr] at hvalue
      exact absurd hvalue (by simp [HostRun.endsInValue])
    · exact ⟨v, hr, by show (m s).2.store = t.store; rw [hsame, hst], hu, he⟩

theorem landReturn_landReturn (r : Except Leave HostVal) :
    HostRun.landReturn (HostRun.landReturn r) = HostRun.landReturn r := by
  rcases r with (v | v | ⟨c, w⟩ | _) | v <;> rfl

/-- The operands after the one that is read. -/
theorem emits_unread {p : Place} (name : String) (fields : List (String × IrExpr)) (v : HostVal) :
    Emits framed inTry (runLiteral M apply p name fields (some v)) (Early.pure v) := by
  induction fields with
  | nil => exact Tracks.pure v
  | cons f fs ih => exact Emits.discard fun _ => ih

/-- A `return` whose value is what the stripped code yields. -/
theorem returnHere_ret (m : HostRun W HostVal) (inTry : Bool) :
    HostRun.returnHere (Early.bind m fun v =>
      Early.bind (HostRun.noteReturn ⟨false, false, inTry⟩) fun _ => Early.leave (.returned v)) =
      HostRun.returnHere m := by
  funext s
  show (HostRun.landReturn (Early.bind m _ s).1, (Early.bind m _ s).2) =
    (HostRun.landReturn (m s).1, (m s).2)
  rcases hr : m s with ⟨e | v, s'⟩
  · rw [bind_of_error hr]
  · rw [bind_of_ok hr]
    rfl

/-- The rest of a body follows a step that no `return` of the function leaves. -/
theorem Emits.bind_tail {α : Type} {m h : HostRun W α} {f g : α → HostRun W HostVal}
    (hm : Emits false inTry m h) (hf : ∀ a, Emits false inTry (HostRun.returnHere (f a)) (g a)) :
    Emits false inTry (HostRun.returnHere (Early.bind m f)) (Early.bind h g) := by
  have heq : HostRun.returnHere (Early.bind m f) =
      HostRun.returnHere (Early.bind m fun a => HostRun.returnHere (f a)) := by
    funext s
    show (HostRun.landReturn (Early.bind m f s).1, (Early.bind m f s).2) =
      (HostRun.landReturn (Early.bind m (fun a => HostRun.returnHere (f a)) s).1,
        (Early.bind m (fun a => HostRun.returnHere (f a)) s).2)
    rcases hr : m s with ⟨e | a, s'⟩
    · rw [bind_of_error hr, bind_of_error hr]
    · rw [bind_of_ok hr, bind_of_ok hr]
      show (_, _) = (HostRun.landReturn (HostRun.landReturn (f a s').1), _)
      rw [landReturn_landReturn]
      rfl
  rw [heq]
  exact Emits.returnHere (hm.bind hf)

theorem bodyEnd_returnHere : BodyEnd (W := W) false inTry HostRun.returnHere where
  of := Emits.returnHere
  bind := Emits.bind_tail
  withLocals bindings h := h.withLocals bindings

end Shapes

/-! ## Forms, given their parts -/

section Forms

variable {p : Place}

variable {land : HostRun W HostVal → HostRun W HostVal} (hland : BodyEnd framed inTry land)
include hland

theorem Emits.letIn (pat : IrPat) {body' : IrExpr}
    (hv : Emits framed inTry (runSource M apply p value) (runHost M apply' (lowerExpr T value)))
    (hb : Emits framed inTry (land (runSource M apply p body))
      (runHost M apply' (lowerExpr T body'))) :
    Emits framed inTry (land (runSource M apply p (.letIn pat value body)))
      (runHost M apply' (lowerExpr T (.letIn pat value body'))) := by
  by_cases hbind : ∃ name, pat = .bind name none
  · obtain ⟨name, rfl⟩ := hbind
    by_cases hlam : ∃ params source, value = .lambda params source
    · obtain ⟨params, source, rfl⟩ := hlam
      rw [lowerExpr, runSource]
      split
      · apply hland.bind (EmitsPlain.capture _ params source).emits
        intro v
        exact hland.withLocals [(name, v)] hb
      · apply hland.bind (EmitsPlain.capture _ params source).emits
        intro v
        exact hland.withLocals [(name, v)] hb
    · have hne : ∀ params source, value ≠ .lambda params source :=
        fun params source heq => hlam ⟨params, source, heq⟩
      rw [lowerExpr, runSource]
      · apply hland.bind hv
        intro v
        exact hland.withLocals [(name, v)] hb
      · exact hne
      · exact hne
  · have hne : ∀ name, pat ≠ .bind name none := fun name heq => hbind ⟨name, heq⟩
    rw [lowerExpr, runSource]
    · apply hland.bind hv
      intro v
      exact Emits.matchClause hland pat v (.inl ⟨rfl, rfl⟩) hb
        (hland.of (EmitsPlain.unmatched v).emits)
    all_goals first | exact hne | exact fun a _ _ d => absurd d (hne a)

/-- A statement before the rest of its block; of an assignment only the value is run. -/
theorem Emits.stmt {e : IrExpr} {k : HostRun W HostVal} {k' : Host}
    (hassign : ∀ name value, e = .assign (.local name) value →
      Emits framed inTry (runSource M apply p value) (runHost M apply' (lowerExpr T value)))
    (he : Emits framed inTry (runSource M apply p e) (runHost M apply' (lowerExpr T e)))
    (hk : Emits framed inTry (land k) (runHost M apply' k')) :
    Emits framed inTry (land (runStmt M apply p e k)) (runHost M apply' (lowerStmt T e k')) := by
  cases e
  case assign target value =>
    cases target with
    | «local» name =>
      apply hland.bind (hassign name value rfl)
      intro v
      exact hland.bind (EmitsPlain.setLocal name v).emits fun _ => hk
    | stateField name => exact hland.of (EmitsPlain.error _).emits
  case letIn => exact hland.of (EmitsPlain.error _).emits
  case varIn => exact hland.of (EmitsPlain.error _).emits
  all_goals exact hland.bind he fun _ => hk

end Forms

/-! ## The induction -/

section Induction

theorem forall₂_append {α β : Type} {R : α → β → Prop} {as as' : List α} {bs bs' : List β}
    (h : List.Forall₂ R as bs) (h' : List.Forall₂ R as' bs') :
    List.Forall₂ R (as ++ as') (bs ++ bs') := by
  induction h with
  | nil => exact h'
  | cons hab _ ih => exact .cons hab ih

theorem emits_lit (value : IrLit) (p : Place) :
    Emits framed inTry (runSource M apply p (.lit value))
      (runHost M apply' (lowerExpr T (.lit value))) := by
  cases value with
  | float x =>
    rw [lowerExpr, runSource]
    split
    · exact (EmitsPlain.error _).emits
    · exact Tracks.pure _
  | int n | bool b | text s | unit
  | emptyList => rw [lowerExpr]; exacts [Tracks.pure _, fun _ h => by cases h]

theorem forall₂_emitted {ms : List (HostRun W HostVal)} {hs : List Host} (skip : Bool)
    (h : List.Forall₂ (Emits framed inTry) ms (runOperands M apply' hs)) :
    List.Forall₂ (Emits framed inTry) (if skip then ms.tail else ms)
      (runOperands M apply' (if skip then hs.tail else hs)) := by
  cases skip with
  | false => exact h
  | true =>
    simp only [if_true, runOperands_tail]
    generalize runOperands M apply' hs = codes at h ⊢
    cases h with
    | nil => exact .nil
    | cons _ h => exact h

/-- Calls by the two readings: they track each other, and no control throw leaves one unseen. -/
structure Linked (apply apply' : HostVal → List HostVal → HostRun W HostVal) : Prop where
  emits : ∀ f args, EmitsPlain (apply f args) (apply' f args)
  contained : ∀ f args, Contained (apply' f args)

mutual

theorem emits_source (L : Linked apply apply') (p : Place) (e : IrExpr) (h : Covered p (hasNonTailReturnInner e false)) :
    Emits p.framed p.inTry (runSource M apply p e) (runHost M apply' (lowerExpr M.tables e)) := by
  match e, h with
  | .lit value, _ => exact emits_lit value p
  | .local name, _ =>
    rw [lowerExpr]
    exact (EmitsPlain.readLocal name).emits
  | .symbol sym, _ =>
    rw [lowerExpr]
    exact (EmitsPlain.symbolValue L.emits sym).emits
  | .listLit elems, h | .tuple elems, h =>
    rw [lowerExpr]
    exact Emits.operate L.emits (emits_each L p elems h)
  | .cons head tail, h =>
    rw [lowerExpr]
    exact Emits.operate L.emits
      (.cons (emits_source L p head h.left) (.cons (emits_source L p tail h.right) .nil))
  | .letIn pat value body, h =>
    exact Emits.letIn bodyEnd_id pat (emits_source L p value h.left) (emits_source L p body h.right)
  | .varIn name value body, h =>
    rw [lowerExpr]
    apply (emits_source L p value h.left).bind
    intro v
    exact (emits_source L p body h.right).withLocals [(name, v)]
  | .assign target value, _ =>
    cases target with
    | «local» name | stateField name => rw [lowerExpr]; exact (EmitsPlain.error _).emits
  | .ret value, h =>
    have hw : p.framed = true ∨ p.update = true := by
      rcases h with h | h | h
      · exact .inl h
      · exact .inr h
      · simp [hasNonTailReturnInner] at h
    have hvalue : Covered p (hasNonTailReturnInner value false) := by
      rcases hw with h | h
      · exact .inl h
      · exact .inr (.inl h)
    rw [lowerExpr]
    apply (emits_source L p value hvalue).bind
    intro v
    exact Emits.ret p hw v
  | .functionScope body, _ =>
    rw [lowerExpr]
    exact (emits_body L p.inTry body).watch_inner
  | .resultScope body, h =>
    rw [lowerExpr]
    exact Emits.exitHere (emits_source L { p with inTry := true } body h)
  | .resultExit value, h =>
    rw [lowerExpr]
    apply (emits_source L p value h).bind
    intro v
    exact Emits.exit p v
  | .block stmts, h =>
    rw [lowerExpr]
    exact emits_block L p stmts h
  | .match scrutinee arms, h =>
    rw [lowerExpr]
    apply (emits_source L p scrutinee h.left).bind
    intro v
    exact emits_arms L p arms h.right v
  | .lambda params body, _ =>
    rw [lowerExpr]
    exact (EmitsPlain.capture none params body).emits
  | .call callee args, h =>
    by_cases hsym : ∃ sym, callee = .symbol sym
    · obtain ⟨sym, rfl⟩ := hsym
      have hargs := emits_each L p args h.right
      rw [lowerExpr, runSource]
      split
      · exact Emits.operate L.emits (.cons (EmitsPlain.symbolValue L.emits sym).emits hargs)
      · exact Emits.staticCall L.emits sym (forall₂_emitted _ hargs)
    · have hne : ∀ sym, callee ≠ .symbol sym := fun sym heq => hsym ⟨sym, heq⟩
      rw [lowerExpr, runSource]
      · exact Emits.operate L.emits
          (.cons (emits_source L p callee h.left) (emits_each L p args h.right))
      · exact hne
      · exact hne
  | .construct ctor fields, h =>
    rw [lowerExpr, runSource]
    cases constructorError ctor fields.length with
    | some err => exact (EmitsPlain.error _).emits
    | none => exact Emits.operate L.emits (emits_fields L p fields h)
  | .recordUpdate base updates, _ =>
    rw [lowerExpr]
    exact Emits.operate L.emits
      (.cons (emits_source L { p with update := true } base (Covered.update p _))
        (emits_fields L { p with update := true } updates (Covered.update p _)))
  | .field base name, h =>
    by_cases hlit : ∃ ctor fields, base = .construct (.constructor .record ctor) fields
    · obtain ⟨ctor, fields, rfl⟩ := hlit
      cases hkey : hasKey name fields with
      | true =>
        obtain ⟨value, hvalue, hemits⟩ := emits_literal L p name fields hkey h
        rw [lowerExpr, lowerField, runSource, if_pos hkey, hvalue]
        exact hemits
      | false =>
        rw [lowerExpr, lowerField, runSource, if_neg (by simp [hkey]), lowerFieldOf_none hkey]
        dsimp only
        apply Emits.operate L.emits
        refine .cons ?_ .nil
        rw [lowerExpr]
        exact Emits.operate L.emits (emits_fields L p fields h)
    · have hne : ∀ ctor fields, base ≠ .construct (.constructor .record ctor) fields :=
        fun ctor fields heq => hlit ⟨ctor, fields, heq⟩
      rw [lowerExpr, lowerField, runSource]
      · exact Emits.operate L.emits (.cons (emits_source L p base h) .nil)
      · exact hne
      · exact hne
  | .send handle message args, h =>
    rw [lowerExpr]
    exact Emits.whenHandler message (Emits.operate L.emits
      (.cons (emits_source L p handle h.left) (emits_each L p args h.right)))
  | .ask handle message args timeout, h =>
    rw [lowerExpr]
    apply Emits.whenHandler message
    apply Emits.operate L.emits
    rw [runOperands, runOperands_append]
    exact .cons (emits_source L p handle h.left.left)
      (forall₂_append (emits_each L p args h.left.right) (emits_timeout L p timeout h.right))
  | .spawn actor args, h | .childSpec actor args, h =>
    rw [lowerExpr]
    exact Emits.whenActor actor (Emits.operate L.emits (emits_each L p args h))
  | .tryAsk handle message args timeout, h =>
    rw [lowerExpr]
    apply Emits.whenHandler message
    apply Emits.operate L.emits
    rw [runOperands, runOperands_append]
    exact .cons (emits_source L p handle h.left.left)
      (forall₂_append (emits_each L p args h.left.right) (emits_timeout L p timeout h.right))
  | .actorSend handle message args, h =>
    rw [lowerExpr]
    exact Emits.whenHandler message (Emits.operate L.emits
      (.cons (emits_source L p handle h.left) (emits_each L p args h.right)))
termination_by 5 * sizeOf e + 1

theorem emits_each (L : Linked apply apply') (p : Place) (es : List IrExpr) (h : Covered p (anyNonTailReturn es)) :
    List.Forall₂ (Emits p.framed p.inTry) (runEach M apply p es)
      (runOperands M apply' (lowerList M.tables es)) := by
  match es, h with
  | [], _ =>
    rw [lowerList]
    exact .nil
  | e :: es, h =>
    rw [lowerList]
    exact .cons (emits_source L p e h.left) (emits_each L p es h.right)
termination_by 5 * sizeOf es

theorem emits_fields (L : Linked apply apply') (p : Place) (fields : List (String × IrExpr))
    (h : Covered p (fieldsNonTailReturn fields)) :
    List.Forall₂ (Emits p.framed p.inTry) (runFields M apply p fields)
      (runOperands M apply' (lowerFields M.tables fields)) := by
  match fields, h with
  | [], _ =>
    rw [lowerFields]
    exact .nil
  | (key, e) :: fs, h =>
    rw [lowerFields]
    exact .cons (emits_source L p e h.left) (emits_fields L p fs h.right)
termination_by 5 * sizeOf fields

theorem emits_timeout (L : Linked apply apply') (p : Place) (timeout : IrTimeout)
    (h : Covered p (timeoutNonTailReturn timeout)) :
    List.Forall₂ (Emits p.framed p.inTry) (runTimeout M apply p timeout)
      (runOperands M apply' (lowerTimeout M.tables timeout)) := by
  match timeout, h with
  | .none, _ | .never, _ =>
    rw [lowerTimeout]
    exact .nil
  | .millis e, h =>
    rw [lowerTimeout]
    exact .cons (emits_source L p e h) .nil
termination_by 5 * sizeOf timeout

/-- A record literal of which one field is read: the code of the first field of the name. -/
theorem emits_literal (L : Linked apply apply') (p : Place) (name : String) (fields : List (String × IrExpr))
    (hkey : hasKey name fields = true) (h : Covered p (fieldsNonTailReturn fields)) :
    ∃ value, lowerFieldOf M.tables name fields = some value ∧
      Emits p.framed p.inTry (runLiteral M apply p name fields none)
        (runHost M apply' value) := by
  match fields, h with
  | [], _ => simp [hasKey] at hkey
  | (key, e) :: fs, h =>
    rw [lowerFieldOf, runLiteral]
    by_cases hk : key = name
    · refine ⟨lowerExpr M.tables e, if_pos hk, ?_⟩
      rw [if_pos hk, ← bind_pure (runHost M apply' (lowerExpr M.tables e))]
      apply (emits_source L p e h.left).bind
      intro v
      exact emits_unread name fs v
    · have hkey' : hasKey name fs = true := by
        simpa [hasKey, hk] using hkey
      obtain ⟨value, hvalue, hemits⟩ := emits_literal L p name fs hkey' h.right
      refine ⟨value, by rw [if_neg hk, hvalue], ?_⟩
      rw [if_neg hk]
      exact Emits.discard fun _ => hemits
termination_by 5 * sizeOf fields

theorem emits_block (L : Linked apply apply') (p : Place) (stmts : List IrExpr)
    (h : Covered p (blockNonTailReturn stmts false)) :
    Emits p.framed p.inTry (runBlock M apply p stmts)
      (runHost M apply' (lowerBlock M.tables stmts)) := by
  match stmts, h with
  | [], _ =>
    rw [lowerBlock]
    exact (EmitsPlain.error _).emits
  | [e], h =>
    rw [lowerBlock, runBlock]
    exact emits_source L p e h
  | e :: e' :: es, h =>
    rw [runBlock_cons, lowerBlock_cons e (by simp)]
    refine Emits.stmt bodyEnd_id ?_ (emits_source L p e h.left) (emits_block L p (e' :: es) h.right)
    rintro name value rfl
    exact emits_source L p value h.left
termination_by 5 * sizeOf stmts

theorem emits_arms (L : Linked apply apply') (p : Place) (arms : List IrArm) (h : Covered p (armsNonTailReturn arms false))
    (v : HostVal) :
    Emits p.framed p.inTry (runArms M apply p arms v)
      (runClauses M apply' (lowerArms M.tables arms) v) := by
  match arms, h with
  | [], _ =>
    rw [lowerArms]
    exact (EmitsPlain.unmatched v).emits
  | .mk pat none body :: arms, h =>
    rw [lowerArms]
    exact Emits.matchClause bodyEnd_id pat v (.inl ⟨rfl, rfl⟩) (emits_source L p body h.left)
      (emits_arms L p arms h.right v)
  | .mk pat (some guard) body :: arms, h =>
    rw [lowerArms]
    refine Emits.matchClause bodyEnd_id pat v (.inr ⟨_, _, rfl, rfl, ?_⟩)
      (emits_source L p body h.left.right) (emits_arms L p arms h.right v)
    apply (emits_source L p guard h.left.left).guardValue
    intro hkept
    exact contained_runHost L.contained (lowerExpr M.tables guard) (by simpa using hkept)
termination_by 5 * sizeOf arms

theorem emits_body (L : Linked apply apply') (inTry : Bool) (body : IrExpr) :
    Emits false inTry
      (HostRun.returnHere (runSource M apply
        { framed := hasNonTailReturn body, update := false, inTry := inTry } body))
      (runHost M apply' (lowerFnBody M.tables body)) := by
  rw [lowerFnBody]
  cases hw : hasNonTailReturn body with
  | true =>
    exact Emits.returnHere_framed (emits_source L ⟨true, false, inTry⟩ body (.inl rfl))
  | false => exact emits_tail L inTry body hw
termination_by 5 * sizeOf body + 4

/-- A body without a frame, and its code with the tail returns stripped. -/
theorem emits_tail (L : Linked apply apply') (inTry : Bool) (e : IrExpr)
    (h : hasNonTailReturnInner e true = false) :
    Emits false inTry (HostRun.returnHere (runSource M apply ⟨false, false, inTry⟩ e))
      (runHost M apply' (lowerExpr M.tables (elideTailInner e true))) := by
  cases hform : e.hasTail with
  | false =>
    rw [elideTailInner_of_not hform]
    rw [hasNonTailReturnInner_of_not hform] at h
    exact Emits.returnHere (emits_source L ⟨false, false, inTry⟩ e (.inr (.inr h)))
  | true => exact emits_tailForm L inTry e hform h
termination_by 5 * sizeOf e + 3

theorem emits_tailForm (L : Linked apply apply') (inTry : Bool) (e : IrExpr)
    (hform : e.hasTail = true) (h : hasNonTailReturnInner e true = false) :
    Emits false inTry (HostRun.returnHere (runSource M apply ⟨false, false, inTry⟩ e))
      (runHost M apply' (lowerExpr M.tables (elideTailInner e true))) := by
  cases e
  case ret value =>
    have hvalue : hasNonTailReturnInner value false = false := by
      simpa [hasNonTailReturnInner] using h
    rw [runSource, returnHere_ret]
    exact emits_tail L inTry value (hasNonTailReturnInner_true value hvalue)
  case block stmts =>
    rw [elideTailInner, lowerExpr]
    exact emits_blockTail L inTry stmts h
  case «match» scrutinee arms =>
    simp only [hasNonTailReturnInner, or_eq_false_iff] at h
    rw [elideTailInner, lowerExpr, elideTailInner_false]
    apply (emits_source L ⟨false, false, inTry⟩ scrutinee (.inr (.inr h.1))).bind_tail
    intro v
    exact emits_armsTail L inTry arms h.2 v
  case letIn pat value body =>
    simp only [hasNonTailReturnInner, or_eq_false_iff] at h
    rw [elideTailInner, elideTailInner_false]
    exact Emits.letIn bodyEnd_returnHere pat (emits_source L ⟨false, false, inTry⟩ value (.inr (.inr h.1)))
      (emits_tail L inTry body h.2)
  case varIn name value body =>
    simp only [hasNonTailReturnInner, or_eq_false_iff] at h
    rw [elideTailInner, lowerExpr, elideTailInner_false]
    apply (emits_source L ⟨false, false, inTry⟩ value (.inr (.inr h.1))).bind_tail
    intro v
    exact (emits_tail L inTry body h.2).withLocals [(name, v)]
  all_goals exact absurd hform (by simp [IrExpr.hasTail])
termination_by 5 * sizeOf e + 2

theorem emits_blockTail (L : Linked apply apply') (inTry : Bool) (stmts : List IrExpr)
    (h : blockNonTailReturn stmts true = false) :
    Emits false inTry (HostRun.returnHere (runBlock M apply ⟨false, false, inTry⟩ stmts))
      (runHost M apply' (lowerBlock M.tables (elideBlock stmts true))) := by
  match stmts, h with
  | [], _ =>
    rw [elideBlock, lowerBlock]
    exact Emits.returnHere (EmitsPlain.error _).emits
  | [e], h =>
    rw [elideBlock, lowerBlock, runBlock]
    exact emits_tail L inTry e h
  | e :: e' :: es, h =>
    simp only [blockNonTailReturn, or_eq_false_iff] at h
    rw [runBlock_cons, elideBlock, elideTailInner_false,
      lowerBlock_cons e (elideBlock_ne_nil e' es true)]
    · refine Emits.stmt bodyEnd_returnHere ?_ (emits_source L ⟨false, false, inTry⟩ e (.inr (.inr h.1)))
        (emits_blockTail L inTry (e' :: es) h.2)
      rintro name value rfl
      exact emits_source L ⟨false, false, inTry⟩ value (.inr (.inr h.1))
    · simp
termination_by 5 * sizeOf stmts

theorem emits_armsTail (L : Linked apply apply') (inTry : Bool) (arms : List IrArm)
    (h : armsNonTailReturn arms true = false) (v : HostVal) :
    Emits false inTry (HostRun.returnHere (runArms M apply ⟨false, false, inTry⟩ arms v))
      (runClauses M apply' (lowerArms M.tables (elideArms arms true)) v) := by
  match arms, h with
  | [], _ =>
    rw [elideArms, lowerArms]
    exact Emits.returnHere (EmitsPlain.unmatched v).emits
  | .mk pat none body :: arms, h =>
    simp only [armsNonTailReturn, armNonTailReturn, or_eq_false_iff] at h
    rw [elideArms, lowerArms]
    exact Emits.matchClause bodyEnd_returnHere pat v (.inl ⟨rfl, rfl⟩) (emits_tail L inTry body h.1)
      (emits_armsTail L inTry arms h.2 v)
  | .mk pat (some guard) body :: arms, h =>
    simp only [armsNonTailReturn, armNonTailReturn, or_eq_false_iff] at h
    rw [elideArms, lowerArms]
    refine Emits.matchClause bodyEnd_returnHere pat v (.inr ⟨_, _, rfl, rfl, ?_⟩)
      (emits_tail L inTry body h.1.2) (emits_armsTail L inTry arms h.2 v)
    apply (emits_source L ⟨false, false, inTry⟩ guard (.inr (.inr h.1.1))).guardValue
    intro hkept
    exact contained_runHost L.contained (lowerExpr M.tables guard) (by simpa using hkept)
termination_by 5 * sizeOf arms

end

end Induction

end Ridge

/-!
# Early exits land where they belong

Every call of a function value, at any depth of calls: the emitted code answers as the meaning
does and no control throw leaves the function it was raised for, exactly when the call executes
no exit for which the code has nothing waiting.
-/

namespace Ridge

open Early Monitor

variable {W : Type}

theorem contained_watch {h : HostRun W HostVal}
    (hh : ∀ t : RunState W, 0 < t.escapes → 0 < (h t).2.escapes) :
    Contained (HostRun.watch (fun _ => true) h) where
  flagged := fun t ht => escapes_watch _ h (hh t ht)
  run := by
    rintro t d hd ⟨cls, reason, rfl, hc⟩
    apply escapes_of_throwsOwn
    have hend : (h t).1 = .error (.raised cls reason) := hd
    rw [hend]
    obtain ⟨thrown, hthrown⟩ := Option.ne_none_iff_exists'.mp hc
    simp [HostRun.throwsOwn, hthrown]

theorem Linked.frame {M : Machine W} {apply apply' : HostVal → List HostVal → HostRun W HostVal}
    (L : Linked apply apply') (frame : Locals) (body : IrExpr) :
    EmitsPlain
      (HostRun.withFrame frame (HostRun.boundary (runSource M apply
        { framed := hasNonTailReturn body, update := false, inTry := false } body)))
      (HostRun.withFrame frame (HostRun.watch (fun _ => true)
        (runHost M apply' (lowerFnBody M.tables body)))) ∧
    Contained (HostRun.withFrame frame (HostRun.watch (fun _ => true)
        (runHost M apply' (lowerFnBody M.tables body)))) := by
  have hbody := emits_body (M := M) L false body
  exact ⟨Tracks.withFrame frame (EmitsPlain.boundary hbody),
    (contained_watch hbody.markedTarget).withFrame frame⟩

/-- Calls of the two readings, nested at most `n` deep. -/
theorem Machine.linked (M : Machine W) (n : Nat) : Linked (M.source n) (M.emitted n) := by
  induction n with
  | zero =>
    refine ⟨fun _ _ => EmitsPlain.timeout, fun _ _ => Contains.leave ?_⟩
    rintro ⟨cls, reason, h, _⟩
    cases h
  | succ n L =>
    have hcall : ∀ f args, EmitsPlain (M.source (n + 1) f args) (M.emitted (n + 1) f args) ∧
        Contained (M.emitted (n + 1) f args) := by
      intro f args
      cases f with
      | closure self params body env =>
        rw [Machine.source, Machine.emitted]
        split
        · exact L.frame _ body
        · exact ⟨EmitsPlain.error _, Contained.error _⟩
      | fnRef sym =>
        rw [Machine.source, Machine.emitted]
        cases M.fns sym with
        | none =>
          exact ⟨EmitsPlain.hostCall L.emits _ args, Contained.hostCall L.contained _ args⟩
        | some fn =>
          dsimp only
          split
          · exact L.frame _ fn.body
          · exact ⟨EmitsPlain.error _, Contained.error _⟩
      | int k | float x | text s | atom name | nil
      | cons head tail | tuple elems
      | record fields => exact ⟨EmitsPlain.error _, Contained.error _⟩
    exact ⟨fun f args => (hcall f args).1, fun f args => (hcall f args).2⟩

/-- A state in which nothing has gone astray. -/
def RunState.start (store : Store W) : RunState W :=
  { store := store, unlanded := 0, discards := [], escapes := 0 }

/-- The emitted code answered as the function means, left the same world behind, and let no
control throw out of the function it was raised for. -/
def Lands (meaning code : Except Leave HostVal × RunState W) : Prop :=
  code.1 = meaning.1 ∧ code.2.store = meaning.2.store ∧ code.2.escapes = 0

/-- Every operand that the code leaves out would have ended in a value and changed nothing. -/
def DiscardsSilent (r : Except Leave HostVal × RunState W) : Prop :=
  ∀ d ∈ r.2.discards, d.Silent

/-- A call lands its exits exactly if it executes none under a record update of an unframed
function, and none of a `try` block outside every `try` block. -/
theorem exits_land_iff (M : Machine W) (n : Nat) (f : HostVal) (args : List HostVal)
    (store : Store W) (hsilent : DiscardsSilent (M.source n f args (.start store))) :
    Lands (M.source n f args (.start store)) (M.emitted n f args (.start store)) ↔
      (M.source n f args (.start store)).2.unlanded = 0 := by
  have hrun := ((M.linked n).emits f args).run (.start store) (.start store)
    ⟨rfl, rfl, rfl⟩ hsilent
  rcases hrun with ⟨⟨hstore, hunlanded, hescapes⟩, hend⟩ | ⟨hmarked, hescaped | ⟨_, _, hfalse⟩⟩
  · refine ⟨fun _ => hunlanded, fun _ => ⟨?_, hstore.symm, hescapes⟩⟩
    rcases hend.cases with ⟨v, hv, hv'⟩ | ⟨e, d, he, hd, hed⟩
    · rw [hv, hv']
    · rw [he, hd]
      rcases leavesAs_plain hed with ⟨cls, reason, rfl, rfl, _⟩ | ⟨rfl, rfl⟩
      · rfl
      · rfl
  · have hpos : 0 < (M.source n f args (.start store)).2.unlanded := hmarked
    have hesc : 0 < (M.emitted n f args (.start store)).2.escapes := hescaped
    refine ⟨fun h => ?_, fun h => ?_⟩
    · have := h.2.2
      omega
    · omega
  · exact absurd hfalse id

/-! ## Two functions -/

/-- `r with { x = return 1 }`. -/
def resetBody : IrExpr := .recordUpdate (.local "r") [("x", .ret (.lit (.int 1)))]

/-- A program of two functions, `reset r = r with { x = return 1 }` and `first = (return 5, 1)`. -/
def twoFunctions : Machine Unit where
  tables :=
    { isConst := fun _ => false
      zeroArity := fun _ => false
      guardBif := fun _ _ => false
      valueCalls := fun _ => false }
  beamModule := fun _ => "main"
  fns
    | .local "reset" _ => some ⟨["r"], resetBody⟩
    | .local "first" _ => some ⟨[], .tuple [.ret (.lit (.int 5)), .lit (.int 1)]⟩
    | _ => none
  host := fun _ _ world => .done (.ok .nil) world
  host_private := fun _ _ _ => .done fun _ _ h => by cases h

/-- The return of `first` is in a tuple, where the walker finds it: it lands. -/
theorem first_lands :
    DiscardsSilent (twoFunctions.source 1 (.fnRef (.local "first" 0)) [] (.start ⟨(), []⟩)) ∧
      (Lands (twoFunctions.source 1 (.fnRef (.local "first" 0)) [] (.start ⟨(), []⟩))
          (twoFunctions.emitted 1 (.fnRef (.local "first" 0)) [] (.start ⟨(), []⟩)) ↔
        (twoFunctions.source 1 (.fnRef (.local "first" 0)) [] (.start ⟨(), []⟩)).2.unlanded = 0) :=
  have hsilent : DiscardsSilent
      (twoFunctions.source 1 (.fnRef (.local "first" 0)) [] (.start ⟨(), []⟩)) := by
    intro d hd
    cases hd
  ⟨hsilent, exits_land_iff twoFunctions 1 _ [] _ hsilent⟩

/-- The walker finds no return in `reset`: its code has no frame. -/
theorem lower_resetBody (T : CodegenTables) :
    lowerFnBody T resetBody =
      .operate (.mapUpdate false ["x"]) [.var "r", .throw .ridgeReturn (.lit (.int 1))] := by
  simp [lowerFnBody, resetBody, hasNonTailReturn, hasNonTailReturnInner, elideTailReturns,
    elideTailInner, lowerExpr, lowerFields, Host.isStaticMap]

/-- The return of `reset` is in a record update: the code has no frame for it, and the throw
leaves the function. -/
theorem reset_throws :
    ¬ Lands
      (twoFunctions.source 1 (.fnRef (.local "reset" 0)) [.record [("x", .int 0)]]
        (.start ⟨(), []⟩))
      (twoFunctions.emitted 1 (.fnRef (.local "reset" 0)) [.record [("x", .int 0)]]
        (.start ⟨(), []⟩)) := by
  rintro ⟨_, _, hescapes⟩
  have hbody : twoFunctions.emitted 1 (.fnRef (.local "reset" 0)) [.record [("x", .int 0)]] =
      HostRun.withFrame [("r", .record [("x", .int 0)])] (HostRun.watch (fun _ => true)
        (runHost twoFunctions (twoFunctions.emitted 0)
          (lowerFnBody twoFunctions.tables resetBody))) := rfl
  rw [hbody, lower_resetBody] at hescapes
  exact absurd hescapes (by decide)

end Ridge
