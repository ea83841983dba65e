import Ridge.Codegen.Source

/-!
# The emitted code beside its meaning

The monitor of the two readings, and what it says of the operations they share. A run of the
meaning is marked by an early exit with nothing waiting for it, a run of the emitted code by a
control throw that left its function.
-/

namespace Ridge

open Early Monitor Bool

variable {W α : Type} {m h : HostRun W HostVal}

/-- The two readings in step: the same world and variables, and nothing gone astray yet. -/
def exitMonitor (W : Type) : Monitor (RunState W) (RunState W) where
  Step s t := s.store = t.store ∧ s.unlanded = 0 ∧ t.escapes = 0
  Marked s := 0 < s.unlanded
  MarkedTarget t := 0 < t.escapes
  Fine s := ∀ d ∈ s.discards, d.Silent

/-- How the two readings leave together: an exit the code waits for is a throw with its tag, any
other exception is the same and not a control throw. -/
def leavesAs (framed inTry : Bool) : Leave → Leave → Prop
  | .returned v, d => framed = true ∧ d = .raised "throw" (controlReason .ridgeReturn v)
  | .exited v, d => inTry = true ∧ d = .raised "throw" (controlReason .ridgeResultExit v)
  | .raised cls reason, d => d = .raised cls reason ∧ controlOf cls reason = none
  | .timeout, d => d = .timeout

def stray (framed inTry : Bool) (d : Leave) : Prop :=
  (framed = false ∧ ∃ v, d = .raised "throw" (controlReason .ridgeReturn v)) ∨
  (inTry = false ∧ ∃ v, d = .raised "throw" (controlReason .ridgeResultExit v))

/-- `h` is what the emitted code does for `m`, in code that catches the given exits. -/
abbrev Emits (framed inTry : Bool) (m h : HostRun W α) : Prop :=
  (exitMonitor W).Tracks (leavesAs framed inTry) (stray framed inTry) m h

/-- No exit and no control throw leaves. -/
abbrev EmitsPlain (m h : HostRun W α) : Prop :=
  (exitMonitor W).Tracks (leavesAs false false) (fun _ => False) m h

theorem leavesAs_plain {e d : Leave} (h : leavesAs false false e d) :
    (∃ cls reason, e = .raised cls reason ∧ d = .raised cls reason ∧
      controlOf cls reason = none) ∨ (e = .timeout ∧ d = .timeout) := by
  cases e with
  | returned v | exited v => exact absurd h.1 (by simp)
  | raised cls reason => exact .inl ⟨cls, reason, rfl, h.1, h.2⟩
  | timeout => exact .inr ⟨rfl, h⟩

theorem EmitsPlain.emits {framed inTry : Bool} {m h : HostRun W α} (hm : EmitsPlain m h) :
    Emits framed inTry m h := by
  apply hm.mono
  · intro e d hed
    cases e with
    | returned v | exited v => exact absurd hed.1 (by simp)
    | raised cls reason => exact hed
    | timeout => exact hed
  · intro d hd
    exact absurd hd id

@[simp] theorem controlOf_controlReason (tag : ControlTag) (v : HostVal) :
    controlOf "throw" (controlReason tag v) = some (tag, v) := by
  cases tag <;> simp [controlOf, controlReason, ControlTag.atom]

theorem EmitsPlain.raise {cls : String} {reason : HostVal} (h : controlOf cls reason = none) :
    EmitsPlain (HostRun.raise cls reason : HostRun W α) (HostRun.raise cls reason) :=
  Tracks.leave ⟨rfl, h⟩

theorem controlOf_error (reason : HostVal) : controlOf "error" reason = none := by
  simp [controlOf]

theorem EmitsPlain.error (reason : HostVal) :
    EmitsPlain (HostRun.raise "error" reason : HostRun W α) (HostRun.raise "error" reason) :=
  EmitsPlain.raise (controlOf_error reason)

theorem EmitsPlain.timeout : EmitsPlain (Early.leave .timeout : HostRun W α) (Early.leave .timeout) :=
  Tracks.leave rfl

/-! ## Local variables -/

section Locals

variable {framed inTry : Bool}

theorem Emits.withLocals {m h : HostRun W α} (bindings : Locals) (hm : Emits framed inTry m h) :
    Emits framed inTry (HostRun.withLocals bindings m) (HostRun.withLocals bindings h) := by
  refine Tracks.within hm (fun _ hs => hs) (fun _ _ hs => hs) (fun _ hs => hs) (fun _ _ hs => hs)
    (fun _ ht => ht) (fun _ _ ht => ht) ?_ ?_
  · rintro s t ⟨hst, hu, he⟩
    exact ⟨by simp only [hst], hu, he⟩
  · rintro s t s' t' - ⟨hst, hu, he⟩
    exact ⟨by simp only [hst], hu, he⟩

theorem Tracks.withFrame {ends : Leave → Leave → Prop} {pending : Leave → Prop} {m h : HostRun W α}
    (frame : Locals) (hm : (exitMonitor W).Tracks ends pending m h) :
    (exitMonitor W).Tracks ends pending (HostRun.withFrame frame m) (HostRun.withFrame frame h) := by
  refine Tracks.within hm (fun _ hs => hs) (fun _ _ hs => hs) (fun _ hs => hs) (fun _ _ hs => hs)
    (fun _ ht => ht) (fun _ _ ht => ht) ?_ ?_
  · rintro s t ⟨hst, hu, he⟩
    exact ⟨by simp only [hst], hu, he⟩
  · rintro s t s' t' ⟨hst, -, -⟩ ⟨hst', hu, he⟩
    exact ⟨by simp only [hst, hst'], hu, he⟩

theorem EmitsPlain.readLocal (name : String) :
    EmitsPlain (HostRun.readLocal name : HostRun W HostVal) (HostRun.readLocal name) := by
  apply Tracks.bind
  · apply Tracks.read
    rintro s t ⟨hst, -, -⟩
    rw [hst]
  · intro found
    cases found with
    | none => exact EmitsPlain.error _
    | some v => exact Tracks.pure v

theorem EmitsPlain.setLocal (name : String) (v : HostVal) :
    EmitsPlain (HostRun.setLocal name v : HostRun W Unit) (HostRun.setLocal name v) := by
  refine Tracks.modify (fun _ hs => hs) (fun _ hs => hs) (fun _ ht => ht) ?_
  rintro s t ⟨hst, hu, he⟩
  exact ⟨by simp only [hst], hu, he⟩

theorem EmitsPlain.capture (self : Option String) (params : List String) (body : IrExpr) :
    EmitsPlain (HostRun.capture self params body : HostRun W HostVal) (HostRun.capture self params body) := by
  apply Tracks.read
  rintro s t ⟨hst, -, -⟩
  rw [hst]

theorem EmitsPlain.setWorld (world : W) : EmitsPlain (HostRun.setWorld world) (HostRun.setWorld world) := by
  refine Tracks.modify (fun _ hs => hs) (fun _ hs => hs) (fun _ ht => ht) ?_
  rintro s t ⟨hst, hu, he⟩
  exact ⟨by simp only [hst], hu, he⟩

end Locals

/-! ## Clauses and guards -/

section Clauses

variable {framed inTry : Bool}

theorem EmitsPlain.unmatched (v : HostVal) :
    EmitsPlain (unmatched v : HostRun W HostVal) (unmatched v) :=
  EmitsPlain.error _

/-- What becomes of the end of a body: the rest of it follows its steps all the same. -/
structure BodyEnd (framed inTry : Bool) (land : HostRun W HostVal → HostRun W HostVal) : Prop where
  of : ∀ {m h}, Emits framed inTry m h → Emits framed inTry (land m) h
  bind : ∀ {α : Type} {m h : HostRun W α} {f g : α → HostRun W HostVal}, Emits framed inTry m h →
    (∀ a, Emits framed inTry (land (f a)) (g a)) →
      Emits framed inTry (land (Early.bind m f)) (Early.bind h g)
  withLocals : ∀ {m h} (bindings : Locals), Emits framed inTry (land m) h →
    Emits framed inTry (land (HostRun.withLocals bindings m)) (HostRun.withLocals bindings h)

theorem bodyEnd_id : BodyEnd (W := W) framed inTry id where
  of h := h
  bind h hf := h.bind hf
  withLocals bindings h := h.withLocals bindings

theorem Emits.matchClause {land : HostRun W HostVal → HostRun W HostVal}
    (hland : BodyEnd framed inTry land) (pat : IrPat) (v : HostVal)
    {guard guard' : Option (HostRun W Bool)} {body body' next next' : HostRun W HostVal}
    (hguard : guard = none ∧ guard' = none ∨
      ∃ g g', guard = some g ∧ guard' = some g' ∧ Emits framed inTry g g')
    (hbody : Emits framed inTry (land body) body') (hnext : Emits framed inTry (land next) next') :
    Emits framed inTry (land (matchClause pat v guard body next))
      (matchClause pat v guard' body' next') := by
  unfold Ridge.matchClause
  cases matchPat pat v with
  | none => exact hnext
  | some bindings =>
    rcases hguard with ⟨rfl, rfl⟩ | ⟨g, g', rfl, rfl, hg⟩
    · exact hland.withLocals bindings hbody
    · apply hland.bind (hg.withLocals bindings)
      intro taken
      cases taken with
      | false => exact hnext
      | true => exact hland.withLocals bindings hbody

theorem Emits.liftedGuard (hm : Emits framed inTry m h) :
    Emits framed inTry (HostRun.liftedGuard m) (HostRun.liftedGuard h) :=
  hm.bind fun v => Tracks.pure v.isTrue

theorem EmitsPlain.keptGuard (hm : EmitsPlain m h) :
    EmitsPlain (HostRun.keptGuard m) (HostRun.keptGuard h) := by
  apply Tracks.ending hm
  · intro r r' hrr
    rcases hrr.cases with ⟨v, rfl, rfl⟩ | ⟨e, d, rfl, rfl, hed⟩
    · exact (rfl : v.isTrue = v.isTrue)
    · rcases leavesAs_plain hed with ⟨cls, reason, rfl, rfl, _⟩ | ⟨rfl, rfl⟩
      · exact (rfl : false = false)
      · exact (rfl : Leave.timeout = .timeout)
  · intro d hd
    exact absurd hd id

end Clauses

/-! ## Operations -/

section Operations

variable {M : Machine W} {apply apply' : HostVal → List HostVal → HostRun W HostVal}

/-- A control throw leaves only a run whose escape is written down. -/
abbrev Contained (h : HostRun W α) : Prop :=
  Contains (fun t : RunState W => 0 < t.escapes)
    (fun d => ∃ cls reason, d = .raised cls reason ∧ controlOf cls reason ≠ none) h

theorem EmitsPlain.answering (hm : EmitsPlain m h) :
    EmitsPlain (HostRun.answering m) (HostRun.answering h) := by
  apply Tracks.ending hm
  · intro r r' hrr
    rcases hrr.cases with ⟨v, rfl, rfl⟩ | ⟨e, d, rfl, rfl, hed⟩
    · exact (rfl : (Except.ok v : Except (String × HostVal) HostVal) = .ok v)
    · rcases leavesAs_plain hed with ⟨cls, reason, rfl, rfl, _⟩ | ⟨rfl, rfl⟩
      · exact (rfl : (Except.error (cls, reason) : Except (String × HostVal) HostVal) = _)
      · exact (rfl : Leave.timeout = .timeout)
  · intro d hd
    exact absurd hd id

/-- In step, a call does not answer with a control throw. -/
theorem EmitsPlain.answer_uncontrolled (hm : EmitsPlain m h) {s t : RunState W}
    {answer : Except (String × HostVal) HostVal} (hst : (exitMonitor W).Step s t)
    (hfin : (exitMonitor W).Fine (m s).2) (hin : (exitMonitor W).Step (m s).2 (h t).2)
    (ha : (HostRun.answering m s).1 = .ok answer) : Uncontrolled answer := by
  rintro cls reason rfl
  rcases hm.run s t hst hfin with ⟨_, hend⟩ | ⟨hs, _⟩
  · rcases hend.cases with ⟨v, hv, _⟩ | ⟨e, d, he, _, hed⟩
    · simp [HostRun.answering, Early.ending, hv] at ha
    · rcases leavesAs_plain hed with ⟨cls', reason', rfl, _, hc⟩ | ⟨rfl, _⟩
      · simp only [HostRun.answering, Early.ending, he, Except.ok.injEq, Except.error.injEq,
          Prod.mk.injEq] at ha
        rw [← ha.1, ← ha.2]
        exact hc
      · simp [HostRun.answering, Early.ending, he] at ha
  · have : (m s).2.unlanded = 0 := hin.2.1
    have hpos : 0 < (m s).2.unlanded := hs
    omega

theorem keeps_runHostProg (happly : ∀ f args, EmitsPlain (apply f args) (apply' f args))
    (prog : HostProg W) :
    (exitMonitor W).Keeps (runHostProg apply prog) (runHostProg apply' prog) := by
  induction prog with
  | done answer world =>
    apply (EmitsPlain.setWorld world).toKeeps.bind
    intro _
    cases answer with
    | ok v => exact (Tracks.pure v : EmitsPlain (W := W) _ _).toKeeps
    | error e => exact ⟨fun _ hs => hs, fun _ hs => hs, fun _ ht => ht⟩
  | call f args world rest ih =>
    apply (EmitsPlain.setWorld world).toKeeps.bind
    intro _
    apply (happly f args).answering.toKeeps.bind
    intro answer
    refine Keeps.bind ⟨fun _ hs => hs, fun _ hs => hs, fun _ ht => ht⟩ ?_
    intro w
    exact ih answer w

/-- Code outside the language raises no control throw of its own. -/
theorem EmitsPlain.runHostProg (happly : ∀ f args, EmitsPlain (apply f args) (apply' f args))
    {prog : HostProg W} (hprog : prog.Private) :
    EmitsPlain (runHostProg apply prog) (runHostProg apply' prog) := by
  induction hprog with
  | @done answer world h =>
    apply (EmitsPlain.setWorld world).bind
    intro _
    cases answer with
    | ok v => exact Tracks.pure v
    | error e => exact EmitsPlain.raise (h e.1 e.2 rfl)
  | @call f args world rest _ ih =>
    apply (EmitsPlain.setWorld world).bind
    intro _
    refine (happly f args).answering.bind_of (P := Uncontrolled) ?_ ?_ ?_
    · intro s t answer hst hfin hin ha
      exact (happly f args).answer_uncontrolled hst hfin hin ha
    · intro answer
      refine Keeps.bind ⟨fun _ hs => hs, fun _ hs => hs, fun _ ht => ht⟩ ?_
      intro w
      exact keeps_runHostProg happly (rest answer w)
    · intro answer hanswer
      apply Tracks.bind
      · apply Tracks.read
        rintro s t ⟨hst, -, -⟩
        rw [hst]
      · intro w
        exact ih answer w hanswer

theorem EmitsPlain.hostCall (happly : ∀ f args, EmitsPlain (apply f args) (apply' f args))
    (op : HostOp) (vs : List HostVal) :
    EmitsPlain (hostCall M apply op vs) (hostCall M apply' op vs) := by
  apply Tracks.bind
  · apply Tracks.read
    rintro s t ⟨hst, -, -⟩
    rw [hst]
  · intro world
    exact EmitsPlain.runHostProg happly (M.host_private op vs world)

theorem EmitsPlain.perform (happly : ∀ f args, EmitsPlain (apply f args) (apply' f args))
    (op : HostOp) (vs : List HostVal) :
    EmitsPlain (perform M apply op vs) (perform M apply' op vs) := by
  unfold Ridge.perform
  split
  · exact happly _ _
  · exact happly _ _
  · exact Tracks.pure _
  · exact Tracks.pure _
  · exact EmitsPlain.error _
  · split
    · exact Tracks.pure _
    · exact EmitsPlain.error _
  · exact EmitsPlain.error _
  · exact Tracks.pure _
  · exact Tracks.pure _
  · exact Tracks.pure _
  · exact Tracks.pure _
  · exact EmitsPlain.hostCall happly _ _

theorem EmitsPlain.symbolValue (happly : ∀ f args, EmitsPlain (apply f args) (apply' f args))
    (sym : SymbolRef) : EmitsPlain (symbolValue M apply sym) (symbolValue M apply' sym) := by
  unfold Ridge.symbolValue
  split
  · exact happly _ _
  · exact Tracks.pure _

end Operations

/-! ## Emitted code that contains its throws -/

section Contained

variable {M : Machine W} {apply : HostVal → List HostVal → HostRun W HostVal}

theorem Contained.error (reason : HostVal) : Contained (HostRun.raise "error" reason : HostRun W α) := by
  apply Contains.leave
  rintro ⟨cls, r, h, hc⟩
  cases h
  exact hc (controlOf_error reason)

theorem Contained.setWorld (world : W) : Contained (HostRun.setWorld world) :=
  Contains.modify fun _ ht => ht

theorem Contained.setLocal (name : String) (v : HostVal) :
    Contained (HostRun.setLocal name v : HostRun W Unit) :=
  Contains.modify fun _ ht => ht

theorem Contained.readLocal (name : String) : Contained (HostRun.readLocal name : HostRun W HostVal) := by
  apply Contains.bind (Contains.read _)
  intro found
  cases found with
  | none => exact Contained.error _
  | some v => exact Contains.pure v

theorem Contained.withLocals {h : HostRun W α} (bindings : Locals) (hh : Contained h) :
    Contained (HostRun.withLocals bindings h) :=
  Contains.within hh (fun _ ht => ht) fun _ _ ht => ht

theorem Contained.withFrame {h : HostRun W α} (frame : Locals) (hh : Contained h) :
    Contained (HostRun.withFrame frame h) :=
  Contains.within hh (fun _ ht => ht) fun _ _ ht => ht

theorem escapes_watch (isOwn : ControlTag → Bool) (h : HostRun W HostVal) {t : RunState W}
    (ht : 0 < (h t).2.escapes) : 0 < (HostRun.watch isOwn h t).2.escapes := by
  unfold HostRun.watch
  dsimp only
  split
  · exact Nat.succ_pos _
  · exact ht

theorem Contained.watch (hh : Contained h) (isOwn : ControlTag → Bool) :
    Contained (HostRun.watch isOwn h) where
  flagged := fun t ht => escapes_watch isOwn h (hh.flagged t ht)
  run := fun t d hd hb => escapes_watch isOwn h (hh.run t d hd hb)

theorem Contained.answering (hh : Contained h) : Contained (HostRun.answering h) := by
  apply Contains.ending hh
  rintro r d hr ⟨cls, reason, rfl, hc⟩
  rcases r with (v | v | ⟨c, w⟩ | _) | v <;> simp at hr

/-- Without an escape a contained call does not answer with a control throw. -/
theorem Contained.answer_uncontrolled (hh : Contained h) (t : RunState W)
    (answer : Except (String × HostVal) HostVal) (ht : ¬ 0 < (HostRun.answering h t).2.escapes)
    (ha : (HostRun.answering h t).1 = .ok answer) : Uncontrolled answer := by
  rintro cls reason rfl
  by_contra hc
  apply ht
  apply hh.run t (.raised cls reason) _ ⟨cls, reason, rfl, hc⟩
  simp only [HostRun.answering, Early.ending] at ha
  rcases hr : (h t).1 with (v | v | ⟨c, w⟩ | _) | v <;> rw [hr] at ha <;> simp at ha
  rw [ha.1, ha.2]

theorem flagged_runHostProg (happly : ∀ f args, Contained (apply f args)) (prog : HostProg W)
    (t : RunState W) (ht : 0 < t.escapes) : 0 < (runHostProg apply prog t).2.escapes := by
  induction prog generalizing t with
  | done answer world =>
    cases answer with
    | ok v => exact ht
    | error e => exact ht
  | call f args world rest ih =>
    have h1 := (happly f args).answering.flagged
      { t with store := { t.store with world := world } } ht
    unfold runHostProg
    rw [bind_of_ok (show HostRun.setWorld world t = (.ok (), _) from rfl)]
    rcases hr : HostRun.answering (apply f args) { t with store := { t.store with world := world } }
      with ⟨e | answer, t'⟩ <;> rw [hr] at h1
    · rw [bind_of_error hr]
      exact h1
    · rw [bind_of_ok hr]
      exact ih answer t'.store.world t' h1

theorem Contained.runHostProg (happly : ∀ f args, Contained (apply f args)) {prog : HostProg W}
    (hprog : prog.Private) : Contained (runHostProg apply prog) := by
  induction hprog with
  | @done answer world h =>
    apply (Contained.setWorld world).bind
    intro _
    cases answer with
    | ok v => exact Contains.pure v
    | error e =>
      apply Contains.leave
      rintro ⟨cls, reason, he, hc⟩
      cases he
      exact hc (h _ _ rfl)
  | @call f args world rest _ ih =>
    apply (Contained.setWorld world).bind
    intro _
    refine (happly f args).answering.bind_of (P := Uncontrolled)
      (fun t answer => (happly f args).answer_uncontrolled t answer) ?_ ?_
    · intro answer t ht
      exact flagged_runHostProg happly (rest answer t.store.world) t ht
    · intro answer hanswer
      apply (Contains.read _).bind
      intro w
      exact ih answer w hanswer

theorem Contained.hostCall (happly : ∀ f args, Contained (apply f args)) (op : HostOp)
    (vs : List HostVal) : Contained (hostCall M apply op vs) :=
  (Contains.read _).bind fun world => Contained.runHostProg happly (M.host_private op vs world)

theorem Contained.perform (happly : ∀ f args, Contained (apply f args)) (op : HostOp)
    (vs : List HostVal) : Contained (perform M apply op vs) := by
  unfold Ridge.perform
  split
  · exact happly _ _
  · exact happly _ _
  · exact Contains.pure _
  · exact Contains.pure _
  · exact Contained.error _
  · split
    · exact Contains.pure _
    · exact Contained.error _
  · exact Contained.error _
  · exact Contains.pure _
  · exact Contains.pure _
  · exact Contains.pure _
  · exact Contains.pure _
  · exact Contained.hostCall happly _ _

theorem Contained.symbolValue (happly : ∀ f args, Contained (apply f args)) (sym : SymbolRef) :
    Contained (symbolValue M apply sym) := by
  unfold Ridge.symbolValue
  split
  · exact happly _ _
  · exact Contains.pure _

theorem Contained.guardValue (kept : Bool) (hh : Contained h) :
    Contained (HostRun.guardValue kept h) := by
  unfold HostRun.guardValue
  split
  · apply Contains.ending hh
    rintro r d hr ⟨cls, reason, rfl, hc⟩
    rcases r with (v | v | ⟨c, w⟩ | _) | v <;> simp at hr
  · exact hh.bind fun v => Contains.pure v.isTrue

theorem Contained.matchClause (pat : IrPat) (v : HostVal) {guard : Option (HostRun W Bool)}
    {body next : HostRun W HostVal} (hguard : ∀ g, guard = some g → Contained g)
    (hbody : Contained body) (hnext : Contained next) :
    Contained (matchClause pat v guard body next) := by
  unfold Ridge.matchClause
  cases matchPat pat v with
  | none => exact hnext
  | some bindings =>
    cases guard with
    | none => exact hbody.withLocals bindings
    | some g =>
      apply ((hguard g rfl).withLocals bindings).bind
      intro taken
      cases taken with
      | false => exact hnext
      | true => exact hbody.withLocals bindings

mutual

/-- Code without a call that the host refuses in a guard raises no control throw. -/
theorem contained_runHost (happly : ∀ f args, Contained (apply f args)) :
    ∀ h : Host, containsNonBifCall M.tables h = false → Contained (runHost M apply h)
  | .lit value, _ => Contains.pure _
  | .var name, _ => Contained.readLocal name
  | .symbol sym, _ => Contained.symbolValue happly sym
  | .funOf params source _, _ => Contains.read _
  | .operate op operands, h => by
    simp only [containsNonBifCall, or_eq_false_iff] at h
    exact (Contains.all (contained_runOperands happly operands h.2)).bind
      (Contained.perform happly op)
  | .letVar name value body, h => by
    simp only [containsNonBifCall, or_eq_false_iff] at h
    exact (contained_runHost happly value h.1).bind fun v =>
      (contained_runHost happly body h.2).withLocals [(name, v)]
  | .letRec name params source code body, h => by
    simp only [containsNonBifCall, or_eq_false_iff] at h
    apply (Contains.read _).bind
    intro v
    exact (contained_runHost happly body h.2).withLocals [(name, v)]
  | .case scrutinee clauses, h => by
    simp only [containsNonBifCall, or_eq_false_iff] at h
    exact (contained_runHost happly scrutinee h.1).bind
      (contained_runClauses happly clauses h.2)
  | .letCell name value body, h => by
    simp only [containsNonBifCall, or_eq_false_iff] at h
    exact (contained_runHost happly value h.1).bind fun v =>
      (contained_runHost happly body h.2).withLocals [(name, v)]
  | .assign name value rest, h => by
    simp only [containsNonBifCall, or_eq_false_iff] at h
    exact (contained_runHost happly value h.1).bind fun v =>
      (Contained.setLocal name v).bind fun _ => contained_runHost happly rest h.2
  | .seq first rest, h => by
    simp only [containsNonBifCall, or_eq_false_iff] at h
    exact (contained_runHost happly first h.1).bind fun _ => contained_runHost happly rest h.2
  | .throw _ _, h | .tryControl _ _ _, h => by simp [containsNonBifCall] at h
  | .mark body, h => by
    simp only [containsNonBifCall] at h
    exact (contained_runHost happly body h).watch _
  | .reject _, h => by simp [containsNonBifCall] at h

theorem contained_runOperands (happly : ∀ f args, Contained (apply f args)) :
    ∀ hs : List Host, anyNonBifCall M.tables hs = false →
      ∀ m ∈ runOperands M apply hs, Contained m
  | [], _, _, hm => by simp [runOperands] at hm
  | h :: hs, hb, m, hm => by
    simp only [anyNonBifCall, or_eq_false_iff] at hb
    simp only [runOperands, List.mem_cons] at hm
    rcases hm with rfl | hm
    · exact contained_runHost happly h hb.1
    · exact contained_runOperands happly hs hb.2 m hm

theorem contained_runClauses (happly : ∀ f args, Contained (apply f args)) :
    ∀ cs : List HostClause, clausesNonBifCall M.tables cs = false →
      ∀ v, Contained (runClauses M apply cs v)
  | [], _, v => Contained.error _
  | .mk pat none kept body :: cs, hb, v => by
    simp only [clausesNonBifCall, or_eq_false_iff] at hb
    exact Contained.matchClause pat v (fun g hg => absurd hg (by simp))
      (contained_runHost happly body hb.1) (contained_runClauses happly cs hb.2 v)
  | .mk pat (some guard) kept body :: cs, hb, v => by
    simp only [clausesNonBifCall, or_eq_false_iff] at hb
    refine Contained.matchClause pat v ?_ (contained_runHost happly body hb.1.2)
      (contained_runClauses happly cs hb.2 v)
    intro g hg
    cases hg
    exact (contained_runHost happly guard hb.1.1).guardValue kept

end

end Contained

end Ridge
