import Ridge.Codegen.Tracking

/-!
# Exits and the code that waits for them

What each control form does for its counterpart: the throws for the exits, the catch frames for
the functions and `try` blocks they end, and the boundary of a function.
-/

namespace Ridge

open Early Monitor HostRun

variable {W α : Type} {framed inTry : Bool} {m h : HostRun W HostVal}

/-- Nothing a function leaves unwatched goes unseen: the walker found a return, the place is
inside a record update, or there is nothing to find. -/
def Covered (p : Place) (walked : Bool) : Prop :=
  p.framed = true ∨ p.update = true ∨ walked = false

variable {a b : Bool}

theorem Covered.left {p : Place} (h : Covered p (a || b)) : Covered p a := by
  rcases h with h | h | h
  · exact .inl h
  · exact .inr (.inl h)
  · exact .inr (.inr (Bool.or_eq_false_iff.mp h).1)

theorem Covered.right {p : Place} (h : Covered p (a || b)) : Covered p b := by
  rcases h with h | h | h
  · exact .inl h
  · exact .inr (.inl h)
  · exact .inr (.inr (Bool.or_eq_false_iff.mp h).2)

theorem Covered.update (p : Place) (walked : Bool) : Covered { p with update := true } walked :=
  .inr (.inl rfl)

/-! ## The exits -/

/-- A `return` and its throw. -/
theorem Emits.ret (p : Place) (h : p.framed = true ∨ p.update = true) (v : HostVal) :
    Emits p.framed p.inTry
      (Early.bind (noteReturn p) fun _ => Early.leave (.returned v) : HostRun W α)
      (HostRun.raise "throw" (controlReason .ridgeReturn v)) where
  marked := by
    intro s hs
    show 0 < (if !p.framed && p.update then { s with unlanded := s.unlanded + 1 } else s).unlanded
    split
    · exact Nat.succ_pos _
    · exact hs
  fine := by
    intro s hs
    change ∀ d ∈ (if !p.framed && p.update then { s with unlanded := s.unlanded + 1 }
      else s).discards, d.Silent at hs
    split at hs
    · exact hs
    · exact hs
  markedTarget := fun _ ht => ht
  run := by
    intro s t hst _
    cases hp : p.framed with
    | true =>
      -- the frame of the function waits for the throw
      have hs : noteReturn p s = (.ok (), s) := by
        simp [noteReturn, Early.modify, hp]
      left
      rw [bind_of_ok hs]
      exact ⟨hst, rfl, rfl⟩
    | false =>
      have hu : p.update = true := h.resolve_left (by simp [hp])
      right
      refine ⟨?_, .inr ⟨_, rfl, .inl ⟨rfl, v, rfl⟩⟩⟩
      show 0 < (if !p.framed && p.update then { s with unlanded := s.unlanded + 1 }
        else s).unlanded
      simp [hp, hu]

/-- A `?` of a `try` block and its throw. -/
theorem Emits.exit (p : Place) (v : HostVal) :
    Emits p.framed p.inTry
      (Early.bind (noteExit p) fun _ => Early.leave (.exited v) : HostRun W α)
      (HostRun.raise "throw" (controlReason .ridgeResultExit v)) where
  marked := by
    intro s hs
    show 0 < (if p.inTry then s else { s with unlanded := s.unlanded + 1 }).unlanded
    split
    · exact hs
    · exact Nat.succ_pos _
  fine := by
    intro s hs
    change ∀ d ∈ (if p.inTry then s else { s with unlanded := s.unlanded + 1 }).discards,
      d.Silent at hs
    split at hs
    · exact hs
    · exact hs
  markedTarget := fun _ ht => ht
  run := by
    intro s t hst _
    cases hp : p.inTry with
    | true =>
      have hs : noteExit p s = (.ok (), s) := by
        simp [noteExit, Early.modify, hp]
      left
      rw [bind_of_ok hs]
      exact ⟨hst, rfl, rfl⟩
    | false =>
      right
      refine ⟨?_, .inr ⟨_, rfl, .inr ⟨rfl, v, rfl⟩⟩⟩
      show 0 < (if p.inTry then s else { s with unlanded := s.unlanded + 1 }).unlanded
      simp [hp]

/-! ## The frames -/

/-- A `try` block and its catch frame. -/
theorem Emits.exitHere (hm : Emits framed true m h) :
    Emits framed inTry (HostRun.exitHere m) (catchControl .ridgeResultExit true h) := by
  apply Tracks.ending hm
  · intro r r' hrr
    rcases hrr.cases with ⟨v, rfl, rfl⟩ | ⟨e, d, rfl, rfl, hed⟩
    · exact (rfl : HostVal.tuple [.atom "ok", v] = _)
    · cases e with
      | returned v =>
        obtain ⟨hf, rfl⟩ := hed
        simp only [controlOf_controlReason, reduceCtorEq, if_false]
        exact ⟨hf, rfl⟩
      | exited v =>
        obtain ⟨_, rfl⟩ := hed
        simp only [controlOf_controlReason, if_true]
        exact (rfl : v = v)
      | raised cls reason =>
        obtain ⟨rfl, hc⟩ := hed
        simp only [hc]
        exact ⟨rfl, hc⟩
      | timeout =>
        cases (show d = .timeout from hed)
        exact (rfl : Leave.timeout = .timeout)
  · rintro d (⟨hf, v, rfl⟩ | ⟨hf, _⟩)
    · refine ⟨.raised "throw" (controlReason .ridgeReturn v), ?_, .inl ⟨hf, v, rfl⟩⟩
      simp
    · exact absurd hf (by simp)

theorem Emits.returnHere_framed (hm : Emits true inTry m h) :
    Emits false inTry (HostRun.returnHere m) (catchControl .ridgeReturn false h) := by
  apply Tracks.ending hm
  · intro r r' hrr
    rcases hrr.cases with ⟨v, rfl, rfl⟩ | ⟨e, d, rfl, rfl, hed⟩
    · exact (rfl : v = v)
    · cases e with
      | returned v =>
        obtain ⟨_, rfl⟩ := hed
        simp only [controlOf_controlReason, if_true]
        exact (rfl : v = v)
      | exited v =>
        obtain ⟨hf, rfl⟩ := hed
        simp only [controlOf_controlReason, reduceCtorEq, if_false]
        exact ⟨hf, rfl⟩
      | raised cls reason =>
        obtain ⟨rfl, hc⟩ := hed
        simp only [hc]
        exact ⟨rfl, hc⟩
      | timeout =>
        cases (show d = .timeout from hed)
        exact (rfl : Leave.timeout = .timeout)
  · rintro d (⟨hf, _⟩ | ⟨hf, v, rfl⟩)
    · exact absurd hf (by simp)
    · refine ⟨.raised "throw" (controlReason .ridgeResultExit v), ?_, .inr ⟨hf, v, rfl⟩⟩
      simp

/-- Code with no frame: in step, no `return` of the function leaves it. -/
theorem Emits.returnHere (hm : Emits false inTry m h) :
    Emits false inTry (HostRun.returnHere m) h where
  marked := hm.marked
  fine := hm.fine
  markedTarget := hm.markedTarget
  run := by
    intro s t hst hfin
    rcases hm.run s t hst hfin with ⟨hin, hend⟩ | hbroken
    · refine .inl ⟨hin, ?_⟩
      rcases hend.cases with ⟨v, hv, hv'⟩ | ⟨e, d, he, hd, hed⟩
      · simp only [HostRun.returnHere, Early.ending, hv, hv', landReturn]
        exact (rfl : v = v)
      · simp only [HostRun.returnHere, Early.ending, he, hd]
        cases e with
        | returned v => exact absurd hed.1 (by simp)
        | exited v => exact hed
        | raised cls reason => exact hed
        | timeout => exact hed
    · exact .inr hbroken

/-! ## Boundaries -/

variable {isOwn : ControlTag → Bool}

variable {t : RunState W}

/-- Watching for a throw that does not leave changes nothing. -/
theorem watch_of_not (ht : throwsOwn isOwn (h t).1 = false) : HostRun.watch isOwn h t = h t := by
  simp [HostRun.watch, ht]

theorem escapes_of_throwsOwn (ht : throwsOwn isOwn (h t).1 = true) :
    0 < (HostRun.watch isOwn h t).2.escapes := by
  simp [HostRun.watch, ht]

theorem throwsOwn_of_leavesAs {r r' : Except Leave HostVal}
    (h : SameEnd (leavesAs framed inTry) r r')
    (hreturn : framed = true → isOwn .ridgeReturn = false)
    (hexit : inTry = true → isOwn .ridgeResultExit = false) : throwsOwn isOwn r' = false := by
  rcases h.cases with ⟨v, rfl, rfl⟩ | ⟨e, d, rfl, rfl, hed⟩
  · rfl
  · cases e with
    | returned v =>
      obtain ⟨hf, rfl⟩ := hed
      simp [throwsOwn, hreturn hf]
    | exited v =>
      obtain ⟨hi, rfl⟩ := hed
      simp [throwsOwn, hexit hi]
    | raised cls reason =>
      obtain ⟨rfl, hc⟩ := hed
      simp [throwsOwn, hc]
    | timeout =>
      cases (show d = .timeout from hed)
      rfl

/-- The code of an inner function: a `return` throw that leaves it is written down. -/
theorem Emits.watch_inner (hm : Emits false inTry m h) :
    Emits framed inTry m (HostRun.watch (· = .ridgeReturn) h) where
  marked := hm.marked
  fine := hm.fine
  markedTarget := fun t ht => escapes_watch _ h (hm.markedTarget t ht)
  run := by
    intro s t hst hfin
    rcases hm.run s t hst hfin with ⟨hin, hend⟩ | ⟨hs, ht | ⟨d, hd, hp⟩⟩
    · left
      rw [watch_of_not (throwsOwn_of_leavesAs hend (by simp) (by simp))]
      refine ⟨hin, ?_⟩
      rcases hend.cases with ⟨v, hv, hv'⟩ | ⟨e, d, he, hd, hed⟩
      · rw [hv, hv']
        exact (rfl : v = v)
      · rw [he, hd]
        cases e with
        | returned v => exact absurd hed.1 (by simp)
        | exited v => exact hed
        | raised cls reason => exact hed
        | timeout => exact hed
    · exact .inr ⟨hs, .inl (escapes_watch _ h ht)⟩
    · refine .inr ⟨hs, ?_⟩
      rcases hp with ⟨_, v, rfl⟩ | ⟨hi, v, rfl⟩
      · exact .inl (escapes_of_throwsOwn (by simp [throwsOwn, hd]))
      · exact .inr ⟨_, hd, .inr ⟨hi, v, rfl⟩⟩

/-- The boundary of a function: every control throw that leaves it is written down. -/
theorem EmitsPlain.boundary (hm : Emits false false (HostRun.returnHere m) h) :
    EmitsPlain (HostRun.boundary m) (HostRun.watch (fun _ => true) h) where
  marked := hm.marked
  fine := hm.fine
  markedTarget := fun t ht => escapes_watch _ h (hm.markedTarget t ht)
  run := by
    intro s t hst hfin
    rcases hm.run s t hst hfin with ⟨hin, hend⟩ | ⟨hs, ht | ⟨d, hd, hp⟩⟩
    · left
      rw [watch_of_not (throwsOwn_of_leavesAs hend (by simp) (by simp))]
      refine ⟨hin, ?_⟩
      rcases hend.cases with ⟨v, hv, hv'⟩ | ⟨e, d, he, hd, hed⟩
      · simp only [HostRun.boundary, Early.ending, hv, hv']
        exact (rfl : v = v)
      · simp only [HostRun.boundary, Early.ending, he, hd]
        rcases leavesAs_plain hed with ⟨cls, reason, rfl, rfl, hc⟩ | ⟨rfl, rfl⟩
        · exact ⟨rfl, hc⟩
        · exact (rfl : Leave.timeout = .timeout)
    · exact .inr ⟨hs, .inl (escapes_watch _ h ht)⟩
    · refine .inr ⟨hs, .inl (escapes_of_throwsOwn ?_)⟩
      rcases hp with ⟨_, v, rfl⟩ | ⟨_, v, rfl⟩
      · simp [throwsOwn, hd]
      · simp [throwsOwn, hd]

end Ridge
