import Ridge.Loader.Recovery
import Mathlib.Data.List.Perm.Subperm

/-!
# A reload leaves no actor half migrated

The owner goes through three phases, and each has its invariant (`Precommit`, `Granted`, `Loaded`):
what holds whatever happens by itself and whoever is killed. From each of them an abort, which is
also the answer to the worker's death, settles every actor the owner has (`Over`).
-/

namespace Ridge.Recovery

open Scripted List

variable {P : World → Prop} {w' : World}

/-! ## What is promised -/

/-- An actor is gone, or runs in a state of one shape. -/
def Settled (n : Node) (p : Pid) : Prop :=
  (n.actors p).alive = false ∨ (n.actors p).suspended = false ∧ (n.actors p).shape = .sound

/-- What may be done, and when. -/
def Allowed : Action → Node → Prop
  | .resume p, n => (n.actors p).shape = .sound ∧
    (n.owner.phase = .precommit ∧ n.loaded = false ∨
      n.owner.phase = .loaded ∧ n.owner.mark p = .ready)
  | .stop _, _ => True
  | .publish, n => n.owner.phase = .loaded ∧ ∀ p ∈ n.owner.keys, Settled n p
  | .erase, n => (∀ p ∈ n.owner.keys, Settled n p) ∧
    (n.owner.phase = .precommit ∧ n.loaded = false ∨
      n.owner.phase = .loaded ∧ n.published = true)

def LogAllowed (w : World) : Prop := ∀ e ∈ w.log, Allowed e.1 e.2

/-- Every actor the owner has is settled, nothing was done that may not be done, and the gate does
nothing any more. -/
structure Over (w : World) : Prop where
  log : LogAllowed w
  settled : ∀ p ∈ w.owner.keys, Settled w.toNode p
  phase : w.gate.phase ≠ .preparing
  resuming : w.gate.resuming = []

/-! ## What happens by itself -/

/-- A predicate that what happens by itself keeps. -/
def Stable (P : World → Prop) : Prop := ∀ w e, P w → P (w.move e)

/-- A predicate that kills and the resumes that may be done keep, too. -/
structure Robust (P : World → Prop) : Prop where
  move : Stable P
  kill : ∀ w p, P w → P (w.kill p)
  resume : ∀ w p, Allowed (.resume p) w.toNode → P w → P (w.resume p)

theorem Stable.moves (h : Stable P) {w : World} (hw : P w) (events : List Event) :
    P (events.foldl World.move w) := by
  induction events generalizing w with
  | nil => exact hw
  | cons e events ih => exact ih (h w e hw)

variable {Q : World → Prop}

theorem Stable.and (hP : Stable P) (hQ : Stable Q) : Stable fun w => P w ∧ Q w :=
  fun w e hw => ⟨hP w e hw.1, hQ w e hw.2⟩

theorem Robust.and (hP : Robust P) (hQ : Robust Q) :
    Robust fun w => P w ∧ Q w where
  move := hP.move.and hQ.move
  kill _ p hw := ⟨hP.kill _ p hw.1, hQ.kill _ p hw.2⟩
  resume _ p ha hw := ⟨hP.resume _ p ha hw.1, hQ.resume _ p ha hw.2⟩

variable {α : Type}

/-- A turn keeps what is stable, up to its own effect. -/
theorem spec_step {Q : α → World → Prop} {f : Outcome → World → α × World} (hP : Stable P)
    (h : ∀ o w, P w → Q (f o w).1 (f o w).2) : Spec P (step f) Q :=
  Spec.turn fun t _ hw => h t.outcome _ (hP.moves hw t.events)

/-- A resume worker has reported for `p`: the gate forgets it, and may be fenced. -/
structure Reported (g : Gate) (p : Pid) (g' : Gate) : Prop where
  writer : g'.writer = g.writer
  phase : g'.phase = g.phase
  held : g'.held = g.held
  resuming : g'.resuming = g.resuming.erase p

/-- What a single event does. -/
inductive Moved (w : World) : World → Prop
  | same : Moved w w
  | exit (p : Pid) : Moved w (w.setActor p fun a => { a with alive := false })
  | workerDies : Moved w { w with worker := false }
  | cancelled (h : w.gate.phase = .preparing) :
    Moved w (w.setGate fun g => { g.resumeAll with phase := .cancelled })
  | gone (p : Pid) (g : Gate) (h : Reported w.gate p g) (hp : p ∈ w.gate.resuming)
    (hdead : (w.actors p).alive = false) : Moved w { w with gate := g }
  | killed (p : Pid) (g : Gate) (h : Reported w.gate p g) (hp : p ∈ w.gate.resuming) :
    Moved w { w.kill p with gate := g }
  | resumed (p : Pid) (g : Gate) (h : Reported w.gate p g) (hp : p ∈ w.gate.resuming) :
    Moved w { w.resume p with gate := g }

theorem moved_settle (w : World) (p : Pid) (ok : Bool) : Moved w (w.settle p ok) := by
  unfold World.settle
  split
  · next hp =>
    dsimp only
    split
    · split
      · exact .resumed p _ ⟨rfl, rfl, rfl, rfl⟩ hp
      · exact .killed p _ ⟨rfl, rfl, rfl, rfl⟩ hp
    · next hdead => exact .gone p _ ⟨rfl, rfl, rfl, rfl⟩ hp (Bool.eq_false_iff.mpr hdead)
  · exact .same

theorem moved_move (w : World) (e : Event) : Moved w (w.move e) := by
  cases e with
  | exit p => exact .exit p
  | workerDies => exact .workerDies
  | actorStarts =>
    unfold World.move
    dsimp only
    split
    · next h => exact .cancelled h.2
    · exact .same
  | resumes p ok => exact moved_settle w p ok

theorem stable_of_moved (h : ∀ w w', Moved w w' → P w → P w') : Stable P :=
  fun _ e hw => h _ _ (moved_move _ e) hw

namespace World

variable (w : World) (p q : Pid)

theorem alive_kill (h : (w.actors q).alive = false) : ((w.kill p).actors q).alive = false := by
  by_cases hq : q = p
  · subst hq
    simp [kill, setActor]
  · simpa [kill, setActor, record, hq] using h

theorem alive_kill_self : ((w.kill p).actors p).alive = false := by simp [kill, setActor]

theorem suspended_kill : ((w.kill p).actors q).suspended = (w.actors q).suspended := by
  by_cases hq : q = p
  · subst hq
    simp [kill, setActor, record]
  · simp [kill, setActor, record, hq]

theorem shape_kill : ((w.kill p).actors q).shape = (w.actors q).shape := by
  by_cases hq : q = p
  · subst hq
    simp [kill, setActor, record]
  · simp [kill, setActor, record, hq]

theorem alive_resume : ((w.resume p).actors q).alive = (w.actors q).alive := by
  by_cases hq : q = p
  · subst hq
    simp [resume, setActor, record]
  · simp [resume, setActor, record, hq]

theorem suspended_resume (h : (w.actors q).suspended = false) :
    ((w.resume p).actors q).suspended = false := by
  by_cases hq : q = p
  · subst hq
    simp [resume, setActor]
  · simpa [resume, setActor, record, hq] using h

theorem suspended_resume_self : ((w.resume p).actors p).suspended = false := by
  simp [resume, setActor]

theorem shape_resume : ((w.resume p).actors q).shape = (w.actors q).shape := by
  by_cases hq : q = p
  · subst hq
    simp [resume, setActor, record]
  · simp [resume, setActor, record, hq]

end World

variable {a : Action}

theorem LogAllowed.record {w : World} (h : LogAllowed w) (ha : Allowed a w.toNode) :
    LogAllowed (w.record a) := by
  intro e he
  rcases mem_append.mp he with he | he
  · exact h e he
  · obtain rfl := mem_singleton.mp he
    exact ha

/-- No actor comes back, is suspended or changes its shape by itself. -/
theorem Moved.actor {w : World} (h : Moved w w') (q : Pid) :
    ((w.actors q).alive = false → (w'.actors q).alive = false) ∧
      ((w.actors q).suspended = false → (w'.actors q).suspended = false) ∧
      (w'.actors q).shape = (w.actors q).shape := by
  cases h with
  | same => exact ⟨id, id, rfl⟩
  | exit p =>
    by_cases hq : q = p
    · subst hq
      simp [World.setActor]
    · simp [World.setActor, hq]
  | workerDies | cancelled _ | gone _ _ _ _ _ => exact ⟨id, id, rfl⟩
  | killed p _ _ _ => exact ⟨w.alive_kill p q, (w.suspended_kill p q).trans, w.shape_kill p q⟩
  | resumed p _ _ _ => exact ⟨(w.alive_resume p q).trans, w.suspended_resume p q, w.shape_resume p q⟩

/-- Nothing of the owner and of the code changes by itself. -/
theorem Moved.owner {w : World} (h : Moved w w') :
    w'.owner = w.owner ∧ w'.loaded = w.loaded ∧ w'.active = w.active ∧
      w'.published = w.published := by
  cases h <;> exact ⟨rfl, rfl, rfl, rfl⟩

theorem Moved.settled {w : World} (h : Moved w w') {p : Pid} (hp : Settled w.toNode p) :
    Settled w'.toNode p := by
  obtain ⟨halive, hsuspended, hshape⟩ := h.actor p
  exact hp.imp halive fun hp => ⟨hsuspended hp.1, hshape.trans hp.2⟩

/-- A fact about what the owner keeps and about the code. -/
theorem robust_owner (f : Owner → Bool → Bool → Bool → Prop) :
    Robust fun w => f w.owner w.loaded w.active w.published where
  move := stable_of_moved fun w w' h hw => by
    obtain ⟨h₁, h₂, h₃, h₄⟩ := h.owner
    rwa [h₁, h₂, h₃, h₄]
  kill _ _ hw := hw
  resume _ _ _ hw := hw

theorem robust_dead (q : Pid) : Robust fun w => (w.actors q).alive = false where
  move := stable_of_moved fun _ _ h => (h.actor q).1
  kill w p := w.alive_kill p q
  resume w p _ := (w.alive_resume p q).trans

theorem settled_kill {w : World} (p : Pid) {q : Pid} (hq : Settled w.toNode q) :
    Settled (w.kill p).toNode q :=
  hq.imp (w.alive_kill p q) fun hq =>
    ⟨(w.suspended_kill p q).trans hq.1, (w.shape_kill p q).trans hq.2⟩

theorem robust_settled (q : Pid) : Robust fun w => Settled w.toNode q where
  move := stable_of_moved fun _ _ h => h.settled
  kill _ p := settled_kill p
  resume w p _ hq := hq.imp (w.alive_resume p q).trans fun hq =>
    ⟨w.suspended_resume p q hq.1, (w.shape_resume p q).trans hq.2⟩

theorem robust_forall {P : α → World → Prop} (h : ∀ a, Robust (P a)) :
    Robust fun w => ∀ a, P a w where
  move w e hw a := (h a).move w e (hw a)
  kill w p hw a := (h a).kill w p (hw a)
  resume w p ha hw a := (h a).resume w p ha (hw a)

theorem robust_imp {c : Prop} (h : Robust P) : Robust fun w => c → P w where
  move w e hw hc := h.move w e (hw hc)
  kill w p hw hc := h.kill w p (hw hc)
  resume w p ha hw hc := h.resume w p ha (hw hc)

/-! ## The phases -/

/-- An actor the gate has to resume is resumed, is gone, or is still the gate's. -/
def Covered (w : World) (q : Pid) : Prop :=
  (w.actors q).alive = false ∨ (w.actors q).suspended = false ∨ q ∈ w.gate.held ∨
    q ∈ w.gate.resuming

/-- Before the grant: the old code runs, and what is held is held by the gate or resumed by it. -/
structure Precommit (w : World) : Prop where
  log : LogAllowed w
  phase : w.owner.phase = .precommit
  loaded : w.loaded = false
  sound : ∀ p, (w.actors p).shape = .sound
  idle : w.gate.phase = .preparing → w.gate.resuming = []
  unready : ∀ p ∈ w.owner.keys, w.owner.mark p ≠ .ready
  covered : ∀ p ∈ w.owner.keys, w.owner.mark p = .held → Covered w p

/-- The gate has granted the load, and resumes nothing. -/
structure Granting (w : World) : Prop where
  phase : w.gate.phase = .committing
  resuming : w.gate.resuming = []

/-- From the grant to the load: everything is held. -/
structure Granted (w : World) : Prop where
  log : LogAllowed w
  phase : w.owner.phase = .committing
  gate : Granting w
  sound : ∀ p, (w.actors p).shape = .sound
  held : ∀ p ∈ w.owner.keys, w.owner.mark p = .held ∧ Covered w p

/-- From the load to the completion: what is ready has one shape. -/
structure Loaded (w : World) : Prop where
  log : LogAllowed w
  phase : w.owner.phase = .loaded
  gate : Granting w
  ready : ∀ p ∈ w.owner.keys, w.owner.mark p = .ready →
    (w.actors p).alive = false ∨ (w.actors p).shape = .sound

theorem logAllowed_kill {w : World} (h : LogAllowed w) (p : Pid) : LogAllowed (w.kill p) :=
  h.record trivial

theorem Granting.moved {w : World} (h : Moved w w') (hw : Granting w) :
    Granting w' ∧ w'.log = w.log := by
  obtain ⟨hphase, hresuming⟩ := hw
  cases h with
  | same | exit p | workerDies => exact ⟨⟨hphase, hresuming⟩, rfl⟩
  | cancelled hpreparing =>
    rw [hphase] at hpreparing
    cases hpreparing
  | gone p g hg hp _ | killed p g hg hp | resumed p g hg hp =>
    rw [hresuming] at hp
    cases hp

theorem Moved.covered {w : World} (h : Moved w w') {q : Pid} (hq : Covered w q) : Covered w' q := by
  have hactor := h.actor q
  rcases hq with hdead | hrunning | hgate
  · exact .inl (hactor.1 hdead)
  · exact .inr (.inl (hactor.2.1 hrunning))
  · cases h with
    | same | exit p | workerDies => exact .inr (.inr hgate)
    | cancelled _ => exact .inr (.inr (.inr (mem_append.mpr hgate)))
    | gone p g hg hp hdead =>
      by_cases hqp : q = p
      · exact .inl (hqp ▸ hdead)
      · refine .inr (.inr (hgate.imp (fun h => hg.held ▸ h) fun h => ?_))
        exact hg.resuming ▸ (mem_erase_of_ne hqp).mpr h
    | killed p g hg hp =>
      by_cases hqp : q = p
      · exact .inl (hqp ▸ w.alive_kill_self q)
      · refine .inr (.inr (hgate.imp (fun h => hg.held ▸ h) fun h => ?_))
        exact hg.resuming ▸ (mem_erase_of_ne hqp).mpr h
    | resumed p g hg hp =>
      by_cases hqp : q = p
      · exact .inr (.inl (hqp ▸ w.suspended_resume_self q))
      · refine .inr (.inr (hgate.imp (fun h => hg.held ▸ h) fun h => ?_))
        exact hg.resuming ▸ (mem_erase_of_ne hqp).mpr h

theorem robust_covered (q : Pid) : Robust fun w => Covered w q where
  move := stable_of_moved fun _ _ h => h.covered
  kill w p h := h.imp (w.alive_kill p q) fun h => h.imp (w.suspended_kill p q).trans id
  resume w p _ h := h.imp (w.alive_resume p q).trans fun h => h.imp (w.suspended_resume p q) id

theorem Moved.idle {w : World} (h : Moved w w')
    (hw : w.gate.phase = .preparing → w.gate.resuming = []) :
    w'.gate.phase = .preparing → w'.gate.resuming = [] := by
  have hreported : ∀ p g, Reported w.gate p g → g.phase = .preparing → g.resuming = [] := by
    intro p g hg hphase
    rw [hg.resuming, hw (hg.phase.symm.trans hphase)]
    rfl
  cases h with
  | cancelled _ => exact fun h => StartupPhase.noConfusion h
  | gone p g hg _ _ | killed p g hg _ | resumed p g hg _ => exact hreported p g hg
  | _ => exact hw

theorem Precommit.moved {w : World} (h : Moved w w') (hw : Precommit w) : Precommit w' := by
  obtain ⟨howner, hloaded, -, -⟩ := h.owner
  refine ⟨?_, howner ▸ hw.phase, hloaded.trans hw.loaded, fun p => ?_, h.idle hw.idle,
    howner ▸ hw.unready, ?_⟩
  · cases h with
    | killed p g _ _ => exact logAllowed_kill hw.log p
    | resumed p g _ _ => exact hw.log.record ⟨hw.sound p, .inl ⟨hw.phase, hw.loaded⟩⟩
    | _ => exact hw.log
  · exact (h.actor p).2.2.trans (hw.sound p)
  · rw [howner]
    exact fun p hp hmark => h.covered (hw.covered p hp hmark)

theorem robust_precommit : Robust Precommit where
  move := stable_of_moved fun _ _ => Precommit.moved
  kill w p hw := by
    refine ⟨logAllowed_kill hw.log p, hw.phase, hw.loaded, fun q => ?_, hw.idle, hw.unready,
      fun q hq hmark => (robust_covered q).kill w p (hw.covered q hq hmark)⟩
    exact (w.shape_kill p q).trans (hw.sound q)
  resume w p ha hw := by
    refine ⟨hw.log.record ha, hw.phase, hw.loaded, fun q => ?_, hw.idle, hw.unready,
      fun q hq hmark => (robust_covered q).resume w p ha (hw.covered q hq hmark)⟩
    exact (w.shape_resume p q).trans (hw.sound q)

theorem robust_granted : Robust Granted where
  move := stable_of_moved fun w w' h hw => by
    obtain ⟨hgate, hlog⟩ := hw.gate.moved h
    obtain ⟨howner, -, -, -⟩ := h.owner
    refine ⟨?_, howner ▸ hw.phase, hgate, fun p => (h.actor p).2.2.trans (hw.sound p), ?_⟩
    · unfold LogAllowed
      rw [hlog]
      exact hw.log
    · rw [howner]
      exact fun p hp => ⟨(hw.held p hp).1, h.covered (hw.held p hp).2⟩
  kill w p hw := ⟨logAllowed_kill hw.log p, hw.phase, ⟨hw.gate.phase, hw.gate.resuming⟩,
    fun q => (w.shape_kill p q).trans (hw.sound q), fun q hq =>
      ⟨(hw.held q hq).1, (robust_covered q).kill w p (hw.held q hq).2⟩⟩
  resume w p ha hw := ⟨hw.log.record ha, hw.phase, ⟨hw.gate.phase, hw.gate.resuming⟩,
    fun q => (w.shape_resume p q).trans (hw.sound q), fun q hq =>
      ⟨(hw.held q hq).1, (robust_covered q).resume w p ha (hw.held q hq).2⟩⟩

theorem robust_loaded : Robust Loaded where
  move := stable_of_moved fun w w' h hw => by
    obtain ⟨hgate, hlog⟩ := hw.gate.moved h
    obtain ⟨howner, -, -, -⟩ := h.owner
    refine ⟨?_, howner ▸ hw.phase, hgate, ?_⟩
    · unfold LogAllowed
      rw [hlog]
      exact hw.log
    · rw [howner]
      exact fun p hp hmark => (hw.ready p hp hmark).imp (h.actor p).1 (h.actor p).2.2.trans
  kill w p hw := ⟨logAllowed_kill hw.log p, hw.phase, ⟨hw.gate.phase, hw.gate.resuming⟩,
    fun q hq hmark => (hw.ready q hq hmark).imp (w.alive_kill p q) (w.shape_kill p q).trans⟩
  resume w p ha hw := ⟨hw.log.record ha, hw.phase, ⟨hw.gate.phase, hw.gate.resuming⟩,
    fun q hq hmark =>
      (hw.ready q hq hmark).imp (w.alive_resume p q).trans (w.shape_resume p q).trans⟩

/-! ## Stopping actors -/

theorem spec_look (hP : Stable P) (f : Outcome → World → α) :
    Spec P (step fun o w => (f o w, w)) fun _ w => P w :=
  spec_step hP fun _ _ hw => hw

theorem spec_isAlive (hP : Stable P) (p : Pid) :
    Spec P (isAlive p) fun alive w => P w ∧ (alive = false → (w.actors p).alive = false) :=
  spec_step hP fun _ _ hw => ⟨hw, id⟩

theorem spec_exitKill (hP : Robust P) (p : Pid) :
    Spec P (exitKill p) fun _ w => P w ∧ (w.actors p).alive = false :=
  spec_step hP.move fun _ w hw => ⟨hP.kill w p hw, w.alive_kill_self p⟩

/-- The actors that do not answer are gone. -/
theorem spec_filterEach_isAlive (hP : Robust P) (pids : List Pid) :
    Spec P (filterEach isAlive pids) fun entries w =>
      P w ∧ ∀ p ∈ pids, p ∉ entries → (w.actors p).alive = false := by
  induction pids generalizing P with
  | nil => exact Spec.pure fun w hw => ⟨hw, fun p hp => absurd hp not_mem_nil⟩
  | cons p pids ih =>
    refine (spec_isAlive hP.move p).bind fun keep => ?_
    refine (ih (hP.and (robust_imp (robust_dead p)))).bind fun rest => ?_
    refine Spec.pure fun w hw => ⟨hw.1.1, fun q hq hnot => ?_⟩
    cases keep with
    | false =>
      rcases mem_cons.mp hq with rfl | hq
      · exact hw.1.2 rfl
      · exact hw.2 q hq hnot
    | true =>
      rcases mem_cons.mp hq with rfl | hq
      · exact absurd mem_cons_self hnot
      · exact hw.2 q hq fun h => hnot (mem_cons_of_mem p h)

theorem spec_attempt (hP : Stable P) : Spec P attempt fun _ w => P w :=
  spec_look hP _

/-- Whatever the wait says, the actors are gone. -/
theorem spec_stopRecoveryActors (hP : Robust P) (pids : List Pid) (reason : StopReason) :
    Spec P (stopRecoveryActors pids reason) fun _ w =>
      P w ∧ ∀ p ∈ pids, (w.actors p).alive = false := by
  have hdead : ∀ l : List Pid, Robust fun w => ∀ p ∈ l, (w.actors p).alive = false := fun l =>
    robust_forall fun p => robust_imp (robust_dead p)
  refine (spec_filterEach_isAlive hP pids).bind fun entries => ?_
  have hrest : Robust fun w => P w ∧ ∀ p ∈ pids, p ∉ entries → (w.actors p).alive = false :=
    hP.and (robust_forall fun p => robust_imp (robust_imp (robust_dead p)))
  have hkills : Spec (fun w => P w ∧ ∀ p ∈ pids, p ∉ entries → (w.actors p).alive = false)
      (forEach exitKill entries) fun _ w =>
        (P w ∧ ∀ p ∈ pids, p ∉ entries → (w.actors p).alive = false) ∧
          ∀ p ∈ entries, (w.actors p).alive = false := by
    refine Spec.forEach fun p _ seen => ?_
    refine (spec_exitKill (hrest.and (hdead seen)) p).post fun _ w hw => ?_
    exact ⟨hw.1.1, hw.1.2, hw.2⟩
  refine hkills.bind fun _ => ?_
  refine Spec.pre (P := fun w => P w ∧ ∀ p ∈ pids, (w.actors p).alive = false) ?_ ?_
  · refine Spec.bind ?_ fun safe => Spec.pure fun _ hw => hw
    exact Spec.ite (fun _ => Spec.pure fun _ hw => hw) fun _ => spec_attempt (hP.and (hdead pids)).move
  · refine fun w hw => ⟨hw.1.1, fun p hp => ?_⟩
    by_cases hentry : p ∈ entries
    · exact hw.2 p hentry
    · exact hw.1.2 p hp hentry

/-! ## Resuming what is ready -/

theorem settled_dead {n : Node} {p : Pid} (h : (n.actors p).alive = false) : Settled n p :=
  .inl h

theorem spec_sysResume (hP : Robust P) {p : Pid}
    (hallowed : ∀ w, P w → (w.actors p).alive = true → Allowed (.resume p) w.toNode) :
    Spec P (sysResume p) fun resumed w => P w ∧ (resumed = true → Settled w.toNode p) := by
  refine spec_step hP.move fun o w hw => ?_
  by_cases halive : (w.actors p).alive = true
  · have ha := hallowed w hw halive
    have hsettled : Settled (w.resume p).toNode p :=
      .inr ⟨w.suspended_resume_self p, (w.shape_resume p p).trans ha.1⟩
    rw [if_pos halive]
    cases o with
    | ok => exact ⟨hP.resume w p ha hw, fun _ => hsettled⟩
    | late => exact ⟨hP.resume w p ha hw, fun h => absurd h Bool.false_ne_true⟩
    | failed => exact ⟨hw, fun h => absurd h Bool.false_ne_true⟩
  · rw [if_neg halive]
    exact ⟨hw, fun h => absurd h Bool.false_ne_true⟩

theorem spec_resumeOwned (hP : Robust P) {p : Pid}
    (hallowed : ∀ w, P w → (w.actors p).alive = true → Allowed (.resume p) w.toNode) :
    Spec P (resumeOwned p) fun _ w => P w ∧ Settled w.toNode p := by
  refine (spec_isAlive hP.move p).bind fun alive => ?_
  cases alive with
  | false => exact Spec.pure fun w hw => ⟨hw.1, settled_dead (hw.2 rfl)⟩
  | true =>
    refine ((spec_sysResume hP hallowed).pre fun w hw => hw.1).bind fun resumed => ?_
    cases resumed with
    | true => exact Spec.pure fun w hw => ⟨hw.1, hw.2 rfl⟩
    | false =>
      -- no answer: it is killed, and not resumed twice
      refine ((spec_stopRecoveryActors hP [p] _).pre fun w hw => hw.1).bind fun stopped => ?_
      exact Spec.pure fun w hw => ⟨hw.1, settled_dead (hw.2 p (mem_singleton_self p))⟩

theorem spec_resumeAllOwned (hP : Robust P) {l : List Pid}
    (hallowed : ∀ p ∈ l, ∀ w, P w → (w.actors p).alive = true → Allowed (.resume p) w.toNode)
    (stats : Stats) (safe : Bool) :
    Spec P (resumeAllOwned l stats safe) fun _ w => P w ∧ ∀ p ∈ l, Settled w.toNode p := by
  induction l generalizing P stats safe with
  | nil => exact Spec.pure fun w hw => ⟨hw, fun p hp => absurd hp not_mem_nil⟩
  | cons p l ih =>
    refine (spec_resumeOwned hP (hallowed p mem_cons_self)).bind fun r => ?_
    refine (ih (hP.and (robust_settled p)) (fun q hq w hw =>
      hallowed q (mem_cons_of_mem p hq) w hw.1) _ _).post fun _ w hw => ?_
    exact ⟨hw.1.1, forall_mem_cons.mpr ⟨hw.1.2, hw.2⟩⟩

/-- Every actor of the owner is resumed, when it is ready, or killed. -/
theorem spec_settleRecoveryActors (hP : Robust P) {ready : Bool}
    (hallowed : ready = true → ∀ w p, P w → p ∈ w.owner.keys → w.owner.mark p = .ready →
      (w.actors p).alive = true → Allowed (.resume p) w.toNode) :
    Spec P (settleRecoveryActors ready) fun _ w =>
      P w ∧ ∀ p ∈ w.owner.keys, Settled w.toNode p := by
  refine (Spec.gets (Q := fun o w => P w ∧ w.owner = o) fun w hw => ⟨hw, rfl⟩).bind fun o => ?_
  have howner : Robust fun w => P w ∧ w.owner = o :=
    hP.and (robust_owner fun o' _ _ _ => o' = o)
  rw [partition_eq_filter_filter]
  refine (spec_stopRecoveryActors howner _ _).bind fun killed => ?_
  have hdead : Robust fun w => (P w ∧ w.owner = o) ∧
      ∀ p ∈ o.keys.filter (not ∘ fun p => decide (ready ∧ o.mark p = .ready)),
        (w.actors p).alive = false :=
    howner.and (robust_forall fun p => robust_imp (robust_dead p))
  refine (spec_resumeAllOwned hdead (fun p hp w hw halive => ?_) _ _).post fun _ w hw => ?_
  · obtain ⟨hkey, hmark⟩ := mem_filter.mp hp
    obtain ⟨hready, hmark⟩ := of_decide_eq_true hmark
    obtain ⟨⟨hw, rfl⟩, -⟩ := hw
    exact hallowed hready w p hw hkey hmark halive
  · obtain ⟨⟨⟨hw, rfl⟩, hkilled⟩, hresumed⟩ := hw
    refine ⟨hw, fun p hp => ?_⟩
    by_cases hmark : ready = true ∧ w.owner.mark p = .ready
    · exact hresumed p (mem_filter.mpr ⟨hp, decide_eq_true hmark⟩)
    · refine settled_dead (hkilled p (mem_filter.mpr ⟨hp, ?_⟩))
      rw [Function.comp_apply, decide_eq_false hmark]
      rfl

/-! ## Completion -/

/-- After the load every actor of the owner is settled. -/
def Completing (w : World) : Prop := Loaded w ∧ ∀ p ∈ w.owner.keys, Settled w.toNode p

theorem robust_allSettled : Robust fun w => ∀ p ∈ w.owner.keys, Settled w.toNode p where
  move := stable_of_moved fun w w' h hw => by
    rw [h.owner.1]
    exact fun p hp => h.settled (hw p hp)
  kill w p hw q hq := settled_kill p (hw q hq)
  resume w p ha hw q hq := (robust_settled q).resume w p ha (hw q hq)

theorem robust_completing : Robust Completing := robust_loaded.and robust_allSettled

theorem Granting.quiet {w : World} (h : Granting w) : w.gate.phase ≠ .preparing := by
  rw [h.phase]
  exact StartupPhase.noConfusion

theorem Completing.ended {w : World} (h : Completing w) : Over w :=
  ⟨h.1.log, h.2, h.1.gate.quiet, h.1.gate.resuming⟩

theorem loaded_record {w : World} (h : Loaded w) (ha : Allowed a w.toNode) : Loaded (w.record a) :=
  ⟨h.log.record ha, h.phase, ⟨h.gate.phase, h.gate.resuming⟩, h.ready⟩

theorem spec_publishVersion : Spec Completing publishVersion fun _ w =>
    Completing w ∧ w.published = true :=
  spec_step robust_completing.move fun _ w hw => by
    have hrecord := loaded_record hw.1 (a := .publish) ⟨hw.1.phase, hw.2⟩
    exact ⟨⟨⟨hrecord.log, hrecord.phase, ⟨hw.1.gate.phase, hw.1.gate.resuming⟩, hrecord.ready⟩,
      hw.2⟩, rfl⟩

theorem robust_published : Robust fun w => Completing w ∧ w.published = true :=
  robust_completing.and (robust_owner fun _ _ _ published => published = true)

theorem spec_eraseCompleted : Spec (fun w => Completing w ∧ w.published = true) eraseActive
    fun _ w => Completing w :=
  spec_step robust_published.move fun _ w hw => by
    have hrecord := loaded_record hw.1.1 (a := .erase) ⟨hw.1.2, .inr ⟨hw.1.1.phase, hw.2⟩⟩
    exact ⟨⟨hrecord.log, hrecord.phase, ⟨hw.1.1.gate.phase, hw.1.1.gate.resuming⟩, hrecord.ready⟩,
      hw.1.2⟩

/-- The gate's end has no effect on the actors and the log. -/
theorem spec_startupFinish (hP : Stable P)
    (hgate : ∀ w, P w → ∀ fenced, P (w.setGate fun g => { g with writer := false, fenced := fenced })) :
    Spec P startupFinish fun _ w => P w :=
  spec_step hP fun _ w hw => hgate w hw _

theorem completing_finished (w : World) (hw : Completing w) (fenced : Bool) :
    Completing (w.setGate fun g => { g with writer := false, fenced := fenced }) :=
  ⟨⟨hw.1.log, hw.1.phase, ⟨hw.1.gate.phase, hw.1.gate.resuming⟩, hw.1.ready⟩, hw.2⟩

/-- Nothing is published unless every actor is settled, and nothing fails in between. -/
theorem spec_publishCompletion (stats : Stats) (safe : Bool) :
    Spec Completing (publishCompletion stats safe) fun _ w => Completing w := by
  refine Spec.ite (fun _ => ?_) fun _ => Spec.pure fun _ hw => hw
  refine spec_publishVersion.bind fun _ => ?_
  refine (spec_attempt robust_published.move).bind fun scheduled => ?_
  refine Spec.ite (fun _ => ?_) fun _ => Spec.pure fun _ hw => hw.1
  refine spec_eraseCompleted.bind fun _ => ?_
  refine (spec_startupFinish robust_completing.move completing_finished).bind fun answer => ?_
  cases answer with
  | ok =>
    refine Spec.bind (Q := fun _ w => Completing w) (Spec.gets fun _ hw => hw) fun o => ?_
    exact Spec.pure fun _ hw => hw
  | _ => exact Spec.pure fun _ hw => hw

/-- `complete_recovery` settles every actor and resumes only those that are ready. -/
theorem spec_completeRecovery : Spec Loaded completeRecovery fun _ w => Completing w := by
  have hallowed : true = true → ∀ w p, Loaded w → p ∈ w.owner.keys → w.owner.mark p = .ready →
      (w.actors p).alive = true → Allowed (.resume p) w.toNode := by
    intro _ w p hw hp hmark halive
    refine ⟨(hw.ready p hp hmark).resolve_left ?_, .inr ⟨hw.phase, hmark⟩⟩
    exact fun hdead => Bool.noConfusion (halive.symm.trans hdead)
  refine (spec_settleRecoveryActors robust_loaded hallowed).bind fun settled => ?_
  refine (spec_publishCompletion settled.1 settled.2).bind fun result => ?_
  exact (spec_attempt robust_completing.move).bind fun _ => Spec.pure fun _ hw => hw

/-! ## Aborts -/

/-- The gate after an abort: it resumes nothing any more. -/
structure GateDone (g : Gate) : Prop where
  phase : g.phase = .cancelled
  held : g.held = []
  resuming : g.resuming = []

theorem GateDone.moved {w : World} (h : Moved w w') (hw : GateDone w.gate) : w'.gate = w.gate := by
  cases h with
  | same => rfl
  | exit _ => rfl
  | workerDies => rfl
  | cancelled hpreparing =>
    rw [hw.phase] at hpreparing
    cases hpreparing
  | gone p g hg hp _ | killed p g hg hp | resumed p g hg hp =>
    rw [hw.resuming] at hp
    cases hp

theorem robust_gateDone (f : Gate → Prop) : Robust fun w => GateDone w.gate ∧ f w.gate where
  move := stable_of_moved fun w w' h hw => by
    rw [hw.1.moved h]
    exact hw
  kill _ _ hw := hw
  resume _ _ _ hw := hw

/-- What is left to the resume workers, once the gate holds nothing. -/
def Draining (l : List Pid) (w : World) : Prop :=
  w.gate.phase = .cancelled ∧ w.gate.held = [] ∧ w.gate.resuming.Subperm l

theorem draining_moved (l : List Pid) {w : World} (h : Moved w w') (hw : Draining l w) :
    Draining l w' := by
  obtain ⟨hphase, hheld, hresuming⟩ := hw
  have hreported : ∀ p g, Reported w.gate p g → g.phase = .cancelled ∧ g.held = [] ∧
      g.resuming.Subperm l := by
    intro p g hg
    refine ⟨hg.phase.trans hphase, hg.held.trans hheld, ?_⟩
    rw [hg.resuming]
    exact (erase_sublist).subperm.trans hresuming
  cases h with
  | cancelled hpreparing =>
    rw [hphase] at hpreparing
    cases hpreparing
  | gone p g hg _ _ | killed p g hg _ | resumed p g hg _ => exact hreported p g hg
  | _ => exact ⟨hphase, hheld, hresuming⟩

/-- Each worker that is waited for takes its actor from the gate. -/
theorem spec_drain (hP : Stable P) (l : List Pid) :
    Spec (fun w => P w ∧ Draining l w)
      (forEach (fun p => step fun o w => ((), w.settle p (o matches .ok))) l)
      fun _ w => P w ∧ GateDone w.gate := by
  induction l with
  | nil =>
    refine Spec.pure fun w hw => ⟨hw.1, hw.2.1, hw.2.2.1, ?_⟩
    exact subperm_nil.mp hw.2.2.2
  | cons p l ih =>
    have hstable : Stable fun w => P w ∧ Draining (p :: l) w :=
      hP.and (stable_of_moved fun _ _ => draining_moved (p :: l))
    refine Spec.bind (Q := fun _ w => P w ∧ Draining l w) ?_ fun _ => ih
    refine spec_step hstable fun o w hw => ⟨hP w (.resumes p _) hw.1, ?_⟩
    have hsubperm : (w.gate.resuming.erase p).Subperm l := by
      have herase := hw.2.2.2.erase p
      rwa [erase_cons_head] at herase
    obtain ⟨hphase, hheld, -⟩ := hw.2
    show Draining l (w.settle p _)
    unfold World.settle
    split
    · split
      · split <;> exact ⟨hphase, hheld, hsubperm⟩
      · exact ⟨hphase, hheld, hsubperm⟩
    · next hp => exact ⟨hphase, hheld, (erase_of_not_mem hp) ▸ hsubperm⟩

theorem precommit_resumeAll {w : World} (hw : Precommit w) :
    Precommit (w.setGate fun g => { g.resumeAll with phase := .cancelled }) where
  log := hw.log
  phase := hw.phase
  loaded := hw.loaded
  sound := hw.sound
  idle h := StartupPhase.noConfusion h
  unready := hw.unready
  covered p hp hmark := (hw.covered p hp hmark).imp id fun h =>
    h.imp id fun h => .inr (mem_append.mpr h)

/-- The gate answers an abort when it has resumed everything it held; what no worker could resume
is gone, and then the gate is fenced. -/
theorem spec_startupAbort (hP : Robust P) (hgate : ∀ w f, P w → P (w.setGate f)) :
    Spec (fun w => P w ∧ Precommit w) startupAbort fun answer w =>
      (P w ∧ Precommit w) ∧ GateDone w.gate ∧
        (∀ count, answer = .resumed count → w.gate.fenced = false) := by
  refine Spec.bind (Q := fun l w => (P w ∧ Precommit w) ∧ Draining l w) ?_ fun l => ?_
  · refine spec_step (hP.and robust_precommit).move fun _ w hw => ?_
    have hall := hgate w (fun g => { g.resumeAll with phase := .cancelled }) hw.1
    exact ⟨⟨hall, precommit_resumeAll hw.2⟩, rfl, rfl, List.Subperm.refl _⟩
  · refine (spec_drain (hP.and robust_precommit).move l).bind fun _ => ?_
    refine Spec.gets fun w hw => ⟨hw.1, hw.2, fun count h => ?_⟩
    split at h
    · cases h
    · next hfenced => exact Bool.eq_false_iff.mpr hfenced

/-- Once the gate is done and what was not confirmed is gone, every actor is settled. -/
theorem Precommit.allSettled {w : World} (hw : Precommit w) (hgate : GateDone w.gate)
    (hkilled : ∀ p ∈ w.owner.keys, w.owner.mark p = .restart → (w.actors p).alive = false) :
    ∀ p ∈ w.owner.keys, Settled w.toNode p := by
  intro p hp
  cases hmark : w.owner.mark p with
  | restart => exact settled_dead (hkilled p hp hmark)
  | ready => exact absurd hmark (hw.unready p hp)
  | held =>
    rcases hw.covered p hp hmark with hdead | hrunning | hheld | hresuming
    · exact settled_dead hdead
    · exact .inr ⟨hrunning, hw.sound p⟩
    · rw [hgate.held] at hheld
      cases hheld
    · rw [hgate.resuming] at hresuming
      cases hresuming

/-- What an abort before the grant leaves. -/
structure Undone (w : World) : Prop where
  precommit : Precommit w
  settled : ∀ p ∈ w.owner.keys, Settled w.toNode p
  gate : GateDone w.gate

theorem Undone.ended {w : World} (h : Undone w) : Over w := by
  refine ⟨h.precommit.log, h.settled, ?_, h.gate.resuming⟩
  rw [h.gate.phase]
  exact StartupPhase.noConfusion

theorem robust_undone (f : Gate → Prop) : Robust fun w => Undone w ∧ f w.gate := by
  have hrobust := (robust_precommit.and robust_allSettled).and (robust_gateDone f)
  refine ⟨fun w e hw => ?_, fun w p hw => ?_, fun w p ha hw => ?_⟩
  · obtain ⟨⟨h₁, h₂⟩, h₃, h₄⟩ := hrobust.move w e ⟨⟨hw.1.precommit, hw.1.settled⟩, hw.1.gate, hw.2⟩
    exact ⟨⟨h₁, h₂, h₃⟩, h₄⟩
  · obtain ⟨⟨h₁, h₂⟩, h₃, h₄⟩ := hrobust.kill w p ⟨⟨hw.1.precommit, hw.1.settled⟩, hw.1.gate, hw.2⟩
    exact ⟨⟨h₁, h₂, h₃⟩, h₄⟩
  · obtain ⟨⟨h₁, h₂⟩, h₃, h₄⟩ :=
      hrobust.resume w p ha ⟨⟨hw.1.precommit, hw.1.settled⟩, hw.1.gate, hw.2⟩
    exact ⟨⟨h₁, h₂, h₃⟩, h₄⟩

/-- Before the grant, an abort settles every actor of the owner. -/
theorem spec_settlePrecommit : Spec Precommit settlePrecommit fun r w =>
    Undone w ∧ (r.2 = true → w.gate.fenced = false) := by
  refine (Spec.gets (Q := fun o w => Precommit w ∧ w.owner = o) fun w hw => ⟨hw, rfl⟩).bind
    fun o => ?_
  have howner := robust_precommit.and (robust_owner fun o' _ _ _ => o' = o)
  refine (spec_stopRecoveryActors howner _ _).bind fun killed => ?_
  have hkilled : Robust fun w => w.owner = o ∧
      ∀ p ∈ o.keys.filter fun p => o.mark p = .restart, (w.actors p).alive = false :=
    (robust_owner fun o' _ _ _ => o' = o).and (robust_forall fun p => robust_imp (robust_dead p))
  have habort := (spec_startupAbort hkilled fun _ _ hw => hw).pre
    (S := fun w => (Precommit w ∧ w.owner = o) ∧
      ∀ p ∈ o.keys.filter fun p => o.mark p = .restart, (w.actors p).alive = false)
    fun w hw => ⟨⟨hw.1.2, hw.2⟩, hw.1.1⟩
  refine habort.bind fun answer => ?_
  have hundone : ∀ w, (((w.owner = o ∧ ∀ p ∈ o.keys.filter fun p => o.mark p = .restart,
      (w.actors p).alive = false) ∧ Precommit w) ∧ GateDone w.gate ∧
        ∀ count, answer = .resumed count → w.gate.fenced = false) → Undone w := by
    rintro w ⟨⟨⟨rfl, hdead⟩, hw⟩, hgate, -⟩
    refine ⟨hw, hw.allSettled hgate fun p hp hmark => ?_, hgate⟩
    exact hdead p (mem_filter.mpr ⟨hp, decide_eq_true hmark⟩)
  cases answer with
  | resumed count => exact Spec.pure fun w hw => ⟨hundone w hw, fun _ => hw.2.2 count rfl⟩
  | _ => exact Spec.pure fun w hw => ⟨hundone w hw, fun h => Bool.noConfusion h⟩

theorem undone_setGate {w : World} (hw : Undone w) (fenced : Bool) :
    Undone (w.setGate fun g => { g with writer := false, fenced := fenced }) where
  precommit := ⟨hw.precommit.log, hw.precommit.phase, hw.precommit.loaded, hw.precommit.sound,
    hw.precommit.idle, hw.precommit.unready, hw.precommit.covered⟩
  settled := hw.settled
  gate := ⟨hw.gate.phase, hw.gate.held, hw.gate.resuming⟩

/-- The fence goes once every actor is settled and no code has been loaded. -/
theorem spec_eraseUndone : Spec (fun w => Undone w ∧ w.gate.fenced = false) eraseActive fun _ w =>
    (Undone w ∧ w.gate.fenced = false) ∧ w.active = false :=
  spec_step (robust_undone fun g => g.fenced = false).move fun _ w hw => by
    obtain ⟨⟨hpre, hsettled, hgate⟩, hfenced⟩ := hw
    have hlog := hpre.log.record (a := .erase) ⟨hsettled, .inl ⟨hpre.phase, hpre.loaded⟩⟩
    exact ⟨⟨⟨⟨hlog, hpre.phase, hpre.loaded, hpre.sound, hpre.idle, hpre.unready, hpre.covered⟩,
      hsettled, hgate⟩, hfenced⟩, rfl⟩

/-- The gate confirms: nothing is left to resume, and neither fence is up. -/
theorem spec_finishSafely : Spec
    (fun w => (Undone w ∧ w.gate.fenced = false) ∧ w.active = false) finishSafely
    fun _ w => Undone w := by
  have hstable := ((robust_undone fun g => g.fenced = false).and
    (robust_owner fun _ _ active _ => active = false)).move
  refine Spec.bind (Q := fun answer w => answer = .ok ∧ Undone w) ?_ fun answer => ?_
  · refine spec_step hstable fun _ w hw => ⟨?_, undone_setGate hw.1.1 _⟩
    obtain ⟨⟨hundone, hfenced⟩, hactive⟩ := hw
    show (if (w.gate.resuming.isEmpty && !w.gate.fenced && !w.active) = true then _ else _) = _
    rw [hundone.gate.resuming, hfenced, hactive]
    rfl
  · refine Spec.assume fun hanswer => ?_
    exact Spec.require fun w _ => decide_eq_true hanswer

theorem spec_abortPrecommit : Spec Precommit abortRecovery fun _ w => Over w := by
  refine (Spec.gets (Q := fun o w => Precommit w ∧ o = w.owner) fun w hw => ⟨hw, rfl⟩).bind
    fun o => ?_
  cases hphase : o.phase with
  | precommit =>
    refine (spec_settlePrecommit.pre fun w hw => hw.1).bind fun r => ?_
    have hrobust : Robust fun w => Undone w ∧ (r.2 = true → w.gate.fenced = false) :=
      robust_undone fun g => r.2 = true → g.fenced = false
    refine (spec_attempt hrobust.move).bind fun _ => ?_
    refine Spec.ite (fun hsafe => ?_) fun _ => ?_
    · refine (spec_eraseUndone.pre fun w hw => ⟨hw.1, hw.2 hsafe.2⟩).bind fun _ => ?_
      exact spec_finishSafely.bind fun _ => Spec.pure fun _ hw => hw.ended
    · have hfinish := spec_startupFinish (P := Undone)
        (fun w e hw => ((robust_undone fun _ => True).move w e ⟨hw, trivial⟩).1)
        fun w hw fenced => undone_setGate hw fenced
      exact (hfinish.pre fun w hw => hw.1).bind fun _ => Spec.pure fun _ hw => hw.ended
  | _ =>
    refine fun w ts hw => ?_
    obtain ⟨hw, rfl⟩ := hw
    rw [hw.phase] at hphase
    cases hphase

/-- Between the grant and the load, nothing is resumed. -/
theorem spec_abortGranted : Spec Granted abortRecovery fun _ w => Over w := by
  refine (Spec.gets (Q := fun o w => Granted w ∧ o = w.owner) fun w hw => ⟨hw, rfl⟩).bind
    fun o => ?_
  cases hphase : o.phase with
  | committing =>
    have hsettle : Spec Granted (settleRecoveryActors false) fun _ w =>
        Granted w ∧ ∀ p ∈ w.owner.keys, Settled w.toNode p :=
      spec_settleRecoveryActors robust_granted fun h => Bool.noConfusion h
    have hrobust := robust_granted.and robust_allSettled
    refine (hsettle.pre fun w hw => hw.1).bind fun r => ?_
    refine (spec_attempt hrobust.move).bind fun _ => ?_
    refine Spec.ite (fun h => Phase.noConfusion h.1) fun _ => ?_
    have hfinish := spec_startupFinish hrobust.move fun w hw fenced =>
      ⟨⟨hw.1.log, hw.1.phase, ⟨hw.1.gate.phase, hw.1.gate.resuming⟩, hw.1.sound, hw.1.held⟩, hw.2⟩
    exact hfinish.bind fun _ => Spec.pure fun _ hw =>
      ⟨hw.1.log, hw.2, hw.1.gate.quiet, hw.1.gate.resuming⟩
  | _ =>
    refine fun w ts hw => ?_
    obtain ⟨hw, rfl⟩ := hw
    rw [hw.phase] at hphase
    cases hphase

theorem spec_abortLoaded : Spec Loaded abortRecovery fun _ w => Over w := by
  refine (Spec.gets (Q := fun o w => Loaded w ∧ o = w.owner) fun w hw => ⟨hw, rfl⟩).bind
    fun o => ?_
  cases hphase : o.phase with
  | loaded =>
    refine (spec_completeRecovery.pre fun w hw => hw.1).bind fun r => ?_
    exact Spec.pure fun _ hw => hw.ended
  | _ =>
    refine fun w ts hw => ?_
    obtain ⟨hw, rfl⟩ := hw
    rw [hw.phase] at hphase
    cases hphase

/-- A recovery that is not over is in one of its phases. -/
def Abortable (w : World) : Prop := Precommit w ∨ Granted w ∨ Loaded w

theorem spec_abortRecovery : Spec Abortable abortRecovery fun _ w => Over w := by
  rintro w ts (hw | hw | hw)
  · exact spec_abortPrecommit w ts hw
  · exact spec_abortGranted w ts hw
  · exact spec_abortLoaded w ts hw

end Ridge.Recovery
