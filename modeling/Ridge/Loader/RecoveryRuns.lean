import Ridge.Loader.RecoverySafe
import Mathlib.Data.List.Nodup

/-!
# Runs of the recovery owner

What each request of the apply worker leaves (`Open`, still in a phase of the recovery, or `Closed`),
what the worker does between its requests, and from these the whole of a reload: under every script
the owner comes to its end, and everything it owns is settled.
-/

namespace Ridge.Recovery

open Scripted List Function

variable {w : World} {pids : List Pid}

/-- The owner still runs, in one of its phases. -/
structure Open (w : World) : Prop where
  running : w.owner.finished = false
  phase : Abortable w

/-- The owner has come to its end. -/
structure Closed (w : World) : Prop where
  finished : w.owner.finished = true
  ended : Over w

theorem Robust.or {P Q : World → Prop} (hP : Robust P) (hQ : Robust Q) :
    Robust fun w => P w ∨ Q w where
  move _ e hw := hw.imp (hP.move _ e) (hQ.move _ e)
  kill _ p hw := hw.imp (hP.kill _ p) (hQ.kill _ p)
  resume _ p ha hw := hw.imp (hP.resume _ p ha) (hQ.resume _ p ha)

theorem robust_abortable : Robust Abortable :=
  robust_precommit.or (robust_granted.or robust_loaded)

theorem robust_ownerFact (f : Owner → Prop) : Robust fun w => f w.owner :=
  robust_owner fun o _ _ _ => f o

theorem stable_open : Stable Open := by
  intro w e hw
  have h := (robust_abortable.and (robust_ownerFact fun o => o.finished = false)).move w e
    ⟨hw.phase, hw.running⟩
  exact ⟨h.2, h.1⟩

theorem Over.moved {w' : World} (h : Moved w w') (hw : Over w) : Over w' := by
  have hsettled : ∀ p ∈ w'.owner.keys, Settled w'.toNode p := by
    rw [h.owner.1]
    exact fun p hp => h.settled (hw.settled p hp)
  cases h with
  | same => exact hw
  | exit p | workerDies => exact ⟨hw.log, hsettled, hw.phase, hw.resuming⟩
  | cancelled hpreparing => exact absurd hpreparing hw.phase
  | gone p g hg hp _ | killed p g hg hp | resumed p g hg hp =>
    rw [hw.resuming] at hp
    cases hp

theorem stable_closed : Stable Closed := by
  intro w e hw
  have hmoved := moved_move w e
  refine ⟨?_, hw.ended.moved hmoved⟩
  rw [hmoved.owner.1]
  exact hw.finished

theorem spec_finishOwner : Spec Over finishOwner fun _ w => Closed w :=
  Spec.modify fun _ hw => ⟨rfl, hw.log, hw.settled, hw.phase, hw.resuming⟩

/-- Whatever phase the worker's death finds it in, the owner ends with everything settled. -/
theorem spec_recoverAndStop : Spec Abortable recoverAndStop fun _ w => Closed w :=
  spec_abortRecovery.bind fun _ => spec_finishOwner

/-! ## Suspension -/

/-- What the owner keeps once these actors are suspended. -/
structure Suspended (pids : List Pid) (o : Owner) : Prop where
  running : o.finished = false
  nodup : pids.Nodup
  keys : ∀ p, p ∈ o.keys ↔ p ∈ pids
  held : ∀ p ∈ o.keys, o.mark p = .held

/-- What it keeps while it suspends `p`, with these suspended before. -/
structure Suspending (p : Pid) (pids : List Pid) (o : Owner) : Prop where
  running : o.finished = false
  nodup : (p :: pids).Nodup
  suspended : o.suspended = pids
  keys : ∀ q, q ∈ o.keys ↔ q ∈ p :: pids
  mark : o.mark p = .restart
  held : ∀ q ∈ pids, o.mark q = .held

/-- Before the grant, with these actors suspended so far. -/
def Holding (pids : List Pid) (w : World) : Prop :=
  Precommit w ∧ Suspended pids w.owner ∧ w.owner.suspended = pids

theorem precommit_setOwner (hw : Precommit w) (f : Owner → Owner)
    (hphase : (f w.owner).phase = w.owner.phase)
    (hunready : ∀ p ∈ (f w.owner).keys, (f w.owner).mark p ≠ .ready)
    (hcovered : ∀ p ∈ (f w.owner).keys, (f w.owner).mark p = .held → Covered w p) :
    Precommit (w.setOwner f) :=
  ⟨hw.log, hphase.trans hw.phase, hw.loaded, hw.sound, hw.idle, hunready, hcovered⟩

/-- The intent is owned before the request is sent. -/
theorem holding_begin (hw : Holding pids w) {p : Pid} (hp : p ∉ pids) :
    let w' := w.setOwner fun o =>
      { o with keys := o.keys.insert p, mark := update o.mark p .restart }
    Precommit w' ∧ Suspending p pids w'.owner := by
  obtain ⟨hpre, hsus, hpids⟩ := hw
  have hmark : ∀ q, q ≠ p → update w.owner.mark p .restart q = w.owner.mark q :=
    fun q hq => update_of_ne hq _ _
  constructor
  · refine precommit_setOwner hpre _ rfl (fun q hq => ?_) fun q hq hheld => ?_
    · by_cases hqp : q = p
      · subst hqp
        simp
      · show update _ _ _ q ≠ _
        rw [hmark q hqp]
        exact hpre.unready q ((mem_insert_iff.mp hq).resolve_left hqp)
    · have hqp : q ≠ p := by
        rintro rfl
        simp at hheld
      change update w.owner.mark p .restart q = _ at hheld
      rw [hmark q hqp] at hheld
      exact hpre.covered q ((mem_insert_iff.mp hq).resolve_left hqp) hheld
  · refine ⟨hsus.running, nodup_cons.mpr ⟨hp, hsus.nodup⟩, hpids, fun q => ?_, ?_,
      fun q hq => ?_⟩
    · show q ∈ w.owner.keys.insert p ↔ _
      rw [mem_insert_iff, hsus.keys q, mem_cons]
    · exact update_self _ _ _
    · have hqp : q ≠ p := fun h => hp (h ▸ hq)
      exact (hmark q hqp).trans (hsus.held q ((hsus.keys q).mpr hq))

variable (p : Pid)

theorem robust_suspending (pids : List Pid) :
    Robust fun w => Precommit w ∧ Suspending p pids w.owner :=
  robust_precommit.and (robust_ownerFact (Suspending p pids))

/-- A request to suspend: whether or not it is heard of, the actor may be suspended. -/
theorem spec_sysSuspend (pids : List Pid) :
    Spec (fun w => Precommit w ∧ Suspending p pids w.owner) (sysSuspend p)
      fun _ w => Precommit w ∧ Suspending p pids w.owner := by
  refine spec_step (robust_suspending p pids).move fun o w hw => ?_
  obtain ⟨hpre, hsus⟩ := hw
  have hset : Precommit (w.setActor p fun a => { a with suspended := true }) := by
    have hne : ∀ q, q ≠ p → (w.setActor p fun a => { a with suspended := true }).actors q
        = w.actors q := fun q hq => update_of_ne hq _ _
    refine ⟨hpre.log, hpre.phase, hpre.loaded, fun q => ?_, hpre.idle, hpre.unready,
      fun q hq hmark => ?_⟩
    · by_cases hq : q = p
      · subst hq
        simpa [World.setActor] using hpre.sound q
      · rw [hne q hq]
        exact hpre.sound q
    · have hqp : q ≠ p := by
        rintro rfl
        exact Mark.noConfusion (hsus.mark.symm.trans hmark)
      have hcovered := hpre.covered q hq hmark
      unfold Covered at hcovered ⊢
      rw [hne q hqp]
      exact hcovered
  split
  · cases o with
    | ok | late => exact ⟨hset, hsus⟩
    | failed => exact ⟨hpre, hsus⟩
  · exact ⟨hpre, hsus⟩

/-- Once the gate knows of it, the gate resumes it. -/
theorem spec_startupSuspended (pids : List Pid) :
    Spec (fun w => Precommit w ∧ Suspending p pids w.owner) (startupSuspended p)
      fun _ w => (Precommit w ∧ Suspending p pids w.owner) ∧ Covered w p := by
  refine spec_step (robust_suspending p pids).move fun _ w hw => ?_
  obtain ⟨hpre, hsus⟩ := hw
  have hheld : Precommit (w.setGate fun g => { g with held := p :: g.held }) :=
    ⟨hpre.log, hpre.phase, hpre.loaded, hpre.sound, hpre.idle, hpre.unready, fun q hq hmark =>
      (hpre.covered q hq hmark).imp id fun h => h.imp id fun h =>
        h.imp (mem_cons_of_mem p) id⟩
  dsimp only
  split
  · exact ⟨⟨hheld, hsus⟩, .inr (.inr (.inl mem_cons_self))⟩
  · next hphase =>
    refine ⟨⟨⟨hpre.log, hpre.phase, hpre.loaded, hpre.sound, fun h => absurd h hphase,
      hpre.unready, fun q hq hmark => ?_⟩, hsus⟩, ?_⟩
    · exact (hheld.covered q hq hmark).imp id fun h => h.imp id fun h =>
        .inr (mem_append.mpr h)
    · exact .inr (.inr (.inr (mem_append_left _ mem_cons_self)))

theorem spec_confirmSuspended (pids : List Pid) :
    Spec (fun w => (Precommit w ∧ Suspending p pids w.owner) ∧ Covered w p) (confirmSuspended p)
      fun _ w => Holding (p :: pids) w := by
  refine Spec.modify fun w hw => ?_
  obtain ⟨⟨hpre, hsus⟩, hcovered⟩ := hw
  have hmark : ∀ q ∈ w.owner.keys, update w.owner.mark p .held q = .held := by
    intro q hq
    rcases mem_cons.mp ((hsus.keys q).mp hq) with rfl | hq
    · exact update_self _ _ _
    · have hqp : q ≠ p := fun h => (nodup_cons.mp hsus.nodup).1 (h ▸ hq)
      exact (update_of_ne hqp _ _).trans (hsus.held q hq)
  refine ⟨precommit_setOwner hpre _ rfl (fun q hq hready => ?_) fun q hq _ => ?_,
    ⟨hsus.running, hsus.nodup, hsus.keys, hmark⟩, congrArg (p :: ·) hsus.suspended⟩
  · exact Mark.noConfusion ((hmark q hq).symm.trans hready)
  · by_cases hqp : q = p
    · exact hqp ▸ hcovered
    · have hold : q ∈ pids := (mem_cons.mp ((hsus.keys q).mp hq)).resolve_left hqp
      exact hpre.covered q hq (hsus.held q hold)

/-- What is left of a request to suspend: the recovery is before the grant, and when all went well
every actor is held. -/
def SuspendLeft (r : SuspendResult) (w : World) : Prop :=
  (Precommit w ∧ w.owner.finished = false) ∧
    (r = .ok → ∃ pids, Holding pids w)

theorem Holding.left (hw : Holding pids w) (r : SuspendResult) : SuspendLeft r w :=
  ⟨⟨hw.1, hw.2.1.running⟩, fun _ => ⟨pids, hw⟩⟩

theorem robust_holding (pids : List Pid) : Robust (Holding pids) :=
  robust_precommit.and (robust_ownerFact fun o => Suspended pids o ∧ o.suspended = pids)

theorem spec_suspendRecoveryActors {l : List Pid} (hl : l.Nodup) (hdisjoint : ∀ p ∈ l, p ∉ pids) :
    Spec (Holding pids) (suspendRecoveryActors l) SuspendLeft := by
  induction l generalizing pids with
  | nil => exact Spec.pure fun _ hw => hw.left _
  | cons p l ih =>
    obtain ⟨hpl, hl⟩ := nodup_cons.mp hl
    have hp : p ∉ pids := hdisjoint p mem_cons_self
    refine (spec_look (robust_holding pids).move _).bind fun worker => ?_
    refine Spec.ite (fun _ => ?_) fun _ => Spec.pure fun _ hw => hw.left _
    refine (spec_isAlive (robust_holding pids).move p).bind fun alive => ?_
    refine Spec.ite (fun _ => ?_) fun _ => Spec.pure fun _ hw => hw.1.left _
    refine Spec.bind (Q := fun _ w => Precommit w ∧ Suspending p pids w.owner)
      (Spec.modify fun w hw => holding_begin hw.1 hp) fun _ => ?_
    refine (spec_sysSuspend p pids).bind fun suspended => ?_
    refine Spec.ite (fun _ => ?_) fun _ => ?_
    · refine (spec_startupSuspended p pids).bind fun answer => ?_
      refine (spec_confirmSuspended p pids).bind fun _ => ?_
      refine Spec.ite (fun _ => ?_) fun _ => Spec.pure fun _ hw => hw.left _
      refine ih hl fun q hq hqp => ?_
      rcases mem_cons.mp hqp with rfl | hqp
      · exact hpl hq
      · exact hdisjoint q (mem_cons_of_mem p hq) hqp
    · -- a suspension that timed out is killed, and never resumed
      refine (spec_stopRecoveryActors (robust_suspending p pids) [p] _).bind fun stopped => ?_
      refine Spec.bind (Q := fun _ w => Precommit w ∧ w.owner.finished = false)
        (Spec.modify fun w hw => ?_) fun _ => Spec.pure fun _ hw => ⟨hw, fun h => ?_⟩
      · exact ⟨precommit_setOwner hw.1.1 _ rfl hw.1.1.unready hw.1.1.covered, hw.1.2.running⟩
      · exact SuspendResult.noConfusion h

/-! ## Requests -/

/-- What a request leaves: a closed recovery when nobody is answered, or what the answer tells. -/
def Answered (Q : Reply → World → Prop) : Option Reply → World → Prop
  | none => Closed
  | some reply => Q reply

/-- A recovery as it begins. -/
structure Begun (w : World) : Prop where
  precommit : Precommit w
  running : w.owner.finished = false
  keys : w.owner.keys = []
  suspended : w.owner.suspended = []
  candidates : w.owner.candidates.Nodup

theorem robust_begun : Robust Begun := by
  have h := robust_precommit.and (robust_ownerFact fun o => o.finished = false ∧ o.keys = [] ∧
    o.suspended = [] ∧ o.candidates.Nodup)
  refine ⟨fun w e hw => ?_, fun w p hw => ?_, fun w p ha hw => ?_⟩
  · obtain ⟨h₁, h₂, h₃, h₄, h₅⟩ := h.move w e ⟨hw.1, hw.2, hw.3, hw.4, hw.5⟩
    exact ⟨h₁, h₂, h₃, h₄, h₅⟩
  · obtain ⟨h₁, h₂, h₃, h₄, h₅⟩ := h.kill w p ⟨hw.1, hw.2, hw.3, hw.4, hw.5⟩
    exact ⟨h₁, h₂, h₃, h₄, h₅⟩
  · obtain ⟨h₁, h₂, h₃, h₄, h₅⟩ := h.resume w p ha ⟨hw.1, hw.2, hw.3, hw.4, hw.5⟩
    exact ⟨h₁, h₂, h₃, h₄, h₅⟩

/-- After the answer to a request to suspend. -/
def SuspendAnswered (reply : Reply) (w : World) : Prop :=
  (Precommit w ∧ w.owner.finished = false) ∧
    ∀ pids, reply = .suspended pids → Suspended pids w.owner

theorem spec_handleSuspend : Spec Begun (handle .suspend) (Answered SuspendAnswered) := by
  refine Spec.bind (Q := fun _ w => Holding [] w ∧ w.owner.candidates.Nodup) ?_ fun _ => ?_
  · refine spec_step robust_begun.move fun _ w hw => ?_
    obtain ⟨hpre, hrunning, hkeys, hsuspended, hnodup⟩ := hw
    refine ⟨⟨⟨hpre.log, hpre.phase, hpre.loaded, hpre.sound, hpre.idle, hpre.unready,
      hpre.covered⟩, ⟨hrunning, nodup_nil, fun p => ?_, fun p hp => ?_⟩, hsuspended⟩, hnodup⟩
    · show p ∈ w.owner.keys ↔ p ∈ []
      rw [hkeys]
    · change p ∈ w.owner.keys at hp
      rw [hkeys] at hp
      cases hp
  · refine Spec.bind (Q := fun o w => o.candidates.Nodup ∧ Holding [] w)
      (Spec.gets fun w hw => ⟨hw.2, hw.1⟩) fun o => Spec.assume fun hnodup => ?_
    refine (spec_suspendRecoveryActors hnodup fun _ _ => not_mem_nil).bind fun r => ?_
    cases r with
    | ok =>
      refine Spec.gets fun w hw => ⟨hw.1, fun pids h => ?_⟩
      obtain ⟨pids', hholding⟩ := hw.2 rfl
      obtain ⟨-, hsus, hpids⟩ := hholding
      obtain rfl := Reply.suspended.inj h
      rw [hpids]
      exact ⟨hsus.running, nodup_reverse.mpr hsus.nodup, fun p =>
        (hsus.keys p).trans mem_reverse.symm, hsus.held⟩
    | failed | cancelled => exact Spec.pure fun w hw => ⟨hw.1, fun _ h => Reply.noConfusion h⟩
    | abandoned =>
      refine (spec_recoverAndStop.pre fun w hw => .inl hw.1.1).bind fun _ => ?_
      exact Spec.pure fun _ hw => hw

variable {P : World → Prop}

theorem spec_allAlive (hP : Stable P) (l : List Pid) : Spec P (allAlive l) fun _ w => P w := by
  induction l with
  | nil => exact Spec.pure fun _ hw => hw
  | cons p l ih =>
    refine (spec_look hP _).bind fun alive => ?_
    exact Spec.ite (fun _ => ih) fun _ => Spec.pure fun _ hw => hw

/-- Before the grant, with these actors held. -/
def Ready (pids : List Pid) (w : World) : Prop := Precommit w ∧ Suspended pids w.owner

theorem robust_ready (pids : List Pid) : Robust (Ready pids) :=
  robust_precommit.and (robust_ownerFact (Suspended pids))

theorem Ready.open (hw : Ready pids w) : Open w :=
  ⟨hw.2.running, .inl hw.1⟩

/-- The load is granted, and no code is loaded yet. -/
structure LoadGranted (pids : List Pid) (w : World) : Prop where
  granted : Granted w
  suspended : Suspended pids w.owner
  loaded : w.loaded = false

def CommitAnswered (pids : List Pid) (reply : Reply) (w : World) : Prop :=
  Open w ∧ (reply = .ok → LoadGranted pids w)

/-- The gate grants only what no initializer has cancelled, and then resumes nothing. -/
theorem spec_startupCommit (pids : List Pid) : Spec (Ready pids) startupCommit fun answer w =>
    Ready pids w ∧ (answer = .ok → Granting w) := by
  refine spec_step (robust_ready pids).move fun _ w hw => ?_
  split
  · next hphase =>
    obtain ⟨hpre, hsus⟩ := hw
    exact ⟨⟨⟨hpre.log, hpre.phase, hpre.loaded, hpre.sound, fun h => StartupPhase.noConfusion h,
      hpre.unready, hpre.covered⟩, hsus⟩, fun _ => ⟨rfl, hpre.idle hphase⟩⟩
  · exact ⟨hw, fun h => GateAnswer.noConfusion h⟩

theorem spec_handleCommit (pids : List Pid) :
    Spec (Ready pids) (handle .commit) (Answered (CommitAnswered pids)) := by
  have hready := (robust_ready pids).move
  have hkept : ∀ reply : Reply, reply ≠ .ok → ∀ w, Ready pids w →
      Answered (CommitAnswered pids) (some reply) w := fun reply hne w hw =>
    ⟨hw.open, fun h => absurd h hne⟩
  refine (spec_attempt hready).bind fun paused => ?_
  refine Spec.ite (fun _ => ?_) fun _ => Spec.pure (hkept _ Reply.noConfusion)
  refine (spec_look hready _).bind fun answer => ?_
  refine (spec_look hready _).bind fun worker => ?_
  refine Spec.bind (Q := fun _ => Ready pids) (Spec.gets fun _ hw => hw) fun o => ?_
  refine (spec_allAlive hready o.keys).bind fun alive => ?_
  refine Spec.ite (fun _ => ?_) fun _ => ?_
  · refine Spec.ite (fun _ => Spec.pure (hkept _ Reply.noConfusion)) fun _ => ?_
    refine Spec.ite (fun _ => ?_) fun _ => Spec.pure (hkept _ Reply.noConfusion)
    refine (spec_startupCommit pids).bind fun granted => ?_
    cases granted with
    | ok =>
      refine Spec.bind (Q := fun _ => LoadGranted pids) (Spec.modify fun w hw => ?_) fun _ =>
        Spec.pure fun w hw => ⟨⟨hw.suspended.running, .inr (.inl hw.granted)⟩, fun _ => hw⟩
      obtain ⟨⟨hpre, hsus⟩, hgranting⟩ := hw
      refine ⟨⟨hpre.log, rfl, ⟨(hgranting rfl).phase, (hgranting rfl).resuming⟩, hpre.sound,
        fun p hp => ?_⟩, ?_, hpre.loaded⟩
      · exact ⟨hsus.held p hp, hpre.covered p hp (hsus.held p hp)⟩
      · exact ⟨hsus.running, hsus.nodup, hsus.keys, hsus.held⟩
    | _ => exact Spec.pure fun w hw => hkept _ Reply.noConfusion w hw.1
  · refine (spec_recoverAndStop.pre fun w hw => .inl hw.1).bind fun _ => ?_
    exact Spec.pure fun _ hw => hw

/-- An actor is gone, or in a state of one shape. -/
def Intact (w : World) (p : Pid) : Prop :=
  (w.actors p).alive = false ∨ (w.actors p).shape = .sound

theorem robust_intact (q : Pid) : Robust fun w => Intact w q where
  move := stable_of_moved fun _ _ h hq => hq.imp (h.actor q).1 (h.actor q).2.2.trans
  kill w p hq := hq.imp (w.alive_kill p q) (w.shape_kill p q).trans
  resume w p _ hq := hq.imp (w.alive_resume p q).trans (w.shape_resume p q).trans

/-- After the load, with none of the actors ready yet. -/
structure Migrating (pids : List Pid) (w : World) : Prop where
  loaded : Loaded w
  suspended : Suspended pids w.owner

theorem robust_loadGranted (pids : List Pid) : Robust (LoadGranted pids) := by
  have h := (robust_granted.and (robust_ownerFact (Suspended pids))).and
    (robust_owner fun _ loaded _ _ => loaded = false)
  exact ⟨fun w e hw =>
      have h := h.move w e ⟨⟨hw.granted, hw.suspended⟩, hw.loaded⟩
      ⟨h.1.1, h.1.2, h.2⟩,
    fun w p hw =>
      have h := h.kill w p ⟨⟨hw.granted, hw.suspended⟩, hw.loaded⟩
      ⟨h.1.1, h.1.2, h.2⟩,
    fun w p ha hw =>
      have h := h.resume w p ha ⟨⟨hw.granted, hw.suspended⟩, hw.loaded⟩
      ⟨h.1.1, h.1.2, h.2⟩⟩

/-- Granted, whether or not the code is loaded by now. -/
def Loading (pids : List Pid) (w : World) : Prop := Granted w ∧ Suspended pids w.owner

theorem robust_loading (pids : List Pid) : Robust (Loading pids) :=
  robust_granted.and (robust_ownerFact (Suspended pids))

theorem Loading.open (hw : Loading pids w) : Open w :=
  ⟨hw.2.running, .inr (.inl hw.1)⟩

theorem spec_handleLoaded (pids : List Pid) : Spec (Loading pids) (handle .loaded)
    (Answered fun _ w => Migrating pids w ∧ ∀ p, Intact w p) := by
  refine (Spec.require fun w hw => decide_eq_true hw.1.phase).bind fun _ => ?_
  refine Spec.bind (Q := fun _ w => Migrating pids w ∧ ∀ p, Intact w p) (Spec.modify fun w hw => ?_)
    fun _ => Spec.pure fun _ hw => hw
  obtain ⟨hgranted, hsus⟩ := hw
  refine ⟨⟨⟨hgranted.log, rfl, ⟨hgranted.gate.phase, hgranted.gate.resuming⟩, fun p hp hmark => ?_⟩,
    ⟨hsus.running, hsus.nodup, hsus.keys, hsus.held⟩⟩, fun p => .inr (hgranted.sound p)⟩
  exact Mark.noConfusion ((hsus.held p hp).symm.trans hmark)

/-- After the load, with these actors still to refresh and the others ready or gone. Those of
`sound` are in a state of one shape, or gone. -/
structure Refreshing (rest sound : List Pid) (w : World) : Prop where
  loaded : Loaded w
  running : w.owner.finished = false
  nodup : rest.Nodup
  unready : ∀ p ∈ rest, p ∈ w.owner.keys ∧ w.owner.mark p ≠ .ready
  done : ∀ p ∈ w.owner.keys, p ∉ rest → (w.actors p).alive = false ∨ w.owner.mark p = .ready
  intact : ∀ p ∈ sound, Intact w p

theorem robust_done (rest : List Pid) : Robust fun w => ∀ p ∈ w.owner.keys, p ∉ rest →
    (w.actors p).alive = false ∨ w.owner.mark p = .ready where
  move := stable_of_moved fun w w' h hw => by
    rw [h.owner.1]
    exact fun p hp hrest => (hw p hp hrest).imp (h.actor p).1 id
  kill w p hw q hq hrest := (hw q hq hrest).imp (w.alive_kill p q) id
  resume w p _ hw q hq hrest := (hw q hq hrest).imp (w.alive_resume p q).trans id

theorem robust_refreshing (rest sound : List Pid) : Robust (Refreshing rest sound) := by
  have h := ((robust_loaded.and (robust_ownerFact fun o => o.finished = false ∧ rest.Nodup ∧
    ∀ p ∈ rest, p ∈ o.keys ∧ o.mark p ≠ .ready)).and (robust_done rest)).and
    (robust_forall fun p => robust_imp (c := p ∈ sound) (robust_intact p))
  have hsplit : ∀ w, Refreshing rest sound w ↔ (((Loaded w ∧ w.owner.finished = false ∧
      rest.Nodup ∧ ∀ p ∈ rest, p ∈ w.owner.keys ∧ w.owner.mark p ≠ .ready) ∧
      ∀ p ∈ w.owner.keys, p ∉ rest → (w.actors p).alive = false ∨ w.owner.mark p = .ready) ∧
      ∀ p ∈ sound, Intact w p) := fun w =>
    ⟨fun ⟨h₁, h₂, h₃, h₄, h₅, h₆⟩ => ⟨⟨⟨h₁, h₂, h₃, h₄⟩, h₅⟩, h₆⟩,
      fun ⟨⟨⟨h₁, h₂, h₃, h₄⟩, h₅⟩, h₆⟩ => ⟨h₁, h₂, h₃, h₄, h₅, h₆⟩⟩
  exact ⟨fun w e hw => (hsplit _).mpr (h.move w e ((hsplit w).mp hw)),
    fun w p hw => (hsplit _).mpr (h.kill w p ((hsplit w).mp hw)),
    fun w p ha hw => (hsplit _).mpr (h.resume w p ha ((hsplit w).mp hw))⟩

theorem Refreshing.open {rest sound : List Pid} (hw : Refreshing rest sound w) : Open w :=
  ⟨hw.running, .inr (.inr hw.loaded)⟩

/-- An actor becomes ready in a state of one shape, or gone. -/
theorem spec_handleReady (rest : List Pid) :
    Spec (Refreshing (p :: rest) (p :: rest)) (handle (.ready p))
      (Answered fun _ => Refreshing rest rest) := by
  refine (Spec.require fun w hw => decide_eq_true hw.loaded.phase).bind fun _ => ?_
  refine (Spec.require fun w hw => decide_eq_true (hw.unready p mem_cons_self).1).bind
    fun _ => ?_
  refine Spec.bind (Q := fun _ => Refreshing rest rest) (Spec.modify fun w hw => ?_)
    fun _ => Spec.pure fun _ hw => hw
  obtain ⟨hloaded, hrunning, hnodup, hunready, hdone, hintact⟩ := hw
  obtain ⟨hp, hnodup⟩ := nodup_cons.mp hnodup
  have hmark : ∀ q, q ≠ p → update w.owner.mark p .ready q = w.owner.mark q :=
    fun q hq => update_of_ne hq _ _
  refine ⟨⟨hloaded.log, hloaded.phase, ⟨hloaded.gate.phase, hloaded.gate.resuming⟩,
    fun q hq hready => ?_⟩, hrunning, hnodup, fun q hq => ?_, fun q hq hrest => ?_, fun q hq =>
      hintact q (mem_cons_of_mem p hq)⟩
  · by_cases hqp : q = p
    · exact hqp ▸ hintact p mem_cons_self
    · exact hloaded.ready q hq ((hmark q hqp).symm.trans hready)
  · obtain ⟨hkey, hne⟩ := hunready q (mem_cons_of_mem p hq)
    refine ⟨hkey, fun hready => hne ?_⟩
    exact (hmark q fun h => hp (h ▸ hq)).symm.trans hready
  · by_cases hqp : q = p
    · subst hqp
      exact .inr (update_self _ _ _)
    · refine (hdone q hq fun h => ?_).imp id fun h => (hmark q hqp).trans h
      exact hrest ((mem_cons.mp h).resolve_left hqp)

theorem spec_readyOrGone (hP : Robust P) (l : List Pid)
    (hl : ∀ w, P w → ∀ p ∈ l, (w.actors p).alive = false ∨ w.owner.mark p = .ready) :
    Spec P (readyOrGone l) fun all w => all = true ∧ P w := by
  induction l with
  | nil => exact Spec.pure fun _ hw => ⟨rfl, hw⟩
  | cons p l ih =>
    refine Spec.bind (Q := fun alive w => P w ∧ (alive = true → w.owner.mark p = .ready)) ?_
      fun alive => ?_
    · refine spec_step hP.move fun _ w hw => ⟨hw, fun halive => ?_⟩
      refine (hl w hw p mem_cons_self).resolve_left fun hdead => ?_
      exact Bool.noConfusion (hdead.symm.trans halive)
    · refine Spec.bind (Q := fun o w => (alive = true → o.mark p = .ready) ∧ P w)
        (Spec.gets fun w hw => ⟨hw.2, hw.1⟩) fun o => Spec.assume fun hready => ?_
      refine Spec.ite (fun _ => ih fun w hw q hq => hl w hw q (mem_cons_of_mem p hq))
        fun hnot => absurd ?_ hnot
      cases alive with
      | false => exact .inl rfl
      | true => exact .inr (hready rfl)

/-- With every actor ready or gone, the owner's assertions hold, and the reload is completed. -/
theorem spec_handleComplete :
    Spec (Refreshing [] []) (handle .complete) (Answered fun _ w => Closed w) := by
  refine (Spec.require fun w hw => decide_eq_true hw.loaded.phase).bind fun _ => ?_
  refine Spec.bind (Q := fun o w => Refreshing [] [] w ∧ w.owner = o) (Spec.gets fun w hw => ⟨hw, rfl⟩)
    fun o => ?_
  have hrobust : Robust fun w => Refreshing [] [] w ∧ w.owner = o :=
    (robust_refreshing [] []).and (robust_ownerFact fun o' => o' = o)
  refine (spec_readyOrGone hrobust o.keys fun w hw p hp => ?_).bind fun all =>
    Spec.assume fun hall => ?_
  · obtain ⟨hw, rfl⟩ := hw
    exact hw.done p hp not_mem_nil
  · refine (Spec.require fun w _ => hall).bind fun _ => ?_
    refine (spec_completeRecovery.pre fun w hw => hw.1.loaded).bind fun r => ?_
    refine (spec_finishOwner.pre fun w hw => hw.ended).bind fun _ => ?_
    exact Spec.pure fun _ hw => hw

/-- A batch that was refused leaves the old code, and so an abort may resume. -/
theorem spec_handleRejected (pids : List Pid) :
    Spec (LoadGranted pids) (handle .rejected) (Answered fun _ w => Closed w) := by
  refine Spec.bind (Q := fun _ => Precommit) (Spec.modify fun w hw => ?_) fun _ => ?_
  · obtain ⟨hgranted, hsus, hloaded⟩ := hw
    refine ⟨hgranted.log, rfl, hloaded, hgranted.sound, fun h => ?_, fun p hp hready => ?_,
      fun p hp _ => (hgranted.held p hp).2⟩
    · exact absurd h hgranted.gate.quiet
    · exact Mark.noConfusion ((hsus.held p hp).symm.trans hready)
  · refine spec_abortPrecommit.bind fun r => ?_
    exact spec_finishOwner.bind fun _ => Spec.pure fun _ hw => hw

theorem spec_handleAbort : Spec Open (handle .abort) (Answered fun _ w => Closed w) := by
  refine (spec_abortRecovery.pre fun w hw => hw.phase).bind fun r => ?_
  exact spec_finishOwner.bind fun _ => Spec.pure fun _ hw => hw

/-! ## The worker -/

/-- The owner still runs, or has come to its end. -/
def Accounted (w : World) : Prop := Open w ∨ Closed w

/-- What a call or a step of the worker leaves, when the worker is there to see it. -/
def Seen {α : Type} (Q : α → World → Prop) : Option α → World → Prop
  | none => Accounted
  | some a => Q a

variable {r : Request}

/-- A call: without a worker the recovery is still one that the owner can end. -/
theorem spec_recoveryCall {Q : Reply → World → Prop} (hP : Stable P) (hopen : ∀ w, P w → Open w)
    (hr : Spec P (handle r) (Answered Q)) (hQ : ∀ reply, Stable (Q reply))
    (hQopen : ∀ reply w, Q reply w → Accounted w) : Spec P (recoveryCall r) (Seen Q) := by
  refine (spec_look hP _).bind fun worker => ?_
  refine Spec.ite (fun _ => ?_) fun _ => Spec.pure fun w hw => .inl (hopen w hw)
  refine hr.bind fun reply => ?_
  cases reply with
  | none => exact Spec.pure fun w hw => .inr hw
  | some reply =>
    refine (spec_look (hQ reply) _).bind fun worker => ?_
    exact Spec.ite (fun _ => Spec.pure fun _ hw => hw)
      fun _ => Spec.pure fun w hw => hQopen reply w hw

theorem spec_workerStep {α : Type} {Q : α → World → Prop} {f : Outcome → World → α × World}
    (hP : Stable P) (hopen : ∀ w, P w → Open w) (h : ∀ o w, P w → Q (f o w).1 (f o w).2) :
    Spec P (workerStep f) (Seen Q) := by
  refine spec_step hP fun o w hw => ?_
  split
  · exact h o w hw
  · exact .inl (hopen w hw)

section Migration

variable {P : World → Prop} {p : Pid}

/-- One attempt changes the shape of one actor, and on success to a sound one. -/
theorem spec_tryChangeCode (hP : Robust P) (hopen : ∀ w, P w → Open w)
    (hshape : ∀ w s, P w → P (w.setActor p fun a => { a with shape := s })) :
    Spec P (tryChangeCode p) (Seen fun ok w => P w ∧ (ok = true → Intact w p)) := by
  refine spec_workerStep hP.move hopen fun o w hw => ?_
  split
  · cases o with
    | ok => exact ⟨hshape w .sound hw, fun _ => .inr (by simp [World.setActor])⟩
    | late | failed => exact ⟨hshape w .half hw, fun h => Bool.noConfusion h⟩
  · exact ⟨hw, fun h => Bool.noConfusion h⟩

/-- An actor is migrated or killed: two attempts, and never a third. -/
theorem spec_migrateActor (hP : Robust P) (hopen : ∀ w, P w → Open w)
    (hshape : ∀ w s, P w → P (w.setActor p fun a => { a with shape := s })) :
    Spec P (migrateActor p) (Seen fun ok w => P w ∧
      (ok = true → Intact w p) ∧ (ok = false → (w.actors p).alive = false)) := by
  have htry := spec_tryChangeCode hP hopen hshape
  have hdone : ∀ w, P w ∧ (true = true → Intact w p) → P w ∧ (true = true → Intact w p) ∧
      (true = false → (w.actors p).alive = false) :=
    fun w hw => ⟨hw.1, hw.2, fun h => Bool.noConfusion h⟩
  refine htry.bind fun first => ?_
  match first with
  | none => exact Spec.pure fun _ hw => hw
  | some true => exact Spec.pure hdone
  | some false =>
    have hlook := spec_workerStep hP.move hopen (f := fun _ w => ((w.actors p).alive, w))
      (Q := fun alive w => P w ∧ (alive = false → (w.actors p).alive = false))
      fun _ w hw => ⟨hw, id⟩
    refine (hlook.pre fun w hw => hw.1).bind fun alive => ?_
    match alive with
    | none => exact Spec.pure fun _ hw => hw
    | some false =>
      exact Spec.pure fun w hw => ⟨hw.1, fun h => Bool.noConfusion h, fun _ => hw.2 rfl⟩
    | some true =>
      refine (htry.pre fun w hw => hw.1).bind fun second => ?_
      match second with
      | none => exact Spec.pure fun _ hw => hw
      | some true => exact Spec.pure hdone
      | some false =>
        have hkill := spec_workerStep hP.move hopen (f := fun _ w => ((), w.kill p))
          (Q := fun _ w => P w ∧ (w.actors p).alive = false)
          fun _ w hw => ⟨hP.kill w p hw, w.alive_kill_self p⟩
        refine (hkill.pre fun w hw => hw.1).bind fun killed => ?_
        match killed with
        | none => exact Spec.pure fun _ hw => hw
        | some () =>
          exact Spec.pure fun w hw => ⟨hw.1, fun h => Bool.noConfusion h, fun _ => hw.2⟩

end Migration

/-- While the actors migrate, every one of them but `p` is in a state of one shape. -/
def MigratingBut (pids : List Pid) (p : Pid) (w : World) : Prop :=
  Migrating pids w ∧ ∀ q, q ≠ p → Intact w q

theorem robust_migrating (pids : List Pid) : Robust (Migrating pids) := by
  have h := robust_loaded.and (robust_ownerFact (Suspended pids))
  exact ⟨fun w e hw => have h := h.move w e ⟨hw.loaded, hw.suspended⟩; ⟨h.1, h.2⟩,
    fun w p hw => have h := h.kill w p ⟨hw.loaded, hw.suspended⟩; ⟨h.1, h.2⟩,
    fun w p ha hw => have h := h.resume w p ha ⟨hw.loaded, hw.suspended⟩; ⟨h.1, h.2⟩⟩

theorem Migrating.open (hw : Migrating pids w) : Open w :=
  ⟨hw.suspended.running, .inr (.inr hw.loaded)⟩

/-- The shape of an actor that is not ready is free to change. -/
theorem loaded_setShape (hw : Loaded w) {p : Pid} (hp : p ∈ w.owner.keys → w.owner.mark p ≠ .ready)
    (s : Shape) : Loaded (w.setActor p fun a => { a with shape := s }) := by
  refine ⟨hw.log, hw.phase, ⟨hw.gate.phase, hw.gate.resuming⟩, fun q hq hready => ?_⟩
  have hqp : q ≠ p := by
    rintro rfl
    exact hp hq hready
  have hactor : (w.setActor p fun a => { a with shape := s }).actors q = w.actors q :=
    update_of_ne hqp _ _
  rw [hactor]
  exact hw.ready q hq hready

theorem alive_setShape {p q : Pid} {s : Shape} (h : (w.actors q).alive = false) :
    ((w.setActor p fun a => { a with shape := s }).actors q).alive = false := by
  by_cases hq : q = p
  · subst hq
    simpa [World.setActor] using h
  · simpa [World.setActor, hq] using h

theorem intact_setShape {p q : Pid} (hq : q ≠ p) {s : Shape} (h : Intact w q) :
    Intact (w.setActor p fun a => { a with shape := s }) q := by
  unfold Intact
  have hactor : (w.setActor p fun a => { a with shape := s }).actors q = w.actors q :=
    update_of_ne hq _ _
  rw [hactor]
  exact h

/-- How the worker's body leaves the recovery. -/
def Left : Ending → World → Prop
  | .gone => Accounted
  | .rejected => fun w => ∃ pids, LoadGranted pids w
  | .ready => Refreshing [] []
  | _ => Open

variable (k : Kinds)

theorem spec_migrateActors (pids l : List Pid) :
    Spec (fun w => Migrating pids w ∧ ∀ p, Intact w p) (migrateActors k l) fun ending w =>
      match ending with
      | .ready => Migrating pids w ∧ ∀ p, Intact w p
      | ending => Left ending w := by
  have hall : Robust fun w => Migrating pids w ∧ ∀ p, Intact w p :=
    (robust_migrating pids).and (robust_forall robust_intact)
  induction l with
  | nil => exact Spec.pure fun _ hw => hw
  | cons p l ih =>
    refine Spec.ite (fun _ => ?_) fun _ => ih
    refine (spec_workerStep (Q := fun _ w => Migrating pids w ∧ ∀ p, Intact w p) hall.move
      (fun w hw => hw.1.open) fun _ _ hw => hw).bind fun instruction => ?_
    rcases instruction with _ | _ | _
    · exact Spec.pure fun _ hw => hw
    · exact Spec.pure fun w hw => hw.1.open
    · have hbut : Robust (MigratingBut pids p) :=
        (robust_migrating pids).and (robust_forall fun q => robust_imp (robust_intact q))
      have hmigrate := spec_migrateActor (p := p) hbut (fun w hw => hw.1.open) fun w s hw =>
        ⟨⟨loaded_setShape hw.1.loaded (fun hp hready =>
          Mark.noConfusion ((hw.1.suspended.held p hp).symm.trans hready)) s, hw.1.suspended⟩,
          fun q hq => intact_setShape hq (hw.2 q hq)⟩
      refine (hmigrate.pre fun w hw => ⟨hw.1, fun q _ => hw.2 q⟩).bind fun migrated => ?_
      cases migrated with
      | none => exact Spec.pure fun _ hw => hw
      | some ok =>
        refine ih.pre fun w hw => ⟨hw.1.1, fun q => ?_⟩
        by_cases hq : q = p
        · subst hq
          cases ok with
          | true => exact hw.2.1 rfl
          | false => exact .inl (hw.2.2 rfl)
        · exact hw.1.2 q hq

variable {rest : List Pid}

theorem refreshing_setShape {p : Pid} (hw : Refreshing (p :: rest) rest w) (s : Shape) :
    Refreshing (p :: rest) rest (w.setActor p fun a => { a with shape := s }) := by
  obtain ⟨hloaded, hrunning, hnodup, hunready, hdone, hintact⟩ := hw
  refine ⟨loaded_setShape hloaded (fun _ => (hunready p mem_cons_self).2) s, hrunning,
    hnodup, hunready, fun q hq hrest => ?_, fun q hq => intact_setShape ?_ (hintact q hq)⟩
  · exact (hdone q hq hrest).imp alive_setShape id
  · exact fun h => (nodup_cons.mp hnodup).1 (h ▸ hq)

theorem refreshing_gone {p : Pid} (hw : Refreshing (p :: rest) rest w)
    (hp : (w.actors p).alive = false) : Refreshing rest rest w := by
  refine ⟨hw.loaded, hw.running, (nodup_cons.mp hw.nodup).2, fun q hq =>
    hw.unready q (mem_cons_of_mem p hq), fun q hq hrest => ?_, hw.intact⟩
  by_cases hqp : q = p
  · exact .inl (hqp ▸ hp)
  · exact hw.done q hq fun h => hrest ((mem_cons.mp h).resolve_left hqp)

theorem spec_refreshActorCollections (l : List Pid) :
    Spec (Refreshing l l) (refreshActorCollections k l) Left := by
  induction l with
  | nil => exact Spec.pure fun _ hw => hw
  | cons p l ih =>
    have hcall : Spec (Refreshing (p :: l) (p :: l)) (recoveryCall (.ready p))
        (Seen fun _ => Refreshing l l) :=
      spec_recoveryCall (robust_refreshing _ _).move (fun w hw => hw.open) (spec_handleReady p l)
        (fun _ => (robust_refreshing _ _).move) fun _ w hw => .inl hw.open
    have hlook := spec_workerStep (P := Refreshing (p :: l) (p :: l))
      (Q := fun _ => Refreshing (p :: l) (p :: l))
      (f := fun _ w => ((w.actors p).alive && k.ridge_actor p, w))
      (robust_refreshing _ _).move (fun w hw => hw.open) fun _ _ hw => hw
    refine hlook.bind fun refresh => ?_
    match refresh with
    | none => exact Spec.pure fun _ hw => hw
    | some false =>
      refine hcall.bind fun reply => ?_
      match reply with
      | none => exact Spec.pure fun _ hw => hw
      | some _ => exact ih
    | some true =>
      have hmigrate := spec_migrateActor (p := p) (robust_refreshing (p :: l) l)
        (fun w hw => hw.open) fun w s hw => refreshing_setShape hw s
      have hbegin : ∀ w, Refreshing (p :: l) (p :: l) w → Refreshing (p :: l) l w := fun w hw =>
        { hw with intact := fun q hq => hw.intact q (mem_cons_of_mem p hq) }
      refine (hmigrate.pre hbegin).bind fun refreshed => ?_
      match refreshed with
      | none => exact Spec.pure fun _ hw => hw
      | some false => exact ih.pre fun w hw => refreshing_gone hw.1 (hw.2.2 rfl)
      | some true =>
        refine (hcall.pre fun w hw => ?_).bind fun reply => ?_
        · exact { hw.1 with intact := forall_mem_cons.mpr ⟨hw.2.1 rfl, hw.1.intact⟩ }
        · match reply with
          | none => exact Spec.pure fun _ hw => hw
          | some _ => exact ih

/-! ## The reload -/

theorem spec_loadAndInvalidate (raises : Bool) (pids : List Pid) :
    Spec (LoadGranted pids) (loadAndInvalidate raises) (Seen fun ending w =>
      match ending with
      | .rejected => LoadGranted pids w
      | _ => Loading pids w) := by
  refine spec_workerStep (robust_loadGranted pids).move
    (fun w hw => ⟨hw.suspended.running, .inr (.inl hw.granted)⟩) fun o w hw => ?_
  have hloading : ∀ b, Loading pids { w with loaded := b } := fun b =>
    ⟨⟨hw.granted.log, hw.granted.phase, ⟨hw.granted.gate.phase, hw.granted.gate.resuming⟩,
      hw.granted.sound, hw.granted.held⟩, hw.suspended⟩
  cases o with
  | ok | late => exact hloading true
  | failed =>
    cases raises with
    | true => exact ⟨hw.granted, hw.suspended⟩
    | false => exact hw

theorem Migrating.refreshing (hw : Migrating pids w) (hintact : ∀ p, Intact w p) :
    Refreshing pids pids w := by
  refine ⟨hw.loaded, hw.suspended.running, hw.suspended.nodup, fun p hp => ?_, fun p hp hrest => ?_,
    fun p _ => hintact p⟩
  · have hkey := (hw.suspended.keys p).mpr hp
    exact ⟨hkey, fun hready => Mark.noConfusion ((hw.suspended.held p hkey).symm.trans hready)⟩
  · exact absurd ((hw.suspended.keys p).mp hp) hrest

theorem Begun.open (hw : Begun w) : Open w := ⟨hw.running, .inl hw.precommit⟩

theorem SuspendAnswered.open {reply : Reply} (hw : SuspendAnswered reply w) : Open w :=
  ⟨hw.1.2, .inl hw.1.1⟩

theorem stable_suspendAnswered (reply : Reply) : Stable (SuspendAnswered reply) :=
  ((robust_precommit.and (robust_ownerFact fun o => o.finished = false)).and
    (robust_forall fun pids => robust_imp (c := reply = .suspended pids)
      (robust_ownerFact (Suspended pids)))).move

theorem stable_commitAnswered (pids : List Pid) (reply : Reply) :
    Stable (CommitAnswered pids reply) :=
  stable_open.and (robust_imp (c := reply = .ok) (robust_loadGranted pids)).move

/-- The worker once it has suspended its actors. -/
theorem spec_applyBody (raises : Bool) : Spec Begun (applyBody k raises) Left := by
  have hsuspend : Spec Begun (recoveryCall .suspend) (Seen SuspendAnswered) :=
    spec_recoveryCall robust_begun.move (fun w hw => hw.open) spec_handleSuspend
      stable_suspendAnswered fun reply w hw => .inl hw.open
  refine hsuspend.bind fun reply => ?_
  cases reply with
  | none => exact Spec.pure fun _ hw => hw
  | some reply =>
  cases reply with
  | suspended pids =>
    refine ((spec_workerStep (Q := fun _ => Ready pids) (robust_ready pids).move
      (fun w hw => hw.open) fun _ _ hw => hw).pre fun w hw => ⟨hw.1.1, hw.2 pids rfl⟩).bind
      fun fields => ?_
    rcases fields with _ | _ | _
    · exact Spec.pure fun _ hw => hw
    · exact Spec.pure fun w hw => hw.open
    have hcommit : Spec (Ready pids) (recoveryCall .commit) (Seen (CommitAnswered pids)) :=
      spec_recoveryCall (robust_ready pids).move (fun w hw => hw.open) (spec_handleCommit pids)
        (stable_commitAnswered pids) fun reply w hw => .inl hw.1
    refine hcommit.bind fun granted => ?_
    rcases granted with _ | granted
    · exact Spec.pure fun _ hw => hw
    cases granted with
    | ok =>
      refine ((spec_loadAndInvalidate raises pids).pre fun w hw => hw.2 rfl).bind fun ending => ?_
      rcases ending with _ | ending
      · exact Spec.pure fun _ hw => hw
      cases ending with
      | rejected => exact Spec.pure fun w hw => ⟨pids, hw⟩
      | failed => exact Spec.pure fun w hw => Loading.open hw
      | loaded =>
        have hloaded : Spec (Loading pids) (recoveryCall .loaded)
            (Seen fun _ w => Migrating pids w ∧ ∀ p, Intact w p) :=
          spec_recoveryCall (robust_loading pids).move (fun w hw => hw.open)
            (spec_handleLoaded pids)
            (fun _ => ((robust_migrating pids).and (robust_forall robust_intact)).move)
            fun _ w hw => .inl hw.1.open
        refine hloaded.bind fun confirmed => ?_
        cases confirmed with
        | none => exact Spec.pure fun _ hw => hw
        | some _ =>
          refine (spec_migrateActors k pids pids).bind fun ending => ?_
          cases ending with
          | ready =>
            exact (spec_refreshActorCollections k pids).pre fun w hw => hw.1.refreshing hw.2
          | _ => exact Spec.pure fun _ hw => hw
    | _ => exact Spec.pure fun w hw => hw.1
  | _ => exact Spec.pure fun w hw => hw.open

theorem accounted_seen (reply : Option Reply) (w : World)
    (hw : Seen (fun _ => Closed) reply w) : Accounted w := by
  cases reply with
  | none => exact hw
  | some _ => exact .inr hw

/-- The worker's last request closes the recovery, unless the worker is gone before it. -/
theorem spec_lastRequest {ending : Ending} (hr : ending.request = some r) :
    Spec (Left ending) (recoveryCall r) fun _ w => Accounted w := by
  have hclosed : ∀ _ : Reply, Stable Closed := fun _ => stable_closed
  have hended : ∀ (_ : Reply) w, Closed w → Accounted w := fun _ w hw => .inr hw
  cases ending with
  | gone => cases hr
  | ready =>
    cases hr
    exact (spec_recoveryCall (robust_refreshing [] []).move (fun w hw => hw.open)
      spec_handleComplete hclosed hended).post accounted_seen
  | rejected =>
    cases hr
    refine fun w ts hw => ?_
    obtain ⟨pids, hw⟩ := hw
    exact ((spec_recoveryCall (robust_loadGranted pids).move
      (fun w hw => ⟨hw.suspended.running, .inr (.inl hw.granted)⟩)
      (spec_handleRejected pids) hclosed hended).post accounted_seen) w ts hw
  | failed | startup_rejected =>
    cases hr
    exact (spec_recoveryCall stable_open (fun w hw => hw) spec_handleAbort hclosed
      hended).post accounted_seen

/-- The owner of a reload comes to its end under every script. -/
theorem spec_doApplyOwned (raises : Bool) :
    Spec Begun (doApplyOwned k raises) fun _ w => Closed w := by
  have hend : Spec Accounted
      (do if ← gets fun w : World => w.owner.finished then pure () else recoverAndStop)
      fun _ w => Closed w := by
    refine Spec.bind (Q := fun finished w => Accounted w ∧ finished = w.owner.finished)
      (Spec.gets fun w hw => ⟨hw, rfl⟩) fun finished => Spec.ite (fun h => ?_) fun h => ?_
    · refine Spec.pure fun w hw => hw.1.resolve_left fun hopen => ?_
      exact Bool.noConfusion (hopen.running.symm.trans (hw.2.symm.trans h))
    · refine spec_recoverAndStop.pre fun w hw => ?_
      refine (hw.1.resolve_right fun hclosed => ?_).phase
      exact h (hw.2.trans hclosed.finished)
  refine (spec_applyBody k raises).bind fun ending => ?_
  cases hr : ending.request with
  | none =>
    refine hend.pre fun w hw => ?_
    cases ending with
    | gone => exact hw
    | _ => cases hr
  | some r => exact (spec_lastRequest hr).bind fun _ => hend

/-- `processes()` names a process once. -/
structure Census where
  pids : List Pid
  nodup : pids.Nodup

/-- `start_recovery_owner`: the gate has admitted the reload, and the census is taken. Whatever is
alive runs, suspended or not, in a state of one shape. -/
def begin (alive suspended : Pid → Bool) (candidates : Census) : World where
  actors p := { alive := alive p, suspended := suspended p, shape := .sound }
  worker := true
  active := false
  published := false
  loaded := false
  gate := { writer := true, phase := .preparing, held := [], resuming := [], resumed := 0,
            fenced := false }
  owner := { candidates := candidates.pids, keys := [], mark := fun _ => .restart, suspended := [],
             restarts := [], phase := .precommit, finished := false }
  log := []

theorem begun_begin (alive suspended : Pid → Bool) (candidates : Census) :
    Begun (begin alive suspended candidates) where
  precommit :=
    { log := fun _ he => absurd he not_mem_nil
      phase := rfl
      loaded := rfl
      sound := fun _ => rfl
      idle := fun _ => rfl
      unready := fun _ hp => absurd hp not_mem_nil
      covered := fun _ hp => absurd hp not_mem_nil }
  running := rfl
  keys := rfl
  suspended := rfl
  candidates := candidates.nodup

/-- Under every script the owner ends without failing an assertion. In the end every actor it owns
is gone, or runs in a state of one shape, and every resume, publication and erasure came when it
was allowed. -/
theorem reload_settles_every_actor (k : Kinds) (raises : Bool) (alive suspended : Pid → Bool)
    (candidates : Census) (script : List Turn) :
    ∃ w rest, doApplyOwned k raises (begin alive suspended candidates) script
        = some ((), w, rest) ∧
      w.owner.finished = true ∧ (∀ p ∈ w.owner.keys, Settled w.toNode p) ∧
      ∀ e ∈ w.log, Allowed e.1 e.2 := by
  obtain ⟨_, w, rest, hrun, hclosed⟩ := spec_doApplyOwned k raises _ script
    (begun_begin alive suspended candidates)
  exact ⟨w, rest, hrun, hclosed.finished, hclosed.ended.settled, hclosed.ended.log⟩

/-- An undisturbed reload of one actor resumes it and publishes the version. -/
example :
    let one : Census := ⟨[7], List.nodup_singleton 7⟩
    let kinds : Kinds := ⟨fun _ => true, fun _ => true⟩
    (doApplyOwned kinds false (begin (fun _ => true) (fun _ => false) one) []).map
        (fun r => (r.2.1.log.map Prod.fst, r.2.1.published, r.2.1.active))
      = some ([.resume 7, .publish, .erase], true, false) := by
  rfl

end Ridge.Recovery
