import Ridge.Pool.Handlers

/-!
# ridge_pg — what the pool promises

`PoolSafe` is the pool's promise in one state, `safe_of_careful` that it is kept in every state of
every run whose events are careful.
-/

namespace Ridge

open List

namespace PoolWorld

variable {ι : Type}

/-- The pool's promise. -/
structure PoolSafe (w : PoolWorld ι) : Prop where
  /-- The live connections are at most `max`, -/
  atMostMax : w.live.card ≤ w.max
  /-- and each is idle, busy or being checked, in one of them and there once. -/
  placed : ∀ x ∈ w.live, w.places x = 1
  /-- No connection is lent to two callers. -/
  lentOnce : (w.lent.map Prod.fst).Nodup
  /-- Each checkout is unread, parked, answered or withdrawn, one of them and once, -/
  answeredOnce : ∀ ref ∈ w.asked, w.tally ref = 1
  /-- and what is parked will be answered: its timer is armed or has just fired. -/
  armed : ∀ x ∈ w.waiters, x.ref ∈ w.timers ∨ .waiterTimeout x.ref ∈ w.mail
  /-- While a caller waits, no connection is idle and the pool is at `max`. -/
  waiting : w.waiters ≠ [] → w.idle = [] ∧ w.mons.card = w.max
  /-- With no message in flight, a busy connection is held by a caller that lives. -/
  noLeak : w.mail = [] → ∀ x ∈ w.busy, ∃ c, (x, c) ∈ w.lent ∧ c ∉ w.dead

theorem safe_of_inv {w : PoolWorld ι} (h : Inv [] [] [] 0 w) : PoolSafe w where
  atMostMax := (Finset.card_le_card fun _ hx => live_known h hx).trans h.monsLe
  placed := h.placed
  lentOnce := h.lentOnce
  answeredOnce ref hr := by
    have ht := h.tally ref
    rw [count_eq_one_of_mem h.asked.1 hr] at ht
    exact ht
  armed := h.armed
  waiting := h.waiting
  noLeak hmail x hb := by
    have hm : x ∈ w.mons := by
      by_contra hm
      have h0 := h.known x hm
      exact not_busy_of_places (w := w) (by omega) hb
    have hl : x ∈ w.live := by
      by_contra hl
      have hnotice := h.noticed x hm hl
      rw [hmail] at hnotice
      exact not_mem_nil hnotice
    rcases h.held x hb hl with ⟨c, hc⟩ | hcheckin
    · exact ⟨c, hc, h.lentAlive (x, c) hc hl⟩
    · rw [hmail] at hcheckin
      exact absurd hcheckin not_mem_nil

theorem inv_init (config : PoolConfig) (now : Int) :
    Inv [] [] [] 0 (init config now : PoolWorld ι) where
  monsLe := config.poolSize_pos
  once x := by
    by_cases hx : x = 0
    · rw [hx]
      exact Nat.le_refl 1
    · show [0].count x + 0 + 0 + 0 ≤ 1
      rw [List.count_cons_of_ne (Ne.symm hx)]
      exact Nat.zero_le 1
  known x hx := by
    have hne : x ≠ 0 := fun h0 => hx (h0 ▸ Finset.mem_singleton_self 0)
    show [0].count x + 0 + 0 + 0 = 0
    rw [List.count_cons_of_ne (Ne.symm hne)]
    rfl
  placed x hx := by
    cases Finset.mem_singleton.mp hx
    rfl
  downDead x hx := absurd hx not_mem_nil
  noticed x hx hl := absurd hx hl
  monsLt x hx := by
    cases Finset.mem_singleton.mp hx
    exact Nat.zero_lt_one
  waiting hw := absurd rfl hw
  lentOnce := nodup_nil
  lentLt p hp := absurd hp not_mem_nil
  lentBusy p hp := absurd hp not_mem_nil
  lentAlive p hp := absurd hp not_mem_nil
  held x hx := absurd hx (Finset.notMem_empty x)
  tally r := rfl
  asked := ⟨nodup_nil, fun r hr => absurd hr not_mem_nil⟩
  armed x hx := absurd hx not_mem_nil
  pings r x hp := by
    rcases hp with hp | ⟨b, hb⟩
    · exact absurd hp not_mem_nil
    · exact absurd hb not_mem_nil
  checkingLt p hp := absurd hp not_mem_nil

variable {w : PoolWorld ι}

/-- A caller makes a ref of its own. -/
theorem Inv.ask (h : Inv [] [] [] 0 w) :
    Inv [] [] [w.next] 0 { w with asked := w.next :: w.asked, next := w.next + 1 } := by
  have hfresh : w.next ∉ w.asked := fun hm => Nat.lt_irrefl _ (h.asked.2 _ hm)
  refine { h with
    downDead := fun y hy => (h.downDead y hy).imp id Nat.lt_succ_of_lt
    monsLt := fun y hy => Nat.lt_succ_of_lt (h.monsLt y hy)
    lentLt := fun p hp => Nat.lt_succ_of_lt (h.lentLt p hp)
    tally := fun r => ?_
    asked := ⟨nodup_cons.mpr ⟨hfresh, h.asked.1⟩, fun r hr => ?_⟩
    pings := fun r y hp => (h.pings r y hp).imp Nat.lt_succ_of_lt id
    checkingLt := fun p hp => Nat.lt_succ_of_lt (h.checkingLt p hp) }
  · have hr := h.tally r
    show w.tally r + _ + [w.next].count r = (w.next :: w.asked).count r
    rw [count_cons, count_cons, count_nil]
    rw [count_nil] at hr
    omega
  · rcases mem_cons.mp hr with rfl | hr
    · exact Nat.lt_succ_self _
    · exact Nat.lt_succ_of_lt (h.asked.2 r hr)

theorem mem_mail_self (mail : List (PoolMessage ι)) (m : PoolMessage ι) :
    m ∈ [] ++ (mail ++ [m]) := mem_append_right mail mem_cons_self

theorem mem_mail_of_mem {mail : List (PoolMessage ι)} {n : PoolMessage ι} (hn : n ∈ [] ++ mail)
    (m : PoolMessage ι) : n ∈ [] ++ (mail ++ [m]) :=
  mem_append_left [m] (show n ∈ mail from hn)

/-- A caller gives its connection back. -/
theorem Inv.handBack [DecidableEq ι] (h : Inv [] [] [] 0 w) (x : Worker) (c : ι) :
    Inv [] [] [] 0
      { w with lent := w.lent.erase (x, c), mail := w.mail ++ [.checkin x] } := by
  have hpost : Inv [] [] [] 0 { w with mail := w.mail ++ [.checkin x] } :=
    h.post (fun _ he => nomatch he) fun _ _ _ he => nomatch he
  refine { hpost with
    lentOnce := h.lentOnce.sublist (erase_sublist.map Prod.fst)
    lentLt := fun p hp => h.lentLt p (mem_of_mem_erase hp)
    lentBusy := fun p hp => h.lentBusy p (mem_of_mem_erase hp)
    lentAlive := fun p hp => h.lentAlive p (mem_of_mem_erase hp)
    held := fun y hy hl => ?_ }
  rcases hpost.held y hy hl with ⟨d, hd⟩ | hm
  · by_cases heq : (y, d) = (x, c)
    · cases heq
      exact .inr (mem_mail_self _ _)
    · exact .inl ⟨d, (mem_erase_of_ne heq).mpr hd⟩
  · exact .inr hm

/-- A connection dies: the manager's monitor sends the notice. -/
theorem Inv.dies (h : Inv [] [] [] 0 w) {x : Worker} (hx : x ∈ w.live) :
    Inv [] [] [] 0 { w with live := w.live.erase x, mail := w.mail ++ [.down x] } := by
  have hlt := h.monsLt x (live_known h hx)
  refine { h with
    placed := fun y hy => h.placed y (Finset.mem_of_mem_erase hy)
    downDead := fun y hy => ?_
    noticed := fun y hy hl => ?_
    lentBusy := fun p hp hl => h.lentBusy p hp (Finset.mem_of_mem_erase hl)
    lentAlive := fun p hp hl => h.lentAlive p hp (Finset.mem_of_mem_erase hl)
    held := fun y hy hl => (h.held y hy (Finset.mem_of_mem_erase hl)).imp id fun hm =>
      mem_mail_of_mem hm _
    tally := fun r => ?_
    armed := fun y hy => (h.armed y hy).imp id fun hm => mem_mail_of_mem hm _
    pings := fun r y hp => h.pings r y (hp.imp id fun ⟨b, hb⟩ => ⟨b, ?_⟩) }
  · rcases mem_append.mp (show _ ∈ w.mail ++ [_] from hy) with hy | hy
    · obtain ⟨hdead, hylt⟩ := h.downDead y hy
      exact ⟨fun hm => hdead (Finset.mem_of_mem_erase hm), hylt⟩
    · cases mem_singleton.mp hy
      exact ⟨Finset.notMem_erase x _, hlt⟩
  · by_cases hyx : y = x
    · subst hyx
      exact mem_mail_self _ _
    · refine mem_mail_of_mem (h.noticed y hy fun hm => hl ?_) _
      exact Finset.mem_erase.mpr ⟨hyx, hm⟩
  · have hr := h.tally r
    simp only [PoolWorld.tally, unread_append, count_append] at hr ⊢
    have h0 : (unread [PoolMessage.down (ι := ι) x]).count r = 0 := rfl
    omega
  · rcases mem_append.mp (show _ ∈ w.mail ++ [_] from hb) with hb | hb
    · exact hb
    · cases mem_singleton.mp hb

variable [DecidableEq ι]

theorem inv_step (h : Inv [] [] [] 0 w) {e : PoolEvent ι} (hc : w.Careful e) :
    Inv [] [] [] 0 (w.step e) := by
  have hplain : ∀ {w' : PoolWorld ι} {m : PoolMessage ι}, Inv [] [] [] 0 w' →
      (∀ y, m ≠ .down y) → (∀ r y b, m ≠ .pingDone r y b) → unread [m] = [] →
      Inv [] [] [] 0 (w'.post m) := fun h' hdown hping hunread =>
    Inv.post (by rw [hunread]; exact h') (fun y he => absurd he (hdown y))
      fun r y b he => absurd he (hping r y b)
  cases e with
  | ask caller =>
    dsimp only [step]
    by_cases hdead : caller ∈ w.dead
    · rw [if_pos hdead]
      exact h
    · rw [if_neg hdead]
      split
      · exact h.ask.post (fun _ he => nomatch he) fun _ _ _ he => nomatch he
      · exact h.ask.reply _
  | handBack caller worker =>
    dsimp only [step]
    split
    · exact h.handBack worker caller
    · exact h
  | strayCheckin worker
  | cancel r => exact hplain h (fun _ he => nomatch he) (fun _ _ _ he => nomatch he) rfl
  | timerFires r =>
    dsimp only [step]
    split
    · refine { hplain (m := .waiterTimeout r) h (fun _ he => nomatch he)
        (fun _ _ _ he => nomatch he) rfl with armed := fun y hy => ?_ }
      rcases h.armed y hy with ha | ha
      · by_cases hr : y.ref = r
        · subst hr
          exact .inr (mem_mail_self _ _)
        · exact .inl (Finset.mem_erase.mpr ⟨hr, ha⟩)
      · exact .inr (mem_mail_of_mem ha _)
    · exact h
  | maintenanceDue
  | askIsolation
  | askClose => exact hplain h (fun _ he => nomatch he) (fun _ _ _ he => nomatch he) rfl
  | workerDies worker =>
    dsimp only [step]
    by_cases hl : worker ∈ w.live
    · rw [if_pos hl]
      rw [if_pos (live_known h hl)]
      exact h.dies hl
    · rw [if_neg hl]
      exact h
  | pingEnds r y ok =>
    dsimp only [step]
    split
    · next hp =>
      have hold := h.pings r y (.inl hp)
      have hpings : Inv [] [] [] 0 { w with pings := w.pings.erase (r, y) } :=
        { h with pings := fun r' y' hp' => h.pings r' y' (hp'.imp mem_of_mem_erase id) }
      exact hpings.post (fun _ he => nomatch he) fun r' y' b he => by cases he; exact hold
    · exact h
  | callerDies caller =>
    refine { h with lentAlive := fun p hp hl hmem => ?_ }
    rcases mem_cons.mp hmem with heq | hmem
    · exact hc p.1 hl (heq ▸ hp)
    · exact h.lentAlive p hp hl hmem
  | turn m t =>
    dsimp only [step]
    by_cases hm : w.running = true ∧ m ∈ w.mail
    · rw [if_pos hm]
      exact inv_handle (h.take hm.2) (hc hm.2)
    · rw [if_neg hm]
      exact h

/-! ## What its callers see

To its callers the pool is a store of connections that lends one that nobody holds, and takes one
back. -/

omit [DecidableEq ι] in
omit [DecidableEq ι] in
omit [DecidableEq ι] in
/-! ## Runs -/

/-- In every run of careful events the pool keeps its promise in every state. -/
theorem safe_of_careful (config : PoolConfig) (now : Int) (events : List (PoolEvent ι)) :
    StepsMeet step Careful (init config now) events →
      Throughout step PoolSafe (init config now) events := by
  intro h
  have hinv : Throughout step (Inv [] [] [] 0) (init config now) events :=
    throughout_of_meets (I := Inv [] [] [] 0) (fun _ _ hi hc => inv_step hi hc)
      (inv_init config now) h
  exact hinv.mono fun _ => safe_of_inv

def poolOfOne : PoolConfig where
  poolSize := 1
  poolSize_pos := Nat.zero_lt_one
  queryTimeout := 30000
  idleTimeout := 0
  maxLifetime := 0
  healthCheck := 0
  maxQueue := 0

/-- A caller is lent the connection and dies. -/
def leak : List (PoolEvent Nat) :=
  [.ask 7, .turn (.checkout 7 1) ⟨0, .ok ()⟩, .callerDies 7]

/-- The connection stays lent to it. -/
theorem leak_not_safe : ¬ PoolSafe (runEvents step (init poolOfOne 0) leak) := by
  intro h
  obtain ⟨c, hc, hdead⟩ := h.noLeak rfl 0 (by decide)
  have hseven : c = 7 := by
    have hmem : (0, c) ∈ [((0 : Worker), 7)] := hc
    cases mem_singleton.mp hmem
    rfl
  exact hdead (hseven ▸ mem_cons_self)

/-- A caller takes the connection, gives it back, and another caller takes it. -/
def handOn : List (PoolEvent Nat) :=
  [.ask 7, .turn (.checkout 7 1) ⟨0, .ok ()⟩, .handBack 7 0, .turn (.checkin 0) ⟨5, .ok ()⟩,
    .ask 8, .turn (.checkout 8 2) ⟨9, .ok ()⟩]

theorem handOn_safe : Throughout step PoolSafe (init poolOfOne 0) handOn := by
  refine safe_of_careful poolOfOne 0 handOn ?_
  refine .cons trivial (.cons ?_ (.cons trivial (.cons ?_ (.cons trivial (.cons ?_ (.nil _ _))))))
  · exact fun _ _ => not_mem_nil
  · refine fun _ _ _ => ⟨fun c hc => not_mem_nil hc, fun first hf => nomatch hf⟩
  · exact fun _ _ => not_mem_nil

end PoolWorld

end Ridge
