import Ridge.Pool.Invariant

/-!
# ridge_pg — the handlers keep the pool's invariant

`Careful` is the condition on an event: a check-in comes for a connection that no caller holds, a
caller that dies holds no connection and none is lent to it afterwards, and a connect that fails
while a lost connection is replaced leaves no other caller parked.
-/

namespace Ridge

open List

variable {t : Turn}

namespace PoolWorld

variable {ι : Type} {m : PoolMessage ι}

variable (w : PoolWorld ι)

/-- What `serve_waiter` meets, when it has to open a connection: the caller it serves is alive, or
the connect fails and nobody else is parked. -/
def Serves (t : Turn) : Prop :=
  ∀ first others, w.waiters = first :: others →
    match t.connect with
    | .ok _ => first.replyTo ∉ w.dead
    | .error _ => others = []

/-- A connection given back goes to a caller that is alive. -/
def HandsOver : Prop := ∀ first ∈ w.waiters.head?, first.replyTo ∉ w.dead

def CarefulTurn (t : Turn) : PoolMessage ι → Prop
  | .checkout caller _ =>
    (takeLive w.live w.idle).1.isSome ∨ (w.mons.card < w.max ∧ t.connect.isOk) →
      caller ∉ w.dead
  | .checkin worker =>
    worker ∈ w.busy → worker ∈ w.live → (∀ c, (worker, c) ∉ w.lent) ∧ w.HandsOver
  | .down _ => w.Serves t
  | .pingDone ref _ ok =>
    w.checking.any (fun c => c.1 = ref) → if ok then w.HandsOver else w.Serves t
  | _ => True

def Careful : PoolEvent ι → Prop
  | .callerDies caller => ∀ worker ∈ w.live, (worker, caller) ∉ w.lent
  | .turn m t => m ∈ w.mail → w.CarefulTurn t m
  | _ => True

variable {w : PoolWorld ι} {ms : List (PoolMessage ι)} {loose : List Worker} {owed : List Nat}
  {gap : Nat} {x : Worker} {ref : Nat}

/-! ## Messages -/

/-- A message is taken from the mailbox. -/
theorem Inv.take [DecidableEq ι] (h : Inv [] loose owed gap w) (hm : m ∈ w.mail) :
    Inv [m] loose owed gap { w with mail := w.mail.erase m } := by
  have hperm : List.Perm w.mail (m :: w.mail.erase m) := perm_cons_erase hm
  have hmem : ∀ {n}, n ∈ [m] ++ w.mail.erase m ↔ n ∈ [] ++ w.mail := fun {n} => hperm.symm.mem_iff
  refine { h with
    downDead := fun y hy => h.downDead y (hmem.mp hy)
    noticed := fun y hy hl => hmem.mpr (h.noticed y hy hl)
    held := fun y hy hl => (h.held y hy hl).imp id hmem.mpr
    tally := fun r => ?_
    armed := fun y hy => (h.armed y hy).imp id hmem.mpr
    pings := fun r y hp => h.pings r y (hp.imp id fun ⟨b, hb⟩ => ⟨b, hmem.mp hb⟩) }
  have hr := h.tally r
  have hcount : (unread w.mail).count r
      = (unread [m]).count r + (unread (w.mail.erase m)).count r := by
    have hp : List.Perm (unread w.mail) (unread ([m] ++ w.mail.erase m)) := hperm.filterMap _
    rw [hp.count_eq, unread_append, count_append]
  simp only [PoolWorld.tally, hcount] at hr ⊢
  have h0 : (unread ([] : List (PoolMessage ι))).count r = 0 := rfl
  omega

/-- A message is done with: its ref, if it was a checkout, was taken from it. -/
theorem Inv.discard (h : Inv [m] loose owed gap w)
    (hcheckin : ∀ y, m = .checkin y → y ∈ w.busy → y ∈ w.live → ∃ c, (y, c) ∈ w.lent)
    (hdown : ∀ y, m = .down y → y ∉ w.mons)
    (htimer : ∀ r, m = .waiterTimeout r → ∀ y ∈ w.waiters, y.ref ≠ r) :
    Inv [] loose (unread [m] ++ owed) gap w := by
  have hrest : ∀ {n : PoolMessage ι}, n ∈ [m] ++ w.mail → n = m ∨ n ∈ [] ++ w.mail :=
    fun hn => mem_cons.mp hn
  refine { h with
    downDead := fun y hy => h.downDead y (mem_cons_of_mem _ hy)
    noticed := fun y hy hl => ?_
    held := fun y hy hl => ?_
    tally := fun r => ?_
    armed := fun y hy => ?_
    pings := fun r y hp => h.pings r y (hp.imp id fun ⟨b, hb⟩ => ⟨b, mem_cons_of_mem _ hb⟩) }
  · exact (hrest (h.noticed y hy hl)).elim (fun he => absurd hy (hdown y he.symm)) id
  · rcases h.held y hy hl with hc | hc
    · exact .inl hc
    · exact (hrest hc).elim (fun he => .inl (hcheckin y he.symm hy hl)) .inr
  · have hr := h.tally r
    rw [count_append]
    have h0 : (unread ([] : List (PoolMessage ι))).count r = 0 := rfl
    omega
  · rcases h.armed y hy with ha | ha
    · exact .inl ha
    · exact (hrest ha).elim (fun he => absurd rfl (htimer y.ref he.symm y hy)) .inr

/-- Messages of no kind that the invariant speaks of are done with at once. -/
theorem Inv.discardPlain (h : Inv [m] loose owed gap w) (hcheckin : ∀ y, m ≠ .checkin y)
    (hdown : ∀ y, m ≠ .down y) (htimer : ∀ r, m ≠ .waiterTimeout r) :
    Inv [] loose (unread [m] ++ owed) gap w :=
  h.discard (fun y he => absurd he (hcheckin y)) (fun y he => absurd he (hdown y))
    fun r he => absurd he (htimer r)

/-- A message is sent. -/
theorem Inv.post (h : Inv ms loose (unread [m] ++ owed) gap w)
    (hdown : ∀ y, m = .down y → y ∉ w.live ∧ y < w.next)
    (hping : ∀ r y b, m = .pingDone r y b → r < w.next ∧ ∀ z, (r, z) ∈ w.checking → y = z) :
    Inv ms loose owed gap { w with mail := w.mail ++ [m] } := by
  have hold : ∀ {n : PoolMessage ι}, n ∈ ms ++ w.mail → n ∈ ms ++ (w.mail ++ [m]) := fun hn => by
    rw [← append_assoc]
    exact mem_append_left _ hn
  have hnew : ∀ {n : PoolMessage ι}, n ∈ ms ++ (w.mail ++ [m]) → n ∈ ms ++ w.mail ∨ n = m :=
    fun hn => by
      rw [← append_assoc] at hn
      exact (mem_append.mp hn).imp id mem_singleton.mp
  refine { h with
    downDead := fun y hy => (hnew hy).elim (h.downDead y) fun he => hdown y he.symm
    noticed := fun y hy hl => hold (h.noticed y hy hl)
    held := fun y hy hl => (h.held y hy hl).imp id hold
    tally := fun r => ?_
    armed := fun y hy => (h.armed y hy).imp id hold
    pings := fun r y hp => ?_ }
  · have hr := h.tally r
    simp only [PoolWorld.tally, unread_append, count_append] at hr ⊢
    omega
  · rcases hp with hp | ⟨b, hb⟩
    · exact h.pings r y (Or.inl hp)
    · rcases hnew hb with hb | he
      · exact h.pings r y (Or.inr ⟨b, hb⟩)
      · exact hping r y b he.symm

/-! ## Handlers -/

theorem openWorker_ok (ht : t.connect = .ok ()) : openWorker t w
    = .ok (w.next, { w with live := insert w.next w.live, next := w.next + 1 }) := by
  unfold openWorker
  rw [ht]
  rfl

theorem openWorker_error {e : DbError} (ht : t.connect = .error e) : openWorker t w = .error e := by
  unfold openWorker
  rw [ht]
  rfl

/-- A connection is opened for a ref in hand. -/
theorem Inv.lendFresh (h : Inv ms loose (ref :: owed) (gap + 1) w) (hroom : w.mons.card < w.max)
    {c : ι} (hc : c ∉ w.dead) (now : Int) :
    Inv ms loose owed gap
      (PoolWorld.lendFresh { w with live := insert w.next w.live, next := w.next + 1 } now c ref
        w.next) :=
  ((h.opened hroom).lend (Finset.mem_insert_self _ _) hc).stamp _

theorem inv_handleCheckout (h : Inv [] [] [ref] 0 w) {c : ι}
    (hc : (takeLive w.live w.idle).1.isSome ∨ (w.mons.card < w.max ∧ t.connect.isOk) → c ∉ w.dead) :
    Inv [] [] [] 0 (handleCheckout t c ref w) := by
  unfold handleCheckout
  rcases htake : takeLive w.live w.idle with ⟨_ | worker, rest⟩
  · -- No connection is idle.
    obtain ⟨hrest, hgone⟩ := takeLive_none htake
    have hcut : Inv [] [] [ref] 0 { w with idle := rest } :=
      h.cutIdle hgone (by rw [hrest, append_nil, append_nil])
    show Inv [] [] [] 0 (if w.mons.card < w.max then _ else _)
    by_cases hroom : w.mons.card < w.max
    · rw [if_pos hroom]
      have hnobody : w.waiters = [] := by
        by_contra hw
        have := (h.waiting hw).2
        omega
      rcases hconn : t.connect with e | u
      · rw [openWorker_error hconn]
        exact hcut.reply _
      · rw [openWorker_ok hconn]
        have hlive : c ∉ w.dead := hc (.inr ⟨hroom, by rw [hconn]; rfl⟩)
        exact (hcut.regap hnobody 1).lendFresh hroom hlive t.now
    · rw [if_neg hroom]
      have hfull : w.mons.card + 0 = w.max := by
        have := h.monsLe
        omega
      split
      · exact hcut.park hrest hfull c
      · exact hcut.reply _
  · obtain ⟨hlive, gone, hgone, hidle⟩ := takeLive_some htake
    have hcut : Inv [] [worker] [ref] 0 { w with idle := rest } := h.cutIdle hgone hidle
    exact hcut.lend hlive (hc (.inl (by rw [htake]; rfl)))

/-- The pool is short of a connection, or nobody waits, or it is full: the oldest waiter is served
where there is room. -/
theorem inv_serveWaiter (h : Inv ms loose owed gap w) (hgap : gap ≤ 1) (hs : w.Serves t) :
    Inv ms loose owed 0 (serveWaiter t w) := by
  unfold serveWaiter
  split
  · next hw => exact h.regap hw 0
  · next first others hw =>
    have hcard := (h.waiting (by rw [hw]; exact cons_ne_nil _ _)).2
    have hunpark : Inv ms loose (first.ref :: owed) gap
        { w with timers := w.timers.erase first.ref, waiters := others } :=
      h.unpark (show w.waiters = [] ++ first :: others from hw) (Finset.Subset.refl _)
    by_cases hroom : w.mons.card < w.max
    · rw [if_pos hroom]
      have hone : gap = 0 + 1 := by omega
      subst hone
      have hserve := hs first others hw
      dsimp only
      rcases hconn : t.connect with e | u
      · rw [hconn] at hserve
        have hreply := (hunpark.reply (.error e)).regap hserve 0
        rw [openWorker_error hconn]
        exact hreply
      · rw [hconn] at hserve
        rw [openWorker_ok hconn]
        exact hunpark.lendFresh hroom hserve t.now
    · rw [if_neg hroom]
      have hzero : gap = 0 := by omega
      exact hzero ▸ h

theorem inv_handleDown (h : Inv [.down x] [] [] 0 w) (hs : w.Serves t) :
    Inv [] [] [] 0 (handleDown t x w) := by
  have hdead : x ∉ w.live := (h.downDead x mem_cons_self).1
  -- Once forgotten, the connection's notice is of no use.
  have hforget : ∃ gap ≤ 1, Inv [.down x] [] [] gap (w.forget x) := by
    by_cases hm : x ∈ w.mons
    · exact ⟨1, Nat.le_refl 1, h.forget hdead hm⟩
    · exact ⟨0, Nat.zero_le 1, h.forget_unknown hm⟩
  obtain ⟨gap, hgap, hforget⟩ := hforget
  have hdone : Inv [] [] [] gap (w.forget x) :=
    hforget.discard (fun y he => nomatch he)
      (fun y he => by cases he; exact Finset.notMem_erase x w.mons) (fun r he => nomatch he)
  exact inv_serveWaiter hdone hgap hs

theorem inv_handleCheckin [DecidableEq ι] (h : Inv [.checkin x] [] [] 0 w)
    (hc : x ∈ w.busy → x ∈ w.live → (∀ c, (x, c) ∉ w.lent) ∧ w.HandsOver) :
    Inv [] [] [] 0 (handleCheckin t x w) := by
  have hdone : ∀ {w' : PoolWorld ι}, Inv [.checkin x] [] [] 0 w' →
      (x ∈ w'.busy → x ∈ w'.live → ∃ c, (x, c) ∈ w'.lent) → Inv [] [] [] 0 w' :=
    fun h' hheld => h'.discard (fun y he => by cases he; exact hheld) (fun y he => nomatch he)
      fun r he => nomatch he
  unfold handleCheckin
  by_cases hb : x ∈ w.busy
  · rw [if_pos hb]
    by_cases hl : x ∈ w.live
    · rw [if_pos hl]
      obtain ⟨hfree, hover⟩ := hc hb hl
      have hloose := h.unlend hb fun _ => hfree
      unfold returnWorker
      split
      · next first others hw =>
        -- The oldest waiter has it now.
        have hunpark : Inv [.checkin x] [x] [first.ref] 0
            { w with busy := w.busy.erase x, timers := w.timers.erase first.ref,
                     waiters := others } :=
          hloose.unpark (show w.waiters = [] ++ first :: others from hw)
            (Finset.Subset.refl _)
        have hlend := hunpark.lend hl (hover first (by rw [hw]; rfl))
        rw [Finset.insert_erase hb] at hlend
        exact hdone hlend fun _ _ => ⟨first.replyTo, mem_cons_self⟩
      · next hw =>
        dsimp only
        split
        · have hretire := (hloose.retire (show x ∈ w.mons from live_known h hl)).regap (by
            unfold retire; split <;> exact hw) 0
          have heq : retire { w with busy := w.busy.erase x } x = w.retire x := by
            unfold retire
            split <;> simp only [Finset.erase_idem]
          rw [heq] at hretire
          refine hdone hretire fun hbusy => absurd hbusy ?_
          unfold retire
          split <;> exact Finset.notMem_erase x _
        · refine hdone ((hloose.shelve hw).stamp _) fun hbusy => absurd hbusy ?_
          exact Finset.notMem_erase x _
    · rw [if_neg hl]
      have hdrop := ((h.unlend hb fun hlive => absurd hlive hl).letGo hl).stamp
        (Function.update w.metas x none)
      exact hdone hdrop fun hbusy => absurd hbusy (Finset.notMem_erase x _)
  · rw [if_neg hb]
    exact hdone h fun hbusy => absurd hbusy hb

/-- `remove_waiter` cuts the queue at the waiter it finds. -/
theorem unpark_of_find {y : Waiter ι} (hy : w.waiters.find? (fun z => z.ref = ref) = some y) :
    ∃ before c after, w.waiters = before ++ ⟨ref, c⟩ :: after ∧
      w.unpark ref = { w with waiters := before ++ after } := by
  have hmem : y ∈ w.waiters := mem_of_find?_eq_some hy
  have hpy := find?_some (p := fun z : Waiter ι => decide (z.ref = ref)) hy
  obtain ⟨⟨r, c⟩, before, after, -, hpz, heq, herase⟩ :=
    exists_of_eraseP (p := fun z : Waiter ι => decide (z.ref = ref)) hmem hpy
  have hr : r = ref := of_decide_eq_true hpz
  subst hr
  exact ⟨before, c, after, heq, by rw [unpark, herase]⟩

theorem inv_timeoutWaiter (h : Inv [.waiterTimeout ref] [] [] 0 w) :
    Inv [] [] [] 0 (timeoutWaiter ref w) := by
  have hdone : ∀ {w' : PoolWorld ι} {owed : List Nat}, Inv [.waiterTimeout ref] [] owed 0 w' →
      (∀ y ∈ w'.waiters, y.ref ≠ ref) → Inv [] [] owed 0 w' := fun h' hrefs =>
    h'.discard (fun y he => nomatch he) (fun y he => nomatch he)
      fun r he => by cases he; exact hrefs
  unfold timeoutWaiter
  split
  · next y hy =>
    obtain ⟨before, c, after, hw, hrest⟩ := unpark_of_find hy
    rw [hrest]
    have hunpark : Inv [.waiterTimeout ref] [] [ref] 0 { w with waiters := before ++ after } :=
      h.unpark hw (Finset.erase_subset _ _)
    exact (hdone hunpark fun z hz => ref_ne_of_waiter h hw hz).reply _
  · next hnone =>
    refine hdone h fun z hz hr => ?_
    exact absurd (decide_eq_true hr) (find?_eq_none.mp hnone z hz)

theorem inv_cancelWaiter (h : Inv [] [] [] 0 w) : Inv [] [] [] 0 (cancelWaiter ref w) := by
  unfold cancelWaiter
  split
  · next y hy =>
    obtain ⟨before, c, after, hw, hrest⟩ := unpark_of_find hy
    rw [hrest]
    have hunpark : Inv [] [] [ref] 0
        { w with timers := w.timers.erase ref, waiters := before ++ after } :=
      h.unpark hw (Finset.Subset.refl _)
    refine { hunpark with tally := fun r => ?_ }
    have hr := hunpark.tally r
    simp only [PoolWorld.tally, count_cons, count_nil] at hr ⊢
    omega
  · exact h

/-! ### Maintenance -/

/-- The sweep puts every connection in one of its three lists. -/
theorem count_classify (w : PoolWorld ι) (now : Int) (y : Worker) :
    ∀ (idle : List Worker) (sorted : List Worker × List Worker × List Worker),
      (idle.foldl (w.classify now) sorted).1.count y
          + (idle.foldl (w.classify now) sorted).2.1.count y
          + (idle.foldl (w.classify now) sorted).2.2.count y
        = sorted.1.count y + sorted.2.1.count y + sorted.2.2.count y + idle.count y
  | [], _ => rfl
  | x :: idle, sorted => by
    have hone : (w.classify now sorted x).1.count y + (w.classify now sorted x).2.1.count y
        + (w.classify now sorted x).2.2.count y
        = sorted.1.count y + sorted.2.1.count y + sorted.2.2.count y + [x].count y := by
      unfold classify
      dsimp only
      split
      · simp only [count_cons, count_nil]
        omega
      · split
        · simp only [count_cons, count_nil]
          omega
        · simp only [count_cons, count_nil]
          omega
    have hrest := count_classify w now y idle (w.classify now sorted x)
    rw [foldl_cons, hrest, hone, count_cons, count_cons,
      count_nil]
    omega

theorem waiters_retire [DecidableEq ι] (w : PoolWorld ι) (x : Worker) :
    (w.retire x).waiters = w.waiters := by
  unfold retire
  split <;> rfl

/-- A connection in hand is monitored. -/
theorem Inv.mons_of_loose (h : Inv ms (x :: loose) owed gap w) : x ∈ w.mons := by
  by_contra hm
  have h0 := h.known x hm
  rw [List.count_cons_self] at h0
  omega

theorem inv_foldl_retire [DecidableEq ι] : ∀ (xs : List Worker) {w : PoolWorld ι},
    w.waiters = [] → Inv ms (xs ++ loose) owed gap w →
      (xs.foldl retire w).waiters = [] ∧ Inv ms loose owed gap (xs.foldl retire w)
  | [], _, hw, h => ⟨hw, h⟩
  | x :: xs, w, hw, h => by
    have hw' : (w.retire x).waiters = [] := (waiters_retire w x).trans hw
    exact inv_foldl_retire xs hw' ((h.retire h.mons_of_loose).regap hw' gap)

theorem inv_foldl_startPing (now : Int) : ∀ (xs : List Worker) {w : PoolWorld ι},
    Inv ms (xs ++ loose) owed gap w → Inv ms loose owed gap (xs.foldl (startPing now) w)
  | [], _, h => h
  | _ :: xs, _, h => inv_foldl_startPing now xs (h.startPing now)

theorem inv_runMaintenance [DecidableEq ι] (h : Inv [] [] [] 0 w) (t : Turn) :
    Inv [] [] [] 0 (runMaintenance t w) := by
  unfold runMaintenance
  dsimp only
  by_cases hw : w.waiters = []
  · have hcount := fun y => count_classify w t.now y w.idle ([], [], [])
    generalize w.idle.foldl (w.classify t.now) ([], [], []) = sorted at hcount ⊢
    have hplaces : ∀ y, places { w with idle := sorted.2.2 } y + (sorted.1 ++ sorted.2.1).count y
        = w.places y + ([] : List Worker).count y := fun y => by
      have hy := hcount y
      simp only [places, count_append, count_nil] at hy ⊢
      omega
    have hmove : Inv [] (sorted.1 ++ sorted.2.1) [] 0 { w with idle := sorted.2.2 } :=
      h.move (fun y => (hplaces y).le) (fun y _ => hplaces y) (fun hne => absurd hw hne)
        (List.Subset.refl _)
    have hretired : Inv [] sorted.2.1 [] 0 (sorted.1.foldl retire { w with idle := sorted.2.2 }) :=
      (inv_foldl_retire sorted.1 (w := { w with idle := sorted.2.2 }) hw hmove).2
    rw [← append_nil sorted.2.1] at hretired
    exact inv_foldl_startPing t.now sorted.2.1 hretired
  · -- While somebody waits there is no idle connection to look at.
    have hidle := (h.waiting hw).1
    rw [hidle]
    have heq : { w with idle := [] } = w := by rw [← hidle]
    show Inv [] [] [] 0 { w with idle := [] }
    rw [heq]
    exact h

/-! ### Health checks and the end -/

theorem inv_requeueIdle (h : Inv [] [x] [] 0 w) (hover : w.HandsOver) :
    Inv [] [] [] 0 (w.requeueIdle x) := by
  unfold requeueIdle
  by_cases hx : x ∈ w.mons ∧ x ∈ w.live
  · rw [if_pos hx]
    split
    · next first others hw =>
      have hunpark : Inv [] [x] [first.ref] 0
          { w with timers := w.timers.erase first.ref, waiters := others } :=
        h.unpark (show w.waiters = [] ++ first :: others from hw) (Finset.Subset.refl _)
      exact hunpark.lend hx.2 (hover first (by rw [hw]; rfl))
    · next hw => exact h.shelve hw
  · rw [if_neg hx]
    exact h.letGo fun hl => hx ⟨live_known h hl, hl⟩

theorem inv_finishPing [DecidableEq ι] {ok : Bool} (h : Inv [.pingDone ref x ok] [] [] 0 w)
    (hc : w.checking.any (fun c => c.1 = ref) → if ok then w.HandsOver else w.Serves t) :
    Inv [] [] [] 0 (finishPing t ref x ok w) := by
  have hagree := (h.pings ref x (.inr ⟨ok, mem_cons_self⟩)).2
  have hdone : Inv [] [] [] 0 w :=
    h.discardPlain (fun _ he => nomatch he) (fun _ he => nomatch he) fun _ he => nomatch he
  unfold finishPing
  by_cases hany : w.checking.any (fun c => c.1 = ref) = true
  · rw [if_pos hany]
    obtain ⟨c, hcmem, hcref⟩ := any_eq_true.mp hany
    have hr : c.1 = ref := of_decide_eq_true hcref
    have hcx : x = c.2 := hagree c.2 (hr ▸ hcmem)
    have hmem : (ref, x) ∈ w.checking := by
      rw [← hr, hcx]
      exact hcmem
    have hloose := hdone.uncheck hmem hagree
    have hcond := hc hany
    cases ok with
    | true => exact inv_requeueIdle hloose hcond
    | false =>
      refine inv_serveWaiter (hloose.retire hloose.mons_of_loose) (Nat.le_refl 1) ?_
      intro first others hw
      rw [waiters_retire] at hw
      have hserve : w.Serves t := hcond
      have hdead : ∀ w' : PoolWorld ι, (w'.retire x).dead = w'.dead := fun w' => by
        unfold retire
        split <;> rfl
      rw [hdead]
      exact hserve first others hw
  · rw [if_neg hany]
    exact hdone

theorem inv_closeAll (h : Inv [] [] [] 0 w) : Inv [] [] [] 0 (closeAll w) := by
  have hlive : w.live \ w.mons = ∅ :=
    Finset.sdiff_eq_empty_iff_subset.mpr fun y hy => live_known h hy
  have hnone : ∀ y, (closeAll w).places y = 0 := fun y => by
    simp only [places, closeAll, count_nil, map_nil,
      inSet_of_notMem (Finset.notMem_empty y)]
  have hdead : ∀ {y : Worker}, y ∉ (closeAll w).live := fun hy => by
    rw [show (closeAll w).live = ∅ from hlive] at hy
    exact Finset.notMem_empty _ hy
  have hmail : ∀ m ∈ (closeAll w).mail, m ∈ w.mail := fun m hm => mem_of_mem_filter hm
  have hunread : unread (closeAll w).mail = [] := by
    show List.filterMap _ (w.mail.filter _) = []
    refine filterMap_eq_nil_iff.mpr fun m hm => ?_
    have hkeep := (mem_filter.mp hm).2
    cases m with
    | checkout c r => exact absurd hkeep Bool.false_ne_true
    | _ => rfl
  exact {
    monsLe := Nat.zero_le _
    once := fun y => by rw [hnone]; exact Nat.zero_le 1
    known := fun y _ => by rw [hnone]; rfl
    placed := fun y hy => absurd hy hdead
    downDead := fun y hy => ⟨hdead, (h.downDead y (hmail _ hy)).2⟩
    noticed := fun y hy => absurd hy (Finset.notMem_empty y)
    monsLt := fun y hy => absurd hy (Finset.notMem_empty y)
    waiting := fun hw => absurd rfl hw
    lentOnce := h.lentOnce
    lentLt := h.lentLt
    lentBusy := fun p _ hl => absurd hl hdead
    lentAlive := fun p _ hl => absurd hl hdead
    held := fun y hy => absurd hy (Finset.notMem_empty y)
    tally := fun r => by
      have hr := h.tally r
      have hreplies : ((closeAll w).replies.map Prod.fst).count r
          = (unread w.mail).count r + ((w.waiters.map Waiter.ref).count r
            + (w.replies.map Prod.fst).count r) := by
        show ((_ ++ (_ ++ w.replies)).map Prod.fst).count r = _
        rw [map_append, map_append, count_append, count_append, map_map,
          map_map]
        have hfst : ∀ refs : List Nat,
            refs.map (Prod.fst ∘ fun ref => (ref, PoolAnswer.unavailable)) = refs :=
          fun refs => map_id refs
        rw [hfst]
        rfl
      unfold PoolWorld.tally at hr ⊢
      rw [hunread, hreplies]
      show (0 + 0 + _ + w.cancelled.count r) + 0 + 0 = w.asked.count r
      have h0 : (unread ([] : List (PoolMessage ι))).count r = 0 := rfl
      have h1 : ([] : List Nat).count r = 0 := rfl
      omega
    asked := h.asked
    armed := fun y hy => absurd hy not_mem_nil
    pings := fun r y hp =>
      ⟨(h.pings r y (hp.imp id (Exists.imp fun _ => hmail _))).1, fun z hz => absurd hz not_mem_nil⟩
    checkingLt := fun p hp => absurd hp not_mem_nil }

/-- Every message a careful turn takes is handled within the invariant. -/
theorem inv_handle [DecidableEq ι] (h : Inv [m] [] [] 0 w) (hc : w.CarefulTurn t m) :
    Inv [] [] [] 0 (handle t m w) := by
  cases m with
  | checkout c r =>
    exact inv_handleCheckout
      (h.discardPlain (fun _ he => nomatch he) (fun _ he => nomatch he) fun _ he => nomatch he) hc
  | checkin y => exact inv_handleCheckin h hc
  | checkoutCancel r =>
    exact inv_cancelWaiter
      (h.discardPlain (fun _ he => nomatch he) (fun _ he => nomatch he) fun _ he => nomatch he)
  | down y => exact inv_handleDown h hc
  | waiterTimeout r => exact inv_timeoutWaiter h
  | maintenance =>
    exact inv_runMaintenance
      (h.discardPlain (fun _ he => nomatch he) (fun _ he => nomatch he) fun _ he => nomatch he) t
  | pingDone r y ok => exact inv_finishPing h hc
  | getDefaultIsolation =>
    exact h.discardPlain (fun _ he => nomatch he) (fun _ he => nomatch he) fun _ he => nomatch he
  | close =>
    exact inv_closeAll
      (h.discardPlain (fun _ he => nomatch he) (fun _ he => nomatch he) fun _ he => nomatch he)

end PoolWorld

end Ridge
