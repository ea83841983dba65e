import Ridge.Pool.Manager

/-!
# ridge_pg — the pool's invariant

A handler takes a message, a connection or a caller's ref into its hands before it puts it
somewhere else, so the invariant is stated with what is in hand: the message being handled, the
connections that stand nowhere, the refs not answered yet, and how many connections the pool is
short of while callers wait. Each piece of a handler has one lemma that says what it does to the
invariant and to the hand.
-/

namespace Ridge

open List

namespace PoolWorld

variable {ι : Type}

/-- A set's element counts once. -/
def inSet (s : Finset Worker) (x : Worker) : Nat := if x ∈ s then 1 else 0

variable {s : Finset Worker}

theorem inSet_of_mem {x : Worker} (h : x ∈ s) : inSet s x = 1 := if_pos h

theorem inSet_of_notMem {x : Worker} (h : x ∉ s) : inSet s x = 0 := if_neg h

@[simp] theorem inSet_erase_self (s : Finset Worker) (x : Worker) : inSet (s.erase x) x = 0 :=
  inSet_of_notMem (Finset.notMem_erase x s)

@[simp] theorem inSet_insert_self (s : Finset Worker) (x : Worker) : inSet (insert x s) x = 1 :=
  inSet_of_mem (Finset.mem_insert_self x s)

variable {x y : Worker}

theorem inSet_erase_of_ne (h : y ≠ x) : inSet (s.erase x) y = inSet s y := by
  unfold inSet
  exact if_congr (by simp [h]) rfl rfl

theorem inSet_insert_of_ne (h : y ≠ x) : inSet (insert x s) y = inSet s y := by
  unfold inSet
  exact if_congr (by simp [h]) rfl rfl

/-- How often a connection stands in the manager's books. -/
def places (w : PoolWorld ι) (x : Worker) : Nat :=
  w.idle.count x + inSet w.busy x + (w.checking.map Prod.snd).count x

/-- How often a checkout is unread, parked, answered or withdrawn. -/
def tally (w : PoolWorld ι) (ref : Nat) : Nat :=
  (unread w.mail).count ref + (w.waiters.map Waiter.ref).count ref +
    (w.replies.map Prod.fst).count ref + w.cancelled.count ref

/-- The invariant, while the messages `ms`, the connections `loose` and the refs `owed` are in hand
and the pool is `gap` short of its connections. -/
structure Inv (ms : List (PoolMessage ι)) (loose : List Worker) (owed : List Nat) (gap : Nat)
    (w : PoolWorld ι) : Prop where
  monsLe : w.mons.card ≤ w.max
  once : ∀ x, w.places x + loose.count x ≤ 1
  known : ∀ x, x ∉ w.mons → w.places x + loose.count x = 0
  placed : ∀ x ∈ w.live, w.places x + loose.count x = 1
  downDead : ∀ x, .down x ∈ ms ++ w.mail → x ∉ w.live ∧ x < w.next
  noticed : ∀ x ∈ w.mons, x ∉ w.live → .down x ∈ ms ++ w.mail
  monsLt : ∀ x ∈ w.mons, x < w.next
  waiting : w.waiters ≠ [] → w.idle = [] ∧ w.mons.card + gap = w.max
  lentOnce : (w.lent.map Prod.fst).Nodup
  lentLt : ∀ p ∈ w.lent, p.1 < w.next
  lentBusy : ∀ p ∈ w.lent, p.1 ∈ w.live → p.1 ∈ w.busy
  lentAlive : ∀ p ∈ w.lent, p.1 ∈ w.live → p.2 ∉ w.dead
  held : ∀ x ∈ w.busy, x ∈ w.live →
    (∃ c, (x, c) ∈ w.lent) ∨ .checkin x ∈ ms ++ w.mail
  tally : ∀ r, w.tally r + (unread ms).count r + owed.count r = w.asked.count r
  asked : w.asked.Nodup ∧ ∀ r ∈ w.asked, r < w.next
  armed : ∀ x ∈ w.waiters, x.ref ∈ w.timers ∨ .waiterTimeout x.ref ∈ ms ++ w.mail
  pings : ∀ r x, ((r, x) ∈ w.pings ∨ ∃ b, .pingDone r x b ∈ ms ++ w.mail) →
    r < w.next ∧ ∀ y, (r, y) ∈ w.checking → x = y
  checkingLt : ∀ p ∈ w.checking, p.1 < w.next

section

variable {w : PoolWorld ι} {ms : List (PoolMessage ι)} {loose : List Worker} {owed : List Nat}
  {gap : Nat} {x : Worker} {ref : Nat}

@[simp] theorem unread_append (ms ns : List (PoolMessage ι)) :
    unread (ms ++ ns) = unread ms ++ unread ns := filterMap_append

theorem live_known (h : Inv ms loose owed gap w) (hx : x ∈ w.live) : x ∈ w.mons := by
  by_contra hm
  have h0 := h.known x hm
  have h1 := h.placed x hx
  omega

/-- A connection in hand stands nowhere. -/
theorem places_loose (h : Inv ms (x :: loose) owed gap w) : w.places x = 0 := by
  have h1 := h.once x
  rw [List.count_cons_self] at h1
  omega

theorem not_busy_of_places (h : w.places x = 0) : x ∉ w.busy := by
  intro hb
  unfold places at h
  rw [inSet_of_mem hb] at h
  omega

theorem not_checking_of_places (h : w.places x = 0) : x ∉ w.checking.map Prod.snd := by
  unfold places at h
  exact count_eq_zero.mp (by omega)

/-- While nobody waits the pool is short of nothing. -/
theorem Inv.regap (h : Inv ms loose owed gap w) (hw : w.waiters = []) (gap' : Nat) :
    Inv ms loose owed gap' w :=
  { h with waiting := fun hne => absurd hw hne }

theorem Inv.stamp (h : Inv ms loose owed gap w) (metas : Worker → Option WorkerMeta) :
    Inv ms loose owed gap { w with metas } := { h with }

/-! ## Connections in and out of the hand -/

variable {live : Finset Worker}

theorem takeLive_some : ∀ {idle rest : List Worker},
    takeLive live idle = (some x, rest) →
      x ∈ live ∧ ∃ gone, (∀ y ∈ gone, y ∉ live) ∧ idle = gone ++ x :: rest
  | [], _, h => by cases h
  | y :: idle, rest, h => by
    unfold takeLive at h
    by_cases hy : y ∈ live
    · rw [if_pos hy] at h
      cases h
      exact ⟨hy, [], fun _ hz => (not_mem_nil hz).elim, rfl⟩
    · rw [if_neg hy] at h
      obtain ⟨hx, gone, hgone, heq⟩ := takeLive_some h
      refine ⟨hx, y :: gone, fun z hz => ?_, by rw [heq]; rfl⟩
      rcases mem_cons.mp hz with rfl | hz
      · exact hy
      · exact hgone z hz

theorem takeLive_none : ∀ {idle rest : List Worker},
    takeLive live idle = (none, rest) → rest = [] ∧ ∀ y ∈ idle, y ∉ live
  | [], _, h => by cases h; exact ⟨rfl, fun _ hz => (not_mem_nil hz).elim⟩
  | y :: idle, rest, h => by
    unfold takeLive at h
    by_cases hy : y ∈ live
    · rw [if_pos hy] at h
      cases h
    · rw [if_neg hy] at h
      obtain ⟨hrest, hall⟩ := takeLive_none h
      refine ⟨hrest, fun z hz => ?_⟩
      rcases mem_cons.mp hz with rfl | hz
      · exact hy
      · exact hall z hz

/-- Connections move between the idle list, the ones being checked and the hand; one that is gone
may be let go. -/
theorem Inv.move (h : Inv ms loose owed gap w) {idle : List Worker}
    {checking : List (Nat × Worker)} {loose' : List Worker}
    (hle : ∀ y, places { w with idle, checking } y + loose'.count y
      ≤ w.places y + loose.count y)
    (heq : ∀ y ∈ w.live, places { w with idle, checking } y + loose'.count y
      = w.places y + loose.count y)
    (hidle : w.waiters ≠ [] → idle = []) (hchecking : checking ⊆ w.checking) :
    Inv ms loose' owed gap { w with idle, checking } := by
  refine { h with
    once := fun y => (hle y).trans (h.once y)
    known := fun y hy => ?_
    placed := fun y hy => (heq y hy).trans (h.placed y hy)
    waiting := fun hw => ⟨hidle hw, (h.waiting hw).2⟩
    pings := fun r y hp => ?_
    checkingLt := fun p hp => h.checkingLt p (hchecking hp) }
  · have h0 := h.known y hy
    have h1 := hle y
    show places { w with idle, checking } y + loose'.count y = 0
    omega
  · obtain ⟨hlt, hagree⟩ := h.pings r y hp
    exact ⟨hlt, fun z hz => hagree z (hchecking hz)⟩

theorem Inv.cutIdle (h : Inv ms [] owed gap w) {gone taken rest : List Worker}
    (hgone : ∀ y ∈ gone, y ∉ w.live) (hidle : w.idle = gone ++ (taken ++ rest)) :
    Inv ms taken owed gap { w with idle := rest } := by
  have hcount : ∀ y, w.places y + ([] : List Worker).count y
      = gone.count y + (places { w with idle := rest } y + taken.count y) := fun y => by
    simp only [places, hidle, count_append, count_nil]
    omega
  refine h.move (fun y => ?_) (fun y hy => ?_) (fun hw => ?_) (List.Subset.refl _)
  · rw [hcount]
    exact Nat.le_add_left _ _
  · rw [hcount, count_eq_zero.mpr fun hm => hgone y hm hy, Nat.zero_add]
  · have hnil := (h.waiting hw).1
    rw [hidle] at hnil
    exact (append_eq_nil_iff.mp (append_eq_nil_iff.mp hnil).2).2

/-- A connection in hand is put with the idle ones, while nobody waits. -/
theorem Inv.shelve (h : Inv ms (x :: loose) owed gap w) (hw : w.waiters = []) :
    Inv ms loose owed gap { w with idle := x :: w.idle } := by
  have hcount : ∀ y, places { w with idle := x :: w.idle } y + loose.count y
      = w.places y + (x :: loose).count y := fun y => by
    simp only [places, count_cons]
    omega
  exact h.move (fun y => (hcount y).le) (fun y _ => hcount y) (fun hne => absurd hw hne)
    (List.Subset.refl _)

theorem Inv.letGo (h : Inv ms (x :: loose) owed gap w) (hx : x ∉ w.live) :
    Inv ms loose owed gap w := by
  refine h.move (fun y => ?_) (fun y hy => ?_) (fun hw => (h.waiting hw).1) (List.Subset.refl _)
  · exact Nat.add_le_add_left (count_le_count_cons) _
  · have hne : x ≠ y := fun hxy => hx (hxy ▸ hy)
    rw [List.count_cons_of_ne hne]

/-- A connection that nobody holds is taken out of the lent ones. -/
theorem Inv.unlend (h : Inv ms loose owed gap w) (hx : x ∈ w.busy)
    (hfree : x ∈ w.live → ∀ c, (x, c) ∉ w.lent) :
    Inv ms (x :: loose) owed gap { w with busy := w.busy.erase x } := by
  have hcount : ∀ y, places { w with busy := w.busy.erase x } y + (x :: loose).count y
      = w.places y + loose.count y := fun y => by
    by_cases hy : y = x
    · subst hy
      simp only [places, inSet_erase_self, inSet_of_mem hx, List.count_cons_self]
      omega
    · simp only [places, inSet_erase_of_ne hy, List.count_cons_of_ne (Ne.symm hy)]
  refine { h with
    once := fun y => (hcount y).trans_le (h.once y)
    known := fun y hy => (hcount y).trans (h.known y hy)
    placed := fun y hy => (hcount y).trans (h.placed y hy)
    lentBusy := fun p hp hlive => ?_
    held := fun y hy => h.held y (Finset.mem_of_mem_erase hy) }
  refine Finset.mem_erase.mpr ⟨fun hpx => ?_, h.lentBusy p hp hlive⟩
  exact hfree (hpx ▸ hlive) p.2 (hpx ▸ hp)

variable {c : ι}

/-- A live connection in hand is lent to a live caller whose ref is in hand. -/
theorem Inv.lend (h : Inv ms (x :: loose) (ref :: owed) gap w) (hx : x ∈ w.live) (hc : c ∉ w.dead) :
    Inv ms loose owed gap { w.lend c ref x with busy := insert x w.busy } := by
  have hnone := places_loose h
  have hbusy := not_busy_of_places hnone
  have hfree : ∀ p ∈ w.lent, p.1 ≠ x := fun p hp hpx =>
    hbusy (hpx ▸ h.lentBusy p hp (hpx ▸ hx))
  have hcount : ∀ y, places { w.lend c ref x with busy := insert x w.busy } y + loose.count y
      = w.places y + (x :: loose).count y := fun y => by
    by_cases hy : y = x
    · subst hy
      simp only [places, PoolWorld.lend, PoolWorld.reply, inSet_insert_self,
        inSet_of_notMem hbusy, List.count_cons_self]
      omega
    · simp only [places, PoolWorld.lend, PoolWorld.reply, inSet_insert_of_ne hy,
        List.count_cons_of_ne (Ne.symm hy)]
  refine { h with
    once := fun y => (hcount y).trans_le (h.once y)
    known := fun y hy => (hcount y).trans (h.known y hy)
    placed := fun y hy => (hcount y).trans (h.placed y hy)
    lentOnce := ?_
    lentLt := fun p hp => ?_
    lentBusy := fun p hp hlive => ?_
    lentAlive := fun p hp hlive => ?_
    held := fun y hy hlive => ?_
    tally := fun r => ?_ }
  · refine nodup_cons.mpr ⟨fun hm => ?_, h.lentOnce⟩
    obtain ⟨p, hp, hpx⟩ := mem_map.mp hm
    exact hfree p hp hpx
  · rcases mem_cons.mp hp with rfl | hp
    · exact h.monsLt x (live_known h hx)
    · exact h.lentLt p hp
  · rcases mem_cons.mp hp with rfl | hp
    · exact Finset.mem_insert_self x _
    · exact Finset.mem_insert_of_mem (h.lentBusy p hp hlive)
  · rcases mem_cons.mp hp with rfl | hp
    · exact hc
    · exact h.lentAlive p hp hlive
  · rcases Finset.mem_insert.mp hy with rfl | hy
    · exact Or.inl ⟨c, mem_cons_self⟩
    · exact (h.held y hy hlive).imp (fun ⟨d, hd⟩ => ⟨d, mem_cons_of_mem _ hd⟩) id
  · have ht := h.tally r
    simp only [PoolWorld.tally, PoolWorld.lend, PoolWorld.reply, map_cons, count_cons] at ht ⊢
    omega

/-- A ref in hand is answered without a connection. -/
theorem Inv.reply (h : Inv ms loose (ref :: owed) gap w) (answer : PoolAnswer) :
    Inv ms loose owed gap (w.reply ref answer) := by
  refine { h with tally := fun r => ?_ }
  have ht := h.tally r
  simp only [PoolWorld.tally, PoolWorld.reply, map_cons, count_cons] at ht ⊢
  omega

/-- A ref in hand is parked, when no connection is idle and the pool has no headroom. -/
theorem Inv.park (h : Inv ms loose (ref :: owed) gap w) (hidle : w.idle = [])
    (hfull : w.mons.card + gap = w.max) (c : ι) :
    Inv ms loose owed gap (w.enqueueWaiter c ref) := by
  refine { h with waiting := fun _ => ⟨hidle, hfull⟩, tally := fun r => ?_, armed := fun y hy => ?_ }
  · have ht := h.tally r
    simp only [PoolWorld.tally, enqueueWaiter, map_append, map_cons, map_nil,
      count_append, count_cons, count_nil] at ht ⊢
    omega
  · rcases mem_append.mp hy with hy | hy
    · exact (h.armed y hy).imp (Finset.mem_insert_of_mem ·) id
    · rw [mem_singleton] at hy
      rw [hy]
      exact Or.inl (Finset.mem_insert_self _ _)

variable {before after : List (Waiter ι)}

theorem ref_ne_of_waiter (h : Inv ms loose owed gap w)
    (hw : w.waiters = before ++ ⟨ref, c⟩ :: after) {y : Waiter ι} (hy : y ∈ before ++ after) :
    y.ref ≠ ref := by
  intro heq
  have hr := h.tally ref
  have hone := nodup_iff_count_le_one.mp h.asked.1 ref
  have hpos : 0 < ((before ++ after).map Waiter.ref).count ref :=
    count_pos_iff.mpr (heq ▸ mem_map_of_mem hy)
  simp only [PoolWorld.tally, hw, map_append, map_cons, count_append,
    List.count_cons_self] at hr hpos
  omega

/-- A waiter is taken out of the queue; his ref is in hand, his timer is of no use to others. -/
theorem Inv.unpark (h : Inv ms loose owed gap w) (hw : w.waiters = before ++ ⟨ref, c⟩ :: after)
    {timers : Finset Nat} (ht : w.timers.erase ref ⊆ timers) :
    Inv ms loose (ref :: owed) gap { w with timers, waiters := before ++ after } := by
  have htally : ∀ r, PoolWorld.tally { w with timers, waiters := before ++ after } r
      + [ref].count r = w.tally r := fun r => by
    simp only [PoolWorld.tally, hw, map_append, map_cons, count_append,
      count_cons, count_nil]
    omega
  refine { h with waiting := fun hne => h.waiting ?_, tally := fun r => ?_, armed := fun y hy => ?_ }
  · rw [hw]
    exact fun hnil => absurd (congrArg List.length hnil) (by simp)
  · have hr := h.tally r
    have hr' := htally r
    rw [count_cons, count_nil] at hr'
    rw [count_cons]
    show PoolWorld.tally { w with timers, waiters := before ++ after } r + _ + _ = w.asked.count r
    omega
  · have hy' : y ∈ w.waiters := by
      rw [hw]
      exact mem_append.mpr ((mem_append.mp hy).imp id (mem_cons_of_mem _))
    have hne : y.ref ≠ ref := ref_ne_of_waiter h hw hy
    exact (h.armed y hy').imp (fun hmem => ht (Finset.mem_erase.mpr ⟨hne, hmem⟩)) id

/-! ## Connections come and go -/

/-- A connection is opened: the new process is monitored and in hand. -/
theorem Inv.opened (h : Inv ms loose owed (gap + 1) w) (hroom : w.mons.card < w.max) :
    Inv ms (w.next :: loose) owed gap
      { w with live := insert w.next w.live, next := w.next + 1, mons := insert w.next w.mons } := by
  have hnew : w.next ∉ w.mons := fun hm => Nat.lt_irrefl _ (h.monsLt _ hm)
  have hnone := h.known _ hnew
  have hcard : (insert w.next w.mons).card = w.mons.card + 1 := Finset.card_insert_of_notMem hnew
  refine { h with
    monsLe := by rw [hcard]; exact hroom
    once := fun y => ?_
    known := fun y hy => ?_
    placed := fun y hy => ?_
    downDead := fun y hy => ?_
    noticed := fun y hy hlive => ?_
    monsLt := fun y hy => ?_
    waiting := fun hw => ?_
    lentLt := fun p hp => Nat.lt_succ_of_lt (h.lentLt p hp)
    lentBusy := fun p hp hlive => ?_
    lentAlive := fun p hp hlive => ?_
    held := fun y hy hlive => ?_
    asked := ⟨h.asked.1, fun r hr => Nat.lt_succ_of_lt (h.asked.2 r hr)⟩
    pings := fun r y hp => ?_
    checkingLt := fun p hp => Nat.lt_succ_of_lt (h.checkingLt p hp) }
  · show w.places y + (w.next :: loose).count y ≤ 1
    by_cases hy : y = w.next
    · rw [hy, List.count_cons_self]
      omega
    · rw [List.count_cons_of_ne (Ne.symm hy)]
      exact h.once y
  · obtain ⟨hne, hold⟩ := not_or.mp fun hor => hy (Finset.mem_insert.mpr hor)
    show w.places y + (w.next :: loose).count y = 0
    rw [List.count_cons_of_ne (Ne.symm hne)]
    exact h.known y hold
  · show w.places y + (w.next :: loose).count y = 1
    by_cases hyn : y = w.next
    · rw [hyn, List.count_cons_self]
      omega
    · rw [List.count_cons_of_ne (Ne.symm hyn)]
      exact h.placed y (Finset.mem_of_mem_insert_of_ne hy hyn)
  · obtain ⟨hdead, hlt⟩ := h.downDead y hy
    refine ⟨fun hm => ?_, Nat.lt_succ_of_lt hlt⟩
    exact (Finset.mem_insert.mp hm).elim (fun heq => Nat.lt_irrefl _ (heq ▸ hlt)) hdead
  · refine h.noticed y ?_ fun hl => hlive (Finset.mem_insert_of_mem hl)
    refine Finset.mem_of_mem_insert_of_ne hy fun heq => hlive ?_
    rw [heq]
    exact Finset.mem_insert_self _ _
  · rcases Finset.mem_insert.mp hy with rfl | hy
    · exact Nat.lt_succ_self _
    · exact Nat.lt_succ_of_lt (h.monsLt y hy)
  · obtain ⟨hidle, hcount⟩ := h.waiting hw
    refine ⟨hidle, ?_⟩
    show (insert w.next w.mons).card + gap = w.max
    omega
  · refine h.lentBusy p hp (Finset.mem_of_mem_insert_of_ne hlive fun heq => ?_)
    exact Nat.lt_irrefl _ (heq ▸ h.lentLt p hp)
  · refine h.lentAlive p hp (Finset.mem_of_mem_insert_of_ne hlive fun heq => ?_)
    exact Nat.lt_irrefl _ (heq ▸ h.lentLt p hp)
  · refine h.held y hy (Finset.mem_of_mem_insert_of_ne hlive fun heq => ?_)
    exact not_busy_of_places (w := w) (by omega) (heq ▸ hy)
  · obtain ⟨hlt, hagree⟩ := h.pings r y hp
    exact ⟨Nat.lt_succ_of_lt hlt, hagree⟩

theorem unread_eq_of_filter {keep : PoolMessage ι → Bool}
    (hkeep : ∀ c r, keep (.checkout c r) = true) (mail : List (PoolMessage ι)) :
    unread (mail.filter keep) = unread mail := by
  induction mail with
  | nil => rfl
  | cons m mail ih =>
    by_cases hm : keep m = true
    · rw [filter_cons_of_pos hm]
      cases m with
      | checkout c r => exact congrArg (r :: ·) ih
      | _ => exact ih
    · rw [filter_cons_of_neg hm, ih]
      cases m with
      | checkout c r => exact absurd (hkeep c r) hm
      | _ => rfl

/-- A connection the manager shuts and unmonitors, out of its hand. -/
theorem Inv.retire [DecidableEq ι] (h : Inv ms (x :: loose) owed gap w) (hx : x ∈ w.mons) :
    Inv ms loose owed (gap + 1) (w.retire x) := by
  have hnone := places_loose h
  have hidle : x ∉ w.idle := by
    unfold places at hnone
    exact count_eq_zero.mp (by omega)
  have hcheck := not_checking_of_places hnone
  have hbusy := not_busy_of_places hnone
  have hcard : (w.mons.erase x).card + 1 = w.mons.card := Finset.card_erase_add_one hx
  have hpos : 0 < w.mons.card := Finset.card_pos.mpr ⟨x, hx⟩
  have heq : w.retire x = { w with
      mail := w.mail.filter (· ≠ .down x), live := w.live.erase x,
      idle := w.idle, busy := w.busy, mons := w.mons.erase x,
      metas := Function.update w.metas x none } := by
    unfold PoolWorld.retire
    simp only [if_pos hx, erase_of_not_mem hidle, Finset.erase_eq_of_notMem hbusy]
  have hmem : ∀ m, m ∈ ms ++ w.mail.filter (· ≠ .down x) → m ∈ ms ++ w.mail := fun m hm =>
    mem_append.mpr ((mem_append.mp hm).imp id mem_of_mem_filter)
  have hkeep : ∀ m, m ≠ .down x → m ∈ ms ++ w.mail →
      m ∈ ms ++ w.mail.filter (· ≠ .down x) := fun m hne hm =>
    mem_append.mpr ((mem_append.mp hm).imp id fun hmail =>
      mem_filter.mpr ⟨hmail, decide_eq_true hne⟩)
  have hone := h.once x
  rw [List.count_cons_self] at hone
  rw [heq]
  refine { h with
    monsLe := (Finset.card_le_card (Finset.erase_subset _ _)).trans h.monsLe
    once := fun y => (Nat.add_le_add_left count_le_count_cons _).trans (h.once y)
    known := fun y hy => ?_
    placed := fun y hy => ?_
    downDead := fun y hy => ?_
    noticed := fun y hy hlive => ?_
    monsLt := fun y hy => h.monsLt y (Finset.mem_of_mem_erase hy)
    waiting := fun hw => ?_
    lentBusy := fun p hp hlive => h.lentBusy p hp (Finset.mem_of_mem_erase hlive)
    lentAlive := fun p hp hlive => h.lentAlive p hp (Finset.mem_of_mem_erase hlive)
    held := fun y hy hlive => ?_
    tally := fun r => ?_
    armed := fun y hy => (h.armed y hy).imp id (hkeep _ (by simp))
    pings := fun r y hp => h.pings r y (hp.imp id fun ⟨b, hb⟩ => ⟨b, hmem _ hb⟩) }
  · show w.places y + loose.count y = 0
    by_cases hyx : y = x
    · rw [hyx]
      omega
    · have h0 := h.known y fun hm => hy (Finset.mem_erase.mpr ⟨hyx, hm⟩)
      rwa [List.count_cons_of_ne (Ne.symm hyx)] at h0
  · have hyx : y ≠ x := Finset.ne_of_mem_erase hy
    have h1 := h.placed y (Finset.mem_of_mem_erase hy)
    rwa [List.count_cons_of_ne (Ne.symm hyx)] at h1
  · obtain ⟨hdead, hlt⟩ := h.downDead y (hmem _ hy)
    exact ⟨fun hm => hdead (Finset.mem_of_mem_erase hm), hlt⟩
  · have hyx : y ≠ x := Finset.ne_of_mem_erase hy
    refine hkeep _ (by simpa using hyx) (h.noticed y (Finset.mem_of_mem_erase hy) fun hl => ?_)
    exact hlive (Finset.mem_erase.mpr ⟨hyx, hl⟩)
  · obtain ⟨hnil, hcount⟩ := h.waiting hw
    refine ⟨hnil, ?_⟩
    show (w.mons.erase x).card + (gap + 1) = w.max
    omega
  · exact (h.held y hy (Finset.mem_of_mem_erase hlive)).imp id (hkeep _ (by simp))
  · have hr := h.tally r
    have hunread : unread (w.mail.filter (· ≠ .down x)) = unread w.mail :=
      unread_eq_of_filter (fun _ _ => decide_eq_true (by simp)) w.mail
    simp only [PoolWorld.tally, hunread] at hr ⊢
    exact hr

theorem count_snd (checking : List (Nat × Worker)) (y : Worker) :
    (checking.map Prod.snd).count y = checking.countP fun c => c.2 = y := by
  rw [count_eq_countP, countP_map]
  refine countP_congr fun c _ => ?_
  simp

/-- A connection that died is forgotten. -/
theorem Inv.forget (h : Inv ms [] owed gap w) (hx : x ∉ w.live) (hm : x ∈ w.mons) :
    Inv ms [] owed (gap + 1) (w.forget x) := by
  have hcard : (w.mons.erase x).card + 1 = w.mons.card := Finset.card_erase_add_one hm
  have hle : ∀ y, (w.forget x).places y ≤ w.places y := fun y => by
    simp only [places, PoolWorld.forget]
    have h1 : (w.idle.erase x).count y ≤ w.idle.count y := erase_sublist.count_le y
    have h2 : ((w.checking.filter fun c => c.2 ≠ x).map Prod.snd).count y
        ≤ (w.checking.map Prod.snd).count y :=
      (filter_sublist.map _).count_le y
    have h3 : inSet (w.busy.erase x) y ≤ inSet w.busy y := by
      by_cases hy : y ∈ w.busy.erase x
      · rw [inSet_of_mem hy, inSet_of_mem (Finset.mem_of_mem_erase hy)]
      · rw [inSet_of_notMem hy]
        exact Nat.zero_le _
    omega
  have heq : ∀ y, y ≠ x → (w.forget x).places y = w.places y := fun y hy => by
    have hchecking : ((w.checking.filter fun c => c.2 ≠ x).map Prod.snd).count y
        = (w.checking.map Prod.snd).count y := by
      rw [count_snd, count_snd, countP_filter]
      refine countP_congr fun c _ => ?_
      simp only [Bool.and_eq_true, decide_eq_true_eq]
      exact ⟨And.left, fun hc => ⟨hc, hc ▸ hy⟩⟩
    simp only [places, PoolWorld.forget, hchecking, count_erase_of_ne hy,
      inSet_erase_of_ne hy]
  have hnone : (w.forget x).places x = 0 := by
    have hidle : (w.idle.erase x).count x = w.idle.count x - 1 := count_erase_self
    have honce := h.once x
    have hchecking : x ∉ (w.checking.filter fun c => c.2 ≠ x).map Prod.snd := by
      intro hc
      obtain ⟨c, hc, hcx⟩ := mem_map.mp hc
      exact of_decide_eq_true (mem_filter.mp hc).2 hcx
    simp only [places, PoolWorld.forget, inSet_erase_self, hidle,
      count_eq_zero.mpr hchecking] at honce ⊢
    omega
  refine { h with
    monsLe := (Finset.card_le_card (Finset.erase_subset _ _)).trans h.monsLe
    once := fun y => (hle y).trans (h.once y)
    known := fun y hy => ?_
    placed := fun y hy => ?_
    noticed := fun y hy hlive => h.noticed y (Finset.mem_of_mem_erase hy) hlive
    monsLt := fun y hy => h.monsLt y (Finset.mem_of_mem_erase hy)
    waiting := fun hw => ?_
    lentBusy := fun p hp hlive => ?_
    held := fun y hy hlive => h.held y (Finset.mem_of_mem_erase hy) hlive
    pings := fun r y hp => ?_
    checkingLt := fun p hp => h.checkingLt p (mem_of_mem_filter hp) }
  · show (w.forget x).places y + 0 = 0
    by_cases hyx : y = x
    · rw [hyx, hnone]
    · rw [heq y hyx]
      exact h.known y fun hmem => hy (Finset.mem_erase.mpr ⟨hyx, hmem⟩)
  · have hyx : y ≠ x := fun hyx => hx (hyx ▸ hy)
    rw [heq y hyx]
    exact h.placed y hy
  · obtain ⟨hnil, hcount⟩ := h.waiting hw
    refine ⟨?_, ?_⟩
    · show w.idle.erase x = []
      rw [hnil]
      rfl
    · show (w.mons.erase x).card + (gap + 1) = w.max
      omega
  · exact Finset.mem_erase.mpr ⟨fun hpx => hx (hpx ▸ hlive), h.lentBusy p hp hlive⟩
  · obtain ⟨hlt, hagree⟩ := h.pings r y hp
    exact ⟨hlt, fun z hz => hagree z (mem_of_mem_filter hz)⟩

/-- One the manager does not know is nowhere. -/
theorem Inv.forget_unknown (h : Inv ms loose owed gap w) (hm : x ∉ w.mons) :
    Inv ms loose owed gap (w.forget x) := by
  have hnone := h.known x hm
  unfold places at hnone
  have hidle : x ∉ w.idle := count_eq_zero.mp (by omega)
  have hbusy : x ∉ w.busy := not_busy_of_places (w := w) (by unfold places; omega)
  have hcheck : x ∉ w.checking.map Prod.snd := count_eq_zero.mp (by omega)
  have hfilter : (w.checking.filter fun c => c.2 ≠ x) = w.checking :=
    filter_eq_self.mpr fun c hc =>
      decide_eq_true fun hcx => hcheck (hcx ▸ mem_map_of_mem hc)
  have heq : w.forget x = { w with metas := Function.update w.metas x none } := by
    unfold PoolWorld.forget
    rw [Finset.erase_eq_of_notMem hm, erase_of_not_mem hidle,
      Finset.erase_eq_of_notMem hbusy, hfilter]
  rw [heq]
  exact h.stamp _

/-! ## Health checks -/

/-- A health check of a connection in hand begins. -/
theorem Inv.startPing (h : Inv ms (x :: loose) owed gap w) (now : Int) :
    Inv ms loose owed gap (w.startPing now x) := by
  have hcount : ∀ y, (w.startPing now x).places y + loose.count y
      = w.places y + (x :: loose).count y := fun y => by
    simp only [places, PoolWorld.startPing, map_cons, count_cons]
    omega
  refine { h with
    once := fun y => (hcount y).trans_le (h.once y)
    known := fun y hy => (hcount y).trans (h.known y hy)
    placed := fun y hy => (hcount y).trans (h.placed y hy)
    downDead := fun y hy => (h.downDead y hy).imp id Nat.lt_succ_of_lt
    monsLt := fun y hy => Nat.lt_succ_of_lt (h.monsLt y hy)
    lentLt := fun p hp => Nat.lt_succ_of_lt (h.lentLt p hp)
    asked := ⟨h.asked.1, fun r hr => Nat.lt_succ_of_lt (h.asked.2 r hr)⟩
    pings := fun r y hp => ?_
    checkingLt := fun p hp => ?_ }
  · -- The new check has a ref of its own.
    have hold : ∀ r y, ((r, y) ∈ w.pings ∨ ∃ b, .pingDone r y b ∈ ms ++ w.mail) →
        r < w.next + 1 ∧ ∀ z, (r, z) ∈ (w.next, x) :: w.checking → y = z := fun r y hp => by
      obtain ⟨hlt, hagree⟩ := h.pings r y hp
      refine ⟨Nat.lt_succ_of_lt hlt, fun z hz => ?_⟩
      rcases mem_cons.mp hz with heq | hz
      · cases heq
        exact absurd hlt (Nat.lt_irrefl _)
      · exact hagree z hz
    rcases hp with hp | hp
    · rcases mem_cons.mp hp with heq | hp
      · cases heq
        refine ⟨Nat.lt_succ_self _, fun z hz => ?_⟩
        rcases mem_cons.mp hz with heq | hz
        · cases heq
          rfl
        · exact absurd (h.checkingLt _ hz) (Nat.lt_irrefl _)
      · exact hold r y (Or.inl hp)
    · exact hold r y (Or.inr hp)
  · rcases mem_cons.mp hp with rfl | hp
    · exact Nat.lt_succ_self _
    · exact Nat.lt_succ_of_lt (h.checkingLt p hp)

/-- A health check that is over leaves its connection in hand. -/
theorem Inv.uncheck (h : Inv ms [] owed gap w) (hx : (ref, x) ∈ w.checking)
    (honly : ∀ y, (ref, y) ∈ w.checking → x = y) :
    Inv ms [x] owed gap { w with checking := w.checking.filter fun c => c.1 ≠ ref } := by
  -- Only `x` is being checked under this ref, and that once.
  have hsplit : ∀ y, (w.checking.map Prod.snd).count y
      = ((w.checking.filter fun c => c.1 ≠ ref).map Prod.snd).count y
        + ((w.checking.filter fun c => c.1 = ref).map Prod.snd).count y := fun y => by
    rw [count_snd, count_snd, count_snd, Nat.add_comm,
      countP_eq_countP_filter_add w.checking _ fun c => decide (c.1 = ref)]
    congr 2
    refine filter_congr fun c _ => ?_
    simp
  have hone : ∀ y, ((w.checking.filter fun c => c.1 = ref).map Prod.snd).count y
      = [x].count y := fun y => by
    by_cases hy : y = x
    · subst hy
      have hpos : 0 < ((w.checking.filter fun c => c.1 = ref).map Prod.snd).count y :=
        count_pos_iff.mpr (mem_map.mpr
          ⟨(ref, y), mem_filter.mpr ⟨hx, decide_eq_true rfl⟩, rfl⟩)
      have honce := h.once y
      have hs := hsplit y
      unfold places at honce
      rw [count_singleton_self]
      omega
    · rw [List.count_cons_of_ne (Ne.symm hy), count_nil, count_eq_zero]
      intro hm
      obtain ⟨c, hc, hcy⟩ := mem_map.mp hm
      obtain ⟨hc, hcr⟩ := mem_filter.mp hc
      refine hy (hcy ▸ (honly c.2 ?_).symm)
      rwa [← of_decide_eq_true hcr]
  have hcount : ∀ y, places { w with checking := w.checking.filter fun c => c.1 ≠ ref } y
      + [x].count y = w.places y + ([] : List Worker).count y := fun y => by
    have hs := hsplit y
    rw [hone] at hs
    simp only [places, count_nil]
    omega
  exact h.move (fun y => (hcount y).le) (fun y _ => hcount y) (fun hw => (h.waiting hw).1)
    (filter_subset_self _)

end

end PoolWorld

end Ridge
