import Ridge.Pool.Sessions

/-!
# ridge_pg — lent connections are clean

`SessionsClean` says of a state that the connections the pool may lend are clean and that a
transaction's connection is its process's own; `sessionsClean_of_careful` that this holds all along
a run in which no process stops waiting for the begin or the end of a transaction before the
connection is through with it.
-/

namespace Ridge

open List Function Option

variable {outcome : Outcome}

section

variable {ι : Type}

/-- No transaction is open, and no request in the mailbox will open one. -/
def Conn.Clean (k : Conn ι) : Prop := k.session = none ∧ ∀ r ∈ k.queue, r.sql ≠ .begin

namespace Conn

variable {k : Conn ι}

/-- Nothing of a transaction on the connection or on its way. -/
def Quiet (k : Conn ι) : Prop := k.session = none ∧ ∀ r ∈ k.queue, r.sql.inner = true

/-- The connection has `c`'s `BEGIN` before it, or it is through with it. -/
def Beginning (c : ι) (ref : Nat) (k : Conn ι) : Prop :=
  (k.session = none ∧ (∀ b, (ref, b) ∉ k.answers) ∧
    ∃ stale r, k.queue = stale ++ [r] ∧ (∀ s ∈ stale, s.sql.inner = true ∧ s.ref ≠ ref) ∧
      r.sql = .begin ∧ r.sender = some c ∧ r.ref = ref) ∨
  (k.session = some (some c) ∧ k.queue = [] ∧ (ref, false) ∉ k.answers) ∨
  (k.session = none ∧ k.queue = [] ∧ (ref, true) ∉ k.answers)

/-- The connection is in `c`'s transaction. -/
def Inside (c : ι) (k : Conn ι) : Prop :=
  k.session = some (some c) ∧ ∀ r ∈ k.queue, r.sender = some c ∧ r.sql.inner = true

/-- The connection has the end of `c`'s transaction before it, or it is through with it. -/
def Ending (c : ι) (ref : Nat) (k : Conn ι) : Prop :=
  (k.session = some (some c) ∧ (∀ b, (ref, b) ∉ k.answers) ∧
    ∃ inside r, k.queue = inside ++ [r] ∧
      (∀ s ∈ inside, s.sender = some c ∧ s.sql.inner = true ∧ s.ref ≠ ref) ∧
      (r.sql = .commit ∨ r.sql = .rollback) ∧ r.sender = some c ∧ r.ref = ref) ∨
  (k.session = none ∧ k.queue = [])

theorem Quiet.clean (h : k.Quiet) : k.Clean :=
  ⟨h.1, fun r hr hb => by
    have hi := h.2 r hr
    rw [hb] at hi
    exact Bool.false_ne_true hi⟩

variable {r : Request ι}

theorem sessionAfter_inner {session : Option (Option ι)} (h : r.sql.inner = true) (ok : Bool) :
    sessionAfter session r ok = session := by
  unfold sessionAfter
  cases hs : r.sql <;> first | rfl | (rw [hs] at h; cases h)

/-- An outcome that leaves the connection alive. -/
def okOf : Outcome → Bool
  | .done => true
  | .failed | .fatal => false

/-- What a live connection has done to its first request, if it is still alive. -/
theorem run_cons {rest : List (Request ι)} (hq : k.queue = r :: rest)
    (hl : (k.run outcome).live = true) :
    k.run outcome = { k with
      queue := rest
      session := sessionAfter k.session r (okOf outcome)
      answers := (r.ref, okOf outcome) :: k.answers } := by
  unfold run at hl ⊢
  rw [hq] at hl ⊢
  cases hlive : k.live
  · rw [hlive] at hl
    exact absurd (hlive ▸ hl) Bool.false_ne_true
  · rw [hlive] at hl
    cases outcome
    · rfl
    · rfl
    · exact absurd hl Bool.false_ne_true

theorem run_nil (hq : k.queue = []) (outcome : Outcome) : k.run outcome = k := by
  unfold run
  rw [hq]
  cases k.live <;> rfl

theorem run_held (k : Conn ι) (outcome : Outcome) : (k.run outcome).held = k.held := by
  unfold run
  split
  · cases outcome <;> rfl
  · rfl

theorem live_of_run (h : (k.run outcome).live = true) : k.live = true := by
  unfold run at h
  split at h
  · assumption
  · exact h

theorem Quiet.run (h : k.Quiet) (hl : (k.run outcome).live = true) : (k.run outcome).Quiet := by
  cases hq : k.queue with
  | nil => rwa [run_nil hq]
  | cons r rest =>
    rw [run_cons hq hl]
    have hr : r.sql.inner = true := h.2 r (by rw [hq]; exact mem_cons_self)
    refine ⟨?_, fun s hs => h.2 s (by rw [hq]; exact mem_cons_of_mem _ hs)⟩
    show sessionAfter k.session r _ = none
    rw [sessionAfter_inner hr, h.1]

variable {c : ι}

theorem Inside.run (h : k.Inside c) (hl : (k.run outcome).live = true) :
    (k.run outcome).Inside c := by
  cases hq : k.queue with
  | nil => rwa [run_nil hq]
  | cons r rest =>
    rw [run_cons hq hl]
    have hr := (h.2 r (by rw [hq]; exact mem_cons_self)).2
    refine ⟨?_, fun s hs => h.2 s (by rw [hq]; exact mem_cons_of_mem _ hs)⟩
    show sessionAfter k.session r _ = _
    rw [sessionAfter_inner hr, h.1]

/-- The requests before a last one: the last one is next, or it stays the last. -/
theorem append_singleton_cases {α : Type} {init rest : List α} {last x : α}
    (h : init ++ [last] = x :: rest) :
    (init = [] ∧ x = last ∧ rest = []) ∨ ∃ init', init = x :: init' ∧ rest = init' ++ [last] := by
  cases init with
  | nil =>
    cases h
    exact .inl ⟨rfl, rfl, rfl⟩
  | cons y init' =>
    cases h
    exact .inr ⟨init', rfl, rfl⟩

theorem Beginning.run {ref : Nat} (h : k.Beginning c ref) (hl : (k.run outcome).live = true) :
    (k.run outcome).Beginning c ref := by
  rcases h with ⟨hs, hansw, stale, r, hq, hstale, hr, hsender, href⟩ | h | h
  · obtain ⟨x, rest, hx⟩ : ∃ x rest, k.queue = x :: rest := by
      rw [hq]
      cases stale with
      | nil => exact ⟨r, [], rfl⟩
      | cons s stale => exact ⟨s, stale ++ [r], rfl⟩
    rw [run_cons hx hl]
    rcases append_singleton_cases (hq ▸ hx) with ⟨rfl, rfl, rfl⟩ | ⟨stale', rfl, rfl⟩
    · -- The `BEGIN` itself.
      have hnew : ∀ b, (ref, b) ∈ (x.ref, okOf outcome) :: k.answers → b = okOf outcome :=
        fun b hb => by
          rcases mem_cons.mp hb with heq | hb
          · exact (Prod.mk.inj heq).2
          · exact absurd hb (hansw b)
      have hsess : sessionAfter k.session x (okOf outcome)
          = if okOf outcome then some (some c) else none := by
        unfold sessionAfter
        rw [hr, hs, hsender]
        rfl
      cases hok : okOf outcome
      · rw [hok] at hsess hnew
        exact .inr (.inr ⟨hsess, rfl, fun hm => Bool.false_ne_true (hnew true hm).symm⟩)
      · rw [hok] at hsess hnew
        exact .inr (.inl ⟨hsess, rfl, fun hm => Bool.false_ne_true (hnew false hm)⟩)
    · -- A request left over from before.
      obtain ⟨hinner, hne⟩ := hstale x mem_cons_self
      refine .inl ⟨?_, fun b hb => ?_, stale', r, rfl,
        fun s hs' => hstale s (mem_cons_of_mem _ hs'), hr, hsender, href⟩
      · show sessionAfter k.session x _ = none
        rw [sessionAfter_inner hinner, hs]
      · rcases mem_cons.mp hb with heq | hb
        · exact hne (Prod.mk.inj heq).1.symm
        · exact hansw b hb
  · rw [run_nil h.2.1]
    exact .inr (.inl h)
  · rw [run_nil h.2.1]
    exact .inr (.inr h)

theorem Ending.run {ref : Nat} (h : k.Ending c ref) (hl : (k.run outcome).live = true)
    (hback : outcome = .failed → ∀ r ∈ k.queue.head?, r.sql = .rollback → k.session = none) :
    (k.run outcome).Ending c ref := by
  rcases h with ⟨hs, hansw, inside, r, hq, hinside, hr, hsender, href⟩ | h
  · obtain ⟨x, rest, hx⟩ : ∃ x rest, k.queue = x :: rest := by
      rw [hq]
      cases inside with
      | nil => exact ⟨r, [], rfl⟩
      | cons s inside => exact ⟨s, inside ++ [r], rfl⟩
    rw [run_cons hx hl]
    rcases append_singleton_cases (hq ▸ hx) with ⟨rfl, rfl, rfl⟩ | ⟨inside', rfl, rfl⟩
    · -- The end itself.
      refine .inr ⟨?_, rfl⟩
      show sessionAfter k.session x (okOf outcome) = none
      unfold sessionAfter
      rcases hr with hr | hr
      · rw [hr]
      · rw [hr]
        cases outcome with
        | done => rfl
        | failed => exact hback rfl x (by rw [hx]; rfl) hr
        | fatal =>
          have hlive := live_of_run hl
          unfold Conn.run at hl
          rw [hx, hlive] at hl
          exact absurd hl Bool.false_ne_true
    · obtain ⟨-, hinner, hne⟩ := hinside x mem_cons_self
      refine .inl ⟨?_, fun b hb => ?_, inside', r, rfl,
        fun s hs' => hinside s (mem_cons_of_mem _ hs'), hr, hsender, href⟩
      · show sessionAfter k.session x _ = _
        rw [sessionAfter_inner hinner, hs]
      · rcases mem_cons.mp hb with heq | hb
        · exact hne (Prod.mk.inj heq).1.symm
        · exact hansw b hb
  · rw [run_nil h.2]
    exact .inr h

end Conn

/-- The connection a process has. -/
def Client.place : Client → Option ConnId
  | .borrowed x _ => some x
  | .beginning _ x _ => some x
  | .pinned pin _ => some pin.conn
  | .ending pin _ => some pin.conn
  | .free | .wants _ => none

/-- A connection and the process that has it. -/
def Client.Role (c : ι) (x : ConnId) (k : Conn ι) : Client → Prop
  | .borrowed y _ => y = x ∧ k.Quiet
  | .beginning _ y ref => y = x ∧ k.Beginning c ref
  | .pinned pin _ => pin.conn = x ∧ k.Inside c
  | .ending pin ref => pin.conn = x ∧ k.Ending c ref
  | .free | .wants _ => False

/-- A connection and whoever has it. -/
def Conn.Fits (client : ι → Client) (x : ConnId) (k : Conn ι) : Prop :=
  match k.held with
  | some (.caller c) => (client c).Role c x k
  | some (.check _) => k.Quiet
  | none => k.Quiet

theorem Client.place_of_role {c : ι} {x : ConnId} {k : Conn ι} {p : Client} (h : p.Role c x k) :
    p.place = some x := by
  cases p with
  | free => exact h.elim
  | wants => exact h.elim
  | borrowed y _ | beginning _ y _ | pinned pin _ | ending pin _ => exact congrArg some h.1

namespace ClientWorld

structure Inv (w : ClientWorld ι) : Prop where
  fits : ∀ x, (w.conn x).live = true → (w.conn x).Fits w.client x
  holds : ∀ c x, (w.client c).place = some x → (w.conn x).live = true →
    (w.conn x).held = some (.caller c)
  refs : ∀ x, (∀ r ∈ (w.conn x).queue, r.ref < w.next) ∧
    ∀ a ∈ (w.conn x).answers, a.1 < w.next
  pinned : ∀ x, ∀ r ∈ (w.conn x).queue, ∀ y, r.pinned = some y → y = x
  wants : ∀ c sql, w.client c = .wants (.verb sql) → sql.inner = true

variable [DecidableEq ι] {w : ClientWorld ι} {x : ConnId} {k : Conn ι} {c : ι} {p : Client}

omit [DecidableEq ι] in
/-- A connection changes under whoever has it. -/
theorem Inv.setConn (h : Inv w) (hfits : k.live = true → k.Fits w.client x)
    (hheld : k.live = true → ∀ d, (w.client d).place = some x → k.held = some (.caller d))
    {n : Nat} (hn : w.next ≤ n) (hrefs : (∀ r ∈ k.queue, r.ref < n) ∧ ∀ a ∈ k.answers, a.1 < n)
    (hpinned : ∀ r ∈ k.queue, ∀ y, r.pinned = some y → y = x) :
    Inv { w.setConn x k with next := n } := by
  have hcases : ∀ (P : ConnId → Conn ι → Prop), P x k → (∀ y, y ≠ x → P y (w.conn y)) →
      ∀ y, P y (update w.conn x k y) := fun P hx hy y => by
    by_cases hyx : y = x
    · subst hyx
      rwa [update_self]
    · rw [update_of_ne hyx]
      exact hy y hyx
  refine ⟨?_, fun d => ?_, ?_, ?_, h.wants⟩
  · exact hcases (fun y k => k.live = true → k.Fits w.client y) hfits fun y _ => h.fits y
  · exact hcases (fun y k => (w.client d).place = some y → k.live = true →
      k.held = some (.caller d)) (fun hp hl => hheld hl d hp) fun y _ => h.holds d y
  · refine hcases (fun _ k => (∀ r ∈ k.queue, r.ref < n) ∧ ∀ a ∈ k.answers, a.1 < n) hrefs
      fun y _ => ?_
    exact ⟨fun r hr => Nat.lt_of_lt_of_le ((h.refs y).1 r hr) hn,
      fun a ha => Nat.lt_of_lt_of_le ((h.refs y).2 a ha) hn⟩
  · exact hcases (fun y k => ∀ r ∈ k.queue, ∀ z, r.pinned = some z → z = y) hpinned
      fun y _ => h.pinned y

/-- A process changes together with the one connection it has to do with. -/
theorem Inv.setBoth (h : Inv w) (hplace : ∀ y, (w.client c).place = some y → y = x)
    (hlive : k.live = true → (w.conn x).live = true)
    (hown : (w.conn x).live = true → ∀ d, d ≠ c → (w.conn x).held ≠ some (.caller d))
    (hrole : k.live = true → (k.held = some (.caller c) ∧ p.Role c x k) ∨
      (k.held = none ∧ p.place = none ∧ k.Quiet))
    (hplace' : ∀ y, p.place = some y → y = x) (hwants : ∀ sql, p ≠ .wants (.verb sql))
    {n : Nat} (hn : w.next ≤ n) (hrefs : (∀ r ∈ k.queue, r.ref < n) ∧ ∀ a ∈ k.answers, a.1 < n)
    (hpinned : ∀ r ∈ k.queue, ∀ y, r.pinned = some y → y = x) :
    Inv (setClient { w.setConn x k with next := n } c p) := by
  refine ⟨fun y hl => ?_, fun d y hp hl => ?_, fun y => ?_, fun y r hr => ?_, fun d sql hd => ?_⟩
  · by_cases hyx : y = x
    · subst hyx
      have hk : update w.conn y k y = k := update_self ..
      show (update w.conn y k y).Fits _ y
      have hl' : (update w.conn y k y).live = true := hl
      rw [hk] at hl' ⊢
      unfold Conn.Fits
      rcases hrole hl' with ⟨hheld, hr⟩ | ⟨hheld, -, hq⟩
      · rw [hheld]
        show (update w.client c p c).Role c y k
        rwa [update_self]
      · rwa [hheld]
    · have hk : update w.conn x k y = w.conn y := update_of_ne hyx ..
      show (update w.conn x k y).Fits _ y
      have hl' : (update w.conn x k y).live = true := hl
      rw [hk] at hl' ⊢
      have hf := h.fits y hl'
      unfold Conn.Fits at hf ⊢
      -- Another connection is not the process's, before or after.
      split at hf
      · next d _ =>
        have hd : d ≠ c := by
          rintro rfl
          exact hyx (hplace y (Client.place_of_role hf))
        show (update w.client c p d).Role d y (w.conn y)
        rwa [update_of_ne hd]
      · exact hf
      · exact hf
  · have hp' : (update w.client c p d).place = some y := hp
    have hl' : (update w.conn x k y).live = true := hl
    show (update w.conn x k y).held = some (.caller d)
    by_cases hd : d = c
    · subst hd
      rw [update_self] at hp'
      obtain rfl := hplace' y hp'
      rw [update_self] at hl' ⊢
      rcases hrole hl' with ⟨hheld, -⟩ | ⟨-, hnone, -⟩
      · exact hheld
      · rw [hnone] at hp'
        cases hp'
    · rw [update_of_ne hd] at hp'
      by_cases hyx : y = x
      · subst hyx
        rw [update_self] at hl'
        have hl0 := hlive hl'
        exact absurd (h.holds d y hp' hl0) (hown hl0 d hd)
      · rw [update_of_ne hyx] at hl' ⊢
        exact h.holds d y hp' hl'
  · show (∀ r ∈ (update w.conn x k y).queue, r.ref < n) ∧
      ∀ a ∈ (update w.conn x k y).answers, a.1 < n
    by_cases hyx : y = x
    · subst hyx
      rwa [update_self]
    · rw [update_of_ne hyx]
      exact ⟨fun r hr => Nat.lt_of_lt_of_le ((h.refs y).1 r hr) hn,
        fun a ha => Nat.lt_of_lt_of_le ((h.refs y).2 a ha) hn⟩
  · have hr' : r ∈ (update w.conn x k y).queue := hr
    by_cases hyx : y = x
    · subst hyx
      rw [update_self] at hr'
      exact hpinned r hr'
    · rw [update_of_ne hyx] at hr'
      exact h.pinned y r hr'
  · have hd' : update w.client c p d = .wants (.verb sql) := hd
    by_cases hdc : d = c
    · subst hdc
      rw [update_self] at hd'
      exact absurd hd' (hwants sql)
    · rw [update_of_ne hdc] at hd'
      exact h.wants d sql hd'

/-- A process that has no connection changes. -/
theorem Inv.setClient (h : Inv w) (hbefore : (w.client c).place = none)
    (hafter : p.place = none) (hwants : ∀ sql, p = .wants (.verb sql) → sql.inner = true) :
    Inv (w.setClient c p) := by
  refine ⟨fun y hl => ?_, fun d y hp hl => ?_, h.refs, h.pinned, fun d sql hd => ?_⟩
  · have hf := h.fits y hl
    unfold Conn.Fits at hf ⊢
    show match (w.conn y).held with
      | some (.caller d) => (update w.client c p d).Role d y (w.conn y)
      | some (.check _) | none => (w.conn y).Quiet
    split at hf
    · next d _ =>
      have hd : d ≠ c := by
        rintro rfl
        have hsome := Client.place_of_role hf
        rw [hbefore] at hsome
        cases hsome
      rwa [update_of_ne hd]
    · exact hf
    · exact hf
  · have hp' : (update w.client c p d).place = some y := hp
    by_cases hd : d = c
    · subst hd
      rw [update_self, hafter] at hp'
      cases hp'
    · rw [update_of_ne hd] at hp'
      exact h.holds d y hp' hl

  · have hd' : update w.client c p d = .wants (.verb sql) := hd
    by_cases hdc : d = c
    · subst hdc
      rw [update_self] at hd'
      exact hwants sql hd'
    · rw [update_of_ne hdc] at hd'
      exact h.wants d sql hd'

/-! ## Calls -/

omit [DecidableEq ι] in
/-- A live connection a process has is held by it, in the process's role. -/
theorem Inv.role (h : Inv w) (hp : (w.client c).place = some x) (hl : (w.conn x).live = true) :
    (w.conn x).held = some (.caller c) ∧ (w.client c).Role c x (w.conn x) := by
  have hheld := h.holds c x hp hl
  have hf := h.fits x hl
  unfold Conn.Fits at hf
  rw [hheld] at hf
  exact ⟨hheld, hf⟩

omit [DecidableEq ι] in
theorem Inv.sole (h : Inv w) (hp : (w.client c).place = some x) (hl : (w.conn x).live = true)
    (d : ι) (hd : d ≠ c) : (w.conn x).held ≠ some (.caller d) := by
  rw [h.holds c x hp hl]
  rintro heq
  cases heq
  exact hd rfl

omit [DecidableEq ι] in
theorem Inv.refs_receive (h : Inv w) (r : Request ι) (hr : r.ref = w.next) (x : ConnId) :
    (∀ s ∈ ((w.conn x).receive r).queue, s.ref < w.next + 1) ∧
      ∀ a ∈ ((w.conn x).receive r).answers, a.1 < w.next + 1 := by
  refine ⟨fun s hs => ?_, fun a ha => Nat.lt_succ_of_lt ((h.refs x).2 a ha)⟩
  rcases mem_append.mp hs with hs | hs
  · exact Nat.lt_succ_of_lt ((h.refs x).1 s hs)
  · rw [mem_singleton.mp hs, hr]
    exact Nat.lt_succ_self _

omit [DecidableEq ι] in
theorem Inv.pinned_receive (h : Inv w) (r : Request ι) (x : ConnId)
    (hr : ∀ y, r.pinned = some y → y = x) :
    ∀ s ∈ ((w.conn x).receive r).queue, ∀ y, s.pinned = some y → y = x := by
  intro s hs
  rcases mem_append.mp hs with hs | hs
  · exact h.pinned x s hs
  · rw [mem_singleton.mp hs]
    exact hr

variable {pin : Pin}

variable {sql : TxSql}

/-- A process in a transaction sends a statement of it. -/
theorem Inv.sendPinned (h : Inv w) (hc : w.client c = .pinned pin none)
    (hplace : p.place = some pin.conn) (hwants : ∀ sql, p ≠ .wants (.verb sql))

    (hrole : (w.conn pin.conn).Inside c → p.Role c pin.conn ((w.conn pin.conn).receive ⟨some c, w.next, sql, some pin.conn⟩)) :
    Inv ((w.send (some c) pin.conn sql (some pin.conn)).setClient c p) := by
  have hplaced : (w.client c).place = some pin.conn := by rw [hc]; rfl
  refine h.setBoth (k := (w.conn pin.conn).receive ⟨some c, w.next, sql, some pin.conn⟩)
    (fun y hy => some.inj (hy.symm.trans hplaced)) id (h.sole hplaced) (fun hl => .inl ?_)
    (fun y hy => some.inj (hy.symm.trans hplace)) hwants (Nat.le_succ _)
    (h.refs_receive _ rfl _) (h.pinned_receive _ _ fun y hy => (some.inj hy).symm)
  obtain ⟨hheld, hinside⟩ := h.role hplaced hl
  rw [hc] at hinside
  exact ⟨hheld, hrole hinside.2⟩

/-- A request of a process in a transaction, short of its end. -/
theorem Inv.sendInside (h : Inv w) (hc : w.client c = .pinned pin none) (hsql : sql.inner = true)
    (what : Await) :
    Inv ((w.send (some c) pin.conn sql (some pin.conn)).setClient c
      (.pinned pin (some (what, w.next)))) := by
  refine h.sendPinned hc rfl (fun _ he => nomatch he) fun ⟨hsess, hqueue⟩ =>
    ⟨rfl, hsess, fun s hs => ?_⟩
  rcases mem_append.mp hs with hs | hs
  · exact hqueue s hs
  · rw [mem_singleton.mp hs]
    exact ⟨rfl, hsql⟩

theorem Inv.sendEnd (h : Inv w) (hc : w.client c = .pinned pin none)
    (hsql : sql = .commit ∨ sql = .rollback) :
    Inv ((w.send (some c) pin.conn sql (some pin.conn)).setClient c (.ending pin w.next)) := by
  refine h.sendPinned hc rfl (fun _ he => nomatch he) fun ⟨hsess, hqueue⟩ =>
    ⟨rfl, .inl ⟨hsess, fun b hb => ?_, _, _, rfl, fun s hs => ?_, hsql, rfl, rfl⟩⟩
  · exact Nat.lt_irrefl _ ((h.refs pin.conn).2 _ hb)
  · obtain ⟨hsender, hinner⟩ := hqueue s hs
    exact ⟨hsender, hinner, fun heq => Nat.lt_irrefl _ (heq ▸ (h.refs pin.conn).1 s hs)⟩

theorem Inv.callPinned (h : Inv w) (hc : w.client c = .pinned pin none) {op : Call}
    (hop : ∀ sql, op = .verb sql → sql.inner = true) : Inv (w.callPinned c pin op) := by
  cases op with
  | verb sql => exact h.sendInside hc (hop sql rfl) .verb
  | begin level =>
    show Inv (if _ then _ else w)
    split
    · exact h.sendInside hc rfl .savepoint
    · exact h
  | commit =>
    show Inv (if _ then _ else if _ then _ else w)
    split
    · exact h.sendEnd hc (.inl rfl)
    · split
      · exact h.sendInside hc rfl .nested
      · exact h
  | rollback =>
    show Inv (if _ then _ else if _ then _ else w)
    split
    · exact h.sendEnd hc (.inr rfl)
    · split
      · exact h.sendInside hc rfl .nested
      · exact h

theorem Inv.call (h : Inv w) (defaultLevel : String) {op : Call}
    (hop : ∀ sql, op = .verb sql → sql.inner = true) : Inv (w.call defaultLevel c op) := by
  unfold ClientWorld.call
  split
  · next hc =>
    have hnone : (w.client c).place = none := by rw [hc]; rfl
    cases op with
    | verb sql =>
      exact h.setClient hnone rfl fun sql' he => by cases he; exact hop sql rfl
    | begin level => exact h.setClient hnone rfl fun _ he => nomatch he
    | commit => exact h
    | rollback => exact h
  · next pin hc => exact h.callPinned hc hop
  · exact h

/-! ## The pool's side -/

omit [DecidableEq ι] in
theorem send_setConn (w : ClientWorld ι) (x : ConnId) (k : Conn ι) (sender : Option ι)
    (sql : TxSql) (pinned : Option ConnId) :
    (w.setConn x k).send sender x sql pinned
      = { w.setConn x (k.receive ⟨sender, w.next, sql, pinned⟩) with next := w.next + 1 } := by
  unfold send ClientWorld.setConn
  simp only [update_self, update_idem]

theorem Inv.lend (h : Inv w) : Inv (w.lend c x) := by
  unfold ClientWorld.lend
  split
  · next job hc hl hfree =>
    have hnone : (w.client c).place = none := by rw [hc]; rfl
    have hquiet : (w.conn x).Quiet := by
      have hf := h.fits x hl
      unfold Conn.Fits at hf
      rwa [hfree] at hf
    have hown : (w.conn x).live = true → ∀ d, d ≠ c → (w.conn x).held ≠ some (.caller d) :=
      fun _ d _ heq => by
        rw [hfree] at heq
        cases heq
    have hsend : ∀ {sql : TxSql} {p : Client}, p.place = some x →
        (∀ sql, p ≠ .wants (.verb sql)) →
        p.Role c x (({ w.conn x with held := some (.caller c) } : Conn ι).receive
          ⟨some c, w.next, sql, none⟩) →
        Inv (((w.setConn x { w.conn x with held := some (.caller c) }).send (some c) x sql
          none).setClient c p) := by
      intro sql p hplace hwants hrole
      rw [send_setConn]
      exact h.setBoth (fun y hy => by rw [hnone] at hy; cases hy) (fun _ => hl) hown
        (fun _ => .inl ⟨rfl, hrole⟩) (fun y hy => some.inj (hy.symm.trans hplace)) hwants
        (Nat.le_succ _) (h.refs_receive _ rfl x) (h.pinned_receive _ x fun _ he => nomatch he)
    cases job with
    | verb sql =>
      refine hsend rfl (fun _ he => nomatch he) ⟨rfl, hquiet.1, fun s hs => ?_⟩
      rcases mem_append.mp hs with hs | hs
      · exact hquiet.2 s hs
      · rw [mem_singleton.mp hs]
        exact h.wants c sql hc
    | begin level =>
      refine hsend rfl (fun _ he => nomatch he) ⟨rfl, .inl ⟨hquiet.1, fun b hb => ?_, _, _, rfl,
        fun s hs => ⟨hquiet.2 s hs, fun heq => ?_⟩, rfl, rfl, rfl⟩⟩
      · exact Nat.lt_irrefl _ ((h.refs x).2 _ hb)
      · exact Nat.lt_irrefl _ (heq ▸ (h.refs x).1 s hs)
  · exact h

/-- A process is through with its connection, which is quiet, and gives it back. -/
theorem Inv.giveBack (h : Inv w) (hplace : (w.client c).place = some x)
    (hquiet : (w.conn x).live = true → (w.conn x).Quiet) : Inv ((w.checkin x).setClient c .free) :=
  h.setBoth (p := .free) (k := { w.conn x with held := none }) (n := w.next)
    (fun _ hy => some.inj (hy.symm.trans hplace)) id (h.sole hplace)
    (fun hl => .inr ⟨rfl, rfl, hquiet hl⟩) (fun _ hy => nomatch hy) (fun _ he => nomatch he)
    (Nat.le_refl _) (h.refs x) (h.pinned x)

/-- A process changes, its connection stays as it is. -/
theorem Inv.advance (h : Inv w) (hplace : (w.client c).place = some x)
    (hrole : (w.conn x).live = true → (w.client c).Role c x (w.conn x) → p.Role c x (w.conn x))
    (hplace' : ∀ y, p.place = some y → y = x) (hwants : ∀ sql, p ≠ .wants (.verb sql)) :
    Inv (w.setClient c p) := by
  have hnew := h.setBoth (p := p) (k := w.conn x) (n := w.next)
    (fun y hy => some.inj (hy.symm.trans hplace)) id (h.sole hplace)
    (fun hl => .inl ((h.role hplace hl).imp id (hrole hl))) hplace' hwants
    (Nat.le_refl _) (h.refs x) (h.pinned x)
  have hsame : w.setConn x (w.conn x) = w := by
    unfold ClientWorld.setConn
    rw [update_eq_self]
  rwa [show ({ w.setConn x (w.conn x) with next := w.next } : ClientWorld ι) = w from hsame]
    at hnew

/-- A reply is taken, or the process stops waiting. `ok` is the reply that was sent, or the
connection is clean. -/
theorem Inv.settle (h : Inv w) {ok : Bool}
    (hbegin : ∀ level y ref, w.client c = .beginning level y ref → (w.conn y).live = true →
      (ref, ok) ∈ (w.conn y).answers ∨ (ok = false ∧ (w.conn y).Clean))
    (hend : ∀ pin ref, w.client c = .ending pin ref → (w.conn pin.conn).live = true →
      (ref, ok) ∈ (w.conn pin.conn).answers ∨ (w.conn pin.conn).Clean) : Inv (w.settle c ok) := by
  -- the connection is the caller's after the reply as it was before
  have hon : ∀ {x p}, (w.client c).place = some x → p.place = some x →
      (∀ sql, p ≠ .wants (.verb sql)) →
      ((w.client c).Role c x (w.conn x) → p.Role c x (w.conn x)) → Inv (w.setClient c p) :=
    fun hplace hplace' hwants hrole => h.advance hplace (fun _ => hrole)
      (fun _ hz => some.inj (hz.symm.trans hplace')) hwants
  unfold ClientWorld.settle
  split
  · next hc =>
    have hplace := congrArg Client.place hc
    refine h.giveBack hplace fun hl => ?_
    have hrole := (h.role hplace hl).2
    rw [hc] at hrole
    exact hrole.2
  · next level y ref hc =>
    have hplace : (w.client c).place = some y := by rw [hc]; rfl
    cases ok with
    | true =>
      refine h.advance hplace (fun hl hrole => ?_) (fun z hz => (some.inj hz).symm)
        fun _ he => nomatch he
      rw [hc] at hrole
      have hsent := (hbegin level y ref hc hl).resolve_right fun hf => nomatch hf.1
      rcases hrole.2 with ⟨-, hnone, -⟩ | ⟨hs, hq, -⟩ | ⟨-, -, hno⟩
      · exact absurd hsent (hnone true)
      · exact ⟨rfl, hs, fun r hr => absurd (hq ▸ hr) not_mem_nil⟩
      · exact absurd hsent hno
    | false =>
      refine h.giveBack hplace fun hl => ?_
      have hrole := (h.role hplace hl).2
      rw [hc] at hrole
      have hquiet : (w.conn y).session = none → (w.conn y).queue = [] → (w.conn y).Quiet :=
        fun hs hq => ⟨hs, fun r hr => absurd (hq ▸ hr) not_mem_nil⟩
      rcases hrole.2 with ⟨hs, hnone, stale, r, hq, -, hr, -⟩ | ⟨hs, hq, hno⟩ | ⟨hs, hq, -⟩
      · -- The `BEGIN` is still to come: then no reply was sent, and the mailbox is not clean.
        rcases hbegin level y ref hc hl with hsent | ⟨-, -, hclean⟩
        · exact absurd hsent (hnone false)
        · exact absurd hr (hclean r (by rw [hq]; exact mem_append_right _ mem_cons_self))
      · rcases hbegin level y ref hc hl with hsent | ⟨-, hclean, -⟩
        · exact absurd hsent hno
        · rw [hs] at hclean
          cases hclean
      · exact hquiet hs hq
  · next hc => exact hon (by rw [hc]; rfl) rfl (fun _ he => nomatch he) (hc ▸ id)
  · next hc => exact hon (by rw [hc]; rfl) rfl (fun _ he => nomatch he) (hc ▸ id)
  · next hc => exact hon (by rw [hc]; rfl) rfl (fun _ he => nomatch he) (hc ▸ id)
  · next pin ref hc =>
    have hplace : (w.client c).place = some pin.conn := by rw [hc]; rfl
    refine h.giveBack hplace fun hl => ?_
    have hrole := (h.role hplace hl).2
    rw [hc] at hrole
    rcases hrole.2 with ⟨hs, hnone, -⟩ | ⟨hs, hq⟩
    · rcases hend pin ref hc hl with hsent | ⟨hclean, -⟩
      · exact absurd hsent (hnone ok)
      · rw [hs] at hclean
        cases hclean
    · exact ⟨hs, fun r hr => absurd (hq ▸ hr) not_mem_nil⟩
  · exact h
  · exact h
  · exact h

/-! ## Runs -/

/-- The condition on an event: a verb's text neither opens nor closes a transaction, a `ROLLBACK`
does not fail and leave the transaction open, and a process stops waiting for its `BEGIN`, or for
the `COMMIT` or `ROLLBACK` of its whole transaction, only when the connection is dead or clean. -/
def Careful (w : ClientWorld ι) : ClientEvent ι → Prop
  | .call _ (.verb sql) => sql.inner = true
  | .run x outcome =>
    outcome = .failed → ∀ r ∈ (w.conn x).queue.head?, r.sql = .rollback →
      (w.conn x).session = none
  | .givesUp c =>
    match w.client c with
    | .beginning _ x _ => (w.conn x).live = true → (w.conn x).Clean
    | .ending pin _ => (w.conn pin.conn).live = true → (w.conn pin.conn).Clean
    | _ => True
  | _ => True

omit [DecidableEq ι] in
theorem Inv.fits_run (h : Inv w)
    (hback : outcome = .failed → ∀ r ∈ (w.conn x).queue.head?, r.sql = .rollback →
      (w.conn x).session = none) (hl : ((w.conn x).run outcome).live = true) :
    ((w.conn x).run outcome).Fits w.client x := by
  have hf := h.fits x (Conn.live_of_run hl)
  unfold Conn.Fits at hf ⊢
  rw [Conn.run_held]
  split at hf
  · next d _ =>
    show (w.client d).Role d x _
    cases hp : w.client d with
    | free | wants job => rw [hp] at hf; exact hf.elim
    | borrowed y ref | beginning level y ref
    | pinned pin awaited => rw [hp] at hf; exact ⟨hf.1, hf.2.run hl⟩
    | ending pin ref => rw [hp] at hf; exact ⟨hf.1, hf.2.run hl hback⟩
  · exact Conn.Quiet.run hf hl
  · exact Conn.Quiet.run hf hl

omit [DecidableEq ι] in
theorem Inv.refs_run (h : Inv w) (outcome : Outcome) :
    ((∀ r ∈ ((w.conn x).run outcome).queue, r.ref < w.next) ∧
      ∀ a ∈ ((w.conn x).run outcome).answers, a.1 < w.next) ∧
    ∀ r ∈ ((w.conn x).run outcome).queue, ∀ y, r.pinned = some y → y = x := by
  obtain ⟨hqueue, hansw⟩ := h.refs x
  have hpin := h.pinned x
  unfold Conn.run
  split
  · next r rest hlive hq =>
    rw [hq] at hqueue hpin
    have hrest : ∀ s ∈ rest, s.ref < w.next := fun s hs => hqueue s (mem_cons_of_mem _ hs)
    have hpins : ∀ s ∈ rest, ∀ y, s.pinned = some y → y = x := fun s hs =>
      hpin s (mem_cons_of_mem _ hs)
    have hnew : ∀ b, ∀ a ∈ (r.ref, b) :: (w.conn x).answers, a.1 < w.next := fun b a ha => by
      rcases mem_cons.mp ha with rfl | ha
      · exact hqueue r mem_cons_self
      · exact hansw a ha
    cases outcome <;> exact ⟨⟨hrest, hnew _⟩, hpins⟩
  · exact ⟨⟨hqueue, hansw⟩, hpin⟩

omit [DecidableEq ι] in
/-- A connection goes to or from someone who is no process of the handle, or dies. -/
theorem Inv.regain (h : Inv w) {held : Option (Holder ι)} {live : Bool}
    (hlive : live = true → (w.conn x).live = true ∧ (w.conn x).Quiet ∧
      (∀ c, (w.conn x).held ≠ some (.caller c)) ∧ ∀ c, held ≠ some (.caller c)) :
    Inv (w.setConn x { w.conn x with live := live, held := held }) := by
  refine h.setConn (fun hl => ?_) (fun hl d hd => ?_) (Nat.le_refl _) (h.refs x) (h.pinned x)
  · obtain ⟨-, hquiet, -, hno⟩ := hlive hl
    unfold Conn.Fits
    split
    · next c hc => exact absurd hc (hno c)
    · exact hquiet
    · exact hquiet
  · obtain ⟨hl0, -, hno, -⟩ := hlive hl
    exact absurd (h.holds d x hd hl0) (hno d)

omit [DecidableEq ι] in
theorem Inv.quiet_of_check (h : Inv w) {ref : Nat} (hheld : (w.conn x).held = some (.check ref))
    (hl : (w.conn x).live = true) : (w.conn x).Quiet := by
  have hf := h.fits x hl
  unfold Conn.Fits at hf
  rwa [hheld] at hf

omit [DecidableEq ι] in
theorem mem_answers_of_answerFor {ok : Bool} (ha : w.answerFor c = some ok) :
    ∃ y ref, (w.client c).awaited = some (y, ref) ∧ (ref, ok) ∈ (w.conn y).answers := by
  unfold answerFor at ha
  obtain ⟨⟨y, ref⟩, hawait, hfind⟩ := Option.bind_eq_some_iff.mp ha
  obtain ⟨⟨r, b⟩, hfound, rfl⟩ := Option.map_eq_some_iff.mp hfind
  have hr : r = ref := of_decide_eq_true
    (find?_some (p := fun reply : Nat × Bool => decide (reply.1 = ref)) hfound)
  exact ⟨y, ref, hawait, hr ▸ mem_of_find?_eq_some hfound⟩

theorem inv_step (h : Inv w) (defaultLevel : String) {e : ClientEvent ι} (hc : w.Careful e) :
    Inv (w.step defaultLevel e) := by
  cases e with
  | call c op =>
    exact h.call defaultLevel fun sql heq => by subst heq; exact hc
  | lend c x => exact h.lend
  | refuse c =>
    dsimp only [step]
    split
    · next job hjob => exact h.setClient (by rw [hjob]; rfl) rfl fun _ he => nomatch he
    · exact h
  | run x outcome =>
    obtain ⟨hrefs, hpins⟩ := h.refs_run (x := x) outcome
    refine h.setConn (fun hl => h.fits_run hc hl) (fun hl d hd => ?_) (Nat.le_refl _) hrefs hpins
    rw [Conn.run_held]
    exact h.holds d x hd (Conn.live_of_run hl)
  | answered c =>
    dsimp only [step]
    split
    · next ok ha =>
      obtain ⟨y, ref, hawait, hsent⟩ := mem_answers_of_answerFor ha
      refine h.settle (fun level y' ref' hcl _ => .inl ?_) fun pin ref' hcl _ => .inl ?_
      · rw [hcl] at hawait
        cases hawait
        exact hsent
      · rw [hcl] at hawait
        cases hawait
        exact hsent
    · exact h
  | givesUp c =>
    dsimp only [Careful] at hc
    refine h.settle (fun level y ref hcl hl => .inr ⟨rfl, ?_⟩) fun pin ref hcl hl => .inr ?_
    · rw [hcl] at hc
      exact hc hl
    · rw [hcl] at hc
      exact hc hl
  | check x =>
    dsimp only [step]
    split
    · next hl hfree =>
      have hquiet : (w.conn x).Quiet := by
        have hf := h.fits x hl
        unfold Conn.Fits at hf
        rwa [hfree] at hf
      rw [send_setConn]
      refine h.setConn (fun _ => ?_) (fun _ d hd => ?_) (Nat.le_succ _)
        (h.refs_receive ⟨none, w.next, .plain, none⟩ rfl x)
        (h.pinned_receive ⟨none, w.next, .plain, none⟩ x fun _ he => nomatch he)
      · refine ⟨hquiet.1, fun s hs => ?_⟩
        rcases mem_append.mp hs with hs | hs
        · exact hquiet.2 s hs
        · rw [mem_singleton.mp hs]
          rfl
      · have hheld := h.holds d x hd hl
        rw [hfree] at hheld
        cases hheld
    · exact h
  | checked x ok =>
    dsimp only [step]
    split
    · next ref hheld =>
      split
      · split
        · refine h.regain fun hl => ⟨hl, h.quiet_of_check hheld hl, fun c heq => ?_, fun c => nofun⟩
          rw [hheld] at heq
          cases heq
        · exact h
      · exact h.regain fun hl => nomatch hl
    · exact h
  | dies x => exact h.regain fun hl => nomatch hl

/-- What is promised of the connections in one state. -/
structure SessionsClean (w : ClientWorld ι) : Prop where
  /-- A connection the pool may hand over has no transaction open and none before it. -/
  lendable : ∀ x, (w.conn x).live = true → (w.conn x).held = none → (w.conn x).Clean
  /-- A process in a transaction has the connection of its `BEGIN`, which is in its transaction, -/
  inside : ∀ c pin awaited, w.client c = .pinned pin awaited → (w.conn pin.conn).live = true →
    (w.conn pin.conn).held = some (.caller c) ∧ (w.conn pin.conn).session = some (some c)
  /-- what it sends there from then on goes to that connection and no other, -/
  sameConn : ∀ x, ∀ r ∈ (w.conn x).queue, ∀ y, r.pinned = some y → y = x
  /-- and nothing else runs on the connection while the transaction is open. -/
  alone : ∀ x, (w.conn x).live = true → ∀ sender, (w.conn x).session = some sender →
    ∀ r ∈ (w.conn x).queue, r.sender = sender

omit [DecidableEq ι] in
theorem sessionsClean_of_inv (h : Inv w) : SessionsClean w where
  lendable x hl hfree := by
    have hf := h.fits x hl
    unfold Conn.Fits at hf
    rw [hfree] at hf
    exact Conn.Quiet.clean hf
  inside c pin awaited hc hl := by
    obtain ⟨hheld, hrole⟩ := h.role (x := pin.conn) (c := c) (by rw [hc]; rfl) hl
    rw [hc] at hrole
    exact ⟨hheld, hrole.2.1⟩
  sameConn := h.pinned
  alone x hl sender hs r hr := by
    have hf := h.fits x hl
    have hquiet : ∀ {P : Prop}, (w.conn x).Quiet → P := fun hq => by
      rw [hq.1] at hs
      cases hs
    unfold Conn.Fits at hf
    split at hf
    · next d _ =>
      cases hp : w.client d with
      | free | wants job => rw [hp] at hf; exact hf.elim
      | borrowed y ref => rw [hp] at hf; exact hquiet hf.2
      | beginning level y ref =>
        rw [hp] at hf
        rcases hf.2 with ⟨hnone, -⟩ | ⟨-, hq, -⟩ | ⟨hnone, -⟩
        · rw [hnone] at hs
          cases hs
        · exact absurd (hq ▸ hr) not_mem_nil
        · rw [hnone] at hs
          cases hs
      | pinned pin awaited =>
        rw [hp] at hf
        obtain ⟨hsess, hqueue⟩ := hf.2
        rw [hsess] at hs
        cases hs
        exact (hqueue r hr).1
      | ending pin ref =>
        rw [hp] at hf
        rcases hf.2 with ⟨hsess, -, before, last, hq, hbefore, -, hsender, -⟩ | ⟨hnone, -⟩
        · rw [hsess] at hs
          cases hs
          rcases mem_append.mp (hq ▸ hr) with hr | hr
          · exact (hbefore r hr).1
          · rw [mem_singleton.mp hr]
            exact hsender
        · rw [hnone] at hs
          cases hs
    · exact hquiet hf
    · exact hquiet hf

omit [DecidableEq ι] in
theorem inv_init : Inv (init : ClientWorld ι) where
  fits _ _ := ⟨rfl, fun _ hr => absurd hr not_mem_nil⟩
  holds _ _ hp := nomatch hp
  refs _ := ⟨fun _ hr => absurd hr not_mem_nil, fun _ ha => absurd ha not_mem_nil⟩
  pinned _ _ hr := absurd hr not_mem_nil
  wants _ _ he := nomatch he

/-- In every run of careful events the connections are clean in every state. -/
theorem sessionsClean_of_careful (defaultLevel : String) (events : List (ClientEvent ι)) :
    StepsMeet (step defaultLevel) Careful init events →
      Throughout (step defaultLevel) SessionsClean init events := by
  intro h
  have hinv : Throughout (step defaultLevel) Inv init events :=
    throughout_of_meets (I := Inv) (fun _ _ hi hc => inv_step hi defaultLevel hc) inv_init h
  exact hinv.mono fun _ => sessionsClean_of_inv

end ClientWorld

end

namespace ClientWorld

/-- Process 7 asks to begin and stops waiting before the connection has come to its `BEGIN`. -/
def lateBegin : List (ClientEvent Nat) :=
  [.call 7 (.begin none), .lend 7 0, .givesUp 7]

/-- The connection is the pool's again, with the `BEGIN` before it. -/
theorem lateBegin_not_clean :
    ¬ SessionsClean (runEvents (step "read_committed") init lateBegin) := by
  intro h
  have hclean := (h.lendable 0 rfl rfl).2
  exact hclean ⟨some 7, 0, .begin, none⟩ (mem_singleton.mpr rfl) rfl

/-- Process 7 begins, sends a statement and commits; process 8 has the connection after it. -/
def twoClients : List (ClientEvent Nat) :=
  [.call 7 (.begin none), .lend 7 0, .run 0 .done, .answered 7, .call 7 (.verb .plain),
    .givesUp 7, .call 7 .commit, .run 0 .done, .run 0 .failed, .givesUp 7,
    .call 8 (.verb .plain), .lend 8 0]

theorem twoClients_clean :
    Throughout (step "read_committed") SessionsClean init twoClients := by
  refine sessionsClean_of_careful "read_committed" twoClients ?_
  refine .cons trivial (.cons trivial (.cons (fun he => nomatch he) (.cons trivial (.cons rfl
    (.cons trivial (.cons trivial (.cons (fun he => nomatch he) (.cons ?_ (.cons ?_
    (.cons rfl (.cons trivial (.nil _ _))))))))))))
  · exact fun _ r hr hroll => by cases hr; cases hroll
  · exact fun _ => ⟨rfl, fun r hr => absurd hr not_mem_nil⟩

end ClientWorld

end Ridge
