import Ridge.Loader.Receipts

/-!
# Operations are applied at most once

An id of the registry lives one life: it is reserved, submitted or given up, finished, and in the
end forgotten (`Life`). `lifeOf` reads the life of the `n`th unique integer off a state of the
registry; whatever the registry does moves every life forward (`Follows`). That an id is handed to a
worker once, and that the statuses seen for it only move forward, are facts about lives.
-/

namespace Ridge.Loader.Receipts

open Relation List Option EntryMap

variable {Payload : Type}

/-! ## Lives -/

/-- The moves of a status. -/
inductive Moves : Status → Status → Prop
  | submit : Moves .reserved .in_progress
  | cancel : Moves .reserved .rejected
  | apply : Moves .in_progress .applied
  | reject : Moves .in_progress .rejected
  | lose : Moves .in_progress .recovery_required

/-- A status is reached from another; a terminal status reaches itself only. -/
abbrev Forward : Status → Status → Prop := ReflTransGen Moves

inductive Life where
  | unborn
  | live (status : Status)
  | forgotten

inductive Lives : Life → Life → Prop
  | reserve : Lives .unborn (.live .reserved)
  /-- The unique integer was given out elsewhere. -/
  | pass : Lives .unborn .forgotten
  | move {a b : Status} (h : Moves a b) : Lives (.live a) (.live b)
  | forget {a : Status} (h : a ≠ .in_progress) : Lives (.live a) .forgotten

/-- The operation was not handed to a worker yet. -/
def Life.Unsubmitted : Life → Prop
  | .unborn => True
  | .live status => status = .reserved
  | .forgotten => False

variable {a b : Life}

/-- A life that is not submitted yet was not submitted before. -/
theorem unsubmitted_of_lives (h : ReflTransGen Lives a b) (hb : b.Unsubmitted) : a.Unsubmitted := by
  induction h using ReflTransGen.head_induction_on with
  | refl => exact hb
  | head hstep _ ih =>
    cases hstep with
    | reserve => trivial
    | pass => trivial
    | move hmove =>
      cases hmove with
      | submit => rfl
      | cancel => rfl
      | apply => cases ih
      | reject => cases ih
      | lose => cases ih
    | forget _ => exact absurd ih id

theorem forward_of_lives (h : ReflTransGen Lives a b) {s s' : Status} (ha : a = .live s)
    (hb : b = .live s') : Forward s s' := by
  induction h using ReflTransGen.head_induction_on generalizing s with
  | refl =>
    rw [ha] at hb
    cases hb
    exact .refl
  | head hstep hrest ih =>
    subst ha
    cases hstep with
    | move hmove => exact .head hmove (ih rfl)
    | forget _ =>
      -- nothing comes after being forgotten
      rcases ReflTransGen.cases_head hrest with heq | ⟨c, hc, -⟩
      · cases heq.trans hb
      · cases hc

/-- The life of an operation with this receipt, whose unique integer was given out or not. -/
def lifeWith (found : Option Receipt) (given : Bool) : Life :=
  match found with
  | some r => .live r.status
  | none => if given then .forgotten else .unborn

/-- The life of the operation with the `n`th unique integer for its id. -/
def lifeOf (w : World) (n : Nat) : Life :=
  lifeWith (w.registry.find (Nat.repr n)) (decide (n ≤ w.unique))

/-! ## The invariant -/

structure Inv (w : World) : Prop where
  distinct : EntryMap.Distinct keys w.registry.entries
  room : w.registry.entries.length ≤ receiptLimit
  issued : ∀ {id r}, w.registry.find id = some r → ∃ n ≤ w.unique, id = Nat.repr n
  own : ∀ {id r}, w.registry.find id = some r → r.operation = id
  /-- Only a receipt in progress has a monitor. -/
  monitored : ∀ {id r}, w.registry.find id = some r → r.status ≠ .in_progress → r.monitor = none

/-- What the registry does keeps the invariant and moves every life forward. -/
structure Follows (w w' : World) : Prop where
  inv : Inv w'
  lives : ∀ n, ReflTransGen Lives (lifeOf w n) (lifeOf w' n)

theorem Follows.refl {w : World} (h : Inv w) : Follows w w := ⟨h, fun _ => .refl⟩

theorem Follows.trans {w w' w'' : World} (h : Follows w w') (h' : Follows w' w'') :
    Follows w w'' := ⟨h'.inv, fun n => (h.lives n).trans (h'.lives n)⟩

theorem inv_start (incarnation : String) (unique : Nat) : Inv (World.start incarnation unique) where
  distinct := .nil
  room := Nat.zero_le _
  issued h := nomatch h
  own h := nomatch h
  monitored h := nomatch h

theorem lifeOf_of_some {w : World} {n : Nat} {r : Receipt}
    (h : w.registry.find (Nat.repr n) = some r) : lifeOf w n = .live r.status := by
  rw [lifeOf, h]
  rfl

/-! ## What is found -/

theorem find_put (s : State) (id id' : String) (r : Receipt) :
    (s.put id r).find id' = if id = id' then some r else s.find id' := by
  have h := find_update (E := keys) id (fun _ => r) s.entries id'
  simp only [State.find, State.put, EntryMap.get, EntryMap.insert, h]
  by_cases heq : id = id'
  · rw [if_pos (show keys.eq id id' = true from decide_eq_true heq), if_pos heq, updated]
    split <;> rfl
  · rw [if_neg (show ¬ keys.eq id id' = true by simpa [KeyEq.exact] using heq), if_neg heq]

theorem find_eq_some_iff {s : State} (h : EntryMap.Distinct keys s.entries) {id : String}
    {r : Receipt} : s.find id = some r ↔ (id, r) ∈ s.entries := by
  rw [State.find, EntryMap.get, map_eq_some_iff]
  constructor
  · rintro ⟨⟨id', r'⟩, hfind, rfl⟩
    obtain ⟨hmem, hkey⟩ := find_some hfind
    obtain rfl : id = id' := of_decide_eq_true hkey
    exact hmem
  · exact fun hmem => ⟨(id, r), h.find_iff.mpr ⟨hmem, keys.refl id⟩, rfl⟩

theorem find_pruneReceipts {s : State} (h : EntryMap.Distinct keys s.entries) (now : Int)
    (id : String) : (pruneReceipts now s).find id = (s.find id).filter fun r =>
      r.status = .in_progress || now - r.created < receiptTtl := by
  have h' : EntryMap.Distinct keys (pruneReceipts now s).entries := List.Pairwise.filter _ h
  apply ext
  intro r
  rw [find_eq_some_iff h', filter_eq_some_iff, find_eq_some_iff h]
  exact mem_filter

theorem find_down {s : State} (h : EntryMap.Distinct keys s.entries) (f : Receipt → Receipt)
    (id : String) :
    ({ s with entries := s.entries.map fun e => (e.1, f e.2) } : State).find id
      = (s.find id).map f := by
  have h' : EntryMap.Distinct keys (s.entries.map fun e => (e.1, f e.2)) := pairwise_map.mpr h
  apply ext
  intro r
  rw [find_eq_some_iff h', map_eq_some_iff]
  constructor
  · intro hmem
    obtain ⟨⟨id', r'⟩, hr', heq⟩ := mem_map.mp hmem
    cases heq
    exact ⟨r', (find_eq_some_iff h).mpr hr', rfl⟩
  · rintro ⟨r', hr', rfl⟩
    exact mem_map.mpr ⟨(id, r'), (find_eq_some_iff h).mp hr', rfl⟩

/-! ## What the registry does -/

section Follows

variable {s : State} {u : Nat}

/-- Unique integers are given out elsewhere. -/
theorem follows_pass (h : Inv ⟨s, u⟩) {u' : Nat} (hu : u ≤ u') : Follows ⟨s, u⟩ ⟨s, u'⟩ := by
  refine ⟨⟨h.distinct, h.room, fun hfind => ?_, h.own, h.monitored⟩, fun n => ?_⟩
  · obtain ⟨n, hn, rfl⟩ := h.issued hfind
    exact ⟨n, Nat.le_trans hn hu, rfl⟩
  · show ReflTransGen Lives (lifeWith (s.find (Nat.repr n)) (decide (n ≤ u)))
      (lifeWith (s.find (Nat.repr n)) (decide (n ≤ u')))
    cases s.find (Nat.repr n) with
    | some r => exact .refl
    | none =>
      by_cases hn : n ≤ u
      · rw [decide_eq_true hn, decide_eq_true (Nat.le_trans hn hu)]
      · rw [decide_eq_false hn]
        cases decide (n ≤ u') with
        | true => exact .single .pass
        | false => exact .refl

theorem follows_prune (h : Inv ⟨s, u⟩) (now : Int) : Follows ⟨s, u⟩ ⟨pruneReceipts now s, u⟩ := by
  have hfind : ∀ {id r}, (pruneReceipts now s).find id = some r → s.find id = some r := by
    intro id r hr
    rw [find_pruneReceipts h.distinct, filter_eq_some_iff] at hr
    exact hr.1
  refine ⟨⟨List.Pairwise.filter _ h.distinct, Nat.le_trans (length_filter_le _ _) h.room,
    fun hr => h.issued (hfind hr), fun hr => h.own (hfind hr),
    fun hr => h.monitored (hfind hr)⟩, fun n => ?_⟩
  show ReflTransGen Lives (lifeWith (s.find (Nat.repr n)) (decide (n ≤ u)))
    (lifeWith ((pruneReceipts now s).find (Nat.repr n)) (decide (n ≤ u)))
  rw [find_pruneReceipts h.distinct]
  cases hr : s.find (Nat.repr n) with
  | none => exact .refl
  | some r =>
    obtain ⟨m, hm, hmn⟩ := h.issued hr
    rw [decide_eq_true (show n ≤ u from Nat.repr_injective hmn ▸ hm), filter_some]
    split
    · exact .refl
    · next hkeep =>
      refine .single (.forget fun hprogress => hkeep ?_)
      simp [hprogress]

/-- A receipt for a new id. -/
theorem follows_reserve (h : Inv ⟨s, u⟩) {n : Nat} (hn : u < n)
    (hroom : s.entries.length < receiptLimit) {r : Receipt} (hid : r.operation = Nat.repr n)
    (hstatus : r.status = .reserved) (hmonitor : r.monitor = none) :
    Follows ⟨s, u⟩ ⟨s.put (Nat.repr n) r, n⟩ := by
  have hpass := follows_pass h (Nat.le_of_lt hn)
  refine ⟨⟨h.distinct.update _ _, ?_, fun {id r'} hfind => ?_, fun {id r'} hfind => ?_,
    fun {id r'} hfind hne => ?_⟩, fun m => ?_⟩
  · show (EntryMap.update keys (Nat.repr n) (fun _ => r) s.entries).length ≤ receiptLimit
    rw [length_update]
    split <;> omega
  · rw [find_put] at hfind
    split at hfind
    · next hid' => exact ⟨n, Nat.le_refl n, hid'.symm⟩
    · exact hpass.inv.issued hfind
  · rw [find_put] at hfind
    split at hfind
    · next hid' =>
      cases hfind
      exact hid.trans hid'
    · exact h.own hfind
  · rw [find_put] at hfind
    split at hfind
    · cases hfind
      exact hmonitor
    · exact h.monitored hfind hne
  · by_cases hm : m = n
    · subst hm
      have hnone : s.find (Nat.repr m) = none := by
        cases hfind : s.find (Nat.repr m) with
        | none => rfl
        | some r' =>
          obtain ⟨k, hk, hkm⟩ := h.issued hfind
          have hle : k ≤ u := hk
          have := Nat.repr_injective hkm
          omega
      show ReflTransGen Lives (lifeWith (s.find (Nat.repr m)) (decide (m ≤ u)))
        (lifeWith ((s.put (Nat.repr m) r).find (Nat.repr m)) (decide (m ≤ m)))
      rw [hnone, find_put, if_pos rfl, decide_eq_false (Nat.not_le.mpr hn)]
      show ReflTransGen Lives .unborn (.live r.status)
      rw [hstatus]
      exact .single .reserve
    · have hother : (s.put (Nat.repr n) r).find (Nat.repr m) = s.find (Nat.repr m) := by
        rw [find_put, if_neg fun heq => hm (Nat.repr_injective heq).symm]
      have hlives := hpass.lives m
      unfold lifeOf at hlives ⊢
      show ReflTransGen Lives _ (lifeWith ((s.put (Nat.repr n) r).find (Nat.repr m)) _)
      rwa [hother]

/-- What may become of a receipt. -/
structure Becomes (r r' : Receipt) : Prop where
  operation : r'.operation = r.operation
  status : Forward r.status r'.status
  monitor : r'.status ≠ .in_progress → r'.monitor = none

theorem live_of_forward {a b : Status} (h : Forward a b) :
    ReflTransGen Lives (.live a) (.live b) := by
  induction h with
  | refl => exact .refl
  | tail _ hmove ih => exact ih.tail (.move hmove)

/-- A receipt that is there changes. -/
theorem follows_put (h : Inv ⟨s, u⟩) {id : String} {r r' : Receipt} (hr : s.find id = some r)
    (hbecomes : Becomes r r') : Follows ⟨s, u⟩ ⟨s.put id r', u⟩ := by
  have hsome : (EntryMap.find keys id s.entries).isSome := by
    rw [State.find, EntryMap.get, map_eq_some_iff] at hr
    obtain ⟨e, he, -⟩ := hr
    rw [he]
    rfl
  refine ⟨⟨h.distinct.update _ _, ?_, fun {id' x} hfind => ?_, fun {id' x} hfind => ?_,
    fun {id' x} hfind hne => ?_⟩, fun n => ?_⟩
  · show (EntryMap.update keys id (fun _ => r') s.entries).length ≤ receiptLimit
    rw [length_update, if_pos hsome]
    exact h.room
  · rw [find_put] at hfind
    split at hfind
    · next hid => exact hid ▸ h.issued hr
    · exact h.issued hfind
  · rw [find_put] at hfind
    split at hfind
    · next hid =>
      cases hfind
      exact hbecomes.operation.trans ((h.own hr).trans hid)
    · exact h.own hfind
  · rw [find_put] at hfind
    split at hfind
    · cases hfind
      exact hbecomes.monitor hne
    · exact h.monitored hfind hne
  · show ReflTransGen Lives (lifeWith (s.find (Nat.repr n)) (decide (n ≤ u)))
      (lifeWith ((s.put id r').find (Nat.repr n)) (decide (n ≤ u)))
    rw [find_put]
    by_cases hid : id = Nat.repr n
    · rw [if_pos hid, ← hid, hr]
      exact live_of_forward hbecomes.status
    · rw [if_neg hid]

/-- Every receipt changes as it may. -/
theorem follows_down (h : Inv ⟨s, u⟩) {f : Receipt → Receipt}
    (hf : ∀ {id r}, s.find id = some r → Becomes r (f r)) :
    Follows ⟨s, u⟩ ⟨{ s with entries := s.entries.map fun e => (e.1, f e.2) }, u⟩ := by
  have hfind : ∀ {id x}, ({ s with entries := s.entries.map fun e => (e.1, f e.2) } :
      State).find id = some x → ∃ r, s.find id = some r ∧ f r = x := by
    intro id x hx
    rwa [find_down h.distinct, map_eq_some_iff] at hx
  refine ⟨⟨pairwise_map.mpr h.distinct, ?_, fun hx => ?_, fun hx => ?_,
    fun hx hne => ?_⟩, fun n => ?_⟩
  · rw [length_map]
    exact h.room
  · obtain ⟨r, hr, -⟩ := hfind hx
    exact h.issued hr
  · obtain ⟨r, hr, rfl⟩ := hfind hx
    exact (hf hr).operation.trans (h.own hr)
  · obtain ⟨r, hr, rfl⟩ := hfind hx
    exact (hf hr).monitor hne
  · show ReflTransGen Lives (lifeWith (s.find (Nat.repr n)) (decide (n ≤ u)))
      (lifeWith (({ s with entries := s.entries.map fun e => (e.1, f e.2) } : State).find
        (Nat.repr n)) (decide (n ≤ u)))
    rw [find_down h.distinct]
    cases hr : s.find (Nat.repr n) with
    | none => exact .refl
    | some r => exact live_of_forward (hf hr).status

end Follows

/-! ## What a message does -/

section Becomes

variable {w : World} {id : String} {r : Receipt}

theorem becomes_cancelled (h : Inv w) (hr : w.registry.find id = some r)
    (hstatus : r.status = .reserved) (now : Int) : Becomes r (r.cancelled now) where
  operation := rfl
  status := hstatus ▸ .single .cancel
  monitor _ := by
    have hnone : r.monitor = none := h.monitored hr (by rw [hstatus]; decide)
    exact hnone

theorem becomes_submitted (hstatus : r.status = .reserved) (worker : Pid) (monitor : MonitorRef) :
    Becomes r (r.submitted worker monitor) where
  operation := rfl
  status := hstatus ▸ .single .submit
  monitor hne := absurd rfl hne

theorem becomes_phase (h : Inv w) (hr : w.registry.find id = some r) (phase : Phase) :
    Becomes r (r.phase phase) := by
  have hmonitor : r.status ≠ .in_progress → r.monitor = none := h.monitored hr
  cases phase <;> exact ⟨rfl, .refl, hmonitor⟩

theorem becomes_finished (hstatus : r.status = .in_progress) (now : Int) (result : Result) :
    Becomes r (r.finished now result) := by
  cases result with
  | ok report => exact ⟨rfl, hstatus ▸ .single .apply, fun _ => rfl⟩
  | reload_rejected phase
  | base_version_mismatch => exact ⟨rfl, hstatus ▸ .single .reject, fun _ => rfl⟩
  | other => exact ⟨rfl, hstatus ▸ .single .lose, fun _ => rfl⟩

/-- Only the receipt of an operation in progress has the monitor that went down. -/
theorem becomes_lost (h : Inv w) (hr : w.registry.find id = some r) (now : Int)
    (monitor : MonitorRef) : Becomes r (if r.monitor = some monitor then r.lost now else r) := by
  split
  · next hmonitor =>
    have hstatus : r.status = .in_progress := by
      by_contra hne
      rw [h.monitored hr hne] at hmonitor
      cases hmonitor
    exact ⟨rfl, hstatus ▸ .single .lose, fun _ => rfl⟩
  · exact ⟨rfl, .refl, h.monitored hr⟩

end Becomes

/-- What a message does, with what it puts out. -/
structure Does (w : World) (o : Output Payload) (w' : World) : Prop where
  follows : Follows w w'
  spawn : ∀ sp, o.spawn = some sp →
    ∃ n, sp.id = Nat.repr n ∧ (lifeOf w n).Unsubmitted ∧ lifeOf w' n = .live .in_progress
  view : ∀ v, o.reply = some (.view v) →
    ∃ n, v.operation = Nat.repr n ∧ lifeOf w' n = .live v.status

theorem does_quiet {w w' : World} (h : Follows w w') {reply : Reply}
    (hreply : ∀ v, reply ≠ .view v) :
    Does w ({ reply := some reply } : Output Payload) w' where
  follows := h
  spawn _ hsp := nomatch hsp
  view v hv := absurd (some.inj hv) (hreply v)

theorem view_of_find {w : World} (h : Inv w) {id : String} {r : Receipt}
    (hr : w.registry.find id = some r) (t : Turn) :
    ∃ n, (receiptView t r).operation = Nat.repr n ∧
      lifeOf w n = .live (receiptView t r).status := by
  obtain ⟨n, -, rfl⟩ := h.issued hr
  exact ⟨n, h.own hr, lifeOf_of_some hr⟩

theorem does_view {w w' : World} (h : Follows w w') {id : String} {r : Receipt}
    (hr : w'.registry.find id = some r) (t : Turn) :
    Does w ({ reply := some (.view (receiptView t r)) } : Output Payload) w' where
  follows := h
  spawn _ hsp := nomatch hsp
  view v hv := by
    cases hv
    exact view_of_find h.inv hr t

theorem does_serve {s : State} {u u' : Nat} (h : Inv ⟨s, u⟩) (hu : u < u') (t : Turn)
    (request : Request Payload) :
    Does ⟨s, u⟩ (receiptServe t u' s request).1 ⟨(receiptServe t u' s request).2, u'⟩ := by
  have hpass := follows_pass h (Nat.le_of_lt hu)
  have hput : ∀ {id r}, (s.put id r).find id = some r := fun {id r} => by
    rw [find_put, if_pos rfl]
  cases request with
  | protocol => exact does_quiet hpass fun _ hne => nomatch hne
  | reserve incarnation digest =>
    simp only [receiptServe]
    split
    · next hroom => exact does_view (follows_reserve h hu hroom rfl rfl rfl) hput t
    · exact does_quiet hpass fun _ hne => nomatch hne
  | query incarnation id =>
    simp only [receiptServe]
    cases hr : s.find id with
    | some r => exact does_view hpass hr t
    | none => exact does_quiet hpass fun _ hne => nomatch hne
  | cancel incarnation id digest =>
    simp only [receiptServe]
    cases hr : s.find id with
    | none => exact does_quiet hpass fun _ hne => nomatch hne
    | some r =>
      dsimp only
      split
      · exact does_quiet hpass fun _ hne => nomatch hne
      · split
        · next hstatus =>
          have hbecomes := becomes_cancelled hpass.inv hr hstatus t.now
          exact does_view (hpass.trans (follows_put hpass.inv hr hbecomes)) hput t
        · exact does_view hpass hr t
  | submit incarnation id digest payload =>
    simp only [receiptServe]
    cases hr : s.find id with
    | none => exact does_quiet hpass fun _ hne => nomatch hne
    | some r =>
      dsimp only
      split
      · exact does_quiet hpass fun _ hne => nomatch hne
      · split
        · next hstatus =>
          have hbecomes := becomes_submitted hstatus t.worker t.monitor
          have hfollows := hpass.trans (follows_put hpass.inv hr hbecomes)
          refine ⟨hfollows, fun sp hsp => ?_, fun v hv => ?_⟩
          · -- the receipt was reserved, and is in progress now
            cases hsp
            obtain ⟨n, -, rfl⟩ := h.issued hr
            refine ⟨n, rfl, ?_, lifeOf_of_some (w := ⟨s.put _ _, u'⟩) hput⟩
            rw [lifeOf_of_some (w := ⟨s, u⟩) hr]
            exact hstatus
          · cases hv
            exact view_of_find hfollows.inv hput t
        · exact does_view hpass hr t

theorem does_event {s : State} {u : Nat} (h : Inv ⟨s, u⟩) (t : Turn) (event : Event) :
    Follows ⟨s, u⟩ ⟨receiptEvent t event s, u⟩ := by
  cases event with
  | operation_phase id phase =>
    simp only [receiptEvent]
    cases hr : s.find id with
    | none => exact .refl h
    | some r =>
      dsimp only
      split
      · exact follows_put h hr (becomes_phase h hr phase)
      · exact .refl h
  | operation_result id worker result =>
    simp only [receiptEvent]
    cases hr : s.find id with
    | none => exact .refl h
    | some r =>
      dsimp only
      split
      · next hworks => exact follows_put h hr (becomes_finished hworks.1 t.now result)
      · exact .refl h
  | down monitor => exact follows_down h fun hr => becomes_lost h hr t.now monitor
  | other => exact .refl h

theorem does_step {w : World} (h : Inv w) (t : Turn) (m : Message Payload) :
    Does w (step w t m).1 (step w t m).2 := by
  cases m with
  | call request =>
    have hprune := follows_prune (s := w.registry) (u := w.unique) h t.now
    have hlt : w.unique < w.unique + t.gap + 1 := by omega
    simp only [step, receiptRequest]
    split
    · obtain ⟨hfollows, hspawn, hview⟩ := does_serve hprune.inv hlt t request
      refine ⟨hprune.trans hfollows, fun sp hsp => ?_, hview⟩
      obtain ⟨n, hn, hbefore, hafter⟩ := hspawn sp hsp
      exact ⟨n, hn, unsubmitted_of_lives (hprune.lives n) hbefore, hafter⟩
    · exact does_quiet (hprune.trans (follows_pass hprune.inv (Nat.le_of_lt hlt)))
        fun _ hne => nomatch hne
  | info event =>
    exact {
      follows := does_event (s := w.registry) (u := w.unique) h t event
      spawn := fun _ hsp => nomatch hsp
      view := fun _ hv => nomatch hv }

/-! ## Runs -/

/-- The ids handed to workers, in order. -/
def submitted (outputs : List (Output Payload)) : List String :=
  outputs.filterMap fun o => o.spawn.map Spawn.id

/-- The views replied, in order. -/
def views (outputs : List (Output Payload)) : List View :=
  outputs.filterMap fun o =>
    match o.reply with
    | some (.view v) => some v
    | _ => none

theorem follows_run {w : World} (h : Inv w) (messages : List (Turn × Message Payload)) :
    Follows w (run w messages).2 := by
  induction messages generalizing w with
  | nil => exact .refl h
  | cons e messages ih =>
    have hstep := (does_step h e.1 e.2).follows
    exact hstep.trans (ih hstep.inv)

theorem submitted_run {w : World} (h : Inv w) (messages : List (Turn × Message Payload)) :
    (submitted (run w messages).1).Nodup ∧
      ∀ id ∈ submitted (run w messages).1, ∃ n, id = Nat.repr n ∧ (lifeOf w n).Unsubmitted := by
  induction messages generalizing w with
  | nil => exact ⟨nodup_nil, fun id hid => absurd hid not_mem_nil⟩
  | cons e messages ih =>
    obtain ⟨hfollows, hspawn, -⟩ := does_step h e.1 e.2
    obtain ⟨hnodup, hall⟩ := ih hfollows.inv
    have hlater : ∀ id ∈ submitted (run (step w e.1 e.2).2 messages).1,
        ∃ n, id = Nat.repr n ∧ (lifeOf w n).Unsubmitted := by
      intro id hid
      obtain ⟨n, hn, hunsubmitted⟩ := hall id hid
      exact ⟨n, hn, unsubmitted_of_lives (hfollows.lives n) hunsubmitted⟩
    show (submitted ((step w e.1 e.2).1 :: (run (step w e.1 e.2).2 messages).1)).Nodup ∧ ∀ id ∈
      submitted ((step w e.1 e.2).1 :: (run (step w e.1 e.2).2 messages).1), _
    unfold submitted at hnodup hall hlater ⊢
    cases hsp : (step w e.1 e.2).1.spawn with
    | none =>
      rw [filterMap_cons_none (by rw [hsp]; rfl)]
      exact ⟨hnodup, hlater⟩
    | some sp =>
      rw [filterMap_cons_some (b := sp.id) (by rw [hsp]; rfl)]
      obtain ⟨n, hn, hbefore, hafter⟩ := hspawn sp hsp
      refine ⟨nodup_cons.mpr ⟨fun hmem => ?_, hnodup⟩, fun id hid => ?_⟩
      · -- it is in progress after the step, so it is not submitted later
        obtain ⟨m, hm, hunsubmitted⟩ := hall sp.id hmem
        obtain rfl := Nat.repr_injective (hn.symm.trans hm)
        rw [hafter] at hunsubmitted
        cases hunsubmitted
      · rcases mem_cons.mp hid with rfl | hid
        · exact ⟨n, hn, hbefore⟩
        · exact hlater id hid

theorem views_run {w : World} (h : Inv w) (messages : List (Turn × Message Payload)) :
    (views (run w messages).1).Pairwise
        (fun v v' => v.operation = v'.operation → Forward v.status v'.status) ∧
      ∀ v ∈ views (run w messages).1,
        ∃ n, v.operation = Nat.repr n ∧ ReflTransGen Lives (lifeOf w n) (.live v.status) := by
  induction messages generalizing w with
  | nil => exact ⟨.nil, fun v hv => absurd hv not_mem_nil⟩
  | cons e messages ih =>
    obtain ⟨hfollows, -, hview⟩ := does_step h e.1 e.2
    obtain ⟨hpairwise, hall⟩ := ih hfollows.inv
    have hlater : ∀ v ∈ views (run (step w e.1 e.2).2 messages).1,
        ∃ n, v.operation = Nat.repr n ∧ ReflTransGen Lives (lifeOf w n) (.live v.status) := by
      intro v hv
      obtain ⟨n, hn, hlives⟩ := hall v hv
      exact ⟨n, hn, (hfollows.lives n).trans hlives⟩
    have hcons : views (run w (e :: messages)).1
        = (match (step w e.1 e.2).1.reply with
            | some (.view v) => some v
            | _ => none).toList ++ views (run (step w e.1 e.2).2 messages).1 := by
      show views ((step w e.1 e.2).1 :: (run (step w e.1 e.2).2 messages).1) = _
      unfold views
      rw [filterMap_cons]
      split <;> rename_i hreply <;> rw [hreply] <;> rfl
    rw [hcons]
    split
    · next v hreply =>
      obtain ⟨n, hn, hlive⟩ := hview v hreply
      refine ⟨pairwise_cons.mpr ⟨fun v' hv' hsame => ?_, hpairwise⟩, fun v' hv' => ?_⟩
      · obtain ⟨m, hm, hlives⟩ := hall v' hv'
        obtain rfl := Nat.repr_injective (hn.symm.trans (hsame.trans hm))
        exact forward_of_lives hlives hlive rfl
      · rcases mem_cons.mp hv' with rfl | hv'
        · exact ⟨n, hn, hlive ▸ hfollows.lives n⟩
        · exact hlater v' hv'
    · exact ⟨hpairwise, hlater⟩

/-! ## What is kept -/

theorem isSome_put {s : State} {id : String} (h : (s.find id).isSome) (id' : String)
    (r : Receipt) : ((s.put id' r).find id).isSome := by
  rw [find_put]
  split
  · rfl
  · exact h

/-- A request drops nothing but what was pruned before. -/
theorem isSome_serve {s : State} {id : String} (h : (s.find id).isSome) (t : Turn) (unique : Nat)
    (request : Request Payload) : ((receiptServe t unique s request).2.find id).isSome := by
  cases request with
  | protocol => exact h
  | reserve incarnation digest =>
    simp only [receiptServe]
    split
    · exact isSome_put h _ _
    · exact h
  | query incarnation id' =>
    simp only [receiptServe]
    split <;> exact h
  | cancel incarnation id' digest | submit incarnation id' digest payload =>
    simp only [receiptServe]
    split
    · exact h
    · split
      · exact h
      · split
        · exact isSome_put h _ _
        · exact h

theorem isSome_event {s : State} (hdistinct : EntryMap.Distinct keys s.entries) {id : String}
    (h : (s.find id).isSome) (t : Turn) (event : Event) :
    ((receiptEvent t event s).find id).isSome := by
  cases event with
  | operation_phase id' phase | operation_result id' worker result =>
    simp only [receiptEvent]
    split
    · split
      · exact isSome_put h _ _
      · exact h
    · exact h
  | down monitor =>
    simp only [receiptEvent]
    rw [find_down hdistinct fun r => if r.monitor = some monitor then r.lost t.now else r,
      isSome_map]
    exact h
  | other => exact h

/-- A receipt in progress is there after every message. -/
theorem isSome_step {w : World} (h : Inv w) {id : String} {r : Receipt}
    (hr : w.registry.find id = some r) (hstatus : r.status = .in_progress) (t : Turn)
    (m : Message Payload) : ((step w t m).2.registry.find id).isSome := by
  cases m with
  | call request =>
    have hpruned : ((pruneReceipts t.now w.registry).find id).isSome := by
      rw [find_pruneReceipts h.distinct, hr, filter_some, if_pos (by simp [hstatus])]
      rfl
    simp only [step, receiptRequest]
    split
    · exact isSome_serve hpruned t _ request
    · exact hpruned
  | info event => exact isSome_event h.distinct (by rw [hr]; rfl) t event

/-! ## At most once -/

/-- The operation a request names, with the digest it has for it. -/
def Request.names : Request Payload → Option (String × String)
  | .cancel _ id digest => some (id, digest)
  | .submit _ id digest _ => some (id, digest)
  | _ => none

/-- A request with the digest of another operation changes nothing. -/
theorem step_of_conflict {w : World} (h : Inv w) {id : String} {r : Receipt}
    (hr : w.registry.find id = some r) {digest : String} (hdigest : r.digest ≠ digest) (t : Turn)
    {request : Request Payload} (hnames : request.names = some (id, digest)) :
    (step w t (.call request)).1.spawn = none ∧
      (step w t (.call request)).2.registry = pruneReceipts t.now w.registry := by
  simp only [step, receiptRequest]
  split
  · -- the receipt is as it was, or pruned
    have hfound : ∀ r', (pruneReceipts t.now w.registry).find id = some r' → r' = r := by
      intro r' hr'
      rw [find_pruneReceipts h.distinct, filter_eq_some_iff, hr] at hr'
      exact (some.inj hr'.1).symm
    cases request with
    | protocol => cases hnames
    | reserve _ _ => cases hnames
    | query _ _ => cases hnames
    | cancel incarnation id' digest' | submit incarnation id' digest' payload =>
      cases hnames
      simp only [receiptServe]
      cases hf : (pruneReceipts t.now w.registry).find id with
      | none => exact ⟨rfl, rfl⟩
      | some r' =>
        obtain rfl := hfound r' hf
        simp only [hdigest, ne_eq, not_false_eq_true, if_true, and_self]
  · exact ⟨rfl, rfl⟩

def Status.Terminal (status : Status) : Prop := status ≠ .reserved ∧ status ≠ .in_progress

/-- Forward, and not at all from a terminal status. -/
def OnlyForward (a b : Status) : Prop := Forward a b ∧ (a.Terminal → b = a)

theorem onlyForward_of_forward {a b : Status} (h : Forward a b) : OnlyForward a b := by
  refine ⟨h, fun hterminal => ?_⟩
  rcases ReflTransGen.cases_head h with heq | ⟨c, hc, -⟩
  · exact heq.symm
  · cases hc with
    | submit | cancel => exact absurd rfl hterminal.1
    | apply | reject | lose => exact absurd rfl hterminal.2

/-- What holds of the outputs of a run and of the state it ends in. -/
structure AtMostOnce (outputs : List (Output Payload)) (w : World) : Prop where
  /-- No operation is handed to a worker twice. -/
  once : (submitted outputs).Nodup
  /-- The statuses replied for an operation move forward only … -/
  seen : (views outputs).Pairwise fun v v' =>
    v.operation = v'.operation → OnlyForward v.status v'.status
  /-- … and so do those in store, for as long as they are remembered. -/
  stored : ∀ (more : List (Turn × Message Payload)) id a b, w.registry.find id = some a →
    (run w more).2.registry.find id = some b → OnlyForward a.status b.status
  conflict : ∀ (t : Turn) (request : Request Payload) id digest r,
    request.names = some (id, digest) → w.registry.find id = some r → r.digest ≠ digest →
    (step w t (.call request)).1.spawn = none ∧
      (step w t (.call request)).2.registry = pruneReceipts t.now w.registry
  kept : ∀ (t : Turn) (m : Message Payload) id r, w.registry.find id = some r →
    r.status = .in_progress → ((step w t m).2.registry.find id).isSome
  room : w.registry.entries.length ≤ receiptLimit

/-- Over every run of the registry, operations are applied at most once. -/
theorem receipts_at_most_once (incarnation : String) (unique : Nat)
    (messages : List (Turn × Message Payload)) :
    AtMostOnce (run (World.start incarnation unique) messages).1
      (run (World.start incarnation unique) messages).2 := by
  have hstart := inv_start incarnation unique
  have hinv := (follows_run hstart messages).inv
  refine {
    once := (submitted_run hstart messages).1
    seen := (views_run hstart messages).1.imp fun h hsame => onlyForward_of_forward (h hsame)
    stored := fun more id a b ha hb => ?_
    conflict := fun t request id digest r hnames hr hdigest =>
      step_of_conflict hinv hr hdigest t hnames
    kept := fun t m id r hr hstatus => isSome_step hinv hr hstatus t m
    room := hinv.room }
  obtain ⟨n, -, rfl⟩ := hinv.issued ha
  have hlives := (follows_run hinv more).lives n
  exact onlyForward_of_forward (forward_of_lives hlives (lifeOf_of_some ha) (lifeOf_of_some hb))

end Ridge.Loader.Receipts
