import Mathlib.Data.List.Basic
import Mathlib.Data.List.Induction

/-!
# Lib — nested transactions as a snapshot stack

A store with nested transactions is a current value and the snapshots taken when the transactions
now open began, innermost first. Opening pushes the current value, committing drops the innermost
snapshot and rolling back restores it. `Kept base v s` reads off what survives of the work done
above a given nesting level `base`: the value `v`, whether or not a transaction above that level
was left open.
-/

namespace Ridge

/-- A current value and the snapshots of the open transactions, innermost first. -/
@[ext] structure Snapshots (α : Type*) where
  current : α
  saved : List α

namespace Snapshots

variable {α : Type*}

variable (s : Snapshots α)

/-- Open a transaction. -/
def push : Snapshots α := ⟨s.current, s.current :: s.saved⟩

/-- Change the current value. -/
def set (v : α) : Snapshots α := ⟨v, s.saved⟩

@[simp] theorem push_current : s.push.current = s.current := rfl
@[simp] theorem push_saved : s.push.saved = s.current :: s.saved := rfl
@[simp] theorem set_current (v : α) : (s.set v).current = v := rfl
@[simp] theorem set_saved (v : α) : (s.set v).saved = s.saved := rfl

/-- Above the level `base`, the value that survives is `v`: either no transaction is open above
it, or one is and `v` is the value it began with. -/
def Kept (base : List α) (v : α) (s : Snapshots α) : Prop :=
  s = ⟨v, base⟩ ∨ s.saved = v :: base

theorem Kept.closed (base : List α) (v : α) : Kept base v ⟨v, base⟩ := .inl rfl

end Snapshots

/-!
## Lib — one snapshot stack, several clients

What nested transactions of several clients mean is a `History`: the writes made so far, each with
the client that made it and the level of its transaction; a rollback takes away the client's own
writes of that level, a commit hands them to the level below. A store that keeps one stack of
snapshots for all of its clients (`Snapshots.act`) does something else in general. `Sound` is the
condition on a step under which it does the same, and `agrees_iff` that it is exact: the store
agrees with the history all along a run iff every step of the run is sound.
-/

open List Function

/-- What a client asks of a store with transactions. -/
inductive TxAct (α : Type) where
  | nothing
  | opens
  | commit
  | rollback
  | write (f : α → α)

/-- What a shared stack does: the newest transaction is whoever's it is. -/
def Snapshots.act {α : Type} (s : Snapshots α) : TxAct α → Snapshots α
  | .nothing => s
  | .opens => s.push
  | .write f => s.set (f s.current)
  | .commit =>
    match s.saved with
    | _ :: rest => ⟨s.current, rest⟩
    | [] => s
  | .rollback =>
    match s.saved with
    | top :: rest => ⟨top, rest⟩
    | [] => s

/-- A write, the client that made it, and how many of its transactions it is still under. -/
structure Write (ι α : Type) where
  owner : ι
  level : Nat
  run : α → α

/-- The writes made so far and the number of open transactions of each client. -/
structure History (ι α : Type) where
  log : List (Write ι α)
  depth : ι → Nat

/-- Writes carried out one after the other. -/
def replay {ι α : Type} (ws : List (Write ι α)) (a : α) : α := ws.foldl (fun a w => w.run a) a

@[simp] theorem replay_append {ι α : Type} (ws vs : List (Write ι α)) (a : α) :
    replay (ws ++ vs) a = replay vs (replay ws a) := foldl_append

namespace History

variable {ι α : Type} [DecidableEq ι]

def init : History ι α := ⟨[], fun _ => 0⟩

/-- The writes of a level, handed to the level below. -/
def lower (i : ι) (d : Nat) (w : Write ι α) : Write ι α :=
  if w.owner = i ∧ w.level = d then { w with level := d - 1 } else w

/-- One act of client `i`. Without a transaction of its own, a commit or rollback does nothing. -/
def act (h : History ι α) (i : ι) : TxAct α → History ι α
  | .nothing => h
  | .opens => { h with depth := Function.update h.depth i (h.depth i + 1) }
  | .write f => { h with log := h.log ++ [⟨i, h.depth i, f⟩] }
  | .commit =>
    if h.depth i = 0 then h
    else ⟨h.log.map (lower i (h.depth i)), Function.update h.depth i (h.depth i - 1)⟩
  | .rollback =>
    if h.depth i = 0 then h
    else ⟨h.log.filter fun w => ¬(w.owner = i ∧ w.level = h.depth i),
      Function.update h.depth i (h.depth i - 1)⟩

/-- What the store should hold. -/
def contents (h : History ι α) (a : α) : α := replay h.log a

omit [DecidableEq ι] in
theorem replay_map {f : Write ι α → Write ι α} (hf : ∀ w, (f w).run = w.run)
    (ws : List (Write ι α)) (a : α) : replay (ws.map f) a = replay ws a := by
  induction ws generalizing a with
  | nil => rfl
  | cons w ws ih =>
    show replay (ws.map f) ((f w).run a) = replay ws (w.run a)
    rw [hf, ih]

@[simp] theorem lower_run (i : ι) (d : Nat) (w : Write ι α) : (lower i d w).run = w.run := by
  unfold lower
  split <;> rfl

@[simp] theorem lower_owner (i : ι) (d : Nat) (w : Write ι α) : (lower i d w).owner = w.owner := by
  unfold lower
  split <;> rfl

variable {h : History ι α}

variable {i : ι}

theorem act_commit_of_zero (hd : h.depth i = 0) :
    h.act i .commit = h := if_pos hd

theorem act_commit_of_ne_zero (hd : h.depth i ≠ 0) :
    h.act i .commit = ⟨h.log.map (lower i (h.depth i)),
      update h.depth i (h.depth i - 1)⟩ := if_neg hd

theorem act_rollback_of_zero (hd : h.depth i = 0) :
    h.act i .rollback = h := if_pos hd

theorem act_rollback_of_ne_zero (hd : h.depth i ≠ 0) :
    h.act i .rollback = ⟨h.log.filter fun w => ¬(w.owner = i ∧ w.level = h.depth i),
      update h.depth i (h.depth i - 1)⟩ := if_neg hd

end History

/-- A snapshot's owner, and how many writes there were when it was taken. -/
structure Mark (ι : Type) where
  owner : ι
  since : Nat

/-- The store, with each of its snapshots marked, beside the history. -/
structure Shared (ι α : Type) where
  store : Snapshots α
  marks : List (Mark ι)
  history : History ι α

namespace Shared

variable {ι α : Type} [DecidableEq ι] {a : α} {s : Shared ι α} {m : Mark ι} {ms : List (Mark ι)}

def init (a : α) : Shared ι α := ⟨⟨a, []⟩, [], History.init⟩

/-- The marks follow the stack. -/
def actMarks (s : Shared ι α) (i : ι) : TxAct α → List (Mark ι)
  | .opens => ⟨i, s.history.log.length⟩ :: s.marks
  | .commit => s.marks.tail
  | .rollback => s.marks.tail
  | .nothing => s.marks
  | .write _ => s.marks

def act (s : Shared ι α) (i : ι) (t : TxAct α) : Shared ι α :=
  ⟨s.store.act t, s.actMarks i t, s.history.act i t⟩

/-- The number of snapshots of a client. -/
def count (i : ι) (marks : List (Mark ι)) : Nat := marks.countP fun m => m.owner = i

/-- The store holds what the history says, and each client has its own transactions open. -/
def Agrees (a : α) (s : Shared ι α) : Prop :=
  s.store.current = s.history.contents a ∧ ∀ i, count i s.marks = s.history.depth i

/-- What the other clients have written since a mark. -/
def foreign (s : Shared ι α) (m : Mark ι) : List (Write ι α) :=
  (s.history.log.drop m.since).filter fun w => w.owner ≠ m.owner

/-- A commit or rollback is asked for by the client whose transaction is the newest one, and what
the others wrote since a snapshot that is to be restored leaves that snapshot as it is. -/
def Sound (s : Shared ι α) (i : ι) : TxAct α → Prop
  | .nothing => True
  | .opens => True
  | .write _ => True
  | .commit => ∀ m ∈ s.marks.head?, m.owner = i
  | .rollback => ∀ m ∈ s.marks.head?, m.owner = i ∧
      ∀ top ∈ s.store.saved.head?, replay (s.foreign m) top = top

/-! ## The invariant -/

/-- A snapshot of the stack: it is the log up to its mark, and splits its owner's writes by level. -/
structure Marked (a : α) (h : History ι α) (snap : α) (m : Mark ι) (below : List (Mark ι)) :
    Prop where
  since_le : m.since ≤ h.log.length
  snap_eq : snap = replay (h.log.take m.since) a
  below_le : ∀ m' ∈ below, m'.since ≤ m.since
  after : ∀ w ∈ h.log.drop m.since, w.owner = m.owner → count m.owner (m :: below) ≤ w.level
  before : ∀ w ∈ h.log.take m.since, w.owner = m.owner → w.level < count m.owner (m :: below)

/-- Every snapshot of the stack is marked. -/
def Stacked (a : α) (h : History ι α) : List α → List (Mark ι) → Prop
  | [], [] => True
  | snap :: saved, m :: marks => Marked a h snap m marks ∧ Stacked a h saved marks
  | _, _ => False

structure Inv (a : α) (s : Shared ι α) : Prop where
  current : s.store.current = s.history.contents a
  stacked : Stacked a s.history s.store.saved s.marks
  depth : ∀ i, s.history.depth i = count i s.marks
  level_le : ∀ w ∈ s.history.log, w.level ≤ s.history.depth w.owner

theorem Inv.agrees (h : Inv a s) : Agrees a s :=
  ⟨h.current, fun i => (h.depth i).symm⟩

theorem inv_init (a : α) : Inv a (init a : Shared ι α) :=
  ⟨rfl, trivial, fun _ => rfl, fun _ hw => absurd hw not_mem_nil⟩

theorem count_cons_self (m : Mark ι) (ms : List (Mark ι)) :
    count m.owner (m :: ms) = count m.owner ms + 1 := by
  simp [count]

variable {i : ι}

theorem count_cons_of_ne (h : m.owner ≠ i) (ms : List (Mark ι)) :
    count i (m :: ms) = count i ms := by
  simp [count, h]

variable {saved : List α}

theorem stacked_nil {h : History ι α} (hs : Stacked a h saved []) : saved = [] := by
  cases saved with
  | nil => rfl
  | cons => exact absurd hs id

theorem stacked_cons {h : History ι α} (hs : Stacked a h saved (m :: ms)) :
    ∃ snap rest, saved = snap :: rest ∧ Marked a h snap m ms ∧ Stacked a h rest ms := by
  cases saved with
  | nil => exact absurd hs id
  | cons snap rest => exact ⟨snap, rest, rfl, hs.1, hs.2⟩

/-- The stack stays marked when the history changes in a way that each mark allows. -/
theorem Stacked.change {h h' : History ι α} {marks : List (Mark ι)} (hs : Stacked a h saved marks)
    (step : ∀ snap m below, (m :: below) <:+ marks → Marked a h snap m below →
      Marked a h' snap m below) : Stacked a h' saved marks := by
  induction marks generalizing saved with
  | nil => rw [stacked_nil hs]; trivial
  | cons m ms ih =>
    obtain ⟨snap, rest, rfl, hm, hr⟩ := stacked_cons hs
    exact ⟨step snap m ms suffix_rfl hm,
      ih hr fun snap m' below hsuf => step snap m' below (hsuf.trans (suffix_cons m ms))⟩

theorem count_le_of_suffix {ns : List (Mark ι)} (h : ms <:+ ns) : count i ms ≤ count i ns :=
  List.Sublist.countP_le h.sublist

/-! ## One act -/

section

variable (h : Inv a s)
include h

theorem inv_opens (i : ι) : Inv a (s.act i .opens) := by
  refine ⟨h.current, ⟨⟨Nat.le_refl _, ?_, ?_, ?_, ?_⟩, ?_⟩, ?_, ?_⟩
  · show s.store.current = replay (s.history.log.take s.history.log.length) a
    rw [take_length]
    exact h.current
  · -- The marks below were taken when the log was no longer than it is now.
    show ∀ m' ∈ s.marks, m'.since ≤ s.history.log.length
    have key : ∀ (marks : List (Mark ι)) (saved : List α), Stacked a s.history saved marks →
        ∀ m' ∈ marks, m'.since ≤ s.history.log.length := by
      intro marks
      induction marks with
      | nil => intro saved _ m' hm'; cases hm'
      | cons m ms ih =>
        intro saved hs m' hm'
        obtain ⟨snap, rest, rfl, hm, hr⟩ := stacked_cons hs
        rcases mem_cons.mp hm' with rfl | hm'
        · exact hm.since_le
        · exact ih rest hr m' hm'
    exact key s.marks s.store.saved h.stacked
  · intro w hw
    have hw' : w ∈ s.history.log.drop s.history.log.length := hw
    rw [drop_length] at hw'
    cases hw'
  · intro w hw howner
    have hw' : w ∈ s.history.log := mem_of_mem_take hw
    have hle := h.level_le w hw'
    rw [h.depth w.owner] at hle
    have howner' : w.owner = i := howner
    subst howner'
    show w.level < count w.owner (⟨w.owner, _⟩ :: s.marks)
    rw [count_cons_self (m := ⟨w.owner, _⟩)]
    exact Nat.lt_succ_of_le hle
  · exact h.stacked.change fun snap m below _ hm => ⟨hm.since_le, hm.snap_eq, hm.below_le,
      hm.after, hm.before⟩
  · intro j
    show update s.history.depth i (s.history.depth i + 1) j = count j (⟨i, _⟩ :: s.marks)
    by_cases hj : j = i
    · subst hj
      rw [update_self, h.depth, count_cons_self (m := ⟨j, _⟩)]
    · rw [update_of_ne hj, h.depth, count_cons_of_ne (m := ⟨i, _⟩) (Ne.symm hj)]
  · intro w hw
    refine Nat.le_trans (h.level_le w hw) ?_
    show _ ≤ update s.history.depth i (s.history.depth i + 1) w.owner
    by_cases hj : w.owner = i
    · rw [hj, update_self]
      exact Nat.le_succ _
    · exact Nat.le_of_eq (update_of_ne hj _ _).symm

theorem inv_write (i : ι) (f : α → α) : Inv a (s.act i (.write f)) := by
  refine ⟨?_, ?_, h.depth, ?_⟩
  · show f s.store.current = replay (s.history.log ++ [Write.mk i (s.history.depth i) f]) a
    rw [replay_append, h.current]
    rfl
  · refine h.stacked.change fun snap m below hsuf hm => ?_
    have htake : (s.history.log ++ [Write.mk i (s.history.depth i) f]).take m.since
        = s.history.log.take m.since := take_append_of_le_length hm.since_le
    have hdrop : (s.history.log ++ [Write.mk i (s.history.depth i) f]).drop m.since
        = s.history.log.drop m.since ++ [Write.mk i (s.history.depth i) f] :=
      drop_append_of_le_length hm.since_le
    refine ⟨?_, ?_, hm.below_le, ?_, ?_⟩
    · show m.since ≤ (s.history.log ++ [_]).length
      rw [length_append]
      exact Nat.le_add_right_of_le hm.since_le
    · exact hm.snap_eq.trans (congrArg (replay · a) htake.symm)
    · intro w hw howner
      have hw' : w ∈ s.history.log.drop m.since ++ [Write.mk i (s.history.depth i) f] := hdrop ▸ hw
      rcases mem_append.mp hw' with hw' | hw'
      · exact hm.after w hw' howner
      · -- The new write stands under all of its client's transactions.
        rw [mem_singleton] at hw'
        subst hw'
        have hi : i = m.owner := howner
        show count m.owner (m :: below) ≤ s.history.depth i
        rw [hi, h.depth]
        exact count_le_of_suffix hsuf
    · intro w hw howner
      exact hm.before w (htake ▸ hw) howner
  · intro w hw
    rcases mem_append.mp (show w ∈ s.history.log ++ [_] from hw) with hw | hw
    · exact h.level_le w hw
    · rw [mem_singleton] at hw
      subst hw
      exact Nat.le_refl _

/-- The newest snapshot is of client `i`: its commit leaves the stack marked. -/
theorem inv_commit (hm : s.marks = m :: ms) : Inv a (s.act m.owner .commit) := by
  have hst := h.stacked
  rw [hm] at hst
  obtain ⟨snap, rest, hsaved, htop, hrest⟩ := stacked_cons hst
  have hd : s.history.depth m.owner = count m.owner ms + 1 := by
    rw [h.depth, hm, count_cons_self]
  have hd0 : s.history.depth m.owner ≠ 0 := by omega
  have hact := History.act_commit_of_ne_zero hd0
  have hstore : s.store.act .commit = ⟨s.store.current, rest⟩ := by
    unfold Snapshots.act
    rw [hsaved]
  have hmarks : s.actMarks m.owner .commit = ms := by
    unfold actMarks
    rw [hm]
    rfl
  refine ⟨?_, ?_, ?_, ?_⟩
  · show (s.store.act .commit).current = (s.history.act m.owner .commit).contents a
    rw [hstore, hact, h.current]
    exact (History.replay_map (History.lower_run m.owner _) _ a).symm
  · show Stacked a (s.history.act m.owner .commit) (s.store.act .commit).saved
      (s.actMarks m.owner .commit)
    rw [hstore, hact, hmarks]
    refine hrest.change fun snap' m' below hsuf hm' => ?_
    refine ⟨?_, ?_, hm'.below_le, ?_, ?_⟩
    · show m'.since ≤ (s.history.log.map _).length
      rw [length_map]
      exact hm'.since_le
    · show snap' = replay ((s.history.log.map _).take m'.since) a
      rw [← map_take, History.replay_map (History.lower_run m.owner _)]
      exact hm'.snap_eq
    · intro w hw howner
      rw [show (History.mk (s.history.log.map _) _ : History ι α).log = _ from rfl,
        ← map_drop] at hw
      obtain ⟨v, hv, rfl⟩ := mem_map.mp hw
      rw [History.lower_owner] at howner
      have hle := hm'.after v hv howner
      unfold History.lower
      split
      · next hc =>
        -- A lowered write is the committing client's, and so is this snapshot, a lower one.
        have hcount : count m'.owner (m' :: below) ≤ count m.owner ms := by
          rw [← howner, hc.1]
          exact count_le_of_suffix hsuf
        show count m'.owner (m' :: below) ≤ s.history.depth m.owner - 1
        omega
      · exact hle
    · intro w hw howner
      rw [show (History.mk (s.history.log.map _) _ : History ι α).log = _ from rfl,
        ← map_take] at hw
      obtain ⟨v, hv, rfl⟩ := mem_map.mp hw
      rw [History.lower_owner] at howner
      have hlt := hm'.before v hv howner
      unfold History.lower
      split
      · next hc =>
        show s.history.depth m.owner - 1 < count m'.owner (m' :: below)
        omega
      · exact hlt
  · intro j
    show (s.history.act m.owner .commit).depth j = count j (s.actMarks m.owner .commit)
    rw [hact, hmarks]
    show update s.history.depth m.owner (s.history.depth m.owner - 1) j = count j ms
    by_cases hj : j = m.owner
    · rw [hj, update_self]
      omega
    · rw [update_of_ne hj, h.depth, hm, count_cons_of_ne (Ne.symm hj)]
  · intro w hw
    rw [show (s.act m.owner .commit).history = _ from hact] at hw ⊢
    obtain ⟨v, hv, rfl⟩ := mem_map.mp hw
    have hle := h.level_le v hv
    rw [History.lower_owner]
    show _ ≤ update s.history.depth m.owner (s.history.depth m.owner - 1) v.owner
    by_cases hj : v.owner = m.owner
    · rw [hj, update_self]
      rw [hj] at hle
      unfold History.lower
      split
      · exact Nat.le_refl _
      · next hc =>
        have : v.level ≠ s.history.depth m.owner := fun e => hc ⟨hj, e⟩
        omega
    · rw [update_of_ne hj]
      unfold History.lower
      rw [if_neg fun hc => hj hc.1]
      exact hle

/-- A rollback of the newest snapshot's client takes away what that client wrote since. -/
theorem log_rollback (hm : s.marks = m :: ms) : (s.history.act m.owner .rollback).log
      = s.history.log.take m.since ++ s.foreign m := by
  have hst := h.stacked
  rw [hm] at hst
  obtain ⟨snap, rest, hsaved, htop, -⟩ := stacked_cons hst
  have hd : s.history.depth m.owner = count m.owner (m :: ms) := by rw [h.depth, hm]
  have hd0 : s.history.depth m.owner ≠ 0 := by rw [hd, count_cons_self]; omega
  rw [History.act_rollback_of_ne_zero hd0]
  show s.history.log.filter _ = _
  conv_lhs => rw [← take_append_drop m.since s.history.log, filter_append]
  congr 1
  · refine filter_eq_self.mpr fun w hw => ?_
    rw [decide_eq_true_eq]
    rintro ⟨howner, hlevel⟩
    have hlt := htop.before w hw howner
    omega
  · refine filter_congr fun w hw => ?_
    rw [decide_eq_decide]
    constructor
    · intro hn howner
      have hge := htop.after w hw howner
      have hle := h.level_le w (mem_of_mem_drop hw)
      rw [howner] at hle
      exact hn ⟨howner, by omega⟩
    · exact fun hn hc => hn hc.1

theorem inv_rollback {top : α} (hm : s.marks = m :: ms) (htops : s.store.saved = top :: saved)
    (hkeep : replay (s.foreign m) top = top) : Inv a (s.act m.owner .rollback) := by
  have hst := h.stacked
  rw [hm, htops] at hst
  obtain ⟨htop, hrest⟩ := hst
  have hlog := log_rollback h hm
  have hd : s.history.depth m.owner = count m.owner ms + 1 := by
    rw [h.depth, hm, count_cons_self]
  have hdepth : (s.history.act m.owner .rollback).depth
      = update s.history.depth m.owner (s.history.depth m.owner - 1) := by
    rw [History.act_rollback_of_ne_zero (by omega)]
  have hstore : s.store.act .rollback = ⟨top, saved⟩ := by
    unfold Snapshots.act
    rw [htops]
  have hmarks : s.actMarks m.owner .rollback = ms := by
    unfold actMarks
    rw [hm]
    rfl
  refine ⟨?_, ?_, ?_, ?_⟩
  · show (s.store.act .rollback).current = replay (s.history.act m.owner .rollback).log a
    rw [hstore, hlog, replay_append, ← htop.snap_eq, hkeep]
  · show Stacked a (s.history.act m.owner .rollback) (s.store.act .rollback).saved
      (s.actMarks m.owner .rollback)
    rw [hstore, hmarks]
    refine hrest.change fun snap' m' below hsuf hm' => ?_
    have hle : m'.since ≤ m.since :=
      htop.below_le m' (hsuf.subset mem_cons_self)
    have hlen : m'.since ≤ (s.history.log.take m.since).length := by
      rw [length_take]
      exact Nat.le_min.mpr ⟨hle, hm'.since_le⟩
    have htake : (s.history.act m.owner .rollback).log.take m'.since
        = s.history.log.take m'.since := by
      rw [hlog, take_append_of_le_length hlen, take_take, Nat.min_eq_left hle]
    refine ⟨?_, ?_, hm'.below_le, ?_, ?_⟩
    · rw [hlog, length_append]
      exact Nat.le_add_right_of_le hlen
    · rw [htake]
      exact hm'.snap_eq
    · intro w hw howner
      refine hm'.after w ?_ howner
      -- What is left after the lower mark was there before.
      rw [hlog, drop_append_of_le_length hlen] at hw
      rw [← take_append_drop m.since s.history.log,
        drop_append_of_le_length hlen]
      rcases mem_append.mp hw with hw | hw
      · exact mem_append_left _ hw
      · exact mem_append_right _ (mem_of_mem_filter hw)
    · intro w hw howner
      rw [htake] at hw
      exact hm'.before w hw howner
  · intro j
    show (s.history.act m.owner .rollback).depth j = count j (s.actMarks m.owner .rollback)
    rw [hdepth, hmarks]
    by_cases hj : j = m.owner
    · rw [hj, update_self]
      omega
    · rw [update_of_ne hj, h.depth, hm, count_cons_of_ne (Ne.symm hj)]
  · intro w hw
    have hw' : w ∈ s.history.log.take m.since ++ s.foreign m := hlog ▸ hw
    show w.level ≤ (s.history.act m.owner .rollback).depth w.owner
    rw [hdepth]
    rcases mem_append.mp hw' with hw' | hw'
    · have hle := h.level_le w (mem_of_mem_take hw')
      by_cases hj : w.owner = m.owner
      · have hlt := htop.before w hw' hj
        rw [count_cons_self] at hlt
        rw [hj, update_self]
        omega
      · rw [update_of_ne hj]
        exact hle
    · have hne : w.owner ≠ m.owner := by simpa using (mem_filter.mp hw').2
      rw [update_of_ne hne]
      exact h.level_le w (mem_of_mem_drop (mem_of_mem_filter hw'))

/-! ## Steps and runs -/

variable {t : TxAct α}

/-- Without a snapshot a commit or rollback does nothing, in the store and in the history. -/
theorem act_of_marks_nil (hm : s.marks = []) (i : ι) (ht : t = .commit ∨ t = .rollback) :
    s.act i t = s := by
  have hst := h.stacked
  rw [hm] at hst
  have hsaved := stacked_nil hst
  have hd : s.history.depth i = 0 := by rw [h.depth, hm]; rfl
  obtain ⟨⟨current, saved⟩, marks, history⟩ := s
  cases hsaved
  cases hm
  rcases ht with rfl | rfl
  · show Shared.mk _ _ (history.act i .commit) = _
    rw [History.act_commit_of_zero hd]
    rfl
  · show Shared.mk _ _ (history.act i .rollback) = _
    rw [History.act_rollback_of_zero hd]
    rfl

/-- A sound step keeps the invariant. -/
theorem inv_act (hs : Sound s i t) : Inv a (s.act i t) := by
  cases t with
  | nothing => exact h
  | opens => exact inv_opens h i
  | write f => exact inv_write h i f
  | commit =>
    rcases hm : s.marks with _ | ⟨m, ms⟩
    · rw [act_of_marks_nil h hm i (.inl rfl)]
      exact h
    · have hown : m.owner = i := hs m (by rw [hm]; rfl)
      subst hown
      exact inv_commit h hm
  | rollback =>
    rcases hm : s.marks with _ | ⟨m, ms⟩
    · rw [act_of_marks_nil h hm i (.inr rfl)]
      exact h
    · obtain ⟨hown, hkeep⟩ := hs m (by rw [hm]; rfl)
      have hst := h.stacked
      rw [hm] at hst
      obtain ⟨top, saved, htops, -, -⟩ := stacked_cons hst
      subst hown
      exact inv_rollback h hm htops (hkeep top (by rw [htops]; rfl))

/-- Closing another client's transaction takes one from that client. -/
theorem owner_of_agrees (hm : s.marks = m :: ms) (ht : t = .commit ∨ t = .rollback)
    (hag : Agrees a (s.act i t)) : m.owner = i := by
  by_contra hne
  have hcount := hag.2 m.owner
  have hmarks : (s.act i t).marks = ms := by
    rcases ht with rfl | rfl <;> exact congrArg List.tail hm
  have hdepth : (s.history.act i t).depth m.owner = s.history.depth m.owner := by
    rcases ht with rfl | rfl
    · by_cases hd : s.history.depth i = 0
      · rw [History.act_commit_of_zero hd]
      · rw [History.act_commit_of_ne_zero hd]
        exact update_of_ne hne _ _
    · by_cases hd : s.history.depth i = 0
      · rw [History.act_rollback_of_zero hd]
      · rw [History.act_rollback_of_ne_zero hd]
        exact update_of_ne hne _ _
  rw [hmarks, show (s.act i t).history.depth m.owner = _ from hdepth, h.depth, hm,
    count_cons_self] at hcount
  omega

/-- From an agreeing state, the store still agrees after a step iff the step is sound. -/
theorem sound_of_agrees (hag : Agrees a (s.act i t)) : Sound s i t := by
  cases t with
  | nothing => trivial
  | opens => trivial
  | write f => trivial
  | commit =>
    intro m hmem
    rcases hm : s.marks with _ | ⟨m', ms⟩
    · rw [hm] at hmem
      cases hmem
    · rw [hm] at hmem
      cases hmem
      exact owner_of_agrees h hm (.inl rfl) hag
  | rollback =>
    intro m hmem
    rcases hm : s.marks with _ | ⟨m', ms⟩
    · rw [hm] at hmem
      cases hmem
    · rw [hm] at hmem
      cases hmem
      have hown := owner_of_agrees h hm (.inr rfl) hag
      refine ⟨hown, fun top htop => ?_⟩
      subst hown
      have hst := h.stacked
      rw [hm] at hst
      obtain ⟨top', saved, htops, hmarked, -⟩ := stacked_cons hst
      rw [htops] at htop
      cases htop
      have hcur := hag.1
      rw [show (s.act m.owner .rollback).store.current = top by
          show (s.store.act .rollback).current = top
          unfold Snapshots.act
          rw [htops],
        show (s.act m.owner .rollback).history.contents a
            = replay (s.history.act m.owner .rollback).log a from rfl,
        log_rollback h hm, replay_append, ← hmarked.snap_eq] at hcur
      exact hcur.symm

end

/-- A run of the store, each act with its client. -/
def run (s : Shared ι α) (acts : List (ι × TxAct α)) : Shared ι α :=
  acts.foldl (fun s step => s.act step.1 step.2) s

theorem run_append (s : Shared ι α) (acts more : List (ι × TxAct α)) :
    s.run (acts ++ more) = (s.run acts).run more := foldl_append

/-- The store agrees with the history all along a run iff every step of the run is sound. -/
theorem agrees_iff (a : α) (acts : List (ι × TxAct α)) :
    (∀ done, done <+: acts → Agrees a ((init a : Shared ι α).run done)) ↔
      ∀ done i t, done ++ [(i, t)] <+: acts → Sound ((init a : Shared ι α).run done) i t := by
  -- Either way the invariant holds after every part of the run: each step is sound.
  have hinv : ∀ (done : List (ι × TxAct α)),
      (∀ part i t, part ++ [(i, t)] <+: done → Sound ((init a).run part) i t) →
      Inv a ((init a).run done) := by
    intro done
    induction done using List.reverseRecOn with
    | nil => exact fun _ => inv_init a
    | append_singleton done step ih =>
      intro hs
      rw [run_append]
      refine inv_act (ih fun part i t hp => hs part i t (hp.trans (prefix_append done _)))
        (hs done step.1 step.2 prefix_rfl)
  constructor
  · intro hag done i t hp
    have hs : ∀ n part j u, part.length < n → part ++ [(j, u)] <+: acts →
        Sound ((init a).run part) j u := by
      intro n
      induction n with
      | zero => intro part j u hn; exact absurd hn (Nat.not_lt_zero _)
      | succ n ih =>
        intro part j u hn hpart
        have hi : Inv a ((init a).run part) := hinv part fun part' j' u' hp' => by
          have hlen := hp'.length_le
          rw [length_append, length_singleton] at hlen
          exact ih part' j' u' (by omega)
            (hp'.trans ((prefix_append part _).trans hpart))
        have hag' := hag _ hpart
        rw [run_append] at hag'
        exact sound_of_agrees hi hag'
    exact hs (done.length + 1) done i t (Nat.lt_succ_self _) hp
  · intro hs done hp
    exact (hinv done fun part i t hpart => hs part i t (hpart.trans hp)).agrees

end Shared

end Ridge
