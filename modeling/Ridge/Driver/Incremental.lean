import Mathlib.Algebra.Order.BigOperators.Group.Finset
import Ridge.Lib.Acyclic
import Ridge.Lib.Worklist
import Ridge.Resolve.Symbols

/-!
# The affected modules of an edit

`ridge-driver/src/incremental.rs`: `reverse_dep_closure` finds the modules that import the edited
one, directly or through others, breadth first, and sorts them with a counter of outstanding
imports for each module.
-/

namespace Ridge.Incremental

open List Relation

variable (deps : List (List ModuleId)) (edited : ModuleId)

/-- `deps[m]`. -/
def row (m : ModuleId) : List ModuleId := deps.getD m []

/-- `reverse[b]`: a module stands there once for each time its row names `b`. -/
def reverse (b : ModuleId) : List ModuleId :=
  deps.zipIdx.flatMap fun (row, a) => row.filterMap fun dep => if dep = b then some a else none

/-! ## The search -/

structure Search where
  visited : Finset ModuleId
  order : List ModuleId

def searching : Worklist ModuleId Search where
  enter m s := ({ s with order := s.order ++ [m] }, reverse deps m)
  look dependent s :=
    if dependent ∈ s.visited then (s, false)
    else ({ s with visited := insert dependent s.visited }, true)

/-! ## The sort -/

/-- A module is `emitted` when it is in `sorted`. -/
structure Placing where
  remaining : ModuleId → Nat
  sorted : List ModuleId

variable (visited : Finset ModuleId)

/-- The affected imports of a module, the edited one left out. -/
def outstanding (module : ModuleId) : List ModuleId :=
  (row deps module).filter fun dep => dep ≠ edited ∧ dep ∈ visited

def sorting : Worklist ModuleId Placing where
  enter module s :=
    if module ∈ s.sorted then (s, [])
    else ({ s with sorted := s.sorted ++ [module] }, reverse deps module)
  look consumer s :=
    if consumer ∈ visited ∧ consumer ∉ s.sorted ∧ 0 < s.remaining consumer then
      let left := s.remaining consumer - 1
      ({ s with remaining := Function.update s.remaining consumer left }, left = 0)
    else (s, false)

/-- The counters of the affected modules, before the sort. -/
def counted (order : List ModuleId) : Placing where
  remaining module :=
    if module ∈ order.tail then (outstanding deps edited visited module).length else 0
  sorted := [edited]

/-- `reverse_dep_closure`, with fuel for each of its two loops. -/
def reverseDepClosure (fuel : Nat) : Option (List ModuleId) :=
  ((searching deps).drain fuel [edited] ⟨{edited}, []⟩).bind fun ⟨visited, order⟩ =>
    let start := counted deps edited visited order
    ((sorting deps visited).drain fuel (order.tail.filter fun m => start.remaining m = 0) start).map
      fun s => s.sorted ++ order.filter fun module => module ∉ s.sorted

/-! ## Imports -/

/-- Module `a` imports module `b`. -/
def Imports (a b : ModuleId) : Prop := b ∈ row deps a

/-- The edited module and those that import it, directly or through others. -/
def Affected (m : ModuleId) : Prop := ReflTransGen (Imports deps) m edited

def AffectedImport (a b : ModuleId) : Prop :=
  Affected deps edited a ∧ Affected deps edited b ∧ Imports deps a b

/-! ## The search finds what is affected -/

theorem count_filterMap (row : List ModuleId) (a b m : ModuleId) :
    (row.filterMap fun dep => if dep = b then some a else none).count m =
      if a = m then row.count b else 0 := by
  induction row with
  | nil => simp
  | cons dep row ih =>
    rw [filterMap_cons]
    by_cases hdep : dep = b
    · rw [if_pos hdep, hdep, count_cons, count_cons, ih]
      by_cases ham : a = m <;> simp [ham]
    · rw [if_neg hdep, count_cons_of_ne hdep, ih]

/-- A module stands in `reverse[b]` as often as its row names `b`. -/
theorem count_reverse (m b : ModuleId) : (reverse deps b).count m = (row deps m).count b := by
  suffices hfrom : ∀ (rows : List (List ModuleId)) (k : Nat),
      ((rows.zipIdx k).flatMap fun (row, a) =>
        row.filterMap fun dep => if dep = b then some a else none).count m =
        if k ≤ m then (rows.getD (m - k) []).count b else 0 by
    exact (hfrom deps 0).trans (by rw [if_pos (Nat.zero_le m)]; rfl)
  intro rows
  induction rows with
  | nil => simp
  | cons row rows ih =>
    intro k
    rw [zipIdx_cons, flatMap_cons, count_append, count_filterMap, ih]
    rcases Nat.lt_trichotomy k m with hlt | rfl | hlt
    · obtain ⟨j, rfl⟩ := Nat.exists_eq_add_of_lt hlt
      rw [if_neg (show k ≠ k + j + 1 by omega), if_pos (show k + 1 ≤ k + j + 1 by omega),
        if_pos (show k ≤ k + j + 1 by omega),
        show k + j + 1 - k = k + j + 1 - (k + 1) + 1 by omega, getD_cons_succ, Nat.zero_add]
    · simp
    · rw [if_neg (show k ≠ m by omega), if_neg (show ¬ k + 1 ≤ m by omega),
        if_neg (show ¬ k ≤ m by omega)]

variable {deps edited}

theorem mem_reverse {m b : ModuleId} : m ∈ reverse deps b ↔ Imports deps m b := by
  rw [← count_pos_iff, count_reverse, count_pos_iff]
  exact Iff.rfl

variable (hedited : edited < deps.length)
include hedited

variable {m : ModuleId}

theorem lt_of_affected (h : Affected deps edited m) : m < deps.length := by
  rcases h.cases_head with rfl | ⟨b, hb, -⟩
  · exact hedited
  · by_contra hm
    simp [Imports, row, getD_eq_getElem?_getD, getElem?_eq_none (Nat.not_lt.mp hm)] at hb

omit hedited in
/-- What holds of the search: `order` and the queue are the modules visited, all affected, and the
consumers of what is in `order` are visited or still to be looked at. -/
structure Found (deps : List (List ModuleId)) (edited : ModuleId) (todo queue : List ModuleId)
    (s : Search) : Prop where
  head : (s.order ++ queue).head? = some edited
  nodup : (s.order ++ queue).Nodup
  visited : ∀ m, m ∈ s.visited ↔ m ∈ s.order ++ queue
  affected : ∀ m ∈ s.order ++ queue, Affected deps edited m
  pending : ∀ d ∈ todo, Affected deps edited d
  closed : ∀ m ∈ s.order, ∀ d, Imports deps d m → d ∈ s.order ++ queue ∨ d ∈ todo

theorem found_keeps : (searching deps).Keeps (Found deps edited)
    fun queue s => queue.length + (deps.length - s.visited.card) where
  enter m queue s h := by
    have heq : s.order ++ [m] ++ queue = s.order ++ m :: queue := by simp
    refine ⟨⟨heq ▸ h.head, heq ▸ h.nodup, fun x => heq ▸ h.visited x, fun x hx =>
      h.affected x (heq ▸ hx), fun d hd => ?_, fun x hx d hd => ?_⟩, ?_⟩
    · exact .head (mem_reverse.mp hd) (h.affected m (mem_append_right _ mem_cons_self))
    · rcases mem_append.mp hx with hx | hx
      · exact .inl (heq ▸ (h.closed x hx d hd).resolve_right not_mem_nil)
      · exact .inr (mem_reverse.mpr (mem_singleton.mp hx ▸ hd))
    · show queue.length + (deps.length - s.visited.card) <
        queue.length + 1 + (deps.length - s.visited.card)
      omega
  look d ds queue s h := by
    by_cases hd : d ∈ s.visited
    · have hlook : (searching deps).look d s = (s, false) := if_pos hd
      rw [Worklist.pushed, hlook]
      refine ⟨⟨h.head, h.nodup, h.visited, h.affected, fun x hx => h.pending x (mem_cons_of_mem _ hx),
        fun m hm x hx => ?_⟩, Nat.le_refl _⟩
      rcases h.closed m hm x hx with hin | hin
      · exact .inl hin
      · rcases mem_cons.mp hin with rfl | hin
        · exact .inl ((h.visited x).mp hd)
        · exact .inr hin
    · have hlook : (searching deps).look d s = ({ s with visited := insert d s.visited }, true) :=
        if_neg hd
      rw [Worklist.pushed, hlook]
      have heq : s.order ++ (queue ++ [d]) = s.order ++ queue ++ [d] := (append_assoc ..).symm
      have hnew : d ∉ s.order ++ queue := fun hin => hd ((h.visited d).mpr hin)
      have haffected : ∀ x ∈ s.order ++ queue ++ [d], Affected deps edited x := by
        intro x hx
        rcases mem_append.mp hx with hx | hx
        · exact h.affected x hx
        · exact mem_singleton.mp hx ▸ h.pending d mem_cons_self
      refine ⟨⟨?_, ?_, fun x => ?_, fun x hx => haffected x (heq ▸ hx), fun x hx =>
        h.pending x (mem_cons_of_mem _ hx), fun m hm x hx => ?_⟩, ?_⟩
      · show (s.order ++ (queue ++ [d])).head? = _
        rw [heq, head?_append, h.head, Option.some_or]
      · show (s.order ++ (queue ++ [d])).Nodup
        rw [heq]
        exact nodup_append.mpr ⟨h.nodup, nodup_singleton d, fun x hx y hy heq' =>
          hnew (mem_singleton.mp hy ▸ heq' ▸ hx)⟩
      · show x ∈ insert d s.visited ↔ x ∈ s.order ++ (queue ++ [d])
        rw [heq, Finset.mem_insert, h.visited, mem_append (t := [d]), mem_singleton, or_comm]
      · rw [show s.order ++ (if true = true then queue ++ [d] else queue) = _ from heq]
        rcases h.closed m hm x hx with hin | hin
        · exact .inl (mem_append_left _ hin)
        · rcases mem_cons.mp hin with rfl | hin
          · exact .inl (mem_append_right _ mem_cons_self)
          · exact .inr hin
      · have hcard : (insert d s.visited).card ≤ (Finset.range deps.length).card := by
          refine Finset.card_le_card fun x hx => Finset.mem_range.mpr (lt_of_affected hedited ?_)
          refine haffected x ?_
          rw [mem_append, mem_singleton, ← h.visited, or_comm]
          exact Finset.mem_insert.mp hx
        rw [Finset.card_range, Finset.card_insert_of_notMem hd] at hcard
        show (queue ++ [d]).length + (deps.length - (insert d s.visited).card) ≤ _
        rw [length_append, Finset.card_insert_of_notMem hd, length_singleton]
        omega

/-- The search ends, with the edited module first and every affected module once. -/
theorem search_finds : ∃ rest visited,
    Converges (fun fuel => (searching deps).drain fuel [edited] ⟨{edited}, []⟩)
      ⟨visited, edited :: rest⟩ ∧ (edited :: rest).Nodup ∧ (∀ m, m ∈ visited ↔ m ∈ edited :: rest) ∧
    ∀ m, m ∈ edited :: rest ↔ Affected deps edited m := by
  have hstart : Found deps edited [] [edited] ⟨{edited}, []⟩ :=
    ⟨rfl, nodup_singleton _, by simp, fun m hm => mem_singleton.mp hm ▸ .refl, nofun, nofun⟩
  obtain ⟨⟨visited, order⟩, hdrain, h⟩ := (found_keeps hedited).drain hstart
  have hnodup := h.nodup
  have hvisited := h.visited
  have hhead := h.head
  rw [append_nil] at hnodup hvisited hhead
  obtain ⟨rest, rfl⟩ : ∃ rest, order = edited :: rest := ⟨order.tail, (eq_cons_of_mem_head? hhead)⟩
  refine ⟨rest, visited, hdrain, hnodup, hvisited, fun m => ⟨fun hm => ?_, fun hm => ?_⟩⟩
  · exact h.affected m (mem_append_left _ hm)
  · induction hm using ReflTransGen.head_induction_on with
    | refl => exact mem_cons_self
    | head himport _ ih =>
      have hin := (h.closed _ ih _ himport).resolve_right not_mem_nil
      rwa [append_nil] at hin

/-! ## The sort places what it can -/

/-- The affected imports of `m` that are not placed yet, one for each time its row names them. -/
def waiting (deps : List (List ModuleId)) (order sorted : List ModuleId) (m : ModuleId) : Nat :=
  (row deps m).countP fun d => d ∈ order ∧ d ∉ sorted

omit hedited

theorem waiting_concat {order sorted : List ModuleId} (hm : m ∈ order) (hnot : m ∉ sorted)
    (x : ModuleId) :
    waiting deps order sorted x = waiting deps order (sorted ++ [m]) x + (row deps x).count m := by
  unfold waiting
  induction row deps x with
  | nil => rfl
  | cons d row ih =>
    rw [countP_cons, countP_cons, count_cons, ih]
    by_cases hd : d = m
    · subst hd
      simp [hm, hnot]
      omega
    · simp [hd]
      omega

/-- What holds of the sort: a counter is the number of imports not placed yet and of those still to
be counted off, a module whose counter is zero is in the queue or placed, and what is placed stands
behind its affected imports. -/
structure Placed (deps : List (List ModuleId)) (edited : ModuleId) (order todo queue : List ModuleId)
    (s : Placing) : Prop where
  head : s.sorted.head? = some edited
  nodup : s.sorted.Nodup
  within : ∀ m ∈ s.sorted, m ∈ order
  queued : ∀ m ∈ queue, m ∈ order
  count : ∀ m ∈ order, m ∉ s.sorted →
    s.remaining m = waiting deps order s.sorted m + todo.count m
  ready : ∀ m ∈ queue, m ∉ s.sorted → s.remaining m = 0
  waits : ∀ m ∈ order, m ∉ s.sorted → s.remaining m = 0 → m ∈ queue
  ordered : ∀ before m after, s.sorted = before ++ m :: after → m ≠ edited →
    ∀ d, Imports deps m d → d ∈ order → d ∈ before

variable {visited : Finset ModuleId} {order todo queue : List ModuleId} {s : Placing}

theorem Placed.enter (h : Placed deps edited order [] (m :: queue) s) :
    Placed deps edited order ((sorting deps visited).enter m s).2 queue
      ((sorting deps visited).enter m s).1 := by
  by_cases hm : m ∈ s.sorted
  · rw [show (sorting deps visited).enter m s = (s, []) from if_pos hm]
    exact { h with
      queued := fun x hx => h.queued x (mem_cons_of_mem _ hx)
      ready := fun x hx => h.ready x (mem_cons_of_mem _ hx)
      waits := fun x hx hnot hzero => (mem_cons.mp (h.waits x hx hnot hzero)).resolve_left
        fun heq => hnot (heq ▸ hm) }
  · rw [show (sorting deps visited).enter m s =
      ({ s with sorted := s.sorted ++ [m] }, reverse deps m) from if_neg hm]
    have hin := h.queued m mem_cons_self
    have hcount := h.count m hin hm
    rw [h.ready m mem_cons_self hm] at hcount
    have hplaced : ∀ d, Imports deps m d → d ∈ order → d ∈ s.sorted := fun d hd horder => by
      have hnone := countP_eq_zero.mp (Nat.eq_zero_of_add_eq_zero_right hcount.symm) d hd
      by_contra hnot
      exact hnone (by simp [horder, hnot])
    have hold : ∀ x, x ∉ s.sorted ++ [m] → x ∉ s.sorted := fun x hx hs => hx (mem_append_left _ hs)
    refine ⟨?_, ?_, fun x hx => ?_, fun x hx => h.queued x (mem_cons_of_mem _ hx),
      fun x hx hnot => ?_, fun x hx hnot => h.ready x (mem_cons_of_mem _ hx) (hold x hnot),
      fun x hx hnot hzero => ?_, fun before x after hsplit hne d hd horder => ?_⟩
    · rw [head?_append, h.head, Option.some_or]
    · exact nodup_append.mpr ⟨h.nodup, nodup_singleton m, fun x hx y hy heq =>
        hm (mem_singleton.mp hy ▸ heq ▸ hx)⟩
    · rcases mem_append.mp hx with hx | hx
      · exact h.within x hx
      · exact mem_singleton.mp hx ▸ hin
    · show s.remaining x = _
      rw [h.count x hx (hold x hnot), waiting_concat hin hm, count_nil, count_reverse, Nat.add_zero]
    · exact (mem_cons.mp (h.waits x hx (hold x hnot) hzero)).resolve_left
        fun heq => hnot (heq ▸ mem_append_right _ mem_cons_self)
    · rcases after.eq_nil_or_concat with rfl | ⟨after, last, rfl⟩
      · obtain ⟨rfl, hlast⟩ := append_inj' hsplit rfl
        exact hplaced d (List.singleton_inj.mp hlast ▸ hd) horder
      · rw [concat_eq_append, ← cons_append, ← append_assoc] at hsplit
        exact h.ordered before x after (append_inj_left' hsplit rfl) hne d hd horder

theorem Placed.look {d : ModuleId} (hvisited : ∀ m, m ∈ visited ↔ m ∈ order)
    (h : Placed deps edited order (d :: todo) queue s) :
    Placed deps edited order todo ((sorting deps visited).pushed d queue s)
      ((sorting deps visited).look d s).1 ∧
    ((sorting deps visited).pushed d queue s).length +
        ∑ m ∈ visited, ((sorting deps visited).look d s).1.remaining m ≤
      queue.length + ∑ m ∈ visited, s.remaining m := by
  unfold Worklist.pushed
  by_cases hlook : d ∈ visited ∧ d ∉ s.sorted ∧ 0 < s.remaining d
  · rw [show (sorting deps visited).look d s =
      ({ s with remaining := Function.update s.remaining d (s.remaining d - 1) },
        decide (s.remaining d - 1 = 0)) from if_pos hlook]
    have hne : ∀ x ∈ queue, x ∉ s.sorted → x ≠ d := by
      rintro x hx hnot rfl
      have := h.ready x hx hnot
      omega
    have hcount : ∀ m ∈ order, m ∉ s.sorted →
        Function.update s.remaining d (s.remaining d - 1) m =
          waiting deps order s.sorted m + todo.count m := fun m hm hnot => by
      have hold := h.count m hm hnot
      by_cases hmd : m = d
      · rw [hmd, count_cons_self] at hold
        rw [hmd, Function.update_self]
        omega
      · rw [Function.update_of_ne hmd, hold, count_cons_of_ne (Ne.symm hmd)]
    have hready : ∀ m ∈ queue, m ∉ s.sorted →
        Function.update s.remaining d (s.remaining d - 1) m = 0 := fun m hm hnot => by
      rw [Function.update_of_ne (hne m hm hnot)]
      exact h.ready m hm hnot
    have hwaits : ∀ m ∈ order, m ∉ s.sorted → m ≠ d →
        Function.update s.remaining d (s.remaining d - 1) m = 0 → m ∈ queue :=
      fun m hm hnot hmd hzero => h.waits m hm hnot (by rwa [Function.update_of_ne hmd] at hzero)
    -- one import is counted off, and at most one module goes to the queue
    have hlower : ∑ m ∈ visited, Function.update s.remaining d (s.remaining d - 1) m <
        ∑ m ∈ visited, s.remaining m := by
      refine Finset.sum_lt_sum (fun m _ => ?_) ⟨d, hlook.1, ?_⟩
      · by_cases hmd : m = d
        · rw [hmd, Function.update_self]
          omega
        · rw [Function.update_of_ne hmd]
      · rw [Function.update_self]
        omega
    by_cases hzero : s.remaining d - 1 = 0
    · rw [if_pos (decide_eq_true hzero), length_append, length_singleton]
      refine ⟨{ h with
        count := hcount
        queued := fun m hm => (mem_append.mp hm).elim (h.queued m) fun hm =>
          mem_singleton.mp hm ▸ (hvisited d).mp hlook.1
        ready := fun m hm hnot => (mem_append.mp hm).elim (hready m · hnot) fun hm => by
          rw [mem_singleton.mp hm]
          exact (Function.update_self ..).trans hzero
        waits := fun m hm hnot hz => by
          by_cases hmd : m = d
          · exact mem_append_right _ (mem_singleton.mpr hmd)
          · exact mem_append_left _ (hwaits m hm hnot hmd hz) }, ?_⟩
      dsimp only
      omega
    · rw [if_neg (by simpa using hzero)]
      refine ⟨{ h with
        count := hcount
        ready := hready
        waits := fun m hm hnot hz => hwaits m hm hnot
          (fun hmd => hzero (by
            rw [hmd] at hz
            exact (Function.update_self ..).symm.trans hz)) hz }, ?_⟩
      dsimp only
      omega
  · rw [show (sorting deps visited).look d s = (s, false) from if_neg hlook]
    have hother : ∀ m ∈ order, m ∉ s.sorted → m ≠ d := fun m hm hnot heq => by
      have hcount := h.count m hm hnot
      rw [heq, count_cons_self] at hcount
      exact hlook ⟨(hvisited d).mpr (heq ▸ hm), heq ▸ hnot, by omega⟩
    refine ⟨{ h with count := fun m hm hnot => ?_ }, Nat.le_refl _⟩
    rw [h.count m hm hnot, count_cons_of_ne (hother m hm hnot).symm]

theorem placed_keeps (hvisited : ∀ m, m ∈ visited ↔ m ∈ order) :
    (sorting deps visited).Keeps (Placed deps edited order)
      fun queue s => queue.length + ∑ m ∈ visited, s.remaining m where
  enter m queue s h := by
    have hsame : ((sorting deps visited).enter m s).1.remaining = s.remaining := by
      show (if m ∈ s.sorted then _ else _ : Placing × List ModuleId).1.remaining = _
      split <;> rfl
    refine ⟨h.enter, ?_⟩
    rw [hsame, length_cons]
    omega
  look d todo queue s h := h.look hvisited

variable {rest : List ModuleId}

theorem placed_counted (hvisited : ∀ m, m ∈ visited ↔ m ∈ edited :: rest) :
    Placed deps edited (edited :: rest) []
      (rest.filter fun m => (counted deps edited visited (edited :: rest)).remaining m = 0)
      (counted deps edited visited (edited :: rest)) where
  head := rfl
  nodup := nodup_singleton _
  within m hm := mem_singleton.mp hm ▸ mem_cons_self
  queued m hm := mem_cons_of_mem _ (mem_filter.mp hm).1
  count m hm hnot := by
    have hrest := (mem_cons.mp hm).resolve_left fun heq => hnot (mem_singleton.mpr heq)
    show (if m ∈ rest then (outstanding deps edited visited m).length else 0) = _
    rw [if_pos hrest, outstanding, ← countP_eq_length_filter, count_nil, Nat.add_zero]
    refine countP_congr fun d _ => ?_
    simp [counted, hvisited, and_comm]
  ready m hm _ := of_decide_eq_true (mem_filter.mp hm).2
  waits m hm hnot hzero := mem_filter.mpr
    ⟨(mem_cons.mp hm).resolve_left fun heq => hnot (mem_singleton.mpr heq), decide_eq_true hzero⟩
  ordered before m after hsplit hne := by
    cases before with
    | nil => exact absurd (cons.inj hsplit).1.symm hne
    | cons x before => exact absurd (cons.inj hsplit).2 (by simp)

/-- With nothing left in the queue, an acyclic table has every module placed. -/
theorem Placed.all (h : Placed deps edited order [] [] s)
    (hmem : ∀ m, m ∈ order ↔ Affected deps edited m)
    (hacyclic : Acyclic (AffectedImport deps edited)) : ∀ m ∈ order, m ∈ s.sorted := by
  obtain ⟨height, hheight⟩ := hacyclic.exists_height order.toFinset fun u w huw =>
    mem_toFinset.mpr ((hmem u).mpr huw.1)
  intro m
  induction hk : height m using Nat.strong_induction_on generalizing m with
  | _ k ih =>
    intro hm
    by_contra hnot
    have hcount := h.count m hm hnot
    have hpos : 0 < waiting deps order s.sorted m := Nat.pos_of_ne_zero fun hzero =>
      not_mem_nil (h.waits m hm hnot (by rw [hcount, hzero, count_nil]))
    obtain ⟨d, hd, hwaits⟩ := countP_pos_iff.mp hpos
    have hwaits := of_decide_eq_true hwaits
    have hlower := hheight m d ⟨(hmem m).mp hm, (hmem d).mp hwaits.1, hd⟩
    exact hwaits.2 (ih (height d) (hk ▸ hlower) d rfl hwaits.1)

theorem path_of_affected (h : Affected deps edited m) :
    ReflTransGen (AffectedImport deps edited) m edited := by
  induction h using ReflTransGen.head_induction_on with
  | refl => exact .refl
  | head himport h ih => exact .head ⟨.head himport h, h, himport⟩ ih

/-- The loops end, the edited module comes first and every affected module once, and without a cycle
of imports among them each comes after the affected modules it imports. -/
theorem affected_modules_ordered (deps : List (List ModuleId)) (edited : ModuleId)
    (hedited : edited < deps.length) :
    ∃ out, Converges (reverseDepClosure deps edited) out ∧ out.head? = some edited ∧ out.Nodup ∧
      (∀ m, m ∈ out ↔ Affected deps edited m) ∧
      (Acyclic (AffectedImport deps edited) → ∀ before m after, out = before ++ m :: after →
        ∀ d, AffectedImport deps edited m d → d ∈ before) := by
  obtain ⟨rest, visited, hsearch, hnodup, hvisited, hmem⟩ := search_finds hedited
  obtain ⟨s, hsort, h⟩ := (placed_keeps hvisited).drain (placed_counted hvisited)
  refine ⟨_, hsearch.bind (hsort.map _), ?_, ?_, fun m => ?_, fun hacyclic before m after hsplit => ?_⟩
  · rw [head?_append, h.head, Option.some_or]
  · refine nodup_append.mpr ⟨h.nodup, hnodup.filter _, fun x hx y hy heq => ?_⟩
    exact of_decide_eq_true (mem_filter.mp hy).2 (heq ▸ hx)
  · rw [← hmem, mem_append, mem_filter]
    constructor
    · rintro (hm | hm)
      · exact h.within m hm
      · exact hm.1
    · intro hm
      by_cases hs : m ∈ s.sorted
      · exact .inl hs
      · exact .inr ⟨hm, decide_eq_true hs⟩
  · have hnone : ((edited :: rest).filter fun module => module ∉ s.sorted) = [] :=
      filter_eq_nil_iff.mpr fun m hm => by simpa using h.all hmem hacyclic m hm
    rw [hnone, append_nil] at hsplit
    intro d hd
    by_cases hm : m = edited
    · exact absurd (TransGen.head' (hm ▸ hd) (path_of_affected hd.2.1)) (hacyclic edited)
    · exact h.ordered before m after hsplit hm d hd.2.2 ((hmem d).mpr hd.2.1)

/-- A diamond: `3` imports `1` and `2`, which import the edited module. -/
theorem diamond_ordered :
    ∃ out, Converges (reverseDepClosure [[], [0], [0, 1], [2, 1]] 0) out ∧ out.head? = some 0 ∧
      out.Nodup ∧ ∀ m, m ∈ out ↔ Affected [[], [0], [0, 1], [2, 1]] 0 m := by
  obtain ⟨out, hout, hhead, hnodup, hmem, -⟩ :=
    affected_modules_ordered [[], [0], [0, 1], [2, 1]] 0 (by decide)
  exact ⟨out, hout, hhead, hnodup, hmem⟩

end Ridge.Incremental
