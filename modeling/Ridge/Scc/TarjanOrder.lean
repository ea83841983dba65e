import Mathlib.Algebra.Order.BigOperators.Group.Finset
import Mathlib.Tactic.Linarith
import Ridge.Scc.TarjanInvariant

/-!
# Which component comes first

The components are emitted callees first, and components that do not call one another in the
order in which the search meets them. `emitted_before` says so for two nodes: the one that is
visited first and does not reach the other is emitted first. The adjacency lists are enumerations
of hash sets, so their order is not the program's to choose; `nearerFirst` orders them so that
a chosen node is visited as early as the outer loop allows (`precedes_nearerFirst`).
-/

/-!
## Whole runs of Tarjan's algorithm

The loops end within `turns` turns, with every node emitted, so the components are `Layered` and
partition the nodes.
-/

namespace Ridge

open Relation CallGraph TarjanState List Option Function

variable {g : CallGraph} {s : TarjanState g.n}

/-! ## The loops end -/

def unvisitedTurns (g : CallGraph) (index : Fin g.n → Option Nat) : Nat :=
  ∑ v, if (index v).isSome then 0 else (g.adj v).length + 2

def turnsLeft (g : CallGraph) (s : TarjanState g.n) : Nat :=
  (g.n - s.next) + unvisitedTurns g s.index
    + (s.work.map fun e => (g.adj e.1).length - e.2 + 1).sum

/-- Both loops are over. -/
def Finished (g : CallGraph) (s : TarjanState g.n) : Prop := s.work = [] ∧ g.n ≤ s.next

theorem step_of_finished (h : Finished g s) : g.step s = s := by
  unfold CallGraph.step
  rw [h.1]
  exact dif_neg (not_lt.mpr h.2)

variable {w : Fin g.n}

/-- Visiting a node takes its share out of the sum. -/
theorem unvisitedTurns_visit (hw : s.index w = none) :
    unvisitedTurns g (s.visit w).index + ((g.adj w).length + 2) = unvisitedTurns g s.index := by
  unfold unvisitedTurns
  rw [← Finset.add_sum_erase _ _ (Finset.mem_univ w),
    ← Finset.add_sum_erase (a := w) _ (fun v => if (s.index v).isSome then 0 else _)
      (Finset.mem_univ w)]
  have hrest : ∀ v ∈ Finset.univ.erase w,
      (if ((s.visit w).index v).isSome then 0 else (g.adj v).length + 2)
        = if (s.index v).isSome then 0 else (g.adj v).length + 2 := by
    intro v hv
    have hne := Finset.ne_of_mem_erase hv
    simp [visit, update_of_ne hne]
  rw [Finset.sum_congr rfl hrest]
  simp only [visit, update_self, isSome_some, if_true, hw, isSome_none,
    Bool.false_eq_true, if_false]
  omega

/-- A visit costs the positions of the new node and one turn less than it saves. -/
theorem turnsLeft_visit (hw : s.index w = none) : turnsLeft g (s.visit w) + 1 = turnsLeft g s := by
  have hsum := unvisitedTurns_visit hw
  have hwork : ((s.visit w).work.map fun e => (g.adj e.1).length - e.2 + 1).sum
      = (g.adj w).length + 1 + (s.work.map fun e => (g.adj e.1).length - e.2 + 1).sum := rfl
  have hnext : (s.visit w).next = s.next := rfl
  simp only [turnsLeft, hwork, hnext]
  omega

theorem leave_fields (v : Fin g.n) (rest : List (Fin g.n × Nat)) :
    (s.leave v rest).work = rest ∧ (s.leave v rest).next = s.next ∧
      (s.leave v rest).index = s.index := by
  unfold leave emit
  cases rest with
  | nil | cons e rest => dsimp only; split <;> exact ⟨rfl, rfl, rfl⟩

theorem turnsLeft_step (h : ¬ Finished g s) : turnsLeft g (g.step s) < turnsLeft g s := by
  unfold CallGraph.step
  split
  · next hwork =>
    have hn : s.next < g.n := not_le.mp fun hle => h ⟨hwork, hle⟩
    rw [dif_pos hn]
    have hskip : turnsLeft g { s with next := s.next + 1 } < turnsLeft g s := by
      simp only [turnsLeft]
      omega
    split
    · exact hskip
    · next hvis =>
      have hvisit := turnsLeft_visit (s := { s with next := s.next + 1 })
        (not_isSome_iff_eq_none.mp hvis)
      show turnsLeft g (TarjanState.visit _ _) < turnsLeft g s
      omega
  · next v pos rest hwork =>
    split
    · next w hcall =>
      have hpos := (List.getElem?_eq_some_iff.mp hcall).1
      have hadvance : turnsLeft g { s with work := (v, pos + 1) :: rest } < turnsLeft g s := by
        simp only [turnsLeft, hwork, map_cons, sum_cons]
        omega
      split
      · next hw =>
        have hvisit := turnsLeft_visit (s := { s with work := (v, pos + 1) :: rest })
          (isNone_iff_eq_none.mp hw)
        show turnsLeft g (TarjanState.visit _ _) < turnsLeft g s
        omega
      · split
        · exact hadvance
        · exact hadvance
    · obtain ⟨hw, hn, hi⟩ := leave_fields (s := s) v rest
      simp only [turnsLeft, hw, hn, hi, hwork, map_cons, sum_cons]
      omega

variable {m : Nat}

theorem finished_iterate (hm : turnsLeft g s ≤ m) : Finished g (g.step^[m] s) := by
  induction m generalizing s with
  | zero =>
    by_contra h
    have := turnsLeft_step (s := s) h
    omega
  | succ m ih =>
    by_cases h : Finished g s
    · rw [iterate_succ_apply, step_of_finished h]
      by_cases hm' : turnsLeft g s ≤ m
      · exact ih hm'
      · have hfix : g.step^[m] s = s := iterate_fixed (step_of_finished h) m
        rw [hfix]; exact h
    · rw [iterate_succ_apply]
      have := turnsLeft_step h
      exact ih (by omega)

/-- The state in which the loops end. -/
def final (g : CallGraph) : TarjanState g.n := g.step^[g.turns] (init g.n)

theorem finished_final (g : CallGraph) : Finished g (final g) := by
  refine finished_iterate (Nat.le_of_eq ?_)
  simp [turnsLeft, unvisitedTurns, init, CallGraph.turns]

theorem inv_final (g : CallGraph) : TarjanInv g (final g) :=
  inv_iterate (tarjanInv_init g) _

/-- Nothing happens after the end. -/
theorem iterate_eq_final (hm : g.turns ≤ m) : g.step^[m] (init g.n) = final g := by
  obtain ⟨k, rfl⟩ := Nat.exists_eq_add_of_le hm
  rw [Nat.add_comm, iterate_add_apply]
  exact iterate_fixed (step_of_finished (finished_final g)) k

/-- Every node is in some component. -/
theorem mem_final (v : Fin g.n) : v ∈ (final g).sccs.flatten := by
  obtain ⟨hwork, hnext⟩ := finished_final g
  exact ((inv_final g).path.starts v (lt_of_lt_of_le v.isLt hnext)).resolve_right
    fun h => h.2 hwork

theorem nodup_final (g : CallGraph) : (final g).sccs.flatten.Nodup :=
  (nodup_append.mp (inv_final g).stacked.nodup).2.1

variable {i j : Fin g.n}

/-! ## What one turn does to the visited and the emitted nodes -/

/-- A turn does nothing to them, visits a start or a call of the last path node, or emits a part
of the stack. -/
theorem step_cases (g : CallGraph) (s : TarjanState g.n) :
    ((g.step s).index = s.index ∧ (g.step s).sccs = s.sccs) ∨
    (∃ w, s.index w = none ∧ (g.step s).index = (s.visit w).index ∧ (g.step s).sccs = s.sccs ∧
      ((s.work = [] ∧ w.val = s.next ∧ (g.step s).next = s.next + 1) ∨
        ∃ v pos rest, s.work = (v, pos) :: rest ∧ w ∈ g.adj v)) ∨
    (∃ v pos rest, s.work = (v, pos) :: rest ∧ (g.step s).index = s.index ∧
      (g.step s).sccs = (popUntil v s.stack).1 :: s.sccs) := by
  unfold CallGraph.step
  split
  · next hwork =>
    split
    · next hn =>
      split
      · exact .inl ⟨rfl, rfl⟩
      · next hvis =>
        exact .inr (.inl ⟨⟨s.next, hn⟩, not_isSome_iff_eq_none.mp hvis, rfl, rfl,
          .inl ⟨hwork, rfl, rfl⟩⟩)
    · exact .inl ⟨rfl, rfl⟩
  · next v pos rest hwork =>
    split
    · next w hcall =>
      split
      · next hw =>
        exact .inr (.inl ⟨w, isNone_iff_eq_none.mp hw, rfl, rfl,
          .inr ⟨v, pos, rest, hwork, mem_of_getElem? hcall⟩⟩)
      · split
        · exact .inl ⟨rfl, rfl⟩
        · exact .inl ⟨rfl, rfl⟩
    · -- lowering the parent's lowlink changes neither `index` nor `sccs`
      unfold leave emit
      cases rest with
      | nil =>
        dsimp only
        split
        · exact .inr (.inr ⟨v, pos, [], hwork, rfl, rfl⟩)
        · exact .inl ⟨rfl, rfl⟩
      | cons e rest =>
        dsimp only
        split
        · exact .inr (.inr ⟨v, pos, e :: rest, hwork, rfl, rfl⟩)
        · exact .inl ⟨rfl, rfl⟩

theorem next_step (g : CallGraph) (s : TarjanState g.n) :
    (g.step s).next = s.next ∨ (s.work = [] ∧ (g.step s).next = s.next + 1) := by
  unfold CallGraph.step
  split
  · next hwork =>
    split
    · split
      · exact .inr ⟨hwork, rfl⟩
      · exact .inr ⟨hwork, rfl⟩
    · exact .inl rfl
  · next v pos rest hwork =>
    split
    · split
      · exact .inl rfl
      · split
        · exact .inl rfl
        · exact .inl rfl
    · exact .inl (leave_fields v rest).2.1

variable {v : Fin g.n}

theorem index_step (h : (s.index v).isSome) : ((g.step s).index v).isSome := by
  rcases step_cases g s with ⟨hi, -⟩ | ⟨w, -, hi, -⟩ | ⟨-, -, -, -, hi, -⟩
  · rw [hi]; exact h
  · rw [hi]; exact (index_visit s v w).mpr (.inr h)
  · rw [hi]; exact h

/-! ## Every node of the stack reaches the last path node -/

variable {u : Fin g.n}

/-- A node of the stack reaches a node of the path: its lowlink leads to an older one until then. -/
theorem reaches_path (h : TarjanInv g s) (hu : u ∈ s.stack) : ∃ p ∈ s.path, g.Reaches u p := by
  induction hk : s.idx u using Nat.strong_induction_on generalizing u with
  | _ k ih =>
    by_cases hp : u ∈ s.path
    · exact ⟨u, hp, .refl⟩
    · obtain ⟨w, hw, hwidx, huw⟩ := h.low.witness u hu
      have hlt := h.low.lt u hu hp
      obtain ⟨p, hp, hwp⟩ := ih (s.idx w) (by omega) hw rfl
      exact ⟨p, hp, huw.trans hwp⟩

theorem reaches_top (h : TarjanInv g s) {pos : Nat} {rest : List (Fin g.n × Nat)}
    (hwork : s.work = (v, pos) :: rest) (hu : u ∈ s.stack) : g.Reaches u v := by
  obtain ⟨p, hp, hup⟩ := reaches_path h hu
  have hv : v ∈ s.path := by simp [TarjanState.path, hwork]
  exact hup.trans (h.path.reach v (h.path.mem_stack hv) p hp (h.path.idx_le_top hwork hp))

/-! ## The node that is visited first is emitted first -/

/-- `i` is in an earlier component than `j` (the last component first). -/
def Precedes (i j : Fin g.n) (sccs : List (List (Fin g.n))) : Prop :=
  ∀ scc earlier, (scc :: earlier) <:+ sccs → i ∈ scc → j ∉ scc ∧ j ∉ earlier.flatten

/-- `i` is visited, and `j` is visited only when `i` is emitted already. -/
structure Ahead (i j : Fin g.n) (s : TarjanState g.n) : Prop where
  visited : (s.index i).isSome
  emitted : (s.index j).isSome → i ∈ s.sccs.flatten
  precedes : Precedes i j s.sccs

theorem ahead_step (hij : ¬ g.Reaches i j) (h : TarjanInv g s) (ha : Ahead i j s) :
    Ahead i j (g.step s) := by
  have hvisited := index_step ha.visited
  rcases step_cases g s with ⟨hi, hs⟩ | ⟨w, hw, hi, hs, hfrom⟩ | ⟨v, pos, rest, hwork, hi, hs⟩
  · exact ⟨hvisited, by rw [hi, hs]; exact ha.emitted, by rw [hs]; exact ha.precedes⟩
  · refine ⟨hvisited, ?_, by rw [hs]; exact ha.precedes⟩
    rw [hi, hs, index_visit]
    rintro (rfl | hj)
    · -- `j` is visited now: `i` on the stack would reach it
      refine ((h.stacked.visited_iff i).mp ha.visited).resolve_left fun hstack => ?_
      rcases hfrom with ⟨hwork, -⟩ | ⟨v, pos, rest, hwork, hcall⟩
      · rw [h.path.idle hwork] at hstack
        cases hstack
      · exact hij ((reaches_top h hwork hstack).tail hcall)
    · exact ha.emitted hj
  · have hscc : ∀ u ∈ (popUntil v s.stack).1, u ∈ s.stack := fun u hu => by
      rw [← popUntil_append v s.stack]
      exact mem_append_left _ hu
    have hdisjoint := (nodup_append.mp h.stacked.nodup).2.2
    refine ⟨hvisited, ?_, ?_⟩
    · rw [hi, hs, flatten_cons, mem_append]
      exact fun hj => .inr (ha.emitted hj)
    · rw [hs]
      intro scc earlier hsuf hmem
      rcases suffix_cons_iff.mp hsuf with heq | hsuf
      · -- the component that is emitted now
        obtain ⟨rfl, rfl⟩ := cons.inj heq
        have hnot : ¬ (s.index j).isSome := fun hj =>
          hdisjoint i (hscc i hmem) i (ha.emitted hj) rfl
        rw [h.stacked.visited_iff] at hnot
        exact ⟨fun hj => hnot (.inl (hscc j hj)), fun hj => hnot (.inr hj)⟩
      · exact ha.precedes scc earlier hsuf hmem

theorem ahead_iterate (hij : ¬ g.Reaches i j) (h : TarjanInv g s) (ha : Ahead i j s) (m : Nat) :
    Ahead i j (g.step^[m] s) := by
  induction m generalizing s with
  | zero => exact ha
  | succ m ih => exact ih (inv_step h) (ahead_step hij h ha)

/-- Of two nodes, the one that is visited first and does not reach the other is emitted first. -/
theorem emitted_before (hij : ¬ g.Reaches i j) (hi : ((g.step^[m] (init g.n)).index i).isSome)
    (hj : (g.step^[m] (init g.n)).index j = none) : Precedes i j (final g).sccs := by
  have hinv : TarjanInv g (g.step^[m] (init g.n)) := inv_iterate (tarjanInv_init g) m
  have hahead : Ahead i j (g.step^[m] (init g.n)) := by
    refine ⟨hi, by simp [hj], fun scc earlier hsuf _ => ?_⟩
    have hnot : j ∉ (g.step^[m] (init g.n)).sccs.flatten := fun hmem => by
      have := (hinv.stacked.visited_iff j).mpr (.inr hmem)
      rw [hj] at this
      cases this
    have hsub : ∀ u, u ∈ (scc :: earlier).flatten → u ∈ (g.step^[m] (init g.n)).sccs.flatten := by
      intro u hu
      obtain ⟨C, hC, huC⟩ := mem_flatten.mp hu
      exact mem_flatten.mpr ⟨C, hsuf.subset hC, huC⟩
    rw [flatten_cons] at hsub
    exact ⟨fun h => hnot (hsub j (mem_append_left _ h)),
      fun h => hnot (hsub j (mem_append_right _ h))⟩
  have := ahead_iterate hij hinv hahead g.turns
  rw [← iterate_add_apply, iterate_eq_final (Nat.le_add_right _ _)] at this
  exact this.precedes

/-! ## The outer loop takes the starts one by one -/

/-- Whatever is visited is reachable from a start that was taken. -/
def Started (s : TarjanState g.n) : Prop :=
  ∀ v, (s.index v).isSome → ∃ start : Fin g.n, start.val < s.next ∧ g.Reaches start v

theorem next_le_step (g : CallGraph) (s : TarjanState g.n) : s.next ≤ (g.step s).next := by
  rcases next_step g s with h | ⟨-, h⟩ <;> omega

theorem started_step (h : TarjanInv g s) (hs : Started s) : Started (g.step s) := by
  have hle := next_le_step g s
  have hold : ∀ v, (s.index v).isSome →
      ∃ start : Fin g.n, start.val < (g.step s).next ∧ g.Reaches start v := fun v hv => by
    obtain ⟨start, hlt, hreach⟩ := hs v hv
    exact ⟨start, by omega, hreach⟩
  intro v hv
  rcases step_cases g s with ⟨hi, -⟩ | ⟨w, -, hi, -, hfrom⟩ | ⟨-, -, -, -, hi, -⟩
  · rw [hi] at hv; exact hold v hv
  · rw [hi, index_visit] at hv
    rcases hv with rfl | hv
    · rcases hfrom with ⟨-, hnext, hnext'⟩ | ⟨u, pos, rest, hwork, hcall⟩
      · exact ⟨v, by omega, .refl⟩
      · have hu : u ∈ s.stack := (h.path.mem (u, pos) (by simp [hwork])).1
        obtain ⟨start, hlt, hreach⟩ := hold u ((h.stacked.visited_iff u).mpr (.inl hu))
        exact ⟨start, hlt, hreach.tail hcall⟩
    · exact hold v hv
  · rw [hi] at hv; exact hold v hv

theorem started_iterate (m : Nat) : Started (g := g) (g.step^[m] (init g.n)) := by
  induction m with
  | zero => intro v hv; simp [init] at hv
  | succ m ih =>
    rw [iterate_succ_apply']
    exact started_step (inv_iterate (tarjanInv_init g) m) ih

/-- The outer loop comes to every start. -/
theorem exists_turn_at (r : Fin g.n) :
    ∃ m, (g.step^[m] (init g.n)).work = [] ∧ (g.step^[m] (init g.n)).next = r.val := by
  have hpast : ∃ m, r.val < (g.step^[m] (init g.n)).next :=
    ⟨g.turns, lt_of_lt_of_le r.isLt (finished_final g).2⟩
  classical
  -- the turn before the first one after which `r` is behind
  have hfirst := Nat.find_spec hpast
  cases hm : Nat.find hpast with
  | zero =>
    rw [hm] at hfirst
    simp [init] at hfirst
  | succ m =>
    have hbefore : ¬ r.val < (g.step^[m] (init g.n)).next :=
      Nat.find_min hpast (by omega)
    rw [hm, iterate_succ_apply'] at hfirst
    rcases next_step g (g.step^[m] (init g.n)) with h | ⟨hwork, h⟩
    · omega
    · exact ⟨m, hwork, by omega⟩

/-! ## An order of the calls that visits a chosen node early -/

section Order

variable {n : Nat} (calls : Fin n → List (Fin n)) (target : Fin n)

/-- `target` is `k` calls away. -/
def ReachesIn : Nat → Fin n → Prop
  | 0, v => v = target
  | k + 1, v => ∃ w ∈ calls v, ReachesIn k w

variable {v : Fin n}

theorem exists_reachesIn :
    (CallGraph.mk n calls).Reaches v target ↔ ∃ k, ReachesIn calls target k v := by
  constructor
  · intro h
    induction h using ReflTransGen.head_induction_on with
    | refl => exact ⟨0, rfl⟩
    | head hvw _ ih =>
      obtain ⟨k, hk⟩ := ih
      exact ⟨k + 1, _, hvw, hk⟩
  · rintro ⟨k, hk⟩
    induction k generalizing v with
    | zero => exact hk ▸ .refl
    | succ k ih =>
      obtain ⟨w, hvw, hk⟩ := hk
      exact .head hvw (ih hk)

open Classical in
/-- How far `target` is. -/
noncomputable def distance (v : Fin n) : Nat :=
  if h : ∃ k, ReachesIn calls target k v then Nat.find h else 0

theorem reachesIn_distance (h : (CallGraph.mk n calls).Reaches v target) :
    ReachesIn calls target (distance calls target v) v := by
  classical
  have hex := (exists_reachesIn calls target).mp h
  rw [distance, dif_pos hex]
  exact Nat.find_spec hex

theorem distance_le {k : Nat} (h : ReachesIn calls target k v) : distance calls target v ≤ k := by
  classical
  rw [distance, dif_pos ⟨k, h⟩]
  exact Nat.find_min' ⟨k, h⟩ h

theorem exists_nearer (h : (CallGraph.mk n calls).Reaches v target) (hne : v ≠ target) :
    ∃ w ∈ calls v, (CallGraph.mk n calls).Reaches w target ∧
      distance calls target w < distance calls target v := by
  have hk := reachesIn_distance calls target h
  cases hd : distance calls target v with
  | zero =>
    rw [hd] at hk
    exact absurd hk hne
  | succ k =>
    rw [hd] at hk
    obtain ⟨w, hvw, hw⟩ := hk
    exact ⟨w, hvw, (exists_reachesIn calls target).mpr ⟨k, hw⟩,
      Nat.lt_succ_of_le (distance_le calls target hw)⟩

open Classical in
/-- The calls of `v`, one that leads nearer to the target first. -/
noncomputable def nearerFirst (v : Fin n) : List (Fin n) :=
  if h : (CallGraph.mk n calls).Reaches v target ∧ v ≠ target then
    (exists_nearer calls target h.1 h.2).choose ::
      (calls v).erase (exists_nearer calls target h.1 h.2).choose
  else calls v

theorem nearerFirst_perm (v : Fin n) : (nearerFirst calls target v).Perm (calls v) := by
  classical
  unfold nearerFirst
  split
  · next h =>
    exact (perm_cons_erase (exists_nearer calls target h.1 h.2).choose_spec.1).symm
  · exact .refl _

theorem nearerFirst_head (h : (CallGraph.mk n calls).Reaches v target) (hne : v ≠ target) :
    ∃ w, (nearerFirst calls target v)[0]? = some w ∧
      (CallGraph.mk n calls).Reaches w target ∧
      distance calls target w < distance calls target v := by
  classical
  have hspec := (exists_nearer calls target h hne).choose_spec
  refine ⟨(exists_nearer calls target h hne).choose, ?_, hspec.2⟩
  rw [nearerFirst, dif_pos ⟨h, hne⟩]
  rfl

/-- The search goes straight down to the target when the nodes nearer to it are unvisited, and
visits only nodes that reach it. -/
theorem descend_to_target {s : TarjanState n} {rest : List (Fin n × Nat)}
    (hwork : s.work = (v, 0) :: rest) (hvis : (s.index v).isSome)
    (hv : (CallGraph.mk n calls).Reaches v target)
    (hunvisited : ∀ u, (CallGraph.mk n calls).Reaches u target → distance calls target u < distance calls target v → s.index u = none) :
    ∃ m, (((CallGraph.mk n (nearerFirst calls target)).step^[m] s).index target).isSome ∧
      ∀ u, ¬ (CallGraph.mk n calls).Reaches u target →
        ((CallGraph.mk n (nearerFirst calls target)).step^[m] s).index u = s.index u := by
  induction hd : distance calls target v using Nat.strong_induction_on generalizing s v rest with
  | _ d ih =>
    by_cases hvt : v = target
    · subst hvt
      exact ⟨0, hvis, fun _ _ => rfl⟩
    · obtain ⟨w, hfirst, hw, hdist⟩ := nearerFirst_head calls target hv hvt
      have hstep : (CallGraph.mk n (nearerFirst calls target)).step s =
          ({ s with work := (v, 1) :: rest } : TarjanState n).visit w := by
        have hnone : (s.index w).isNone := by rw [hunvisited w hw hdist]; rfl
        simp only [CallGraph.step, hwork, hfirst, hnone, if_true]
      set s' := ({ s with work := (v, 1) :: rest } : TarjanState n).visit w with hs'
      have hindex : ∀ u, u ≠ w → s'.index u = s.index u := fun u hu => by
        simp [hs', visit, update_of_ne hu]
      obtain ⟨m, htarget, hsame⟩ := ih (distance calls target w) (by omega) (s := s') rfl
        (by simp [hs', visit]) hw (fun u hu hlt => by
          rw [hindex u (by rintro rfl; exact lt_irrefl _ hlt)]
          exact hunvisited u hu (by omega)) rfl
      refine ⟨m + 1, ?_, fun u hu => ?_⟩
      · rw [iterate_succ_apply, hstep]
        exact htarget
      · rw [iterate_succ_apply, hstep, hsame u hu]
        exact hindex u (by rintro rfl; exact hu hw)

end Order

theorem CallGraph.Layered.of_suffix {sccs sccs' : List (List (Fin g.n))} (h : g.Layered sccs)
    (hsuf : sccs' <:+ sccs) : g.Layered sccs' := by
  induction sccs with
  | nil =>
    rw [suffix_nil.mp hsuf]
    trivial
  | cons scc earlier ih =>
    rcases suffix_cons_iff.mp hsuf with rfl | hsuf
    · exact h
    · exact ih h.2.2.2 hsuf

/-- A caller that is not called back comes later, in every order. -/
theorem precedes_of_reaches (hij : ¬ g.Reaches i j) (hji : g.Reaches j i) :
    Precedes i j (final g).sccs := by
  intro scc earlier hsuf hi
  obtain ⟨-, hconnected, -, hearlier⟩ :=
    (inv_final g).stacked.layered.of_suffix hsuf
  refine ⟨fun hj => hij (hconnected i hi j hj), fun hj => ?_⟩
  have hnodup : (scc ++ earlier.flatten).Nodup :=
    (hsuf.sublist.flatten).nodup (nodup_final g)
  exact (nodup_append.mp hnodup).2.2 i hi i (hearlier.closed hj hji) rfl

/-- In the order that leads straight to `i`, the component of `i` comes before everything that `i`
does not reach, unless that is reachable from a start before everything that reaches `i`. -/
theorem precedes_nearerFirst {n : Nat} (calls : Fin n → List (Fin n)) {i j : Fin n}
    (hij : ¬ (CallGraph.mk n calls).Reaches i j)
    (hstart : ¬ (CallGraph.mk n calls).StartsEarlier j i) :
    Precedes (g := CallGraph.mk n (nearerFirst calls i)) i j
      (final (CallGraph.mk n (nearerFirst calls i))).sccs := by
  have hperm := nearerFirst_perm calls i
  set g' := CallGraph.mk n (nearerFirst calls i) with hg'
  have hedge : g'.Edge = (CallGraph.mk n calls).Edge := by
    funext v w
    exact propext (hperm v).mem_iff
  have hreach : ∀ v w, g'.Reaches v w ↔ (CallGraph.mk n calls).Reaches v w := fun v w => by
    rw [CallGraph.Reaches, CallGraph.Reaches, hedge]
  by_cases hji : (CallGraph.mk n calls).Reaches j i
  · exact precedes_of_reaches (by rw [hreach]; exact hij) (by rw [hreach]; exact hji)
  -- `r` is the first start that reaches `i`, and none before it reaches `j`
  obtain ⟨r, hri, hfirst⟩ := wellFounded_lt.has_min
    {t | (CallGraph.mk n calls).Reaches t i} ⟨i, .refl⟩
  have hbefore : ∀ t, (CallGraph.mk n calls).Reaches t j → ¬ t < r := by
    intro t ht hlt
    refine hstart ⟨t, ht, fun u hu => ?_⟩
    exact lt_of_lt_of_le hlt (not_lt.mp (hfirst u hu))
  obtain ⟨m, hwork, hnext⟩ := exists_turn_at (g := g') r
  have hstarted := started_iterate (g := g') m
  set s := g'.step^[m] (init g'.n) with hs
  -- before `r` is taken, nothing that reaches `i` is visited, and neither is `j`
  have hunvisited : ∀ u, (CallGraph.mk n calls).Reaches u i → s.index u = none := by
    intro u hu
    by_contra hne
    obtain ⟨t, hlt, ht⟩ := hstarted u (isSome_iff_ne_none.mpr hne)
    rw [hnext] at hlt
    exact hfirst t (((hreach t u).mp ht).trans hu) hlt
  have hj : s.index j = none := by
    by_contra hne
    obtain ⟨t, hlt, ht⟩ := hstarted j (isSome_iff_ne_none.mpr hne)
    rw [hnext] at hlt
    exact hbefore t ((hreach t j).mp ht) hlt
  have hstep : g'.step s = ({ s with next := s.next + 1 } : TarjanState n).visit r := by
    have hlt : s.next < n := by rw [hnext]; exact r.isLt
    have hr : (⟨s.next, hlt⟩ : Fin n) = r := Fin.ext hnext
    have hnone : (s.index r).isSome = false := by rw [hunvisited r hri]; rfl
    unfold CallGraph.step
    rw [hwork]
    show (if h : s.next < n then _ else _) = _
    rw [dif_pos hlt]
    show (if (s.index ⟨s.next, hlt⟩).isSome = true then _ else _) = _
    rw [hr, hnone]
    rfl
  set s' := ({ s with next := s.next + 1 } : TarjanState n).visit r with hs'
  have hindex : ∀ u, u ≠ r → s'.index u = s.index u := fun u hu => by
    simp [hs', visit, update_of_ne hu]
  obtain ⟨m', htarget, hsame⟩ := descend_to_target calls i (s := s') (v := r)
    (show s'.work = [(r, 0)] by simp [hs', visit, hwork]) (by simp [hs', visit]) hri (fun u hu hlt => by
      rw [hindex u (by rintro rfl; exact lt_irrefl _ hlt)]
      exact hunvisited u hu)
  have hrun : g'.step^[m' + 1 + m] (init g'.n) = g'.step^[m'] s' := by
    rw [Nat.add_assoc, iterate_add_apply, Nat.add_comm 1 m,
      iterate_succ_apply', ← hs, hstep]
  refine emitted_before (g := g') (m := m' + 1 + m) ?_ ?_ ?_
  · rw [hreach]; exact hij
  · rw [hrun]; exact htarget
  · rw [hrun, hsame j hji, hindex j (by rintro rfl; exact hji hri)]
    exact hj

/-! ## The order of the result -/

theorem mem_tarjanSccs (g : CallGraph) (v : Fin g.n) : v ∈ (tarjanSccs g).flatten := by
  have h := mem_final v
  simp only [tarjanSccs, final, mem_flatten, mem_reverse] at h ⊢
  exact h

section Split

variable {before after : List (List (Fin g.n))} {scc : List (Fin g.n)}
  (hsplit : tarjanSccs g = before ++ scc :: after)

include hsplit

theorem final_of_split : (final g).sccs = after.reverse ++ scc :: before.reverse := by
  have hrev := congrArg List.reverse hsplit
  rw [tarjanSccs, reverse_reverse] at hrev
  rw [final, hrev]
  simp

/-- A component and those before it hold all that it reaches or that starts earlier. -/
theorem mem_of_split (hi : i ∈ scc) (hij : g.Reaches i j ∨ g.StartsEarlier j i) :
    j ∈ scc ∨ j ∈ before.flatten := by
  have hlayered : g.Layered (scc :: before.reverse) := by
    refine (inv_final g).stacked.layered.of_suffix ?_
    rw [final_of_split hsplit]
    exact suffix_append _ _
  have hflat : j ∈ before.reverse.flatten → j ∈ before.flatten := by
    simp only [mem_flatten, mem_reverse]
    exact id
  rcases hij with hij | hij
  · have hmem := hlayered.closed (v := i)
      (by rw [flatten_cons]; exact mem_append_left _ hi) hij
    rw [flatten_cons, mem_append] at hmem
    exact hmem.imp_right hflat
  · exact .inr (hflat (hlayered.2.2.1 i hi j hij))

theorem not_mem_of_precedes (hi : i ∈ scc) (h : Precedes i j (final g).sccs) :
    j ∉ scc ∧ j ∉ before.flatten := by
  have hsuf : (scc :: before.reverse) <:+ (final g).sccs := by
    rw [final_of_split hsplit]
    exact suffix_append _ _
  obtain ⟨hscc, hbefore⟩ := h scc before.reverse hsuf hi
  simp only [mem_flatten, mem_reverse] at hbefore ⊢
  exact ⟨hscc, hbefore⟩

end Split

end Ridge
