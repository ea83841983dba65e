import Ridge.Scc.Tarjan

/-!
# The invariant of Tarjan's algorithm

Between two turns the nodes fall into three kinds: unvisited, on the stack, emitted. `Stacked` is
the bookkeeping of the three; `Path` says that the work stack is the current path of the search
and that what it has processed is visited; `Low` says what the lowlinks know. The emitted
components are `Layered`: closed under calls up to earlier components, strongly connected, and
later than everything that is reachable from an earlier start.

`inv_step` goes through the seven things a turn can do.
-/

namespace Ridge

open Relation List

namespace CallGraph

variable {g : CallGraph}

/-- `w` is reachable from a start the outer loop takes before every one that reaches `v`. -/
def StartsEarlier (g : CallGraph) (w v : Fin g.n) : Prop :=
  ∃ s, g.Reaches s w ∧ ∀ t, g.Reaches t v → s < t

/-- The components emitted so far, the last one first. -/
def Layered (g : CallGraph) : List (List (Fin g.n)) → Prop
  | [] => True
  | scc :: earlier =>
    (∀ v ∈ scc, ∀ w ∈ g.adj v, w ∈ scc ∨ w ∈ earlier.flatten) ∧
    (∀ v ∈ scc, ∀ w ∈ scc, g.Reaches v w) ∧
    (∀ v ∈ scc, ∀ w, g.StartsEarlier w v → w ∈ earlier.flatten) ∧
    g.Layered earlier

/-- Emitted components are closed under calls. -/
theorem Layered.closed {sccs : List (List (Fin g.n))} (h : g.Layered sccs) {v w : Fin g.n}
    (hv : v ∈ sccs.flatten) (hvw : g.Reaches v w) : w ∈ sccs.flatten := by
  induction hvw with
  | refl => exact hv
  | @tail u w _ huw hu =>
    clear hv
    induction sccs with
    | nil => simp at hu
    | cons scc earlier ih =>
      obtain ⟨hclosed, -, -, hearlier⟩ := h
      rw [flatten_cons, mem_append] at hu ⊢
      rcases hu with hu | hu
      · exact hclosed u hu w huw
      · exact .inr (ih hearlier hu)

end CallGraph

open CallGraph TarjanState

namespace TarjanState

variable {n : Nat}

variable (s : TarjanState n)

/-- The number of a visited node. -/
def idx (v : Fin n) : Nat := (s.index v).getD 0

/-- The nodes of the current path, the last one first. -/
def path : List (Fin n) := s.work.map Prod.fst

/-- The turn that processes the call at position `k` of `u` is over. -/
def Processed (u : Fin n) (k : Nat) : Prop :=
  ∀ p, (u, p) ∈ s.work → k < p

end TarjanState

/-- The bookkeeping of stack and emitted components. -/
structure Stacked (g : CallGraph) (s : TarjanState g.n) : Prop where
  sorted : s.stack.Pairwise fun a b => s.idx b < s.idx a
  on_iff : ∀ v, s.onStack v = true ↔ v ∈ s.stack
  visited_iff : ∀ v, (s.index v).isSome ↔ v ∈ s.stack ∨ v ∈ s.sccs.flatten
  fresh : ∀ v, (s.index v).isSome → s.idx v < s.indexCounter
  nodup : (s.stack ++ s.sccs.flatten).Nodup
  layered : g.Layered s.sccs

/-- The work stack is the current path, and what it has processed is visited. -/
structure Path (g : CallGraph) (s : TarjanState g.n) : Prop where
  mem : ∀ e ∈ s.work, e.1 ∈ s.stack ∧ e.2 ≤ (g.adj e.1).length
  sorted : s.work.Pairwise fun a b => s.idx b.1 < s.idx a.1
  seen : ∀ u ∈ s.stack, ∀ k w, (g.adj u)[k]? = some w → s.Processed u k → (s.index w).isSome
  reach : ∀ u ∈ s.stack, ∀ v ∈ s.path, s.idx v ≤ s.idx u → g.Reaches v u
  /-- The path begins at the current start, below everything else on the stack. -/
  bottom : s.work ≠ [] → ∃ start, start.val + 1 = s.next ∧ start ∈ s.path ∧
    ∀ u ∈ s.stack, s.idx start ≤ s.idx u
  idle : s.work = [] → s.stack = []
  starts : ∀ v, v.val < s.next → v ∈ s.sccs.flatten ∨ (v.val + 1 = s.next ∧ s.work ≠ [])

/-- What the lowlinks know. -/
structure Low (g : CallGraph) (s : TarjanState g.n) : Prop where
  le : ∀ u ∈ s.stack, s.lowlink u ≤ s.idx u
  /-- A lowlink is the number of a node of the stack that is reachable. -/
  witness : ∀ u ∈ s.stack, ∃ w ∈ s.stack, s.idx w = s.lowlink u ∧ g.Reaches u w
  edge : ∀ u ∈ s.stack, ∀ k w, (g.adj u)[k]? = some w → s.Processed u k → w ∈ s.stack →
    s.lowlink u ≤ s.idx w
  /-- A node that is left but not emitted is no root … -/
  lt : ∀ u ∈ s.stack, u ∉ s.path → s.lowlink u < s.idx u
  /-- … and has handed its lowlink to the last path node before it. -/
  tree : ∀ u ∈ s.stack, u ∉ s.path → ∃ v ∈ s.path, s.idx v < s.idx u ∧
    s.lowlink v ≤ s.lowlink u ∧ ∀ v' ∈ s.path, s.idx v' < s.idx u → s.idx v' ≤ s.idx v

structure TarjanInv (g : CallGraph) (s : TarjanState g.n) : Prop where
  stacked : Stacked g s
  path : Path g s
  low : Low g s

variable {g : CallGraph} {s : TarjanState g.n} {v w : Fin g.n} {pos : Nat}
  {rest : List (Fin g.n × Nat)} {u : Fin g.n}

theorem tarjanInv_init (g : CallGraph) : TarjanInv g (init g.n) := by
  refine ⟨⟨.nil, ?_, ?_, ?_, nodup_nil, trivial⟩, ⟨?_, .nil, ?_, ?_, ?_, ?_, ?_⟩,
    ⟨?_, ?_, ?_, ?_, ?_⟩⟩ <;> simp [init]

/-! ## Nodes and their numbers -/

theorem Stacked.idx_inj (h : Stacked g s) {a b : Fin g.n} (ha : a ∈ s.stack) (hb : b ∈ s.stack)
    (hab : s.idx a = s.idx b) : a = b := by
  have hnodup : (s.stack.map s.idx).Nodup :=
    pairwise_map.mpr (h.sorted.imp fun hlt => Nat.ne_of_gt hlt)
  exact inj_on_of_nodup_map hnodup ha hb hab

theorem mem_path_iff : v ∈ s.path ↔ ∃ p, (v, p) ∈ s.work := by
  simp [TarjanState.path]

theorem Path.mem_stack (h : Path g s) (hv : v ∈ s.path) : v ∈ s.stack := by
  obtain ⟨p, hp⟩ := mem_path_iff.mp hv
  exact (h.mem _ hp).1

theorem popUntil_append (v : Fin g.n) (stack : List (Fin g.n)) :
    (popUntil v stack).1 ++ (popUntil v stack).2 = stack := by
  induction stack with
  | nil => rfl
  | cons w stack ih =>
    rw [popUntil]
    split
    · rfl
    · exact congrArg (w :: ·) ih

/-- Popping a sorted stack down to `v` takes what was visited since `v`. -/
theorem mem_popUntil {f : Fin g.n → Nat} {stack : List (Fin g.n)}
    (hsorted : stack.Pairwise fun a b => f b < f a) (hv : v ∈ stack) (u : Fin g.n) :
    (u ∈ (popUntil v stack).1 ↔ u ∈ stack ∧ f v ≤ f u) ∧
      (u ∈ (popUntil v stack).2 ↔ u ∈ stack ∧ f u < f v) := by
  induction stack with
  | nil => simp at hv
  | cons w stack ih =>
    obtain ⟨hw, hsorted⟩ := pairwise_cons.mp hsorted
    rw [popUntil]
    split
    · next heq =>
      subst heq
      simp only [mem_cons, mem_nil_iff, or_false]
      constructor
      · constructor
        · rintro rfl; exact ⟨.inl rfl, le_refl _⟩
        · rintro ⟨rfl | hu, hle⟩
          · rfl
          · exact absurd (hw u hu) (by omega)
      · constructor
        · intro hu
          exact ⟨.inr hu, hw u hu⟩
        · rintro ⟨rfl | hu, hlt⟩
          · omega
          · exact hu
    · next hne =>
      have hv' : v ∈ stack := (mem_cons.mp hv).resolve_left fun h => hne h.symm
      obtain ⟨ih₁, ih₂⟩ := ih hsorted hv'
      have hwv := hw v hv'
      simp only [mem_cons, ih₁, ih₂]
      constructor
      · constructor
        · rintro (rfl | ⟨hu, hle⟩)
          · exact ⟨.inl rfl, by omega⟩
          · exact ⟨.inr hu, hle⟩
        · rintro ⟨rfl | hu, hle⟩
          · exact .inl rfl
          · exact .inr ⟨hu, hle⟩
      · constructor
        · rintro ⟨hu, hlt⟩
          exact ⟨.inr hu, hlt⟩
        · rintro ⟨rfl | hu, hlt⟩
          · omega
          · exact ⟨hu, hlt⟩

/-! ## Visiting a node -/

section

variable (s : TarjanState g.n)

@[simp] theorem idx_visit_self (w : Fin g.n) : (s.visit w).idx w = s.indexCounter := by
  simp [idx, visit]

theorem idx_visit_of_ne (h : u ≠ w) : (s.visit w).idx u = s.idx u := by
  simp [idx, visit, Function.update_of_ne h]

theorem lowlink_visit_of_ne (h : u ≠ w) : (s.visit w).lowlink u = s.lowlink u := by
  simp [visit, Function.update_of_ne h]

@[simp] theorem lowlink_visit_self (w : Fin g.n) : (s.visit w).lowlink w = s.indexCounter := by
  simp [visit]

theorem index_visit (u w : Fin g.n) :
    ((s.visit w).index u).isSome ↔ u = w ∨ (s.index u).isSome := by
  by_cases h : u = w
  · subst h; simp [visit]
  · simp [visit, h]

end

theorem Stacked.ne_of_unvisited (h : Stacked g s) (hw : s.index w = none) (hu : u ∈ s.stack) :
    u ≠ w := by
  rintro rfl
  have := (h.visited_iff u).mpr (.inl hu)
  rw [hw] at this
  cases this

theorem Stacked.visit (h : Stacked g s) (hw : s.index w = none) : Stacked g (s.visit w) := by
  have hne := fun u hu => h.ne_of_unvisited hw (u := u) hu
  have hlt : ∀ u ∈ s.stack, s.idx u < s.indexCounter := fun u hu =>
    h.fresh u ((h.visited_iff u).mpr (.inl hu))
  refine ⟨?_, fun v => ?_, fun v => ?_, fun v hv => ?_, ?_, h.layered⟩
  · refine pairwise_cons.mpr ⟨fun u hu => ?_, h.sorted.imp_of_mem fun {a b} ha hb hab => ?_⟩
    · rw [idx_visit_self, idx_visit_of_ne s (hne u hu)]
      exact hlt u hu
    · rwa [idx_visit_of_ne s (hne a ha), idx_visit_of_ne s (hne b hb)]
  · show Function.update s.onStack w true v = true ↔ v ∈ w :: s.stack
    by_cases hvw : v = w
    · simp [hvw]
    · simp [hvw, h.on_iff]
  · rw [index_visit, h.visited_iff]
    show _ ↔ v ∈ w :: s.stack ∨ _
    rw [mem_cons, or_assoc]
    rfl
  · rw [index_visit] at hv
    show _ < s.indexCounter + 1
    by_cases hvw : v = w
    · rw [hvw, idx_visit_self]; omega
    · rw [idx_visit_of_ne s hvw]
      have := h.fresh v (hv.resolve_left hvw)
      omega
  · show (w :: (s.stack ++ s.sccs.flatten)).Nodup
    refine nodup_cons.mpr ⟨fun hmem => ?_, h.nodup⟩
    have := (h.visited_iff w).mpr (mem_append.mp hmem)
    rw [hw] at this
    cases this

/-! ## The turns -/

/-- A start that is already visited is passed over. -/
theorem inv_skip (h : TarjanInv g s) (hwork : s.work = []) (hn : s.next < g.n)
    (hvis : (s.index ⟨s.next, hn⟩).isSome) : TarjanInv g { s with next := s.next + 1 } := by
  have hstack := h.path.idle hwork
  refine ⟨⟨h.stacked.sorted, h.stacked.on_iff, h.stacked.visited_iff, h.stacked.fresh,
    h.stacked.nodup, h.stacked.layered⟩,
    ⟨h.path.mem, h.path.sorted, h.path.seen, h.path.reach, fun hne => absurd hwork hne,
      h.path.idle, fun v hv => .inl ?_⟩,
    ⟨h.low.le, h.low.witness, h.low.edge, h.low.lt, h.low.tree⟩⟩
  rcases Nat.lt_succ_iff_lt_or_eq.mp hv with hlt | heq
  · exact (h.path.starts v hlt).resolve_right fun hr => hr.2 hwork
  · obtain rfl : v = ⟨s.next, hn⟩ := Fin.ext heq
    refine ((h.stacked.visited_iff _).mp hvis).resolve_left fun hmem => ?_
    rw [hstack] at hmem
    cases hmem

theorem inv_start (h : TarjanInv g s) (hwork : s.work = []) (hn : s.next < g.n)
    (hvis : s.index ⟨s.next, hn⟩ = none) :
    TarjanInv g (({ s with next := s.next + 1 } : TarjanState g.n).visit ⟨s.next, hn⟩) := by
  have hstack := h.path.idle hwork
  set w : Fin g.n := ⟨s.next, hn⟩ with hw
  have hstacked : Stacked g { s with next := s.next + 1 } :=
    ⟨h.stacked.sorted, h.stacked.on_iff, h.stacked.visited_iff, h.stacked.fresh,
      h.stacked.nodup, h.stacked.layered⟩
  set s' := ({ s with next := s.next + 1 } : TarjanState g.n).visit w with hs'
  have hst : s'.stack = [w] := by simp [hs', visit, hstack]
  have hwk : s'.work = [(w, 0)] := by simp [hs', visit, hwork]
  have hpath : s'.path = [w] := by simp [TarjanState.path, hwk]
  -- the one node of the stack is the one node of the path
  have honly : ∀ u ∈ s'.stack, u = w := by simp [hst]
  refine ⟨hstacked.visit hvis, ⟨?_, ?_, ?_, ?_, ?_, ?_, ?_⟩, ⟨?_, ?_, ?_, ?_, ?_⟩⟩
  · simp [hst, hwk]
  · simp [hwk]
  · intro u hu k x _ hproc
    have := honly u hu
    subst this
    exact absurd (hproc 0 (by simp [hwk])) (Nat.not_lt_zero _)
  · intro u hu v hv _
    rw [honly u hu, show v = w by simpa [hpath] using hv]
    exact .refl
  · exact fun _ => ⟨w, rfl, by simp [hpath], by simp [hst]⟩
  · simp [hwk]
  · intro v hv
    rcases Nat.lt_succ_iff_lt_or_eq.mp hv with hlt | heq
    · exact .inl ((h.path.starts v hlt).resolve_right fun hr => hr.2 hwork)
    · exact .inr ⟨by rw [heq]; rfl, by simp [hwk]⟩
  · intro u hu
    rw [honly u hu, hs', lowlink_visit_self, idx_visit_self]
  · intro u hu
    rw [honly u hu]
    exact ⟨w, by simp [hst], by rw [hs', lowlink_visit_self, idx_visit_self], .refl⟩
  · intro u hu k x _ hproc
    have := honly u hu
    subst this
    exact absurd (hproc 0 (by simp [hwk])) (Nat.not_lt_zero _)
  · intro u hu hnot
    exact absurd (honly u hu ▸ by simp [hpath]) hnot
  · intro u hu hnot
    exact absurd (honly u hu ▸ by simp [hpath]) hnot

variable {k : Nat}

/-- Advancing past the call at `pos` processes it and nothing else. -/
theorem processed_advance (hwork : s.work = (v, pos) :: rest)
    (hproc : ∀ p, (u, p) ∈ (v, pos + 1) :: rest → k < p) : s.Processed u k ∨ (u = v ∧ k = pos) := by
  by_cases huv : u = v
  · subst huv
    have hk := hproc (pos + 1) mem_cons_self
    rcases Nat.lt_succ_iff_lt_or_eq.mp hk with hlt | heq
    · refine .inl fun p hp => ?_
      rw [hwork] at hp
      rcases mem_cons.mp hp with heq | hp
      · cases heq; exact hlt
      · exact hproc p (mem_cons_of_mem _ hp)
    · exact .inr ⟨rfl, heq⟩
  · refine .inl fun p hp => ?_
    rw [hwork] at hp
    rcases mem_cons.mp hp with heq | hp
    · cases heq; exact absurd rfl huv
    · exact hproc p (mem_cons_of_mem _ hp)

/-- The path does not notice a change of position. -/
theorem path_advance (hwork : s.work = (v, pos) :: rest) : (v :: rest.map Prod.fst) = s.path := by
  rw [TarjanState.path, hwork, map_cons]

theorem Path.idx_le_top (h : Path g s) (hwork : s.work = (v, pos) :: rest) (hu : u ∈ s.path) :
    s.idx u ≤ s.idx v := by
  have hsorted := h.sorted
  rw [hwork, pairwise_cons] at hsorted
  obtain ⟨p, hp⟩ := mem_path_iff.mp hu
  rw [hwork] at hp
  rcases mem_cons.mp hp with heq | hp
  · cases heq; exact le_refl _
  · exact Nat.le_of_lt (hsorted.1 _ hp)

/-- A call of an unvisited node extends the path. -/
theorem inv_descend (h : TarjanInv g s) (hwork : s.work = (v, pos) :: rest)
    (hcall : (g.adj v)[pos]? = some w) (hw : s.index w = none) :
    TarjanInv g (({ s with work := (v, pos + 1) :: rest } : TarjanState g.n).visit w) := by
  have hstacked : Stacked g { s with work := (v, pos + 1) :: rest } :=
    ⟨h.stacked.sorted, h.stacked.on_iff, h.stacked.visited_iff, h.stacked.fresh,
      h.stacked.nodup, h.stacked.layered⟩
  set t := ({ s with work := (v, pos + 1) :: rest } : TarjanState g.n) with ht
  have hpath : (t.visit w).path = w :: s.path := by
    rw [← path_advance hwork]; rfl
  have hidx : ∀ u ∈ s.stack, (t.visit w).idx u = s.idx u := fun u hu =>
    idx_visit_of_ne t (h.stacked.ne_of_unvisited hw hu)
  have hlow : ∀ u ∈ s.stack, (t.visit w).lowlink u = s.lowlink u := fun u hu =>
    lowlink_visit_of_ne t (h.stacked.ne_of_unvisited hw hu)
  have hwidx : (t.visit w).idx w = s.indexCounter := idx_visit_self t w
  have hwlow : (t.visit w).lowlink w = s.indexCounter := lowlink_visit_self t w
  have hlt : ∀ u ∈ s.stack, s.idx u < s.indexCounter := fun u hu =>
    h.stacked.fresh u ((h.stacked.visited_iff u).mpr (.inl hu))
  have hvs : v ∈ s.stack := (h.path.mem (v, pos) (by simp [hwork])).1
  have hedge : g.Edge v w := mem_of_getElem? hcall
  have hvisited : ∀ u, (s.index u).isSome → ((t.visit w).index u).isSome := fun u hu =>
    (index_visit t u w).mpr (.inr hu)
  -- what is processed now was processed before, or is the call of `w`
  have hproc : ∀ {u k}, u ≠ w → (t.visit w).Processed u k → s.Processed u k ∨ (u = v ∧ k = pos) :=
    fun hne hp => processed_advance hwork fun p hmem => hp p (mem_cons_of_mem _ hmem)
  have hnew : ∀ {k}, ¬ (t.visit w).Processed w k := fun hp =>
    absurd (hp 0 mem_cons_self) (Nat.not_lt_zero _)
  refine ⟨hstacked.visit hw, ⟨?_, ?_, ?_, ?_, ?_, ?_, ?_⟩, ⟨?_, ?_, ?_, ?_, ?_⟩⟩
  · intro e he
    rcases mem_cons.mp he with rfl | he
    · exact ⟨mem_cons_self, Nat.zero_le _⟩
    rcases mem_cons.mp he with rfl | he
    · exact ⟨mem_cons_of_mem _ hvs, (List.getElem?_eq_some_iff.mp hcall).1⟩
    · obtain ⟨hmem, hle⟩ := h.path.mem e (by rw [hwork]; exact mem_cons_of_mem _ he)
      exact ⟨mem_cons_of_mem _ hmem, hle⟩
  · have hsorted := h.path.sorted
    rw [hwork] at hsorted
    have hmem : ∀ e ∈ rest, e.1 ∈ s.stack := fun e he =>
      (h.path.mem e (by rw [hwork]; exact mem_cons_of_mem _ he)).1
    refine pairwise_cons.mpr ⟨fun e he => ?_, pairwise_cons.mpr ⟨fun e he => ?_,
      (pairwise_cons.mp hsorted).2.imp_of_mem fun {a b} ha hb hab => ?_⟩⟩
    · rw [hwidx]
      rcases mem_cons.mp he with rfl | he
      · rw [hidx v hvs]; exact hlt v hvs
      · rw [hidx _ (hmem e he)]; exact hlt _ (hmem e he)
    · rw [hidx _ (hmem e he), hidx v hvs]
      exact (pairwise_cons.mp hsorted).1 e he
    · rwa [hidx _ (hmem a ha), hidx _ (hmem b hb)]
  · intro u hu k x hx hp
    rcases mem_cons.mp hu with rfl | hu
    · exact absurd hp hnew
    · rcases hproc (h.stacked.ne_of_unvisited hw hu) hp with hp | ⟨rfl, rfl⟩
      · exact hvisited x (h.path.seen u hu k x hx hp)
      · cases hcall.symm.trans hx
        exact (index_visit t w w).mpr (.inl rfl)
  · intro u hu x hx hle
    rw [hpath] at hx
    rcases mem_cons.mp hu with rfl | hu
    · rcases mem_cons.mp hx with rfl | hx
      · exact .refl
      · exact (h.path.reach v hvs x hx (h.path.idx_le_top hwork hx)).tail hedge
    · have hult := hlt u hu
      have huidx := hidx u hu
      rcases mem_cons.mp hx with rfl | hx
      · rw [hwidx, huidx] at hle
        omega
      · rw [huidx, hidx x (h.path.mem_stack hx)] at hle
        exact h.path.reach u hu x hx hle
  · intro _
    obtain ⟨start, hnext, hstart, hbelow⟩ := h.path.bottom (by rw [hwork]; simp)
    refine ⟨start, hnext, by rw [hpath]; exact mem_cons_of_mem _ hstart, fun u hu => ?_⟩
    rw [hidx start (h.path.mem_stack hstart)]
    rcases mem_cons.mp hu with rfl | hu
    · rw [hwidx]; exact Nat.le_of_lt (hlt start (h.path.mem_stack hstart))
    · rw [hidx u hu]; exact hbelow u hu
  · intro hnil; cases hnil
  · intro x hx
    rcases h.path.starts x hx with hx | ⟨hx, -⟩
    · exact .inl hx
    · exact .inr ⟨hx, cons_ne_nil _ _⟩
  · intro u hu
    rcases mem_cons.mp hu with rfl | hu
    · rw [hwidx, hwlow]
    · rw [hidx u hu, hlow u hu]; exact h.low.le u hu
  · intro u hu
    rcases mem_cons.mp hu with rfl | hu
    · exact ⟨u, mem_cons_self, by rw [hwidx, hwlow], .refl⟩
    · obtain ⟨x, hx, hxidx, hreach⟩ := h.low.witness u hu
      exact ⟨x, mem_cons_of_mem _ hx, by rw [hidx x hx, hlow u hu, hxidx], hreach⟩
  · intro u hu k x hx hp hxs
    rcases mem_cons.mp hu with rfl | hu
    · exact absurd hp hnew
    · rw [hlow u hu]
      have hle := h.low.le u hu
      have hult := hlt u hu
      rcases mem_cons.mp hxs with rfl | hxs
      · rw [hwidx]; omega
      · rw [hidx x hxs]
        rcases hproc (h.stacked.ne_of_unvisited hw hu) hp with hp | ⟨rfl, rfl⟩
        · exact h.low.edge u hu k x hx hp hxs
        · cases hcall.symm.trans hx
          exact absurd rfl (h.stacked.ne_of_unvisited hw hxs)
  · intro u hu hnot
    rw [hpath, mem_cons, not_or] at hnot
    replace hu := (mem_cons.mp hu).resolve_left hnot.1
    rw [hlow u hu, hidx u hu]
    exact h.low.lt u hu hnot.2
  · intro u hu hnot
    rw [hpath, mem_cons, not_or] at hnot
    replace hu := (mem_cons.mp hu).resolve_left hnot.1
    obtain ⟨x, hx, hxlt, hxlow, hlast⟩ := h.low.tree u hu hnot.2
    have hxs := h.path.mem_stack hx
    refine ⟨x, by rw [hpath]; exact mem_cons_of_mem _ hx, by rwa [hidx x hxs, hidx u hu],
      by rwa [hlow x hxs, hlow u hu], fun y hy hylt => ?_⟩
    rw [hpath] at hy
    have hult := hlt u hu
    have huidx := hidx u hu
    rcases mem_cons.mp hy with rfl | hy
    · rw [hwidx, huidx] at hylt
      omega
    · rw [hidx y (h.path.mem_stack hy), huidx] at hylt
      rw [hidx y (h.path.mem_stack hy), hidx x hxs]
      exact hlast y hy hylt

/-- A call of a visited node is passed over; a node of the stack may lower the lowlink. -/
theorem inv_advance (h : TarjanInv g s) (hwork : s.work = (v, pos) :: rest)
    (hcall : (g.adj v)[pos]? = some w) (hw : (s.index w).isSome) {low : Fin g.n → Nat}
    (hne : ∀ u, u ≠ v → low u = s.lowlink u) (hle : low v ≤ s.lowlink v)
    (hwit : ∃ x ∈ s.stack, s.idx x = low v ∧ g.Reaches v x)
    (hback : w ∈ s.stack → low v ≤ s.idx w) :
    TarjanInv g { s with work := (v, pos + 1) :: rest, lowlink := low } := by
  have hpath : ({ s with work := (v, pos + 1) :: rest, lowlink := low } : TarjanState g.n).path
      = s.path := path_advance hwork
  have hlow : ∀ u, low u ≤ s.lowlink u := fun u => by
    by_cases huv : u = v
    · rw [huv]; exact hle
    · rw [hne u huv]
  have hvpath : v ∈ s.path := by rw [← path_advance hwork]; exact mem_cons_self
  have hwk := hwork
  refine ⟨⟨h.stacked.sorted, h.stacked.on_iff, h.stacked.visited_iff, h.stacked.fresh,
    h.stacked.nodup, h.stacked.layered⟩, ⟨?_, ?_, ?_, ?_, ?_, ?_, ?_⟩, ⟨?_, ?_, ?_, ?_, ?_⟩⟩
  · intro e he
    rcases mem_cons.mp he with rfl | he
    · exact ⟨h.path.mem_stack hvpath, (List.getElem?_eq_some_iff.mp hcall).1⟩
    · exact h.path.mem e (by rw [hwork]; exact mem_cons_of_mem _ he)
  · have hsorted := h.path.sorted
    rw [hwork] at hsorted
    obtain ⟨htop, hrest⟩ := pairwise_cons.mp hsorted
    exact pairwise_cons.mpr ⟨htop, hrest⟩
  · intro u hu k x hx hp
    rcases processed_advance hwork hp with hp | ⟨rfl, rfl⟩
    · exact h.path.seen u hu k x hx hp
    · cases hcall.symm.trans hx; exact hw
  · intro u hu x hx
    rw [hpath] at hx
    exact h.path.reach u hu x hx
  · intro _
    rw [hpath]
    exact h.path.bottom (by rw [hwork]; simp)
  · intro hnil; cases hnil
  · intro x hx
    rcases h.path.starts x hx with hx | ⟨hx, -⟩
    · exact .inl hx
    · exact .inr ⟨hx, cons_ne_nil _ _⟩
  · exact fun u hu => le_trans (hlow u) (h.low.le u hu)
  · intro u hu
    by_cases huv : u = v
    · rw [huv]; exact hwit
    · show ∃ x ∈ s.stack, s.idx x = low u ∧ _
      rw [hne u huv]
      exact h.low.witness u hu
  · intro u hu k x hx hp hxs
    rcases processed_advance hwork hp with hp | ⟨rfl, rfl⟩
    · exact le_trans (hlow u) (h.low.edge u hu k x hx hp hxs)
    · cases hcall.symm.trans hx; exact hback hxs
  · intro u hu hnot
    rw [hpath] at hnot
    exact lt_of_le_of_lt (hlow u) (h.low.lt u hu hnot)
  · intro u hu hnot
    rw [hpath] at hnot ⊢
    obtain ⟨x, hx, hxlt, hxlow, hlast⟩ := h.low.tree u hu hnot
    have hu' : low u = s.lowlink u := hne u fun huv => hnot (huv ▸ hvpath)
    refine ⟨x, hx, hxlt, ?_, hlast⟩
    show low x ≤ low u
    rw [hu']
    exact le_trans (hlow x) hxlow

/-! ## Leaving a node -/

theorem path_leave (hwork : s.work = (v, pos) :: rest) :
    u ∈ s.path ↔ u = v ∨ u ∈ rest.map Prod.fst := by
  rw [← path_advance hwork, mem_cons]

/-- The rest of the path has smaller numbers than its end. -/
theorem Path.idx_lt_top (h : Path g s) (hwork : s.work = (v, pos) :: rest)
    (hu : u ∈ rest.map Prod.fst) : s.idx u < s.idx v := by
  have hsorted := h.sorted
  rw [hwork, pairwise_cons] at hsorted
  obtain ⟨e, he, rfl⟩ := mem_map.mp hu
  exact hsorted.1 e he

variable {x : Fin g.n}

/-- At the end of its adjacency list every call of `v` is processed. -/
theorem Path.processed_top (h : Path g s) (hwork : s.work = (v, pos) :: rest)
    (hend : (g.adj v)[pos]? = none) (hx : (g.adj v)[k]? = some x) : s.Processed v k := by
  intro p hp
  have hk := (List.getElem?_eq_some_iff.mp hx).1
  have hpos := List.getElem?_eq_none_iff.mp hend
  rw [hwork] at hp
  rcases mem_cons.mp hp with heq | hp
  · cases heq; omega
  · exact absurd (h.idx_lt_top hwork (mem_map.mpr ⟨_, hp, rfl⟩)) (lt_irrefl _)

theorem Path.processed_leave (h : Path g s) (hwork : s.work = (v, pos) :: rest)
    (hend : (g.adj v)[pos]? = none) (hx : (g.adj u)[k]? = some x)
    (hproc : ∀ p, (u, p) ∈ rest → k < p) : s.Processed u k := by
  by_cases huv : u = v
  · subst huv; exact h.processed_top hwork hend hx
  · intro p hp
    rw [hwork] at hp
    rcases mem_cons.mp hp with heq | hp
    · cases heq; exact absurd rfl huv
    · exact hproc p hp

section Emit

variable (h : TarjanInv g s) (hwork : s.work = (v, pos) :: rest)
  (hend : (g.adj v)[pos]? = none) (hroot : s.lowlink v = s.idx v)
include h hwork hend hroot

/-- What was visited since a root calls nothing older on the stack. -/
theorem root_le_of_call (hu : u ∈ s.stack) (hvu : s.idx v ≤ s.idx u) (hx : x ∈ g.adj u)
    (hxs : x ∈ s.stack) : s.idx v ≤ s.idx x := by
  have hvpath : v ∈ s.path := (path_leave hwork).mpr (.inl rfl)
  obtain ⟨k, hk⟩ := mem_iff_getElem?.mp hx
  by_cases huv : u = v
  · subst huv
    have hedge := h.low.edge u hu k x hk (h.path.processed_top hwork hend hk) hxs
    omega
  · -- `u` is left already, so `v` has its lowlink
    have hlt : s.idx v < s.idx u := lt_of_le_of_ne hvu fun heq =>
      huv (h.stacked.idx_inj hu (h.path.mem_stack hvpath) heq.symm)
    have hnot : u ∉ s.path := fun hup => by
      have := h.path.idx_le_top hwork hup
      omega
    have hproc : s.Processed u k := fun p hp => absurd (mem_path_iff.mpr ⟨p, hp⟩) hnot
    obtain ⟨y, hy, hylt, hylow, hlast⟩ := h.low.tree u hu hnot
    have hyv : y = v := h.stacked.idx_inj (h.path.mem_stack hy) (h.path.mem_stack hvpath)
      (le_antisymm (h.path.idx_le_top hwork hy) (hlast v hvpath hlt))
    rw [hyv] at hylow
    have hedge := h.low.edge u hu k x hk hproc hxs
    omega

omit hend in
theorem reaches_root (hu : u ∈ s.stack) (hvu : s.idx v ≤ s.idx u) : g.Reaches u v := by
  have hvpath : v ∈ s.path := (path_leave hwork).mpr (.inl rfl)
  have hvs := h.path.mem_stack hvpath
  -- induction on the number: a lowlink leads to a smaller one
  induction hm : s.idx u using Nat.strong_induction_on generalizing u with
  | _ m ih =>
    by_cases huv : u = v
    · rw [huv]; exact .refl
    · have hlt : s.idx v < s.idx u := lt_of_le_of_ne hvu fun heq =>
        huv (h.stacked.idx_inj hu hvs heq.symm)
      have hnot : u ∉ s.path := fun hup => by
        have := h.path.idx_le_top hwork hup
        omega
      obtain ⟨y, hy, hylt, hylow, hlast⟩ := h.low.tree u hu hnot
      have hyv : y = v := h.stacked.idx_inj (h.path.mem_stack hy) hvs
        (le_antisymm (h.path.idx_le_top hwork hy) (hlast v hvpath hlt))
      rw [hyv] at hylow
      obtain ⟨x, hx, hxidx, hux⟩ := h.low.witness u hu
      have hxlt := h.low.lt u hu hnot
      exact hux.trans (ih (s.idx x) (by omega) hx (by omega) rfl)

/-- A root closes a component, and its parent's lowlink is too small to change. -/
theorem inv_emit : TarjanInv g
    { s with
      work := rest
      stack := (popUntil v s.stack).2
      onStack := fun u => if u ∈ (popUntil v s.stack).1 then false else s.onStack u
      sccs := (popUntil v s.stack).1 :: s.sccs } := by
  have hvpath : v ∈ s.path := (path_leave hwork).mpr (.inl rfl)
  have hvs := h.path.mem_stack hvpath
  have hpop := mem_popUntil h.stacked.sorted hvs
  have happend := popUntil_append v s.stack
  set scc := (popUntil v s.stack).1
  set stack' := (popUntil v s.stack).2
  have hin : ∀ u, u ∈ scc ↔ u ∈ s.stack ∧ s.idx v ≤ s.idx u := fun u => (hpop u).1
  have hout : ∀ u, u ∈ stack' ↔ u ∈ s.stack ∧ s.idx u < s.idx v := fun u => (hpop u).2
  have hsub : ∀ u ∈ stack', u ∈ s.stack := fun u hu => ((hout u).mp hu).1
  have hrest : ∀ e ∈ rest, e ∈ s.work := fun e he => by
    rw [hwork]; exact mem_cons_of_mem _ he
  have hrestpath : ∀ u ∈ rest.map Prod.fst, u ∈ s.path := fun u hu =>
    (path_leave hwork).mpr (.inr hu)
  have hpathout : ∀ u ∈ s.path, u ∈ stack' → u ∈ rest.map Prod.fst := fun u hu hus =>
    ((path_leave hwork).mp hu).resolve_left fun huv => by
      have := ((hout u).mp hus).2
      rw [huv] at this
      exact lt_irrefl _ this
  -- the current start, and what the loop has finished before it
  obtain ⟨start, hnext, hstart, hbelow⟩ := h.path.bottom (by rw [hwork]; simp)
  have hearlier : ∀ t : Fin g.n, t < start → t ∈ s.sccs.flatten := fun t ht => by
    refine (h.path.starts t ?_).resolve_right fun hr => ?_
    · have := Fin.lt_def.mp ht; omega
    · have := Fin.lt_def.mp ht; omega
  refine ⟨⟨?_, ?_, ?_, h.stacked.fresh, ?_, ?_, ?_, ?_, h.stacked.layered⟩,
    ⟨?_, ?_, ?_, ?_, ?_, ?_, ?_⟩, ⟨?_, ?_, ?_, ?_, ?_⟩⟩
  · have hsorted := h.stacked.sorted
    rw [← happend, pairwise_append] at hsorted
    exact hsorted.2.1
  · intro u
    show (if u ∈ scc then false else s.onStack u) = true ↔ u ∈ stack'
    have hon := h.stacked.on_iff u
    split
    · next hu =>
      simp only [Bool.false_eq_true, false_iff, hout, not_and, not_lt]
      exact fun _ => ((hin u).mp hu).2
    · next hu =>
      rw [hon, hout]
      refine ⟨fun hmem => ⟨hmem, ?_⟩, And.left⟩
      by_contra hlt
      exact hu ((hin u).mpr ⟨hmem, not_lt.mp hlt⟩)
  · intro u
    show (s.index u).isSome ↔ u ∈ stack' ∨ u ∈ (scc :: s.sccs).flatten
    rw [h.stacked.visited_iff, ← happend, flatten_cons, mem_append, mem_append]
    tauto
  · have hnodup := h.stacked.nodup
    rw [← happend] at hnodup
    show (stack' ++ (scc :: s.sccs).flatten).Nodup
    rw [flatten_cons, ← append_assoc]
    exact (perm_append_comm.append_right _).nodup hnodup
  · -- calls lead into the component or to what was emitted earlier
    intro u hu x hx
    obtain ⟨hus, hvu⟩ := (hin u).mp hu
    obtain ⟨k, hk⟩ := mem_iff_getElem?.mp hx
    have hproc : s.Processed u k := by
      by_cases huv : u = v
      · subst huv; exact h.path.processed_top hwork hend hk
      · refine fun p hp => absurd (mem_path_iff.mpr ⟨p, hp⟩) fun hup => huv ?_
        exact h.stacked.idx_inj hus hvs (le_antisymm (h.path.idx_le_top hwork hup) hvu)
    rcases (h.stacked.visited_iff x).mp (h.path.seen u hus k x hk hproc) with hxs | hxe
    · exact .inl ((hin x).mpr ⟨hxs, root_le_of_call h hwork hend hroot hus hvu hx hxs⟩)
    · exact .inr hxe
  · intro u hu x hx
    obtain ⟨hus, hvu⟩ := (hin u).mp hu
    obtain ⟨hxs, hvx⟩ := (hin x).mp hx
    exact (reaches_root h hwork hroot hus hvu).trans (h.path.reach x hxs v hvpath hvx)
  · rintro u hu x ⟨t, htx, hfirst⟩
    obtain ⟨hus, -⟩ := (hin u).mp hu
    have htstart := hfirst start (h.path.reach u hus start hstart (hbelow u hus))
    exact h.stacked.layered.closed (hearlier t htstart) htx
  · intro e he
    obtain ⟨hmem, hle⟩ := h.path.mem e (hrest e he)
    exact ⟨(hout _).mpr ⟨hmem, h.path.idx_lt_top hwork (mem_map.mpr ⟨e, he, rfl⟩)⟩, hle⟩
  · have hsorted := h.path.sorted
    rw [hwork] at hsorted
    exact (pairwise_cons.mp hsorted).2
  · exact fun u hu k x hx hp =>
      h.path.seen u (hsub u hu) k x hx (h.path.processed_leave hwork hend hx hp)
  · exact fun u hu x hx => h.path.reach u (hsub u hu) x (hrestpath x hx)
  · intro hne
    obtain ⟨e, he⟩ := exists_mem_of_ne_nil rest hne
    have hlt := h.path.idx_lt_top hwork (mem_map.mpr ⟨e, he, rfl⟩)
    have hge := hbelow e.1 (h.path.mem e (hrest e he)).1
    refine ⟨start, hnext, ((path_leave hwork).mp hstart).resolve_left fun heq => ?_,
      fun u hu => hbelow u (hsub u hu)⟩
    rw [heq] at hge
    omega
  · intro hnil
    replace hnil : rest = [] := hnil
    have hsv : start = v := by simpa [hnil] using (path_leave hwork).mp hstart
    refine eq_nil_iff_forall_not_mem.mpr fun u hu => ?_
    obtain ⟨hus, hlt⟩ := (hout u).mp hu
    have := hbelow u hus
    rw [hsv] at this
    omega
  · intro x hx
    show x ∈ (scc :: s.sccs).flatten ∨ _
    rw [flatten_cons, mem_append]
    rcases h.path.starts x hx with hx | ⟨hx, -⟩
    · exact .inl (.inr hx)
    · by_cases hnil : rest = []
      · have hsv : start = v := by simpa [hnil] using (path_leave hwork).mp hstart
        have hxs : x = v := hsv ▸ Fin.ext (by omega)
        exact .inl (.inl (hxs ▸ (hin v).mpr ⟨hvs, le_refl _⟩))
      · exact .inr ⟨hx, hnil⟩
  · exact fun u hu => h.low.le u (hsub u hu)
  · intro u hu
    obtain ⟨hus, hlt⟩ := (hout u).mp hu
    obtain ⟨x, hx, hxidx, hux⟩ := h.low.witness u hus
    have hle := h.low.le u hus
    exact ⟨x, (hout x).mpr ⟨hx, by omega⟩, hxidx, hux⟩
  · exact fun u hu k x hx hp hxs => h.low.edge u (hsub u hu) k x hx
      (h.path.processed_leave hwork hend hx hp) (hsub x hxs)
  · exact fun u hu hnot => h.low.lt u (hsub u hu) fun hup => hnot (hpathout u hup hu)
  · intro u hu hnot
    obtain ⟨hus, hlt⟩ := (hout u).mp hu
    obtain ⟨x, hx, hxlt, hxlow, hlast⟩ :=
      h.low.tree u hus fun hup => hnot (hpathout u hup hu)
    refine ⟨x, ((path_leave hwork).mp hx).resolve_left fun hxv => ?_, hxlt, hxlow,
      fun y hy => hlast y (hrestpath y hy)⟩
    rw [hxv] at hxlt
    omega

end Emit

/-- A node that is no root stays on the stack and hands its lowlink to its parent. -/
theorem inv_retreat (h : TarjanInv g s) {parent : Fin g.n} {p : Nat}
    {rest' : List (Fin g.n × Nat)} (hwork : s.work = (v, pos) :: (parent, p) :: rest')
    (hend : (g.adj v)[pos]? = none) (hroot : s.lowlink v < s.idx v) :
    TarjanInv g (({ s with work := (parent, p) :: rest' } : TarjanState g.n).lower parent v) := by
  have hvpath : v ∈ s.path := (path_leave hwork).mpr (.inl rfl)
  have hvs := h.path.mem_stack hvpath
  have hppath : parent ∈ s.path := (path_leave hwork).mpr (.inr (by simp))
  have hpv : s.idx parent < s.idx v := h.path.idx_lt_top hwork (by simp)
  have hrest : ∀ e ∈ (parent, p) :: rest', e ∈ s.work := fun e he => by
    rw [hwork]; exact mem_cons_of_mem _ he
  set t := (({ s with work := (parent, p) :: rest' } : TarjanState g.n).lower parent v) with ht
  have hrestpath : ∀ u ∈ t.path, u ∈ s.path := fun u hu => (path_leave hwork).mpr (.inr hu)
  have hpathrest : ∀ u ∈ s.path, u ≠ v → u ∈ t.path := fun u hu huv =>
    ((path_leave hwork).mp hu).resolve_left huv
  have hlowp : t.lowlink parent = min (s.lowlink parent) (s.lowlink v) := by
    simp [ht, lower]
  have hlowne : ∀ u, u ≠ parent → t.lowlink u = s.lowlink u := fun u hu => by
    simp [ht, lower, Function.update_of_ne hu]
  have hlow : ∀ u, t.lowlink u ≤ s.lowlink u := fun u => by
    by_cases hu : u = parent
    · rw [hu, hlowp]; exact Nat.min_le_left _ _
    · rw [hlowne u hu]
  -- the parent is the last node of what is left of the path
  have hlast : ∀ y ∈ t.path, s.idx y ≤ s.idx parent := by
    intro y hy
    have hsorted := h.path.sorted
    rw [hwork] at hsorted
    have hsorted' := pairwise_cons.mp (pairwise_cons.mp hsorted).2
    rcases mem_cons.mp hy with rfl | hy
    · exact le_refl _
    · obtain ⟨e, he, rfl⟩ := mem_map.mp hy
      exact Nat.le_of_lt (hsorted'.1 e he)
  refine ⟨⟨h.stacked.sorted, h.stacked.on_iff, h.stacked.visited_iff, h.stacked.fresh,
    h.stacked.nodup, h.stacked.layered⟩, ⟨?_, ?_, ?_, ?_, ?_, ?_, ?_⟩, ⟨?_, ?_, ?_, ?_, ?_⟩⟩
  · exact fun e he => h.path.mem e (hrest e he)
  · have hsorted := h.path.sorted
    rw [hwork] at hsorted
    exact (pairwise_cons.mp hsorted).2
  · exact fun u hu k x hx hp => h.path.seen u hu k x hx (h.path.processed_leave hwork hend hx hp)
  · exact fun u hu x hx => h.path.reach u hu x (hrestpath x hx)
  · intro _
    obtain ⟨start, hnext, hstart, hbelow⟩ := h.path.bottom (by rw [hwork]; simp)
    refine ⟨start, hnext, hpathrest start hstart fun heq => ?_, hbelow⟩
    obtain ⟨x, hx, hxidx, -⟩ := h.low.witness v hvs
    have := hbelow x hx
    rw [heq] at this
    omega
  · intro hnil; cases hnil
  · intro x hx
    rcases h.path.starts x hx with hx | ⟨hx, -⟩
    · exact .inl hx
    · exact .inr ⟨hx, cons_ne_nil _ _⟩
  · exact fun u hu => le_trans (hlow u) (h.low.le u hu)
  · intro u hu
    by_cases hup : u = parent
    · subst hup
      rw [hlowp]
      rcases le_total (s.lowlink u) (s.lowlink v) with hle | hle
      · rw [Nat.min_eq_left hle]; exact h.low.witness u hu
      · rw [Nat.min_eq_right hle]
        obtain ⟨x, hx, hxidx, hvx⟩ := h.low.witness v hvs
        exact ⟨x, hx, hxidx, (h.path.reach v hvs u hppath (Nat.le_of_lt hpv)).trans hvx⟩
    · rw [hlowne u hup]; exact h.low.witness u hu
  · exact fun u hu k x hx hp hxs => le_trans (hlow u)
      (h.low.edge u hu k x hx (h.path.processed_leave hwork hend hx hp) hxs)
  · intro u hu hnot
    by_cases huv : u = v
    · subst huv; exact lt_of_le_of_lt (hlow u) hroot
    · exact lt_of_le_of_lt (hlow u) (h.low.lt u hu fun hup => hnot (hpathrest u hup huv))
  · intro u hu hnot
    have hup : u ≠ parent := fun heq => hnot (heq ▸ by simp [ht, lower, TarjanState.path])
    have hvlow : t.lowlink parent ≤ s.lowlink v := by rw [hlowp]; exact Nat.min_le_right _ _
    have hpt : parent ∈ t.path := by simp [ht, lower, TarjanState.path]
    by_cases huv : u = v
    · subst huv
      exact ⟨parent, hpt, hpv, by rw [hlowne u hup]; exact hvlow, fun y hy _ => hlast y hy⟩
    · obtain ⟨x, hx, hxlt, hxlow, hxlast⟩ :=
        h.low.tree u hu fun hup' => hnot (hpathrest u hup' huv)
      rw [hlowne u hup]
      by_cases hxv : x = v
      · -- `v` had the lowlink of `u`, now its parent has it
        subst hxv
        exact ⟨parent, hpt, lt_trans hpv hxlt, le_trans hvlow hxlow, fun y hy _ => hlast y hy⟩
      · exact ⟨x, hpathrest x hx hxv, hxlt, le_trans (hlow x) hxlow,
          fun y hy => hxlast y (hrestpath y hy)⟩

theorem inv_leave (h : TarjanInv g s) (hwork : s.work = (v, pos) :: rest)
    (hend : (g.adj v)[pos]? = none) : TarjanInv g (s.leave v rest) := by
  have hvpath : v ∈ s.path := (path_leave hwork).mpr (.inl rfl)
  have hvs := h.path.mem_stack hvpath
  have hle := h.low.le v hvs
  have hindex : s.index v = some (s.idx v) := by
    obtain ⟨i, hi⟩ := Option.isSome_iff_exists.mp ((h.stacked.visited_iff v).mpr (.inl hvs))
    rw [idx, hi, Option.getD_some]
  cases rest with
  | nil =>
    -- the start of the path is a root: nothing older is on the stack
    obtain ⟨start, -, hstart, hbelow⟩ := h.path.bottom (by rw [hwork]; simp)
    have hsv : start = v := by simpa using (path_leave hwork).mp hstart
    obtain ⟨x, hx, hxidx, -⟩ := h.low.witness v hvs
    have hxv := hbelow x hx
    rw [hsv] at hxv
    have hroot : s.lowlink v = s.idx v := by omega
    have hem := inv_emit h hwork hend hroot
    rw [leave, emit, if_pos (by rw [hindex, hroot])]
    exact hem
  | cons e rest' =>
    obtain ⟨parent, p⟩ := e
    have hpv : s.idx parent < s.idx v := h.path.idx_lt_top hwork (by simp)
    have hne : v ≠ parent := fun heq => by rw [heq] at hpv; exact lt_irrefl _ hpv
    rw [leave, emit]
    have hlowv : (({ s with work := (parent, p) :: rest' } : TarjanState g.n).lower
        parent v).lowlink v = s.lowlink v := by simp [lower, Function.update_of_ne hne]
    rw [hlowv]
    show TarjanInv g (if s.index v = some (s.lowlink v) then _ else _)
    rw [hindex]
    by_cases hroot : s.idx v = s.lowlink v
    · rw [if_pos (by rw [hroot])]
      have hem := inv_emit h hwork hend hroot.symm
      -- the parent's lowlink is below the root's number already
      have hple := h.low.le parent (h.path.mem_stack ((path_leave hwork).mpr (.inr (by simp))))
      have hsame : Function.update s.lowlink parent (min (s.lowlink parent) (s.lowlink v))
          = s.lowlink := by
        rw [Nat.min_eq_left (by omega), Function.update_eq_self]
      simpa [lower, hsame] using hem
    · rw [if_neg (by simpa using hroot)]
      exact inv_retreat h hwork hend (by omega)

/-- Every turn keeps the invariant. -/
theorem inv_step (h : TarjanInv g s) : TarjanInv g (g.step s) := by
  unfold CallGraph.step
  split
  · next hwork =>
    split
    · next hn =>
      split
      · next hvis => exact inv_skip h hwork hn hvis
      · next hvis =>
        exact inv_start h hwork hn (Option.not_isSome_iff_eq_none.mp hvis)
    · exact h
  · next v pos rest hwork =>
    have hvs : v ∈ s.stack := (h.path.mem (v, pos) (by simp [hwork])).1
    split
    · next w hcall =>
      have hvw : g.Reaches v w := .single (mem_of_getElem? hcall)
      split
      · next hw => exact inv_descend h hwork hcall (Option.isNone_iff_eq_none.mp hw)
      · next hw =>
        have hw : (s.index w).isSome := by simpa [Option.isSome_iff_ne_none] using hw
        split
        · next hon =>
          -- a call back to the stack
          have hws := (h.stacked.on_iff w).mp hon
          refine inv_advance h hwork hcall hw
            (fun u hu => by simp [hu]) (by simp) ?_ fun _ => ?_
          · rw [Function.update_self]
            rcases le_total (s.lowlink v) (s.lowlink w) with hle | hle
            · rw [Nat.min_eq_left hle]; exact h.low.witness v hvs
            · rw [Nat.min_eq_right hle]
              obtain ⟨x, hx, hxidx, hwx⟩ := h.low.witness w hws
              exact ⟨x, hx, hxidx, hvw.trans hwx⟩
          · rw [Function.update_self]
            exact le_trans (Nat.min_le_right _ _) (h.low.le w hws)
        · next hon =>
          -- a call of an emitted node
          refine inv_advance h hwork hcall hw (fun _ _ => rfl) (le_refl _)
            (h.low.witness v hvs) fun hws => ?_
          exact absurd ((h.stacked.on_iff w).mpr hws) hon
    · next hend => exact inv_leave h hwork hend

theorem inv_iterate (h : TarjanInv g s) (m : Nat) : TarjanInv g (g.step^[m] s) := by
  induction m generalizing s with
  | zero => exact h
  | succ m ih => exact ih (inv_step h)

end Ridge
