import Ridge.Scc.TarjanOrder

/-!
# Import cycles

`tarjan_scc` and `detect_cycles` of `ridge-resolve/src/module_graph.rs`. The search is written
apart from the one over declarations: a node is numbered on the first turn of its frame and not
when the frame is pushed, a call back to the stack lowers to the number of the node called, and a
component is closed before the lowlink is handed to the parent. `entered` is the state with the
number already given; from one such state to the next the turns are those of the other search
(`turned`), so that its invariant holds here too.
-/

namespace Ridge.Imports

open Relation CallGraph TarjanState List Option Function

/-! ## The search -/

section Search

variable {n : Nat}

variable (s : TarjanState n)

/-- The first turn of a frame: the node gets its number. The frame is there already. -/
def firstVisit (v : Fin n) : TarjanState n :=
  { s with
    index := Function.update s.index v (some s.indexCounter)
    lowlink := Function.update s.lowlink v s.indexCounter
    indexCounter := s.indexCounter + 1
    stack := v :: s.stack
    onStack := Function.update s.onStack v true }

/-- Pop the component of `v` off the node stack. -/
def popScc (v : Fin n) : TarjanState n :=
  { s with
    stack := (popUntil v s.stack).2
    onStack := fun u => if u ∈ (popUntil v s.stack).1 then false else s.onStack u
    sccs := (popUntil v s.stack).1 :: s.sccs }

/-- Pop the frame of `v` and propagate the lowlink to the parent. -/
def popFrame (v : Fin n) (rest : List (Fin n × Nat)) : TarjanState n :=
  let s := { s with work := rest }
  match rest with
  | [] => s
  | (parent, _) :: _ =>
    if s.lowlink v < s.lowlink parent then
      { s with lowlink := Function.update s.lowlink parent (s.lowlink v) }
    else s

end Search

/-- A turn with the frame of `v` on top, the node numbered. -/
def processFrame (g : CallGraph) (s : TarjanState g.n) (v : Fin g.n) (i : Nat)
    (rest : List (Fin g.n × Nat)) : TarjanState g.n :=
  match (g.adj v)[i]? with
  | some w =>
    let s := { s with work := (v, i + 1) :: rest }
    match s.index w with
    | none => { s with work := (w, 0) :: s.work }
    | some iw =>
      if s.onStack w then
        if iw < s.lowlink v then { s with lowlink := Function.update s.lowlink v iw } else s
      else s
  | none =>
    let lv := s.lowlink v
    let iv := (s.index v).getD lv
    popFrame (if lv = iv then popScc s v else s) v rest

/-- One turn of the `while let` of `tarjan_scc`, or, with no frame, of its `for`. -/
def turn (g : CallGraph) (s : TarjanState g.n) : TarjanState g.n :=
  match s.work with
  | [] =>
    if h : s.next < g.n then
      let start : Fin g.n := ⟨s.next, h⟩
      let s := { s with next := s.next + 1 }
      if (s.index start).isSome then s else { s with work := [(start, 0)] }
    else s
  | (v, i) :: rest => processFrame g (if i = 0 then firstVisit s v else s) v i rest

def tarjanScc (g : CallGraph) : List (List (Fin g.n)) :=
  ((turn g)^[g.turns] (init g.n)).sccs.reverse

/-! ## The turns of the search are those of the other one -/

variable {g : CallGraph} {s : TarjanState g.n} {rest : List (Fin g.n × Nat)}

/-- The state with the node of a new frame numbered. -/
def entered (s : TarjanState g.n) : TarjanState g.n :=
  match s.work with
  | (v, 0) :: _ => firstVisit s v
  | _ => s

/-- The node of a new frame is not visited yet, and only the last frame may be new. -/
structure Begun (s : TarjanState g.n) : Prop where
  unvisited : ∀ v rest, s.work = (v, 0) :: rest → s.index v = none
  below : ∀ e ∈ s.work.tail, e.2 ≠ 0

/-- What a turn does, between states with every frame begun. -/
inductive Turned : TarjanState g.n → TarjanState g.n → Prop
  | skip {s : TarjanState g.n} (hwork : s.work = []) (hn : s.next < g.n)
      (hvis : (s.index ⟨s.next, hn⟩).isSome) : Turned s { s with next := s.next + 1 }
  | start {s : TarjanState g.n} (hwork : s.work = []) (hn : s.next < g.n)
      (hvis : s.index ⟨s.next, hn⟩ = none) :
      Turned s (({ s with next := s.next + 1 } : TarjanState g.n).visit ⟨s.next, hn⟩)
  | descend {s : TarjanState g.n} {v w : Fin g.n} {i : Nat} {rest : List (Fin g.n × Nat)}
      (hwork : s.work = (v, i) :: rest) (hcall : (g.adj v)[i]? = some w) (hw : s.index w = none) :
      Turned s (({ s with work := (v, i + 1) :: rest } : TarjanState g.n).visit w)
  | pass {s : TarjanState g.n} {v w : Fin g.n} {i : Nat} {rest : List (Fin g.n × Nat)}
      {low : Fin g.n → Nat} (hwork : s.work = (v, i) :: rest) (hcall : (g.adj v)[i]? = some w)
      (hw : (s.index w).isSome)
      (hlow : low = s.lowlink ∧ (s.onStack w = true → s.lowlink v ≤ s.idx w) ∨
        s.onStack w = true ∧ s.idx w < s.lowlink v ∧
          low = Function.update s.lowlink v (s.idx w)) :
      Turned s { s with work := (v, i + 1) :: rest, lowlink := low }
  | close {s : TarjanState g.n} {v : Fin g.n} {i : Nat} {rest : List (Fin g.n × Nat)}
      (hwork : s.work = (v, i) :: rest) (hend : (g.adj v)[i]? = none)
      (hroot : s.lowlink v = s.idx v) : Turned s { popScc s v with work := rest }
  | retreat {s : TarjanState g.n} {v parent : Fin g.n} {i p : Nat} {rest : List (Fin g.n × Nat)}
      (hwork : s.work = (v, i) :: (parent, p) :: rest) (hend : (g.adj v)[i]? = none)
      (hroot : s.lowlink v < s.idx v) :
      Turned s (({ s with work := (parent, p) :: rest } : TarjanState g.n).lower parent v)

variable {r : TarjanState g.n}

/-- Every turn keeps the invariant of the other search. -/
theorem Turned.inv (h : Turned s r) (hs : TarjanInv g s) : TarjanInv g r := by
  cases h with
  | skip hwork hn hvis => exact inv_skip hs hwork hn hvis
  | start hwork hn hvis => exact inv_start hs hwork hn hvis
  | descend hwork hcall hw => exact inv_descend hs hwork hcall hw
  | @pass v w i rest low hwork hcall hw hlow =>
    have hvs : v ∈ s.stack := (hs.path.mem (v, i) (by simp [hwork])).1
    rcases hlow with ⟨rfl, hback⟩ | ⟨hon, hlt, rfl⟩
    · exact inv_advance hs hwork hcall hw (fun _ _ => rfl) (Nat.le_refl _)
        (hs.low.witness v hvs) fun hws => hback ((hs.stacked.on_iff w).mpr hws)
    · have hws := (hs.stacked.on_iff w).mp hon
      refine inv_advance hs hwork hcall hw (fun u hu => by simp [hu]) ?_ ?_ fun _ => ?_
      · rw [update_self]
        exact Nat.le_of_lt hlt
      · rw [update_self]
        exact ⟨w, hws, rfl, .single (mem_of_getElem? hcall)⟩
      · rw [update_self]
  | close hwork hend hroot => exact inv_emit hs hwork hend hroot
  | retreat hwork hend hroot => exact inv_retreat hs hwork hend hroot

theorem Turned.turnsLeft_lt (h : Turned s r) : turnsLeft g r < turnsLeft g s := by
  have hframe : ∀ {v : Fin g.n} {i : Nat} {rest : List (Fin g.n × Nat)} {w : Fin g.n},
      s.work = (v, i) :: rest → (g.adj v)[i]? = some w →
      turnsLeft g { s with work := (v, i + 1) :: rest } < turnsLeft g s := by
    intro v i rest w hwork hcall
    have hi := (List.getElem?_eq_some_iff.mp hcall).1
    simp only [turnsLeft, hwork, map_cons, sum_cons]
    omega
  cases h with
  | skip hwork hn hvis =>
    simp only [turnsLeft]
    omega
  | start hwork hn hvis =>
    have hvisit := turnsLeft_visit (s := { s with next := s.next + 1 }) hvis
    have hskip : turnsLeft g { s with next := s.next + 1 } < turnsLeft g s := by
      simp only [turnsLeft]
      omega
    omega
  | @descend v w i rest hwork hcall hw =>
    have hvisit := turnsLeft_visit (s := { s with work := (v, i + 1) :: rest }) hw
    have hadvance := hframe hwork hcall
    omega
  | pass hwork hcall hw hlow => exact hframe hwork hcall
  | close hwork hend hroot =>
    simp only [turnsLeft, popScc, hwork, map_cons, sum_cons]
    omega
  | retreat hwork hend hroot =>
    simp only [turnsLeft, lower, hwork, map_cons, sum_cons]
    omega

/-! ### A turn of the source -/

variable {v : Fin g.n}

variable {i : Nat}

theorem entered_of_pos (hwork : s.work = (v, i) :: rest) (hi : i ≠ 0) : entered s = s := by
  obtain ⟨i, rfl⟩ := Nat.exists_eq_succ_of_ne_zero hi
  unfold entered
  rw [hwork]
  rfl

theorem entered_of_nil (hwork : s.work = []) : entered s = s := by
  unfold entered
  rw [hwork]

theorem entered_work (s : TarjanState g.n) : (entered s).work = s.work := by
  unfold entered
  split <;> rfl

theorem entered_of_cons (hwork : s.work = (v, i) :: rest) :
    entered s = if i = 0 then firstVisit s v else s := by
  cases i with
  | zero =>
    unfold entered
    rw [hwork, if_pos rfl]
    rfl
  | succ i => rw [entered_of_pos hwork (Nat.succ_ne_zero i), if_neg (Nat.succ_ne_zero i)]

/-- A frame that does not change the state further than its own fields is begun. -/
theorem begun_of_pos (hwork : s.work = (v, i) :: rest) (hi : i ≠ 0) (hrest : ∀ e ∈ rest, e.2 ≠ 0) :
    Begun s := by
  refine ⟨fun v' rest' h => ?_, fun e he => ?_⟩
  · rw [hwork] at h
    cases h
    exact absurd rfl hi
  · rw [hwork] at he
    exact hrest e he

theorem popFrame_work (s : TarjanState g.n) (v : Fin g.n) (rest : List (Fin g.n × Nat)) :
    (popFrame s v rest).work = rest := by
  unfold popFrame
  split
  · rfl
  · dsimp only
    split <;> rfl

/-- What is left below a frame is begun. -/
theorem begun_of_rest (hwork : s.work = rest) (hrest : ∀ e ∈ rest, e.2 ≠ 0) :
    Begun s ∧ entered s = s := by
  cases rest with
  | nil =>
    refine ⟨⟨fun v rest h => ?_, fun e he => ?_⟩, entered_of_nil hwork⟩
    · rw [hwork] at h
      cases h
    · rw [hwork] at he
      cases he
  | cons e rest =>
    have he := hrest e mem_cons_self
    exact ⟨begun_of_pos hwork he fun e' he' => hrest e' (mem_cons_of_mem _ he'),
      entered_of_pos hwork he⟩

theorem turned_processFrame (hs : TarjanInv g s) (hwork : s.work = (v, i) :: rest)
    (hrest : ∀ e ∈ rest, e.2 ≠ 0) :
    Begun (processFrame g s v i rest) ∧ Turned s (entered (processFrame g s v i rest)) := by
  have hvs : v ∈ s.stack := (hs.path.mem (v, i) (by simp [hwork])).1
  unfold processFrame
  cases hcall : (g.adj v)[i]? with
  | some w =>
    dsimp only
    cases hw : s.index w with
    | none =>
      -- the frame of `w` is new; entering it is the visit of the other search
      refine ⟨⟨fun v' rest' h => ?_, fun e he => ?_⟩, .descend hwork hcall hw⟩
      · cases h
        exact hw
      · rcases mem_cons.mp he with rfl | he
        · exact Nat.succ_ne_zero i
        · exact hrest e he
    | some iw =>
      dsimp only
      have hidx : s.idx w = iw := by rw [idx, hw, getD_some]
      have hvis : (s.index w).isSome := by rw [hw]; rfl
      have hbegun : ∀ low : Fin g.n → Nat,
          Begun { s with work := (v, i + 1) :: rest, lowlink := low } ∧
          entered { s with work := (v, i + 1) :: rest, lowlink := low }
            = { s with work := (v, i + 1) :: rest, lowlink := low } := fun low =>
        ⟨begun_of_pos (s := { s with work := (v, i + 1) :: rest, lowlink := low })
          (i := i + 1) rfl (Nat.succ_ne_zero i) hrest, rfl⟩
      have hsame : ∀ low : Fin g.n → Nat, (low = s.lowlink ∧
            (s.onStack w = true → s.lowlink v ≤ s.idx w) ∨ s.onStack w = true ∧
            s.idx w < s.lowlink v ∧ low = update s.lowlink v (s.idx w)) →
          Begun { s with work := (v, i + 1) :: rest, lowlink := low } ∧
          Turned s (entered { s with work := (v, i + 1) :: rest, lowlink := low }) :=
        fun low hlow => ⟨(hbegun low).1, (hbegun low).2 ▸ .pass hwork hcall hvis hlow⟩
      split
      · next hon =>
        split
        · next hlt => exact hsame _ (.inr ⟨hon, hidx ▸ hlt, by rw [hidx]⟩)
        · next hlt => exact hsame _ (.inl ⟨rfl, fun _ => by rw [hidx]; omega⟩)
      · next hon => exact hsame _ (.inl ⟨rfl, fun h => absurd h hon⟩)
  | none =>
    dsimp only
    have hindex : s.index v = some (s.idx v) := by
      obtain ⟨k, hk⟩ := isSome_iff_exists.mp ((hs.stacked.visited_iff v).mpr (.inl hvs))
      rw [idx, hk, getD_some]
    have hle := hs.low.le v hvs
    rw [hindex, getD_some]
    have hwork' := popFrame_work (if s.lowlink v = s.idx v then popScc s v else s) v rest
    obtain ⟨hbegun, hentered⟩ := begun_of_rest hwork' hrest
    refine ⟨hbegun, ?_⟩
    rw [hentered]
    by_cases hroot : s.lowlink v = s.idx v
    · -- a root: its lowlink is too large to change the parent's
      rw [if_pos hroot]
      have hpop : popFrame (popScc s v) v rest = { popScc s v with work := rest } := by
        cases rest with
        | nil => rfl
        | cons e rest =>
          obtain ⟨parent, p⟩ := e
          have hpv : s.idx parent < s.idx v := hs.path.idx_lt_top hwork (by simp)
          have hple := hs.low.le parent
            (hs.path.mem_stack ((path_leave hwork).mpr (.inr (by simp))))
          have hnot : ¬ s.lowlink v < s.lowlink parent := by omega
          unfold popFrame
          dsimp only
          exact if_neg hnot
      rw [hpop]
      exact .close hwork hcall hroot
    · rw [if_neg hroot]
      cases rest with
      | nil =>
        -- the start of the path is a root: nothing older is on the stack
        obtain ⟨start, -, hstart, hbelow⟩ := hs.path.bottom (by rw [hwork]; simp)
        have hsv : start = v := by simpa using (path_leave hwork).mp hstart
        obtain ⟨x, hx, hxidx, -⟩ := hs.low.witness v hvs
        have hxv := hbelow x hx
        rw [hsv] at hxv
        omega
      | cons e rest =>
        obtain ⟨parent, p⟩ := e
        have hpop : popFrame s v ((parent, p) :: rest)
            = ({ s with work := (parent, p) :: rest } : TarjanState g.n).lower parent v := by
          unfold popFrame lower
          dsimp only
          split
          · next hlt => rw [Nat.min_eq_right (Nat.le_of_lt hlt)]
          · next hlt => rw [Nat.min_eq_left (Nat.not_lt.mp hlt), update_eq_self]
        rw [hpop]
        exact .retreat hwork hcall (by omega)

/-- A turn of the source that is not idle is a turn between the states with the frames begun. -/
theorem turned (hs : TarjanInv g (entered s)) (hbegun : Begun s) (hnot : ¬ Finished g s) :
    Begun (turn g s) ∧ Turned (entered s) (entered (turn g s)) := by
  unfold turn
  split
  · next hwork =>
    have hn : s.next < g.n := Nat.not_le.mp fun hle => hnot ⟨hwork, hle⟩
    rw [dif_pos hn, entered_of_nil hwork]
    dsimp only
    split
    · next hvis =>
      obtain ⟨hb, he⟩ := begun_of_rest (s := { s with next := s.next + 1 }) hwork (by simp)
      rw [he]
      exact ⟨hb, .skip hwork hn hvis⟩
    · next hvis =>
      have hunvisited := not_isSome_iff_eq_none.mp hvis
      refine ⟨⟨fun v rest h => ?_, fun e he => ?_⟩, ?_⟩
      · cases h
        exact hunvisited
      · cases he
      · have hstart : entered { s with next := s.next + 1, work := [(⟨s.next, hn⟩, 0)] }
            = ({ s with next := s.next + 1 } : TarjanState g.n).visit ⟨s.next, hn⟩ := by
          unfold visit
          rw [hwork]
          rfl
        rw [hstart]
        exact .start hwork hn hunvisited
  · next v i rest hwork =>
    have hrest : ∀ e ∈ rest, e.2 ≠ 0 := fun e he => hbegun.below e (by rw [hwork]; exact he)
    rw [← entered_of_cons hwork]
    exact turned_processFrame hs ((entered_work s).trans hwork) hrest

/-! ### The whole search -/

theorem turn_of_finished (h : Finished g s) : turn g s = s := by
  unfold turn
  rw [h.1]
  exact dif_neg (Nat.not_lt.mpr h.2)

/-- The invariant of the search of the source. -/
structure SearchInv (s : TarjanState g.n) : Prop where
  begun : Begun s
  tarjan : TarjanInv g (entered s)

theorem searchInv_init (g : CallGraph) : SearchInv (g := g) (init g.n) :=
  have hrest : ∀ e ∈ ([] : List (Fin g.n × Nat)), e.2 ≠ 0 := fun _ he => absurd he not_mem_nil
  ⟨(begun_of_rest rfl hrest).1, tarjanInv_init g⟩

theorem searchInv_turn (h : SearchInv s) : SearchInv (turn g s) := by
  by_cases hfin : Finished g s
  · rw [turn_of_finished hfin]
    exact h
  · obtain ⟨hbegun, hturned⟩ := turned h.tarjan h.begun hfin
    exact ⟨hbegun, hturned.inv h.tarjan⟩

theorem searchInv_iterate (h : SearchInv s) (m : Nat) : SearchInv ((turn g)^[m] s) := by
  induction m generalizing s with
  | zero => exact h
  | succ m ih => exact ih (searchInv_turn h)

theorem finished_iterate_turn (h : SearchInv s) {m : Nat} (hm : turnsLeft g (entered s) ≤ m) :
    Finished g ((turn g)^[m] s) := by
  induction m generalizing s with
  | zero =>
    by_contra hfin
    have := (turned h.tarjan h.begun hfin).2.turnsLeft_lt
    omega
  | succ m ih =>
    rw [iterate_succ_apply]
    by_cases hfin : Finished g s
    · rw [turn_of_finished hfin, iterate_fixed (turn_of_finished hfin)]
      exact hfin
    · have := (turned h.tarjan h.begun hfin).2.turnsLeft_lt
      exact ih (searchInv_turn h) (by omega)

/-- The state in which the loops of `tarjan_scc` end. -/
def searched (g : CallGraph) : TarjanState g.n := (turn g)^[g.turns] (init g.n)

theorem finished_searched (g : CallGraph) : Finished g (searched g) := by
  refine finished_iterate_turn (searchInv_init g) (Nat.le_of_eq ?_)
  simp [entered, turnsLeft, unvisitedTurns, init, CallGraph.turns]

theorem tarjanInv_searched (g : CallGraph) : TarjanInv g (searched g) := by
  have h := (searchInv_iterate (searchInv_init g) g.turns).tarjan
  rwa [show entered ((turn g)^[g.turns] (init g.n)) = searched g from
    entered_of_nil (finished_searched g).1] at h

/-! ## The components -/

/-- The components of `g`, each vertex in one of them, and none before one that it calls. -/
structure Components (g : CallGraph) (sccs : List (List (Fin g.n))) : Prop where
  mem : ∀ v, v ∈ sccs.flatten
  nodup : sccs.flatten.Nodup
  mutual_iff : ∀ scc ∈ sccs, ∀ v ∈ scc, ∀ w, w ∈ scc ↔ g.Reaches v w ∧ g.Reaches w v
  reverse_topological :
    sccs.Pairwise fun scc later => ∀ v ∈ scc, ∀ w ∈ later, ¬ g.Reaches v w

variable {sccs : List (List (Fin g.n))}

/-- Layers without repetitions are the components of what they hold. -/
theorem Layered.mutual_iff (h : g.Layered sccs) (hnodup : sccs.flatten.Nodup) {scc : List (Fin g.n)}
    (hscc : scc ∈ sccs) (hv : v ∈ scc) (w : Fin g.n) : w ∈ scc ↔ g.Reaches v w ∧ g.Reaches w v := by
  induction sccs with
  | nil => cases hscc
  | cons top earlier ih =>
    have hlayered := h
    obtain ⟨-, hmutual, -, hearlier⟩ := h
    rw [flatten_cons, nodup_append] at hnodup
    obtain ⟨-, hnodup', hdisjoint⟩ := hnodup
    rcases mem_cons.mp hscc with rfl | hmem
    · refine ⟨fun hw => ⟨hmutual v hv w hw, hmutual w hw v hv⟩, fun ⟨hvw, hwv⟩ => ?_⟩
      have hflat := hlayered.closed
        (by rw [flatten_cons]; exact mem_append_left _ hv) hvw
      rw [flatten_cons, mem_append] at hflat
      -- below the component there is no way back
      refine hflat.resolve_right fun hw => ?_
      exact hdisjoint v hv v (hearlier.closed hw hwv) rfl
    · exact ih hearlier hnodup' hmem

/-- The last component is reached by nothing earlier. -/
theorem Layered.pairwise (h : g.Layered sccs) (hnodup : sccs.flatten.Nodup) :
    sccs.Pairwise fun later scc => ∀ v ∈ scc, ∀ w ∈ later, ¬ g.Reaches v w := by
  induction sccs with
  | nil => exact .nil
  | cons top earlier ih =>
    obtain ⟨-, -, -, hearlier⟩ := h
    rw [flatten_cons, nodup_append] at hnodup
    obtain ⟨-, hnodup', hdisjoint⟩ := hnodup
    refine pairwise_cons.mpr ⟨fun scc hscc v hv w hw hvw => ?_, ih hearlier hnodup'⟩
    have hflat := hearlier.closed (mem_flatten.mpr ⟨scc, hscc, hv⟩) hvw
    exact hdisjoint w hw w hflat rfl

theorem components_tarjanScc (g : CallGraph) : Components g (tarjanScc g) := by
  have hinv := tarjanInv_searched g
  obtain ⟨hwork, hnext⟩ := finished_searched g
  have hnodup : (searched g).sccs.flatten.Nodup :=
    (nodup_append.mp hinv.stacked.nodup).2.1
  have hlayered := hinv.stacked.layered
  have htarjan : tarjanScc g = (searched g).sccs.reverse := rfl
  have hperm : (tarjanScc g).flatten.Perm (searched g).sccs.flatten :=
    (reverse_perm _).flatten
  refine ⟨fun v => ?_, hperm.nodup_iff.mpr hnodup, fun scc hscc v hv w => ?_, ?_⟩
  · rw [hperm.mem_iff]
    exact (hinv.path.starts v (Nat.lt_of_lt_of_le v.isLt hnext)).resolve_right
      fun h => h.2 hwork
  · rw [htarjan, mem_reverse] at hscc
    exact Layered.mutual_iff hlayered hnodup hscc hv w
  · rw [htarjan, pairwise_reverse]
    exact Layered.pairwise hlayered hnodup

end Ridge.Imports
