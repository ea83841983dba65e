import Mathlib.Data.Set.Finite.Basic

/-!
# Depth-first walks of a labelled graph

A walk goes through a list of edges in order. An edge to a vertex seen before is passed over; an
edge to a new vertex is entered in the listing, and the edges out of the vertex are walked before
the rest of the list. `walk` runs with fuel, `Walks` is the same walk as a derivation, and the
facts about walks are inductions on derivations:

* the trace, every edge the walk looks at, consists of the edges it starts from and the edges out
  of what it enters (`Walks.trace_perm`);
* the listing enters every reachable vertex once (`Walks.nodup_entries`, `Walks.mem_entries_iff`);
* without cycles the listing is the depth-first unfolding of the graph into all its paths, of
  which only the first edge to each vertex is kept (`Walks.entries_eq_firsts`);
* finitely many reachable vertices bound the fuel (`walk_isSome`, `exists_walk`).
-/

namespace Ridge.DepthFirst

open Relation List Option

variable {L V : Type*} {v : V}

variable (out : V → List (L × V))

/-- An edge out of `v` leads to `w`. -/
def Edge (v w : V) : Prop := ∃ e ∈ out v, e.2 = w

/-- One of the edges of the list leads to `w`, directly or along further edges. -/
def From (es : List (L × V)) (w : V) : Prop :=
  ∃ e ∈ es, ReflTransGen (Edge out) e.2 w

/-- A vertex that is reached from the list is on a cycle. -/
def Cyclic (es : List (L × V)) : Prop :=
  ∃ v, From out es v ∧ TransGen (Edge out) v v

/-- The paths of at most `n` edges, depth first, each given by its last edge. -/
def unfolding (out : V → List (L × V)) : Nat → List (L × V) → List (L × V)
  | 0, _ => []
  | n + 1, es => es.flatMap fun e => e :: unfolding out n (out e.2)

variable {out : V → List (L × V)} {es : List (L × V)}

/-! ## What is reached -/

variable {e : L × V}

theorem From.head (he : e ∈ es) : From out es e.2 := ⟨e, he, .refl⟩

theorem From.mono {es' : List (L × V)} (h : es ⊆ es') (hv : From out es v) : From out es' v := by
  obtain ⟨e, he, hev⟩ := hv
  exact ⟨e, h he, hev⟩

/-- Below a vertex that is reached, everything is reached. -/
theorem From.below {x : V} (hv : From out es v) (hx : From out (out v) x) : From out es x := by
  obtain ⟨e, he, hev⟩ := hv
  obtain ⟨e', he', hx⟩ := hx
  exact ⟨e, he, hev.trans (.head ⟨e', he', rfl⟩ hx)⟩

/-- A vertex lies below itself exactly when it is on a cycle. -/
theorem from_out_iff {x : V} : From out (out v) x ↔ TransGen (Edge out) v x := by
  rw [TransGen.head'_iff]
  constructor
  · rintro ⟨e, he, hx⟩
    exact ⟨e.2, ⟨e, he, rfl⟩, hx⟩
  · rintro ⟨_, ⟨e, he, rfl⟩, hx⟩
    exact ⟨e, he, hx⟩

/-- What a list reaches is on the list or below something it reaches. -/
theorem from_cons : From out (e :: es) v ↔ v = e.2 ∨ From out (out e.2) v ∨ From out es v := by
  constructor
  · rintro ⟨e', he', hv⟩
    rcases mem_cons.mp he' with rfl | he'
    · rcases reflTransGen_iff_eq_or_transGen.mp hv with rfl | hv
      · exact .inl rfl
      · exact .inr (.inl (from_out_iff.mpr hv))
    · exact .inr (.inr ⟨e', he', hv⟩)
  · rintro (rfl | hv | hv)
    · exact From.head mem_cons_self
    · exact (From.head mem_cons_self).below hv
    · exact hv.mono (subset_cons_self e es)

variable {n : Nat}

theorem from_of_mem_unfolding (he : e ∈ unfolding out n es) : From out es e.2 := by
  induction n generalizing es with
  | zero => cases he
  | succ n ih =>
    obtain ⟨e', he', he⟩ := mem_flatMap.mp he
    rcases mem_cons.mp he with rfl | he
    · exact From.head he'
    · exact (From.head he').below (ih he)

theorem unfolding_cons (n : Nat) (e : L × V) (es : List (L × V)) :
    unfolding out (n + 1) (e :: es)
      = e :: unfolding out n (out e.2) ++ unfolding out (n + 1) es := rfl

/-! ## Walks -/

/-- The first edge to each vertex outside `seen`. -/
def firsts [DecidableEq V] : Finset V → List (L × V) → List (L × V)
  | _, [] => []
  | seen, e :: es =>
    if e.2 ∈ seen then firsts seen es else e :: firsts (insert e.2 seen) es

/-- What a walk leaves: the edges it entered, the vertices seen and the edges it looked at. -/
structure Walk (L V : Type*) where
  entries : List (L × V)
  seen : Finset V
  trace : List (L × V)

namespace Walk

def nil (seen : Finset V) : Walk L V := ⟨[], seen, []⟩

/-- The edge led to a vertex seen before. -/
def pass (e : L × V) (w : Walk L V) : Walk L V := ⟨w.entries, w.seen, e :: w.trace⟩

/-- The edge led to a new vertex: the walk below it, and the walk of the rest. -/
def enter (e : L × V) (below rest : Walk L V) : Walk L V :=
  ⟨e :: below.entries ++ rest.entries, rest.seen, e :: below.trace ++ rest.trace⟩

end Walk

section Walk

variable [DecidableEq V] (out)

/-- Walk a list of edges; `below` walks what is below a new vertex. -/
def walkList (below : V → Finset V → Option (Walk L V)) :
    List (L × V) → Finset V → Option (Walk L V)
  | [], seen => some (.nil seen)
  | e :: es, seen =>
    if e.2 ∈ seen then (walkList below es seen).map (Walk.pass e)
    else
      (below e.2 (insert e.2 seen)).bind fun b =>
        (walkList below es b.seen).map (Walk.enter e b)

/-- The walk with fuel for the depth. -/
def walk : Nat → List (L × V) → Finset V → Option (Walk L V)
  | 0 => fun _ _ => none
  | n + 1 => walkList fun v seen => walk n (out v) seen

/-- The walk as a derivation. -/
inductive Walks : List (L × V) → Finset V → Walk L V → Prop
  | nil (seen : Finset V) : Walks [] seen (.nil seen)
  | pass {e : L × V} {es : List (L × V)} {seen : Finset V} {w : Walk L V} (hseen : e.2 ∈ seen)
      (rest : Walks es seen w) : Walks (e :: es) seen (.pass e w)
  | enter {e : L × V} {es : List (L × V)} {seen : Finset V} {b w : Walk L V} (hnew : e.2 ∉ seen)
      (below : Walks (out e.2) (insert e.2 seen) b) (rest : Walks es b.seen w) :
      Walks (e :: es) seen (.enter e b w)

end Walk

variable [DecidableEq V] {seen : Finset V} {w : Walk L V}

theorem walks_of_walk (h : walk out n es seen = some w) : Walks out es seen w := by
  induction n generalizing es seen w with
  | zero => cases h
  | succ n ih =>
    change walkList (fun v seen => walk out n (out v) seen) es seen = some w at h
    induction es generalizing seen w with
    | nil =>
      cases h
      exact .nil seen
    | cons e es ihes =>
      rw [walkList] at h
      split at h
      · next hseen =>
        obtain ⟨w', hw', rfl⟩ := map_eq_some_iff.mp h
        exact .pass hseen (ihes hw')
      · next hnew =>
        obtain ⟨b, hb, h⟩ := bind_eq_some_iff.mp h
        obtain ⟨w', hw', rfl⟩ := map_eq_some_iff.mp h
        exact .enter hnew (ih hb) (ihes hw')

namespace Walks

section

variable (h : Walks out es seen w)
include h

/-- A walk goes one way. -/
theorem unique {w' : Walk L V} (h' : Walks out es seen w') : w = w' := by
  induction h generalizing w' with
  | nil => cases h'; rfl
  | pass hseen _ ih =>
    cases h' with
    | pass _ hr' => rw [ih hr']
    | enter hnew _ _ => exact absurd hseen hnew
  | enter hnew _ _ ihb ih =>
    cases h' with
    | pass hseen _ => exact absurd hseen hnew
    | enter _ hb' hr' =>
      cases ihb hb'
      rw [ih hr']

/-! ## Listing and trace -/

theorem mem_seen_iff : v ∈ w.seen ↔ v ∈ seen ∨ v ∈ w.entries.map Prod.snd := by
  induction h with
  | nil => simp [Walk.nil]
  | pass _ _ ih => exact ih
  | enter _ _ _ ihb ih =>
    rw [Walk.enter, ih, ihb, Finset.mem_insert]
    simp only [cons_append, map_cons, map_append, mem_cons, mem_append]
    tauto

theorem subset_seen : seen ⊆ w.seen :=
  fun _ hv => h.mem_seen_iff.mpr (.inl hv)

/-- No vertex is entered that was seen before. -/
theorem not_mem_seen (hv : v ∈ w.entries.map Prod.snd) : v ∉ seen := by
  induction h with
  | nil => cases hv
  | pass _ _ ih => exact ih hv
  | enter hnew hb _ ihb ih =>
    simp only [Walk.enter, cons_append, map_cons, map_append, mem_cons,
      mem_append] at hv
    rcases hv with rfl | hv | hv
    · exact hnew
    · exact fun hmem => ihb hv (Finset.mem_insert_of_mem hmem)
    · exact fun hmem => ih hv (hb.subset_seen (Finset.mem_insert_of_mem hmem))

/-- Every vertex is entered at most once. -/
theorem nodup_entries : (w.entries.map Prod.snd).Nodup := by
  induction h with
  | nil => exact nodup_nil
  | pass _ _ ih => exact ih
  | enter _ hb hr ihb ih =>
    simp only [Walk.enter, cons_append, map_cons, map_append]
    refine nodup_cons.mpr ⟨fun hmem => ?_, nodup_append.mpr ⟨ihb, ih, ?_⟩⟩
    · rcases mem_append.mp hmem with hmem | hmem
      · exact hb.not_mem_seen hmem (Finset.mem_insert_self _ _)
      · exact hr.not_mem_seen hmem (hb.subset_seen (Finset.mem_insert_self _ _))
    · rintro a ha _ hmem rfl
      exact hr.not_mem_seen hmem (hb.mem_seen_iff.mpr (Or.inr ha))

/-- The walk looks at the edges it starts from and at the edges out of what it enters. -/
theorem trace_perm : w.trace.Perm (es ++ w.entries.flatMap fun e => out e.2) := by
  induction h with
  | nil => exact .refl _
  | pass _ _ ih => exact ih.cons _
  | @enter e es seen b w _ _ _ ihb ih =>
    simp only [Walk.enter, cons_append, flatMap_cons, flatMap_append]
    refine ((ihb.append ih).trans ?_).cons e
    -- the edges below `e` come first in the trace, the rest of the list first in the sum
    have hswap : ((out e.2 ++ b.entries.flatMap fun e => out e.2) ++ es).Perm
        (es ++ (out e.2 ++ b.entries.flatMap fun e => out e.2)) := perm_append_comm
    simpa only [append_assoc] using
      hswap.append_right (w.entries.flatMap fun e => out e.2)

/-- Every edge the walk looks at leads to a vertex seen in the end. -/
theorem trace_seen (he : e ∈ w.trace) : e.2 ∈ w.seen := by
  induction h with
  | nil => cases he
  | pass hseen hr ih =>
    rcases mem_cons.mp he with rfl | he
    · exact hr.subset_seen hseen
    · exact ih he
  | enter _ hb hr ihb ih =>
    simp only [Walk.enter, cons_append, mem_cons, mem_append] at he
    rcases he with rfl | he | he
    · exact hr.subset_seen (hb.subset_seen (Finset.mem_insert_self _ _))
    · exact hr.subset_seen (ihb he)
    · exact ih he

/-- What is entered is reached. -/
theorem from_of_mem (hv : v ∈ w.entries.map Prod.snd) : From out es v := by
  induction h with
  | nil => cases hv
  | pass _ _ ih => exact from_cons.mpr (Or.inr (Or.inr (ih hv)))
  | enter _ _ _ ihb ih =>
    simp only [Walk.enter, cons_append, map_cons, map_append, mem_cons,
      mem_append] at hv
    rcases hv with rfl | hv | hv
    · exact from_cons.mpr (Or.inl rfl)
    · exact from_cons.mpr (Or.inr (Or.inl (ihb hv)))
    · exact from_cons.mpr (Or.inr (Or.inr (ih hv)))

end

/-- A walk that starts with nothing seen enters exactly what is reached. -/
theorem mem_entries_iff (h : Walks out es ∅ w) : v ∈ w.entries.map Prod.snd ↔ From out es v := by
  refine ⟨h.from_of_mem, ?_⟩
  rintro ⟨e, he, hv⟩
  have hentered : ∀ {x}, x ∈ w.seen → x ∈ w.entries.map Prod.snd := fun hx =>
    (h.mem_seen_iff.mp hx).resolve_left (Finset.notMem_empty _)
  induction hv with
  | refl =>
    exact hentered (h.trace_seen (h.trace_perm.mem_iff.mpr (mem_append_left _ he)))
  | tail _ hxy ih =>
    -- edges out of what was entered are looked at
    obtain ⟨e, he, rfl⟩ := hxy
    obtain ⟨e', he', rfl⟩ := mem_map.mp ih
    exact hentered (h.trace_seen (h.trace_perm.mem_iff.mpr
      (mem_append_right _ (mem_flatMap.mpr ⟨e', he', he⟩))))

end Walks

/-! ## The listing without cycles -/

theorem firsts_append (a b : List (L × V)) (seen : Finset V) :
    firsts seen (a ++ b)
      = firsts seen a ++ firsts (seen ∪ (a.map Prod.snd).toFinset) b := by
  induction a generalizing seen with
  | nil => simp [firsts]
  | cons e a ih =>
    simp only [cons_append, firsts, map_cons, toFinset_cons]
    split
    · next hseen =>
      rw [ih]
      congr 2
      ext x
      simp only [Finset.mem_union, Finset.mem_insert]
      constructor
      · rintro (hx | hx)
        · exact Or.inl hx
        · exact Or.inr (Or.inr hx)
      · rintro (hx | rfl | hx)
        · exact Or.inl hx
        · exact Or.inl hseen
        · exact Or.inr hx
    · rw [ih, cons_append]
      congr 3
      ext x
      simp only [Finset.mem_union, Finset.mem_insert]
      tauto

/-- Of edges to vertices seen before, none is kept. -/
theorem firsts_of_seen {a : List (L × V)} (h : ∀ e ∈ a, e.2 ∈ seen) : firsts seen a = [] := by
  induction a with
  | nil => rfl
  | cons e a ih =>
    rw [firsts, if_pos (h e mem_cons_self)]
    exact ih fun x hx => h x (mem_cons_of_mem _ hx)

namespace Walks

/-- Without cycles, and where the vertices seen that can be reached are done with, the listing is
the unfolding without its repetitions, and everything reached is seen. -/
theorem entries_of_closed (h : Walks out es seen w)
    (hacyclic : ∀ v, From out es v → ¬ TransGen (Edge out) v v)
    (hclosed : ∀ v ∈ seen, From out es v → ∀ x, From out (out v) x → x ∈ seen) :
    (∀ v, From out es v → v ∈ w.seen) ∧
      ∃ N, ∀ n ≥ N, firsts seen (unfolding out n es) = w.entries ∧
        ∀ x, x ∈ seen ∪ ((unfolding out n es).map Prod.snd).toFinset ↔ x ∈ w.seen := by
  induction h with
  | nil seen =>
    refine ⟨fun v ⟨e, he, _⟩ => absurd he (not_mem_nil), 0, fun n _ => ?_⟩
    cases n <;> simp [unfolding, firsts, Walk.nil]
  | @pass e es seen w hseen hr ih =>
    have htail : ∀ {v}, From out es v → From out (e :: es) v := fun hv =>
      hv.mono (subset_cons_self e es)
    have hbelow : ∀ x, From out (out e.2) x → x ∈ seen :=
      hclosed e.2 hseen (From.head mem_cons_self)
    obtain ⟨hall, N, hN⟩ := ih (fun v hv => hacyclic v (htail hv))
      fun v hv hfrom => hclosed v hv (htail hfrom)
    refine ⟨fun v hv => ?_, N + 1, fun n hn => ?_⟩
    · rcases from_cons.mp hv with rfl | hv | hv
      · exact hr.subset_seen hseen
      · exact hr.subset_seen (hbelow v hv)
      · exact hall v hv
    · obtain ⟨m, rfl⟩ : ∃ m, n = m + 1 := ⟨n - 1, by omega⟩
      have hsubtree : ∀ x ∈ e :: unfolding out m (out e.2), x.2 ∈ seen := by
        intro x hx
        rcases mem_cons.mp hx with rfl | hx
        · exact hseen
        · exact hbelow _ (from_of_mem_unfolding hx)
      obtain ⟨hfirsts, hmem⟩ := hN (m + 1) (by omega)
      have hunion : seen ∪ ((e :: unfolding out m (out e.2)).map Prod.snd).toFinset = seen :=
        Finset.union_eq_left.mpr fun x hx => by
          obtain ⟨y, hy, rfl⟩ := mem_map.mp (mem_toFinset.mp hx)
          exact hsubtree y hy
      rw [unfolding_cons, firsts_append, firsts_of_seen hsubtree, hunion, map_append,
        toFinset_append, ← Finset.union_assoc, hunion]
      exact ⟨hfirsts, hmem⟩
  | @enter e es seen b w hnew hb hr ihb ih =>
    have htail : ∀ {v}, From out es v → From out (e :: es) v := fun hv =>
      hv.mono (subset_cons_self e es)
    have hhead : ∀ {v}, From out (out e.2) v → From out (e :: es) v := fun hv =>
      (From.head mem_cons_self).below hv
    -- below `e` nothing leads back to `e`
    obtain ⟨hallb, N₁, hN₁⟩ := ihb (fun v hv => hacyclic v (hhead hv)) fun v hv hfrom x hx => by
      rcases Finset.mem_insert.mp hv with rfl | hv
      · exact absurd (from_out_iff.mp hfrom) (hacyclic _ (From.head mem_cons_self))
      · exact Finset.mem_insert_of_mem (hclosed v hv (hhead hfrom) x hx)
    -- what is below `e` is done with
    obtain ⟨hall, N₂, hN₂⟩ := ih (fun v hv => hacyclic v (htail hv)) fun v hv hfrom x hx => by
      rcases hb.mem_seen_iff.mp hv with hv | hv
      · rcases Finset.mem_insert.mp hv with rfl | hv
        · exact hallb x hx
        · exact hb.subset_seen (Finset.mem_insert_of_mem (hclosed v hv (htail hfrom) x hx))
      · exact hallb x ((hb.from_of_mem hv).below hx)
    refine ⟨fun v hv => ?_, N₁ + N₂ + 1, fun n hn => ?_⟩
    · rcases from_cons.mp hv with rfl | hv | hv
      · exact hr.subset_seen (hb.subset_seen (Finset.mem_insert_self _ _))
      · exact hr.subset_seen (hallb v hv)
      · exact hall v hv
    · obtain ⟨m, rfl⟩ : ∃ m, n = m + 1 := ⟨n - 1, by omega⟩
      obtain ⟨hfirsts₁, hmem₁⟩ := hN₁ m (by omega)
      obtain ⟨hfirsts₂, hmem₂⟩ := hN₂ (m + 1) (by omega)
      have hsplit : seen ∪ ((e :: unfolding out m (out e.2)).map Prod.snd).toFinset = b.seen := by
        ext x
        rw [← hmem₁ x]
        simp only [map_cons, toFinset_cons, Finset.mem_union, Finset.mem_insert]
        tauto
      have hsubtree : firsts seen (e :: unfolding out m (out e.2)) = e :: b.entries := by
        rw [firsts, if_neg hnew, hfirsts₁]
      rw [unfolding_cons, firsts_append, hsubtree, hsplit, hfirsts₂, map_append,
        toFinset_append, ← Finset.union_assoc, hsplit]
      exact ⟨rfl, hmem₂⟩

/-- The listing of an acyclic graph: all paths, depth first, and of them the first to each
vertex. -/
theorem entries_eq_firsts (h : Walks out es ∅ w) (hacyclic : ¬ Cyclic out es) :
    ∃ N, ∀ n ≥ N, firsts ∅ (unfolding out n es) = w.entries := by
  obtain ⟨-, N, hN⟩ := h.entries_of_closed (fun v hv hcycle => hacyclic ⟨v, hv, hcycle⟩)
    fun v hv => absurd hv (Finset.notMem_empty v)
  exact ⟨N, fun n hn => (hN n hn).1⟩

end Walks

/-! ## Fuel -/

/-- A walk inside a finite set ends with fuel for the vertices of the set not seen yet. -/
theorem walk_isSome {F : Finset V} (hF : ∀ v ∈ F, ∀ e ∈ out v, e.2 ∈ F) (hes : ∀ e ∈ es, e.2 ∈ F)
    (hn : (F \ seen).card < n) : (walk out n es seen).isSome := by
  induction n generalizing es seen with
  | zero => omega
  | succ n ih =>
    change (walkList (fun v seen => walk out n (out v) seen) es seen).isSome
    induction es generalizing seen with
    | nil => rfl
    | cons e es ihes =>
      have htail : ∀ e' ∈ es, e'.2 ∈ F := fun e' he' => hes e' (mem_cons_of_mem _ he')
      have heF := hes e mem_cons_self
      rw [walkList]
      split
      · rw [isSome_map]
        exact ihes htail hn
      · next hnew =>
        -- the new vertex is one less to see
        have hless : (F \ insert e.2 seen).card < (F \ seen).card := by
          refine Finset.card_lt_card ⟨Finset.sdiff_subset_sdiff (Finset.Subset.refl _)
            (Finset.subset_insert _ _), fun hsub => ?_⟩
          have := Finset.mem_sdiff.mp (hsub (Finset.mem_sdiff.mpr ⟨heF, hnew⟩))
          exact this.2 (Finset.mem_insert_self _ _)
        obtain ⟨b, hb⟩ := isSome_iff_exists.mp (ih (hF e.2 heF) (show (F \ insert e.2 seen).card < n by omega))
        rw [hb, bind_some, isSome_map]
        refine ihes htail (lt_of_le_of_lt (Finset.card_le_card ?_) (lt_trans hless hn))
        exact Finset.sdiff_subset_sdiff (Finset.Subset.refl _) (walks_of_walk hb).subset_seen

/-- With finitely many vertices reached, the walk comes to an end, and further fuel is no matter. -/
theorem exists_walk (hfin : {v | From out es v}.Finite) (seen : Finset V) :
    ∃ N w, ∀ n ≥ N, walk out n es seen = some w := by
  have hends : ∀ n ≥ (hfin.toFinset \ seen).card + 1, (walk out n es seen).isSome := by
    intro n hn
    refine walk_isSome (F := hfin.toFinset) (fun v hv e he => ?_) (fun e he => ?_) (by omega)
    · rw [Set.Finite.mem_toFinset] at hv ⊢
      exact From.below hv (From.head he)
    · rw [Set.Finite.mem_toFinset]
      exact From.head he
  obtain ⟨w, hw⟩ := isSome_iff_exists.mp (hends _ (Nat.le_refl _))
  refine ⟨(hfin.toFinset \ seen).card + 1, w, fun n hn => ?_⟩
  obtain ⟨w', hw'⟩ := isSome_iff_exists.mp (hends n hn)
  rw [hw', (walks_of_walk hw').unique (walks_of_walk hw)]

end Ridge.DepthFirst
