import Ridge.Resolve.ImportCycles

/-!
# Cycle errors

`build_workspace_adjacency` and `detect_cycles` of `ridge-resolve/src/module_graph.rs`. A module is
given by its place among the modules of the workspace. Module names need not be distinct: two
projects may claim one name, which is an error of its own and stops nothing. The index of names
then holds the last of the modules, the linear search finds the first.
-/

namespace Ridge.Imports

open Relation CallGraph List

structure Span where
  start : Nat
  stop : Nat
  deriving DecidableEq

structure ModuleMetadata where
  fully_qualified_name : String
  span_within_file : Span

structure WorkspaceGraph where
  modules : List ModuleMetadata

abbrev WorkspaceGraph.ModuleId (ws : WorkspaceGraph) := Fin ws.modules.length

def WorkspaceGraph.nameOf (ws : WorkspaceGraph) (m : ws.ModuleId) : String :=
  (ws.modules.get m).fully_qualified_name

structure TentativeEdge (ws : WorkspaceGraph) where
  source : ws.ModuleId
  path_dotted : String
  span : Span

structure ModuleGraph (ws : WorkspaceGraph) where
  tentative_edges : List (TentativeEdge ws)

inductive ResolveError (ws : WorkspaceGraph) where
  | SelfImport (span : Span)
  | CyclicImport (cycle : List ws.ModuleId) (first_edge : Span)
  deriving DecidableEq

variable {ws : WorkspaceGraph}

/-- The index from names to modules; a later module takes the name of an earlier one. -/
def fqnIndex (ws : WorkspaceGraph) (path_dotted : String) : Option ws.ModuleId :=
  (List.finRange ws.modules.length).reverse.find? fun m => ws.nameOf m = path_dotted

def fqnToModuleId (ws : WorkspaceGraph) (path_dotted : String) : Option ws.ModuleId :=
  (List.finRange ws.modules.length).find? fun m => ws.nameOf m = path_dotted

variable (g : ModuleGraph ws)

/-- Edges that lead to no module of the workspace are skipped. -/
@[reducible] def buildWorkspaceAdjacency : CallGraph where
  n := ws.modules.length
  adj m := g.tentative_edges.filterMap fun edge =>
    if edge.source = m then fqnIndex ws edge.path_dotted else none

variable (edge : TentativeEdge ws)

def TentativeEdge.IsSelfImport : Prop :=
  edge.path_dotted = ws.nameOf edge.source

instance (edge : TentativeEdge ws) : Decidable edge.IsSelfImport :=
  inferInstanceAs (Decidable (_ = _))

/-- The edge leads from one of `sources` to a module of the cycle. -/
def TentativeEdge.staysIn (sources cycle : List ws.ModuleId) : Bool :=
  decide (edge.source ∈ sources) &&
    (fqnToModuleId ws edge.path_dotted).any fun target => decide (target ∈ cycle)

/-- The span of the first import of the lowest module that stays in the cycle, or else of the
first such import of any of its modules, or else of the lowest module's file. -/
def firstEdgeSpan (lowest : ws.ModuleId) (cycle : List ws.ModuleId) : Span :=
  ((g.tentative_edges.find? (·.staysIn [lowest] cycle)).or
      (g.tentative_edges.find? (·.staysIn cycle cycle))).elim
    (ws.modules.get lowest).span_within_file TentativeEdge.span

def selfImportError : ResolveError ws := .SelfImport edge.span

def importSccs : List (List ws.ModuleId) :=
  tarjanScc (buildWorkspaceAdjacency g)

/-- The error of a component; a single module makes none. -/
def cycleError (scc : List ws.ModuleId) : Option (ResolveError ws) :=
  if scc.length < 2 then none
  else
    let cycle := scc.mergeSort (· ≤ ·)
    cycle.head?.map fun lowest => .CyclicImport cycle (firstEdgeSpan g lowest cycle)

def detectCycles : List (ResolveError ws) :=
  ((g.tentative_edges.filter fun edge => edge.IsSelfImport).map selfImportError)
    ++ (importSccs g).filterMap (cycleError g)

/-! ## What is reported -/

def selfImports (errors : List (ResolveError ws)) : List Span :=
  errors.filterMap fun error =>
    match error with
    | .SelfImport span => some span
    | .CyclicImport _ _ => none

def cycles (errors : List (ResolveError ws)) : List (List ws.ModuleId) :=
  errors.filterMap fun error =>
    match error with
    | .SelfImport _ => none
    | .CyclicImport cycle _ => some cycle

/-- Each of the two modules imports the other, directly or through others. -/
def MutuallyImport (v w : ws.ModuleId) : Prop :=
  (buildWorkspaceAdjacency g).Reaches v w ∧ (buildWorkspaceAdjacency g).Reaches w v

/-- The cycles of a graph: sets of modules that import each other, in order of their ids, no
module in two of them and every module in one that is not alone. -/
structure AreCycles (g : ModuleGraph ws) (cycles : List (List ws.ModuleId)) : Prop where
  nodup : cycles.flatten.Nodup
  sorted : ∀ cycle ∈ cycles, cycle.Pairwise (· < ·)
  size : ∀ cycle ∈ cycles, 2 ≤ cycle.length
  mutual_iff : ∀ cycle ∈ cycles, ∀ v ∈ cycle, ∀ w, w ∈ cycle ↔ MutuallyImport g v w
  complete : ∀ v w, v ≠ w → MutuallyImport g v w → ∃ cycle ∈ cycles, v ∈ cycle

/-- No module imports its own name, and no chain of imports comes back. -/
def NoCycle : Prop :=
  (∀ edge ∈ g.tentative_edges, ¬ edge.IsSelfImport) ∧
    ∀ v, ¬ TransGen (buildWorkspaceAdjacency g).Edge v v

def selfImporters : List ws.ModuleId :=
  (List.finRange ws.modules.length).filter fun m =>
    g.tentative_edges.any fun edge => decide (edge.source = m ∧ edge.IsSelfImport)

/-! ## One error for each component -/

variable {scc : List ws.ModuleId}

theorem cycleError_of_lt {g : ModuleGraph ws} (h : scc.length < 2) :
    cycleError g scc = none := if_pos h

/-- A component of several modules makes an error with its modules in order. -/
theorem cycleError_of_le {g : ModuleGraph ws} (h : 2 ≤ scc.length) :
    ∃ span, cycleError g scc = some (.CyclicImport (scc.mergeSort (· ≤ ·)) span) := by
  unfold cycleError
  rw [if_neg (Nat.not_lt.mpr h)]
  dsimp only
  cases hcycle : scc.mergeSort (· ≤ ·) with
  | nil =>
    have hlength : (scc.mergeSort (· ≤ ·)).length = scc.length := length_mergeSort scc
    rw [hcycle, length_nil] at hlength
    omega
  | cons lowest rest => exact ⟨_, rfl⟩

theorem selfImports_append (a b : List (ResolveError ws)) :
    selfImports (a ++ b) = selfImports a ++ selfImports b := filterMap_append

theorem cycles_append (a b : List (ResolveError ws)) :
    cycles (a ++ b) = cycles a ++ cycles b := filterMap_append

theorem cycles_components (sccs : List (List ws.ModuleId)) :
    cycles (sccs.filterMap (cycleError g))
      = (sccs.filter fun scc => 2 ≤ scc.length).map fun scc => scc.mergeSort (· ≤ ·) := by
  induction sccs with
  | nil => rfl
  | cons scc sccs ih =>
    by_cases h : 2 ≤ scc.length
    · obtain ⟨span, hspan⟩ := cycleError_of_le (g := g) h
      rw [filterMap_cons_some hspan, filter_cons_of_pos (by simpa using h),
        map_cons, ← ih]
      rfl
    · rw [filterMap_cons_none (cycleError_of_lt (Nat.not_le.mp h)),
        filter_cons_of_neg (by simpa using h), ih]

theorem selfImports_components (sccs : List (List ws.ModuleId)) :
    selfImports (sccs.filterMap (cycleError g)) = [] := by
  induction sccs with
  | nil => rfl
  | cons scc sccs ih =>
    by_cases h : 2 ≤ scc.length
    · obtain ⟨span, hspan⟩ := cycleError_of_le (g := g) h
      rw [filterMap_cons_some hspan]
      exact ih
    · rw [filterMap_cons_none (cycleError_of_lt (Nat.not_le.mp h)), ih]

theorem selfImports_map (edges : List (TentativeEdge ws)) :
    selfImports (edges.map selfImportError) = edges.map TentativeEdge.span := by
  induction edges with
  | nil => rfl
  | cons edge edges ih => exact congrArg (edge.span :: ·) ih

theorem cycles_map (edges : List (TentativeEdge ws)) : cycles (edges.map selfImportError) = [] := by
  induction edges with
  | nil => rfl
  | cons edge edges ih => exact ih

theorem selfImports_detectCycles :
    selfImports (detectCycles g)
      = (g.tentative_edges.filter fun edge => edge.IsSelfImport).map TentativeEdge.span := by
  rw [detectCycles, selfImports_append, selfImports_map, selfImports_components, append_nil]

/-! ## The cycles are the components of several modules -/

/-- Two modules do not fit into a component of one. -/
theorem two_le_length {v w : ws.ModuleId} (hne : v ≠ w) (hv : v ∈ scc) (hw : w ∈ scc) :
    2 ≤ scc.length := by
  rcases scc with _ | ⟨x, _ | ⟨y, rest⟩⟩
  · cases hv
  · rw [mem_singleton] at hv hw
    exact absurd (hv.trans hw.symm) hne
  · exact Nat.le_add_left 2 rest.length

section Components

variable {g : ModuleGraph ws} {sccs : List (List ws.ModuleId)}

theorem areCycles_of_components (h : Components (buildWorkspaceAdjacency g) sccs) :
    AreCycles g ((sccs.filter fun scc => 2 ≤ scc.length).map fun scc =>
      scc.mergeSort (· ≤ ·)) := by
  have hperm : ∀ scc : List ws.ModuleId, (scc.mergeSort (· ≤ ·)).Perm scc := fun scc =>
    mergeSort_perm scc _
  have hmem : ∀ {cycle}, cycle ∈ ((sccs.filter fun scc => 2 ≤ scc.length).map fun scc =>
      scc.mergeSort (· ≤ ·)) → ∃ scc ∈ sccs, 2 ≤ scc.length ∧ cycle = scc.mergeSort (· ≤ ·) := by
    intro cycle hcycle
    obtain ⟨scc, hscc, rfl⟩ := mem_map.mp hcycle
    obtain ⟨hscc, hlength⟩ := mem_filter.mp hscc
    exact ⟨scc, hscc, by simpa using hlength, rfl⟩
  have hscc_nodup : ∀ scc ∈ sccs, scc.Nodup := fun scc hscc =>
    (nodup_flatten.mp h.nodup).1 scc hscc
  refine ⟨?_, fun cycle hcycle => ?_, fun cycle hcycle => ?_, fun cycle hcycle v hv w => ?_,
    fun v w hne hvw => ?_⟩
  · obtain ⟨hnodups, hdisjoint⟩ := nodup_flatten.mp h.nodup
    refine nodup_flatten.mpr ⟨fun cycle hcycle => ?_, ?_⟩
    · obtain ⟨scc, hscc, -, rfl⟩ := hmem hcycle
      exact (hperm scc).nodup_iff.mpr (hnodups scc hscc)
    · rw [pairwise_map]
      refine (hdisjoint.filter _).imp fun {a b} hab x hxa hxb => ?_
      exact hab ((hperm a).mem_iff.mp hxa) ((hperm b).mem_iff.mp hxb)
  · obtain ⟨scc, hscc, -, rfl⟩ := hmem hcycle
    have hle : (scc.mergeSort (· ≤ ·)).Pairwise (· ≤ ·) := by
      have hsorted : (scc.mergeSort (· ≤ ·)).Pairwise fun a b => decide (a ≤ b) = true :=
        pairwise_mergeSort
          (fun a b c hab hbc => by
            simp only [decide_eq_true_eq] at hab hbc ⊢
            exact hab.trans hbc)
          (fun a b => by simpa using le_total a b) scc
      exact hsorted.imp of_decide_eq_true
    have hnodup : (scc.mergeSort (· ≤ ·)).Nodup :=
      (hperm scc).nodup_iff.mpr (hscc_nodup scc hscc)
    exact (hle.and hnodup).imp fun {a b} hab => lt_of_le_of_ne hab.1 hab.2
  · obtain ⟨scc, -, hlength, rfl⟩ := hmem hcycle
    rwa [length_mergeSort]
  · obtain ⟨scc, hscc, -, rfl⟩ := hmem hcycle
    rw [(hperm scc).mem_iff] at hv ⊢
    exact h.mutual_iff scc hscc v hv w
  · obtain ⟨scc, hscc, hv⟩ := mem_flatten.mp (h.mem v)
    have hw := (h.mutual_iff scc hscc v hv w).mpr hvw
    have hlength := two_le_length hne hv hw
    refine ⟨_, mem_map.mpr ⟨scc, mem_filter.mpr ⟨hscc, by simpa using hlength⟩, rfl⟩, ?_⟩
    exact (hperm scc).mem_iff.mpr hv

end Components

theorem isSelfImport_of_edge {g : ModuleGraph ws} {v : ws.ModuleId}
    (h : (buildWorkspaceAdjacency g).Edge v v) : ∃ edge ∈ g.tentative_edges, edge.IsSelfImport := by
  obtain ⟨edge, hedge, htarget⟩ := mem_filterMap.mp h
  split at htarget
  · next hsource =>
    have hname := find?_some htarget
    refine ⟨edge, hedge, ?_⟩
    rw [TentativeEdge.IsSelfImport, hsource]
    exact (of_decide_eq_true hname).symm
  · cases htarget

theorem detectCycles_eq_nil_iff (g : ModuleGraph ws)
    (h : AreCycles g (cycles (detectCycles g))) : detectCycles g = [] ↔ NoCycle g := by
  constructor
  · intro hnil
    have hself := selfImports_detectCycles g
    rw [hnil] at h hself
    have hnone : ∀ edge ∈ g.tentative_edges, ¬ edge.IsSelfImport := by
      intro edge hedge hself'
      have hmem : edge ∈ g.tentative_edges.filter fun edge => edge.IsSelfImport :=
        mem_filter.mpr ⟨hedge, by simpa using hself'⟩
      have hspan := mem_map_of_mem (f := TentativeEdge.span) hmem
      rw [← hself] at hspan
      cases hspan
    refine ⟨hnone, fun v hcycle => ?_⟩
    obtain ⟨w, hvw, hwv⟩ := TransGen.head'_iff.mp hcycle
    by_cases heq : v = w
    · obtain ⟨edge, hedge, hself'⟩ := isSelfImport_of_edge (heq ▸ hvw)
      exact hnone edge hedge hself'
    · obtain ⟨cycle, hmem, -⟩ := h.complete v w heq ⟨.single hvw, hwv⟩
      cases hmem
  · rintro ⟨hself, hacyclic⟩
    have hfilter : (g.tentative_edges.filter fun edge => edge.IsSelfImport) = [] :=
      filter_eq_nil_iff.mpr fun edge hedge => by simpa using hself edge hedge
    rw [detectCycles, hfilter, map_nil, nil_append, filterMap_eq_nil_iff]
    intro scc hscc
    refine cycleError_of_lt (Nat.not_le.mp fun hlength => ?_)
    -- two modules of one component make a chain that comes back
    have hcomponents := components_tarjanScc (buildWorkspaceAdjacency g)
    have hnodup := (nodup_flatten.mp hcomponents.nodup).1 scc hscc
    match scc, hscc, hnodup, hlength with
    | v :: w :: rest, hscc, hnodup, _ =>
      have hne : v ≠ w := fun heq => by simp [heq] at hnodup
      obtain ⟨hvw, hwv⟩ := (hcomponents.mutual_iff _ hscc v (by simp) w).mp (by simp)
      have hstep := (reflTransGen_iff_eq_or_transGen.mp hvw).resolve_left fun heq => hne heq.symm
      exact hacyclic v (hstep.trans_left hwv)

/-- The components that the search returns are those of the graph, callees first, and the errors
are one for each import of a module's own name and one for each component of several modules. -/
theorem import_cycles_exact (adj : CallGraph) (g : ModuleGraph ws) :
    Components adj (tarjanScc adj) ∧
      selfImports (detectCycles g)
        = (g.tentative_edges.filter fun edge => edge.IsSelfImport).map TentativeEdge.span ∧
      AreCycles g (cycles (detectCycles g)) ∧ (detectCycles g = [] ↔ NoCycle g) := by
  have hcycles : AreCycles g (cycles (detectCycles g)) := by
    rw [detectCycles, cycles_append, cycles_map, nil_append, cycles_components]
    exact areCycles_of_components (components_tarjanScc _)
  exact ⟨components_tarjanScc adj, selfImports_detectCycles g, hcycles,
    detectCycles_eq_nil_iff g hcycles⟩

/-! ## A module that imports itself twice -/

def loneWorkspace : WorkspaceGraph :=
  { modules := [{ fully_qualified_name := "demo.Main", span_within_file := ⟨0, 40⟩ }] }

/-- `import demo.Main` and `import demo.Main as M`. -/
def importsItselfTwice : ModuleGraph loneWorkspace :=
  { tentative_edges := [⟨⟨0, by decide⟩, "demo.Main", ⟨0, 16⟩⟩,
      ⟨⟨0, by decide⟩, "demo.Main", ⟨17, 38⟩⟩] }

theorem self_import_reported_per_import :
    ¬ ∀ (ws : WorkspaceGraph) (g : ModuleGraph ws),
      (selfImports (detectCycles g)).length = (selfImporters g).length := by
  intro h
  have hboth := h loneWorkspace importsItselfTwice
  rw [selfImports_detectCycles] at hboth
  revert hboth
  decide

end Ridge.Imports
