import Ridge.Lib.DepthFirst

/-!
# The dependency resolver

`resolver.rs` of `ridge-pkg`: `resolve_dependencies` walks the manifests reachable from a project,
depth first. Two sets go along: `visited` holds pairs of an alias and a root and is there to find
cycles, `seen_roots` holds roots and is there to list every package once.

Reading a manifest and canonicalising a path are total functions of a `Disk`; the cache of git
clones and the search for workspace members are functions of it that may fail. A path is given by
its text. The warnings about floating branches are left out.
-/

namespace Ridge.Packages

open DepthFirst List Option

inductive GitRev where
  | Tag (tag : String)
  | Branch (branch : String)
  | Commit (commit : String)
  deriving DecidableEq

inductive ProjectDependency where
  | WorkspaceMember (local_name member : String)
  | Workspace (local_name : String)
  | Path (local_name path : String)
  | Git (local_name url : String) (rev : GitRev)
  deriving DecidableEq

structure ProjectManifest where
  dependencies : List ProjectDependency

inductive SharedDependency where
  | Version (name version : String)
  | Git (name url : String) (rev : GitRev)
  | Path (name path : String)
  deriving DecidableEq

def sharedDepName : SharedDependency → String
  | .Version name _ => name
  | .Git name _ _ => name
  | .Path name _ => name

/-- A workspace manifest; `root` is the directory that holds it. -/
structure WorkspaceManifest (Dir : Type) where
  root : Dir
  dependencies : List SharedDependency

inductive PkgError where
  | PkgDependencyCycle (cycle_path : String)
  | PkgVersionDepUnsupported (name version : String)
  /-- `PkgManifestParseFailed` for a field the manifest lacks. -/
  | MissingRequiredField (table field : String)
  /-- The error of a lookup outside the resolver. -/
  | Lookup (message : String)
  deriving DecidableEq

inductive DepKind where
  | Path
  | GitTag
  | GitBranch
  | WorkspaceMember
  | WorkspaceInherit
  deriving DecidableEq

structure ResolvedDep (Dir : Type) where
  name : String
  kind : DepKind
  source_root : Dir
  manifest : ProjectManifest

/-- What the resolver asks the file system. -/
structure Disk (Dir : Type) where
  /-- The canonical directory a path leads to, seen from a manifest's directory. -/
  canonicalize : Dir → String → Dir
  /-- The manifest of a directory. -/
  manifest : Dir → ProjectManifest
  display : Dir → String
  /-- The clone of a git dependency, and whether its branch is floating. -/
  resolve_git_dep : String → String → GitRev → Except PkgError (Dir × Bool)
  find_workspace_member : Dir → String → Except PkgError Dir

/-- The two sets that go along with the walk. -/
structure Visits (Dir : Type) where
  visited : Finset (String × Dir)
  seen_roots : Finset Dir

variable {Dir : Type} [DecidableEq Dir] (disk : Disk Dir) (workspace : WorkspaceManifest Dir)
    {visited : Finset (String × Dir)} {key : String × Dir} {w : Walk String Dir}

/-! ## One dependency -/

def cycleError (key : String × Dir) : PkgError :=
  .PkgDependencyCycle (key.1 ++ " → " ++ disk.display key.2)

def resolved (kind : DepKind) (key : String × Dir) : ResolvedDep Dir :=
  { name := key.1, kind := kind, source_root := key.2, manifest := disk.manifest key.2 }

/-- The cycle check, the same for every kind of dependency. -/
def checkCycle (kind : DepKind) (key : String × Dir) (visited : Finset (String × Dir)) :
    Except PkgError (ResolvedDep Dir × Finset (String × Dir)) :=
  if key ∈ visited then .error (cycleError disk key)
  else .ok (resolved disk kind key, insert key visited)

def resolvePath (local_name path : String) (project_manifest_dir : Dir)
    (visited : Finset (String × Dir)) : Except PkgError (ResolvedDep Dir × Finset (String × Dir)) :=
  checkCycle disk .Path (local_name, disk.canonicalize project_manifest_dir path) visited

def resolveGit (local_name url : String) (rev : GitRev) (visited : Finset (String × Dir)) :
    Except PkgError (ResolvedDep Dir × Finset (String × Dir)) :=
  match disk.resolve_git_dep local_name url rev with
  | .error e => .error e
  | .ok (source_root, floating) =>
    checkCycle disk (if floating then .GitBranch else .GitTag) (local_name, source_root) visited

/-- `resolve_one`. A shared dependency is resolved as what it stands for, from the directory of
the workspace. -/
def resolveOne (dep : ProjectDependency) (project_manifest_dir : Dir)
    (visited : Finset (String × Dir)) : Except PkgError (ResolvedDep Dir × Finset (String × Dir)) :=
  match dep with
  | .Path local_name path => resolvePath disk local_name path project_manifest_dir visited
  | .Git local_name url rev => resolveGit disk local_name url rev visited
  | .WorkspaceMember local_name member =>
    match disk.find_workspace_member workspace.root member with
    | .error e => .error e
    | .ok member_dir => checkCycle disk .WorkspaceMember (local_name, member_dir) visited
  | .Workspace local_name =>
    match workspace.dependencies.find? fun d => sharedDepName d = local_name with
    | none => .error (.MissingRequiredField "workspace.dependencies" local_name)
    | some shared =>
      let inherited :=
        match shared with
        | .Git _ url rev => resolveGit disk local_name url rev visited
        | .Path _ path => resolvePath disk local_name path workspace.root visited
        | .Version _ version => .error (.PkgVersionDepUnsupported local_name version)
      inherited.map fun r => ({ r.1 with kind := .WorkspaceInherit }, r.2)

/-! ## The walk -/

/-- The loop of `resolve_deps_inner` over the dependencies of one manifest; `recurse` resolves
those of a new root. -/
def resolveDeps
    (recurse : Dir → Visits Dir → Option (Except PkgError (List (ResolvedDep Dir) × Visits Dir)))
    (project_manifest_dir : Dir) : List ProjectDependency → Visits Dir →
    Option (Except PkgError (List (ResolvedDep Dir) × Visits Dir))
  | [], s => some (.ok ([], s))
  | dep :: deps, s =>
    match resolveOne disk workspace dep project_manifest_dir s.visited with
    | .error e => some (.error e)
    | .ok (rdep, visited) =>
      if rdep.source_root ∈ s.seen_roots then
        resolveDeps recurse project_manifest_dir deps { s with visited := visited }
      else
        match recurse rdep.source_root
            { visited := visited, seen_roots := insert rdep.source_root s.seen_roots } with
        | none => none
        | some (.error e) => some (.error e)
        | some (.ok (transitive, s)) =>
          match resolveDeps recurse project_manifest_dir deps s with
          | none => none
          | some (.error e) => some (.error e)
          | some (.ok (rest, s)) => some (.ok (rdep :: transitive ++ rest, s))

/-- `resolve_deps_inner`, with fuel for its depth. The manifest of a root is read again. -/
def resolveDepsInner : Nat → ProjectManifest → Dir → Visits Dir →
    Option (Except PkgError (List (ResolvedDep Dir) × Visits Dir))
  | 0, _, _, _ => none
  | fuel + 1, project, project_manifest_dir, s =>
    resolveDeps disk workspace
      (fun root s => resolveDepsInner fuel (disk.manifest root) root s)
      project_manifest_dir project.dependencies s

def resolveDependencies (project : ProjectManifest) (project_manifest_dir : Dir) (fuel : Nat) :
    Option (Except PkgError (List (ResolvedDep Dir))) :=
  (resolveDepsInner disk workspace fuel project project_manifest_dir
    { visited := ∅, seen_roots := ∅ }).map (Except.map Prod.fst)

/-! ## The graph of path dependencies -/

def ProjectDependency.IsPath (dep : ProjectDependency) : Prop :=
  ∃ local_name path, dep = .Path local_name path

omit [DecidableEq Dir] in
/-- The aliases that the path dependencies of a manifest give, and the roots they give them to. -/
def aliases (project_manifest_dir : Dir) (deps : List ProjectDependency) : List (String × Dir) :=
  deps.filterMap fun dep =>
    match dep with
    | .Path local_name path => some (local_name, disk.canonicalize project_manifest_dir path)
    | _ => none

omit [DecidableEq Dir] in
def aliasesOf (root : Dir) : List (String × Dir) :=
  aliases disk root (disk.manifest root).dependencies

omit [DecidableEq Dir] in
/-- The manifest, and the manifests of the packages it reaches, hold path dependencies only. -/
structure PathsOnly (project_manifest_dir : Dir) (deps : List ProjectDependency) : Prop where
  here : ∀ dep ∈ deps, dep.IsPath
  below : ∀ root, From (aliasesOf disk) (aliases disk project_manifest_dir deps) root →
    ∀ dep ∈ (disk.manifest root).dependencies, dep.IsPath

/-- The first key that is in `visited` or repeats an earlier one. -/
def firstRepeat : Finset (String × Dir) → List (String × Dir) → Option (String × Dir)
  | _, [] => none
  | visited, key :: keys =>
    if key ∈ visited then some key else firstRepeat (insert key visited) keys

theorem firstRepeat_append (a b : List (String × Dir)) (visited : Finset (String × Dir)) :
    firstRepeat visited (a ++ b)
      = (firstRepeat visited a).or (firstRepeat (visited ∪ a.toFinset) b) := by
  induction a generalizing visited with
  | nil => simp [firstRepeat]
  | cons key a ih =>
    simp only [cons_append, firstRepeat]
    split
    · rfl
    · rw [ih, toFinset_cons, Finset.insert_union, Finset.union_insert]

theorem firstRepeat_eq_none {keys : List (String × Dir)} :
    firstRepeat visited keys = none ↔ keys.Nodup ∧ ∀ key ∈ keys, key ∉ visited := by
  induction keys generalizing visited with
  | nil => simp [firstRepeat]
  | cons key keys ih =>
    rw [firstRepeat]
    split
    · next hkey => simp [hkey]
    · next hkey =>
      rw [ih, nodup_cons, forall_mem_cons]
      simp only [Finset.mem_insert, not_or]
      constructor
      · rintro ⟨hnodup, hall⟩
        exact ⟨⟨fun hmem => (hall key hmem).1 rfl, hnodup⟩, hkey, fun k hk => (hall k hk).2⟩
      · rintro ⟨⟨hnot, hnodup⟩, -, hall⟩
        exact ⟨hnodup, fun k hk => ⟨fun heq => hnot (heq ▸ hk), hall k hk⟩⟩

/-- What the resolver makes of a walk: the error of the first repeated key, or the listing. -/
def outcome (visited : Finset (String × Dir)) (w : Walk String Dir) :
    Except PkgError (List (ResolvedDep Dir) × Visits Dir) :=
  match firstRepeat visited w.trace with
  | some key => .error (cycleError disk key)
  | none => .ok (w.entries.map (resolved disk .Path),
      { visited := visited ∪ w.trace.toFinset, seen_roots := w.seen })

variable {disk}

omit [DecidableEq Dir] in
theorem aliases_cons_path (local_name path : String) (dir : Dir) (deps : List ProjectDependency) :
    aliases disk dir (.Path local_name path :: deps)
      = (local_name, disk.canonicalize dir path) :: aliases disk dir deps := rfl

variable {deps : List ProjectDependency}

omit [DecidableEq Dir] in
theorem PathsOnly.tail {dir : Dir} {dep : ProjectDependency}
    (h : PathsOnly disk dir (dep :: deps)) : PathsOnly disk dir deps := by
  refine ⟨fun d hd => h.here d (mem_cons_of_mem _ hd), fun root hroot => h.below root ?_⟩
  obtain ⟨local_name, path, rfl⟩ := h.here dep mem_cons_self
  rw [aliases_cons_path]
  exact hroot.mono (subset_cons_self _ _)

omit [DecidableEq Dir] in
theorem PathsOnly.root {dir root : Dir} (h : PathsOnly disk dir deps)
    (hroot : From (aliasesOf disk) (aliases disk dir deps) root) :
    PathsOnly disk root (disk.manifest root).dependencies :=
  ⟨h.below root hroot, fun r hr => h.below r (hroot.below hr)⟩

theorem outcome_of_mem {rest : List (String × Dir)} (hkey : key ∈ visited)
    (htrace : w.trace = key :: rest) : outcome disk visited w = .error (cycleError disk key) := by
  rw [outcome, htrace, firstRepeat, if_pos hkey]

theorem outcome_pass (hkey : key ∉ visited) :
    outcome disk visited (.pass key w) = outcome disk (insert key visited) w := by
  have hunion : visited ∪ (Walk.pass key w).trace.toFinset
      = insert key visited ∪ w.trace.toFinset := by
    simp [Walk.pass, Finset.union_insert, Finset.insert_union]
  unfold outcome
  rw [hunion, Walk.pass, firstRepeat, if_neg hkey]

theorem outcome_of_none (h : firstRepeat visited w.trace = none) :
    outcome disk visited w = .ok (w.entries.map (resolved disk .Path),
      { visited := visited ∪ w.trace.toFinset, seen_roots := w.seen }) := by
  rw [outcome, h]

theorem outcome_of_some (h : firstRepeat visited w.trace = some key) :
    outcome disk visited w = .error (cycleError disk key) := by
  rw [outcome, h]

/-- Below a new root, then the rest: the first error of the two, or both listings. -/
theorem outcome_enter {b : Walk String Dir} (hkey : key ∉ visited) :
    outcome disk visited (.enter key b w) =
      match outcome disk (insert key visited) b with
      | .error e => .error e
      | .ok (listed, s) =>
        match outcome disk s.visited w with
        | .error e => .error e
        | .ok (rest, s) => .ok (resolved disk .Path key :: listed ++ rest, s) := by
  have htrace : firstRepeat visited (Walk.enter key b w).trace
      = (firstRepeat (insert key visited) b.trace).or
          (firstRepeat (insert key visited ∪ b.trace.toFinset) w.trace) := by
    show firstRepeat visited (key :: (b.trace ++ w.trace)) = _
    rw [firstRepeat, if_neg hkey, firstRepeat_append]
  cases hb : firstRepeat (insert key visited) b.trace with
  | some k =>
    rw [hb, some_or] at htrace
    rw [outcome_of_some htrace, outcome_of_some hb]
  | none =>
    rw [hb, none_or] at htrace
    rw [outcome_of_none hb]
    cases hr : firstRepeat (insert key visited ∪ b.trace.toFinset) w.trace with
    | some k =>
      rw [hr] at htrace
      simp only [outcome_of_some htrace, outcome_of_some hr]
    | none =>
      rw [hr] at htrace
      have hunion : visited ∪ (Walk.enter key b w).trace.toFinset
          = insert key visited ∪ b.trace.toFinset ∪ w.trace.toFinset := by
        simp [Walk.enter, Finset.union_insert, Finset.insert_union, Finset.union_assoc]
      simp only [outcome_of_none htrace, outcome_of_none hr, hunion]
      simp [Walk.enter]

/-- The walk of the resolver is the depth-first walk, cut short at the first repeated key. -/
theorem resolveDepsInner_of_walk {fuel : Nat} {project : ProjectManifest} {dir : Dir}
    {s : Visits Dir} (hpaths : PathsOnly disk dir project.dependencies)
    (hw : walk (aliasesOf disk) fuel (aliases disk dir project.dependencies) s.seen_roots = some w) :
    resolveDepsInner disk workspace fuel project dir s = some (outcome disk s.visited w) := by
  induction fuel generalizing project dir s w with
  | zero => cases hw
  | succ fuel ih =>
    obtain ⟨deps⟩ := project
    change walkList (fun v seen => walk (aliasesOf disk) fuel (aliasesOf disk v) seen)
      (aliases disk dir deps) s.seen_roots = some w at hw
    change resolveDeps disk workspace
      (fun root s => resolveDepsInner disk workspace fuel (disk.manifest root) root s) dir deps s = _
    induction deps generalizing s w with
    | nil =>
      cases hw
      simp [resolveDeps, outcome, Walk.nil, firstRepeat]
    | cons dep deps ihdeps =>
      obtain ⟨local_name, path, rfl⟩ := hpaths.here dep mem_cons_self
      set key := (local_name, disk.canonicalize dir path) with hkeydef
      rw [aliases_cons_path, ← hkeydef, walkList] at hw
      have hone : resolveOne disk workspace (.Path local_name path) dir s.visited
          = checkCycle disk .Path key s.visited := rfl
      rw [resolveDeps, hone, checkCycle]
      by_cases hkey : key ∈ s.visited
      · -- the key is taken: whatever the walk does next, its trace begins with the key
        rw [if_pos hkey]
        split at hw
        · obtain ⟨w', -, rfl⟩ := map_eq_some_iff.mp hw
          rw [outcome_of_mem hkey rfl]
        · obtain ⟨b, -, hw⟩ := bind_eq_some_iff.mp hw
          obtain ⟨w', -, rfl⟩ := map_eq_some_iff.mp hw
          rw [outcome_of_mem hkey rfl]
      · rw [if_neg hkey]
        split at hw
        · next hseen =>
          obtain ⟨w', hw', rfl⟩ := map_eq_some_iff.mp hw
          have hrest := ihdeps (s := { s with visited := insert key s.visited }) hpaths.tail hw'
          simp only [resolved, hseen, if_true, hrest, outcome_pass hkey]
        · next hnew =>
          obtain ⟨b, hb, hw⟩ := bind_eq_some_iff.mp hw
          obtain ⟨w', hw', rfl⟩ := map_eq_some_iff.mp hw
          have hbelow := ih
            (s := { visited := insert key s.visited, seen_roots := insert key.2 s.seen_roots })
            (hpaths.root (From.head mem_cons_self)) hb
          have hrest := ihdeps
            (s := { visited := insert key s.visited ∪ b.trace.toFinset, seen_roots := b.seen })
            hpaths.tail hw'
          have hnew' : (resolved disk .Path key).source_root ∉ s.seen_roots := hnew
          dsimp only at hbelow hrest ⊢
          rw [outcome_enter hkey, if_neg hnew',
            show (resolved disk .Path key).source_root = key.2 from rfl, hbelow]
          cases hrepeat : firstRepeat (insert key s.visited) b.trace with
          | some k => rw [outcome_of_some hrepeat]
          | none =>
            rw [outcome_of_none hrepeat]
            dsimp only
            rw [hrest]
            cases outcome disk (insert key s.visited ∪ b.trace.toFinset) w' <;> rfl

end Ridge.Packages

/-!
# What the resolver reports as a cycle

The resolver is there to fail on a graph of packages with a cycle and to list each package of one
without. What it fails on is a key that comes twice: an alias given to one root by two of the
declarations it reads (`isCycleError_iff`). A root that two packages depend on under one alias is
such a key without a cycle, and a cycle whose edges give a root different aliases is a cycle
without such a key.
-/

namespace Ridge.Packages

open DepthFirst List

variable {Dir : Type} [DecidableEq Dir]

section Specification

variable (disk : Disk Dir) (project : ProjectManifest) (project_manifest_dir : Dir)

omit [DecidableEq Dir] in
/-- The root of a package that the project depends on, directly or through others. -/
def Depends (root : Dir) : Prop :=
  From (aliasesOf disk) (aliases disk project_manifest_dir project.dependencies) root

omit [DecidableEq Dir] in
def HasCycle : Prop :=
  Cyclic (aliasesOf disk) (aliases disk project_manifest_dir project.dependencies)

/-- Each package once, in the order of a depth-first reading of all dependencies, of which the
first that leads to a package is kept. -/
structure Listed (deps : List (ResolvedDep Dir)) : Prop where
  nodup : (deps.map ResolvedDep.source_root).Nodup
  mem_iff : ∀ root, root ∈ deps.map ResolvedDep.source_root ↔
    Depends disk project project_manifest_dir root
  order : ∃ N, ∀ n ≥ N, deps.map (fun d => (d.name, d.source_root)) =
    firsts ∅ (unfolding (aliasesOf disk) n
      (aliases disk project_manifest_dir project.dependencies))

/-- The resolver ends, with the cycle error exactly when there is a cycle, and otherwise with
each package listed once. -/
def ReportsCycles (workspace : WorkspaceManifest Dir) : Prop :=
  ∃ result,
    (∃ N, ∀ fuel ≥ N,
      resolveDependencies disk workspace project project_manifest_dir fuel = some result) ∧
    ((∃ cycle_path, result = .error (.PkgDependencyCycle cycle_path)) ↔
      HasCycle disk project project_manifest_dir) ∧
    ∀ deps, result = .ok deps → Listed disk project project_manifest_dir deps

omit [DecidableEq Dir] in
/-- Two dependencies, of the project's manifest and of the manifests of the packages it depends
on, each read once, give one alias to one root. -/
def AliasRepeats : Prop :=
  ∃ roots : List Dir, roots.Nodup ∧
    (∀ root, root ∈ roots ↔ Depends disk project project_manifest_dir root) ∧
    ¬ (aliases disk project_manifest_dir project.dependencies
        ++ roots.flatMap (aliasesOf disk)).Nodup

end Specification

variable {disk : Disk Dir} {project : ProjectManifest} {dir : Dir} {w : Walk String Dir}

section

variable (hw : Walks (aliasesOf disk) (aliases disk dir project.dependencies) ∅ w)
include hw

/-- What the walk looks at is every dependency that there is to read. -/
theorem trace_perm_roots {roots : List Dir} (hnodup : roots.Nodup)
    (hroots : ∀ root, root ∈ roots ↔ Depends disk project dir root) :
    w.trace.Perm (aliases disk dir project.dependencies ++ roots.flatMap (aliasesOf disk)) := by
  have hperm : (w.entries.map Prod.snd).Perm roots :=
    (perm_ext_iff_of_nodup hw.nodup_entries hnodup).mpr fun root =>
      hw.mem_entries_iff.trans (hroots root).symm
  have hflat : (w.entries.flatMap fun e => aliasesOf disk e.2)
      = (w.entries.map Prod.snd).flatMap (aliasesOf disk) := by
    rw [flatMap_map]
  refine hw.trace_perm.trans (List.Perm.append_left _ ?_)
  rw [hflat]
  exact hperm.flatMap_right _

theorem aliasRepeats_iff : AliasRepeats disk project dir ↔ firstRepeat ∅ w.trace ≠ none := by
  have hnone : firstRepeat ∅ w.trace = none ↔ w.trace.Nodup := by
    rw [firstRepeat_eq_none]
    exact ⟨And.left, fun h => ⟨h, fun _ _ => Finset.notMem_empty _⟩⟩
  rw [Ne, hnone]
  constructor
  · rintro ⟨roots, hnodup, hroots, hrepeat⟩
    rwa [(trace_perm_roots hw hnodup hroots).nodup_iff]
  · intro hrepeat
    have hroots : ∀ root, root ∈ w.entries.map Prod.snd ↔ Depends disk project dir root :=
      fun _ => hw.mem_entries_iff
    refine ⟨w.entries.map Prod.snd, hw.nodup_entries, hroots, ?_⟩
    rwa [← (trace_perm_roots hw hw.nodup_entries hroots).nodup_iff]

/-- The resolver fails, and always with the cycle error, when a key comes twice. -/
theorem isCycleError_iff :
    (∃ cycle_path, (outcome disk ∅ w).map Prod.fst = .error (.PkgDependencyCycle cycle_path)) ↔
      AliasRepeats disk project dir := by
  rw [aliasRepeats_iff hw]
  cases hrepeat : firstRepeat ∅ w.trace with
  | none => simp [outcome_of_none hrepeat, Except.map]
  | some key => simp [outcome_of_some hrepeat, Except.map, cycleError]

/-- What is listed when no key comes twice and there is no cycle. -/
theorem listed_entries (hacyclic : ¬ HasCycle disk project dir) :
    Listed disk project dir (w.entries.map (resolved disk .Path)) := by
  have hroots : (w.entries.map (resolved disk .Path)).map ResolvedDep.source_root
      = w.entries.map Prod.snd := by
    rw [map_map]
    rfl
  have hkeys : (w.entries.map (resolved disk .Path)).map (fun d => (d.name, d.source_root))
      = w.entries := by
    rw [map_map]
    exact map_id _
  obtain ⟨N, hN⟩ := hw.entries_eq_firsts hacyclic
  refine ⟨hroots ▸ hw.nodup_entries, fun root => ?_, N, fun n hn => ?_⟩
  · rw [hroots]
    exact hw.mem_entries_iff
  · rw [hkeys, hN n hn]

end

/-- On a finite graph of path dependencies the resolver does what it is there for exactly when a
repeated alias and a cycle come together or not at all. -/
theorem reportsCycles_iff (disk : Disk Dir) (workspace : WorkspaceManifest Dir)
    (project : ProjectManifest) (dir : Dir) (hpaths : PathsOnly disk dir project.dependencies)
    (hfinite : {root | Depends disk project dir root}.Finite) :
    ReportsCycles disk project dir workspace ↔
      (AliasRepeats disk project dir ↔ HasCycle disk project dir) := by
  obtain ⟨N, w, hwalk⟩ := exists_walk hfinite ∅
  have hw := walks_of_walk (hwalk N (Nat.le_refl N))
  have hrun : ∀ fuel ≥ N, resolveDependencies disk workspace project dir fuel
      = some ((outcome disk ∅ w).map Prod.fst) := by
    intro fuel hfuel
    rw [resolveDependencies,
      resolveDepsInner_of_walk workspace (s := ⟨∅, ∅⟩) hpaths (hwalk fuel hfuel)]
    rfl
  constructor
  · rintro ⟨result, ⟨M, hM⟩, hcycle, -⟩
    have hresult := (hM (max M N) (Nat.le_max_left M N)).symm.trans
      (hrun (max M N) (Nat.le_max_right M N))
    rw [← hcycle, Option.some.inj hresult]
    exact (isCycleError_iff hw).symm
  · intro hiff
    refine ⟨(outcome disk ∅ w).map Prod.fst, ⟨N, hrun⟩, (isCycleError_iff hw).trans hiff, ?_⟩
    intro deps hdeps
    have hnone : firstRepeat ∅ w.trace = none := by
      cases hrepeat : firstRepeat ∅ w.trace with
      | none => rfl
      | some key => simp [outcome_of_some hrepeat, Except.map] at hdeps
    have hacyclic : ¬ HasCycle disk project dir := by
      rw [← hiff, aliasRepeats_iff hw]
      exact fun hne => hne hnone
    rw [outcome_of_none hnone] at hdeps
    obtain rfl : w.entries.map (resolved disk .Path) = deps := Except.ok.inj hdeps
    exact listed_entries hw hacyclic

/-! ## A shared dependency -/

/-- Two packages that both call a third one `base`. -/
def sharingDisk : Disk String where
  canonicalize _ path := path
  manifest root :=
    { dependencies := if root = "/left" ∨ root = "/right" then [.Path "base" "/base"] else [] }
  display := id
  resolve_git_dep _ url _ := .error (.Lookup url)
  find_workspace_member _ member := .error (.Lookup member)

def sharingWorkspace : WorkspaceManifest String := { root := "/", dependencies := [] }

theorem edge_sharingDisk {v x : String} (h : Edge (aliasesOf sharingDisk) v x) :
    (v = "/left" ∨ v = "/right") ∧ x = "/base" := by
  obtain ⟨e, he, rfl⟩ := h
  simp only [aliasesOf, sharingDisk] at he
  split at he
  · next hv =>
    obtain rfl : e = ("base", "/base") := by simpa [aliases] using he
    exact ⟨hv, rfl⟩
  · simp [aliases] at he

theorem acyclic_sharingDisk (project : ProjectManifest) (dir : String) :
    ¬ HasCycle sharingDisk project dir := by
  rintro ⟨v, -, hcycle⟩
  obtain ⟨x, hvx, -⟩ := Relation.TransGen.head'_iff.mp hcycle
  obtain ⟨y, -, hyv⟩ := Relation.TransGen.tail'_iff.mp hcycle
  obtain ⟨hv, -⟩ := edge_sharingDisk hvx
  obtain ⟨-, rfl⟩ := edge_sharingDisk hyv
  revert hv
  decide

theorem depends_left {root : String}
    (h : Depends sharingDisk { dependencies := [.Path "left" "/left"] } "/app" root) :
    root = "/left" ∨ root = "/base" := by
  obtain ⟨e, he, hroot⟩ := h
  obtain rfl : e = ("left", "/left") := by simpa [aliases, sharingDisk] using he
  rcases Relation.ReflTransGen.cases_tail hroot with heq | ⟨y, -, hy⟩
  · exact .inl heq
  · exact .inr (edge_sharingDisk hy).2

theorem reportsCycles_left :
    ReportsCycles sharingDisk { dependencies := [.Path "left" "/left"] } "/app"
      sharingWorkspace := by
  refine (reportsCycles_iff sharingDisk sharingWorkspace _ "/app" ⟨?_, ?_⟩ ?_).mpr ?_
  · exact fun dep hdep => ⟨"left", "/left", by simpa using hdep⟩
  · intro root _ dep hdep
    simp only [sharingDisk] at hdep
    split at hdep
    · exact ⟨"base", "/base", by simpa using hdep⟩
    · cases hdep
  · exact Set.Finite.subset (Set.toFinite {"/left", "/base"}) fun root => depends_left
  · have hwalk : DepthFirst.walk (aliasesOf sharingDisk) 3
        (aliases sharingDisk "/app" [.Path "left" "/left"]) ∅ = some _ := rfl
    have hw := walks_of_walk hwalk
    rw [aliasRepeats_iff hw]
    exact iff_of_false (fun hne => hne (by decide)) (acyclic_sharingDisk _ _)

/-- With `right` too, `base` is reached twice under one alias, and no cycle is there. -/
theorem shared_dependency_is_reported :
    ¬ ReportsCycles sharingDisk
      { dependencies := [.Path "left" "/left", .Path "right" "/right"] } "/app"
      sharingWorkspace := by
  rintro ⟨result, ⟨N, hN⟩, hiff, -⟩
  have hrun := hN (N + 3) (Nat.le_add_right N 3)
  have hresult : result = .error (.PkgDependencyCycle "base → /base") := by
    refine Option.some.inj (hrun.symm.trans ?_)
    simp [resolveDependencies, resolveDepsInner, resolveDeps, resolveOne, resolvePath, checkCycle,
      sharingDisk, resolved, cycleError, Except.map]
  exact acyclic_sharingDisk _ _ (hiff.mp ⟨_, hresult⟩)

end Ridge.Packages
