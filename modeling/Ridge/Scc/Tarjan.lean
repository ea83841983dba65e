import Mathlib.Data.Fintype.BigOperators

/-!
# Tarjan's algorithm

`tarjan_sccs` of `ridge-typecheck/src/scc.rs`: the iterative form, with an explicit work stack of
nodes and positions in their adjacency lists. One call of `step` is one turn of the inner
`while let`, or, with the work stack empty, one turn of the outer `for`.

The vectors the source pushes to at the end (`stack`, `work`, `sccs`) are lists with the last
pushed element first.
-/

namespace Ridge

open Relation

/-- A call graph over the declarations `0..n`; `adj i` lists what declaration `i` calls. -/
structure CallGraph where
  n : Nat
  adj : Fin n → List (Fin n)

namespace CallGraph

variable (g : CallGraph)

def Edge (v w : Fin g.n) : Prop := w ∈ g.adj v

/-- A chain of calls. -/
def Reaches (v w : Fin g.n) : Prop := ReflTransGen g.Edge v w

end CallGraph

structure TarjanState (n : Nat) where
  /-- The next value of the loop variable `start`. -/
  next : Nat
  indexCounter : Nat
  stack : List (Fin n)
  onStack : Fin n → Bool
  index : Fin n → Option Nat
  lowlink : Fin n → Nat
  sccs : List (List (Fin n))
  work : List (Fin n × Nat)

namespace TarjanState

variable {n : Nat}

def init (n : Nat) : TarjanState n where
  next := 0
  indexCounter := 0
  stack := []
  onStack _ := false
  index _ := none
  lowlink _ := 0
  sccs := []
  work := []

variable (s : TarjanState n)

/-- Number an unvisited node and descend into it. -/
def visit (w : Fin n) : TarjanState n :=
  { s with
    index := Function.update s.index w (some s.indexCounter)
    lowlink := Function.update s.lowlink w s.indexCounter
    indexCounter := s.indexCounter + 1
    stack := w :: s.stack
    onStack := Function.update s.onStack w true
    work := (w, 0) :: s.work }

/-- `lowlink[v] = lowlink[v].min(lowlink[w])`. -/
def lower (v w : Fin n) : TarjanState n :=
  { s with lowlink := Function.update s.lowlink v (min (s.lowlink v) (s.lowlink w)) }

/-- Pop nodes up to and including `v`: the component, in popping order, and what is left. -/
def popUntil (v : Fin n) : List (Fin n) → List (Fin n) × List (Fin n)
  | [] => ([], [])
  | w :: stack =>
    if w = v then ([w], stack)
    else
      let (scc, rest) := popUntil v stack
      (w :: scc, rest)

instance (n : Nat) : LawfulBEq (Fin n) := inferInstance

/-- Close the component of `v` when `v` is its root. -/
def emit (v : Fin n) : TarjanState n :=
  if s.index v = some (s.lowlink v) then
    let (scc, rest) := popUntil v s.stack
    { s with
      stack := rest
      onStack := fun u => if u ∈ scc then false else s.onStack u
      sccs := scc :: s.sccs }
  else s

/-- All neighbours of `v` are processed: leave it, and hand its lowlink to its parent. -/
def leave (v : Fin n) (rest : List (Fin n × Nat)) : TarjanState n :=
  let s := { s with work := rest }
  match rest with
  | [] => s.emit v
  | (parent, _) :: _ => (s.lower parent v).emit v

end TarjanState

open TarjanState

/-- One turn of a loop of `tarjan_sccs`. -/
def CallGraph.step (g : CallGraph) (s : TarjanState g.n) : TarjanState g.n :=
  match s.work with
  | [] =>
    if h : s.next < g.n then
      let s' := { s with next := s.next + 1 }
      if (s.index ⟨s.next, h⟩).isSome then s' else s'.visit ⟨s.next, h⟩
    else s
  | (v, pos) :: rest =>
    match (g.adj v)[pos]? with
    | some w =>
      let s' := { s with work := (v, pos + 1) :: rest }
      if (s.index w).isNone then s'.visit w
      else if s.onStack w then s'.lower v w
      else s'
    | none => s.leave v rest

/-- How many turns the loops take at most. -/
def CallGraph.turns (g : CallGraph) : Nat := g.n + ∑ v, ((g.adj v).length + 2)

/-- The components, callees before callers. -/
def tarjanSccs (g : CallGraph) : List (List (Fin g.n)) :=
  (g.step^[g.turns] (init g.n)).sccs.reverse

end Ridge
