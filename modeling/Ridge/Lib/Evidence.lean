import Mathlib.Data.List.Forall2

/-!
# Evidence for goals

Goals are answered by assumptions in scope and by rules with premises, as the constraints of a type
class are answered by dictionaries in scope and by instances. The tree of one answer is run to what
stands for it at run time: an assumption to a value it is given, a rule to a function of what its
premises were run to. What every rule preserves holds of every tree.
-/

namespace Ridge.Evidence

/-- How a goal is answered: `A` names assumptions, `K` names rules. -/
inductive ProofTree (A K : Type) where
  | given (a : A)
  | rule (k : K) (premises : List (ProofTree A K))

section

variable {A K G D : Type}

def ProofTree.run (given : A → D) (apply : K → List D → D) : ProofTree A K → D
  | .given a => given a
  | .rule k premises => apply k (runAll premises)
where
  runAll : List (ProofTree A K) → List D
  | [] => []
  | t :: ts => t.run given apply :: runAll ts

theorem ProofTree.runAll_eq_map (given : A → D) (apply : K → List D → D) (ts : List (ProofTree A K)) :
    ProofTree.run.runAll given apply ts = ts.map (ProofTree.run given apply) := by
  induction ts with
  | nil => rfl
  | cons t ts ih => rw [ProofTree.run.runAll, ih, List.map_cons]

@[simp] theorem ProofTree.run_given (given : A → D) (apply : K → List D → D) (a : A) :
    (ProofTree.given a).run given apply = given a := by rw [ProofTree.run]

@[simp] theorem ProofTree.run_rule (given : A → D) (apply : K → List D → D) (k : K)
    (ts : List (ProofTree A K)) :
    (ProofTree.rule k ts).run given apply = apply k (ts.map (ProofTree.run given apply)) := by
  rw [ProofTree.run, ProofTree.runAll_eq_map]

/-- A tree answers a goal: `assumes a g` says that the assumption `a` is in scope and is about `g`,
`concludes k g ps` that the rule `k` answers `g` from `ps`. -/
inductive Proves (assumes : A → G → Prop) (concludes : K → G → List G → Prop) :
    G → ProofTree A K → Prop where
  | given {a g} (h : assumes a g) : Proves assumes concludes g (.given a)
  | rule {k g premises trees} (h : concludes k g premises)
      (hlength : premises.length = trees.length)
      (hpremises : ∀ p ∈ premises.zip trees, Proves assumes concludes p.1 p.2) :
      Proves assumes concludes g (.rule k trees)

variable {assumes : A → G → Prop} {concludes : K → G → List G → Prop}

/-- What the assumptions have and every rule preserves, every tree is run to. -/
theorem Proves.good {Good : G → D → Prop} {given : A → D} {apply : K → List D → D}
    (hgiven : ∀ a g, assumes a g → Good g (given a))
    (hrule : ∀ k g premises ds, concludes k g premises →
      List.Forall₂ Good premises ds → Good g (apply k ds))
    {g : G} {t : ProofTree A K} (h : Proves assumes concludes g t) : Good g (t.run given apply) := by
  -- on the answer: the premises' trees are run to what is good for the premises
  induction h with
  | given h =>
    rw [ProofTree.run_given]
    exact hgiven _ _ h
  | rule h hlength _ ih =>
    rw [ProofTree.run_rule]
    refine hrule _ _ _ _ h (List.forall₂_iff_zip.mpr ⟨by simpa using hlength, ?_⟩)
    intro p d hp
    rw [List.zip_map_right] at hp
    obtain ⟨q, hq, heq⟩ := List.mem_map.mp hp
    cases heq
    exact ih q hq

end

end Ridge.Evidence
