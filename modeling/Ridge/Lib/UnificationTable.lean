import Mathlib.Logic.Function.Basic
import Mathlib.Tactic.Basic

/-!
# Unification tables

A union-find over the keys `0, 1, 2, …` whose classes may carry a value, in the style of the
`ena` crate: `union` links two roots by rank, `unionValue` writes the value of a class, and the
merge of two values keeps the first one, so a class that already carries a value keeps it.

Only roots are observable (`find`), so a table is its root map; path compression does not show.
A key past `len` was never handed out by `newKey`. It is its own root and carries no value; a
write to it hands it out, so a table stays well formed whatever it is asked.
-/

namespace Ridge

structure UnificationTable (α : Type) where
  len : Nat
  root : Nat → Nat
  rank : Nat → Nat
  value : Nat → Option α
  root_root : ∀ v, root (root v) = root v
  root_fresh : ∀ v, len ≤ v → root v = v
  value_fresh : ∀ v, len ≤ v → value v = none

namespace UnificationTable

variable {α : Type}

def empty : UnificationTable α where
  len := 0
  root := id
  rank := fun _ => 0
  value := fun _ => none
  root_root := fun _ => rfl
  root_fresh := fun _ _ => rfl
  value_fresh := fun _ _ => rfl

variable (T : UnificationTable α)

/-- Hand out the next key. Its slot is already in its initial state. -/
def newKey : Nat × UnificationTable α :=
  (T.len, { T with
    len := T.len + 1
    root_fresh := fun v hv => T.root_fresh v (Nat.le_of_succ_le hv)
    value_fresh := fun v hv => T.value_fresh v (Nat.le_of_succ_le hv) })

def find (v : Nat) : Nat := T.root v

/-- The value of the class of `v`. -/
def probeValue (v : Nat) : Option α := T.value (T.root v)

/-- Merge two values: the first one wins. -/
def unifyValues (a b : Option α) : Option α := a.or b

/-- Point the root `child` at the root `parent`. -/
def redirect (child parent rank : Nat) (value : Option α)
    (hchild : T.root child = child) (hparent : T.root parent = parent) :
    UnificationTable α where
  len := max T.len (max child parent + 1)
  root := fun v => if T.root v = child then parent else T.root v
  rank := Function.update T.rank parent rank
  value := Function.update (Function.update T.value child none) parent value
  root_root := by
    intro v
    by_cases hv : T.root v = child
    · by_cases hpc : parent = child
      · simp [hv, hpc, hchild]
      · simp [hv, hparent, hpc]
    · simp [hv, T.root_root]
  root_fresh := by
    intro v hv
    have hroot : T.root v = v := T.root_fresh v (by omega)
    have hne : v ≠ child := by omega
    simp [hroot, hne]
  value_fresh := by
    intro v hv
    have h₁ : v ≠ child := by omega
    have h₂ : v ≠ parent := by omega
    rw [Function.update_of_ne h₂, Function.update_of_ne h₁]
    exact T.value_fresh v (by omega)

/-- Unite two classes, the root of smaller rank below the other; on equal ranks the first
root goes below the second. -/
def union (a b : Nat) : UnificationTable α :=
  let ra := T.root a
  let rb := T.root b
  if ra = rb then T
  else
    let value := unifyValues (T.value ra) (T.value rb)
    if T.rank ra > T.rank rb then
      T.redirect rb ra (T.rank ra) value (T.root_root b) (T.root_root a)
    else if T.rank ra < T.rank rb then
      T.redirect ra rb (T.rank rb) value (T.root_root a) (T.root_root b)
    else
      T.redirect ra rb (T.rank rb + 1) value (T.root_root a) (T.root_root b)

/-- Write the value of a class; a class that carries one keeps it. -/
def unionValue (a : Nat) (value : α) : UnificationTable α where
  len := max T.len (T.root a + 1)
  root := T.root
  rank := T.rank
  value := Function.update T.value (T.root a) (unifyValues (T.value (T.root a)) (some value))
  root_root := T.root_root
  root_fresh := fun v hv => T.root_fresh v (by omega)
  value_fresh := by
    intro v hv
    rw [Function.update_of_ne (by omega)]
    exact T.value_fresh v (by omega)

/-! ## What each operation changes -/

section

variable (T : UnificationTable α)

@[simp] theorem probeValue_root (v : Nat) : T.probeValue (T.root v) = T.probeValue v := by
  rw [probeValue, probeValue, T.root_root]

@[simp] theorem root_newKey : T.newKey.2.root = T.root := rfl

@[simp] theorem probeValue_newKey :
    T.newKey.2.probeValue = T.probeValue := rfl

@[simp] theorem len_newKey : T.newKey.2.len = T.len + 1 := rfl

theorem probeValue_fresh {v : Nat} (hv : T.len ≤ v) : T.probeValue v = none := by
  rw [probeValue, T.root_fresh v hv, T.value_fresh v hv]

@[simp] theorem root_unionValue (a : Nat) (x : α) :
    (T.unionValue a x).root = T.root := rfl

theorem len_le_unionValue (a : Nat) (x : α) :
    T.len ≤ (T.unionValue a x).len := Nat.le_max_left _ _

/-- Writing an unbound class binds it, and nothing else. -/
theorem probeValue_unionValue {a : Nat} (x : α) (ha : T.probeValue a = none) (v : Nat) :
    (T.unionValue a x).probeValue v = if T.root v = T.root a then some x else T.probeValue v := by
  have ha' : T.value (T.root a) = none := ha
  by_cases hv : T.root v = T.root a
  · simp [probeValue, unionValue, unifyValues, hv, ha']
  · simp [probeValue, unionValue, hv]

theorem probeValue_unionValue_bound {a : Nat} (x : α) (ha : T.probeValue a ≠ none) :
    (T.unionValue a x).probeValue = T.probeValue := by
  obtain ⟨y, hy⟩ := Option.ne_none_iff_exists'.mp ha
  have hy' : T.value (T.root a) = some y := hy
  funext v
  by_cases hv : T.root v = T.root a
  · simp [probeValue, unionValue, unifyValues, hv, hy']
  · simp [probeValue, unionValue, hv]

variable {child parent rank : Nat}

theorem redirect_root {value : Option α} (hc : T.root child = child) (hp : T.root parent = parent)
    (v : Nat) :
    (T.redirect child parent rank value hc hp).root v
      = if T.root v = child then parent else T.root v := rfl

/-- A class after a union: the two classes share one of their roots. -/
theorem root_union (a b : Nat) :
    ∃ c, (c = T.root a ∨ c = T.root b) ∧ ∀ v, (T.union a b).root v
      = if T.root v = T.root a ∨ T.root v = T.root b then c else T.root v := by
  unfold union
  dsimp only
  split
  · next h => exact ⟨T.root b, .inr rfl, fun v => by rw [h]; split <;> simp_all⟩
  · split
    · refine ⟨T.root a, .inl rfl, fun v => ?_⟩
      rw [redirect_root]; split <;> split <;> simp_all
    · split
      · refine ⟨T.root b, .inr rfl, fun v => ?_⟩
        rw [redirect_root]; split <;> split <;> simp_all
      · refine ⟨T.root b, .inr rfl, fun v => ?_⟩
        rw [redirect_root]; split <;> split <;> simp_all

theorem redirect_probeValue (hc : T.root child = child) (hp : T.root parent = parent)
    (h₁ : T.value child = none) (h₂ : T.value parent = none) :
    (T.redirect child parent rank none hc hp).probeValue = T.probeValue := by
  funext v
  have hvalue : (T.redirect child parent rank none hc hp).value = T.value := by
    show Function.update (Function.update T.value child none) parent none = T.value
    rw [← h₁, Function.update_eq_self, h₁, ← h₂, Function.update_eq_self]
  rw [probeValue, hvalue, redirect_root]
  split
  · next hv => rw [h₂, probeValue, hv, h₁]
  · rfl

/-- Uniting two unbound classes binds nothing. -/
theorem probeValue_union {a b : Nat} (ha : T.probeValue a = none) (hb : T.probeValue b = none) :
    (T.union a b).probeValue = T.probeValue := by
  have ha' : T.value (T.root a) = none := ha
  have hb' : T.value (T.root b) = none := hb
  have hnone : unifyValues (T.value (T.root a)) (T.value (T.root b)) = none := by
    rw [ha', hb']; rfl
  unfold union
  simp only [hnone]
  split
  · rfl
  · split
    · exact T.redirect_probeValue (T.root_root b) (T.root_root a) hb' ha'
    · split
      · exact T.redirect_probeValue (T.root_root a) (T.root_root b) ha' hb'
      · exact T.redirect_probeValue (T.root_root a) (T.root_root b) ha' hb'

end

end UnificationTable

end Ridge
