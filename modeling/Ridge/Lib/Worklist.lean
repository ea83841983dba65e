import Ridge.Lib.Fuel

/-!
# Work lists

A queue worked off from the front: an element that is taken out gives elements to look at, and of
those some go to the back of the queue. What every turn and every look keep holds when the queue is
empty, and a rank that every turn lowers is enough fuel.
-/

namespace Ridge

/-- `enter` takes an element out and gives the elements to look at, `look` says whether the one
looked at goes to the queue. -/
structure Worklist (V σ : Type) where
  enter : V → σ → σ × List V
  look : V → σ → σ × Bool

namespace Worklist

variable {V σ : Type} (W : Worklist V σ)

/-- The queue after one look. -/
def pushed (d : V) (q : List V) (s : σ) : List V := if (W.look d s).2 then q ++ [d] else q

def lookAll : List V → List V → σ → List V × σ
  | [], q, s => (q, s)
  | d :: ds, q, s => lookAll ds (W.pushed d q s) (W.look d s).1

/-- The loop, with fuel for its turns. -/
def drain : Nat → List V → σ → Option σ
  | _, [], s => some s
  | 0, _ :: _, _ => none
  | fuel + 1, v :: q, s =>
    let (s, ds) := W.enter v s
    let (q, s) := W.lookAll ds q s
    drain fuel q s

/-- An invariant of what is left to look at, of the queue and of the state, with a rank. -/
structure Keeps (J : List V → List V → σ → Prop) (rank : List V → σ → Nat) : Prop where
  enter : ∀ v q s, J [] (v :: q) s →
    J (W.enter v s).2 q (W.enter v s).1 ∧ rank q (W.enter v s).1 < rank (v :: q) s
  look : ∀ d ds q s, J (d :: ds) q s →
    J ds (W.pushed d q s) (W.look d s).1 ∧ rank (W.pushed d q s) (W.look d s).1 ≤ rank q s

variable {W} {J : List V → List V → σ → Prop} {rank : List V → σ → Nat}

theorem Keeps.lookAll (h : W.Keeps J rank) {ds q : List V} {s : σ} (hJ : J ds q s) :
    J [] (W.lookAll ds q s).1 (W.lookAll ds q s).2 ∧
      rank (W.lookAll ds q s).1 (W.lookAll ds q s).2 ≤ rank q s := by
  induction ds generalizing q s with
  | nil => exact ⟨hJ, Nat.le_refl _⟩
  | cons d ds ih =>
    obtain ⟨hlook, hrank⟩ := h.look d ds q s hJ
    exact ⟨(ih hlook).1, Nat.le_trans (ih hlook).2 hrank⟩

/-- The loop ends, and the invariant holds with nothing left. -/
theorem Keeps.drain (h : W.Keeps J rank) {q : List V} {s : σ} (hJ : J [] q s) :
    ∃ s', Converges (fun fuel => W.drain fuel q s) s' ∧ J [] [] s' := by
  suffices hend : ∀ N q s, rank q s ≤ N → J [] q s →
      ∃ s', (∀ fuel, N ≤ fuel → W.drain fuel q s = some s') ∧ J [] [] s' by
    obtain ⟨s', hdrain, hJ'⟩ := hend _ q s (Nat.le_refl _) hJ
    exact ⟨s', ⟨_, hdrain⟩, hJ'⟩
  intro N
  induction N with
  | zero =>
    intro q s hrank hJ
    cases q with
    | nil => exact ⟨s, fun fuel _ => by cases fuel <;> rfl, hJ⟩
    | cons v q => exact absurd (h.enter v q s hJ).2 (by omega)
  | succ N ih =>
    intro q s hrank hJ
    cases q with
    | nil => exact ⟨s, fun fuel _ => by cases fuel <;> rfl, hJ⟩
    | cons v q =>
      obtain ⟨henter, hlower⟩ := h.enter v q s hJ
      obtain ⟨hall, hrest⟩ := h.lookAll henter
      obtain ⟨s', hdrain, hJ'⟩ := ih _ _ (by omega) hall
      refine ⟨s', fun fuel hfuel => ?_, hJ'⟩
      obtain ⟨n, rfl⟩ : ∃ n, fuel = n + 1 := ⟨fuel - 1, by omega⟩
      exact hdrain n (by omega)

end Worklist

end Ridge
