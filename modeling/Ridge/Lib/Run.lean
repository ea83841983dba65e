import Mathlib.Tactic.Basic

/-!
# Runs — fallible computations over a state, with a journal

`Run σ ε ω α` is a computation that reads and writes a state `σ`, may fail with an error `ε`
*keeping the writes it already made*, and may fail to return at all (`none`: out of fuel). Next
to its result it hands back a journal, the list of the `ω` it recorded. The journal is a ghost:
a computation cannot read it, so dropping it gives the computation the program performs.

There is one inversion lemma for each constructor (`bind_eq_some`, `read_eq_some`, …). What
*every* outcome preserves is stated by `Follows R m`: a run of `m` from `s` to `s'` with journal
`es` is related by `R s es s'`, for an `R` that composes (`Journaled`).
-/

namespace Ridge

/-- A computation over `σ`: no result, or an outcome with the final state and the journal. -/
def Run (σ ε ω α : Type) : Type := σ → Option (Except ε α × σ × List ω)

namespace Run

variable {σ ε ω α β : Type} {s' : σ} {es : List ω}

protected def pure (a : α) : Run σ ε ω α := fun s => some (.ok a, s, [])

/-- Sequencing: an error stops the run where it stands, with the state as it is. -/
protected def bind (m : Run σ ε ω α) (f : α → Run σ ε ω β) : Run σ ε ω β := fun s =>
  match m s with
  | none => none
  | some (.error e, s₁, es₁) => some (.error e, s₁, es₁)
  | some (.ok a, s₁, es₁) =>
    match f a s₁ with
    | none => none
    | some (r, s₂, es₂) => some (r, s₂, es₁ ++ es₂)

instance : Monad (Run σ ε ω) where
  pure := Run.pure
  bind := Run.bind

/-- The computation that never returns. -/
def diverge : Run σ ε ω α := fun _ => none

def fail (e : ε) : Run σ ε ω α := fun s => some (.error e, s, [])

/-- Evaluate a function of the state that may itself run out of fuel. -/
def read (f : σ → Option α) : Run σ ε ω α := fun s => (f s).map fun a => (.ok a, s, [])

/-- Replace the state. -/
def modify (f : σ → σ) : Run σ ε ω Unit := fun s => some (.ok (), f s, [])

/-- Replace the state, returning a value. -/
def modifyGet (f : σ → α × σ) : Run σ ε ω α := fun s => some (.ok (f s).1, (f s).2, [])

/-- Record an event that may mention the current state. -/
def record (f : σ → ω) : Run σ ε ω Unit := fun s => some (.ok (), s, [f s])

/-- Run a computation and turn its failure into a value. The writes made before the failure
stay. -/
def succeeds (m : Run σ ε ω α) : Run σ ε ω Bool := fun s =>
  match m s with
  | none => none
  | some (.ok _, s₁, es) => some (.ok true, s₁, es)
  | some (.error _, s₁, es) => some (.ok false, s₁, es)

/-- Visit the elements of a list in order, stopping at the first error. -/
def forEach (f : α → Run σ ε ω Unit) : List α → Run σ ε ω Unit
  | [] => pure ()
  | a :: l => do
    f a
    forEach f l

/-! ## Outcomes -/

variable {m : Run σ ε ω α} {s : σ} {r : Except ε β}

/-- An outcome of a sequence: the first part failed, or both parts contributed. -/
theorem bind_eq_some {f : α → Run σ ε ω β} :
    (m >>= f) s = some (r, s', es) ↔
      (∃ e, m s = some (.error e, s', es) ∧ r = .error e) ∨
      ∃ a s₁ es₁ es₂, m s = some (.ok a, s₁, es₁) ∧ f a s₁ = some (r, s', es₂)
        ∧ es = es₁ ++ es₂ := by
  change Run.bind m f s = _ ↔ _
  unfold Run.bind
  constructor
  · intro h
    split at h
    · cases h
    · next e s₁ es₁ hms => cases h; exact .inl ⟨e, hms, rfl⟩
    · next a s₁ es₁ hms =>
      split at h
      · cases h
      · next hfs => cases h; exact .inr ⟨a, s₁, es₁, _, hms, hfs, rfl⟩
  · rintro (⟨e, hms, rfl⟩ | ⟨a, s₁, es₁, es₂, hms, hfs, rfl⟩)
    · rw [hms]
    · rw [hms]
      simp only
      rw [hfs]

variable {f : σ → Option α}

theorem read_eq_some {r : Except ε α} :
    (read f : Run σ ε ω α) s = some (r, s', es) ↔
      ∃ a, f s = some a ∧ r = .ok a ∧ s' = s ∧ es = [] := by
  unfold read
  constructor
  · intro h
    obtain ⟨a, ha, he⟩ := Option.map_eq_some_iff.mp h
    cases he
    exact ⟨a, ha, rfl, rfl, rfl⟩
  · rintro ⟨a, ha, rfl, rfl, rfl⟩
    rw [ha]; rfl

theorem pure_eq_some {a : α} {r : Except ε α} :
    (pure a : Run σ ε ω α) s = some (r, s', es) ↔ r = .ok a ∧ s' = s ∧ es = [] := by
  constructor
  · intro h; cases h; exact ⟨rfl, rfl, rfl⟩
  · rintro ⟨rfl, rfl, rfl⟩; rfl

variable {g : α → Run σ ε ω β}

/-- Reading, then going on: the state is as it was and nothing is recorded. -/
theorem read_bind_eq_some :
    (read f >>= g) s = some (r, s', es) ↔
      ∃ a, f s = some a ∧ g a s = some (r, s', es) := by
  rw [bind_eq_some]
  constructor
  · rintro (⟨e, he, -⟩ | ⟨a, s₁, es₁, es₂, hf, hg, rfl⟩)
    · obtain ⟨a, -, hr, -, -⟩ := read_eq_some.mp he
      cases hr
    · obtain ⟨a', ha, hr, rfl, rfl⟩ := read_eq_some.mp hf
      cases hr
      exact ⟨a, ha, hg⟩
  · rintro ⟨a, ha, hg⟩
    exact .inr ⟨a, s, [], es, read_eq_some.mpr ⟨a, ha, rfl, rfl, rfl⟩, hg, rfl⟩

theorem pure_bind_eq_some {a : α} :
    ((pure a : Run σ ε ω α) >>= g) s = some (r, s', es) ↔ g a s = some (r, s', es) := by
  rw [bind_eq_some]
  constructor
  · rintro (⟨e, he, -⟩ | ⟨b, s₁, es₁, es₂, hb, hg, rfl⟩)
    · cases he
    · cases hb; exact hg
  · intro hg
    exact .inr ⟨a, s, [], es, rfl, hg, rfl⟩

theorem record_bind_eq_some {f : σ → ω} {g : Unit → Run σ ε ω β} :
    ((record f : Run σ ε ω Unit) >>= g) s = some (r, s', es) ↔
      ∃ es₁, g () s = some (r, s', es₁) ∧ es = f s :: es₁ := by
  rw [bind_eq_some]
  constructor
  · rintro (⟨e, he, -⟩ | ⟨b, s₁, es₁, es₂, hb, hg, rfl⟩)
    · cases he
    · cases hb; exact ⟨es₂, hg, rfl⟩
  · rintro ⟨es₁, hg, rfl⟩
    exact .inr ⟨(), s, [f s], es₁, rfl, hg, rfl⟩

theorem succeeds_eq_some {r : Except ε Bool} :
    m.succeeds s = some (r, s', es) ↔ (r = .ok true ∧ ∃ a, m s = some (.ok a, s', es)) ∨
      (r = .ok false ∧ ∃ e, m s = some (.error e, s', es)) := by
  unfold succeeds
  rcases m s with _ | ⟨e | a, s₁, es₁⟩
  · simp
  · constructor
    · intro h; cases h; exact .inr ⟨rfl, e, rfl⟩
    · rintro (⟨-, _, h⟩ | ⟨rfl, _, h⟩) <;> cases h; rfl
  · constructor
    · intro h; cases h; exact .inl ⟨rfl, a, rfl⟩
    · rintro (⟨rfl, _, h⟩ | ⟨-, _, h⟩) <;> cases h; rfl

/-! ## What every outcome preserves -/

/-- Relations between the two ends of a run and its journal that compose along runs. -/
structure Journaled (R : σ → List ω → σ → Prop) : Prop where
  refl : ∀ s, R s [] s
  trans : ∀ {s t u es fs}, R s es t → R t fs u → R s (es ++ fs) u

/-- Whatever the outcome of `m`, its two ends are related by `R`. -/
def Follows (R : σ → List ω → σ → Prop) (m : Run σ ε ω α) : Prop :=
  ∀ s r s' es, m s = some (r, s', es) → R s es s'

section
variable {R : σ → List ω → σ → Prop} (hR : Journaled R)
include hR

theorem follows_pure (a : α) : Follows R (pure a : Run σ ε ω α) := by
  intro s r s' es h
  cases h
  exact hR.refl s

theorem follows_bind {f : α → Run σ ε ω β} (hm : Follows R m) (hf : ∀ a, Follows R (f a)) :
    Follows R (m >>= f) := by
  intro s r s' es h
  rcases bind_eq_some.mp h with ⟨e, hms, -⟩ | ⟨a, s₁, es₁, es₂, hms, hfs, rfl⟩
  · exact hm _ _ _ _ hms
  · exact hR.trans (hm _ _ _ _ hms) (hf a _ _ _ _ hfs)

theorem follows_fail (e : ε) : Follows R (fail e : Run σ ε ω α) := by
  intro s r s' es h
  cases h
  exact hR.refl s

theorem follows_read (f : σ → Option α) : Follows R (read f : Run σ ε ω α) := by
  intro s r s' es h
  obtain ⟨a, -, -, rfl, rfl⟩ := read_eq_some.mp h
  exact hR.refl _

theorem follows_forEach {f : α → Run σ ε ω Unit} :
    ∀ {l : List α}, (∀ a ∈ l, Follows R (f a)) → Follows R (forEach f l)
  | [], _ => follows_pure hR ()
  | a :: _, h => follows_bind hR (h a List.mem_cons_self) fun _ =>
    follows_forEach fun b hb => h b (List.mem_cons_of_mem a hb)

end

theorem follows_diverge {R : σ → List ω → σ → Prop} : Follows R (diverge : Run σ ε ω α) := by
  intro s r s' es h
  cases h

end Run

end Ridge

/-!
## Runs that report and go on

A computation that never stops early: its journal is what it reported. One that reported nothing is
*accepted*, and an accepted sequence is a sequence of accepted parts.
-/

namespace Ridge.Reports

open Run

variable {σ ω α β : Type} {s s' : σ}

/-- The run returned `a` and reported nothing. -/
def Accepts (m : Run σ Empty ω α) (s : σ) (a : α) (s' : σ) : Prop := m s = some (.ok a, s', [])

theorem accepts_bind {m : Run σ Empty ω α} {f : α → Run σ Empty ω β} {b : β} :
    Accepts (m >>= f) s b s' ↔ ∃ a s₁, Accepts m s a s₁ ∧ Accepts (f a) s₁ b s' := by
  unfold Accepts
  rw [bind_eq_some]
  constructor
  · rintro (⟨e, -⟩ | ⟨a, s₁, es₁, es₂, hm, hf, hes⟩)
    · exact e.elim
    · obtain ⟨rfl, rfl⟩ := List.append_eq_nil_iff.mp hes.symm
      exact ⟨a, s₁, hm, hf⟩
  · rintro ⟨a, s₁, hm, hf⟩
    exact .inr ⟨a, s₁, [], [], hm, hf, rfl⟩

theorem accepts_pure {a b : α} : Accepts (pure a : Run σ Empty ω α) s b s' ↔ b = a ∧ s' = s := by
  unfold Accepts
  rw [pure_eq_some]
  constructor
  · rintro ⟨h, rfl, -⟩
    cases h
    exact ⟨rfl, rfl⟩
  · rintro ⟨rfl, rfl⟩
    exact ⟨rfl, rfl, rfl⟩

theorem accepts_read {f : σ → Option α} {a : α} :
    Accepts (read f : Run σ Empty ω α) s a s' ↔ f s = some a ∧ s' = s := by
  unfold Accepts
  rw [read_eq_some]
  constructor
  · rintro ⟨b, hb, hr, rfl, -⟩
    cases hr
    exact ⟨hb, rfl⟩
  · rintro ⟨ha, rfl⟩
    exact ⟨a, ha, rfl, rfl, rfl⟩

theorem accepts_modify {f : σ → σ} {u : Unit} :
    Accepts (modify f : Run σ Empty ω Unit) s u s' ↔ s' = f s := by
  constructor
  · intro h
    cases h
    rfl
  · rintro rfl
    rfl

theorem not_accepts_record {f : σ → ω} {u : Unit} :
    ¬ Accepts (record f : Run σ Empty ω Unit) s u s' := nofun

theorem not_accepts_record_bind {f : σ → ω} {g : Unit → Run σ Empty ω β} {b : β} :
    ¬ Accepts (record f >>= g) s b s' := by
  intro h
  obtain ⟨_, _, hrecord, -⟩ := accepts_bind.mp h
  exact not_accepts_record hrecord

end Ridge.Reports
