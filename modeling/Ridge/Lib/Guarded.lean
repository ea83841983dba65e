import Mathlib.Data.List.Induction

/-!
# Lib — runs whose steps meet a condition

A system that takes one event at a time is a function `step : σ → ε → σ`. `StepsMeet` says that a
condition on the state before a step and on its event holds all along a run, `Throughout` that a
property holds in every state a run passes. An invariant that every step meeting the condition
keeps gives the one from the other.
-/

namespace Ridge

section

variable {σ ε : Type} (step : σ → ε → σ)

def runEvents (s : σ) (events : List ε) : σ := events.foldl step s

theorem runEvents_append (s : σ) (events more : List ε) :
    runEvents step s (events ++ more) = runEvents step (runEvents step s events) more :=
  List.foldl_append

/-- The property holds in every state the run passes. -/
def Throughout (P : σ → Prop) (s : σ) (events : List ε) : Prop :=
  ∀ done, done <+: events → P (runEvents step s done)

/-- Every step of the run is taken under the condition. -/
def StepsMeet (C : σ → ε → Prop) (s : σ) (events : List ε) : Prop :=
  ∀ done e, done ++ [e] <+: events → C (runEvents step s done) e

variable {step}

variable {events : List ε}

variable {s : σ}

theorem Throughout.mono {P Q : σ → Prop} (hPQ : ∀ s, P s → Q s) (h : Throughout step P s events) :
    Throughout step Q s events :=
  fun done hd => hPQ _ (h done hd)

variable {C : σ → ε → Prop}

/-- An invariant that the steps under the condition keep holds all along. -/
theorem throughout_of_meets {I : σ → Prop} (hstep : ∀ s e, I s → C s e → I (step s e)) (hs : I s)
    (h : StepsMeet step C s events) : Throughout step I s events := by
  intro done hd
  induction done using List.reverseRecOn with
  | nil => exact hs
  | append_singleton done e ih =>
    rw [runEvents_append]
    exact hstep _ e (ih ((List.prefix_append done _).trans hd)) (h done e hd)

theorem StepsMeet.nil (C : σ → ε → Prop) (s : σ) : StepsMeet step C s [] := fun done e hp => by
  have hlen := hp.length_le
  rw [List.length_append] at hlen
  exact absurd hlen (Nat.not_succ_le_zero _)

theorem StepsMeet.cons {e : ε} (he : C s e) (h : StepsMeet step C (step s e) events) :
    StepsMeet step C s (e :: events) := by
  intro done e' hp
  cases done with
  | nil =>
    cases (List.cons_prefix_cons.mp hp).1
    exact he
  | cons d done =>
    obtain ⟨rfl, hrest⟩ := List.cons_prefix_cons.mp hp
    exact h done e' hrest

end

end Ridge
