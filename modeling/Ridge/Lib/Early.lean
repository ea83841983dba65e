import Mathlib.Data.List.Forall2

/-!
# Computations that may leave early

A computation over a state `σ` ends in a value or leaves with an `ε`. Two such computations are
compared by a simulation with a monitor on each side: they run in step until the source side is
marked, and from then on the target side is marked too, or is about to leave with an error that
marks it where it is caught.
-/

namespace Ridge

/-- A computation over `σ` that ends in an `α` or leaves with an `ε`. -/
def Early (σ ε α : Type) : Type := σ → Except ε α × σ

namespace Early

variable {σ τ ε δ α β : Type} {m : Early σ ε α} {f : α → Early σ ε β} {h : Early τ δ α}
    {g : α → Early τ δ β}

def pure (a : α) : Early σ ε α := fun s => (.ok a, s)

def bind (m : Early σ ε α) (f : α → Early σ ε β) : Early σ ε β := fun s =>
  match m s with
  | (.ok a, s') => f a s'
  | (.error e, s') => (.error e, s')

def leave (e : ε) : Early σ ε α := fun s => (.error e, s)

def modify (f : σ → σ) : Early σ ε Unit := fun s => (.ok (), f s)

/-- Reads a value off the state. -/
def read (f : σ → α) : Early σ ε α := fun s => (.ok (f s), s)

/-- Runs `m` from `enter s`; `exit` closes the state that `m` leaves behind, however it ends. -/
def within (enter : σ → σ) (exit : σ → σ → σ) (m : Early σ ε α) : Early σ ε α := fun s =>
  ((m (enter s)).1, exit s (m (enter s)).2)

/-- Rewrites how `m` ends. -/
def ending (f : Except ε α → Except ε β) (m : Early σ ε α) : Early σ ε β := fun s =>
  (f (m s).1, (m s).2)

/-- Runs a list of computations from the left, and collects their values. -/
def all : List (Early σ ε α) → Early σ ε (List α)
  | [] => pure []
  | m :: ms => bind m fun a => bind (all ms) fun as => pure (a :: as)

theorem bind_of_ok {s s' : σ} {a : α} (h : m s = (.ok a, s')) : bind m f s = f a s' := by
  simp only [bind, h]

theorem bind_of_error {s s' : σ} {e : ε} (h : m s = (.error e, s')) :
    bind m f s = (.error e, s') := by
  simp only [bind, h]

@[simp] theorem bind_pure (m : Early σ ε α) : bind m pure = m := by
  funext s
  rcases h : m s with ⟨e | a, s'⟩
  · exact bind_of_error h
  · exact bind_of_ok h

/-! ## Errors that mark the state they leave -/

/-- A computation that leaves with a `bad` error only in a marked state. -/
structure Contains (flag : τ → Prop) (bad : δ → Prop) (h : Early τ δ α) : Prop where
  flagged : ∀ t, flag t → flag (h t).2
  run : ∀ t d, (h t).1 = .error d → bad d → flag (h t).2

section Contains

variable {flag : τ → Prop} {bad : δ → Prop}

theorem Contains.pure (a : α) : Contains flag bad (pure a) where
  flagged := fun _ h => h
  run := fun _ _ h => absurd h (by simp [Early.pure])

theorem Contains.leave {d : δ} (hd : ¬ bad d) : Contains flag bad (leave d : Early τ δ α) where
  flagged := fun _ h => h
  run := by
    intro t d' h hb
    cases h
    exact absurd hb hd

theorem Contains.read (f : τ → α) : Contains flag bad (read f) where
  flagged := fun _ h => h
  run := fun _ _ h => absurd h (by simp [Early.read])

theorem Contains.modify {f : τ → τ} (hf : ∀ t, flag t → flag (f t)) :
    Contains flag bad (modify f) where
  flagged := hf
  run := fun _ _ h => absurd h (by simp [Early.modify])

/-- Sequencing, where only the values reached in a state without the flag matter. -/
theorem Contains.bind_of {P : α → Prop} (hh : Contains flag bad h)
    (hP : ∀ t a, ¬ flag (h t).2 → (h t).1 = .ok a → P a) (hflagged : ∀ a t, flag t → flag (g a t).2)
    (hg : ∀ a, P a → Contains flag bad (g a)) :
    Contains flag bad (bind h g) where
  flagged := by
    intro t ht
    have h1 := hh.flagged t ht
    rcases hht : h t with ⟨d | a, t'⟩ <;> rw [hht] at h1
    · rw [bind_of_error hht]
      exact h1
    · rw [bind_of_ok hht]
      exact hflagged a t' h1
  run := by
    intro t d hd hb
    have h1 := hh.run t d
    have h2 := fun a => hP t a
    rcases hht : h t with ⟨d' | a, t'⟩ <;> rw [hht] at h1 h2
    · rw [bind_of_error hht] at hd ⊢
      exact h1 (by simpa using hd) hb
    · rw [bind_of_ok hht] at hd ⊢
      by_cases hf : flag t'
      · exact hflagged a t' hf
      · exact (hg a (h2 a hf rfl)).run t' d hd hb

theorem Contains.bind {h : Early τ δ α} {g : α → Early τ δ β} (hh : Contains flag bad h)
    (hg : ∀ a, Contains flag bad (g a)) : Contains flag bad (bind h g) :=
  hh.bind_of (P := fun _ => True) (fun _ _ _ _ => trivial) (fun a => (hg a).flagged)
    fun a _ => hg a

theorem Contains.all {hs : List (Early τ δ α)} (h : ∀ m ∈ hs, Contains flag bad m) :
    Contains flag bad (all hs) := by
  induction hs with
  | nil => exact Contains.pure []
  | cons m ms ih =>
    apply (h m (by simp)).bind
    intro a
    apply (ih fun m' hm' => h m' (by simp [hm'])).bind
    intro as
    exact Contains.pure (a :: as)

theorem Contains.within {enter : τ → τ} {exit : τ → τ → τ} {h : Early τ δ α}
    (hh : Contains flag bad h) (henter : ∀ t, flag t → flag (enter t))
    (hexit : ∀ t t', flag t' → flag (exit t t')) :
    Contains flag bad (within enter exit h) where
  flagged := fun t ht => hexit t _ (hh.flagged _ (henter t ht))
  run := fun t d hd hb => hexit t _ (hh.run (enter t) d hd hb)

theorem Contains.ending {f : Except δ α → Except δ β} {h : Early τ δ α}
    (hh : Contains flag bad h)
    (hf : ∀ r d, f r = .error d → bad d → ∃ d', r = .error d' ∧ bad d') :
    Contains flag bad (ending f h) where
  flagged := hh.flagged
  run := by
    intro t d hd hb
    have ⟨d', hr, hb'⟩ := hf (h t).1 d hd hb
    exact hh.run t d' hr hb'

end Contains

/-! ## A monitored simulation -/

/-- What is watched on two machines: when their states are in step, when each of them is marked,
and a condition that a state has if a later one has it. -/
structure Monitor (σ τ : Type) where
  Step : σ → τ → Prop
  Marked : σ → Prop
  MarkedTarget : τ → Prop
  Fine : σ → Prop

namespace Monitor

variable {M : Monitor σ τ}

/-- The two ends of a run in step: the same value, or errors that belong together. -/
def SameEnd (ends : ε → δ → Prop) : Except ε α → Except δ α → Prop
  | .ok a, .ok b => a = b
  | .error e, .error d => ends e d
  | _, _ => False

theorem SameEnd.cases {ends : ε → δ → Prop} {r : Except ε α} {r' : Except δ α}
    (h : SameEnd ends r r') :
    (∃ a, r = .ok a ∧ r' = .ok a) ∨ ∃ e d, r = .error e ∧ r' = .error d ∧ ends e d := by
  rcases r with e | a <;> rcases r' with d | b
  · exact .inr ⟨e, d, rfl, rfl, h⟩
  · exact absurd h id
  · exact absurd h id
  · have hab : a = b := h
    exact .inl ⟨a, rfl, by rw [hab]⟩

variable (M) in
/-- Neither computation clears a mark, and `m` does not repair a state that is not fine. -/
structure Keeps (m : Early σ ε α) (h : Early τ δ α) : Prop where
  marked : ∀ s, M.Marked s → M.Marked (m s).2
  fine : ∀ s, M.Fine (m s).2 → M.Fine s
  markedTarget : ∀ t, M.MarkedTarget t → M.MarkedTarget (h t).2

variable (M) in
/-- `h` tracks `m`: in step with it, ending with errors that belong together, until `m` is
marked. `pending` are the errors with which the target may then still be leaving. -/
structure Tracks (ends : ε → δ → Prop) (pending : δ → Prop) (m : Early σ ε α)
    (h : Early τ δ α) : Prop extends M.Keeps m h where
  run : ∀ s t, M.Step s t → M.Fine (m s).2 →
    (M.Step (m s).2 (h t).2 ∧ SameEnd ends (m s).1 (h t).1) ∨
    (M.Marked (m s).2 ∧
      (M.MarkedTarget (h t).2 ∨ ∃ d, (h t).1 = .error d ∧ pending d))

theorem Keeps.bind (hm : M.Keeps m h) (hf : ∀ a, M.Keeps (f a) (g a)) :
    M.Keeps (Early.bind m f) (Early.bind h g) where
  marked := by
    intro s hs
    have h1 := hm.marked s hs
    rcases hms : m s with ⟨e | a, s'⟩ <;> rw [hms] at h1
    · rw [bind_of_error hms]
      exact h1
    · rw [bind_of_ok hms]
      exact (hf a).marked s' h1
  fine := by
    intro s hs
    apply hm.fine s
    rcases hms : m s with ⟨e | a, s'⟩
    · rwa [bind_of_error hms] at hs
    · rw [bind_of_ok hms] at hs
      exact (hf a).fine s' hs
  markedTarget := by
    intro t ht
    have h1 := hm.markedTarget t ht
    rcases hht : h t with ⟨d | b, t'⟩ <;> rw [hht] at h1
    · rw [bind_of_error hht]
      exact h1
    · rw [bind_of_ok hht]
      exact (hf b).markedTarget t' h1

namespace Tracks

variable {ends ends' : ε → δ → Prop} {pending pending' : δ → Prop}

theorem pure (a : α) : M.Tracks ends pending (Early.pure a) (Early.pure a) where
  marked := fun _ h => h
  fine := fun _ h => h
  markedTarget := fun _ h => h
  run := fun _ _ hst _ => .inl ⟨hst, rfl⟩

theorem leave {e : ε} {d : δ} (h : ends e d) :
    M.Tracks ends pending (Early.leave e : Early σ ε α) (Early.leave d) where
  marked := fun _ h => h
  fine := fun _ h => h
  markedTarget := fun _ h => h
  run := fun _ _ hst _ => .inl ⟨hst, h⟩

theorem read {f : σ → α} {g : τ → α} (h : ∀ s t, M.Step s t → f s = g t) :
    M.Tracks ends pending (Early.read f) (Early.read g) where
  marked := fun _ h => h
  fine := fun _ h => h
  markedTarget := fun _ h => h
  run := fun s t hst _ => .inl ⟨hst, h s t hst⟩

theorem modify {f : σ → σ} {g : τ → τ} (hm : ∀ s, M.Marked s → M.Marked (f s))
    (hf : ∀ s, M.Fine (f s) → M.Fine s) (ht : ∀ t, M.MarkedTarget t → M.MarkedTarget (g t))
    (hst : ∀ s t, M.Step s t → M.Step (f s) (g t)) :
    M.Tracks ends pending (Early.modify f) (Early.modify g) where
  marked := hm
  fine := hf
  markedTarget := ht
  run := fun s t h _ => .inl ⟨hst s t h, rfl⟩

/-- More errors may belong together, and more may be pending. -/
theorem mono (hm : M.Tracks ends pending m h) (hends : ∀ e d, ends e d → ends' e d)
    (hpending : ∀ d, pending d → pending' d) :
    M.Tracks ends' pending' m h where
  marked := hm.marked
  fine := hm.fine
  markedTarget := hm.markedTarget
  run := by
    intro s t hst hf
    rcases hm.run s t hst hf with ⟨hin, hend⟩ | ⟨hs, ht | ⟨d, hd, hp⟩⟩
    · refine .inl ⟨hin, ?_⟩
      rcases hend.cases with ⟨a, hr, hr'⟩ | ⟨e, d, hr, hr', hed⟩ <;> rw [hr, hr']
      · exact (rfl : a = a)
      · exact hends e d hed
    · exact .inr ⟨hs, .inl ht⟩
    · exact .inr ⟨hs, .inr ⟨d, hd, hpending d hp⟩⟩

/-- Sequencing, where only the values that `m` has in step need be tracked further. -/
theorem bind_of {P : α → Prop} (hm : M.Tracks ends pending m h)
    (hP : ∀ s t a, M.Step s t → M.Fine (m s).2 → M.Step (m s).2 (h t).2 → (m s).1 = .ok a → P a)
    (hkeeps : ∀ a, M.Keeps (f a) (g a)) (hf : ∀ a, P a → M.Tracks ends pending (f a) (g a)) :
    M.Tracks ends pending (Early.bind m f) (Early.bind h g) where
  toKeeps := hm.toKeeps.bind hkeeps
  run := by
    intro s t hst hfin
    have hrun := hm.run s t hst
    have hval := fun a => hP s t a hst
    rcases hms : m s with ⟨e | a, s'⟩ <;> rcases hht : h t with ⟨d | b, t'⟩ <;>
      rw [hms, hht] at hrun hval
    -- both leave
    · rw [bind_of_error hms] at hfin ⊢
      rw [bind_of_error hht]
      rcases hrun hfin with hin | ⟨hs, ht | ⟨d', hd, hp⟩⟩
      · exact .inl hin
      · exact .inr ⟨hs, .inl ht⟩
      · exact .inr ⟨hs, .inr ⟨d', by simpa using hd, hp⟩⟩
    -- the source leaves alone: it is marked, and so is the target
    · rw [bind_of_error hms] at hfin ⊢
      rw [bind_of_ok hht]
      rcases hrun hfin with ⟨_, hend⟩ | ⟨hs, ht | ⟨d, hd, _⟩⟩
      · exact absurd hend (by simp [SameEnd])
      · exact .inr ⟨hs, .inl ((hkeeps b).markedTarget t' ht)⟩
      · exact absurd hd (by simp)
    -- the target leaves alone
    · rw [bind_of_ok hms] at hfin ⊢
      rw [bind_of_error hht]
      rcases hrun ((hkeeps a).fine s' hfin) with ⟨_, hend⟩ | ⟨hs, ht | ⟨d', hd, hp⟩⟩
      · exact absurd hend (by simp [SameEnd])
      · exact .inr ⟨(hkeeps a).marked s' hs, .inl ht⟩
      · exact .inr ⟨(hkeeps a).marked s' hs, .inr ⟨d', by simpa using hd, hp⟩⟩
    -- both go on
    · rw [bind_of_ok hms] at hfin ⊢
      rw [bind_of_ok hht]
      have hfin' := (hkeeps a).fine s' hfin
      rcases hrun hfin' with ⟨hst', hend⟩ | ⟨hs, ht | ⟨d, hd, _⟩⟩
      · have hab : a = b := hend
        subst hab
        exact (hf a (hval a hfin' hst' rfl)).run s' t' hst' hfin
      · exact .inr ⟨(hkeeps a).marked s' hs, .inl ((hkeeps b).markedTarget t' ht)⟩
      · exact absurd hd (by simp)

theorem bind (hm : M.Tracks ends pending m h) (hf : ∀ a, M.Tracks ends pending (f a) (g a)) :
    M.Tracks ends pending (Early.bind m f) (Early.bind h g) :=
  hm.bind_of (P := fun _ => True) (fun _ _ _ _ _ _ _ => trivial) (fun a => (hf a).toKeeps)
    fun a _ => hf a

/-- Lists of computations that track each other one by one. -/
theorem all {ms : List (Early σ ε α)} {hs : List (Early τ δ α)}
    (h : List.Forall₂ (M.Tracks ends pending) ms hs) :
    M.Tracks ends pending (Early.all ms) (Early.all hs) := by
  induction h with
  | nil => exact pure []
  | cons hm _ ih =>
    apply hm.bind
    intro a
    apply ih.bind
    intro as
    exact pure (a :: as)

theorem within {enter : σ → σ} {exit : σ → σ → σ} {enter' : τ → τ} {exit' : τ → τ → τ}
    (hm : M.Tracks ends pending m h) (enter_marked : ∀ s, M.Marked s → M.Marked (enter s))
    (exit_marked : ∀ s s', M.Marked s' → M.Marked (exit s s'))
    (enter_fine : ∀ s, M.Fine (enter s) → M.Fine s)
    (exit_fine : ∀ s s', M.Fine (exit s s') → M.Fine s')
    (enter_target : ∀ t, M.MarkedTarget t → M.MarkedTarget (enter' t))
    (exit_target : ∀ t t', M.MarkedTarget t' → M.MarkedTarget (exit' t t'))
    (enter_step : ∀ s t, M.Step s t → M.Step (enter s) (enter' t))
    (exit_step : ∀ s t s' t', M.Step s t → M.Step s' t' → M.Step (exit s s') (exit' t t')) :
    M.Tracks ends pending (Early.within enter exit m) (Early.within enter' exit' h) where
  marked := fun s hs => exit_marked s _ (hm.marked _ (enter_marked s hs))
  fine := fun s hs => enter_fine s (hm.fine _ (exit_fine s _ hs))
  markedTarget := fun t ht => exit_target t _ (hm.markedTarget _ (enter_target t ht))
  run := by
    intro s t hst hf
    rcases hm.run _ _ (enter_step s t hst) (exit_fine s _ hf) with
      ⟨hin, hend⟩ | ⟨hs, ht | hp⟩
    · exact .inl ⟨exit_step _ _ _ _ hst hin, hend⟩
    · exact .inr ⟨exit_marked s _ hs, .inl (exit_target t _ ht)⟩
    · exact .inr ⟨exit_marked s _ hs, .inr hp⟩

theorem ending {f : Except ε α → Except ε β} {g : Except δ α → Except δ β}
    (hm : M.Tracks ends pending m h) (hend : ∀ r r', SameEnd ends r r' → SameEnd ends' (f r) (g r'))
    (hpend : ∀ d, pending d → ∃ d', g (.error d) = .error d' ∧ pending' d') :
    M.Tracks ends' pending' (Early.ending f m) (Early.ending g h) where
  marked := hm.marked
  fine := hm.fine
  markedTarget := hm.markedTarget
  run := by
    intro s t hst hf
    rcases hm.run s t hst hf with ⟨hin, hsame⟩ | ⟨hs, ht | ⟨d, hd, hp⟩⟩
    · exact .inl ⟨hin, hend _ _ hsame⟩
    · exact .inr ⟨hs, .inl ht⟩
    · have ⟨d', hd', hp'⟩ := hpend d hp
      exact .inr ⟨hs, .inr ⟨d', by simp only [Early.ending, hd, hd'], hp'⟩⟩

/-- A source computation with nothing opposite it, which a fine run shows to do nothing. -/
theorem skip [Nonempty α] {h : Early τ δ β} (hmarked : ∀ s, M.Marked s → M.Marked (m s).2)
    (hfine : ∀ s, M.Fine (m s).2 → M.Fine s)
    (hstep : ∀ s t, M.Step s t → M.Fine (m s).2 → ∃ a, (m s).1 = .ok a ∧ M.Step (m s).2 t)
    (hf : ∀ a, M.Tracks ends pending (f a) h) :
    M.Tracks ends pending (Early.bind m f) h where
  marked := by
    intro s hs
    have h1 := hmarked s hs
    rcases hms : m s with ⟨e | a, s'⟩ <;> rw [hms] at h1
    · rw [bind_of_error hms]
      exact h1
    · rw [bind_of_ok hms]
      exact (hf a).marked s' h1
  fine := by
    intro s hs
    apply hfine s
    rcases hms : m s with ⟨e | a, s'⟩
    · rwa [bind_of_error hms] at hs
    · rw [bind_of_ok hms] at hs
      exact (hf a).fine s' hs
  markedTarget := by
    intro t ht
    exact (hf (Classical.arbitrary α)).markedTarget t ht
  run := by
    intro s t hst hfin
    have h1 := hstep s t hst
    rcases hms : m s with ⟨e | a, s'⟩ <;> rw [hms] at h1
    · rw [bind_of_error hms] at hfin
      have ⟨_, ha, _⟩ := h1 hfin
      exact absurd ha (by simp)
    · rw [bind_of_ok hms] at hfin ⊢
      have ⟨_, _, hst'⟩ := h1 ((hf a).fine s' hfin)
      exact (hf a).run s' t hst' hfin

end Tracks

end Monitor

end Early

end Ridge
