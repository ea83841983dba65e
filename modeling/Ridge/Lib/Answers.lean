import Mathlib.Data.List.Forall2

/-!
# Computations that answer

`Answers x` says that a computation that may raise does not. It goes through sequencing, loops and
folds by one rule each, and each rule holds both ways: what has to answer is what is reached.
-/

namespace Ridge

variable {ε α β : Type}

/-- The computation returns a value. -/
def Answers (x : Except ε α) : Prop := ∃ a, x = .ok a

@[simp] theorem answers_ok (a : α) : Answers (Except.ok a : Except ε α) := ⟨a, rfl⟩

@[simp] theorem answers_pure (a : α) : Answers (pure a : Except ε α) := ⟨a, rfl⟩

@[simp] theorem not_answers_error (e : ε) : ¬Answers (Except.error e : Except ε α) :=
  fun ⟨_, h⟩ => (nomatch h)

variable {x : Except ε α} {f : α → Except ε β}

theorem answers_bind : Answers (x >>= f) ↔ Answers x ∧ ∀ a, x = .ok a → Answers (f a) := by
  cases x with
  | error e => exact iff_of_false (fun ⟨_, h⟩ => (nomatch h)) fun h => not_answers_error e h.1
  | ok a =>
    refine ⟨fun h => ⟨answers_ok a, fun a' ha => ?_⟩, fun h => h.2 a rfl⟩
    cases ha
    exact h

theorem answers_map {f : α → β} : Answers (f <$> x) ↔ Answers x := by
  cases x with
  | error e => exact iff_of_false (fun ⟨_, h⟩ => (nomatch h)) (not_answers_error e)
  | ok a => exact iff_of_true ⟨f a, rfl⟩ (answers_ok a)

/-- A branch that is not taken need not answer. -/
theorem answers_ite {c : Prop} [Decidable c] {x y : Except ε α} :
    Answers (if c then x else y) ↔ (c → Answers x) ∧ (¬c → Answers y) := by
  by_cases hc : c
  · rw [if_pos hc]
    exact ⟨fun h => ⟨fun _ => h, fun hn => absurd hc hn⟩, fun h => h.1 hc⟩
  · rw [if_neg hc]
    exact ⟨fun h => ⟨fun hp => absurd hp hc, fun _ => h⟩, fun h => h.2 hc⟩

variable {γ : Type} {y : Except ε β}

/-- Two computations and what is made of both. -/
theorem answers_bind₂ {f : α → β → Except ε γ} :
    Answers (x >>= fun a => y >>= fun b => f a b) ↔
      Answers x ∧ Answers y ∧ ∀ a b, x = .ok a → y = .ok b → Answers (f a b) := by
  rw [answers_bind]
  refine and_congr_right fun ⟨a, ha⟩ => ?_
  refine ⟨fun h => ⟨(answers_bind.mp (h a ha)).1, fun a' b ha' hb => ?_⟩, fun h a' ha' => ?_⟩
  · exact (answers_bind.mp (h a' ha')).2 b hb
  · exact answers_bind.mpr ⟨h.1, fun b hb => h.2 a' b ha' hb⟩

theorem answers_bind_pure {f : α → β} : Answers (x >>= fun a => pure (f a)) ↔ Answers x :=
  answers_bind.trans (and_iff_left fun _ _ => answers_pure _)

theorem answers_bind₂_pure {f : α → β → γ} :
    Answers (x >>= fun a => y >>= fun b => pure (f a b)) ↔ Answers x ∧ Answers y :=
  answers_bind₂.trans (and_congr_right fun _ => and_iff_left fun _ _ _ _ => answers_pure _)

/-- A test and the branch it takes. -/
theorem answers_bind_ite {x : Except ε Bool} {y z : Except ε α} :
    Answers (x >>= fun b => if b then y else z) ↔
      Answers x ∧ (x = .ok true → Answers y) ∧ (x = .ok false → Answers z) := by
  rw [answers_bind]
  refine and_congr_right fun _ => ?_
  refine ⟨fun h => ⟨fun htrue => h true htrue, fun hfalse => h false hfalse⟩, fun h b hb => ?_⟩
  cases b with
  | true => exact h.1 hb
  | false => exact h.2 hb

variable {l : List α}

theorem answers_mapM : Answers (l.mapM f) ↔ ∀ x ∈ l, Answers (f x) := by
  induction l with
  | nil =>
    rw [List.mapM_nil]
    exact iff_of_true (answers_pure []) nofun
  | cons x xs ih =>
    rw [List.mapM_cons, answers_bind, List.forall_mem_cons]
    refine and_congr_right fun ⟨y, hy⟩ => ?_
    have hstep : ∀ a, f x = .ok a →
        (Answers (xs.mapM f >>= fun bs => pure (a :: bs)) ↔ Answers (xs.mapM f)) := by
      intro a _
      rw [answers_bind]
      exact and_iff_left fun bs _ => answers_pure (a :: bs)
    exact ⟨fun h => ih.mp ((hstep y hy).mp (h y hy)), fun h a ha => (hstep a ha).mpr (ih.mpr h)⟩

theorem answers_foldlM_cons {f : β → α → Except ε β} {acc : β} {x : α} {xs : List α} :
    Answers ((x :: xs).foldlM f acc) ↔
      Answers (f acc x) ∧ ∀ acc', f acc x = .ok acc' → Answers (xs.foldlM f acc') := by
  rw [List.foldlM_cons, answers_bind]

/-- A fold whose steps are looked up one by one. -/
theorem answers_foldlM_pure {g : γ → β → γ} :
    ∀ {acc : γ}, Answers (l.foldlM (fun acc x => f x >>= fun b => pure (g acc b)) acc) ↔
      ∀ x ∈ l, Answers (f x) := by
  induction l with
  | nil => exact fun {acc} => iff_of_true (answers_pure acc) nofun
  | cons x xs ih =>
    intro acc
    rw [answers_foldlM_cons, answers_bind, List.forall_mem_cons]
    refine ⟨fun h => ⟨h.1.1, ?_⟩, fun h => ⟨⟨h.1, fun b _ => answers_pure _⟩, fun _ _ => ih.mpr h.2⟩⟩
    obtain ⟨b, hb⟩ := h.1.1
    refine ih.mp (h.2 (g acc b) ?_)
    rw [hb]
    rfl

end Ridge
