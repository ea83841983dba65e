import Mathlib.Tactic.Basic

/-!
# Scripted programs

A program that takes its turns in a world that moves by itself. What the world does before a turn,
and how the turn comes out, is the next entry of a script; a script that has run out answers with
a given last entry. A program that fails an assertion of its own has no result. So one program over
every script is the program in every interleaving with its surroundings.

`Spec P m Q` is total: from a world with `P`, under any script, `m` comes to its end, and `Q` holds
of what it returns and of the world it leaves.
-/

namespace Ridge.Scripted

open List

variable {σ τ α β : Type}

/-- A program over worlds `σ` with scripts of `τ`. -/
def Prog (σ τ α : Type) : Type := σ → List τ → Option (α × σ × List τ)

protected def Prog.pure (a : α) : Prog σ τ α := fun s ts => some (a, s, ts)

protected def Prog.bind (m : Prog σ τ α) (f : α → Prog σ τ β) : Prog σ τ β := fun s ts =>
  match m s ts with
  | none => none
  | some (a, s', ts') => f a s' ts'

instance : Monad (Prog σ τ) where
  pure := Prog.pure
  bind := Prog.bind

/-- A turn: the world and what the script has next give the answer and the world after it. -/
def turn (last : τ) (f : τ → σ → α × σ) : Prog σ τ α := fun s ts =>
  some ((f (ts.headD last) s).1, (f (ts.headD last) s).2, ts.tail)

/-- What the program reads of itself. -/
def gets (f : σ → α) : Prog σ τ α := fun s ts => some (f s, s, ts)

/-- What the program writes of itself. -/
def modify (f : σ → σ) : Prog σ τ Unit := fun s ts => some ((), f s, ts)

/-- An assertion of the program. -/
def require (c : σ → Bool) : Prog σ τ Unit := fun s ts => if c s then some ((), s, ts) else none

/-- The elements of a list in order. -/
def forEach (f : α → Prog σ τ Unit) : List α → Prog σ τ Unit
  | [] => pure ()
  | a :: l => do
    f a
    forEach f l

/-- The elements that answer true, in order. -/
def filterEach (f : α → Prog σ τ Bool) : List α → Prog σ τ (List α)
  | [] => pure []
  | a :: l => do
    let keep ← f a
    let rest ← filterEach f l
    pure (if keep then a :: rest else rest)

/-! ## Specifications -/

def Spec (P : σ → Prop) (m : Prog σ τ α) (Q : α → σ → Prop) : Prop :=
  ∀ s ts, P s → ∃ a s' ts', m s ts = some (a, s', ts') ∧ Q a s'

variable {P S : σ → Prop} {Q Q' : α → σ → Prop} {m : Prog σ τ α}

theorem Spec.pure {a : α} (h : ∀ s, P s → Q a s) : Spec P (pure a : Prog σ τ α) Q :=
  fun s ts hs => ⟨a, s, ts, rfl, h s hs⟩

theorem Spec.bind {f : α → Prog σ τ β} {R : β → σ → Prop} (hm : Spec P m Q)
    (hf : ∀ a, Spec (Q a) (f a) R) : Spec P (m >>= f) R := by
  intro s ts hs
  obtain ⟨a, s', ts', hrun, ha⟩ := hm s ts hs
  obtain ⟨b, s'', ts'', hrun', hb⟩ := hf a s' ts' ha
  refine ⟨b, s'', ts'', ?_, hb⟩
  show Prog.bind m f s ts = _
  unfold Prog.bind
  rw [hrun]
  exact hrun'

theorem Spec.imp (hm : Spec P m Q) (hP : ∀ s, S s → P s) (hQ : ∀ a s, Q a s → Q' a s) :
    Spec S m Q' := by
  intro s ts hs
  obtain ⟨a, s', ts', hrun, ha⟩ := hm s ts (hP s hs)
  exact ⟨a, s', ts', hrun, hQ a s' ha⟩

theorem Spec.pre (hm : Spec P m Q) (hP : ∀ s, S s → P s) : Spec S m Q := hm.imp hP fun _ _ h => h

theorem Spec.post (hm : Spec P m Q) (hQ : ∀ a s, Q a s → Q' a s) : Spec P m Q' :=
  hm.imp (fun _ h => h) hQ

/-- A fact that does not speak of the world may be assumed. -/
theorem Spec.assume {p : Prop} (h : p → Spec P m Q) : Spec (fun s => p ∧ P s) m Q :=
  fun s ts hs => h hs.1 s ts hs.2

theorem Spec.ite {c : Prop} [Decidable c] {n : Prog σ τ α} (hm : c → Spec P m Q)
    (hn : ¬c → Spec P n Q) : Spec P (if c then m else n) Q := by
  split
  · next h => exact hm h
  · next h => exact hn h

theorem Spec.turn {last : τ} {f : τ → σ → α × σ}
    (h : ∀ t s, P s → Q (f t s).1 (f t s).2) : Spec P (turn last f) Q :=
  fun s ts hs => ⟨_, _, _, rfl, h (ts.headD last) s hs⟩

theorem Spec.gets {f : σ → α} (h : ∀ s, P s → Q (f s) s) : Spec P (gets f : Prog σ τ α) Q :=
  fun s ts hs => ⟨f s, s, ts, rfl, h s hs⟩

theorem Spec.modify {f : σ → σ} {Q : Unit → σ → Prop} (h : ∀ s, P s → Q () (f s)) :
    Spec P (modify f : Prog σ τ Unit) Q :=
  fun s ts hs => ⟨(), f s, ts, rfl, h s hs⟩

/-- An assertion that holds has no effect. -/
theorem Spec.require {c : σ → Bool} (h : ∀ s, P s → c s = true) :
    Spec P (require c : Prog σ τ Unit) fun _ s => P s :=
  fun s ts hs => ⟨(), s, ts, if_pos (h s hs), hs⟩

/-- What every element keeps, and adds for itself, holds for all of them in the end. -/
theorem Spec.forEach {f : α → Prog σ τ Unit} {done : α → σ → Prop} {l : List α}
    (hf : ∀ a ∈ l, ∀ seen : List α, Spec (fun s => P s ∧ ∀ b ∈ seen, done b s) (f a)
      fun _ s => P s ∧ (∀ b ∈ seen, done b s) ∧ done a s) :
    Spec P (forEach f l) fun _ s => P s ∧ ∀ a ∈ l, done a s := by
  have hall : ∀ seen : List α, Spec (fun s => P s ∧ ∀ b ∈ seen, done b s) (Scripted.forEach f l)
      fun _ s => P s ∧ (∀ b ∈ seen, done b s) ∧ ∀ a ∈ l, done a s := by
    induction l with
    | nil => exact fun seen => Spec.pure fun s hs => ⟨hs.1, hs.2, fun a ha => absurd ha not_mem_nil⟩
    | cons a l ih =>
      intro seen
      refine (hf a mem_cons_self seen).bind fun _ => ?_
      refine ((ih fun b hb => hf b (mem_cons_of_mem _ hb)) (a :: seen)).imp ?_ ?_
      · exact fun s hs => ⟨hs.1, forall_mem_cons.mpr ⟨hs.2.2, hs.2.1⟩⟩
      · rintro _ s ⟨hs, hseen, hl⟩
        obtain ⟨ha, hseen⟩ := forall_mem_cons.mp hseen
        exact ⟨hs, hseen, forall_mem_cons.mpr ⟨ha, hl⟩⟩
  exact (hall []).imp (fun s hs => ⟨hs, fun b hb => absurd hb not_mem_nil⟩)
    fun _ s hs => ⟨hs.1, hs.2.2⟩

end Ridge.Scripted
