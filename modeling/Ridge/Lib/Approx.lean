import Ridge.Lib.Early

/-!
# Computations by fuel

A program is run here with a bound on its depth and stops with an error of its own, `stop`, when
the bound is too low. `Sim stop R m m'` says that `m'` ends as `m` does from a related state,
unless `m` stopped; `Yields stop f s r s'` that the computation `f`, given as one run for each
bound, ends with `r` in `s'` once the bound is high enough.
-/

namespace Ridge

namespace Early

variable {σ τ υ ε α β : Type} {f : Nat → Early σ ε α} {s s' : σ} {r : Except ε α}

/-- From related states, `m'` ends as `m` does, in a related state, unless `m` stops. -/
def Sim (stop : ε) (R : σ → τ → Prop) (m : Early σ ε α) (m' : Early τ ε α) : Prop :=
  ∀ s t, R s t → (m s).1 ≠ .error stop → (m' t).1 = (m s).1 ∧ R (m s).2 (m' t).2

section Sim

variable {stop : ε} {R : σ → τ → Prop}

theorem Sim.pure (a : α) : Sim stop R (pure a) (pure a) := fun _ _ h _ => ⟨rfl, h⟩

theorem Sim.leave (e : ε) : Sim stop R (leave e : Early σ ε α) (leave e) :=
  fun _ _ h _ => ⟨rfl, h⟩

/-- A run that stopped says nothing. -/
theorem Sim.stopped (m : Early τ ε α) : Sim stop R (Early.leave stop) m :=
  fun _ _ _ h => absurd rfl h

variable {m : Early σ ε α} {m' : Early τ ε α}

theorem Sim.bind {f : α → Early σ ε β} {f' : α → Early τ ε β} (hm : Sim stop R m m')
    (hf : ∀ a, Sim stop R (f a) (f' a)) : Sim stop R (bind m f) (bind m' f') := by
  intro s t h hne
  rcases hs : m s with ⟨e | a, s'⟩
  · rw [bind_of_error hs] at hne ⊢
    have hms := hm s t h (by rw [hs]; exact fun heq => hne (by cases heq; rfl))
    rw [hs] at hms
    have ht : m' t = (.error e, (m' t).2) := Prod.ext hms.1 rfl
    rw [bind_of_error ht]
    exact ⟨rfl, hms.2⟩
  · rw [bind_of_ok hs] at hne ⊢
    have hms := hm s t h (by rw [hs]; exact fun heq => by cases heq)
    rw [hs] at hms
    have ht : m' t = (.ok a, (m' t).2) := Prod.ext hms.1 rfl
    rw [bind_of_ok ht]
    exact hf a s' _ hms.2 hne

theorem Sim.all {ms : List (Early σ ε α)} {ms' : List (Early τ ε α)}
    (h : List.Forall₂ (Sim stop R) ms ms') : Sim stop R (all ms) (all ms') := by
  induction h with
  | nil => exact Sim.pure []
  | cons hm _ ih => exact hm.bind fun a => ih.bind fun as => Sim.pure (a :: as)

theorem Sim.read {f : σ → α} {f' : τ → α} (h : ∀ s t, R s t → f' t = f s) :
    Sim stop R (read f) (read f') := fun s t hR _ => ⟨congrArg Except.ok (h s t hR), hR⟩

theorem Sim.modify {f : σ → σ} {f' : τ → τ} (h : ∀ s t, R s t → R (f s) (f' t)) :
    Sim stop R (modify f) (modify f') := fun s t hR _ => ⟨rfl, h s t hR⟩

theorem Sim.within {R' : σ → τ → Prop} {enter : σ → σ} {exit : σ → σ → σ} {enter' : τ → τ}
    {exit' : τ → τ → τ} (hm : Sim stop R' m m') (henter : ∀ s t, R s t → R' (enter s) (enter' t))
    (hexit : ∀ s t s' t', R s t → R' s' t' → R (exit s s') (exit' t t')) :
    Sim stop R (within enter exit m) (within enter' exit' m') := by
  intro s t h hne
  have hms := hm _ _ (henter s t h) hne
  exact ⟨hms.1, hexit s t _ _ h hms.2⟩

theorem Sim.ending {f : Except ε α → Except ε β} (hm : Sim stop R m m')
    (hstop : f (.error stop) = .error stop) : Sim stop R (ending f m) (ending f m') := by
  intro s t h hne
  have hms := hm s t h (fun heq => hne (by show f (m s).1 = _; rw [heq, hstop]))
  exact ⟨congrArg f hms.1, hms.2⟩

end Sim

/-! ## What a run keeps -/

/-- Every run of `m` relates its two ends by `P`, however it ends. -/
def Keeps (P : σ → σ → Prop) (m : Early σ ε α) : Prop := ∀ s, P s (m s).2

section Keeps

variable {P : σ → σ → Prop}

theorem Keeps.bind [IsTrans σ P] {m : Early σ ε α} {f : α → Early σ ε β} (hm : Keeps P m)
    (hf : ∀ a, Keeps P (f a)) : Keeps P (bind m f) := by
  intro s
  have hms := hm s
  rcases hs : m s with ⟨e | a, s'⟩ <;> rw [hs] at hms
  · rw [bind_of_error hs]
    exact hms
  · rw [bind_of_ok hs]
    exact IsTrans.trans _ _ _ hms (hf a s')

theorem Keeps.all [IsTrans σ P] (hrefl : ∀ s, P s s) {ms : List (Early σ ε α)}
    (h : ∀ m ∈ ms, Keeps P m) : Keeps P (all ms) := by
  induction ms with
  | nil => exact hrefl
  | cons m ms ih =>
    refine Keeps.bind (h m List.mem_cons_self) fun a => ?_
    exact Keeps.bind (ih fun m' hm' => h m' (List.mem_cons_of_mem m hm')) fun _ => hrefl

end Keeps

/-! ## A run for each bound -/

/-- A higher bound gives the same answer, once there is one. -/
def Increasing (stop : ε) (f : Nat → Early σ ε α) : Prop :=
  ∀ n m, n ≤ m → Sim stop Eq (f n) (f m)

/-- With a high enough bound, the computation ends with `r` in `s'`. -/
def Yields (stop : ε) (f : Nat → Early σ ε α) (s : σ) (r : Except ε α) (s' : σ) : Prop :=
  r ≠ .error stop ∧ ∃ n, f n s = (r, s')

section Yields

variable {stop : ε}

theorem Increasing.apply (hf : Increasing stop f) {n m : Nat} (hnm : n ≤ m) (hr : r ≠ .error stop)
    (h : f n s = (r, s')) : f m s = (r, s') := by
  have hsim := hf n m hnm s s rfl (by rw [h]; exact hr)
  rw [h] at hsim
  exact Prod.ext hsim.1 hsim.2.symm

theorem Increasing.const (m : Early σ ε α) : Increasing stop fun _ => m := by
  rintro _ _ _ s _ rfl _
  exact ⟨rfl, rfl⟩

variable {g : Nat → α → Early σ ε β}

theorem Increasing.bind {f : Nat → Early σ ε α} (hf : Increasing stop f)
    (hg : ∀ a, Increasing stop fun n => g n a) : Increasing stop fun n => bind (f n) (g n) :=
  fun n m h => (hf n m h).bind fun a => hg a n m h

variable {enter : σ → σ} {exit : σ → σ → σ}

theorem Increasing.within {f : Nat → Early σ ε α} (hf : Increasing stop f) :
    Increasing stop fun n => within enter exit (f n) :=
  fun n m h => (hf n m h).within (fun _ _ hst => congrArg enter hst)
    fun _ _ _ _ hst hst' => congrArg₂ exit hst hst'

theorem Increasing.ending {g : Except ε α → Except ε β} {f : Nat → Early σ ε α}
    (hf : Increasing stop f) (hstop : g (.error stop) = .error stop) :
    Increasing stop fun n => ending g (f n) := fun n m h => (hf n m h).ending hstop

/-- A computation ends in one way. -/
theorem Yields.unique (hf : Increasing stop f) {s₁ s₂ : σ} {r₁ r₂ : Except ε α}
    (h₁ : Yields stop f s r₁ s₁) (h₂ : Yields stop f s r₂ s₂) : r₁ = r₂ ∧ s₁ = s₂ := by
  obtain ⟨hr₁, n₁, h₁⟩ := h₁
  obtain ⟨hr₂, n₂, h₂⟩ := h₂
  have heq := (hf.apply (Nat.le_max_left n₁ n₂) hr₁ h₁).symm.trans
    (hf.apply (Nat.le_max_right n₁ n₂) hr₂ h₂)
  exact ⟨congrArg Prod.fst heq, congrArg Prod.snd heq⟩

/-- A bound that is spent on the way is made up for. -/
theorem yields_succ (hf : Increasing stop f) :
    Yields stop (fun n => f (n + 1)) s r s' ↔ Yields stop f s r s' := by
  refine ⟨fun ⟨hr, n, h⟩ => ⟨hr, n + 1, h⟩, fun ⟨hr, n, h⟩ => ⟨hr, n, ?_⟩⟩
  exact hf.apply (Nat.le_succ n) hr h

theorem yields_const {m : Early σ ε α} :
    Yields stop (fun _ => m) s r s' ↔ r ≠ .error stop ∧ m s = (r, s') :=
  and_congr_right fun _ => exists_const Nat

theorem yields_pure {a : α} : Yields stop (fun _ => pure a) s r s' ↔ r = .ok a ∧ s' = s := by
  rw [yields_const]
  constructor
  · rintro ⟨_, h⟩
    cases h
    exact ⟨rfl, rfl⟩
  · rintro ⟨rfl, rfl⟩
    exact ⟨(nomatch ·), rfl⟩

theorem yields_leave {e : ε} (he : e ≠ stop) :
    Yields stop (fun _ => leave e) s r s' ↔ r = .error e ∧ s' = s := by
  rw [yields_const]
  constructor
  · rintro ⟨_, h⟩
    cases h
    exact ⟨rfl, rfl⟩
  · rintro ⟨rfl, rfl⟩
    exact ⟨fun h => he (by cases h; rfl), rfl⟩

/-- A sequence ends where its first part leaves, or where its second part ends. -/
theorem yields_bind (hf : Increasing stop f) (hg : ∀ a, Increasing stop fun n => g n a)
    {r : Except ε β} :
    Yields stop (fun n => bind (f n) (g n)) s r s' ↔
      (∃ e, r = .error e ∧ Yields stop f s (.error e) s') ∨
        ∃ a s₁, Yields stop f s (.ok a) s₁ ∧ Yields stop (fun n => g n a) s₁ r s' := by
  constructor
  · rintro ⟨hr, n, h⟩
    rcases hfn : f n s with ⟨e | a, s₁⟩
    · have h' : bind (f n) (g n) s = (r, s') := h
      rw [bind_of_error hfn] at h'
      cases h'
      exact .inl ⟨e, rfl, fun heq => hr (by cases heq; rfl), n, hfn⟩
    · have h' : bind (f n) (g n) s = (r, s') := h
      rw [bind_of_ok hfn] at h'
      exact .inr ⟨a, s₁, ⟨(nomatch ·), n, hfn⟩, hr, n, h'⟩
  · rintro (⟨e, rfl, hne, n, h⟩ | ⟨a, s₁, ⟨hne, n, h⟩, hr, m, hg'⟩)
    · exact ⟨fun heq => hne (by cases heq; rfl), n, bind_of_error h⟩
    · refine ⟨hr, max n m, ?_⟩
      show bind (f (max n m)) (g (max n m)) s = _
      rw [bind_of_ok (hf.apply (Nat.le_max_left n m) hne h)]
      exact (hg a).apply (Nat.le_max_right n m) hr hg'

theorem yields_bind_ok (hf : Increasing stop f) (hg : ∀ a, Increasing stop fun n => g n a)
    {r : Except ε β} {a : α} {s₁ : σ} (h : Yields stop f s (.ok a) s₁) :
    Yields stop (fun n => bind (f n) (g n)) s r s' ↔ Yields stop (fun n => g n a) s₁ r s' := by
  rw [yields_bind hf hg]
  refine ⟨?_, fun hrest => .inr ⟨a, s₁, h, hrest⟩⟩
  rintro (⟨e, _, he⟩ | ⟨b, s₂, hb, hrest⟩)
  · cases (Yields.unique hf he h).1
  · obtain ⟨heq, rfl⟩ := Yields.unique hf hb h
    cases heq
    exact hrest

theorem yields_bind_error (hf : Increasing stop f) (hg : ∀ a, Increasing stop fun n => g n a)
    {r : Except ε β} {e : ε} {s₁ : σ} (h : Yields stop f s (.error e) s₁) :
    Yields stop (fun n => bind (f n) (g n)) s r s' ↔ r = .error e ∧ s' = s₁ := by
  rw [yields_bind hf hg]
  constructor
  · rintro (⟨e', rfl, he⟩ | ⟨b, s₂, hb, _⟩)
    · obtain ⟨heq, rfl⟩ := Yields.unique hf he h
      cases heq
      exact ⟨rfl, rfl⟩
    · cases (Yields.unique hf hb h).1
  · rintro ⟨rfl, rfl⟩
    exact .inl ⟨e, rfl, h⟩

theorem yields_within :
    Yields stop (fun n => within enter exit (f n)) s r s' ↔
      ∃ s₁, Yields stop f (enter s) r s₁ ∧ s' = exit s s₁ := by
  constructor
  · rintro ⟨hr, n, h⟩
    cases h
    exact ⟨(f n (enter s)).2, ⟨hr, n, rfl⟩, rfl⟩
  · rintro ⟨s₁, ⟨hr, n, h⟩, rfl⟩
    refine ⟨hr, n, ?_⟩
    show ((f n (enter s)).1, exit s (f n (enter s)).2) = _
    rw [h]

theorem yields_ending {g : Except ε α → Except ε β} (hstop : g (.error stop) = .error stop)
    {r : Except ε β} :
    Yields stop (fun n => ending g (f n)) s r s' ↔
      r ≠ .error stop ∧ ∃ r₁, Yields stop f s r₁ s' ∧ r = g r₁ := by
  constructor
  · rintro ⟨hr, n, h⟩
    cases h
    exact ⟨hr, (f n s).1, ⟨fun heq => hr (by rw [heq, hstop]), n, rfl⟩, rfl⟩
  · rintro ⟨hr, r₁, ⟨_, n, h⟩, rfl⟩
    refine ⟨hr, n, ?_⟩
    show (g (f n s).1, (f n s).2) = _
    rw [h]

end Yields

end Early

/-!
## Code outside the language

A program calls functions whose code is not given. What such a function does is a tree: it
answers, or it calls back one of the function values it was handed and goes on from that call's
answer. `Foreign.run` plays the tree against the computations that calls stand for.
-/

/-- What a foreign function does in a world `W`: it answers with a `V` or an error `E`, after any
number of calls of function values. -/
inductive Foreign (W V E : Type) where
  | done (answer : Except E V) (world : W)
  | call (f : V) (args : List V) (world : W) (rest : Except E V → W → Foreign W V E)

/-- Where a state holds its world, and which ends of a computation foreign code sees. -/
structure Seam (σ W ε E : Type) where
  world : σ → W
  setWorld : W → σ → σ
  raise : E → ε
  caught : ε → Option E

namespace Foreign

open Early

variable {σ τ W V E ε : Type}

/-- How a call ended, as code that catches errors sees it. -/
def answerOf (S : Seam σ W ε E) : Except ε V → Except ε (Except E V)
  | .ok v => .ok (.ok v)
  | .error e =>
    match S.caught e with
    | some x => .ok (.error x)
    | none => .error e

def run (S : Seam σ W ε E) (apply : V → List V → Early σ ε V) : Foreign W V E → Early σ ε V
  | .done answer world =>
    bind (modify (S.setWorld world)) fun _ =>
      match answer with
      | .ok v => pure v
      | .error e => leave (S.raise e)
  | .call f args world rest =>
    bind (modify (S.setWorld world)) fun _ =>
      bind (ending (answerOf S) (apply f args)) fun answer =>
        bind (read S.world) fun world => run S apply (rest answer world)

variable {S : Seam σ W ε E}

theorem answerOf_stop {stop : ε} (h : S.caught stop = none) :
    answerOf (V := V) S (.error stop) = .error stop := by
  simp only [answerOf, h]

/-- Foreign code acts alike in related states if the calls it makes do. -/
theorem sim_run {stop : ε} {R : σ → σ → Prop} {apply apply' : V → List V → Early σ ε V}
    (hstop : S.caught stop = none) (hworld : ∀ s t, R s t → S.world t = S.world s)
    (hset : ∀ w s t, R s t → R (S.setWorld w s) (S.setWorld w t))
    (happly : ∀ f args, Sim stop R (apply f args) (apply' f args)) (c : Foreign W V E) :
    Sim stop R (run S apply c) (run S apply' c) := by
  induction c with
  | done answer world =>
    refine (Sim.modify (hset world)).bind fun _ => ?_
    cases answer with
    | ok v => exact Sim.pure v
    | error e => exact Sim.leave _
  | call f args world rest ih =>
    refine (Sim.modify (hset world)).bind fun _ => ?_
    refine ((happly f args).ending (answerOf_stop hstop)).bind fun answer => ?_
    exact (Sim.read hworld).bind fun w => ih answer w

theorem keeps_run {P : σ → σ → Prop} [IsTrans σ P] {apply : V → List V → Early σ ε V}
    (hrefl : ∀ s, P s s) (hset : ∀ w s, P s (S.setWorld w s))
    (happly : ∀ f args, Keeps P (apply f args)) (c : Foreign W V E) : Keeps P (run S apply c) := by
  induction c with
  | done answer world =>
    refine Keeps.bind (hset world) fun _ => ?_
    cases answer with
    | ok v => exact hrefl
    | error e => exact hrefl
  | call f args world rest ih =>
    refine Keeps.bind (hset world) fun _ => Keeps.bind (happly f args) fun answer => ?_
    exact Keeps.bind hrefl fun w => ih answer w

end Foreign

end Ridge
