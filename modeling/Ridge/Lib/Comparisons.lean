import Mathlib.Data.List.Forall2

/-!
# Lawful comparisons and their products

Partial methods on a type, and what it means that they are lawful on a set of its values: an
equality that is an equivalence, an order that is a total preorder, an order that is coherent with
an equality, and a feed of frames to a state that respects an equality or tells its frames from
what follows. Each law passes from components to a product compared part by part.
-/

namespace Ridge.Comparisons

open List

variable {α β φ : Type*} {x : α} {fs : List φ} {xs : List α}

/-! ## Laws -/

/-- An equivalence on `S`. -/
structure EqOn (S : α → Prop) (eq : α → α → Option Bool) : Prop where
  total : ∀ {x y}, S x → S y → ∃ b, eq x y = some b
  refl : ∀ {x}, S x → eq x x = some true
  symm : ∀ {x y}, S x → S y → eq x y = some true → eq y x = some true
  trans : ∀ {x y z}, S x → S y → S z → eq x y = some true → eq y z = some true →
    eq x z = some true

/-- A total preorder on `S`. -/
structure OrdOn (S : α → Prop) (cmp : α → α → Option Ordering) : Prop where
  total : ∀ {x y}, S x → S y → ∃ o, cmp x y = some o
  swap : ∀ {x y o}, S x → S y → cmp x y = some o → cmp y x = some o.swap
  trans : ∀ {x y z o p}, S x → S y → S z → cmp x y = some o → cmp y z = some p → o ≠ .gt →
    p ≠ .gt → ∃ q, cmp x z = some q ∧ q ≠ .gt

/-- The order calls equal what the equality does. -/
def Coherent (S : α → Prop) (eq : α → α → Option Bool) (cmp : α → α → Option Ordering) : Prop :=
  ∀ x y, S x → S y → (cmp x y = some .eq ↔ eq x y = some true)

/-- The three methods of one type. -/
structure Methods (α φ : Type*) where
  eq : α → α → Option Bool
  compare : α → α → Option Ordering
  feed : α → List φ → Option (List φ)

/-- `x` feeds the frames `fs`, whatever the state; the state holds the newest frame first. -/
def Feeds (feed : α → List φ → Option (List φ)) (x : α) (fs : List φ) : Prop :=
  ∀ s, feed x s = some (fs.reverse ++ s)

/-- The values of `S` feed frames, equal ones the same. -/
structure FeedOn (S : α → Prop) (eq : α → α → Option Bool)
    (feed : α → List φ → Option (List φ)) : Prop where
  appends : ∀ {x}, S x → ∃ fs, Feeds feed x fs
  respects : ∀ {x y}, S x → S y → eq x y = some true → ∀ s, feed x s = feed y s

/-- No value of `S` feeds the beginning of what another feeds. -/
structure Delimited (S : α → Prop) (feed : α → List φ → Option (List φ)) : Prop where
  appends : ∀ {x}, S x → ∃ fs, Feeds feed x fs
  alone : ∀ {x y fs gs t u}, S x → S y → Feeds feed x fs → Feeds feed y gs →
    fs ++ t = gs ++ u → fs = gs

section
variable {S : α → Prop} {eq : α → α → Option Bool} {cmp : α → α → Option Ordering}
  {feed : α → List φ → Option (List φ)}

theorem Feeds.unique {gs : List φ} (h : Feeds feed x fs) (h' : Feeds feed x gs) : fs = gs := by
  have := Option.some.inj ((h []).symm.trans (h' []))
  rw [append_nil, append_nil] at this
  exact reverse_injective this

theorem OrdOn.refl (h : OrdOn S cmp) (hx : S x) : cmp x x = some .eq := by
  obtain ⟨o, ho⟩ := h.total hx hx
  have hswap := h.swap hx hx ho
  rw [ho] at hswap
  cases o with
  | eq => exact ho
  | lt => cases hswap
  | gt => cases hswap

/-- Of two steps that do not go down, the first that goes up decides. -/
theorem OrdOn.then (h : OrdOn S cmp) {y z : α} {o p : Ordering} (hx : S x) (hy : S y) (hz : S z)
    (ho : cmp x y = some o) (hp : cmp y z = some p) (ho' : o ≠ .gt) (hp' : p ≠ .gt) :
    cmp x z = some (o.then p) := by
  obtain ⟨q, hq, hq'⟩ := h.trans hx hy hz ho hp ho' hp'
  have hzx := h.swap hx hz hq
  have hyx := h.swap hx hy ho
  have hzy := h.swap hy hz hp
  cases q with
  | gt => exact absurd rfl hq'
  | lt =>
    cases o with
    | gt => exact absurd rfl ho'
    | lt => exact hq
    | eq =>
      cases p with
      | gt => exact absurd rfl hp'
      | lt => exact hq
      | eq =>
        -- `z ≤ y ≤ x`, against `x < z`
        obtain ⟨r, hr, hr'⟩ := h.trans hz hy hx hzy hyx (by decide) (by decide)
        rw [hzx] at hr
        cases hr
        exact absurd rfl hr'
  | eq =>
    cases o with
    | gt => exact absurd rfl ho'
    | lt =>
      obtain ⟨r, hr, hr'⟩ := h.trans hy hz hx hp hzx hp' (by decide)
      rw [hyx] at hr
      cases hr
      exact absurd rfl hr'
    | eq =>
      cases p with
      | gt => exact absurd rfl hp'
      | eq => exact hq
      | lt =>
        obtain ⟨r, hr, hr'⟩ := h.trans hz hx hy hzx ho (by decide) (by decide)
        rw [hzy] at hr
        cases hr
        exact absurd rfl hr'

/-- A total preorder, from what two steps that do not go down amount to. -/
theorem OrdOn.ofThen (total : ∀ {x y}, S x → S y → ∃ o, cmp x y = some o)
    (swap : ∀ {x y o}, S x → S y → cmp x y = some o → cmp y x = some o.swap)
    (hthen : ∀ {x y z o p}, S x → S y → S z → cmp x y = some o → cmp y z = some p → o ≠ .gt →
      p ≠ .gt → cmp x z = some (o.then p)) : OrdOn S cmp where
  total := total
  swap := swap
  trans := by
    intro x y z o p hx hy hz ho hp ho' hp'
    refine ⟨_, hthen hx hy hz ho hp ho' hp', ?_⟩
    cases o with
    | gt => exact absurd rfl ho'
    | lt => exact nofun
    | eq => exact hp'

end

/-! ## Values seen through their parts -/

section
variable (parts : β → Option α)

/-- The values whose parts are in `S`. -/
def Through (S : α → Prop) (v : β) : Prop := ∃ x, parts v = some x ∧ S x

/-- A method on the parts of two values. -/
def through {γ : Type*} (f : α → α → Option γ) (v w : β) : Option γ :=
  (parts v).bind fun x => (parts w).bind fun y => f x y

def feedThrough (feed : α → List φ → Option (List φ)) (v : β) (s : List φ) : Option (List φ) :=
  (parts v).bind fun x => feed x s

variable {parts} {S : α → Prop} {eq : α → α → Option Bool} {cmp : α → α → Option Ordering}
  {feed : α → List φ → Option (List φ)}

variable {v : β}

theorem Through.imp {S S' : α → Prop} (h : ∀ x, S x → S' x) :
    Through parts S v → Through parts S' v := by
  rintro ⟨x, hx, hS⟩
  exact ⟨x, hx, h x hS⟩

theorem through_eq {γ : Type*} {f : α → α → Option γ} {v w : β} {y : α} (hv : parts v = some x)
    (hw : parts w = some y) : through parts f v w = f x y := by
  unfold through
  rw [hv, hw]
  rfl

theorem feedThrough_eq (hv : parts v = some x) (s : List φ) :
    feedThrough parts feed v s = feed x s := by
  unfold feedThrough
  rw [hv]
  rfl

theorem EqOn.through (h : EqOn S eq) : EqOn (Through parts S) (through parts eq) where
  total := by
    rintro v w ⟨x, hv, hx⟩ ⟨y, hw, hy⟩
    rw [through_eq hv hw]
    exact h.total hx hy
  refl := by
    rintro v ⟨x, hv, hx⟩
    rw [through_eq hv hv]
    exact h.refl hx
  symm := by
    rintro v w ⟨x, hv, hx⟩ ⟨y, hw, hy⟩ heq
    rw [through_eq hv hw] at heq
    rw [through_eq hw hv]
    exact h.symm hx hy heq
  trans := by
    rintro v w u ⟨x, hv, hx⟩ ⟨y, hw, hy⟩ ⟨z, hu, hz⟩ h₁ h₂
    rw [through_eq hv hw] at h₁
    rw [through_eq hw hu] at h₂
    rw [through_eq hv hu]
    exact h.trans hx hy hz h₁ h₂

theorem OrdOn.through (h : OrdOn S cmp) : OrdOn (Through parts S) (through parts cmp) where
  total := by
    rintro v w ⟨x, hv, hx⟩ ⟨y, hw, hy⟩
    rw [through_eq hv hw]
    exact h.total hx hy
  swap := by
    rintro v w o ⟨x, hv, hx⟩ ⟨y, hw, hy⟩ ho
    rw [through_eq hv hw] at ho
    rw [through_eq hw hv]
    exact h.swap hx hy ho
  trans := by
    rintro v w u o p ⟨x, hv, hx⟩ ⟨y, hw, hy⟩ ⟨z, hu, hz⟩ h₁ h₂ ho hp
    rw [through_eq hv hw] at h₁
    rw [through_eq hw hu] at h₂
    rw [through_eq hv hu]
    exact h.trans hx hy hz h₁ h₂ ho hp

theorem Coherent.through (h : Coherent S eq cmp) :
    Coherent (Through parts S) (through parts eq) (through parts cmp) := by
  rintro v w ⟨x, hv, hx⟩ ⟨y, hw, hy⟩
  rw [through_eq hv hw, through_eq hv hw]
  exact h x y hx hy

theorem feeds_through (hv : parts v = some x) :
    Feeds (feedThrough parts feed) v fs ↔ Feeds feed x fs := by
  unfold Feeds
  simp only [feedThrough_eq hv]

theorem FeedOn.through (h : FeedOn S eq feed) :
    FeedOn (Through parts S) (through parts eq) (feedThrough parts feed) where
  appends := by
    rintro v ⟨x, hv, hx⟩
    obtain ⟨fs, hfs⟩ := h.appends hx
    exact ⟨fs, (feeds_through hv).mpr hfs⟩
  respects := by
    rintro v w ⟨x, hv, hx⟩ ⟨y, hw, hy⟩ heq s
    rw [through_eq hv hw] at heq
    rw [feedThrough_eq hv, feedThrough_eq hw]
    exact h.respects hx hy heq s

theorem Delimited.through (h : Delimited S feed) :
    Delimited (Through parts S) (feedThrough parts feed) where
  appends := by
    rintro v ⟨x, hv, hx⟩
    obtain ⟨fs, hfs⟩ := h.appends hx
    exact ⟨fs, (feeds_through hv).mpr hfs⟩
  alone := by
    rintro v w fs gs t u ⟨x, hv, hx⟩ ⟨y, hw, hy⟩ hfs hgs
    exact h.alone hx hy ((feeds_through hv).mp hfs) ((feeds_through hw).mp hgs)

end

/-! ## A frame before the parts -/

section
variable {S : α → Prop} {eq : α → α → Option Bool} {feed : α → List φ → Option (List φ)}

theorem feeds_tagged {tag : φ} (h : Feeds feed x fs) :
    Feeds (fun x s => feed x (tag :: s)) x (tag :: fs) := by
  intro s
  show feed x (tag :: s) = _
  rw [h (tag :: s), reverse_cons, append_assoc]
  rfl

theorem feeds_of_tagged {tag : φ} (hx : ∃ fs, Feeds feed x fs)
    (h : Feeds (fun x s => feed x (tag :: s)) x fs) : ∃ gs, fs = tag :: gs ∧ Feeds feed x gs := by
  obtain ⟨gs, hgs⟩ := hx
  exact ⟨gs, h.unique (feeds_tagged hgs), hgs⟩

theorem FeedOn.tagged (h : FeedOn S eq feed) (tag : φ) :
    FeedOn S eq fun x s => feed x (tag :: s) where
  appends := by
    intro x hx
    obtain ⟨fs, hfs⟩ := h.appends hx
    exact ⟨_, feeds_tagged hfs⟩
  respects := fun hx hy heq s => h.respects hx hy heq (tag :: s)

theorem Delimited.tagged (h : Delimited S feed) (tag : φ) :
    Delimited S fun x s => feed x (tag :: s) where
  appends := by
    intro x hx
    obtain ⟨fs, hfs⟩ := h.appends hx
    exact ⟨_, feeds_tagged hfs⟩
  alone := by
    intro x y fs gs t u hx hy hfs hgs happend
    obtain ⟨fs, rfl, hfs'⟩ := feeds_of_tagged (h.appends hx) hfs
    obtain ⟨gs, rfl, hgs'⟩ := feeds_of_tagged (h.appends hy) hgs
    rw [h.alone hx hy hfs' hgs' (cons.inj happend).2]

end

/-! ## Products, part by part -/

/-- The first part that decides. -/
def andAlso : Option Bool → Option Bool → Option Bool
  | some true, rest => rest
  | o, _ => o

def andThen : Option Ordering → Option Ordering → Option Ordering
  | some .eq, rest => rest
  | o, _ => o

theorem andAlso_eq_true {a b : Option Bool} :
    andAlso a b = some true ↔ a = some true ∧ b = some true := by
  rcases a with _ | _ | _ <;> simp [andAlso]

variable {a b : Option Ordering}

theorem andThen_eq_eq : andThen a b = some .eq ↔ a = some .eq ∧ b = some .eq := by
  rcases a with _ | _ | _ | _ <;> simp [andThen]

variable {o : Ordering}

theorem andThen_eq_some : andThen a b = some o ↔
    a = some .eq ∧ b = some o ∨ a = some o ∧ o ≠ .eq := by
  rcases a with _ | _ | _ | _ <;> simp [andThen] <;> (rintro rfl; simp)

def eqAll : List (α → α → Option Bool) → List α → List α → Option Bool
  | [], [], [] => some true
  | d :: ds, x :: xs, y :: ys => andAlso (d x y) (eqAll ds xs ys)
  | _, _, _ => none

def cmpAll : List (α → α → Option Ordering) → List α → List α → Option Ordering
  | [], [], [] => some .eq
  | d :: ds, x :: xs, y :: ys => andThen (d x y) (cmpAll ds xs ys)
  | _, _, _ => none

def feedAll : List (α → List φ → Option (List φ)) → List α → List φ → Option (List φ)
  | [], [], s => some s
  | h :: hs, x :: xs, s => (h x s).bind fun s => feedAll hs xs s
  | _, _, _ => none

/-- Each part is in the set at its position. -/
def InAll (Ss : List (α → Prop)) (xs : List α) : Prop := List.Forall₂ (fun S x => S x) Ss xs

section
variable {Ss : List (α → Prop)} {S : α → Prop}

theorem inAll_nil : InAll [] xs ↔ xs = [] := forall₂_nil_left_iff

theorem inAll_cons : InAll (S :: Ss) xs ↔ ∃ y ys, S y ∧ InAll Ss ys ∧ xs = y :: ys := by
  unfold InAll
  rw [forall₂_cons_left_iff]

theorem InAll.imp {Ss Ss' : List (α → Prop)} (h : List.Forall₂ (fun S S' => ∀ x, S x → S' x) Ss Ss')
    (hxs : InAll Ss xs) : InAll Ss' xs := by
  induction h generalizing xs with
  | nil => exact hxs
  | cons hS _ ih =>
    obtain ⟨x, xs, hx, hrest, rfl⟩ := inAll_cons.mp hxs
    exact inAll_cons.mpr ⟨x, xs, hS x hx, ih hrest, rfl⟩

theorem eqOn_all {ds : List (α → α → Option Bool)} (h : List.Forall₂ EqOn Ss ds) :
    EqOn (InAll Ss) (eqAll ds) := by
  induction h with
  | nil =>
    have hnil : ∀ {xs : List α}, InAll [] xs → xs = [] := inAll_nil.mp
    refine ⟨?_, ?_, ?_, ?_⟩
    · intro xs ys hx hy
      rw [hnil hx, hnil hy]
      exact ⟨true, rfl⟩
    · intro xs hx
      rw [hnil hx]
      rfl
    · intro xs ys hx hy _
      rw [hnil hx, hnil hy]
      rfl
    · intro xs ys zs hx hy hz _ _
      rw [hnil hx, hnil hz]
      rfl
  | @cons S d Ss ds hd hds ih =>
    refine ⟨?_, ?_, ?_, ?_⟩
    · intro X Y hX hY
      obtain ⟨x, xs, hx, hxs, rfl⟩ := inAll_cons.mp hX
      obtain ⟨y, ys, hy, hys, rfl⟩ := inAll_cons.mp hY
      obtain ⟨b, hb⟩ := hd.total hx hy
      obtain ⟨c, hc⟩ := ih.total hxs hys
      rw [eqAll, hb, hc]
      cases b with
      | true => exact ⟨c, rfl⟩
      | false => exact ⟨false, rfl⟩
    · intro X hX
      obtain ⟨x, xs, hx, hxs, rfl⟩ := inAll_cons.mp hX
      exact andAlso_eq_true.mpr ⟨hd.refl hx, ih.refl hxs⟩
    · intro X Y hX hY heq
      obtain ⟨x, xs, hx, hxs, rfl⟩ := inAll_cons.mp hX
      obtain ⟨y, ys, hy, hys, rfl⟩ := inAll_cons.mp hY
      obtain ⟨h₁, h₂⟩ := andAlso_eq_true.mp heq
      exact andAlso_eq_true.mpr ⟨hd.symm hx hy h₁, ih.symm hxs hys h₂⟩
    · intro X Y Z hX hY hZ heq heq'
      obtain ⟨x, xs, hx, hxs, rfl⟩ := inAll_cons.mp hX
      obtain ⟨y, ys, hy, hys, rfl⟩ := inAll_cons.mp hY
      obtain ⟨z, zs, hz, hzs, rfl⟩ := inAll_cons.mp hZ
      obtain ⟨h₁, h₂⟩ := andAlso_eq_true.mp heq
      obtain ⟨h₃, h₄⟩ := andAlso_eq_true.mp heq'
      exact andAlso_eq_true.mpr ⟨hd.trans hx hy hz h₁ h₃, ih.trans hxs hys hzs h₂ h₄⟩

/-- One part after another: what `andThen` makes of two orders. -/
theorem andThen_swap {a b a' b' : Option Ordering} (ha : ∀ o, a = some o → a' = some o.swap)
    (hb : ∀ o, b = some o → b' = some o.swap) (h : andThen a b = some o) :
    andThen a' b' = some o.swap := by
  rcases andThen_eq_some.mp h with ⟨h₁, h₂⟩ | ⟨h₁, h₂⟩
  · rw [ha _ h₁]
    exact hb _ h₂
  · refine andThen_eq_some.mpr (.inr ⟨ha _ h₁, ?_⟩)
    cases o with
    | eq => exact absurd rfl h₂
    | lt => exact nofun
    | gt => exact nofun

theorem andThen_then {a b c a' b' c' : Option Ordering} {o p : Ordering}
    (hc : ∀ o p, a = some o → b = some p → o ≠ .gt → p ≠ .gt → c = some (o.then p))
    (hc' : ∀ o p, a' = some o → b' = some p → o ≠ .gt → p ≠ .gt → c' = some (o.then p))
    (h : andThen a a' = some o) (h' : andThen b b' = some p) (ho : o ≠ .gt) (hp : p ≠ .gt) :
    andThen c c' = some (o.then p) := by
  rcases andThen_eq_some.mp h with ⟨h₁, h₂⟩ | ⟨h₁, h₂⟩ <;>
    rcases andThen_eq_some.mp h' with ⟨h₃, h₄⟩ | ⟨h₃, h₄⟩
  · rw [hc _ _ h₁ h₃ (by decide) (by decide)]
    exact hc' _ _ h₂ h₄ ho hp
  · -- the first part goes up at the second step
    refine andThen_eq_some.mpr (.inr ⟨?_, ?_⟩)
    · rw [hc _ _ h₁ h₃ (by decide) hp]
      cases o with
      | gt => exact absurd rfl ho
      | eq => rfl
      | lt =>
        cases p with
        | gt => exact absurd rfl hp
        | eq => exact absurd rfl h₄
        | lt => rfl
    · cases o with
      | gt => exact absurd rfl ho
      | eq => exact h₄
      | lt => exact nofun
  · refine andThen_eq_some.mpr (.inr ⟨?_, ?_⟩)
    · rw [hc _ _ h₁ h₃ ho (by decide)]
      cases o with
      | gt => exact absurd rfl ho
      | eq => exact absurd rfl h₂
      | lt => rfl
    · cases o with
      | gt => exact absurd rfl ho
      | eq => exact absurd rfl h₂
      | lt => exact nofun
  · refine andThen_eq_some.mpr (.inr ⟨hc _ _ h₁ h₃ ho hp, ?_⟩)
    cases o with
    | gt => exact absurd rfl ho
    | eq => exact absurd rfl h₂
    | lt => exact nofun

variable {ds : List (α → α → Option Ordering)}

theorem ordOn_all (h : List.Forall₂ OrdOn Ss ds) : OrdOn (InAll Ss) (cmpAll ds) := by
  induction h with
  | nil =>
    have hnil : ∀ {xs : List α}, InAll [] xs → xs = [] := inAll_nil.mp
    refine OrdOn.ofThen ?_ ?_ ?_
    · intro X Y hX hY
      rw [hnil hX, hnil hY]
      exact ⟨.eq, rfl⟩
    · intro X Y o hX hY ho
      rw [hnil hX, hnil hY] at ho ⊢
      cases ho
      rfl
    · intro X Y Z o p hX hY hZ ho hp _ _
      rw [hnil hX, hnil hY] at ho
      rw [hnil hY, hnil hZ] at hp
      rw [hnil hX, hnil hZ]
      cases ho
      cases hp
      rfl
  | @cons S d Ss ds hd hds ih =>
    refine OrdOn.ofThen ?_ ?_ ?_
    · intro X Y hX hY
      obtain ⟨x, xs, hx, hxs, rfl⟩ := inAll_cons.mp hX
      obtain ⟨y, ys, hy, hys, rfl⟩ := inAll_cons.mp hY
      obtain ⟨o, ho⟩ := hd.total hx hy
      obtain ⟨p, hp⟩ := ih.total hxs hys
      rw [cmpAll, ho, hp]
      cases o with
      | eq => exact ⟨p, rfl⟩
      | lt => exact ⟨.lt, rfl⟩
      | gt => exact ⟨.gt, rfl⟩
    · intro X Y o hX hY ho
      obtain ⟨x, xs, hx, hxs, rfl⟩ := inAll_cons.mp hX
      obtain ⟨y, ys, hy, hys, rfl⟩ := inAll_cons.mp hY
      exact andThen_swap (fun _ => hd.swap hx hy) (fun _ => ih.swap hxs hys) ho
    · intro X Y Z o p hX hY hZ ho hp ho' hp'
      obtain ⟨x, xs, hx, hxs, rfl⟩ := inAll_cons.mp hX
      obtain ⟨y, ys, hy, hys, rfl⟩ := inAll_cons.mp hY
      obtain ⟨z, zs, hz, hzs, rfl⟩ := inAll_cons.mp hZ
      exact andThen_then (fun _ _ => hd.then hx hy hz) (fun _ _ => ih.then hxs hys hzs) ho hp ho'
        hp'

/-- The parts are equal, one by one. -/
def EqualAll (ds : List (α → α → Option Ordering)) (xs ys : List α) : Prop :=
  xs.length = ys.length ∧ List.Forall₂ (fun d p => d p.1 p.2 = some .eq) ds (xs.zip ys)

theorem equalAll_cons {d : α → α → Option Ordering} {y : α} {ys : List α} :
    EqualAll (d :: ds) (x :: xs) (y :: ys) ↔ d x y = some .eq ∧ EqualAll ds xs ys := by
  unfold EqualAll
  rw [zip_cons_cons, forall₂_cons, length_cons, length_cons, Nat.succ_inj]
  tauto

/-- What comes after equal parts decides. -/
theorem cmpAll_append {ds₁ ds₂ : List (α → α → Option Ordering)} {xs₁ xs₂ ys₁ ys₂ : List α}
    (h : EqualAll ds₁ xs₁ ys₁) :
    cmpAll (ds₁ ++ ds₂) (xs₁ ++ xs₂) (ys₁ ++ ys₂) = cmpAll ds₂ xs₂ ys₂ := by
  induction ds₁ generalizing xs₁ ys₁ with
  | nil =>
    have hzip := forall₂_nil_left_iff.mp h.2
    have hlen := congrArg List.length hzip
    rw [length_zip, ← h.1, Nat.min_self, length_nil] at hlen
    have hxs := length_eq_zero_iff.mp hlen
    have hys := length_eq_zero_iff.mp (h.1 ▸ hlen)
    rw [hxs, hys]
    rfl
  | cons d ds ih =>
    match xs₁, ys₁, h with
    | [], [], h => cases h.2
    | [], _ :: _, h => cases h.1
    | _ :: _, [], h => cases h.1
    | x :: xs, y :: ys, h =>
      obtain ⟨hd, hrest⟩ := equalAll_cons.mp h
      rw [cons_append, cons_append, cons_append, cmpAll, hd]
      exact ih hrest

variable {ms : List (Methods α φ)}

theorem coherent_all (h : List.Forall₂ (fun S m => Coherent S m.eq m.compare) Ss ms) :
    Coherent (InAll Ss) (eqAll (ms.map Methods.eq)) (cmpAll (ms.map Methods.compare)) := by
  induction h with
  | nil =>
    intro X Y hX hY
    rw [inAll_nil.mp hX, inAll_nil.mp hY]
    exact iff_of_true rfl rfl
  | @cons S m Ss ms hm hms ih =>
    intro X Y hX hY
    obtain ⟨x, xs, hx, hxs, rfl⟩ := inAll_cons.mp hX
    obtain ⟨y, ys, hy, hys, rfl⟩ := inAll_cons.mp hY
    show andThen (m.compare x y) _ = some .eq ↔ andAlso (m.eq x y) _ = some true
    rw [andThen_eq_eq, andAlso_eq_true, hm x y hx hy, ih xs ys hxs hys]

variable {f : α → List φ → Option (List φ)} {hs : List (α → List φ → Option (List φ))}

theorem feeds_cons {gs : List φ} (hf : Feeds f x fs) (hg : Feeds (feedAll hs) xs gs) :
    Feeds (feedAll (f :: hs)) (x :: xs) (fs ++ gs) := by
  intro s
  show (f x s).bind _ = _
  rw [hf s, Option.bind_some, hg, reverse_append, append_assoc]

theorem feeds_of_cons (hx : ∃ fs, Feeds f x fs) (hxs : ∃ fs, Feeds (feedAll hs) xs fs)
    (h : Feeds (feedAll (f :: hs)) (x :: xs) fs) :
    ∃ f₁ f₂, fs = f₁ ++ f₂ ∧ Feeds f x f₁ ∧ Feeds (feedAll hs) xs f₂ := by
  obtain ⟨f₁, hf₁⟩ := hx
  obtain ⟨f₂, hf₂⟩ := hxs
  exact ⟨f₁, f₂, h.unique (feeds_cons hf₁ hf₂), hf₁, hf₂⟩

theorem feedOn_all (h : List.Forall₂ (fun S m => FeedOn S m.eq m.feed) Ss ms) :
    FeedOn (InAll Ss) (eqAll (ms.map Methods.eq)) (feedAll (ms.map Methods.feed)) := by
  induction h with
  | nil =>
    refine ⟨?_, ?_⟩
    · intro X hX
      rw [inAll_nil.mp hX]
      exact ⟨[], fun s => rfl⟩
    · intro X Y hX hY _ s
      rw [inAll_nil.mp hX, inAll_nil.mp hY]
  | @cons S m Ss ms hm hms ih =>
    refine ⟨?_, ?_⟩
    · intro X hX
      obtain ⟨x, xs, hx, hxs, rfl⟩ := inAll_cons.mp hX
      obtain ⟨fs, hfs⟩ := hm.appends hx
      obtain ⟨gs, hgs⟩ := ih.appends hxs
      exact ⟨_, feeds_cons hfs hgs⟩
    · intro X Y hX hY heq s
      obtain ⟨x, xs, hx, hxs, rfl⟩ := inAll_cons.mp hX
      obtain ⟨y, ys, hy, hys, rfl⟩ := inAll_cons.mp hY
      obtain ⟨h₁, h₂⟩ := andAlso_eq_true.mp heq
      show (m.feed x s).bind _ = (m.feed y s).bind _
      rw [hm.respects hx hy h₁ s]
      congr 1
      funext s'
      exact ih.respects hxs hys h₂ s'

/-- The parts of two values feed the same frames, one by one. -/
def FeedAlike (ms : List (Methods α φ)) (xs ys : List α) : Prop :=
  List.Forall₂ (fun m p => ∃ fs, Feeds m.feed p.1 fs ∧ Feeds m.feed p.2 fs) ms (xs.zip ys)

theorem delimited_all (h : List.Forall₂ (fun S m => Delimited S m.feed) Ss ms) :
    Delimited (InAll Ss) (feedAll (ms.map Methods.feed)) ∧
      ∀ {xs ys fs gs t u}, InAll Ss xs → InAll Ss ys → Feeds (feedAll (ms.map Methods.feed)) xs fs →
        Feeds (feedAll (ms.map Methods.feed)) ys gs → fs ++ t = gs ++ u → FeedAlike ms xs ys := by
  induction h with
  | nil =>
    refine ⟨⟨?_, ?_⟩, ?_⟩
    · intro X hX
      rw [inAll_nil.mp hX]
      exact ⟨[], fun s => rfl⟩
    · intro X Y fs gs t u hX hY hfs hgs _
      rw [inAll_nil.mp hX] at hfs
      rw [inAll_nil.mp hY] at hgs
      exact hfs.unique hgs
    · intro X Y fs gs t u hX hY _ _ _
      rw [inAll_nil.mp hX, inAll_nil.mp hY]
      exact .nil
  | @cons S m Ss ms hm hms ih =>
    obtain ⟨hall, halike⟩ := ih
    have happends : ∀ {X}, InAll (S :: Ss) X → ∃ fs, Feeds (feedAll ((m :: ms).map Methods.feed)) X
        fs := by
      intro X hX
      obtain ⟨x, xs, hx, hxs, rfl⟩ := inAll_cons.mp hX
      obtain ⟨fs, hfs⟩ := hm.appends hx
      obtain ⟨gs, hgs⟩ := hall.appends hxs
      exact ⟨_, feeds_cons hfs hgs⟩
    -- Two streams that agree: the first parts end together, and so do the rest.
    have hsplit : ∀ {x xs y ys fs gs t u}, S x → InAll Ss xs → S y → InAll Ss ys →
        Feeds (feedAll ((m :: ms).map Methods.feed)) (x :: xs) fs →
        Feeds (feedAll ((m :: ms).map Methods.feed)) (y :: ys) gs → fs ++ t = gs ++ u →
        ∃ f₁ f₂ g₂, fs = f₁ ++ f₂ ∧ gs = f₁ ++ g₂ ∧ Feeds m.feed x f₁ ∧ Feeds m.feed y f₁ ∧
          Feeds (feedAll (ms.map Methods.feed)) xs f₂ ∧
          Feeds (feedAll (ms.map Methods.feed)) ys g₂ ∧ f₂ ++ t = g₂ ++ u := by
      intro x xs y ys fs gs t u hx hxs hy hys hfs hgs happend
      obtain ⟨f₁, f₂, rfl, hf₁, hf₂⟩ := feeds_of_cons (hm.appends hx) (hall.appends hxs) hfs
      obtain ⟨g₁, g₂, rfl, hg₁, hg₂⟩ := feeds_of_cons (hm.appends hy) (hall.appends hys) hgs
      rw [append_assoc, append_assoc] at happend
      obtain rfl := hm.alone hx hy hf₁ hg₁ happend
      exact ⟨f₁, f₂, g₂, rfl, rfl, hf₁, hg₁, hf₂, hg₂, append_cancel_left happend⟩
    refine ⟨⟨happends, ?_⟩, ?_⟩
    · intro X Y fs gs t u hX hY hfs hgs happend
      obtain ⟨x, xs, hx, hxs, rfl⟩ := inAll_cons.mp hX
      obtain ⟨y, ys, hy, hys, rfl⟩ := inAll_cons.mp hY
      obtain ⟨f₁, f₂, g₂, rfl, rfl, -, -, hf₂, hg₂, hrest⟩ := hsplit hx hxs hy hys hfs hgs happend
      rw [hall.alone hxs hys hf₂ hg₂ hrest]
    · intro X Y fs gs t u hX hY hfs hgs happend
      obtain ⟨x, xs, hx, hxs, rfl⟩ := inAll_cons.mp hX
      obtain ⟨y, ys, hy, hys, rfl⟩ := inAll_cons.mp hY
      obtain ⟨f₁, f₂, g₂, rfl, rfl, hf₁, hg₁, hf₂, hg₂, hrest⟩ :=
        hsplit hx hxs hy hys hfs hgs happend
      exact .cons ⟨f₁, hf₁, hg₁⟩ (halike hxs hys hf₂ hg₂ hrest)

end

end Ridge.Comparisons
