import Ridge.Lib.Comparisons
import Ridge.Lib.KeyedList

/-!
# Lawful comparisons of lists and sums

The laws pass from elements to lists, from branches to a sum compared by its index first, and to a
product whose parts are fed in the order of their keys.
-/

namespace Ridge.Comparisons

open List Option

variable {α φ : Type*} {es : Nat → α → α → Option Bool} {xs : List α}
    {cs : Nat → α → α → Option Ordering}

/-! ## Parts in the order of their keys -/

section
variable {κ γ δ : Type*} [LinearOrder κ]

/-- The list, its elements in the order of their keys. -/
def arrange (ks : List κ) (l : List γ) : List γ := (KeyedList.sort (ks.zip l)).map Prod.snd

theorem arrange_map (f : γ → δ) (ks : List κ) (l : List γ) :
    arrange ks (l.map f) = (arrange ks l).map f := by
  have hsort := List.map_insertionSort (fun a b : κ × γ => a.1 ≤ b.1)
    (fun a b : κ × δ => a.1 ≤ b.1) (Prod.map id f) (ks.zip l) fun _ _ _ _ => Iff.rfl
  unfold arrange KeyedList.sort
  rw [List.zip_map_right, ← hsort, List.map_map, List.map_map]
  rfl

variable {ks : List κ} {l : List γ}

theorem length_arrange (h : ks.length = l.length) : (arrange ks l).length = l.length := by
  unfold arrange KeyedList.sort
  rw [length_map, length_insertionSort, length_zip, h, Nat.min_self]

variable {as : List γ} {bs : List δ}

theorem arrange_zip (h : as.length = bs.length) :
    arrange ks (as.zip bs) = (arrange ks as).zip (arrange ks bs) := by
  have hfst := arrange_map Prod.fst ks (as.zip bs)
  have hsnd := arrange_map Prod.snd ks (as.zip bs)
  rw [map_fst_zip h.le] at hfst
  rw [map_snd_zip h.ge] at hsnd
  rw [hfst, hsnd]
  exact zip_of_prod rfl rfl

variable {a : γ}

theorem mem_of_mem_arrange (h : a ∈ arrange ks l) : a ∈ l := by
  obtain ⟨p, hp, rfl⟩ := mem_map.mp h
  exact (of_mem_zip (KeyedList.mem_sort.mp hp)).2

theorem mem_arrange (h : ks.length = l.length) : a ∈ arrange ks l ↔ a ∈ l := by
  refine ⟨mem_of_mem_arrange, fun ha => ?_⟩
  rw [← map_snd_zip h.ge] at ha
  obtain ⟨p, hp, rfl⟩ := mem_map.mp ha
  exact mem_map.mpr ⟨p, KeyedList.mem_sort.mpr hp, rfl⟩

/-- The list in the order of its keys, if it has keys. -/
def canonical (ks : Option (List κ)) (l : List γ) : List γ :=
  match ks with
  | none => l
  | some ks => arrange ks l

/-- The keys, if there are any, are as many as the parts. -/
def Keys (ks : Option (List κ)) (n : Nat) : Prop := ∀ l, ks = some l → l.length = n

variable {ks : Option (List κ)}

theorem canonical_map (f : γ → δ) (l : List γ) :
    canonical ks (l.map f) = (canonical ks l).map f := by
  cases ks with
  | none => rfl
  | some ks => exact arrange_map f ks l

theorem length_canonical (h : Keys ks l.length) : (canonical ks l).length = l.length := by
  cases ks with
  | none => rfl
  | some ks => exact length_arrange (h ks rfl)

theorem canonical_zip (h : as.length = bs.length) :
    canonical ks (as.zip bs) = (canonical ks as).zip (canonical ks bs) := by
  cases ks with
  | none => rfl
  | some ks => exact arrange_zip h

theorem mem_canonical (h : Keys ks l.length) : a ∈ canonical ks l ↔ a ∈ l := by
  cases ks with
  | none => exact Iff.rfl
  | some ks => exact mem_arrange (h ks rfl)

theorem canonical_forall₂ {R : γ → δ → Prop} (hks : Keys ks as.length)
    (hlen : as.length = bs.length) :
    List.Forall₂ R (canonical ks as) (canonical ks bs) ↔ List.Forall₂ R as bs := by
  rw [forall₂_iff_zip, forall₂_iff_zip, ← canonical_zip hlen]
  have hks' : Keys ks (as.zip bs).length := by
    rw [length_zip, ← hlen, Nat.min_self]
    exact hks
  rw [length_canonical hks, length_canonical (hlen ▸ hks)]
  simp only [mem_canonical hks']

theorem eqAll_eq_true {es : List (α → α → Option Bool)} {ys : List α} :
    eqAll es xs ys = some true ↔ xs.length = ys.length ∧
      List.Forall₂ (fun e p => e p.1 p.2 = some true) es (xs.zip ys) := by
  induction es generalizing xs ys with
  | nil =>
    match xs, ys with
    | [], [] => simp [eqAll]
    | [], _ :: _ => simp [eqAll]
    | _ :: _, [] => simp [eqAll]
    | _ :: _, _ :: _ => simp [eqAll]
  | cons e es ih =>
    match xs, ys with
    | [], [] => simp [eqAll]
    | [], _ :: _ => simp [eqAll]
    | _ :: _, [] => simp [eqAll]
    | x :: xs, y :: ys =>
      rw [eqAll, andAlso_eq_true, ih, zip_cons_cons, forall₂_cons, length_cons,
        length_cons, Nat.succ_inj]
      tauto

/-! ### Feeding the parts in the order of their keys -/

variable {Ss : List (α → Prop)} {ms : List (Methods α φ)}

/-- Feed the parts in the order of their keys. -/
def feedParts (ks : Option (List κ)) (ms : List (Methods α φ)) (xs : List α) (s : List φ) :
    Option (List φ) :=
  feedAll ((canonical ks ms).map Methods.feed) (canonical ks xs) s

theorem inAll_canonical (hks : Keys ks Ss.length) (h : InAll Ss xs) :
    InAll (canonical ks Ss) (canonical ks xs) :=
  (canonical_forall₂ hks h.length_eq).mpr h

theorem feedOn_parts (hks : Keys ks Ss.length)
    (h : List.Forall₂ (fun S m => FeedOn S m.eq m.feed) Ss ms) :
    FeedOn (InAll Ss) (eqAll (ms.map Methods.eq)) (feedParts ks ms) := by
  have hlen := h.length_eq
  have hall := feedOn_all ((canonical_forall₂ hks hlen).mpr h)
  refine ⟨fun hX => hall.appends (inAll_canonical hks hX), fun {X Y} hX hY heq s => ?_⟩
  refine hall.respects (inAll_canonical hks hX) (inAll_canonical hks hY) ?_ s
  obtain ⟨hXY, hparts⟩ := eqAll_eq_true.mp heq
  have hX' : Keys ks X.length := hX.length_eq ▸ hks
  have hzip : (ms.map Methods.eq).length = (X.zip Y).length := hparts.length_eq
  rw [eqAll_eq_true, length_canonical hX', length_canonical (hXY ▸ hX'), ← canonical_map,
    ← canonical_zip hXY]
  refine ⟨hXY, (canonical_forall₂ ?_ hzip).mpr hparts⟩
  rw [length_map, ← hlen]
  exact hks

theorem delimited_parts (hks : Keys ks Ss.length)
    (h : List.Forall₂ (fun S m => Delimited S m.feed) Ss ms) :
    Delimited (InAll Ss) (feedParts ks ms) ∧
      ∀ {xs ys fs gs t u}, InAll Ss xs → InAll Ss ys → Feeds (feedParts ks ms) xs fs →
        Feeds (feedParts ks ms) ys gs → fs ++ t = gs ++ u → FeedAlike ms xs ys := by
  have hlen := h.length_eq
  obtain ⟨hall, halike⟩ := delimited_all ((canonical_forall₂ hks hlen).mpr h)
  refine ⟨⟨fun hX => hall.appends (inAll_canonical hks hX), fun hX hY =>
    hall.alone (inAll_canonical hks hX) (inAll_canonical hks hY)⟩, ?_⟩
  intro X Y fs gs t u hX hY hfs hgs happend
  have hparts := halike (inAll_canonical hks hX) (inAll_canonical hks hY) hfs hgs happend
  have hXY : X.length = Y.length := hX.length_eq.symm.trans hY.length_eq
  unfold FeedAlike at hparts
  rw [← canonical_zip hXY] at hparts
  refine (canonical_forall₂ (hlen ▸ hks) ?_).mp hparts
  rw [length_zip, ← hXY, Nat.min_self, ← hlen, hX.length_eq]

end

/-! ## Lists -/

section
variable {S : α → Prop} {m : Methods α φ} {eq : α → α → Option Bool}
  {cmp : α → α → Option Ordering} {feed : α → List φ → Option (List φ)}

def eqList (eq : α → α → Option Bool) : List α → List α → Option Bool
  | [], [] => some true
  | [], _ :: _ => some false
  | _ :: _, [] => some false
  | x :: xs, y :: ys => andAlso (eq x y) (eqList eq xs ys)

def cmpList (cmp : α → α → Option Ordering) : List α → List α → Option Ordering
  | [], [] => some .eq
  | [], _ :: _ => some .lt
  | _ :: _, [] => some .gt
  | x :: xs, y :: ys => andThen (cmp x y) (cmpList cmp xs ys)

/-- A frame before each element, and another at the end. -/
def feedList (nil cons : φ) (feed : α → List φ → Option (List φ)) : List α → List φ →
    Option (List φ)
  | [], s => some (nil :: s)
  | x :: xs, s => (feed x (cons :: s)).bind fun s => feedList nil cons feed xs s

/-- The lists over `S`. -/
def Each (S : α → Prop) (xs : List α) : Prop := ∀ x ∈ xs, S x

theorem each_cons {x : α} : Each S (x :: xs) ↔ S x ∧ Each S xs := by
  unfold Each
  rw [forall_mem_cons]

theorem EqOn.list (h : EqOn S eq) : EqOn (Each S) (eqList eq) where
  total := by
    intro xs
    induction xs with
    | nil =>
      intro ys _ _
      cases ys with
      | nil => exact ⟨true, rfl⟩
      | cons y ys => exact ⟨false, rfl⟩
    | cons x xs ih =>
      intro ys hxs hys
      cases ys with
      | nil => exact ⟨false, rfl⟩
      | cons y ys =>
        rw [each_cons] at hxs hys
        obtain ⟨b, hb⟩ := h.total hxs.1 hys.1
        obtain ⟨c, hc⟩ := ih hxs.2 hys.2
        rw [eqList, hb, hc]
        cases b with
        | true => exact ⟨c, rfl⟩
        | false => exact ⟨false, rfl⟩
  refl := by
    intro xs hxs
    induction xs with
    | nil => rfl
    | cons x xs ih =>
      rw [each_cons] at hxs
      exact andAlso_eq_true.mpr ⟨h.refl hxs.1, ih hxs.2⟩
  symm := by
    intro xs
    induction xs with
    | nil =>
      intro ys _ _ heq
      cases ys with
      | nil => rfl
      | cons y ys => cases heq
    | cons x xs ih =>
      intro ys hxs hys heq
      cases ys with
      | nil => cases heq
      | cons y ys =>
        rw [each_cons] at hxs hys
        obtain ⟨h₁, h₂⟩ := andAlso_eq_true.mp heq
        exact andAlso_eq_true.mpr ⟨h.symm hxs.1 hys.1 h₁, ih hxs.2 hys.2 h₂⟩
  trans := by
    intro xs
    induction xs with
    | nil =>
      intro ys zs _ _ _ h₁ h₂
      cases ys with
      | nil => exact h₂
      | cons y ys => cases h₁
    | cons x xs ih =>
      intro ys zs hxs hys hzs h₁ h₂
      match ys, zs with
      | [], _ => cases h₁
      | _ :: _, [] => cases h₂
      | y :: ys, z :: zs =>
        rw [each_cons] at hxs hys hzs
        obtain ⟨h₁, h₁'⟩ := andAlso_eq_true.mp h₁
        obtain ⟨h₂, h₂'⟩ := andAlso_eq_true.mp h₂
        exact andAlso_eq_true.mpr ⟨h.trans hxs.1 hys.1 hzs.1 h₁ h₂,
          ih hxs.2 hys.2 hzs.2 h₁' h₂'⟩

theorem OrdOn.list (h : OrdOn S cmp) : OrdOn (Each S) (cmpList cmp) := by
  refine OrdOn.ofThen ?_ ?_ ?_
  · intro xs
    induction xs with
    | nil =>
      intro ys _ _
      cases ys with
      | nil => exact ⟨.eq, rfl⟩
      | cons y ys => exact ⟨.lt, rfl⟩
    | cons x xs ih =>
      intro ys hxs hys
      cases ys with
      | nil => exact ⟨.gt, rfl⟩
      | cons y ys =>
        rw [each_cons] at hxs hys
        obtain ⟨o, ho⟩ := h.total hxs.1 hys.1
        obtain ⟨p, hp⟩ := ih hxs.2 hys.2
        rw [cmpList, ho, hp]
        cases o with
        | eq => exact ⟨p, rfl⟩
        | lt => exact ⟨.lt, rfl⟩
        | gt => exact ⟨.gt, rfl⟩
  · intro xs
    induction xs with
    | nil =>
      intro ys o _ _ ho
      cases ys <;> (cases ho; rfl)
    | cons x xs ih =>
      intro ys o hxs hys ho
      cases ys with
      | nil =>
        cases ho
        rfl
      | cons y ys =>
        rw [each_cons] at hxs hys
        exact andThen_swap (fun _ => h.swap hxs.1 hys.1) (fun _ => ih hxs.2 hys.2) ho
  · intro xs
    induction xs with
    | nil =>
      intro ys zs o p _ _ _ ho hp ho' hp'
      match ys, zs with
      | [], _ =>
        cases ho
        exact hp
      | _ :: _, [] =>
        cases hp
        exact absurd rfl hp'
      | _ :: _, _ :: _ =>
        cases ho
        rfl
    | cons x xs ih =>
      intro ys zs o p hxs hys hzs ho hp ho' hp'
      match ys, zs with
      | [], _ =>
        cases ho
        exact absurd rfl ho'
      | _ :: _, [] =>
        cases hp
        exact absurd rfl hp'
      | y :: ys, z :: zs =>
        rw [each_cons] at hxs hys hzs
        exact andThen_then (fun _ _ => h.then hxs.1 hys.1 hzs.1)
          (fun _ _ => ih hxs.2 hys.2 hzs.2) ho hp ho' hp'

theorem Coherent.list (h : Coherent S eq cmp) : Coherent (Each S) (eqList eq) (cmpList cmp) := by
  intro xs
  induction xs with
  | nil =>
    intro ys _ _
    cases ys with
    | nil => exact iff_of_true rfl rfl
    | cons y ys => exact iff_of_false nofun nofun
  | cons x xs ih =>
    intro ys hxs hys
    cases ys with
    | nil => exact iff_of_false nofun nofun
    | cons y ys =>
      rw [each_cons] at hxs hys
      rw [cmpList, eqList, andThen_eq_eq, andAlso_eq_true, h x y hxs.1 hys.1, ih ys hxs.2 hys.2]

/-- A proper beginning comes first. -/
theorem cmpList_append (h : OrdOn S cmp) (hxs : Each S xs) (y : α) (ys : List α) :
    cmpList cmp xs (xs ++ y :: ys) = some .lt := by
  induction xs with
  | nil => rfl
  | cons x xs ih =>
    rw [each_cons] at hxs
    rw [cons_append, cmpList, h.refl hxs.1]
    exact ih hxs.2

section
variable {nil cons : φ}

theorem feeds_list_nil : Feeds (feedList nil cons feed) [] [nil] := fun _ => rfl

theorem feeds_list_cons {x : α} {fs gs : List φ} (hf : Feeds feed x fs)
    (hg : Feeds (feedList nil cons feed) xs gs) :
    Feeds (feedList nil cons feed) (x :: xs) (cons :: (fs ++ gs)) := by
  intro s
  show (feed x (cons :: s)).bind _ = _
  rw [hf, bind_some, hg, reverse_cons, reverse_append]
  simp only [append_assoc, singleton_append]

theorem feeds_list (h : ∀ {x}, S x → ∃ fs, Feeds feed x fs) (hxs : Each S xs) :
    ∃ fs, Feeds (feedList nil cons feed) xs fs := by
  induction xs with
  | nil => exact ⟨_, feeds_list_nil⟩
  | cons x xs ih =>
    rw [each_cons] at hxs
    obtain ⟨fs, hfs⟩ := h hxs.1
    obtain ⟨gs, hgs⟩ := ih hxs.2
    exact ⟨_, feeds_list_cons hfs hgs⟩

theorem FeedOn.list (h : FeedOn S eq feed) :
    FeedOn (Each S) (eqList eq) (feedList nil cons feed) where
  appends := fun hxs => feeds_list h.appends hxs
  respects := by
    intro xs
    induction xs with
    | nil =>
      intro ys _ _ heq s
      cases ys with
      | nil => rfl
      | cons y ys => cases heq
    | cons x xs ih =>
      intro ys hxs hys heq s
      cases ys with
      | nil => cases heq
      | cons y ys =>
        rw [each_cons] at hxs hys
        obtain ⟨h₁, h₂⟩ := andAlso_eq_true.mp heq
        show (feed x (cons :: s)).bind _ = (feed y (cons :: s)).bind _
        rw [h.respects hxs.1 hys.1 h₁]
        congr 1
        funext s'
        exact ih hxs.2 hys.2 h₂ s'

/-- Lists whose streams agree are as long as each other, and their elements feed the same. -/
theorem delimited_list (hframes : nil ≠ cons) (h : Delimited S feed) {ys : List α}
    {fs gs t u : List φ} (hxs : Each S xs) (hys : Each S ys)
    (hfs : Feeds (feedList nil cons feed) xs fs) (hgs : Feeds (feedList nil cons feed) ys gs)
    (happend : fs ++ t = gs ++ u) : fs = gs ∧
      List.Forall₂ (fun x y => ∃ fs, Feeds feed x fs ∧ Feeds feed y fs) xs ys := by
  induction xs generalizing ys fs gs with
  | nil =>
    obtain rfl := hfs.unique feeds_list_nil
    cases ys with
    | nil => exact ⟨feeds_list_nil.unique hgs, .nil⟩
    | cons y ys =>
      rw [each_cons] at hys
      obtain ⟨g₁, hg₁⟩ := h.appends hys.1
      obtain ⟨g₂, hg₂⟩ := feeds_list h.appends hys.2
      obtain rfl := hgs.unique (feeds_list_cons hg₁ hg₂)
      exact absurd (List.cons.inj happend).1 hframes
  | cons x xs ih =>
    rw [each_cons] at hxs
    obtain ⟨f₁, hf₁⟩ := h.appends hxs.1
    obtain ⟨f₂, hf₂⟩ := feeds_list h.appends hxs.2
    obtain rfl := hfs.unique (feeds_list_cons hf₁ hf₂)
    cases ys with
    | nil =>
      obtain rfl := hgs.unique feeds_list_nil
      exact absurd (List.cons.inj happend).1.symm hframes
    | cons y ys =>
      rw [each_cons] at hys
      obtain ⟨g₁, hg₁⟩ := h.appends hys.1
      obtain ⟨g₂, hg₂⟩ := feeds_list h.appends hys.2
      obtain rfl := hgs.unique (feeds_list_cons hg₁ hg₂)
      have hrest : f₁ ++ f₂ ++ t = g₁ ++ g₂ ++ u := (List.cons.inj happend).2
      rw [append_assoc, append_assoc] at hrest
      obtain rfl := h.alone hxs.1 hys.1 hf₁ hg₁ hrest
      obtain ⟨rfl, hxys⟩ := ih hxs.2 hys.2 hf₂ hg₂ (append_cancel_left hrest)
      exact ⟨rfl, .cons ⟨f₁, hf₁, hg₁⟩ hxys⟩

theorem Delimited.list (hframes : nil ≠ cons) (h : Delimited S feed) :
    Delimited (Each S) (feedList nil cons feed) where
  appends := fun hxs => feeds_list h.appends hxs
  alone := fun hxs hys hfs hgs happend =>
    (delimited_list hframes h hxs hys hfs hgs happend).1

end

end

/-! ## Sums, by the index first -/

section
variable {Ss : Nat → α → Prop}

def eqSum (es : Nat → α → α → Option Bool) (v w : Nat × α) : Option Bool :=
  if v.1 = w.1 then es v.1 v.2 w.2 else some false

def cmpSum (cs : Nat → α → α → Option Ordering) (v w : Nat × α) : Option Ordering :=
  if v.1 = w.1 then cs v.1 v.2 w.2 else some (compare v.1 w.1)

def feedSum (fs : Nat → α → List φ → Option (List φ)) (v : Nat × α) : List φ → Option (List φ) :=
  fs v.1 v.2

def InSum (Ss : Nat → α → Prop) (v : Nat × α) : Prop := Ss v.1 v.2

theorem eqOn_sum (h : ∀ i, EqOn (Ss i) (es i)) :
    EqOn (InSum Ss) (eqSum es) where
  total := by
    rintro ⟨i, x⟩ ⟨j, y⟩ hx hy
    by_cases hij : i = j
    · subst hij
      rw [eqSum, if_pos rfl]
      exact (h i).total hx hy
    · rw [eqSum, if_neg hij]
      exact ⟨false, rfl⟩
  refl := by
    rintro ⟨i, x⟩ hx
    rw [eqSum, if_pos rfl]
    exact (h i).refl hx
  symm := by
    rintro ⟨i, x⟩ ⟨j, y⟩ hx hy heq
    by_cases hij : i = j
    · subst hij
      rw [eqSum, if_pos rfl] at heq ⊢
      exact (h i).symm hx hy heq
    · rw [eqSum, if_neg hij] at heq
      cases heq
  trans := by
    rintro ⟨i, x⟩ ⟨j, y⟩ ⟨k, z⟩ hx hy hz h₁ h₂
    by_cases hij : i = j
    · subst hij
      by_cases hik : i = k
      · subst hik
        rw [eqSum, if_pos rfl] at h₁ h₂ ⊢
        exact (h i).trans hx hy hz h₁ h₂
      · rw [eqSum, if_neg hik] at h₂
        cases h₂
    · rw [eqSum, if_neg hij] at h₁
      cases h₁

theorem ordOn_sum (h : ∀ i, OrdOn (Ss i) (cs i)) : OrdOn (InSum Ss) (cmpSum cs) := by
  -- On values of one index the order is that of the branch; else it is that of the indices.
  have hsame : ∀ {i j} {x y : α}, i = j → cmpSum cs (i, x) (j, y) = cs i x y := by
    rintro i j x y rfl
    exact if_pos rfl
  have hother : ∀ {i j} {x y : α}, i ≠ j → cmpSum cs (i, x) (j, y) = some (compare i j) :=
    fun hij => if_neg hij
  have hlt : ∀ {i j} {x y : α} {o}, i ≠ j → cmpSum cs (i, x) (j, y) = some o → o ≠ .gt →
      o = .lt ∧ i < j := by
    intro i j x y o hij ho ho'
    rw [hother hij] at ho
    obtain rfl := some.inj ho
    rcases Nat.lt_or_gt_of_ne hij with hlt | hgt
    · exact ⟨Nat.compare_eq_lt.mpr hlt, hlt⟩
    · exact absurd (Nat.compare_eq_gt.mpr hgt) ho'
  have hup : ∀ {i j} {x y : α}, i < j → cmpSum cs (i, x) (j, y) = some .lt := by
    intro i j x y hij
    rw [hother (Nat.ne_of_lt hij), Nat.compare_eq_lt.mpr hij]
  refine OrdOn.ofThen ?_ ?_ ?_
  · rintro ⟨i, x⟩ ⟨j, y⟩ hx hy
    by_cases hij : i = j
    · rw [hsame hij]
      subst hij
      exact (h i).total hx hy
    · rw [hother hij]
      exact ⟨_, rfl⟩
  · rintro ⟨i, x⟩ ⟨j, y⟩ o hx hy ho
    by_cases hij : i = j
    · subst hij
      rw [hsame rfl] at ho ⊢
      exact (h i).swap hx hy ho
    · rw [hother hij] at ho
      rw [hother (Ne.symm hij)]
      cases ho
      rw [Nat.compare_swap]
  · rintro ⟨i, x⟩ ⟨j, y⟩ ⟨k, z⟩ o p hx hy hz ho hp ho' hp'
    by_cases hij : i = j
    · subst hij
      by_cases hik : i = k
      · subst hik
        rw [hsame rfl] at ho hp ⊢
        exact (h i).then hx hy hz ho hp ho' hp'
      · obtain ⟨rfl, hlt'⟩ := hlt hik hp hp'
        rw [hup hlt']
        cases o with
        | gt => exact absurd rfl ho'
        | eq => rfl
        | lt => rfl
    · obtain ⟨rfl, hlt₁⟩ := hlt hij ho ho'
      by_cases hjk : j = k
      · subst hjk
        rw [hup hlt₁]
        rfl
      · obtain ⟨rfl, hlt₂⟩ := hlt hjk hp hp'
        rw [hup (Nat.lt_trans hlt₁ hlt₂)]
        rfl

theorem coherent_sum (h : ∀ i, Coherent (Ss i) (es i) (cs i)) :
    Coherent (InSum Ss) (eqSum es) (cmpSum cs) := by
  rintro ⟨i, x⟩ ⟨j, y⟩ hx hy
  by_cases hij : i = j
  · subst hij
    rw [cmpSum, eqSum, if_pos rfl, if_pos rfl]
    exact h i x y hx hy
  · rw [cmpSum, eqSum, if_neg hij, if_neg hij, some.injEq, compare_eq_iff_eq]
    exact iff_of_false hij nofun

variable {fs : Nat → α → List φ → Option (List φ)}

theorem feedOn_sum (h : ∀ i, FeedOn (Ss i) (es i) (fs i)) :
    FeedOn (InSum Ss) (eqSum es) (feedSum fs) where
  appends := fun {v} hv => (h v.1).appends hv
  respects := by
    rintro ⟨i, x⟩ ⟨j, y⟩ hx hy heq s
    by_cases hij : i = j
    · subst hij
      rw [eqSum, if_pos rfl] at heq
      exact (h i).respects hx hy heq s
    · rw [eqSum, if_neg hij] at heq
      cases heq

/-- A sum whose branches start with frames of their own. -/
theorem delimited_sum {tags : Nat → φ} (htags : ∀ i j, tags i = tags j → i = j)
    (h : ∀ i, Delimited (Ss i) (fs i)) :
    Delimited (InSum Ss) (feedSum fun i x s => fs i x (tags i :: s)) ∧
      ∀ {v w : Nat × α} {gs hs t u}, InSum Ss v → InSum Ss w →
        Feeds (feedSum fun i x s => fs i x (tags i :: s)) v gs →
        Feeds (feedSum fun i x s => fs i x (tags i :: s)) w hs → gs ++ t = hs ++ u → v.1 = w.1 := by
  have hindex : ∀ {v w : Nat × α} {gs hs t u}, InSum Ss v → InSum Ss w →
      Feeds (feedSum fun i x s => fs i x (tags i :: s)) v gs →
      Feeds (feedSum fun i x s => fs i x (tags i :: s)) w hs → gs ++ t = hs ++ u → v.1 = w.1 := by
    rintro ⟨i, x⟩ ⟨j, y⟩ gs hs t u hx hy hgs hhs happend
    obtain ⟨gs, rfl, -⟩ := feeds_of_tagged ((h i).appends hx) hgs
    obtain ⟨hs, rfl, -⟩ := feeds_of_tagged ((h j).appends hy) hhs
    exact htags i j (cons.inj happend).1
  refine ⟨⟨fun {v} hv => ((h v.1).tagged (tags v.1)).appends hv, ?_⟩, hindex⟩
  rintro ⟨i, x⟩ ⟨j, y⟩ gs hs t u hx hy hgs hhs happend
  obtain rfl : i = j := hindex hx hy hgs hhs happend
  exact ((h i).tagged (tags i)).alone hx hy hgs hhs happend

end

/-! ## Methods that answer more -/

/-- `m'` answers what `m` does. -/
structure Methods.Refines (m m' : Methods α φ) : Prop where
  eq : ∀ x y b, m.eq x y = some b → m'.eq x y = some b
  compare : ∀ x y o, m.compare x y = some o → m'.compare x y = some o
  feed : ∀ x s t, m.feed x s = some t → m'.feed x s = some t

section
variable {m m' : Methods α φ} {ms ms' : List (Methods α φ)}

theorem andAlso_some {a b a' b' : Option Bool} {c : Bool} (ha : ∀ c, a = some c → a' = some c)
    (hb : ∀ c, b = some c → b' = some c) (h : andAlso a b = some c) : andAlso a' b' = some c := by
  rcases a with _ | _ | _
  · cases h
  · rw [ha _ rfl]
    exact h
  · rw [ha _ rfl]
    exact hb _ h

variable {o : Ordering}

theorem andThen_some {a b a' b' : Option Ordering} (ha : ∀ o, a = some o → a' = some o)
    (hb : ∀ o, b = some o → b' = some o) (h : andThen a b = some o) : andThen a' b' = some o := by
  rcases andThen_eq_some.mp h with ⟨h₁, h₂⟩ | ⟨h₁, h₂⟩
  · exact andThen_eq_some.mpr (.inl ⟨ha _ h₁, hb _ h₂⟩)
  · exact andThen_eq_some.mpr (.inr ⟨ha _ h₁, h₂⟩)

theorem refines_all (h : List.Forall₂ Methods.Refines ms ms') :
    (∀ xs ys b, eqAll (ms.map Methods.eq) xs ys = some b →
      eqAll (ms'.map Methods.eq) xs ys = some b) ∧
    (∀ xs ys o, cmpAll (ms.map Methods.compare) xs ys = some o →
      cmpAll (ms'.map Methods.compare) xs ys = some o) ∧
    ∀ xs s t, feedAll (ms.map Methods.feed) xs s = some t →
      feedAll (ms'.map Methods.feed) xs s = some t := by
  induction h with
  | nil => exact ⟨fun _ _ _ h => h, fun _ _ _ h => h, fun _ _ _ h => h⟩
  | @cons m m' ms ms' hm _ ih =>
    obtain ⟨heq, hcmp, hfeed⟩ := ih
    refine ⟨?_, ?_, ?_⟩
    · intro xs ys b h
      match xs, ys, h with
      | [], _, h => cases h
      | _ :: _, [], h => cases h
      | x :: xs, y :: ys, h => exact andAlso_some (hm.eq x y) (heq xs ys) h
    · intro xs ys o h
      match xs, ys, h with
      | [], _, h => cases h
      | _ :: _, [], h => cases h
      | x :: xs, y :: ys, h => exact andThen_some (hm.compare x y) (hcmp xs ys) h
    · intro xs s t h
      cases xs with
      | nil => cases h
      | cons x xs =>
        obtain ⟨s', hs', hrest⟩ := bind_eq_some_iff.mp h
        exact bind_eq_some_iff.mpr ⟨s', hm.feed x s s' hs', hfeed xs s' t hrest⟩

variable {ys : List α}

theorem eqList_some (h : m.Refines m') {b : Bool} (heq : eqList m.eq xs ys = some b) :
    eqList m'.eq xs ys = some b := by
  induction xs generalizing ys b with
  | nil => cases ys <;> exact heq
  | cons x xs ih =>
    cases ys with
    | nil => exact heq
    | cons y ys => exact andAlso_some (h.eq x y) (fun _ => ih) heq

theorem cmpList_some (h : m.Refines m') (hcmp : cmpList m.compare xs ys = some o) :
    cmpList m'.compare xs ys = some o := by
  induction xs generalizing ys o with
  | nil => cases ys <;> exact hcmp
  | cons x xs ih =>
    cases ys with
    | nil => exact hcmp
    | cons y ys => exact andThen_some (h.compare x y) (fun _ => ih) hcmp

variable {s t : List φ}

theorem feedList_some {nil cons : φ} (h : m.Refines m')
    (hfeed : feedList nil cons m.feed xs s = some t) : feedList nil cons m'.feed xs s = some t := by
  induction xs generalizing s with
  | nil => exact hfeed
  | cons x xs ih =>
    obtain ⟨s', hs', hrest⟩ := bind_eq_some_iff.mp hfeed
    exact bind_eq_some_iff.mpr ⟨s', h.feed x _ s' hs', ih hrest⟩

variable {v w : Nat × α}

theorem eqSum_some {es' : Nat → α → α → Option Bool}
    (h : ∀ i x y b, es i x y = some b → es' i x y = some b) {b : Bool}
    (heq : eqSum es v w = some b) : eqSum es' v w = some b := by
  unfold eqSum at heq ⊢
  split at heq
  · next hi =>
    rw [if_pos hi]
    exact h _ _ _ _ heq
  · next hi =>
    rw [if_neg hi]
    exact heq

theorem cmpSum_some {cs' : Nat → α → α → Option Ordering}
    (h : ∀ i x y o, cs i x y = some o → cs' i x y = some o) (hcmp : cmpSum cs v w = some o) :
    cmpSum cs' v w = some o := by
  unfold cmpSum at hcmp ⊢
  split at hcmp
  · next hi =>
    rw [if_pos hi]
    exact h _ _ _ _ hcmp
  · next hi =>
    rw [if_neg hi]
    exact hcmp

theorem feedParts_some {κ : Type*} [LinearOrder κ] {ks : Option (List κ)} (hks : Keys ks ms.length)
    (h : List.Forall₂ Methods.Refines ms ms') (hfeed : feedParts ks ms xs s = some t) :
    feedParts ks ms' xs s = some t :=
  (refines_all ((canonical_forall₂ hks h.length_eq).mpr h)).2.2 _ _ _ hfeed

theorem through_some {β γ : Type*} {parts : β → Option α} {f g : α → α → Option γ}
    (h : ∀ x y c, f x y = some c → g x y = some c) {v w : β} {c : γ}
    (hc : through parts f v w = some c) : through parts g v w = some c := by
  obtain ⟨x, hx, hrest⟩ := bind_eq_some_iff.mp hc
  obtain ⟨y, hy, hf⟩ := bind_eq_some_iff.mp hrest
  rw [through_eq hx hy]
  exact h x y c hf

theorem feedThrough_some {β : Type*} {parts : β → Option α} {f g : α → List φ → Option (List φ)}
    (h : ∀ x s t, f x s = some t → g x s = some t) {v : β} (ht : feedThrough parts f v s = some t) :
    feedThrough parts g v s = some t := by
  obtain ⟨x, hx, hf⟩ := bind_eq_some_iff.mp ht
  rw [feedThrough_eq hx]
  exact h x s t hf

end

end Ridge.Comparisons
