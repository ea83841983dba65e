import Ridge.Compare.Laws

/-!
# Composed dictionaries are lawful

The dictionaries of a plan over lawful components are lawful, records and tuples compare
lexicographically, unions by the order of their declaration, and lists by their first difference.
Their hash streams keep their components apart where those of the components do.
-/

namespace Ridge.Compare

open Comparisons List Option

variable {T C H : Type}

theorem list_frames : (.composite "list.nil" 0 0 [] : Frame T) ≠ .composite "list.cons" 0 2 [] := by
  intro h
  injection h with h
  exact absurd h (by decide)

/-! ## Deeper readings -/

variable {labels : Option (List String)}

/-- A deeper reading of the dictionaries answers what a shallower one does. -/
theorem refines_structural {ms ms' : List (Dict T C)} (hkeys : Keys labels ms.length)
    (h : List.Forall₂ Methods.Refines ms ms') :
    (structuralDict labels ms).Refines (structuralDict labels ms') := by
  obtain ⟨heq, hcmp, -⟩ := refines_all h
  unfold structuralDict
  rw [h.length_eq]
  exact ⟨fun _ _ _ => through_some heq, fun _ _ _ => through_some hcmp,
    fun _ _ _ => feedThrough_some fun _ _ _ => feedParts_some hkeys h⟩

theorem refines_list {m m' : Dict T C} (h : m.Refines m') : (listDict m).Refines (listDict m') where
  eq := fun _ _ _ => through_some fun _ _ _ => eqList_some h
  compare := fun _ _ _ => through_some fun _ _ _ => cmpList_some h
  feed := by
    intro v s t hfeed
    refine feedThrough_some ?_ hfeed
    intro xs s t hxs
    exact feedList_some h hxs

theorem refines_union {vs vs' : List (Option (List String) × List (Dict T C))}
    (h : Variants Methods.Refines vs vs') : (unionDict vs).Refines (unionDict vs') := by
  have hall := fun rank => refines_all (h.at rank).2.2
  unfold unionDict
  rw [h.arities]
  refine ⟨fun _ _ _ => through_some fun _ _ _ => eqSum_some fun rank => (hall rank).1,
    fun _ _ _ => through_some fun _ _ _ => cmpSum_some fun rank => (hall rank).2.1,
    fun _ _ _ => feedThrough_some fun v s t hfeed => ?_⟩
  obtain ⟨hlabels, hkeys, hparts⟩ := h.at v.1
  show feedParts (variantAt vs' v.1).1 (variantAt vs' v.1).2 v.2
    (.composite "union" v.1 (variantAt vs' v.1).2.length (tagLabels (variantAt vs' v.1).1) :: s) = _
  rw [← hlabels, ← hparts.length_eq]
  exact feedParts_some hkeys hparts hfeed

/-! ## Laws -/

variable (S : Val T C → Prop)

variable (d : Dict T C)

def LawfulEq : Prop := EqOn S d.eq

def LawfulOrd : Prop :=
  OrdOn S d.compare ∧ Coherent S d.eq d.compare

def LawfulHash : Prop := FeedOn S d.eq d.feed

def SelfDelimiting : Prop := Delimited S d.feed

/-- Every primitive type among the components has an order. -/
def Components.Ordered (N : Components H) : Prop := ∀ p, N.prims p → p.hasOrd = true

/-- A law of the instances written by hand, and of what is passed for parameters. -/
structure Given (I : Written T C H) (N : Components H) (ρ : List (Val T C → Prop))
    (ρ' : List (Dict T C)) (R : (Val T C → Prop) → Dict T C → Prop) : Prop where
  written : ∀ i, N.written i → R (I.values i) (I.methods i)
  passed : List.Forall₂ R ρ ρ'

variable [LinearOrder T] {I : Written T C H} {shapes : TyConId → Option (ComparisonShape H)}
  {N : Components H}

theorem related_eq (h : ∀ i, N.written i → LawfulEq (I.values i) (I.methods i)) :
    (valueKit I).Related (dictKit I) N LawfulEq where
  raises := fun _ => ⟨False.elim, False.elim, False.elim, False.elim⟩
  prim := fun p _ => eqOn_prim p
  written := h
  structural := fun _ _ _ _ hs => eqOn_structural hs
  list := fun _ _ h => EqOn.list h |>.through
  union := fun _ _ hv => eqOn_union hv

theorem forall₂_and {α β : Type*} {R Q : α → β → Prop} {as : List α} {bs : List β}
    (h : List.Forall₂ (fun a b => R a b ∧ Q a b) as bs) :
    List.Forall₂ R as bs ∧ List.Forall₂ Q as bs :=
  ⟨h.imp fun _ _ h => h.1, h.imp fun _ _ h => h.2⟩

theorem Variants.imp {D D' : Type} {R Q : D → D' → Prop} (hRQ : ∀ d d', R d d' → Q d d')
    {vs : List (Option (List String) × List D)} {vs' : List (Option (List String) × List D')}
    (h : Variants R vs vs') : Variants Q vs vs' :=
  List.Forall₂.imp (fun _ _ hv => ⟨hv.1, hv.2.1, hv.2.2.imp hRQ⟩) h

theorem related_ord (hN : N.Ordered)
    (h : ∀ i, N.written i → LawfulOrd (I.values i) (I.methods i)) :
    (valueKit I).Related (dictKit I) N LawfulOrd where
  raises := fun _ => ⟨⟨False.elim, False.elim, False.elim⟩, fun _ _ => False.elim⟩
  prim := fun p hp => ⟨ordOn_prim (hN p hp), coherent_prim (hN p hp)⟩
  written := h
  structural := fun _ _ _ _ hs =>
    ⟨ordOn_structural (forall₂_and hs).1, coherent_structural (forall₂_and hs).2⟩
  list := fun _ _ h => ⟨h.1.list.through, h.2.list.through⟩
  union := fun _ _ hv =>
    ⟨ordOn_union (hv.imp fun _ _ h => h.1), coherent_union (hv.imp fun _ _ h => h.2)⟩

theorem related_hash (h : ∀ i, N.written i → LawfulHash (I.values i) (I.methods i)) :
    (valueKit I).Related (dictKit I) N LawfulHash where
  raises := fun _ => ⟨False.elim, False.elim⟩
  prim := fun p _ => feedOn_prim p
  written := h
  structural := fun _ _ _ hkeys hs => feedOn_structural hkeys hs
  list := fun _ _ h => FeedOn.list h |>.through
  union := fun _ _ hv => feedOn_union hv

theorem related_delimited (h : ∀ i, N.written i → SelfDelimiting (I.values i) (I.methods i)) :
    (valueKit I).Related (dictKit I) N SelfDelimiting where
  raises := fun _ => ⟨False.elim, False.elim⟩
  prim := fun p _ => delimited_prim p
  written := h
  structural := fun _ _ _ hkeys hs => delimited_structural hkeys hs
  list := fun _ _ h => (Delimited.list list_frames h).through
  union := fun _ _ hv => delimited_union hv

theorem related_refines : (dictKit I).Related (dictKit I) N Methods.Refines where
  raises := fun _ => ⟨nofun, nofun, nofun⟩
  prim := fun _ _ => ⟨fun _ _ _ h => h, fun _ _ _ h => h, fun _ _ _ h => h⟩
  written := fun _ _ => ⟨fun _ _ _ h => h, fun _ _ _ h => h, fun _ _ _ h => h⟩
  structural := fun _ _ _ hkeys hs => refines_structural hkeys hs
  list := fun _ _ h => refines_list h
  union := fun _ _ hv => refines_union hv

omit [LinearOrder T] in
theorem related_values :
    (valueKit I).Related (valueKit I) N fun S S' : Val T C → Prop => ∀ v, S v → S' v where
  raises := fun _ _ => False.elim
  prim := fun _ _ _ h => h
  written := fun _ _ _ h => h
  structural := by
    intro labels Ss Ss' _ hs v
    show Through (structuralParts labels Ss.length) _ v → Through (structuralParts _ Ss'.length) _ v
    rw [hs.length_eq]
    exact Through.imp fun _ => InAll.imp hs
  list := fun _ _ h _ => Through.imp fun _ hxs x hx => h x (hxs x hx)
  union := by
    intro vs vs' hv v
    show Through (variantParts (arities vs)) _ v → Through (variantParts (arities vs')) _ v
    rw [hv.arities]
    exact Through.imp fun (x : Nat × List (Val T C)) => InAll.imp (hv.at x.1).2.2

/-! ## The order of compounds -/

variable (I) (shapes) in
/-- How the dictionary of `p` orders the values of a compound type. -/
structure InOrder (n : Nat) (ρ : List (Dict T C)) (p : DictPlan H) (S : Val T C → Prop) : Prop where
  /-- Two products with equal parts up to one: that part decides. -/
  lexicographic : ∀ labels ds₁ d ds₂,
    (dictKit I).product shapes n ρ p = some (labels, ds₁ ++ d :: ds₂) → ∀ v w xs₁ x xs₂ ys₁ y ys₂ o,
      structuralParts labels (ds₁ ++ d :: ds₂).length v = some (xs₁ ++ x :: xs₂) →
      structuralParts labels (ds₁ ++ d :: ds₂).length w = some (ys₁ ++ y :: ys₂) →
      EqualAll (ds₁.map Methods.compare) xs₁ ys₁ → d.compare x y = some o → o ≠ .eq →
      (dictionary I shapes n ρ p).compare v w = some o
  equal : ∀ labels ds, (dictKit I).product shapes n ρ p = some (labels, ds) → ∀ v w xs ys,
    structuralParts labels ds.length v = some xs → structuralParts labels ds.length w = some ys →
    EqualAll (ds.map Methods.compare) xs ys → (dictionary I shapes n ρ p).compare v w = some .eq
  /-- Variants of different ranks compare by rank. -/
  ranks : ∀ vs, (dictKit I).variants shapes n ρ p = some vs → ∀ v w i xs j ys,
    variantParts (arities vs) v = some (i, xs) → variantParts (arities vs) w = some (j, ys) →
    i ≠ j → (dictionary I shapes n ρ p).compare v w = some (compare i j)
  /-- A list is smaller than one it begins. -/
  beginnings : ∀ d, (dictKit I).element shapes n ρ p = some d → ∀ xs y ys, S (.list xs) →
    S (.list (xs ++ y :: ys)) →
    (dictionary I shapes n ρ p).compare (.list xs) (.list (xs ++ y :: ys)) = some .lt

theorem inOrder {n : Nat} {ρ : List (Dict T C)} {p : DictPlan H} {S : Val T C → Prop}
    (helem : ∀ d, (dictKit I).element shapes n ρ p = some d → ∀ xs, S (.list xs) →
      ∃ S' : Val T C → Prop, OrdOn S' d.compare ∧ Each S' xs) : InOrder I shapes n ρ p S where
  lexicographic := by
    intro labels ds₁ d ds₂ hp v w xs₁ x xs₂ ys₁ y ys₂ o hv hw heq hd ho
    rw [dictionary, Kit.read_product hp]
    show through _ _ v w = some o
    rw [through_eq hv hw, map_append, map_cons, cmpAll_append heq]
    exact andThen_eq_some.mpr (.inr ⟨hd, ho⟩)
  equal := by
    intro labels ds hp v w xs ys hv hw heq
    rw [dictionary, Kit.read_product hp]
    show through _ _ v w = some Ordering.eq
    have hall := @cmpAll_append _ _ [] xs [] ys [] heq
    rw [append_nil, append_nil, append_nil] at hall
    rw [through_eq hv hw, hall]
    rfl
  ranks := by
    intro vs hp v w i xs j ys hv hw hij
    rw [dictionary, Kit.read_variants hp]
    show through _ _ v w = _
    rw [through_eq hv hw]
    exact if_neg hij
  beginnings := by
    intro d hp xs y ys hxs _
    obtain ⟨S', hord, heach⟩ := helem d hp xs hxs
    rw [dictionary, Kit.read_element hp]
    show through listParts _ (.list xs) (.list (xs ++ y :: ys)) = _
    rw [@through_eq _ _ xs listParts _ _ (.list xs) (.list (xs ++ y :: ys)) (xs ++ y :: ys) rfl rfl]
    exact cmpList_append hord heach y ys

variable (I) (shapes) in
/-- Streams that agree, whatever follows them, are of values whose components feed the same. -/
structure Separates (n : Nat) (ρ : List (Dict T C)) (p : DictPlan H) (S : Val T C → Prop) :
    Prop where
  product : ∀ labels ds, (dictKit I).product shapes n ρ p = some (labels, ds) →
    ∀ v w xs ys fs gs t u, S v → S w → structuralParts labels ds.length v = some xs →
    structuralParts labels ds.length w = some ys → Feeds (dictionary I shapes n ρ p).feed v fs →
    Feeds (dictionary I shapes n ρ p).feed w gs → fs ++ t = gs ++ u → FeedAlike ds xs ys
  union : ∀ vs, (dictKit I).variants shapes n ρ p = some vs → ∀ v w i xs j ys fs gs t u, S v →
    S w → variantParts (arities vs) v = some (i, xs) → variantParts (arities vs) w = some (j, ys) →
    Feeds (dictionary I shapes n ρ p).feed v fs → Feeds (dictionary I shapes n ρ p).feed w gs →
    fs ++ t = gs ++ u → i = j ∧ FeedAlike (variantAt vs i).2 xs ys
  list : ∀ d, (dictKit I).element shapes n ρ p = some d → ∀ xs ys fs gs t u, S (.list xs) →
    S (.list ys) → Feeds (dictionary I shapes n ρ p).feed (.list xs) fs →
    Feeds (dictionary I shapes n ρ p).feed (.list ys) gs → fs ++ t = gs ++ u →
    List.Forall₂ (fun x y => ∃ fs, Feeds d.feed x fs ∧ Feeds d.feed y fs) xs ys

/-! ### Streams of compounds -/

section
omit [LinearOrder T]

variable {xs ys : List (Val T C)} {fs gs t u : List (Frame T)}

variable {v w : Val T C}

theorem structural_separates {Ss : List (Val T C → Prop)} {ds : List (Dict T C)}
    (hkeys : Keys labels Ss.length) (hs : List.Forall₂ SelfDelimiting Ss ds)
    (hSv : structuralValues labels Ss v) (hSw : structuralValues labels Ss w)
    (hv : structuralParts labels ds.length v = some xs)
    (hw : structuralParts labels ds.length w = some ys)
    (hfs : Feeds (structuralDict labels ds).feed v fs)
    (hgs : Feeds (structuralDict labels ds).feed w gs) (happend : fs ++ t = gs ++ u) :
    FeedAlike ds xs ys := by
  obtain ⟨xs', hv', hxs⟩ := hSv
  obtain ⟨ys', hw', hys⟩ := hSw
  rw [hs.length_eq] at hv' hw'
  obtain rfl := some.inj (hv.symm.trans hv')
  obtain rfl := some.inj (hw.symm.trans hw')
  obtain ⟨hall, halike⟩ := delimited_parts hkeys hs
  obtain ⟨fs, rfl, hfs'⟩ := feeds_of_tagged (hall.appends hxs) ((feeds_through hv).mp hfs)
  obtain ⟨gs, rfl, hgs'⟩ := feeds_of_tagged (hall.appends hys) ((feeds_through hw).mp hgs)
  exact halike hxs hys hfs' hgs' (cons.inj happend).2

theorem union_separates {vs : List (Option (List String) × List (Val T C → Prop))}
    {ws : List (Option (List String) × List (Dict T C))} (hs : Variants SelfDelimiting vs ws)
    {i j : Nat} (hSv : unionValues vs v) (hSw : unionValues vs w)
    (hv : variantParts (arities ws) v = some (i, xs))
    (hw : variantParts (arities ws) w = some (j, ys)) (hfs : Feeds (unionDict ws).feed v fs)
    (hgs : Feeds (unionDict ws).feed w gs) (happend : fs ++ t = gs ++ u) :
    i = j ∧ FeedAlike (variantAt ws i).2 xs ys := by
  obtain ⟨⟨i', xs'⟩, hv', hxs⟩ := hSv
  obtain ⟨⟨j', ys'⟩, hw', hys⟩ := hSw
  rw [hs.arities] at hv' hw'
  obtain ⟨rfl, rfl⟩ := Prod.mk.inj (some.inj (hv.symm.trans hv'))
  obtain ⟨rfl, rfl⟩ := Prod.mk.inj (some.inj (hw.symm.trans hw'))
  have hparts : ∀ rank, Delimited (InAll (variantAt vs rank).2)
      (feedParts (variantAt ws rank).1 (variantAt ws rank).2) ∧ _ := fun rank =>
    delimited_parts ((hs.at rank).1 ▸ (hs.at rank).2.1) (hs.at rank).2.2
  have hfs' := (feeds_through hv).mp hfs
  have hgs' := (feeds_through hw).mp hgs
  obtain ⟨fs, rfl, hfs''⟩ := feeds_of_tagged ((hparts i).1.appends hxs) hfs'
  obtain ⟨gs, rfl, hgs''⟩ := feeds_of_tagged ((hparts j).1.appends hys) hgs'
  obtain ⟨htag, hrest⟩ := cons.inj happend
  injection htag with _ hij
  subst hij
  exact ⟨rfl, (hparts i).2 hxs hys hfs'' hgs'' hrest⟩

end

/-! ## Every plan -/

section
variable {n m : Nat} {ρ : List (Val T C → Prop)} {ρ' : List (Dict T C)} {p : DictPlan H}

theorem in_order (hN : N.Closed shapes) (hord : N.Ordered) (h : Given I N ρ ρ' LawfulOrd)
    (hnm : n ≤ m) (hp : p.Over N) : InOrder I shapes m ρ' p (values I shapes n ρ p) := by
  refine inOrder fun d hd xs hxs => ?_
  rcases (related_ord hord h.written).element hN hnm h.passed hp hd with rfl | ⟨S, hS, hlaw⟩
  · exact hxs.elim
  · rw [values, Kit.read_element hS] at hxs
    obtain ⟨xs', hparts, heach⟩ := hxs
    cases hparts
    exact ⟨S, hlaw.1, heach⟩

theorem separates (hN : N.Closed shapes) (h : Given I N ρ ρ' SelfDelimiting) (hnm : n ≤ m)
    (hp : p.Over N) : Separates I shapes m ρ' p (values I shapes n ρ p) where
  product := by
    intro labels ds hds v w xs ys fs gs t u hSv hSw hv hw hfs hgs happend
    rcases (related_delimited h.written).product hN hnm h.passed hp hds with
      rfl | ⟨Ss, hSs, hkeys, hs⟩
    · exact hSv.elim
    · rw [values, Kit.read_product hSs] at hSv hSw
      rw [dictionary, Kit.read_product hds] at hfs hgs
      exact structural_separates hkeys hs hSv hSw hv hw hfs hgs happend
  union := by
    intro vs hvs v w i xs j ys fs gs t u hSv hSw hv hw hfs hgs happend
    rcases (related_delimited h.written).variants hN hnm h.passed hp hvs with rfl | ⟨Ss, hSs, hs⟩
    · exact hSv.elim
    · rw [values, Kit.read_variants hSs] at hSv hSw
      rw [dictionary, Kit.read_variants hvs] at hfs hgs
      exact union_separates hs hSv hSw hv hw hfs hgs happend
  list := by
    intro d hd xs ys fs gs t u hSv hSw hfs hgs happend
    rcases (related_delimited h.written).element hN hnm h.passed hp hd with rfl | ⟨S, hS, hlaw⟩
    · exact hSv.elim
    · rw [values, Kit.read_element hS] at hSv hSw
      rw [dictionary, Kit.read_element hd] at hfs hgs
      obtain ⟨xs', hv, hxs'⟩ := hSv
      obtain ⟨ys', hw, hys'⟩ := hSw
      cases hv
      cases hw
      have hfs' := (@feeds_through _ _ _ xs fs listParts _ (.list xs) rfl).mp hfs
      have hgs' := (@feeds_through _ _ _ ys gs listParts _ (.list ys) rfl).mp hgs
      exact (delimited_list list_frames hlaw hxs' hys' hfs' hgs' happend).2

/-- The dictionaries of a plan over lawful components are lawful on the values of its type, as deep
as these go, and at every depth that answers they answer the same. -/
theorem dictionaries_lawful (I : Written T C H) {shapes : TyConId → Option (ComparisonShape H)}
    {N : Components H} (hN : N.Closed shapes) {p : DictPlan H} (hp : p.Over N)
    (ρ : List (Val T C → Prop)) (ρ' : List (Dict T C)) {n m : Nat} (hnm : n ≤ m) :
    (Given I N ρ ρ' LawfulEq → LawfulEq (values I shapes n ρ p) (dictionary I shapes m ρ' p)) ∧
    (N.Ordered → Given I N ρ ρ' LawfulOrd →
      LawfulOrd (values I shapes n ρ p) (dictionary I shapes m ρ' p) ∧
      InOrder I shapes m ρ' p (values I shapes n ρ p)) ∧
    (Given I N ρ ρ' LawfulHash →
      LawfulHash (values I shapes n ρ p) (dictionary I shapes m ρ' p)) ∧
    (Given I N ρ ρ' SelfDelimiting →
      SelfDelimiting (values I shapes n ρ p) (dictionary I shapes m ρ' p) ∧
      Separates I shapes m ρ' p (values I shapes n ρ p)) ∧
    (∀ v, values I shapes n ρ p v → values I shapes m ρ p v) ∧
    (dictionary I shapes n ρ' p).Refines (dictionary I shapes m ρ' p) := by
  refine ⟨fun h => ?_, fun hord h => ⟨?_, in_order hN hord h hnm hp⟩, fun h => ?_,
    fun h => ⟨?_, separates hN h hnm hp⟩, ?_, ?_⟩
  · exact (related_eq h.written).read hN hnm h.passed hp
  · exact (related_ord hord h.written).read hN hnm h.passed hp
  · exact (related_hash h.written).read hN hnm h.passed hp
  · exact (related_delimited h.written).read hN hnm h.passed hp
  · exact related_values.read hN hnm (forall₂_same.mpr fun _ _ _ h => h) hp
  · refine related_refines.read hN hnm (forall₂_same.mpr fun d _ => ?_) hp
    exact ⟨fun _ _ _ h => h, fun _ _ _ h => h, fun _ _ _ h => h⟩

end

/-- `type Chain a = End | Link a (Chain a)`, over `Int`. -/
def chainShapes : TyConId → Option (ComparisonShape Empty) := fun _ =>
  some (.union [.positional [], .positional [.forward 0, .static 0 [.forward 0]]])

def chainParts : Components Empty := ⟨fun p => p = .int, fun _ => True, fun _ => True⟩

theorem chainParts_closed : chainParts.Closed chainShapes := by
  intro id shape _ hshape
  obtain rfl := some.inj hshape
  intro v hv p hp
  rcases mem_pair.mp hv with rfl | rfl
  · cases hp
  · rcases mem_pair.mp hp with rfl | rfl
    · exact .forward 0
    · refine .static trivial fun a ha => ?_
      rw [mem_singleton.mp ha]
      exact .forward 0

/-- No instance is written by hand. -/
def noneWritten : Written Int Empty Empty := ⟨Empty.elim, Empty.elim⟩

theorem int_chains_lawful :
    LawfulOrd (values noneWritten chainShapes 4 [] (.static 0 [.prim .int]))
      (dictionary noneWritten chainShapes 9 [] (.static 0 [.prim .int])) := by
  have hover : (DictPlan.static 0 [.prim .int]).Over chainParts := by
    refine .static trivial fun a ha => ?_
    rw [mem_singleton.mp ha]
    exact .prim rfl
  have hall := dictionaries_lawful noneWritten chainParts_closed hover [] [] (show 4 ≤ 9 by decide)
  exact (hall.2.1 (fun p hp => hp ▸ rfl) ⟨fun i => i.elim, .nil⟩).1

/-! ## A hash that does not mark its end -/

/-- A type of lists of integers whose Hash instance feeds the elements and nothing else. -/
def numbers : Dict Int (List Int) where
  eq := fun v w => match v, w with
    | .foreign a, .foreign b => some (decide (a = b))
    | _, _ => none
  compare := fun v w => match v, w with
    | .foreign a, .foreign b => some (ordCompareNative a b)
    | _, _ => none
  feed := fun v s => match v with
    | .foreign a => some ((a.map fun n => .value "int" (.term n)).reverse ++ s)
    | _ => none

def IsNumbers (v : Val Int (List Int)) : Prop := ∃ a, v = .foreign a

def numbersKey : Val Int (List Int) → Option (List Int)
  | .foreign a => some a
  | _ => none

theorem numbers_eq : LawfulEq IsNumbers numbers := by
  refine eqOn_keyed numbersKey ?_
  rintro _ _ ⟨a, rfl⟩ ⟨b, rfl⟩
  exact ⟨_, rfl, by simp [numbersKey]⟩

theorem numbers_ord : LawfulOrd IsNumbers numbers := by
  refine ⟨ordOn_keyed numbersKey ?_, ?_⟩
  · rintro _ _ ⟨a, rfl⟩ ⟨b, rfl⟩
    exact ⟨a, b, rfl, rfl, congrArg some (ordCompareNative_eq a b)⟩
  · rintro _ _ ⟨a, rfl⟩ ⟨b, rfl⟩
    show some (ordCompareNative a b) = some Ordering.eq ↔ some (decide (a = b)) = some true
    rw [some.injEq, some.injEq, ordCompareNative_eq, compare_eq_iff_eq,
      decide_eq_true_iff]

theorem numbers_hash : LawfulHash IsNumbers numbers where
  appends := by
    rintro _ ⟨a, rfl⟩
    exact ⟨_, fun _ => rfl⟩
  respects := by
    rintro _ _ ⟨a, rfl⟩ ⟨b, rfl⟩ heq s
    obtain rfl := of_decide_eq_true (some.inj heq)
    rfl

def numbersInstances : Written Int (List Int) Unit := ⟨fun _ => numbers, fun _ => IsNumbers⟩

/-- Of pairs of these, `([1], [2, 3])` and `([1, 2], [3])` feed the same. -/
theorem pairs_run_together :
    (LawfulEq IsNumbers numbers ∧ LawfulOrd IsNumbers numbers ∧ LawfulHash IsNumbers numbers) ∧
    let pair : DictPlan Unit := .tuple [.written (), .written ()]
    let d := dictionary numbersInstances (fun _ => none) 2 [] pair
    let v : Val Int (List Int) := .tuple [.foreign [1], .foreign [2, 3]]
    let w : Val Int (List Int) := .tuple [.foreign [1, 2], .foreign [3]]
    values numbersInstances (fun _ => none) 2 [] pair v ∧
    values numbersInstances (fun _ => none) 2 [] pair w ∧
    d.eq v w = some false ∧ d.feed v [] = d.feed w [] ∧ (d.feed v []).isSome = true := by
  refine ⟨⟨numbers_eq, numbers_ord, numbers_hash⟩, ?_, ?_, rfl, rfl, rfl⟩
  · exact ⟨_, rfl, .cons ⟨_, rfl⟩ (.cons ⟨_, rfl⟩ .nil)⟩
  · exact ⟨_, rfl, .cons ⟨_, rfl⟩ (.cons ⟨_, rfl⟩ .nil)⟩

end Ridge.Compare
