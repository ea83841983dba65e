import Ridge.Compare.Dictionaries

/-!
# The laws of the dictionaries

Each law of Eq, Ord and Hash is a relation between the values of a type and its dictionary, and each
passes from the components of a plan to the plan.
-/

namespace Ridge.Compare

open Comparisons List Option

variable {T C H : Type}

/-! ## The composed dictionaries -/

section
variable {D D' : Type} {R : D → D' → Prop} {vs : List (Option (List String) × List D)}
  {vs' : List (Option (List String) × List D')}

theorem Variants.arities (h : Variants R vs vs') : arities vs = arities vs' := by
  unfold Compare.arities
  induction h with
  | nil => rfl
  | cons hv _ ih =>
    rw [map_cons, map_cons, ih, hv.1, hv.2.2.length_eq]

theorem Variants.at (h : Variants R vs vs') (rank : Nat) :
    (variantAt vs rank).1 = (variantAt vs' rank).1 ∧
      Keys (variantAt vs rank).1 (variantAt vs rank).2.length ∧
      List.Forall₂ R (variantAt vs rank).2 (variantAt vs' rank).2 := by
  unfold variantAt
  rcases Nat.lt_or_ge rank vs.length with hrank | hrank
  · have hrank' : rank < vs'.length := List.Forall₂.length_eq h ▸ hrank
    rw [getElem?_eq_getElem hrank, getElem?_eq_getElem hrank']
    exact List.Forall₂.get h hrank hrank'
  · rw [getElem?_eq_none hrank, getElem?_eq_none (List.Forall₂.length_eq h ▸ hrank)]
    exact ⟨rfl, nofun, .nil⟩

end

/-- The values of tuples and records, of lists and of unions, as `valueKit` reads them. -/
def structuralValues (labels : Option (List String)) (Ss : List (Val T C → Prop)) :
    Val T C → Prop :=
  Through (structuralParts labels Ss.length) (InAll Ss)

def unionValues (variants : List (Option (List String) × List (Val T C → Prop))) : Val T C → Prop :=
  Through (variantParts (arities variants)) (InSum fun rank => InAll (variantAt variants rank).2)

section
variable {labels : Option (List String)} {Ss : List (Val T C → Prop)} {ms : List (Dict T C)}
  {S : Val T C → Prop} {m : Dict T C} {vs : List (Option (List String) × List (Val T C → Prop))}
  {ws : List (Option (List String) × List (Dict T C))}

theorem eqOn_structural (h : List.Forall₂ (fun S m => EqOn S m.eq) Ss ms) :
    EqOn (structuralValues labels Ss) (structuralDict labels ms).eq := by
  unfold structuralValues structuralDict
  rw [h.length_eq]
  exact (eqOn_all (forall₂_map_right_iff.mpr h)).through

theorem ordOn_structural (h : List.Forall₂ (fun S m => OrdOn S m.compare) Ss ms) :
    OrdOn (structuralValues labels Ss) (structuralDict labels ms).compare := by
  unfold structuralValues structuralDict
  rw [h.length_eq]
  exact (ordOn_all (forall₂_map_right_iff.mpr h)).through

theorem coherent_structural (h : List.Forall₂ (fun S m => Coherent S m.eq m.compare) Ss ms) :
    Coherent (structuralValues labels Ss) (structuralDict labels ms).eq
      (structuralDict labels ms).compare := by
  unfold structuralValues structuralDict
  rw [h.length_eq]
  exact (coherent_all h).through

theorem feedOn_structural (hkeys : Keys labels Ss.length)
    (h : List.Forall₂ (fun S m => FeedOn S m.eq m.feed) Ss ms) :
    FeedOn (structuralValues labels Ss) (structuralDict labels ms).eq
      (structuralDict labels ms).feed := by
  unfold structuralValues structuralDict
  rw [h.length_eq]
  exact ((feedOn_parts hkeys h).tagged _).through

theorem delimited_structural (hkeys : Keys labels Ss.length)
    (h : List.Forall₂ (fun S m => Delimited S m.feed) Ss ms) :
    Delimited (structuralValues labels Ss) (structuralDict labels ms).feed := by
  unfold structuralValues structuralDict
  rw [h.length_eq]
  exact ((delimited_parts hkeys h).1.tagged _).through

theorem eqOn_union (h : Variants (fun S m => EqOn S m.eq) vs ws) :
    EqOn (unionValues vs) (unionDict ws).eq := by
  unfold unionValues unionDict
  rw [h.arities]
  exact (eqOn_sum fun rank => eqOn_all (forall₂_map_right_iff.mpr (h.at rank).2.2)).through

theorem ordOn_union (h : Variants (fun S m => OrdOn S m.compare) vs ws) :
    OrdOn (unionValues vs) (unionDict ws).compare := by
  unfold unionValues unionDict
  rw [h.arities]
  exact (ordOn_sum fun rank => ordOn_all (forall₂_map_right_iff.mpr (h.at rank).2.2)).through

theorem coherent_union (h : Variants (fun S m => Coherent S m.eq m.compare) vs ws) :
    Coherent (unionValues vs) (unionDict ws).eq (unionDict ws).compare := by
  unfold unionValues unionDict
  rw [h.arities]
  exact (coherent_sum fun rank => coherent_all (h.at rank).2.2).through

theorem feedOn_union (h : Variants (fun S m => FeedOn S m.eq m.feed) vs ws) :
    FeedOn (unionValues vs) (unionDict ws).eq (unionDict ws).feed := by
  unfold unionValues unionDict
  rw [h.arities]
  refine (feedOn_sum fun rank => ?_).through
  obtain ⟨hlabels, hkeys, hparts⟩ := h.at rank
  rw [hlabels] at hkeys
  exact (feedOn_parts hkeys hparts).tagged _

theorem delimited_union (h : Variants (fun S m => Delimited S m.feed) vs ws) :
    Delimited (unionValues vs) (unionDict ws).feed := by
  unfold unionValues unionDict
  rw [h.arities]
  refine (delimited_sum ?_ fun rank => ?_).1.through
  · intro i j hij
    injection hij
  · obtain ⟨hlabels, hkeys, hparts⟩ := h.at rank
    rw [hlabels] at hkeys
    exact (delimited_parts hkeys hparts).1

end

/-! ## Primitive types -/

variable {α β : Type*}

theorem ordOn_keyed [LinearOrder β] {S : α → Prop} (key : α → Option β)
    {cmp : α → α → Option Ordering}
    (h : ∀ x y, S x → S y → ∃ a b, key x = some a ∧ key y = some b ∧ cmp x y = some (compare a b)) :
    OrdOn S cmp where
  total := by
    intro x y hx hy
    obtain ⟨a, b, -, -, hcmp⟩ := h x y hx hy
    exact ⟨_, hcmp⟩
  swap := by
    intro x y o hx hy ho
    obtain ⟨a, b, ha, hb, hcmp⟩ := h x y hx hy
    obtain ⟨b', a', hb', ha', hcmp'⟩ := h y x hy hx
    obtain rfl : a = a' := some.inj (ha.symm.trans ha')
    obtain rfl : b = b' := some.inj (hb.symm.trans hb')
    obtain rfl := some.inj (hcmp.symm.trans ho)
    rw [hcmp', ← Std.OrientedCmp.eq_swap]
  trans := by
    intro x y z o p hx hy hz ho hp ho' hp'
    obtain ⟨a, b, ha, hb, hcmp⟩ := h x y hx hy
    obtain ⟨b', c, hb', hc, hcmp'⟩ := h y z hy hz
    obtain ⟨a', c', ha', hc', hcmp''⟩ := h x z hx hz
    obtain rfl : b = b' := some.inj (hb.symm.trans hb')
    obtain rfl : a = a' := some.inj (ha.symm.trans ha')
    obtain rfl : c = c' := some.inj (hc.symm.trans hc')
    obtain rfl := some.inj (hcmp.symm.trans ho)
    obtain rfl := some.inj (hcmp'.symm.trans hp)
    rw [compare_le_iff_le] at ho' hp'
    exact ⟨_, hcmp'', compare_le_iff_le.mpr (ho'.trans hp')⟩

theorem eqOn_keyed {S : α → Prop} (key : α → β) {eq : α → α → Option Bool}
    (h : ∀ x y, S x → S y → ∃ b, eq x y = some b ∧ (b = true ↔ key x = key y)) : EqOn S eq where
  total := by
    intro x y hx hy
    obtain ⟨b, hb, -⟩ := h x y hx hy
    exact ⟨b, hb⟩
  refl := by
    intro x hx
    obtain ⟨b, hb, hkey⟩ := h x x hx hx
    rw [hb, hkey.mpr rfl]
  symm := by
    intro x y hx hy heq
    obtain ⟨b, hb, hkey⟩ := h x y hx hy
    obtain ⟨c, hc, hkey'⟩ := h y x hy hx
    obtain rfl := some.inj (hb.symm.trans heq)
    rw [hc, hkey'.mpr (hkey.mp rfl).symm]
  trans := by
    intro x y z hx hy hz heq heq'
    obtain ⟨b, hb, hkey⟩ := h x y hx hy
    obtain ⟨c, hc, hkey'⟩ := h y z hy hz
    obtain ⟨d, hd, hkey''⟩ := h x z hx hz
    obtain rfl := some.inj (hb.symm.trans heq)
    obtain rfl := some.inj (hc.symm.trans heq')
    rw [hd, hkey''.mpr ((hkey.mp rfl).trans (hkey'.mp rfl))]

section
variable [LinearOrder T] {p : Prim} {v w : Val T C}

omit [LinearOrder T] in
/-- The values of a primitive type are handles, orderings or terms. -/
theorem IsPrim.values (hv : IsPrim p v) : p = .handle ∧ (∃ h, v = .handle h) ∨
    p = .ordering ∧ (∃ o, v = .ordering o) ∨ p ≠ .handle ∧ p ≠ .ordering ∧ ∃ t, v = .term t := by
  unfold IsPrim at hv
  split at hv
  · exact .inl ⟨rfl, _, rfl⟩
  · exact .inr (.inl ⟨rfl, _, rfl⟩)
  · exact hv.elim
  · exact hv.elim
  · next hhandle hordering => exact .inr (.inr ⟨hhandle, hordering, _, rfl⟩)
  · exact hv.elim

theorem primEq_term (hhandle : p ≠ .handle) (hordering : p ≠ .ordering) (a b : T) :
    primEq p (.term a : Val T C) (.term b) = some (decide (a = b)) := by
  cases p <;> first | exact absurd rfl hhandle | exact absurd rfl hordering | rfl

/-- Two values of a primitive type are equal exactly when they feed the same term. -/
theorem primEq_iff (hv : IsPrim p v) (hw : IsPrim p w) :
    ∃ b, primEq p v w = some b ∧ (b = true ↔ hashTerm v = hashTerm w) := by
  rcases hv.values with ⟨rfl, a, rfl⟩ | ⟨rfl, a, rfl⟩ | ⟨hhandle, hordering, a, rfl⟩
  · rcases hw.values with ⟨-, b, rfl⟩ | ⟨h, -⟩ | ⟨h, -⟩
    · refine ⟨_, rfl, ?_⟩
      cases a <;> cases b <;> simp [handleEq, hashTerm]
    · cases h
    · exact absurd rfl h
  · rcases hw.values with ⟨h, -⟩ | ⟨-, b, rfl⟩ | ⟨-, h, -⟩
    · cases h
    · exact ⟨_, rfl, by simp [hashTerm]⟩
    · exact absurd rfl h
  · rcases hw.values with ⟨h, -⟩ | ⟨h, -⟩ | ⟨-, -, b, rfl⟩
    · exact absurd h hhandle
    · exact absurd h hordering
    · exact ⟨_, primEq_term hhandle hordering a b, by simp [hashTerm]⟩

theorem ordCompareNative_eq (a b : T) : ordCompareNative a b = compare a b := by
  unfold ordCompareNative
  rcases lt_trichotomy a b with hlt | rfl | hgt
  · rw [if_pos hlt, compare_lt_iff_lt.mpr hlt]
  · rw [if_neg (lt_irrefl a), if_neg (lt_irrefl a), compare_eq_iff_eq.mpr rfl]
  · rw [if_neg hgt.not_gt, if_pos hgt, compare_gt_iff_gt.mpr hgt]

def Val.termKey : Val T C → Option T
  | .term t => some t
  | _ => none

def Val.orderingKey : Val T C → Option Nat
  | .ordering o => some (orderingRank o)
  | _ => none

theorem orderingRank_inj {a b : Ordering} : orderingRank a = orderingRank b ↔ a = b := by
  cases a <;> cases b <;> decide

omit [LinearOrder T] in
/-- The values of a primitive type with an order are terms, or the three orderings. -/
theorem IsPrim.ordered (hord : p.hasOrd = true) (hv : IsPrim p v) :
    (p ≠ .ordering ∧ ∃ t, v = .term t) ∨ p = .ordering ∧ ∃ o, v = .ordering o := by
  rcases hv.values with ⟨rfl, -⟩ | h | ⟨-, hordering, h⟩
  · cases hord
  · exact .inr h
  · exact .inl ⟨hordering, h⟩

theorem primCompare_term (hord : p.hasOrd = true) (a b : T) :
    primCompare p (.term a : Val T C) (.term b) = some (compare a b) := by
  unfold primCompare
  rw [hord, ← ordCompareNative_eq]

theorem primCompare_ordering (hord : p.hasOrd = true) (a b : Ordering) :
    primCompare p (.ordering a : Val T C) (.ordering b) =
      some (compare (orderingRank a) (orderingRank b)) := by
  unfold primCompare
  rw [hord]

theorem eqOn_prim (p : Prim) : EqOn (IsPrim p) (primDict p : Dict T C).eq :=
  eqOn_keyed hashTerm fun _ _ hv hw => primEq_iff hv hw

theorem ordOn_prim (hord : p.hasOrd = true) : OrdOn (IsPrim p) (primDict p : Dict T C).compare := by
  by_cases hp : p = .ordering
  · refine ordOn_keyed Val.orderingKey fun v w hv hw => ?_
    rcases hv.ordered hord with ⟨hne, -⟩ | ⟨-, a, rfl⟩
    · exact absurd hp hne
    rcases hw.ordered hord with ⟨hne, -⟩ | ⟨-, b, rfl⟩
    · exact absurd hp hne
    exact ⟨_, _, rfl, rfl, primCompare_ordering hord a b⟩
  · refine ordOn_keyed Val.termKey fun v w hv hw => ?_
    rcases hv.ordered hord with ⟨-, a, rfl⟩ | ⟨h, -⟩
    · rcases hw.ordered hord with ⟨-, b, rfl⟩ | ⟨h, -⟩
      · exact ⟨a, b, rfl, rfl, primCompare_term hord a b⟩
      · exact absurd h hp
    · exact absurd h hp

theorem coherent_prim (hord : p.hasOrd = true) :
    Coherent (IsPrim p) (primDict p : Dict T C).eq (primDict p : Dict T C).compare := by
  intro v w hv hw
  obtain ⟨b, hb, hkey⟩ := primEq_iff hv hw
  show primCompare p v w = some .eq ↔ primEq p v w = some true
  rw [hb, some.injEq, hkey]
  rcases hv.ordered hord with ⟨hne, a, rfl⟩ | ⟨rfl, a, rfl⟩
  · rcases hw.ordered hord with ⟨-, b, rfl⟩ | ⟨h, -⟩
    · rw [primCompare_term hord, some.injEq, compare_eq_iff_eq]
      simp [hashTerm]
    · exact absurd h hne
  · rcases hw.ordered hord with ⟨h, -⟩ | ⟨-, b, rfl⟩
    · exact absurd rfl h
    · rw [primCompare_ordering hord, some.injEq, compare_eq_iff_eq, orderingRank_inj]
      simp [hashTerm]

theorem feeds_prim (hv : IsPrim p v) :
    ∃ payload, hashTerm v = some payload ∧
      Feeds (primDict p : Dict T C).feed v [.value p.hashTag payload] := by
  have hsome : ∃ payload, hashTerm v = some payload := by
    rcases hv.values with ⟨-, h, rfl⟩ | ⟨-, o, rfl⟩ | ⟨-, -, t, rfl⟩
    · cases h <;> exact ⟨_, rfl⟩
    · exact ⟨_, rfl⟩
    · exact ⟨_, rfl⟩
  obtain ⟨payload, hpayload⟩ := hsome
  refine ⟨payload, hpayload, fun s => ?_⟩
  show (hashTerm v).map _ = _
  rw [hpayload]
  rfl

theorem feedOn_prim (p : Prim) :
    FeedOn (IsPrim p) (primDict p : Dict T C).eq (primDict p : Dict T C).feed where
  appends := fun hv =>
    have ⟨_, _, hfeeds⟩ := feeds_prim hv
    ⟨_, hfeeds⟩
  respects := by
    intro v w hv hw heq s
    obtain ⟨b, hb, hkey⟩ := primEq_iff hv hw
    obtain rfl := some.inj (hb.symm.trans heq)
    show (hashTerm v).map _ = (hashTerm w).map _
    rw [hkey.mp rfl]

/-- The hash of a primitive value is one frame. -/
theorem delimited_prim (p : Prim) : Delimited (IsPrim p) (primDict p : Dict T C).feed where
  appends := fun hv =>
    have ⟨_, _, hfeeds⟩ := feeds_prim hv
    ⟨_, hfeeds⟩
  alone := by
    intro v w fs gs t u hv hw hfs hgs happend
    obtain ⟨a, -, ha⟩ := feeds_prim hv
    obtain ⟨b, -, hb⟩ := feeds_prim hw
    obtain rfl := hfs.unique ha
    obtain rfl := hgs.unique hb
    exact congrArg (fun f => [f]) (cons.inj happend).1

end

end Ridge.Compare
