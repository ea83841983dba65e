import Ridge.Lib.Compounds
import Ridge.Types.Ty

/-!
# Eq, Ord and Hash dictionaries

What the dictionaries do that lowering composes out of checked evidence: `comparison.rs`,
`hash_compound.rs`, the prelude dictionaries of `prelude_dict.rs` and `hash.rs`, and the runtime
functions these call (`ridge_rt.erl`). The evidence of a component is a `DictPlan`, the derived body
of a type a `ComparisonShape` (`derive_comparison.rs`). Types with instances written by hand are
components: their methods are parameters. A method that no arm of a pattern takes raises, which is
`none`; derived bodies call each other, so a dictionary is read to a depth.
-/

namespace Ridge.Compare

open Comparisons

/-! ## Values -/

/-- A handle at run time: the process it names, or the child of a supervisor. -/
inductive Handle (T : Type) where
  | direct (pid config : T)
  | supervised (supervisor child config : T)

/-- A value: the ground terms of primitive types, those of types with instances of their own, and
what is built of them. -/
inductive Val (T C : Type) where
  | term (t : T)
  | handle (h : Handle T)
  | ordering (o : Ordering)
  | foreign (c : C)
  | tuple (elems : List (Val T C))
  | record (fields : List (String × Val T C))
  | list (elems : List (Val T C))
  | variant (rank : Nat) (args : List (Val T C))

/-- What a primitive hash function feeds of its value. -/
inductive HashTerm (T : Type) where
  | term (t : T)
  | ordering (o : Ordering)
  | direct (pid : T)
  | supervised (supervisor child : T)

/-- A framed chunk of the hash state: `hash_feed` of a primitive value, or `hash_tag`. -/
inductive Frame (T : Type) where
  | value (tag : String) (payload : HashTerm T)
  | composite (kind : String) (rank arity : Nat) (labels : List String)

abbrev Dict (T C : Type) : Type := Methods (Val T C) (Frame T)

/-! ## Evidence -/

/-- The types whose dictionaries the prelude materialises. -/
inductive Prim where
  | int | bool | text | unit | ordering | bytes | uuid | timestamp | date | time
  | handle | supervisor | monitor
  deriving DecidableEq

/-- `written` is an instance written by hand. -/
inductive DictPlan (H : Type) where
  | prim (p : Prim)
  | written (h : H)
  | forward (slot : Nat)
  | tuple (args : List (DictPlan H))
  | record (fields : List (String × DictPlan H))
  | list (elem : DictPlan H)
  | static (id : TyConId) (args : List (DictPlan H))

/-- The payload of a variant. -/
inductive Payload (P : Type) where
  | positional (items : List P)
  | labelled (fields : List (String × P))

namespace Payload

variable {P : Type}

def labels : Payload P → Option (List String)
  | .positional _ => none
  | .labelled fields => some (fields.map Prod.fst)

def items : Payload P → List P
  | .positional items => items
  | .labelled fields => fields.map Prod.snd

end Payload

/-- `ComparisonShape`. The prelude sums have the shape of their schema. -/
inductive ComparisonShape (H : Type) where
  | record (fields : List (String × DictPlan H))
  | union (variants : List (Payload (DictPlan H)))
  | synonym (evidence : DictPlan H)

/-! ## What dictionaries are composed of -/

/-- A reading of evidence: what it makes of a component, of parts, of a list and of a union. -/
structure Kit (H D : Type) where
  raises : D
  prim : Prim → D
  written : H → D
  structural : Option (List String) → List D → D
  list : D → D
  union : List (Option (List String) × List D) → D

namespace Kit

variable {H D : Type} (K : Kit H D) (shapes : TyConId → Option (ComparisonShape H))

/-- The derived body of a type. -/
def derived (read : DictPlan H → D) : ComparisonShape H → D
  | .record fields => K.structural (some (fields.map Prod.fst)) (fields.map fun f => read f.2)
  | .union variants => K.union (variants.map fun v => (v.labels, v.items.map read))
  | .synonym evidence => read evidence

/-- The reading of a plan to a depth, under what is passed for the parameters of its type. -/
def read : Nat → List D → DictPlan H → D
  | 0, _, _ => K.raises
  | _ + 1, _, .prim p => K.prim p
  | _ + 1, _, .written h => K.written h
  | _ + 1, ρ, .forward slot => ρ[slot]?.getD K.raises
  | n + 1, ρ, .tuple args => K.structural none (args.map (read n ρ))
  | n + 1, ρ, .record fields =>
    K.structural (some (fields.map Prod.fst)) (fields.map fun f => read n ρ f.2)
  | n + 1, ρ, .list elem => K.list (read n ρ elem)
  | n + 1, ρ, .static id args =>
    match shapes id with
    | some shape => K.derived (read n (args.map (read n ρ))) shape
    | none => K.raises

theorem read_static {n : Nat} {ρ : List D} {id : TyConId} {args : List (DictPlan H)}
    {shape : ComparisonShape H} (h : shapes id = some shape) :
    K.read shapes (n + 1) ρ (.static id args) =
      K.derived (K.read shapes n (args.map (K.read shapes n ρ))) shape := by
  rw [read, h]

/-- The parts of a tuple, or of a record or of a declared record type: their labels and what is
made of each, by position or as declared. -/
def product : Nat → List D → DictPlan H → Option (Option (List String) × List D)
  | n + 1, ρ, .tuple args => some (none, args.map (K.read shapes n ρ))
  | n + 1, ρ, .record fields =>
    some (some (fields.map Prod.fst), fields.map fun f => K.read shapes n ρ f.2)
  | n + 1, ρ, .static id args =>
    match shapes id with
    | some (.record fields) => some (some (fields.map Prod.fst),
        fields.map fun f => K.read shapes n (args.map (K.read shapes n ρ)) f.2)
    | _ => none
  | _, _, _ => none

/-- The variants of a declared union, in their order. -/
def variants : Nat → List D → DictPlan H → Option (List (Option (List String) × List D))
  | n + 1, ρ, .static id args =>
    match shapes id with
    | some (.union variants) => some (variants.map fun v =>
      (v.labels, v.items.map (K.read shapes n (args.map (K.read shapes n ρ)))))
    | _ => none
  | _, _, _ => none

def element : Nat → List D → DictPlan H → Option D
  | n + 1, ρ, .list elem => some (K.read shapes n ρ elem)
  | _, _, _ => none

variable {K shapes} {n : Nat} {ρ : List D} {p : DictPlan H}

theorem read_product {labels : Option (List String)} {ds : List D}
    (h : K.product shapes n ρ p = some (labels, ds)) :
    K.read shapes n ρ p = K.structural labels ds := by
  unfold product at h
  split at h
  · cases h
    rfl
  · cases h
    rfl
  · split at h
    · next hshape =>
      cases h
      exact K.read_static shapes hshape
    · cases h
  · cases h

theorem read_variants {vs : List (Option (List String) × List D)}
    (h : K.variants shapes n ρ p = some vs) : K.read shapes n ρ p = K.union vs := by
  unfold variants at h
  split at h
  · split at h
    · next hshape =>
      cases h
      exact K.read_static shapes hshape
    · cases h
  · cases h

theorem read_element {d : D} (h : K.element shapes n ρ p = some d) :
    K.read shapes n ρ p = K.list d := by
  unfold element at h
  split at h
  · cases h
    rfl
  · cases h

end Kit

section
variable {T C : Type}

variable (labels : Option (List String))

/-- The parts of a tuple of `n`, or those of a record under the labels. -/
def structuralParts (n : Nat) (v : Val T C) :
    Option (List (Val T C)) :=
  match labels, v with
  | none, .tuple elems => if elems.length = n then some elems else none
  | some labels, .record fields => labels.mapM fun l => fields.lookup l
  | _, _ => none

def listParts : Val T C → Option (List (Val T C))
  | .list elems => some elems
  | _ => none

/-- What the pattern of a variant binds. -/
def payloadParts (n : Nat) (args : List (Val T C)) :
    Option (List (Val T C)) :=
  match labels, args with
  | none, args => if args.length = n then some args else none
  | some labels, [.record fields] => labels.mapM fun l => fields.lookup l
  | _, _ => none

/-- `variant_pattern`: the rank of the variant, and what its pattern binds. -/
def variantParts (variants : List (Option (List String) × Nat)) : Val T C →
    Option (Nat × List (Val T C))
  | .variant rank args => variants[rank]?.bind fun v =>
    (payloadParts v.1 v.2 args).map fun xs => (rank, xs)
  | _ => none

/-- The labels of a tag, sorted. -/
def tagLabels : List String :=
  match labels with
  | none => []
  | some labels => canonical (some labels) labels

/-- The parts in their order, each with its own evidence. -/
def structuralDict (children : List (Dict T C)) : Dict T C where
  eq := through (structuralParts labels children.length) (eqAll (children.map Methods.eq))
  compare := through (structuralParts labels children.length)
    (cmpAll (children.map Methods.compare))
  feed := feedThrough (structuralParts labels children.length) fun xs s =>
    feedParts labels children xs
      (.composite (if labels.isSome then "record" else "tuple") 0 children.length
        (tagLabels labels) :: s)

def listDict (element : Dict T C) : Dict T C where
  eq := through listParts (eqList element.eq)
  compare := through listParts (cmpList element.compare)
  feed := feedThrough listParts
    (feedList (.composite "list.nil" 0 0 []) (.composite "list.cons" 0 2 []) element.feed)

/-- The labels and the evidence of a variant. -/
def variantAt {D : Type} (variants : List (Option (List String) × List D)) (rank : Nat) :
    Option (List String) × List D :=
  variants[rank]?.getD (none, [])

/-- How many values the patterns of the variants bind. -/
def arities {D : Type} (variants : List (Option (List String) × List D)) :
    List (Option (List String) × Nat) :=
  variants.map fun v => (v.1, v.2.length)

/-- `union_body`: two payloads of one variant part by part, else the ranks. -/
def unionDict (variants : List (Option (List String) × List (Dict T C))) : Dict T C where
  eq := through (variantParts (arities variants)) (eqSum fun rank =>
    eqAll ((variantAt variants rank).2.map Methods.eq))
  compare := through (variantParts (arities variants)) (cmpSum fun rank =>
    cmpAll ((variantAt variants rank).2.map Methods.compare))
  feed := feedThrough (variantParts (arities variants)) (feedSum fun rank xs s =>
    feedParts (variantAt variants rank).1 (variantAt variants rank).2 xs
      (.composite "union" rank (variantAt variants rank).2.length
        (tagLabels (variantAt variants rank).1) :: s))

/-! ## Prelude dictionaries -/

variable [LinearOrder T]

def handleEq : Handle T → Handle T → Bool
  | .direct left _, .direct right _ => left = right
  | .supervised leftSup leftId _, .supervised rightSup rightId _ =>
    leftSup = rightSup && leftId = rightId
  | _, _ => false

def ordCompareNative (a b : T) : Ordering :=
  if a < b then .lt else if b < a then .gt else .eq

/-- The rank of `Less`, `Equal` and `Greater`. -/
def orderingRank : Ordering → Nat
  | .lt => 0
  | .eq => 1
  | .gt => 2

/-- `is_prelude_ord_instance`, with the composed order of `Ordering`. -/
def Prim.hasOrd : Prim → Bool
  | .int | .text | .bytes | .uuid | .timestamp | .date | .time | .ordering => true
  | _ => false

def Prim.hashTag : Prim → String
  | .int => "int"
  | .bool => "bool"
  | .text => "text"
  | .unit => "unit"
  | .ordering => "ordering"
  | .bytes => "bytes"
  | .uuid => "uuid"
  | .timestamp => "timestamp"
  | .date => "date"
  | .time => "time"
  | .handle => "handle"
  | .supervisor => "supervisor"
  | .monitor => "monitor"

/-- `synth_eq_dict`. -/
def primEq (p : Prim) (v w : Val T C) : Option Bool :=
  match p, v, w with
  | .handle, .handle a, .handle b => some (handleEq a b)
  | .ordering, .ordering a, .ordering b => some (decide (a = b))
  | .handle, _, _ => none
  | .ordering, _, _ => none
  | _, .term a, .term b => some (decide (a = b))
  | _, _, _ => none

/-- `synth_ord_dict`, and the composed order of `Ordering`. -/
def primCompare (p : Prim) (v w : Val T C) : Option Ordering :=
  match p.hasOrd, v, w with
  | true, .term a, .term b => some (ordCompareNative a b)
  | true, .ordering a, .ordering b => some (compare (orderingRank a) (orderingRank b))
  | _, _, _ => none

/-- What the primitive hash functions feed. -/
def hashTerm : Val T C → Option (HashTerm T)
  | .term t => some (.term t)
  | .ordering o => some (.ordering o)
  | .handle (.direct pid _) => some (.direct pid)
  | .handle (.supervised sup child _) => some (.supervised sup child)
  | _ => none

def primDict (p : Prim) : Dict T C where
  eq := primEq p
  compare := primCompare p
  feed := fun v s => (hashTerm v).map fun payload => .value p.hashTag payload :: s

/-- The instances written by hand. -/
structure Written (T C H : Type) where
  methods : H → Dict T C
  /-- The values of the type the instances are for. -/
  values : H → Val T C → Prop

variable {H : Type} (I : Written T C H) (shapes : TyConId → Option (ComparisonShape H))

def dictKit : Kit H (Dict T C) where
  raises := ⟨fun _ _ => none, fun _ _ => none, fun _ _ => none⟩
  prim := primDict
  written := I.methods
  structural := structuralDict
  list := listDict
  union := unionDict

/-- The dictionary of a plan, `dict_plan_to_expr`, read to a depth. -/
def dictionary (n : Nat) (ρ : List (Dict T C)) (p : DictPlan H) : Dict T C :=
  (dictKit I).read shapes n ρ p

/-! ## The values of a type -/

/-- The values of a primitive type, as terms. -/
def IsPrim (p : Prim) (v : Val T C) : Prop :=
  match p, v with
  | .handle, .handle _ => True
  | .ordering, .ordering _ => True
  | .handle, _ => False
  | .ordering, _ => False
  | _, .term _ => True
  | _, _ => False

def valueKit : Kit H (Val T C → Prop) where
  raises := fun _ => False
  prim := IsPrim
  written := I.values
  structural := fun labels Ss => Through (structuralParts labels Ss.length) (InAll Ss)
  list := fun S => Through listParts (Each S)
  union := fun variants =>
    Through (variantParts (arities variants)) (InSum fun rank => InAll (variantAt variants rank).2)

def values (n : Nat) (ρ : List (Val T C → Prop)) (p : DictPlan H) : Val T C → Prop :=
  (valueKit I).read shapes n ρ p

end

/-!
## Two readings of the same evidence

What holds between what two readings make of components holds between what they make of every plan
over such components, as deep as they are read. The laws of the dictionaries are such relations,
between the values of a type and its dictionary.
-/

open List

variable {H D D' : Type}

/-- The components of a plan: its primitive types, the instances written by hand, the types. -/
structure Components (H : Type) where
  prims : Prim → Prop
  written : H → Prop
  types : TyConId → Prop

/-- The plan has components among these alone. -/
inductive DictPlan.Over (N : Components H) : DictPlan H → Prop
  | prim {p : Prim} (h : N.prims p) : DictPlan.Over N (.prim p)
  | written {i : H} (h : N.written i) : DictPlan.Over N (.written i)
  | forward (slot : Nat) : DictPlan.Over N (.forward slot)
  | tuple {args : List (DictPlan H)} (h : ∀ a ∈ args, DictPlan.Over N a) :
    DictPlan.Over N (.tuple args)
  | record {fields : List (String × DictPlan H)} (h : ∀ f ∈ fields, DictPlan.Over N f.2) :
    DictPlan.Over N (.record fields)
  | list {elem : DictPlan H} (h : DictPlan.Over N elem) : DictPlan.Over N (.list elem)
  | static {id : TyConId} {args : List (DictPlan H)} (hid : N.types id)
    (h : ∀ a ∈ args, DictPlan.Over N a) : DictPlan.Over N (.static id args)

/-- The derived body has components among these alone. -/
def ComparisonShape.Over (N : Components H) : ComparisonShape H → Prop
  | .record fields => ∀ f ∈ fields, f.2.Over N
  | .union variants => ∀ v ∈ variants, ∀ p ∈ v.items, p.Over N
  | .synonym evidence => evidence.Over N

def Components.Closed (N : Components H) (shapes : TyConId → Option (ComparisonShape H)) : Prop :=
  ∀ id shape, N.types id → shapes id = some shape → shape.Over N

/-- Variants related payload by payload. -/
def Variants (R : D → D' → Prop) (vs : List (Option (List String) × List D))
    (vs' : List (Option (List String) × List D')) : Prop :=
  List.Forall₂ (fun v v' => v.1 = v'.1 ∧ Keys v.1 v.2.length ∧ List.Forall₂ R v.2 v'.2) vs vs'

/-- `R` passes from components to what the readings compose of them. -/
structure Kit.Related (K : Kit H D) (K' : Kit H D') (N : Components H) (R : D → D' → Prop) :
    Prop where
  raises : ∀ d', R K.raises d'
  prim : ∀ p, N.prims p → R (K.prim p) (K'.prim p)
  written : ∀ i, N.written i → R (K.written i) (K'.written i)
  structural : ∀ labels ds ds', Keys labels ds.length → List.Forall₂ R ds ds' →
    R (K.structural labels ds) (K'.structural labels ds')
  list : ∀ d d', R d d' → R (K.list d) (K'.list d')
  union : ∀ vs vs', Variants R vs vs' → R (K.union vs) (K'.union vs')

theorem Payload.keys {P : Type} (v : Payload P) : Keys v.labels v.items.length := by
  intro l hl
  cases v with
  | positional items => cases hl
  | labelled fields =>
    cases hl
    show (fields.map Prod.fst).length = (fields.map Prod.snd).length
    rw [length_map, length_map]

section
variable {K : Kit H D} {K' : Kit H D'} {N : Components H} {R : D → D' → Prop}
  {shapes : TyConId → Option (ComparisonShape H)}

theorem forall₂_map {P : Type} {l : List P} {f : P → D} {g : P → D'}
    (h : ∀ a ∈ l, R (f a) (g a)) : List.Forall₂ R (l.map f) (l.map g) := by
  rw [forall₂_map_left_iff, forall₂_map_right_iff, forall₂_same]
  exact h

/-- A derived body, read by two readings that agree on its evidence. -/
theorem Kit.Related.derived (hK : K.Related K' N R) {f : DictPlan H → D} {g : DictPlan H → D'}
    (hread : ∀ p : DictPlan H, p.Over N → R (f p) (g p)) {shape : ComparisonShape H}
    (hshape : shape.Over N) : R (K.derived f shape) (K'.derived g shape) := by
  cases shape with
  | record fields =>
    refine hK.structural _ _ _ ?_ (forall₂_map fun a ha => hread _ (hshape a ha))
    intro l hl
    cases hl
    rw [length_map, length_map]
  | union variants =>
    refine hK.union _ _ ?_
    refine forall₂_map fun v hv => ⟨rfl, ?_, forall₂_map fun p hp => hread p (hshape v hv p hp)⟩
    rw [length_map]
    exact v.keys
  | synonym evidence => exact hread evidence hshape

variable {ρ' : List D'}

/-- Related components make related readings of every plan, to any depth and any greater one. -/
theorem Kit.Related.read (hK : K.Related K' N R) (hN : N.Closed shapes) {n m : Nat} (hnm : n ≤ m)
    {ρ : List D} (hρ : List.Forall₂ R ρ ρ') {p : DictPlan H} (hp : p.Over N) :
    R (K.read shapes n ρ p) (K'.read shapes m ρ' p) := by
  induction n generalizing m ρ ρ' p with
  | zero => exact hK.raises _
  | succ n ih =>
    obtain ⟨m, rfl⟩ : ∃ k, m = k + 1 := ⟨m - 1, by omega⟩
    have hnm' : n ≤ m := Nat.le_of_succ_le_succ hnm
    cases hp with
    | prim h => exact hK.prim _ h
    | written h => exact hK.written _ h
    | forward slot =>
      show R (ρ[slot]?.getD K.raises) (ρ'[slot]?.getD K'.raises)
      rcases Nat.lt_or_ge slot ρ.length with hslot | hslot
      · have hslot' : slot < ρ'.length := hρ.length_eq ▸ hslot
        rw [getElem?_eq_getElem hslot, getElem?_eq_getElem hslot']
        exact hρ.get hslot hslot'
      · rw [getElem?_eq_none hslot]
        exact hK.raises _
    | tuple h =>
      exact hK.structural none _ _ nofun (forall₂_map fun a ha => ih hnm' hρ (h a ha))
    | record h =>
      refine hK.structural _ _ _ ?_ (forall₂_map fun f hf => ih hnm' hρ (h f hf))
      intro l hl
      cases hl
      rw [length_map, length_map]
    | list h => exact hK.list _ _ (ih hnm' hρ h)
    | static hid h =>
      have hargs := forall₂_map fun a ha => ih hnm' hρ (h a ha)
      unfold Kit.read
      split
      · next shape hshape =>
        exact hK.derived (fun p hp => ih hnm' hargs hp) (hN _ shape hid hshape)
      · exact hK.raises _

/-- What two readings make of the parts of a product. -/
theorem Kit.Related.product (hK : K.Related K' N R) (hN : N.Closed shapes) {n m : Nat} (hnm : n ≤ m)
    {ρ : List D} (hρ : List.Forall₂ R ρ ρ') {p : DictPlan H} (hp : p.Over N)
    {labels : Option (List String)} {ds' : List D'}
    (h : K'.product shapes m ρ' p = some (labels, ds')) : n = 0 ∨
      ∃ ds, K.product shapes n ρ p = some (labels, ds) ∧ Keys labels ds.length ∧
        List.Forall₂ R ds ds' := by
  cases n with
  | zero => exact .inl rfl
  | succ n =>
    obtain ⟨m, rfl⟩ : ∃ k, m = k + 1 := ⟨m - 1, by omega⟩
    have hnm' : n ≤ m := Nat.le_of_succ_le_succ hnm
    refine .inr ?_
    cases hp with
    | prim _ => cases h
    | written _ => cases h
    | forward slot => cases h
    | list _ => cases h
    | tuple hargs =>
      cases h
      exact ⟨_, rfl, nofun, forall₂_map fun a ha => hK.read hN hnm' hρ (hargs a ha)⟩
    | record hfields =>
      cases h
      refine ⟨_, rfl, ?_, forall₂_map fun f hf => hK.read hN hnm' hρ (hfields f hf)⟩
      intro l hl
      cases hl
      rw [length_map, length_map]
    | @static id args hid hargs =>
      have hρ' := forall₂_map fun a ha => hK.read hN hnm' hρ (hargs a ha)
      rw [Kit.product] at h ⊢
      split at h
      · next fields hshape =>
        cases h
        refine ⟨_, rfl, ?_, forall₂_map fun f hf =>
          hK.read hN hnm' hρ' (hN id _ hid hshape f hf)⟩
        intro l hl
        cases hl
        rw [length_map, length_map]
      · cases h

theorem Kit.Related.variants (hK : K.Related K' N R) (hN : N.Closed shapes) {n m : Nat}
    (hnm : n ≤ m) {ρ : List D} (hρ : List.Forall₂ R ρ ρ') {p : DictPlan H} (hp : p.Over N)
    {vs' : List (Option (List String) × List D')} (h : K'.variants shapes m ρ' p = some vs') :
    n = 0 ∨
      ∃ vs, K.variants shapes n ρ p = some vs ∧ Variants R vs vs' := by
  cases n with
  | zero => exact .inl rfl
  | succ n =>
    obtain ⟨m, rfl⟩ : ∃ k, m = k + 1 := ⟨m - 1, by omega⟩
    have hnm' : n ≤ m := Nat.le_of_succ_le_succ hnm
    refine .inr ?_
    cases hp with
    | prim _ => cases h
    | written _ => cases h
    | forward slot => cases h
    | list _ => cases h
    | tuple _ => cases h
    | record _ => cases h
    | @static id args hid hargs =>
      have hρ' := forall₂_map fun a ha => hK.read hN hnm' hρ (hargs a ha)
      rw [Kit.variants] at h ⊢
      split at h
      · next variants hshape =>
        cases h
        refine ⟨_, rfl, forall₂_map fun v hv => ⟨rfl, ?_, forall₂_map fun p hp =>
          hK.read hN hnm' hρ' (hN id _ hid hshape v hv p hp)⟩⟩
        rw [length_map]
        exact v.keys
      · cases h

theorem Kit.Related.element (hK : K.Related K' N R) (hN : N.Closed shapes) {n m : Nat} (hnm : n ≤ m)
    {ρ : List D} (hρ : List.Forall₂ R ρ ρ') {p : DictPlan H} (hp : p.Over N) {d' : D'}
    (h : K'.element shapes m ρ' p = some d') : n = 0 ∨
      ∃ d, K.element shapes n ρ p = some d ∧ R d d' := by
  cases n with
  | zero => exact .inl rfl
  | succ n =>
    obtain ⟨m, rfl⟩ : ∃ k, m = k + 1 := ⟨m - 1, by omega⟩
    refine .inr ?_
    cases hp with
    | prim _ => cases h
    | written _ => cases h
    | forward slot => cases h
    | tuple _ => cases h
    | record _ => cases h
    | static _ _ => cases h
    | list helem =>
      cases h
      exact ⟨_, rfl, hK.read hN (Nat.le_of_succ_le_succ hnm) hρ helem⟩

end

end Ridge.Compare
