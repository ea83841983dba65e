import Mathlib.Data.List.Sort
import Mathlib.Tactic.IntervalCases
import Mathlib.Data.Finset.Prod

/-!
# Ridge types — capability sets and capability rows

`ridge-types/src/capability_set.rs` packs the ten capabilities in the low bits of a `u16`;
`ridge-types/src/ty.rs` puts a *row* on top of it: a concrete set, a row variable, or the
union of several rows (`CapRow`).

The code keeps rows in a canonical shape by rebuilding every union from scratch
(`CapRow.union`): the concrete part first, then the variables in increasing order, with the
wrapper dropped when there is nothing to combine. What a row *means* is simpler than its
shape: a concrete set together with a finite set of variables, `CapRow.parts`. The results
here say that `union` is the join of the two meanings and that a canonical row is determined
by its meaning.
-/

namespace Ridge

/-! ## The ten capabilities -/

inductive Capability where
  | io | fs | net | time | random | env | proc | spawn | ffi | db
  deriving DecidableEq

def Capability.bitIndex : Capability → Nat
  | .io => 0
  | .fs => 1
  | .net => 2
  | .time => 3
  | .random => 4
  | .env => 5
  | .proc => 6
  | .spawn => 7
  | .ffi => 8
  | .db => 9

/-- The ten meaningful bits; bits 10 to 15 are reserved and always zero. -/
def validMask : BitVec 16 := 0b0000001111111111#16

/-- A capability set is a `u16` whose reserved bits are clear. -/
@[ext] structure CapabilitySet where
  bits : BitVec 16
  valid : bits &&& validMask = bits
  deriving DecidableEq

namespace CapabilitySet

/-- The empty set: no capability required. -/
def PURE : CapabilitySet := ⟨0#16, by decide⟩

def singleton (c : Capability) : CapabilitySet :=
  ⟨1#16 <<< c.bitIndex, by cases c <;> decide⟩

variable (s : CapabilitySet)

def contains (c : Capability) : Bool :=
  s.bits.getLsbD c.bitIndex

def union (s t : CapabilitySet) : CapabilitySet :=
  ⟨s.bits ||| t.bits, by
    have hs := s.valid
    have ht := t.valid
    rw [BitVec.and_comm] at hs ht
    rw [BitVec.and_comm, BitVec.and_or_distrib_left, hs, ht]⟩

def difference (s t : CapabilitySet) : CapabilitySet :=
  ⟨s.bits &&& ~~~t.bits, by
    rw [BitVec.and_assoc, BitVec.and_comm (~~~t.bits), ← BitVec.and_assoc, s.valid]⟩

def isEmpty : Bool := s.bits == 0#16

/-- `self ⊆ of`, as the code computes it: no bit of `self` is missing from `of`. -/
def isSubset (s t : CapabilitySet) : Bool := (s.bits &&& ~~~t.bits) == 0#16

/-! ### Sets of capabilities as sets

Two capability sets with the same members are equal: the reserved bits carry nothing. -/

theorem exists_bitIndex {i : Nat} (hi : i < 10) : ∃ c : Capability, c.bitIndex = i := by
  interval_cases i
  exacts [⟨.io, rfl⟩, ⟨.fs, rfl⟩, ⟨.net, rfl⟩, ⟨.time, rfl⟩, ⟨.random, rfl⟩, ⟨.env, rfl⟩,
    ⟨.proc, rfl⟩, ⟨.spawn, rfl⟩, ⟨.ffi, rfl⟩, ⟨.db, rfl⟩]

theorem reserved_bit_clear {i : Nat} (hi : 10 ≤ i) (hi16 : i < 16) : s.bits.getLsbD i = false := by
  have hmask : validMask.getLsbD i = false := by
    interval_cases i <;> decide
  rw [← s.valid, BitVec.getLsbD_and, hmask, Bool.and_false]

theorem eq_of_contains {s t : CapabilitySet} (h : ∀ c, s.contains c = t.contains c) : s = t := by
  apply CapabilitySet.ext
  apply BitVec.eq_of_getLsbD_eq
  intro i hi
  by_cases hlow : i < 10
  · obtain ⟨c, rfl⟩ := exists_bitIndex hlow
    exact h c
  · rw [s.reserved_bit_clear (by omega) hi, t.reserved_bit_clear (by omega) hi]

@[simp] theorem contains_union (s t : CapabilitySet) (c : Capability) :
    (s.union t).contains c = (s.contains c || t.contains c) := by
  simp [union, contains, BitVec.getLsbD_or]

@[simp] theorem contains_PURE (c : Capability) : PURE.contains c = false := by
  simp [PURE, contains]

@[simp] theorem contains_singleton (c d : Capability) :
    (singleton c).contains d = decide (c = d) := by
  cases c <;> cases d <;> decide

/-- The bit test of `is_subset` is inclusion of members. -/
theorem isSubset_iff (s t : CapabilitySet) :
    s.isSubset t = true ↔ ∀ c, s.contains c = true → t.contains c = true := by
  constructor
  · intro h c hc
    have hz : s.bits &&& ~~~t.bits = 0#16 := by simpa [isSubset] using h
    have hlt : c.bitIndex < 16 := by cases c <;> decide
    have hb : (s.bits &&& ~~~t.bits).getLsbD c.bitIndex = false := by simp [hz]
    rw [BitVec.getLsbD_and, BitVec.getLsbD_not] at hb
    simp only [contains] at hc ⊢
    simpa [hc, hlt] using hb
  · intro h
    have hu : s.union t = t := by
      apply eq_of_contains
      intro c
      rw [contains_union]
      cases hc : s.contains c with
      | false => rfl
      | true => rw [h c hc]; rfl
    have hor : s.bits ||| t.bits = t.bits := congrArg CapabilitySet.bits hu
    have hz : s.bits &&& ~~~t.bits = 0#16 := by
      apply BitVec.eq_of_getLsbD_eq
      intro i hi
      have hi' := congrArg (fun b => b.getLsbD i) hor
      simp only [BitVec.getLsbD_or] at hi'
      rw [BitVec.getLsbD_and, BitVec.getLsbD_not]
      cases hs : s.bits.getLsbD i <;> cases ht : t.bits.getLsbD i <;> simp_all
    simp [isSubset, hz]

/-! ### The semilattice of capability sets -/

theorem union_comm (s t : CapabilitySet) : s.union t = t.union s := by
  apply CapabilitySet.ext; exact BitVec.or_comm _ _

theorem union_assoc (s t u : CapabilitySet) : (s.union t).union u = s.union (t.union u) := by
  apply CapabilitySet.ext; exact BitVec.or_assoc _ _ _

theorem union_self : s.union s = s := by
  apply CapabilitySet.ext; exact BitVec.or_self

@[simp] theorem PURE_union : PURE.union s = s := by
  apply CapabilitySet.ext; exact BitVec.zero_or

@[simp] theorem union_PURE : s.union PURE = s := by
  rw [union_comm, PURE_union]

theorem isEmpty_iff : s.isEmpty = true ↔ s = PURE := by
  constructor
  · intro h
    apply CapabilitySet.ext
    simpa [isEmpty, PURE] using h
  · rintro rfl; rfl

instance : Max CapabilitySet := ⟨union⟩

instance : SemilatticeSup CapabilitySet :=
  SemilatticeSup.mk' union_comm union_assoc union_self

instance : OrderBot CapabilitySet where
  bot := PURE
  bot_le s := by
    show PURE ⊔ s = s
    exact PURE_union s

theorem union_eq_sup (s t : CapabilitySet) : s.union t = s ⊔ t := rfl

theorem PURE_eq_bot : PURE = (⊥ : CapabilitySet) := rfl

end CapabilitySet

/-! ## Capability rows -/

/-- The row carried by a function type. -/
inductive CapRow where
  | concrete (s : CapabilitySet)
  | var (v : Nat)
  | union (rows : List CapRow)

namespace CapRow

mutual
/-- The recursive `collect` of `CapRow::union`: the concrete part and the variables seen so
far. The variables are a `BTreeSet<u32>` in the source, here an increasing list. -/
def collect : CapRow → CapabilitySet × List Nat → CapabilitySet × List Nat
  | .concrete s, (set, vars) => (set.union s, vars)
  | .var v, (set, vars) =>
    (set, if v ∈ vars then vars else vars.orderedInsert (· ≤ ·) v)
  | .union rows, acc => collectAll rows acc

def collectAll : List CapRow → CapabilitySet × List Nat → CapabilitySet × List Nat
  | [], acc => acc
  | row :: rows, acc => collectAll rows (collect row acc)
end

/-- The row rebuilt from its parts, with the wrapper dropped when one component is left. -/
def ofParts (set : CapabilitySet) (vars : List Nat) : CapRow :=
  let rows := (if set.isEmpty then [] else [CapRow.concrete set]) ++ vars.map CapRow.var
  match rows with
  | [] => .concrete .PURE
  | [row] => row
  | rows => .union rows

/-- Combine latent requirements without identifying independent row variables. -/
def unionWith (a b : CapRow) : CapRow :=
  let parts := collect b (collect a (.PURE, []))
  ofParts parts.1 parts.2

mutual
/-- Rust's derived `PartialEq` on rows. -/
def decEq : (a b : CapRow) → Decidable (a = b)
  | .concrete s, .concrete t =>
    if h : s = t then .isTrue (by rw [h]) else .isFalse (by simpa using h)
  | .var v, .var w => if h : v = w then .isTrue (by rw [h]) else .isFalse (by simpa using h)
  | .union rs, .union ss =>
    match decEqAll rs ss with
    | .isTrue h => .isTrue (by rw [h])
    | .isFalse h => .isFalse (by simpa using h)
  | .concrete _, .var _ => .isFalse (by simp)
  | .concrete _, .union _ => .isFalse (by simp)
  | .var _, .concrete _ => .isFalse (by simp)
  | .var _, .union _ => .isFalse (by simp)
  | .union _, .concrete _ => .isFalse (by simp)
  | .union _, .var _ => .isFalse (by simp)

def decEqAll : (as bs : List CapRow) → Decidable (as = bs)
  | [], [] => .isTrue rfl
  | [], _ :: _ => .isFalse (by simp)
  | _ :: _, [] => .isFalse (by simp)
  | a :: as, b :: bs =>
    match decEq a b, decEqAll as bs with
    | .isTrue h, .isTrue hs => .isTrue (by rw [h, hs])
    | .isFalse h, _ => .isFalse (by simp [h])
    | _, .isFalse hs => .isFalse (by simp [hs])
end

instance : DecidableEq CapRow := decEq

/-- Induction over rows, with the components of a union as members of a list. -/
@[elab_as_elim] theorem inductionOn {P : CapRow → Prop} (concrete : ∀ s, P (.concrete s))
    (var : ∀ v, P (.var v)) (union : ∀ rows, (∀ r ∈ rows, P r) → P (.union rows))
    (c : CapRow) : P c :=
  CapRow.rec (motive_1 := P) (motive_2 := fun rows => ∀ r ∈ rows, P r) concrete var union
    (by simp) (fun _ _ h hs => List.forall_mem_cons.mpr ⟨h, hs⟩) c

/-- Variables appearing in a latent capability requirement (`CapRow::vars`). -/
def vars : CapRow → List Nat
  | .concrete _ => []
  | .var v => [v]
  | .union rows => varsAll rows
where
  varsAll : List CapRow → List Nat
    | [] => []
    | row :: rows => vars row ++ varsAll rows

/-! ### The meaning of a row

A row stands for a concrete set together with a finite set of variables; union is the join of
the two. -/

abbrev Parts := CapabilitySet × Finset Nat

mutual
def parts : CapRow → Parts
  | .concrete s => (s, ∅)
  | .var v => (.PURE, {v})
  | .union rows => partsAll rows

def partsAll : List CapRow → Parts
  | [] => ⊥
  | row :: rows => parts row ⊔ partsAll rows
end

/-- The shape `union` builds: a set followed by strictly increasing variables. -/
def Canonical (c : CapRow) : Prop :=
  ∃ set vars, vars.Pairwise (· ≤ ·) ∧ vars.Nodup ∧ c = ofParts set vars

mutual
theorem collect_parts : ∀ (c : CapRow) (acc : CapabilitySet × List Nat),
    ((collect c acc).1, (collect c acc).2.toFinset)
      = ((acc.1, acc.2.toFinset) : Parts) ⊔ parts c
  | .concrete s, (set, vs) => by
    simp [collect, parts, CapabilitySet.union_eq_sup]
  | .var v, (set, vs) => by
    by_cases hv : v ∈ vs
    · simp [collect, parts, hv, CapabilitySet.PURE_eq_bot]
    · have hset : (vs.orderedInsert (· ≤ ·) v).toFinset = vs.toFinset ∪ {v} := by
        ext x
        simp
      simp [collect, parts, hv, hset, CapabilitySet.PURE_eq_bot]
  | .union rows, acc => by
    simpa [collect, parts] using collectAll_parts rows acc

theorem collectAll_parts : ∀ (rows : List CapRow) (acc : CapabilitySet × List Nat),
    ((collectAll rows acc).1, (collectAll rows acc).2.toFinset)
      = ((acc.1, acc.2.toFinset) : Parts) ⊔ partsAll rows
  | [], acc => by simp [collectAll, partsAll]
  | row :: rows, acc => by
    rw [collectAll, collectAll_parts rows, collect_parts row, partsAll, sup_assoc]
end

mutual
theorem collect_sorted : ∀ (c : CapRow) (acc : CapabilitySet × List Nat),
    acc.2.Pairwise (· ≤ ·) ∧ acc.2.Nodup →
      (collect c acc).2.Pairwise (· ≤ ·) ∧ (collect c acc).2.Nodup
  | .concrete s, (set, vs), h => h
  | .var v, (set, vs), h => by
    by_cases hv : v ∈ vs
    · simpa [collect, hv] using h
    · simp only [collect, hv, if_false]
      refine ⟨h.1.orderedInsert v vs, ?_⟩
      rw [(List.perm_orderedInsert _ v vs).nodup_iff]
      exact List.nodup_cons.mpr ⟨hv, h.2⟩
  | .union rows, acc, h => by simpa [collect] using collectAll_sorted rows acc h

theorem collectAll_sorted : ∀ (rows : List CapRow) (acc : CapabilitySet × List Nat),
    acc.2.Pairwise (· ≤ ·) ∧ acc.2.Nodup →
      (collectAll rows acc).2.Pairwise (· ≤ ·) ∧ (collectAll rows acc).2.Nodup
  | [], acc, h => h
  | row :: rows, acc, h => by
    rw [collectAll]
    exact collectAll_sorted rows _ (collect_sorted row acc h)
end

theorem partsAll_map_var (vs : List Nat) : partsAll (vs.map CapRow.var) = (.PURE, vs.toFinset) := by
  induction vs with
  | nil => rfl
  | cons v vs ih =>
    rw [List.map_cons, partsAll, ih, parts, Prod.mk_sup_mk, sup_idem, List.toFinset_cons]
    rfl

theorem parts_ofParts (set : CapabilitySet) (vs : List Nat) :
    parts (ofParts set vs) = (set, vs.toFinset) := by
  have hrows : partsAll ((if set.isEmpty then [] else [CapRow.concrete set])
      ++ vs.map CapRow.var) = (set, vs.toFinset) := by
    cases hset : set.isEmpty with
    | true =>
      have hpure : set = .PURE := (CapabilitySet.isEmpty_iff set).mp hset
      simp [partsAll_map_var, hpure]
    | false => simp [partsAll, partsAll_map_var, parts, CapabilitySet.PURE_eq_bot]
  unfold ofParts
  simp only
  split
  · next h => rw [h] at hrows; exact hrows
  · next h => rw [h] at hrows; simpa [partsAll] using hrows
  · next rows _ _ => rw [parts]; exact hrows

/-- `union` is the join of the two meanings. -/
@[simp] theorem parts_unionWith (a b : CapRow) : parts (a.unionWith b) = parts a ⊔ parts b := by
  unfold unionWith
  rw [parts_ofParts, collect_parts b]
  have ha := collect_parts a (.PURE, [])
  rw [ha]
  simp only [List.toFinset_nil]
  rw [show ((CapabilitySet.PURE, ∅) : Parts) = ⊥ from rfl, bot_sup_eq]

theorem canonical_unionWith (a b : CapRow) : Canonical (a.unionWith b) := by
  have hnil : ([] : List Nat).Pairwise (· ≤ ·) ∧ ([] : List Nat).Nodup :=
    ⟨List.Pairwise.nil, List.nodup_nil⟩
  have h := collect_sorted b _ (collect_sorted a (.PURE, []) hnil)
  exact ⟨_, _, h.1, h.2, rfl⟩

theorem canonical_concrete (s : CapabilitySet) : Canonical (.concrete s) := by
  refine ⟨s, [], List.Pairwise.nil, List.nodup_nil, ?_⟩
  cases hs : s.isEmpty with
  | true =>
    simp only [ofParts, hs, if_true, List.map_nil, List.append_nil]
    rw [(CapabilitySet.isEmpty_iff s).mp hs]
  | false => simp [ofParts, hs]

theorem canonical_var (v : Nat) : Canonical (.var v) := by
  refine ⟨.PURE, [v], List.pairwise_singleton _ _, List.nodup_singleton v, ?_⟩
  have hpure : CapabilitySet.PURE.isEmpty = true := by decide
  simp [ofParts, hpure]

theorem Canonical.ext {a b : CapRow} (ha : Canonical a) (hb : Canonical b)
    (h : parts a = parts b) : a = b := by
  obtain ⟨sa, va, hva, hda, rfl⟩ := ha
  obtain ⟨sb, vb, hvb, hdb, rfl⟩ := hb
  rw [parts_ofParts, parts_ofParts, Prod.mk.injEq] at h
  obtain ⟨rfl, hset⟩ := h
  have hperm : va.Perm vb :=
    (List.perm_ext_iff_of_nodup hda hdb).mpr fun x => by
      have hx : x ∈ va.toFinset ↔ x ∈ vb.toFinset := by rw [hset]
      simpa using hx
  rw [hperm.eq_of_pairwise (fun x y _ _ hxy hyx => Nat.le_antisymm hxy hyx) hva hvb]

theorem mem_varsAll {v : Nat} {rows : List CapRow} :
    v ∈ vars.varsAll rows ↔ ∃ r ∈ rows, v ∈ r.vars := by
  induction rows with
  | nil => simp [vars.varsAll]
  | cons row rows ih => simp [vars.varsAll, ih]

theorem mem_vars_iff (c : CapRow) (v : Nat) : v ∈ c.vars ↔ v ∈ (parts c).2 := by
  cases c with
  | concrete s | var w => simp [vars, parts]
  | union rows => simpa [vars, parts] using mem_varsAll_iff rows v
where
  mem_varsAll_iff : ∀ (rows : List CapRow) (v : Nat),
      v ∈ vars.varsAll rows ↔ v ∈ (partsAll rows).2
    | [], v => by simp [vars.varsAll, partsAll]
    | row :: rows, v => by
      simp [vars.varsAll, partsAll, mem_vars_iff row v, mem_varsAll_iff rows v]

end CapRow

end Ridge
