import Ridge.Query.Truth

/-!
# ridge_rt — the store's tests against SQL's

A test of the store answers `false` where an operand is missing. It is right about a test that is
read at `false`, and about one read at `true` as long as nothing is missing; beyond that the two
tell values apart alike, but for the kinds of values named here.
-/

namespace Ridge

open Option

open Kleene (reading)

section

variable {D : Doubles}

/-! ## Decimals -/

theorem decimalAlign_cast (a b : Decimal) :
    ((decimalAlign a b).1 : ℚ) = a.value * 10 ^ max a.scale b.scale ∧
      ((decimalAlign a b).2 : ℚ) = b.value * 10 ^ max a.scale b.scale := by
  have hscale : ∀ (d : Decimal) (m : Nat), d.scale ≤ m →
      ((d.unscaled * 10 ^ (m - d.scale) : Int) : ℚ) = d.value * 10 ^ m := by
    intro d m hm
    have hpow : (10 : ℚ) ^ m = 10 ^ (m - d.scale) * 10 ^ d.scale := by
      rw [← pow_add, Nat.sub_add_cancel hm]
    unfold Decimal.value
    rw [hpow]
    push_cast
    field_simp
  exact ⟨hscale a _ (Nat.le_max_left _ _), hscale b _ (Nat.le_max_right _ _)⟩

theorem pow_max_pos (a b : Decimal) : (0 : ℚ) < 10 ^ max a.scale b.scale := by positivity

theorem decimalTextEq_eq (x y : String) :
    decimalTextEq x y = decide ((decimalOfText x).value = (decimalOfText y).value) := by
  show decide ((decimalAlign (decimalOfText x) (decimalOfText y)).1 =
    (decimalAlign (decimalOfText x) (decimalOfText y)).2) = _
  refine decide_eq_decide.mpr ?_
  obtain ⟨hx, hy⟩ := decimalAlign_cast (decimalOfText x) (decimalOfText y)
  rw [← Int.cast_inj (α := ℚ), hx, hy]
  exact mul_left_inj' (pow_max_pos _ _).ne'

theorem decimalTextLt_eq (x y : String) :
    decimalTextLt x y = decide ((decimalOfText x).value < (decimalOfText y).value) := by
  show decide ((decimalAlign (decimalOfText x) (decimalOfText y)).1 <
    (decimalAlign (decimalOfText x) (decimalOfText y)).2) = _
  refine decide_eq_decide.mpr ?_
  obtain ⟨hx, hy⟩ := decimalAlign_cast (decimalOfText x) (decimalOfText y)
  rw [← Int.cast_lt (R := ℚ), hx, hy]
  exact mul_lt_mul_iff_left₀ (pow_max_pos _ _)

/-! ## Comparing values there are -/

mutual

/-- A number told apart by more than its value, somewhere in an array. -/
def hasFraction : SqlValue → Bool
  | .sqlDecimal _ | .sqlFloat _ => true
  | .sqlArray elems => haveFraction elems
  | _ => false

def haveFraction : List SqlValue → Bool
  | [] => false
  | v :: vs => hasFraction v || haveFraction vs

end

/-- Equality of terms is equality of the values: two zeros are not the same term, and an array's
decimals are texts. -/
def TellsEq (D : Doubles) : SqlValue → SqlValue → Prop
  | .sqlFloat x, .sqlFloat y => D.value x = D.value y → x = y
  | .sqlArray as, .sqlArray _ => haveFraction as = false
  | _, _ => True

/-- `mem_in_pred` compares decimals as texts too. -/
def TellsIn (D : Doubles) : SqlValue → SqlValue → Prop
  | .sqlDecimal x, .sqlDecimal y => (decimalOfText x).value = (decimalOfText y).value → x = y
  | a, b => TellsEq D a b

/-- Booleans and arrays have no order in the store. -/
def TellsLt (D : Doubles) : SqlValue → SqlValue → Prop
  | .sqlBool x, .sqlBool y => valueLt D (.sqlBool x) (.sqlBool y) = false
  | .sqlArray as, .sqlArray bs => valueLt D (.sqlArray as) (.sqlArray bs) = false
  | _, _ => True

mutual

theorem valueEq_of_hasFraction :
    ∀ {a b : SqlValue}, hasFraction a = false → valueEq D a b = decide (a = b)
  | .sqlArray as, .sqlArray bs, h => by
    unfold valueEq
    rw [valuesEq_of_haveFraction h]
    exact decide_eq_decide.mpr (SqlValue.sqlArray.injEq as bs).symm.to_iff
  | .sqlArray _, .sqlInt _, _ | .sqlArray _, .sqlText _, _ | .sqlArray _, .sqlBool _, _
  | .sqlArray _, .sqlFloat _, _ | .sqlArray _, .sqlNull, _ | .sqlArray _, .sqlInstant _, _
  | .sqlArray _, .sqlDecimal _, _ | .sqlArray _, .sqlUuid _, _ | .sqlArray _, .sqlBytes _, _
  | .sqlArray _, .sqlJson _, _ | .sqlArray _, .sqlDate _, _ | .sqlArray _, .sqlTime _, _
  | .sqlArray _, .sqlInterval _, _ => rfl
  | .sqlInt _, _, _ | .sqlText _, _, _ | .sqlBool _, _, _ | .sqlNull, _, _ | .sqlInstant _, _, _
  | .sqlUuid _, _, _ | .sqlBytes _, _, _ | .sqlJson _, _, _ | .sqlDate _, _, _ | .sqlTime _, _, _
  | .sqlInterval _, _, _ => rfl

theorem valuesEq_of_haveFraction :
    ∀ {as bs : List SqlValue}, haveFraction as = false → valuesEq D as bs = decide (as = bs)
  | [], [], _ => rfl
  | [], _ :: _, _ => rfl
  | _ :: _, [], _ => rfl
  | a :: as, b :: bs, h => by
    obtain ⟨ha, has⟩ := Bool.or_eq_false_iff.mp h
    unfold valuesEq
    rw [valueEq_of_hasFraction ha, valuesEq_of_haveFraction has, ← Bool.decide_and]
    exact decide_eq_decide.mpr (List.cons.injEq a as b bs).symm.to_iff

end

variable {a b : SqlValue}

theorem memSqlEq_eq (h : TellsEq D a b) : memSqlEq a b = valueEq D a b := by
  unfold valueEq
  split
  · exact decimalTextEq_eq _ _
  · next x y =>
      refine decide_eq_decide.mpr ⟨fun hxy => ?_, fun hval => ?_⟩
      · rw [SqlValue.sqlFloat.inj hxy]
      · rw [h hval]
  · next as bs =>
      have hterms : valueEq D (.sqlArray as) (.sqlArray bs) = _ := valueEq_of_hasFraction h
      unfold valueEq at hterms
      rw [hterms]
      rfl
  · next hdec _ _ =>
      cases a <;> cases b <;> first
        | rfl
        | exact absurd rfl (hdec _ _ rfl)

theorem memSqlLt_eq (hb : b ≠ .sqlNull) (h : TellsLt D a b) : memSqlLt D a b = valueLt D a b := by
  cases a <;> cases b <;> first
    | rfl
    | exact absurd rfl hb
    | exact decimalTextLt_eq _ _
    | exact h.symm

/-- `=:=` of what is in a list. -/
theorem decide_eq_valueEq (h : TellsIn D a b) : decide (a = b) = valueEq D a b := by
  unfold TellsIn at h
  split at h
  · next x y =>
      unfold valueEq
      refine decide_eq_decide.mpr ⟨fun hxy => ?_, fun hval => ?_⟩
      · rw [SqlValue.sqlDecimal.inj hxy]
      · rw [h hval]
  · next hdec =>
      rw [← memSqlEq_eq h]
      cases a <;> cases b <;> first
        | rfl
        | exact absurd rfl (hdec _ _ rfl)

/-! ## Tests on what may be missing -/

@[simp] theorem present_none : present none = none := rfl

@[simp] theorem present_null : present (some .sqlNull) = none := rfl

variable {v : Option SqlValue}

theorem present_some {a : SqlValue} (h : present v = some a) : v = some a ∧ a ≠ .sqlNull := by
  unfold present at h
  split at h
  · cases h
  · next hnull =>
      refine ⟨h, fun ha => hnull ?_⟩
      rw [h, ha]

theorem present_eq_none (h : present v = none) : v = none ∨ v = some .sqlNull := by
  unfold present at h
  split at h
  · exact .inr rfl
  · exact .inl h

/-- An equation read at `u`: two cells that hold `SqlNull` are equal terms. -/
def FaithfulEq (D : Doubles) (u : Bool) (a b : Option SqlValue) : Prop :=
  match present a, present b with
  | some x, some y => TellsEq D x y
  | _, _ => u = false ∧ ¬(a = some .sqlNull ∧ b = some .sqlNull)

def FaithfulLt (D : Doubles) (u : Bool) (a b : Option SqlValue) : Prop :=
  match present a, present b with
  | some x, some y => TellsLt D x y
  | _, _ => u = false

def FaithfulLike (u : Bool) (v p : Option SqlValue) : Prop :=
  u = false ∨ ((present v).isSome ∧ (present p).isSome)

/-- Nothing missing is read at `true`, unless there is nothing to be in or a value decides. -/
def FaithfulIn (D : Doubles) (u : Bool) (v : Option SqlValue) (items : List (Option SqlValue)) :
    Prop :=
  match present v with
  | none => u = false ∨ items = []
  | some x =>
    (∀ i ∈ items, ∀ y, present i = some y → TellsIn D x y) ∧
      (u = true → (∃ i ∈ items, present i = none) → some true ∈ items.map (sqlEq D v))

def FaithfulBoolean (u : Bool) (v : Option SqlValue) : Prop := u = false ∨ (present v).isSome

section

variable {u : Bool} {a b v p : Option SqlValue}

/-- An operand that is missing fails the store's test. -/
theorem relate_eq_false {cmp : SqlValue → SqlValue → Bool}
    (hnull : ∀ x, x ≠ .sqlNull → cmp x .sqlNull = false ∧ cmp .sqlNull x = false)
    (hmissing : present a = none ∨ present b = none)
    (hboth : a = some .sqlNull → b = some .sqlNull → cmp .sqlNull .sqlNull = false) :
    relate cmp a b = false := by
  cases a with
  | none => rfl
  | some x =>
    cases b with
    | none => rfl
    | some y =>
      show cmp x y = false
      by_cases hx : x = .sqlNull
      · by_cases hy : y = .sqlNull
        · rw [hx, hy]
          exact hboth (congrArg some hx) (congrArg some hy)
        · rw [hx]
          exact (hnull y hy).2
      · rcases hmissing with h | h
        · rcases present_eq_none h with h | h
          · cases h
          · exact absurd (some.inj h) hx
        · rcases present_eq_none h with h | h
          · cases h
          · rw [some.inj h]
            exact (hnull x hx).1

/-- The shape the comparisons share: a relation of values there are, and a default. -/
theorem relate_eq_reading {cmp cmp' : SqlValue → SqlValue → Bool}
    (hthere : ∀ x y, y ≠ .sqlNull → present a = some x → present b = some y → cmp x y = cmp' x y)
    (hmissing : present a = none ∨ present b = none → u = false ∧ relate cmp a b = false) :
    relate cmp a b = reading u (sqlRelate cmp' a b) := by
  unfold sqlRelate
  cases ha : present a with
  | none =>
    obtain ⟨rfl, hfalse⟩ := hmissing (.inl ha)
    exact hfalse
  | some x =>
    cases hb : present b with
    | none =>
      obtain ⟨rfl, hfalse⟩ := hmissing (.inr hb)
      exact hfalse
    | some y =>
      rw [(present_some ha).1, (present_some hb).1]
      exact hthere x y (present_some hb).2 ha hb

theorem relate_memSqlEq (h : FaithfulEq D u a b) :
    relate memSqlEq a b = reading u (sqlEq D a b) := by
  unfold FaithfulEq at h
  refine relate_eq_reading (fun x y _ ha hb => ?_) fun hmissing => ?_
  · rw [ha, hb] at h
    exact memSqlEq_eq h
  · have hdefault : u = false ∧ ¬(a = some .sqlNull ∧ b = some .sqlNull) := by
      rcases hmissing with hm | hm
      · rwa [hm] at h
      · rw [hm] at h
        cases hp : present a <;> rw [hp] at h <;> exact h
    refine ⟨hdefault.1, relate_eq_false (fun x hx => ?_) hmissing fun ha hb => ?_⟩
    · cases x <;> first
        | exact absurd rfl hx
        | exact ⟨rfl, rfl⟩
    · exact absurd ⟨ha, hb⟩ hdefault.2

theorem relate_memSqlLt (h : FaithfulLt D u a b) :
    relate (memSqlLt D) a b = reading u (sqlLt D a b) := by
  unfold FaithfulLt at h
  refine relate_eq_reading (fun x y hy ha hb => ?_) fun hmissing => ?_
  · rw [ha, hb] at h
    exact memSqlLt_eq hy h
  · have hdefault : u = false := by
      rcases hmissing with hm | hm
      · rwa [hm] at h
      · rw [hm] at h
        cases hp : present a <;> rw [hp] at h <;> exact h
    refine ⟨hdefault, relate_eq_false (fun x _ => ?_) hmissing fun _ _ => rfl⟩
    cases x <;> exact ⟨rfl, rfl⟩

theorem memLikePred_eq (h : FaithfulLike u v p) : memLikePred v p = reading u (sqlLike v p) := by
  have hrelate : memLikePred v p = relate (fun x y => memLikePred (some x) (some y)) v p := by
    unfold relate
    cases v with
    | none => rfl
    | some x => cases p with
      | none => cases x <;> rfl
      | some y => cases x <;> cases y <;> rfl
  rw [hrelate]
  refine relate_eq_reading (fun x y _ _ _ => by cases x <;> cases y <;> rfl) fun hmissing => ?_
  refine ⟨?_, relate_eq_false (fun x _ => ?_) hmissing fun _ _ => rfl⟩
  · rcases h with h | ⟨hv, hp⟩
    · exact h
    · rcases hmissing with hm | hm
      · rw [hm] at hv
        cases hv
      · rw [hm] at hp
        cases hp
  · cases x <;> exact ⟨rfl, rfl⟩

theorem memTruthy_eq (h : FaithfulBoolean u v) :
    memTruthy (v.getD .sqlNull) = reading u (sqlBoolean v) := by
  unfold sqlBoolean
  cases hv : present v with
  | some x =>
    rw [(present_some hv).1]
    cases x <;> rfl
  | none =>
    have hu : u = false := by
      rcases h with h | h
      · exact h
      · rw [hv] at h
        cases h
    rcases present_eq_none hv with rfl | rfl <;> exact hu.symm

theorem memInPred_eq {items : List (Option SqlValue)} (h : FaithfulIn D u v items) :
    memInPred v items = reading u (sqlIn D v items) := by
  unfold FaithfulIn at h
  unfold sqlIn
  rw [Kleene.reading_any, List.any_map]
  cases hv : present v with
  | none =>
    rw [hv] at h
    have hmem : memInPred v items = false := by
      rcases present_eq_none hv with rfl | rfl <;> rfl
    have hreads : (reading u ∘ sqlEq D v) = fun _ => u := by
      funext i
      show reading u (sqlEq D v i) = u
      unfold sqlEq sqlRelate
      rw [hv]
      rfl
    rw [hmem, hreads]
    rcases h with rfl | rfl
    · exact (List.any_eq_false.mpr fun _ _ => Bool.false_ne_true).symm
    · rfl
  | some x =>
    rw [hv] at h
    obtain ⟨hx, hnull⟩ := present_some hv
    subst hx
    have hmem : memInPred (some x) items = items.any fun i => i = some x := by
      cases x <;> first
        | rfl
        | exact absurd rfl hnull
    -- On an item there is, both make the same comparison.
    have hthere : ∀ i ∈ items, ∀ y, present i = some y →
        decide (i = some x) = reading u (sqlEq D (some x) i) := by
      intro i hi y hy
      unfold sqlEq sqlRelate
      rw [hv, hy]
      show _ = valueEq D x y
      rw [← decide_eq_valueEq (h.1 i hi y hy), (present_some hy).1]
      exact decide_eq_decide.mpr ⟨fun h => (some.inj h).symm, fun h => congrArg some h.symm⟩
    rw [hmem, Bool.eq_iff_iff, List.any_eq_true, List.any_eq_true]
    by_cases hgap : u = true ∧ ∃ i ∈ items, present i = none
    · -- An item is missing and read at `true`, so another one decides.
      obtain ⟨i, hi, htrue⟩ := List.mem_map.mp (h.2 hgap.1 hgap.2)
      have hread : reading u (sqlEq D (some x) i) = true := by rw [htrue]; rfl
      refine ⟨fun _ => ⟨i, hi, hread⟩, fun _ => ⟨i, hi, ?_⟩⟩
      cases hy : present i with
      | some y => rw [hthere i hi y hy, hread]
      | none =>
        unfold sqlEq sqlRelate at htrue
        rw [hv, hy] at htrue
        cases htrue
    · refine exists_congr fun i => and_congr_right fun hi => ?_
      cases hy : present i with
      | some y => rw [hthere i hi y hy]; rfl
      | none =>
        have hu : u = false := by
          cases u with
          | false => rfl
          | true => exact absurd ⟨rfl, i, hi, hy⟩ hgap
        have hread : reading u (sqlEq D (some x) i) = false := by
          unfold sqlEq sqlRelate
          rw [hv, hy, hu]
          rfl
        show _ ↔ reading u (sqlEq D (some x) i) = true
        rw [hread]
        refine iff_of_false (fun h => ?_) Bool.false_ne_true
        rw [of_decide_eq_true h] at hy
        rw [hv] at hy
        cases hy

end

/-! ## Arithmetic -/

/-- The runtime has a double for the result. -/
def Fits (D : Doubles) (op : ArithOp) : Option SqlValue → Option SqlValue → Prop
  | some (.sqlFloat x), some (.sqlFloat y) => ∃ r, floatArith D op x y = .ok r
  | _, _ => True

variable {op : ArithOp}

theorem floatArith_eq {x y : Float64} {r : Option Float64} (h : floatArith D op x y = .ok r) :
    floatArith D op x y = .ok (floatResult D op x y) := by
  have hor : ∀ {o : Option Float64}, (some <$> orBadarith o : Eval (Option Float64)) = .ok r →
      (some <$> orBadarith o : Eval (Option Float64)) = .ok o := by
    intro o ho
    cases o with
    | none => cases ho
    | some z => rfl
  cases op with
  | add => exact hor h
  | sub => exact hor h
  | mul => exact hor h
  | mod => rfl
  | div =>
    show (if D.value y = 0 then .ok none else some <$> orBadarith (D.div x y)) =
      Except.ok (if D.value y = 0 then none else D.div x y)
    by_cases hzero : D.value y = 0
    · rw [if_pos hzero, if_pos hzero]
    · rw [if_neg hzero, if_neg hzero]
      change (if D.value y = 0 then .ok none else some <$> orBadarith (D.div x y)) = _ at h
      rw [if_neg hzero] at h
      exact hor h

theorem memArithApply_eq {a b : Option SqlValue} (h : Fits D op a b) :
    memArithApply D op a b = .ok (sqlArith D op a b) := by
  unfold sqlArith
  split
  · rfl
  · next x y =>
      obtain ⟨r, hr⟩ := h
      show (Option.map SqlValue.sqlFloat) <$> floatArith D op x y = _
      rw [floatArith_eq hr]
      rfl
  · next hint hfloat =>
      unfold memArithApply
      split
      · exact absurd rfl (hint _ _ rfl)
      · exact absurd rfl (hfloat _ _ rfl)
      · rfl

end

end Ridge
