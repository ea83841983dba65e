import Ridge.Entity.DateLaws

/-!
# ridge_rt — laws of decimals

`{decimal, Unscaled, Scale}` denotes `Unscaled * 10^-Scale`. The operations of `std.decimal`
(`decimal_*` and `hash_decimal`, `runtime/ridge_rt.erl`) align scales by powers of ten, and a power
with a negative exponent raises.
-/

namespace Ridge

/-! ## Rounding -/

inductive RoundingMode where
  | up | down | ceiling | floor | halfUp | halfDown | halfEven
  deriving DecidableEq

variable (mode : RoundingMode)

/-- The magnitude `q`, of which `r` parts of `p` were dropped. -/
def decimalRoundStep (sign : Int) (q r p : Nat) : Nat :=
  if r = 0 then q
  else match mode with
    | .down => q
    | .up => q + 1
    | .ceiling => if sign > 0 then q + 1 else q
    | .floor => if sign < 0 then q + 1 else q
    | .halfUp => if 2 * r ≥ p then q + 1 else q
    | .halfDown => if 2 * r > p then q + 1 else q
    | .halfEven =>
      if 2 * r > p then q + 1 else if 2 * r < p then q else if q % 2 = 0 then q else q + 1

/-- The integer that a mode prescribes for a rational: the next one in its direction, or the
nearest with its rule for a tie. -/
def Prescribes (x : ℚ) (k : ℤ) : Prop :=
  match mode with
  | .ceiling => k = ⌈x⌉
  | .floor => k = ⌊x⌋
  | .down => k = if 0 ≤ x then ⌊x⌋ else ⌈x⌉
  | .up => k = if 0 ≤ x then ⌈x⌉ else ⌊x⌋
  | .halfUp => 2 * |k - x| ≤ 1 ∧ (2 * |k - x| = 1 → |x| < |(k : ℚ)|)
  | .halfDown => 2 * |k - x| ≤ 1 ∧ (2 * |k - x| = 1 → |(k : ℚ)| < |x|)
  | .halfEven => 2 * |k - x| ≤ 1 ∧ (2 * |k - x| = 1 → Even k)

theorem prescribes_self (k : ℤ) : Prescribes mode k k := by
  cases mode <;> simp [Prescribes]

/-- The step rounds a magnitude between `q` and `q + 1`, of either sign. -/
theorem prescribes_between {sign : ℤ} (hsign : sign = 1 ∨ sign = -1) {q r p : ℕ} (hr : 0 < r)
    (hrp : r < p) :
    Prescribes mode (sign * (q + r / p)) (sign * decimalRoundStep mode sign q r p) := by
  have hp : (0 : ℚ) < p := by exact_mod_cast hr.trans hrp
  have hlow : ((r : ℚ) / p) * p = r := div_mul_cancel₀ _ hp.ne'
  have hf0 : (0 : ℚ) < r / p := div_pos (by exact_mod_cast hr) hp
  have hf1 : (r : ℚ) / p < 1 := (div_lt_one hp).mpr (by exact_mod_cast hrp)
  have hlt : 2 * r < p ↔ 2 * ((r : ℚ) / p) < 1 := by
    rw [← mul_div_assoc, div_lt_one hp]
    exact_mod_cast Iff.rfl
  have hgt : p < 2 * r ↔ 1 < 2 * ((r : ℚ) / p) := by
    rw [← mul_div_assoc, one_lt_div hp]
    exact_mod_cast Iff.rfl
  generalize (r : ℚ) / p = f at *
  have hq : (0 : ℚ) ≤ q := Nat.cast_nonneg q
  unfold decimalRoundStep
  rw [if_neg hr.ne']
  -- the distance to a candidate, and the magnitudes, do not depend on the sign
  have hdist : ∀ c : ℕ, |((sign * c : ℤ) : ℚ) - sign * (q + f)| = |(c : ℚ) - (q + f)| := by
    intro c
    rcases hsign with rfl | rfl
    · simp
    · rw [← abs_neg]
      congr 1
      push_cast
      ring
  have hk : ∀ c : ℕ, |((sign * c : ℤ) : ℚ)| = c := by
    intro c
    rcases hsign with rfl | rfl <;> simp
  have hx : |(sign : ℚ) * (q + f)| = q + f := by
    rcases hsign with rfl | rfl
    · simp [abs_of_nonneg (add_nonneg hq hf0.le)]
    · rw [Int.cast_neg, Int.cast_one, neg_one_mul, abs_neg, abs_of_nonneg (by linarith)]
  have hdown : |(q : ℚ) - (q + f)| = f := by
    rw [abs_of_nonpos (by linarith)]
    ring
  have hup : |((q + 1 : ℕ) : ℚ) - (q + f)| = 1 - f := by
    push_cast
    rw [abs_of_nonneg (by linarith)]
    ring
  have heven : ∀ c : ℕ, Even (sign * (c : ℤ)) ↔ c % 2 = 0 := by
    intro c
    rcases hsign with rfl | rfl
    · rw [one_mul, Int.even_coe_nat, Nat.even_iff]
    · rw [neg_one_mul, even_neg, Int.even_coe_nat, Nat.even_iff]
  have hnearDown : 2 * f ≤ 1 → 2 * |((sign * q : ℤ) : ℚ) - sign * (q + f)| ≤ 1 := by
    rw [hdist, hdown]
    exact id
  have hnearUp : 1 ≤ 2 * f → 2 * |((sign * (q + 1 : ℕ) : ℤ) : ℚ) - sign * (q + f)| ≤ 1 := by
    rw [hdist, hup]
    intro h
    linarith
  cases mode with
  | up | down | ceiling | floor =>
    rcases hsign with rfl | rfl
    · have hfloor : ⌊((1 : ℤ) : ℚ) * (q + f)⌋ = q := by
        rw [Int.floor_eq_iff]
        push_cast
        constructor <;> linarith
      have hceil : ⌈((1 : ℤ) : ℚ) * (q + f)⌉ = q + 1 := by
        rw [Int.ceil_eq_iff]
        push_cast
        constructor <;> linarith
      have hsgn : 0 ≤ ((1 : ℤ) : ℚ) * (q + f) := by
        push_cast
        linarith
      simp only [Prescribes, hfloor, hceil, if_pos hsgn]
      simp
    · have hfloor : ⌊((-1 : ℤ) : ℚ) * (q + f)⌋ = -(q + 1) := by
        rw [Int.floor_eq_iff]
        push_cast
        constructor <;> linarith
      have hceil : ⌈((-1 : ℤ) : ℚ) * (q + f)⌉ = -q := by
        rw [Int.ceil_eq_iff]
        push_cast
        constructor <;> linarith
      have hsgn : ¬0 ≤ ((-1 : ℤ) : ℚ) * (q + f) := by
        push_cast
        linarith
      simp only [Prescribes, hfloor, hceil, if_neg hsgn]
      simp
  | halfUp =>
    show Prescribes .halfUp _ (sign * ((if p ≤ 2 * r then q + 1 else q : ℕ) : ℤ))
    split
    · next h =>
      have hf : 1 ≤ 2 * f := not_lt.mp fun hlt' => absurd (hlt.mpr hlt') (by omega)
      refine ⟨hnearUp hf, fun _ => ?_⟩
      rw [hx, hk]
      push_cast
      linarith
    · next h =>
      have hf : 2 * f < 1 := hlt.mp (by omega)
      refine ⟨hnearDown hf.le, fun htie => ?_⟩
      rw [hdist, hdown] at htie
      linarith
  | halfDown =>
    show Prescribes .halfDown _ (sign * ((if p < 2 * r then q + 1 else q : ℕ) : ℤ))
    split
    · next h =>
      have hf := hgt.mp h
      refine ⟨hnearUp hf.le, fun htie => ?_⟩
      rw [hdist, hup] at htie
      linarith
    · next h =>
      have hf : 2 * f ≤ 1 := not_lt.mp fun hgt' => h (hgt.mpr hgt')
      refine ⟨hnearDown hf, fun _ => ?_⟩
      rw [hx, hk]
      linarith
  | halfEven =>
    show Prescribes .halfEven _ (sign * ((if p < 2 * r then q + 1 else
      if 2 * r < p then q else if q % 2 = 0 then q else q + 1 : ℕ) : ℤ))
    split
    · next h =>
      have hf := hgt.mp h
      refine ⟨hnearUp hf.le, fun htie => ?_⟩
      rw [hdist, hup] at htie
      linarith
    next hle =>
    have hf : 2 * f ≤ 1 := not_lt.mp fun hgt' => hle (hgt.mpr hgt')
    split
    · next h =>
      refine ⟨hnearDown hf, fun htie => ?_⟩
      rw [hdist, hdown] at htie
      exact absurd (hlt.mp h) (by linarith)
    next hge =>
    have hf' : 1 ≤ 2 * f := not_lt.mp fun hlt' => hge (hlt.mpr hlt')
    split
    · next h => exact ⟨hnearDown hf, fun _ => (heven q).mpr h⟩
    · next h => exact ⟨hnearUp hf', fun _ => (heven (q + 1)).mpr (by omega)⟩

/-- `Sign * decimal_round_step(..)` of a quotient. -/
def roundQuotient (num den : Int) : Int :=
  let sign : Int := if decide (num < 0) ≠ decide (den < 0) then -1 else 1
  sign * decimalRoundStep mode sign (num.natAbs / den.natAbs) (num.natAbs % den.natAbs) den.natAbs

theorem prescribes_roundQuotient {num den : Int} (hden : den ≠ 0) :
    Prescribes mode (num / den) (roundQuotient mode num den) := by
  have hpos : 0 < den.natAbs := Int.natAbs_pos.mpr hden
  unfold roundQuotient
  dsimp only
  generalize hs : (if decide (num < 0) ≠ decide (den < 0) then -1 else 1 : Int) = sign
  have hsign : sign = 1 ∨ sign = -1 := by
    rw [← hs]
    split
    · exact .inr rfl
    · exact .inl rfl
  -- the quotient is the signed quotient of the magnitudes
  have habs : (num : ℚ) / den = sign * ((num.natAbs : ℚ) / den.natAbs) := by
    rw [Nat.cast_natAbs, Nat.cast_natAbs, Int.cast_abs, Int.cast_abs, ← hs]
    rcases lt_or_ge num 0 with hn | hn <;> rcases lt_or_ge den 0 with hd | hd
    · have hn' : (num : ℚ) < 0 := by exact_mod_cast hn
      have hd' : (den : ℚ) < 0 := by exact_mod_cast hd
      simp [hn, hd, abs_of_neg hn', abs_of_neg hd']
    · have hn' : (num : ℚ) < 0 := by exact_mod_cast hn
      have hd' : (0 : ℚ) ≤ den := by exact_mod_cast hd
      simp [hn, not_lt.mpr hd, abs_of_neg hn', abs_of_nonneg hd', neg_div]
    · have hn' : (0 : ℚ) ≤ num := by exact_mod_cast hn
      have hd' : (den : ℚ) < 0 := by exact_mod_cast hd
      simp [not_lt.mpr hn, hd, abs_of_nonneg hn', abs_of_neg hd', div_neg]
    · have hn' : (0 : ℚ) ≤ num := by exact_mod_cast hn
      have hd' : (0 : ℚ) ≤ den := by exact_mod_cast hd
      simp [not_lt.mpr hn, not_lt.mpr hd, abs_of_nonneg hn', abs_of_nonneg hd']
  have hsplit : (num.natAbs : ℚ) / den.natAbs =
      (num.natAbs / den.natAbs : ℕ) + ((num.natAbs % den.natAbs : ℕ) : ℚ) / den.natAbs := by
    have hdiv : (num.natAbs : ℚ) =
        den.natAbs * (num.natAbs / den.natAbs : ℕ) + (num.natAbs % den.natAbs : ℕ) := by
      exact_mod_cast (Nat.div_add_mod num.natAbs den.natAbs).symm
    have hne : (den.natAbs : ℚ) ≠ 0 := by exact_mod_cast hpos.ne'
    rw [div_eq_iff hne, add_mul, div_mul_cancel₀ _ hne, mul_comm]
    exact hdiv
  rw [habs, hsplit]
  rcases Nat.eq_zero_or_pos (num.natAbs % den.natAbs) with hzero | hrest
  · have hstep : ∀ q p, decimalRoundStep mode sign q 0 p = q := fun q p => if_pos rfl
    rw [hzero, hstep, Nat.cast_zero, zero_div, add_zero]
    have hself := prescribes_self mode (sign * (num.natAbs / den.natAbs : ℕ))
    rwa [Int.cast_mul, Int.cast_natCast] at hself
  · exact prescribes_between mode hsign hrest (Nat.mod_lt _ hpos)

/-! ## Operations -/

def decimalPow10 (n : Int) : Except CodecRaise Int :=
  if n < 0 then .error (.functionClause "decimal_pow10") else .ok (10 ^ n.toNat)

def decimalFromInt (n : Int) : DecimalTerm := ⟨n, 0⟩

variable (a b : DecimalTerm)

def decimalTermCmp : Except CodecRaise Int := do
  let s := max a.scale b.scale
  pure (threeWay (a.unscaled * (← decimalPow10 (s - a.scale)))
    (b.unscaled * (← decimalPow10 (s - b.scale))))

def decimalTermAdd : Except CodecRaise DecimalTerm := do
  let s := max a.scale b.scale
  pure ⟨a.unscaled * (← decimalPow10 (s - a.scale)) +
    b.unscaled * (← decimalPow10 (s - b.scale)), s⟩

variable (d : DecimalTerm)

def decimalTermNeg : DecimalTerm := ⟨-d.unscaled, d.scale⟩

def decimalTermSub : Except CodecRaise DecimalTerm :=
  decimalTermAdd a (decimalTermNeg b)

def decimalTermMul : DecimalTerm := ⟨a.unscaled * b.unscaled, a.scale + b.scale⟩

def decimalTermAbs : DecimalTerm := ⟨|d.unscaled|, d.scale⟩

def decimalTermRound (t : Int) (d : DecimalTerm) :
    Except CodecRaise DecimalTerm := do
  if d.scale ≤ t then pure ⟨d.unscaled * (← decimalPow10 (t - d.scale)), t⟩
  else pure ⟨roundQuotient mode d.unscaled (← decimalPow10 (d.scale - t)), t⟩

def decimalTermDiv (t : Int) (a b : DecimalTerm) :
    Except CodecRaise (Except CodecError DecimalTerm) :=
  if b.unscaled = 0 then .ok (.error ⟨"decimal.divide_by_zero", "division by zero"⟩)
  else do
    let e := t + b.scale - a.scale
    if e ≥ 0 then
      pure (.ok ⟨roundQuotient mode (a.unscaled * (← decimalPow10 e)) b.unscaled, t⟩)
    else pure (.ok ⟨roundQuotient mode a.unscaled (b.unscaled * (← decimalPow10 (-e))), t⟩)

/-- `hash_decimal_value`, what the hash of a decimal is fed. -/
def hashDecimalValue (u s : Int) : Int × Int :=
  if u = 0 then (0, 0)
  else if u.tmod 10 = 0 then hashDecimalValue (u.tdiv 10) (s - 1)
  else (u, s)
termination_by u.natAbs
decreasing_by
  rw [Int.natAbs_tdiv]
  exact Nat.div_lt_self (Int.natAbs_pos.mpr ‹_›) (by decide)

/-! ## The rational a decimal denotes -/

def DecimalTerm.value : ℚ := d.unscaled * 10 ^ (-d.scale)

theorem decimalPow10_ok {n : Int} (h : 0 ≤ n) : decimalPow10 n = .ok (10 ^ n.toNat) :=
  if_neg (Int.not_lt.mpr h)

theorem cast_pow10 {n : Int} (h : 0 ≤ n) : ((10 ^ n.toNat : ℤ) : ℚ) = 10 ^ n := by
  rw [Int.cast_pow, ← zpow_natCast, Int.toNat_of_nonneg h]
  rfl

/-- A decimal at a larger scale. -/
theorem value_aligned {s : Int} (h : d.scale ≤ s) :
    d.value = (d.unscaled * 10 ^ (s - d.scale).toNat : ℤ) * 10 ^ (-s) := by
  rw [Int.cast_mul, cast_pow10 (by omega), mul_assoc, ← zpow_add₀ (by norm_num)]
  rw [DecimalTerm.value, show s - d.scale + -s = -d.scale by ring]

theorem pow10_pos (s : Int) : (0 : ℚ) < 10 ^ s := zpow_pos (by norm_num) s

theorem decimalTermCmp_eq : decimalTermCmp a b = .ok (threeWay a.value b.value) := by
  have ha := value_aligned a (le_max_left a.scale b.scale)
  have hb := value_aligned b (le_max_right a.scale b.scale)
  unfold decimalTermCmp
  dsimp only
  rw [decimalPow10_ok (by omega), decimalPow10_ok (by omega)]
  refine congrArg Except.ok (threeWay_congr ?_ ?_)
  · rw [ha, hb, mul_lt_mul_iff_left₀ (pow10_pos _), Int.cast_lt]
  · rw [ha, hb, mul_lt_mul_iff_left₀ (pow10_pos _), Int.cast_lt]

theorem decimalTermAdd_eq :
    ∃ r, decimalTermAdd a b = .ok r ∧ r.scale = max a.scale b.scale ∧
      r.value = a.value + b.value := by
  unfold decimalTermAdd
  dsimp only
  rw [decimalPow10_ok (by omega), decimalPow10_ok (by omega)]
  refine ⟨_, rfl, rfl, ?_⟩
  rw [value_aligned a (le_max_left a.scale b.scale), value_aligned b (le_max_right a.scale b.scale),
    ← add_mul, ← Int.cast_add]
  rfl

theorem value_neg : (decimalTermNeg d).value = -d.value := by
  simp [decimalTermNeg, DecimalTerm.value]

theorem value_mul : (decimalTermMul a b).value = a.value * b.value := by
  simp only [decimalTermMul, DecimalTerm.value, Int.cast_mul, neg_add,
    zpow_add₀ (show (10 : ℚ) ≠ 0 by norm_num)]
  ring

theorem value_abs : (decimalTermAbs d).value = |d.value| := by
  rw [DecimalTerm.value, DecimalTerm.value, abs_mul, abs_of_pos (pow10_pos _)]
  simp [decimalTermAbs]

theorem decimalTermRound_eq (t : Int) (d : DecimalTerm) :
    ∃ r, decimalTermRound mode t d = .ok r ∧ r.scale = t ∧
      Prescribes mode (d.value * 10 ^ t) r.unscaled := by
  have hten : (10 : ℚ) ≠ 0 := by norm_num
  unfold decimalTermRound
  split
  · next h =>
    rw [decimalPow10_ok (by omega)]
    refine ⟨_, rfl, rfl, ?_⟩
    rw [value_aligned d h, mul_assoc, ← zpow_add₀ hten, neg_add_cancel, zpow_zero, mul_one]
    exact prescribes_self mode _
  · next h =>
    rw [decimalPow10_ok (by omega)]
    refine ⟨_, rfl, rfl, ?_⟩
    have hquot : d.value * 10 ^ t =
        (d.unscaled : ℚ) / ((10 ^ (d.scale - t).toNat : ℤ) : ℚ) := by
      rw [cast_pow10 (by omega), DecimalTerm.value, mul_assoc, ← zpow_add₀ hten, div_eq_mul_inv,
        ← zpow_neg]
      congr 2
      ring
    rw [hquot]
    exact prescribes_roundQuotient mode (pow_ne_zero _ (by decide))

theorem decimalTermDiv_eq (t : Int) (a : DecimalTerm) {b : DecimalTerm} (hb : b.unscaled ≠ 0) :
    ∃ r, decimalTermDiv mode t a b = .ok (.ok r) ∧ r.scale = t ∧
      Prescribes mode (a.value / b.value * 10 ^ t) r.unscaled := by
  have hten : (10 : ℚ) ≠ 0 := by norm_num
  have hquot : a.value / b.value * 10 ^ t =
      (a.unscaled : ℚ) / b.unscaled * 10 ^ (t + b.scale - a.scale) := by
    rw [DecimalTerm.value, DecimalTerm.value, mul_div_mul_comm, ← zpow_sub₀ hten, mul_assoc,
      ← zpow_add₀ hten]
    congr 2
    ring
  unfold decimalTermDiv
  rw [if_neg hb, hquot]
  dsimp only
  split
  · next h =>
    rw [decimalPow10_ok h]
    refine ⟨_, rfl, rfl, ?_⟩
    rw [div_mul_eq_mul_div, ← cast_pow10 h, ← Int.cast_mul]
    exact prescribes_roundQuotient mode hb
  · next h =>
    rw [decimalPow10_ok (by omega)]
    refine ⟨_, rfl, rfl, ?_⟩
    have hinv : (10 : ℚ) ^ (t + b.scale - a.scale) = (10 ^ (-(t + b.scale - a.scale)))⁻¹ := by
      rw [← zpow_neg, neg_neg]
    rw [hinv, ← div_eq_mul_inv, div_div, ← cast_pow10 (by omega), ← Int.cast_mul]
    exact prescribes_roundQuotient mode (mul_ne_zero hb (pow_ne_zero _ (show (10 : Int) ≠ 0 by decide)))

/-! ## Hashing -/

/-- The value that is fed ends in no zero. -/
theorem hashDecimalValue_spec (u s : Int) :
    DecimalTerm.value ⟨(hashDecimalValue u s).1, (hashDecimalValue u s).2⟩ =
        DecimalTerm.value ⟨u, s⟩ ∧
      (hashDecimalValue u s = (0, 0) ∨ ¬10 ∣ (hashDecimalValue u s).1) := by
  fun_induction hashDecimalValue u s with
  | case1 s => exact ⟨by simp [DecimalTerm.value], .inl rfl⟩
  | case2 u s _ hten ih =>
    refine ⟨ih.1.trans ?_, ih.2⟩
    obtain ⟨k, rfl⟩ := Int.dvd_of_tmod_eq_zero hten
    rw [Int.mul_tdiv_cancel_left k (by decide)]
    simp only [DecimalTerm.value, neg_sub, zpow_sub₀ (show (10 : ℚ) ≠ 0 by norm_num)]
    rw [zpow_neg]
    push_cast
    field_simp
  | case3 u s _ hten => exact ⟨rfl, .inr fun h => hten (Int.tmod_eq_zero_of_dvd h)⟩

/-- Without a zero at the end one pair has the value. -/
theorem scale_le_of_value_eq {u v s t : Int} (hu : ¬10 ∣ u)
    (h : DecimalTerm.value ⟨u, s⟩ = DecimalTerm.value ⟨v, t⟩) : s ≤ t := by
  by_contra hlt
  rw [not_le] at hlt
  rw [value_aligned ⟨v, t⟩ hlt.le, DecimalTerm.value,
    mul_left_inj' (pow10_pos _).ne', Int.cast_inj] at h
  have hpow : u = v * 10 ^ (s - t).toNat := h
  rw [hpow] at hu
  exact hu (Dvd.dvd.mul_left (dvd_pow_self 10 (by omega)) v)

theorem hashDecimalValue_congr {a b : DecimalTerm} (h : a.value = b.value) :
    hashDecimalValue a.unscaled a.scale = hashDecimalValue b.unscaled b.scale := by
  obtain ⟨ha, ha'⟩ := hashDecimalValue_spec a.unscaled a.scale
  obtain ⟨hb, hb'⟩ := hashDecimalValue_spec b.unscaled b.scale
  have hvalue := ha.trans (h.trans hb.symm)
  generalize hashDecimalValue a.unscaled a.scale = x at *
  generalize hashDecimalValue b.unscaled b.scale = y at *
  have hzero : ∀ {u s : Int}, DecimalTerm.value ⟨u, s⟩ = 0 → 10 ∣ u := fun {u s} hu => by
    rcases mul_eq_zero.mp hu with hu | hu
    · have hzero : u = 0 := Int.cast_eq_zero.mp hu
      rw [hzero]
      exact dvd_zero 10
    · exact absurd hu (pow10_pos _).ne'
  have h00 : DecimalTerm.value ⟨0, 0⟩ = 0 := by simp [DecimalTerm.value]
  rcases ha' with rfl | ha'
  · rcases hb' with rfl | hb'
    · rfl
    · exact absurd (hzero (hvalue.symm.trans h00)) hb'
  · rcases hb' with rfl | hb'
    · exact absurd (hzero (hvalue.trans h00)) ha'
    have hs := le_antisymm (scale_le_of_value_eq ha' hvalue) (scale_le_of_value_eq hb' hvalue.symm)
    rw [DecimalTerm.value, DecimalTerm.value, hs, mul_left_inj' (pow10_pos _).ne',
      Int.cast_inj] at hvalue
    exact Prod.ext hvalue hs

/-! ## The laws -/

/-- The decimals of a program that rounds and divides to allowed digit counts. -/
inductive Computed (allowed : Int → Prop) : DecimalTerm → Prop
  | fromText {s : List Char} {d : DecimalTerm} : decimalFromText s = .ok d → Computed allowed d
  | fromInt (n : Int) : Computed allowed (decimalFromInt n)
  | add {a b r : DecimalTerm} : Computed allowed a → Computed allowed b →
      decimalTermAdd a b = .ok r → Computed allowed r
  | sub {a b r : DecimalTerm} : Computed allowed a → Computed allowed b →
      decimalTermSub a b = .ok r → Computed allowed r
  | mul {a b : DecimalTerm} : Computed allowed a → Computed allowed b →
      Computed allowed (decimalTermMul a b)
  | neg {d : DecimalTerm} : Computed allowed d → Computed allowed (decimalTermNeg d)
  | abs {d : DecimalTerm} : Computed allowed d → Computed allowed (decimalTermAbs d)
  | round {mode : RoundingMode} {t : Int} {d r : DecimalTerm} : allowed t → Computed allowed d →
      decimalTermRound mode t d = .ok r → Computed allowed r
  | div {mode : RoundingMode} {t : Int} {a b r : DecimalTerm} : allowed t → Computed allowed a →
      Computed allowed b → decimalTermDiv mode t a b = .ok (.ok r) → Computed allowed r

structure DecimalLaws (a b : DecimalTerm) : Prop where
  toText : ∃ s, decimalTermToText a = .ok s ∧ decimalFromText s = .ok a
  compare : decimalTermCmp a b = .ok (threeWay a.value b.value)
  hash : a.value = b.value →
    hashDecimalValue a.unscaled a.scale = hashDecimalValue b.unscaled b.scale
  add : ∃ r, decimalTermAdd a b = .ok r ∧ r.value = a.value + b.value
  sub : ∃ r, decimalTermSub a b = .ok r ∧ r.value = a.value - b.value
  mul : (decimalTermMul a b).value = a.value * b.value
  neg : (decimalTermNeg a).value = -a.value
  abs : (decimalTermAbs a).value = |a.value|
  round : ∀ mode t, ∃ r, decimalTermRound mode t a = .ok r ∧ r.scale = t ∧
    Prescribes mode (a.value * 10 ^ t) r.unscaled
  div : ∀ mode t, if b.unscaled = 0
    then decimalTermDiv mode t a b = .ok (.error ⟨"decimal.divide_by_zero", "division by zero"⟩)
    else ∃ r, decimalTermDiv mode t a b = .ok (.ok r) ∧ r.scale = t ∧
      Prescribes mode (a.value / b.value * 10 ^ t) r.unscaled

theorem decimalLaws_of_scale {a : DecimalTerm} (ha : 0 ≤ a.scale) (b : DecimalTerm) :
    DecimalLaws a b where
  toText := decimalTermToText_ok ha
  compare := decimalTermCmp_eq a b
  hash := hashDecimalValue_congr
  add := by
    obtain ⟨r, hr, -, hvalue⟩ := decimalTermAdd_eq a b
    exact ⟨r, hr, hvalue⟩
  sub := by
    obtain ⟨r, hr, -, hvalue⟩ := decimalTermAdd_eq a (decimalTermNeg b)
    exact ⟨r, hr, by rw [hvalue, value_neg, sub_eq_add_neg]⟩
  mul := value_mul a b
  neg := value_neg a
  abs := value_abs a
  round mode t := decimalTermRound_eq mode t a
  div mode t := by
    split
    · next hb => exact if_pos hb
    · next hb => exact decimalTermDiv_eq mode t a hb

variable {allowed : Int → Prop}

/-- No operation makes a negative scale of others, except to a negative digit count. -/
theorem Computed.scale_nonneg (h : ∀ t, allowed t → 0 ≤ t) {d : DecimalTerm}
    (hd : Computed allowed d) : 0 ≤ d.scale := by
  induction hd with
  | fromText hs =>
    unfold decimalFromText at hs
    split at hs
    · cases hs
      exact Int.natCast_nonneg _
    · cases hs
  | fromInt n => exact Int.le_refl 0
  | @add a b r _ _ hr ha _ =>
    obtain ⟨r', hr', hscale, -⟩ := decimalTermAdd_eq a b
    rw [hr] at hr'
    cases hr'
    omega
  | @sub a b r _ _ hr ha _ =>
    obtain ⟨r', hr', hscale, -⟩ := decimalTermAdd_eq a (decimalTermNeg b)
    rw [decimalTermSub, hr'] at hr
    cases hr
    omega
  | mul _ _ ha hb => exact Int.add_nonneg ha hb
  | neg _ hd | abs _ hd => exact hd
  | @round mode t d r ht _ hr _ =>
    obtain ⟨r', hr', hscale, -⟩ := decimalTermRound_eq mode t d
    rw [hr] at hr'
    cases hr'
    exact hscale ▸ h t ht
  | @div mode t a b r ht _ _ hr _ _ =>
    by_cases hb : b.unscaled = 0
    · rw [decimalTermDiv, if_pos hb] at hr
      cases hr
    · obtain ⟨r', hr', hscale, -⟩ := decimalTermDiv_eq mode t a hb
      rw [hr] at hr'
      cases hr'
      exact hscale ▸ h t ht

/-- Zero rounded to a digit count has it for its scale. -/
theorem computed_zero {t : Int} (ht : allowed t) : ∃ d, Computed allowed d ∧ d.scale = t := by
  obtain ⟨r, hr, hscale, -⟩ := decimalTermRound_eq .down t (decimalFromInt 0)
  exact ⟨r, .round ht (.fromInt 0) hr, hscale⟩

/-- The decimals of a program keep every law exactly if it rounds and divides to no negative number
of digits. -/
theorem decimal_laws (allowed : Int → Prop) :
    (∀ a b, Computed allowed a → Computed allowed b → DecimalLaws a b) ↔
      ∀ t, allowed t → 0 ≤ t := by
  constructor
  · intro h t ht
    obtain ⟨d, hd, rfl⟩ := computed_zero ht
    obtain ⟨s, hs, -⟩ := (h d d hd hd).toText
    by_contra hneg
    rw [decimalTermToText, if_pos (Int.not_le.mp hneg)] at hs
    cases hs
  · exact fun h a b ha _ => decimalLaws_of_scale (ha.scale_nonneg h) b

/-- 1234 rounded to hundreds has no text. -/
theorem decimal_lawless :
    Computed (fun _ => True) ⟨12, -2⟩ ∧
      decimalTermToText ⟨12, -2⟩ = .error (.functionClause "decimal_to_text") :=
  ⟨@Computed.round _ .halfEven (-2) _ _ trivial (.fromInt 1234) (by rfl), rfl⟩

end Ridge
