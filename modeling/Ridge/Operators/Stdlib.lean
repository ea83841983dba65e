import Mathlib.Tactic.Linarith
import Ridge.Operators.Select

/-!
# The functions of the standard library behind the operators

`mod` and `pow` are Ridge code over the primitives (`int.ridge`), `++` is a function of the host
(`text.ridge`, `list.ridge`). Each is followed by what it computes.
-/

namespace Ridge

variable (H : HostArith)

/-! ## The primitives on integers -/

theorem isWithin_int (lo hi n : Int) : H.isWithin lo hi (.int n) = decide (lo ≤ n ∧ n ≤ hi) := by
  unfold HostArith.isWithin
  rw [H.le_int, H.le_int, Bool.decide_and]

/-- The first tier lies inside of the second. -/
theorem narrowed_int (label : String) (n : Int) :
    H.narrowed label (.int n) =
      if InIntRange n then .ok (.int n) else .error (outOfRange label (.int n)) := by
  unfold HostArith.narrowed
  rw [isWithin_int, isWithin_int, ← Bool.decide_or]
  have htier : ((fixnumMin ≤ n ∧ n ≤ fixnumMax) ∨ intMin ≤ n ∧ n ≤ intMax) ↔ InIntRange n := by
    unfold InIntRange fixnumMin fixnumMax intMin intMax
    omega
  by_cases h : InIntRange n
  · rw [if_pos h, if_pos (decide_eq_true (htier.mpr h))]
  · rw [if_neg h, if_neg (fun hd => h (htier.mp (of_decide_eq_true hd)))]

/-- An integer result: itself where `Int` has it, and the out-of-range error elsewhere. -/
def intEnd (label : String) (n : Int) : HostEnd :=
  if InIntRange n then .ok (.int n) else .error (outOfRange label (.int n))

theorem run_add (a b : Int) :
    runPrimitive H ("std.int", "add") [.int a, .int b] = intEnd "Int.add" (a + b) :=
  narrowed_int H _ (a + b)

theorem run_sub (a b : Int) :
    runPrimitive H ("std.int", "sub") [.int a, .int b] = intEnd "Int.sub" (a - b) :=
  narrowed_int H _ (a - b)

theorem run_mul (a b : Int) :
    runPrimitive H ("std.int", "mul") [.int a, .int b] = intEnd "Int.mul" (a * b) :=
  narrowed_int H _ (a * b)

theorem run_neg (a : Int) : runPrimitive H ("std.int", "neg") [.int a] = intEnd "Int.neg" (-a) :=
  narrowed_int H _ (-a)

variable {a b : Int}

theorem run_div (hb : b ≠ 0) :
    runPrimitive H ("std.int", "div") [.int a, .int b] = intEnd "Int.div" (a.tdiv b) := by
  have hrun : H.erlang "div" [.int a, .int b] = .ok (.int (a.tdiv b)) := if_neg hb
  show PrimitiveEntry.run H ⟨("std.int", "div"), "div", 2, .widerThanInt⟩ [.int a, .int b] = _
  unfold PrimitiveEntry.run
  rw [hrun]
  exact narrowed_int H _ _

theorem run_div_zero (v : CErlVal) :
    runPrimitive H ("std.int", "div") [v, .int 0] = .error badarith := by
  cases v <;> rfl

theorem run_rem (hb : b ≠ 0) :
    runPrimitive H ("std.int", "rem") [.int a, .int b] = .ok (.int (a.tmod b)) := by
  have hrun : H.erlang "rem" [.int a, .int b] = .ok (.int (a.tmod b)) := if_neg hb
  show PrimitiveEntry.run H ⟨("std.int", "rem"), "rem", 2, .exact⟩ [.int a, .int b] = _
  unfold PrimitiveEntry.run
  rw [hrun]
  rfl

theorem run_rem_zero (v : CErlVal) :
    runPrimitive H ("std.int", "rem") [v, .int 0] = .error badarith := by
  cases v <;> rfl

variable {n : Int}

variable {label : String}

theorem intEnd_ok (h : InIntRange n) : intEnd label n = .ok (.int n) :=
  if_pos h

theorem intEnd_error (h : ¬ InIntRange n) : intEnd label n = .error (outOfRange label (.int n)) :=
  if_neg h

theorem intEnd_eq_ok {v : CErlVal} (h : intEnd label n = .ok v) : v = .int n := by
  unfold intEnd at h
  split at h
  · exact (Except.ok.inj h).symm
  · cases h

/-! ## Modulo -/

/-- `Int.mod`. The two tests read the order of `Int`; a divisor that is no integer has raised in
the remainder before. -/
def stdIntMod (a b : CErlVal) : HostEnd :=
  match runPrimitive H ("std.int", "rem") [a, b] with
  | .error reason => .error reason
  | .ok (.int r) =>
    match b with
    | .int b =>
      if r = 0 ∨ (r < 0 ↔ b < 0) then .ok (.int r)
      else runPrimitive H ("std.int", "add") [.int r, .int b]
    | b => runPrimitive H ("std.int", "add") [.int r, b]
  | .ok r => .ok r

/-- The remainder that agrees in sign with the divisor. -/
theorem fmod_of_tmod (a b : Int) :
    a.fmod b = if a.tmod b = 0 ∨ (a.tmod b < 0 ↔ b < 0) then a.tmod b else a.tmod b + b := by
  have hdvd : b ∣ a ↔ a.tmod b = 0 := Int.dvd_iff_tmod_eq_zero
  rw [Int.fmod_eq_tmod]
  by_cases hr : a.tmod b = 0
  · rw [if_pos (hdvd.mpr hr), if_pos (.inl hr), Int.add_zero]
  · rw [if_neg (fun h => hr (hdvd.mp h))]
    by_cases ha : 0 ≤ a
    · have hnonneg := Int.tmod_nonneg b ha
      rw [if_pos ha]
      by_cases hb0 : 0 ≤ b
      · rw [if_pos hb0, if_pos (.inr (by omega)), Int.add_zero]
      · rw [if_neg hb0, if_neg (by omega)]
    · have hnonpos : a.tmod b ≤ 0 := by
        have h := Int.tmod_nonneg b (show 0 ≤ -a by omega)
        rw [Int.neg_tmod] at h
        omega
      rw [if_neg ha]
      by_cases hb0 : 0 ≤ b
      · rw [if_pos hb0, if_neg (by omega)]
        omega
      · rw [if_neg hb0, if_pos (.inr (by omega))]
        omega

/-- A remainder is smaller than its divisor, and a sum of two opposite signs than either. -/
theorem inIntRange_fmod (hb : b ≠ 0) (hrange : InIntRange b) : InIntRange (a.fmod b) := by
  have hrange' : intMin ≤ b ∧ b ≤ intMax := hrange
  unfold intMin intMax at hrange'
  show intMin ≤ a.fmod b ∧ a.fmod b ≤ intMax
  unfold intMin intMax
  rcases Int.lt_or_gt_of_ne hb with hneg | hpos
  · have h₁ := Int.fmod_nonneg_of_pos (-a) (b := -b) (by omega)
    have h₂ := Int.fmod_lt_of_pos (-a) (b := -b) (by omega)
    rw [Int.neg_fmod_neg] at h₁ h₂
    omega
  · have h₁ := Int.fmod_nonneg_of_pos a hpos
    have h₂ := Int.fmod_lt_of_pos a hpos
    omega

theorem stdIntMod_int (hb : b ≠ 0) (hrange : InIntRange b) :
    stdIntMod H (.int a) (.int b) = .ok (.int (a.fmod b)) := by
  have hmod := fmod_of_tmod a b
  have hfit := inIntRange_fmod (a := a) hb hrange
  unfold stdIntMod
  rw [run_rem H hb]
  by_cases h : a.tmod b = 0 ∨ (a.tmod b < 0 ↔ b < 0)
  · rw [if_pos h] at hmod
    rw [hmod]
    exact if_pos h
  · rw [if_neg h] at hmod
    rw [hmod] at hfit ⊢
    have hadd := (run_add H (a.tmod b) b).trans (intEnd_ok hfit)
    exact (if_neg h).trans hadd

theorem stdIntMod_zero (v : CErlVal) : stdIntMod H v (.int 0) = .error badarith := by
  unfold stdIntMod
  rw [run_rem_zero]

/-! ## Powers -/

/-- `Int.pow`, at an exponent that is an integer: repeated squaring. -/
def stdIntPowInt (base : CErlVal) (exp : Int) : HostEnd :=
  if exp < 0 then .ok (.int 0)
  else if exp = 0 then .ok (.int 1)
  else
    match runPrimitive H ("std.int", "rem") [.int exp, .int 2] with
    | .error reason => .error reason
    | .ok (.int r) =>
      if r = 0 then
        match _hdiv : runPrimitive H ("std.int", "div") [.int exp, .int 2] with
        | .error reason => .error reason
        | .ok (.int half) =>
          HostEnd.andThen (stdIntPowInt base half) fun p =>
            runPrimitive H ("std.int", "mul") [p, p]
        | .ok v => .ok v
      else
        match _hsub : runPrimitive H ("std.int", "sub") [.int exp, .int 1] with
        | .error reason => .error reason
        | .ok (.int pred) =>
          HostEnd.andThen (stdIntPowInt base pred) fun p =>
            runPrimitive H ("std.int", "mul") [base, p]
        | .ok v => .ok v
    | .ok v => .ok v
termination_by exp.toNat
decreasing_by
  · rw [run_div H (by decide)] at _hdiv
    have hhalf := CErlVal.int.inj (intEnd_eq_ok _hdiv)
    have hdiv : exp.tdiv 2 = exp / 2 := Int.tdiv_eq_ediv_of_nonneg (by omega)
    omega
  · rw [run_sub H] at _hsub
    have hpred := CErlVal.int.inj (intEnd_eq_ok _hsub)
    omega

/-- `Int.pow`. An exponent that is no integer is below zero or raises in the remainder. -/
def stdIntPow (base exp : CErlVal) : HostEnd :=
  match exp with
  | .int e => stdIntPowInt H base e
  | exp =>
    if H.le (.int 0) exp then runPrimitive H ("std.int", "rem") [exp, .int 2] else .ok (.int 0)

/-- The power of an integer; the convention of `Int.pow` is 0 where the exponent is negative. -/
def exactPow (base exp : Int) : Int := if exp < 0 then 0 else base ^ exp.toNat

/-- A result in the range is answered, any other is an out-of-range error. -/
def ExactInt (n : Int) (r : HostEnd) : Prop :=
  if InIntRange n then r = .ok (.int n) else ∃ label m, r = .error (outOfRange label m)

theorem exactInt_intEnd (label : String) (n : Int) : ExactInt n (intEnd label n) := by
  unfold ExactInt
  by_cases h : InIntRange n
  · rw [if_pos h, intEnd_ok h]
  · rw [if_neg h, intEnd_error h]
    exact ⟨label, _, rfl⟩

/-- A square is as large as its root, so a root out of range has no square in it. -/
theorem inIntRange_of_square {p : Int} (h : InIntRange (p * p)) : InIntRange p := by
  have hle : -(p * p) ≤ p ∧ p ≤ p * p := by
    constructor <;> nlinarith [mul_self_nonneg (p - 1), mul_self_nonneg (p + 1), mul_self_nonneg p]
  unfold InIntRange intMin intMax at h ⊢
  omega

/-- The power below an odd power in range is in range: it is a square, and one factor smaller. -/
theorem inIntRange_of_odd {base : Int} {k : Nat} (h : InIntRange (base * (base ^ k * base ^ k))) :
    InIntRange (base ^ k * base ^ k) := by
  obtain ⟨q, hq⟩ : ∃ q, q = base ^ k * base ^ k := ⟨_, rfl⟩
  have hnonneg : 0 ≤ q := hq ▸ mul_self_nonneg _
  rw [← hq] at h ⊢
  unfold InIntRange intMin intMax at h ⊢
  refine ⟨by omega, ?_⟩
  by_contra hlarge
  rcases lt_trichotomy base 0 with hneg | rfl | hpos
  · by_cases hone : base = -1
    · -- the only power of -1 outside of the range would be that of a square
      rw [hone] at hq
      rcases neg_one_pow_eq_or Int k with hk | hk <;> rw [hk] at hq <;> omega
    · have hmul : base * q ≤ -2 * q := mul_le_mul_of_nonneg_right (by omega) hnonneg
      omega
  · rcases Nat.eq_zero_or_pos k with rfl | hk
    · omega
    · rw [zero_pow (by omega)] at hq
      omega
  · have hmul : 1 * q ≤ base * q := mul_le_mul_of_nonneg_right (by omega) hnonneg
    omega

variable {r : HostEnd}

theorem exactInt_of_range (h : InIntRange n) : ExactInt n r ↔ r = .ok (.int n) := by
  unfold ExactInt
  rw [if_pos h]

theorem exactInt_of_not (h : ¬ InIntRange n) :
    ExactInt n r ↔ ∃ label m, r = .error (outOfRange label m) := by
  unfold ExactInt
  rw [if_neg h]

/-- One multiplication more: where the first power has left the range, so has the second. -/
theorem exactInt_mul {n m : Int} (hr : ExactInt n r) (f : CErlVal → HostEnd)
    (hf : f (.int n) = intEnd "Int.mul" m) (hrange : InIntRange m → InIntRange n) :
    ExactInt m (HostEnd.andThen r f) := by
  by_cases hn : InIntRange n
  · rw [(exactInt_of_range hn).mp hr]
    show ExactInt m (f (.int n))
    rw [hf]
    exact exactInt_intEnd _ m
  · obtain ⟨label, v, hlabel⟩ := (exactInt_of_not hn).mp hr
    rw [hlabel]
    exact (exactInt_of_not fun hm => hn (hrange hm)).mpr ⟨label, v, rfl⟩

theorem exactPow_of_nonneg (base : Int) {exp : Int} (h : 0 ≤ exp) :
    exactPow base exp = base ^ exp.toNat := by
  unfold exactPow
  exact if_neg (by omega)

/-- By strong induction on the exponent, one squaring or one multiplication a turn. -/
theorem stdIntPowInt_exact (base : Int) {exp : Int} (hexp : InIntRange exp) :
    ExactInt (exactPow base exp) (stdIntPowInt H (.int base) exp) := by
  induction hn : exp.toNat using Nat.strong_induction_on generalizing exp with
  | _ n ih =>
    rw [stdIntPowInt]
    by_cases hneg : exp < 0
    · rw [if_pos hneg]
      unfold exactPow
      rw [if_pos hneg]
      exact (exactInt_of_range (by decide)).mpr rfl
    · rw [if_neg hneg]
      by_cases hzero : exp = 0
      · have hone : exactPow base exp = 1 := by
          rw [hzero, exactPow_of_nonneg base (Int.le_refl 0)]
          exact pow_zero base
        rw [if_pos hzero, hone]
        exact (exactInt_of_range (by decide)).mpr rfl
      · rw [if_neg hzero, run_rem H (by decide)]
        have hrange : intMin ≤ exp ∧ exp ≤ intMax := hexp
        unfold intMin intMax at hrange
        have hmod : exp.tmod 2 = exp % 2 := Int.tmod_eq_emod_of_nonneg (by omega)
        have hdiv : exp.tdiv 2 = exp / 2 := Int.tdiv_eq_ediv_of_nonneg (by omega)
        show ExactInt (exactPow base exp) (if exp.tmod 2 = 0 then _ else _)
        by_cases heven : exp.tmod 2 = 0
        · rw [if_pos heven]
          have hhalf : InIntRange (exp.tdiv 2) := by
            show intMin ≤ _ ∧ _ ≤ intMax
            unfold intMin intMax
            omega
          rw [(run_div H (a := exp) (b := 2) (by decide)).trans (intEnd_ok hhalf)]
          have hpow := ih (exp.tdiv 2).toNat (by omega) hhalf rfl
          have hsquare : exactPow base exp =
              exactPow base (exp.tdiv 2) * exactPow base (exp.tdiv 2) := by
            rw [exactPow_of_nonneg base (by omega), exactPow_of_nonneg base (by omega),
              ← pow_add]
            congr 1
            omega
          show ExactInt _ (HostEnd.andThen (stdIntPowInt H (.int base) (exp.tdiv 2)) fun p =>
            runPrimitive H ("std.int", "mul") [p, p])
          rw [hsquare]
          exact exactInt_mul hpow _ (run_mul H _ _) inIntRange_of_square
        · rw [if_neg heven]
          have hpred : InIntRange (exp - 1) := by
            show intMin ≤ _ ∧ _ ≤ intMax
            unfold intMin intMax
            omega
          rw [(run_sub H exp 1).trans (intEnd_ok hpred)]
          have hpow := ih (exp - 1).toNat (by omega) hpred rfl
          have hsquare : exactPow base (exp - 1) =
              base ^ (exp.toNat / 2) * base ^ (exp.toNat / 2) := by
            rw [exactPow_of_nonneg base (by omega), ← pow_add]
            congr 1
            omega
          have hodd : exactPow base exp = base * exactPow base (exp - 1) := by
            rw [exactPow_of_nonneg base (by omega), exactPow_of_nonneg base (by omega),
              ← pow_succ']
            congr 1
            omega
          show ExactInt _ (HostEnd.andThen (stdIntPowInt H (.int base) (exp - 1)) fun p =>
            runPrimitive H ("std.int", "mul") [.int base, p])
          rw [hodd]
          refine exactInt_mul hpow _ (run_mul H _ _) fun h => ?_
          rw [hsquare] at h ⊢
          exact inIntRange_of_odd h

/-! ## Concatenation -/

/-- `erlang:iolist_to_binary/1`: bytes, binaries and lists of them, in order. -/
def iolistBytes : CErlVal → Option (List UInt8)
  | .nil => some []
  | .binary bytes => some bytes
  | .cons (.int n) tail =>
    if 0 ≤ n ∧ n < 256 then (iolistBytes tail).map (UInt8.ofNat n.toNat :: ·) else none
  | .cons head tail =>
    match iolistBytes head, iolistBytes tail with
    | some front, some back => some (front ++ back)
    | _, _ => none
  | _ => none

/-- `Text.concat`. -/
def stdTextConcat (a b : CErlVal) : HostEnd :=
  match iolistBytes (.cons a (.cons b .nil)) with
  | some bytes => .ok (.binary bytes)
  | none => .error badarg

/-- `lists:append/2`. -/
def appendTo (back : CErlVal) : CErlVal → Option CErlVal
  | .nil => some back
  | .cons head tail => (appendTo back tail).map (.cons head)
  | _ => none

/-- `List.concat`. -/
def stdListConcat (a b : CErlVal) : HostEnd :=
  match appendTo b a with
  | some v => .ok v
  | none => .error badarg

theorem stdTextConcat_binary (a b : List UInt8) :
    stdTextConcat (.binary a) (.binary b) = .ok (.binary (a ++ b)) := by
  have h : iolistBytes (.cons (.binary a) (.cons (.binary b) .nil)) = some (a ++ (b ++ [])) := by
    simp [iolistBytes]
  unfold stdTextConcat
  rw [h, List.append_nil]

theorem appendTo_ofList (vs ws : List CErlVal) :
    appendTo (.ofList ws) (.ofList vs) = some (.ofList (vs ++ ws)) := by
  induction vs with
  | nil => rfl
  | cons v vs ih =>
    show (appendTo (.ofList ws) (.ofList vs)).map (CErlVal.cons v) = _
    rw [ih]
    rfl

theorem stdListConcat_ofList (vs ws : List CErlVal) :
    stdListConcat (.ofList vs) (.ofList ws) = .ok (.ofList (vs ++ ws)) := by
  unfold stdListConcat
  rw [appendTo_ofList]

end Ridge
