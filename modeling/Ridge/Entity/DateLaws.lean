import Ridge.Entity.RoundTrips

/-!
# ridge_rt — laws of dates and times of day

A date is its day number from 1970-01-01, a time of day its microseconds since midnight: `date_*`
and `tod_*` (`runtime/ridge_rt.erl`) compute with these and write ISO 8601.
-/

namespace Ridge

open List

/-! ## Operations -/

def dateFromYmd (y m d : Int) : Except CodecError Int :=
  if validDate y m d then .ok (dateToGregorianDays y.toNat m.toNat d.toNat - dateEpochGd)
  else .error ⟨"date.invalid", "invalid calendar date"⟩

def dateAddDays (n days : Int) : Int := days + n

def dateDiffDays (a b : Int) : Int := a - b

/-- `if A < B -> -1; A > B -> 1; true -> 0 end`. -/
def threeWay {α : Type} [LT α] [DecidableLT α] (a b : α) : Int :=
  if a < b then -1 else if b < a then 1 else 0

theorem threeWay_congr {α β : Type} [LT α] [DecidableLT α] [LT β] [DecidableLT β] {a b : α}
    {x y : β} (h : a < b ↔ x < y) (h' : b < a ↔ y < x) : threeWay a b = threeWay x y := by
  unfold threeWay
  simp only [h, h']

/-- `date_cmp`. -/
def dateDayCmp (a b : Int) : Int := threeWay a b

def todFromHms (h m s : Int) : Except CodecError TimeOfDay :=
  if hrange : (0 ≤ h ∧ h ≤ 23) ∧ (0 ≤ m ∧ m ≤ 59) ∧ 0 ≤ s ∧ s ≤ 59 then
    .ok ⟨((h * 3600 + m * 60 + s) * 1000000).toNat, by omega⟩
  else .error ⟨"time.invalid", "invalid time of day"⟩

def todMicrosPerDay : Int := 86400000000

/-- `((Shifted rem Day) + Day) rem Day`; `rem` has the sign of the dividend. -/
def todWrap (shifted : Int) : Int :=
  (shifted.tmod todMicrosPerDay + todMicrosPerDay).tmod todMicrosPerDay

theorem todWrap_eq (x : Int) : todWrap x = x % todMicrosPerDay := by
  have hday : (0 : Int) < todMicrosPerDay := by decide
  have hpos : 0 ≤ x.tmod todMicrosPerDay + todMicrosPerDay := by
    have := Int.lt_tmod_of_pos x hday
    omega
  rw [todWrap, Int.tmod_eq_emod_of_nonneg hpos, Int.add_emod_right, Int.tmod_def,
    Int.sub_mul_emod_self_left]

def todAddSeconds (n : Int) (t : TimeOfDay) : TimeOfDay where
  micros := (todWrap (t.micros + n * 1000000)).toNat
  within := by
    have hlt := Int.emod_lt_of_pos (t.micros + n * 1000000) (b := todMicrosPerDay) (by decide)
    rw [todWrap_eq, Int.toNat_lt (Int.emod_nonneg _ (by decide))]
    exact hlt

variable (t u : TimeOfDay)

/-- `(A - B) div 1000000`; `div` rounds towards zero. -/
def todDiffSeconds : Int := (t.micros - u.micros : Int).tdiv 1000000

def todCmp : Int := threeWay t.micros u.micros

inductive DateReached : Int → Prop
  | fromYmd {y m d days : Int} : dateFromYmd y m d = .ok days → DateReached days
  | fromIso {s : List Char} {days : Int} : dateFromIso s = .ok days → DateReached days
  | addDays {n days : Int} : DateReached days → DateReached (dateAddDays n days)

inductive TimeReached : TimeOfDay → Prop
  | fromHms {h m s : Int} {t : TimeOfDay} : todFromHms h m s = .ok t → TimeReached t
  | fromIso {s : List Char} {t : TimeOfDay} : todFromIso s = .ok t → TimeReached t
  | addSeconds {n : Int} {t : TimeOfDay} : TimeReached t → TimeReached (todAddSeconds n t)

theorem dateReached (days : Int) : DateReached days := by
  have hfirst : DateReached (-719528) := .fromYmd (y := 0) (m := 1) (d := 1) (by decide)
  have hdays : dateAddDays (days + 719528) (-719528) = days := by
    unfold dateAddDays
    omega
  exact hdays ▸ hfirst.addDays

theorem timeReached (t : TimeOfDay) : TimeReached t := .fromIso (todFromIso_toIso t)

/-! ## Digits in order -/

variable {r r' : List Char}

/-- Digits of one length come in the order of their numbers, and then what follows them. -/
theorem digits_append_lt {ds ds' : List Char} (hds : ∀ c ∈ ds, c.isDigit = true)
    (hds' : ∀ c ∈ ds', c.isDigit = true) (hlen : ds.length = ds'.length) :
    ds ++ r < ds' ++ r' ↔
      digitsValue ds < digitsValue ds' ∨ digitsValue ds = digitsValue ds' ∧ r < r' := by
  induction ds generalizing ds' with
  | nil =>
    rw [eq_nil_of_length_eq_zero hlen.symm]
    simp
  | cons c ds ih =>
    cases ds' with
    | nil => cases hlen
    | cons c' ds' =>
      have hlen' : ds.length = ds'.length := Nat.succ.inj hlen
      have hrest := fun x hx => hds x (mem_cons_of_mem c hx)
      have hrest' := fun x hx => hds' x (mem_cons_of_mem c' hx)
      have hvalue : ∀ (c : Char) (ds : List Char),
          digitsValue (c :: ds) = (c.toNat - 48) * 10 ^ ds.length + digitsValue ds := fun c ds => by
        rw [← singleton_append, digitsValue_append]
        show (10 * 0 + (c.toNat - '0'.toNat)) * _ + _ = _
        rw [Nat.mul_zero, Nat.zero_add]
        rfl
      have hc : 48 ≤ c.toNat ∧ c.toNat ≤ 57 := Char.isDigit_iff_toNat.mp (hds c mem_cons_self)
      have hc' : 48 ≤ c'.toNat ∧ c'.toNat ≤ 57 :=
        Char.isDigit_iff_toNat.mp (hds' c' mem_cons_self)
      have hlow := digitsValue_lt hrest
      have hlow' := digitsValue_lt hrest'
      rw [cons_append, cons_append, cons_lt_cons_iff, ih hrest hrest' hlen', hvalue, hvalue, hlen']
      rw [hlen'] at hlow
      have hchar : c < c' ↔ c.toNat < c'.toNat := Iff.rfl
      rcases Nat.lt_trichotomy c.toNat c'.toNat with hlt | heq | hgt
      · -- the first digit decides
        have hmul := Nat.mul_le_mul_right (10 ^ ds'.length)
          (show c.toNat - 48 + 1 ≤ c'.toNat - 48 by omega)
        rw [Nat.succ_mul] at hmul
        exact iff_of_true (.inl (hchar.mpr hlt)) (.inl (by omega))
      · obtain rfl : c = c' := Char.toNat_inj.mp heq
        simp only [Nat.add_lt_add_iff_left, Nat.add_left_cancel_iff, hchar, Nat.lt_irrefl,
          false_or, true_and]
      · have hmul := Nat.mul_le_mul_right (10 ^ ds'.length)
          (show c'.toNat - 48 + 1 ≤ c.toNat - 48 by omega)
        rw [Nat.succ_mul] at hmul
        refine iff_of_false (fun h => ?_) fun h => ?_
        · rcases h with h | ⟨rfl, -⟩
          · exact absurd (hchar.mp h) (by omega)
          · exact absurd hgt (Nat.lt_irrefl _)
        · rcases h with h | ⟨h, -⟩ <;> omega

theorem formatPadded_lt {width m n : Nat} (hwidth : 0 < width) (hm : m < 10 ^ width)
    (hn : n < 10 ^ width) :
    formatPadded width m ++ r < formatPadded width n ++ r' ↔ m < n ∨ m = n ∧ r < r' := by
  have hvalue : ∀ k < 10 ^ width, digitsValue (formatPadded width k) = k := fun k hk => by
    rw [formatPadded_of_lt hwidth hk, digitsValue_zeros, digitsValue_toDigits]
  rw [digits_append_lt (formatPadded_digits hwidth hm) (formatPadded_digits hwidth hn)
    (by rw [length_formatPadded, length_formatPadded]), hvalue m hm, hvalue n hn]

theorem separator_lt {c : Char} : c :: r < c :: r' ↔ r < r' := by
  rw [cons_lt_cons_iff]
  exact ⟨fun h => h.elim (fun hc => absurd hc (Char.lt_irrefl c)) And.right, fun h => .inr ⟨rfl, h⟩⟩

/-! ## Dates in order -/

theorem daysBeforeMonth_mono (y : Nat) : Monotone (daysBeforeMonth y) :=
  monotone_nat_of_le_succ fun m => by
    cases m with
    | zero => exact Nat.zero_le _
    | succ m =>
      rw [daysBeforeMonth_succ y (Nat.succ_pos m)]
      exact Nat.le_add_right _ _

theorem daysBeforeYear_mono : Monotone daysBeforeYear :=
  monotone_nat_of_le_succ fun y => by
    rw [daysBeforeYear_succ]
    exact Nat.le_add_right _ _

/-- The date comes before the other, year first. -/
def YmdLt (y m d y' m' d' : Nat) : Prop := y < y' ∨ y = y' ∧ (m < m' ∨ m = m' ∧ d < d')

theorem dateToGregorianDays_lt {y m d y' m' d' : Nat} (hm : 1 ≤ m ∧ m ≤ 12)
    (hd : 1 ≤ d ∧ d ≤ lastDayOfTheMonth y m) (h : YmdLt y m d y' m' d') :
    dateToGregorianDays y m d < dateToGregorianDays y' m' d' := by
  have hmonth := daysBeforeMonth_succ y hm.1
  unfold dateToGregorianDays
  rcases h with h | ⟨rfl, h | ⟨rfl, h⟩⟩
  · have hyear := daysBeforeYear_mono h
    rw [Nat.succ_eq_add_one, daysBeforeYear_succ] at hyear
    have hlast := daysBeforeMonth_mono y (show m + 1 ≤ 13 by omega)
    omega
  · have hnext := daysBeforeMonth_mono y h
    rw [Nat.succ_eq_add_one] at hnext
    omega
  · omega

theorem gregorian_lt_iff {n n' y m d y' m' d' : Nat} (h : gregorianDaysToDate n = (y, m, d))
    (h' : gregorianDaysToDate n' = (y', m', d')) : n < n' ↔ YmdLt y m d y' m' d' := by
  obtain ⟨hm, hm12, hd, hlast, hn⟩ := gregorianDaysToDate_spec n h
  obtain ⟨hm', hm12', hd', hlast', hn'⟩ := gregorianDaysToDate_spec n' h'
  have hlt : YmdLt y m d y' m' d' → n < n' := fun hlt => by
    rw [← hn, ← hn']
    exact dateToGregorianDays_lt ⟨hm, hm12⟩ ⟨hd, hlast⟩ hlt
  have hgt : YmdLt y' m' d' y m d → n' < n := fun hgt => by
    rw [← hn, ← hn']
    exact dateToGregorianDays_lt ⟨hm', hm12'⟩ ⟨hd', hlast'⟩ hgt
  refine ⟨fun hlt' => ?_, hlt⟩
  by_contra hnot
  by_cases hback : YmdLt y' m' d' y m d
  · exact absurd (hgt hback) (by omega)
  · -- neither comes first, so the dates are one
    unfold YmdLt at hnot hback
    obtain ⟨rfl, rfl, rfl⟩ : y = y' ∧ m = m' ∧ d = d' := by omega
    omega

theorem dateToIso_lt {a b : Int} (ha : WritableDate a) (hb : WritableDate b) {s s' : List Char}
    (hs : dateToIso a = .ok s) (hs' : dateToIso b = .ok s') : s < s' ↔ a < b := by
  rcases hdate : gregorianDaysToDate (a + dateEpochGd).toNat with ⟨y, m, d⟩
  rcases hdate' : gregorianDaysToDate (b + dateEpochGd).toNat with ⟨y', m', d'⟩
  obtain ⟨hm, hm12, hd, hlast, -⟩ := gregorianDaysToDate_spec _ hdate
  obtain ⟨hm', hm12', hd', hlast', -⟩ := gregorianDaysToDate_spec _ hdate'
  have h31 := hlast.trans (lastDayOfTheMonth_le y m)
  have h31' := hlast'.trans (lastDayOfTheMonth_le y' m')
  have hy : y < 10000 := by simpa only [hdate] using ha.2
  have hy' : y' < 10000 := by simpa only [hdate'] using hb.2
  rw [dateToIso_eq ha.1 hdate] at hs
  rw [dateToIso_eq hb.1 hdate'] at hs'
  rw [← Except.ok.inj hs, ← Except.ok.inj hs', formatPadded_lt (by decide) hy hy', separator_lt,
    formatPadded_lt (by decide) (by omega) (by omega), separator_lt,
    ← append_nil (formatPadded 2 d), ← append_nil (formatPadded 2 d'),
    formatPadded_lt (by decide) (by omega) (by omega)]
  have horder := gregorian_lt_iff hdate hdate'
  have hepoch := ha.1
  have hepoch' := hb.1
  simp only [not_lt_nil, and_false, or_false]
  exact horder.symm.trans (by omega)

/-! ## Times in order -/

theorem fraction_lt {f f' : Nat} (hf : f < 1000000) (hf' : f' < 1000000) :
    ((if f = 0 then [] else '.' :: formatPadded 6 f) <
      if f' = 0 then [] else '.' :: formatPadded 6 f') ↔ f < f' := by
  by_cases hzero : f = 0
  · by_cases hzero' : f' = 0
    · simp [hzero, hzero']
    · rw [if_pos hzero, if_neg hzero']
      exact iff_of_true (nil_lt_cons _ _) (by omega)
  · by_cases hzero' : f' = 0
    · rw [if_neg hzero, if_pos hzero']
      exact iff_of_false (not_lt_nil _) (by omega)
    · rw [if_neg hzero, if_neg hzero', separator_lt, ← append_nil (formatPadded 6 f),
        ← append_nil (formatPadded 6 f'), formatPadded_lt (by decide) hf hf']
      simp only [not_lt_nil, and_false, or_false]

theorem todToIso_lt : todToIso t < todToIso u ↔ t.micros < u.micros := by
  have ht := t.within
  have hu := u.within
  unfold todToIso
  rw [formatPadded_lt (by decide) (by omega) (by omega), separator_lt,
    formatPadded_lt (by decide) (by omega) (by omega), separator_lt,
    formatPadded_lt (by decide) (by omega) (by omega), fraction_lt (by omega) (by omega)]
  omega

/-! ## The laws -/

-- `threeWay` of two texts is the order of their bytes.
structure DateLaws (a b : Int) : Prop where
  roundTrip : ∀ days ∈ [a, b], ∃ s, dateToIso days = .ok s ∧ dateFromIso s = .ok days
  order : ∀ s s', dateToIso a = .ok s → dateToIso b = .ok s' → threeWay s s' = dateDayCmp a b
  addDiff : dateAddDays (dateDiffDays a b) b = a

structure TimeLaws (t u : TimeOfDay) (n : Int) : Prop where
  roundTrip : ∀ time ∈ [t, u], todFromIso (todToIso time) = .ok time
  order : threeWay (todToIso t) (todToIso u) = todCmp t u
  addSeconds : ((todAddSeconds n t).micros : Int) = (t.micros + n * 1000000) % todMicrosPerDay
  diffSeconds : todDiffSeconds t u = ⌊((t.micros : ℚ) - u.micros) / 1000000⌋

theorem dateLaws_iff (a b : Int) : DateLaws a b ↔ WritableDate a ∧ WritableDate b := by
  constructor
  · intro h
    have hwritable : ∀ days ∈ [a, b], WritableDate days := fun days hdays => by
      obtain ⟨s, hs, hread⟩ := h.roundTrip days hdays
      by_contra hnot
      obtain ⟨e, he⟩ := dateToIso_bad hnot hs
      rw [he] at hread
      cases hread
    exact ⟨hwritable a mem_cons_self, hwritable b (mem_cons_of_mem a mem_cons_self)⟩
  · intro ⟨ha, hb⟩
    refine ⟨fun days hdays => ?_, fun s s' hs hs' => ?_, ?_⟩
    · rcases mem_pair.mp hdays with rfl | rfl
      · exact dateToIso_ok ha
      · exact dateToIso_ok hb
    · exact threeWay_congr (dateToIso_lt ha hb hs hs') (dateToIso_lt hb ha hs' hs)
    · show b + (a - b) = a
      omega

/-- Truncating is rounding down where nothing is cut off or the difference is not negative. -/
theorem todDiffSeconds_floor :
    todDiffSeconds t u = ⌊((t.micros : ℚ) - u.micros) / 1000000⌋ ↔
      u.micros ≤ t.micros ∨ (1000000 : Int) ∣ t.micros - u.micros := by
  have hfloor : ⌊((t.micros : ℚ) - u.micros) / 1000000⌋ =
      ((t.micros - u.micros : Int)) / 1000000 := by
    have hcast : ((t.micros : ℚ) - u.micros) / 1000000 =
        ((t.micros - u.micros : Int) : ℚ) / ((1000000 : ℕ) : ℚ) := by
      push_cast
      rfl
    rw [hcast, Rat.floor_intCast_div_natCast]
    rfl
  rw [hfloor, todDiffSeconds, Int.tdiv_eq_ediv]
  split
  · next h =>
    refine iff_of_true (Int.add_zero _) (h.imp_left fun h => ?_)
    omega
  · next h =>
    rw [not_or] at h
    refine iff_of_false (fun heq => ?_) (not_or.mpr ⟨fun hle => h.1 (by omega), h.2⟩)
    simp at heq

theorem timeLaws_iff (n : Int) :
    TimeLaws t u n ↔ u.micros ≤ t.micros ∨ (1000000 : Int) ∣ t.micros - u.micros := by
  rw [← todDiffSeconds_floor]
  refine ⟨TimeLaws.diffSeconds, fun h => ⟨fun time _ => todFromIso_toIso time, ?_, ?_, h⟩⟩
  · exact threeWay_congr (todToIso_lt t u) (todToIso_lt u t)
  · show ((todWrap _).toNat : Int) = _
    rw [todWrap_eq, Int.toNat_of_nonneg (Int.emod_nonneg _ (by decide))]

/-- Dates keep their laws exactly where four digits hold the year, times exactly where no negative
difference has a fraction. -/
theorem date_time_laws (a b : Int) (t u : TimeOfDay) (n : Int) :
    DateLaws a b ∧ TimeLaws t u n ↔
      WritableDate a ∧ WritableDate b ∧
        (u.micros ≤ t.micros ∨ (1000000 : Int) ∣ t.micros - u.micros) := by
  rw [dateLaws_iff, timeLaws_iff, and_assoc]

/-- A microsecond before a time is rounded up to no second. -/
theorem date_time_unlawful :
    ∃ days t u, DateReached days ∧ TimeReached t ∧ TimeReached u ∧
      todDiffSeconds t u ≠ ⌊((t.micros : ℚ) - u.micros) / 1000000⌋ ∧
      (dateToIso days).isOk = false := by
  refine ⟨-719529, ⟨0, by decide⟩, ⟨1, by decide⟩, dateReached _, timeReached _, timeReached _,
    fun h => ?_, rfl⟩
  rcases (todDiffSeconds_floor _ _).mp h with h | h
  · exact absurd h (by decide)
  · exact absurd h (by decide)

end Ridge
