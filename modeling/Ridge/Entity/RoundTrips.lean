import Ridge.Entity.Scalars

/-!
# The canonical texts read back
-/

namespace Ridge

open List

/-! ## Uuid -/

variable {s : List Char}

theorem uuidValid_chars (h : uuidValid s = true) : ∀ c ∈ s, c = '-' ∨ isLowerHex c = true := by
  intro c hc
  obtain ⟨-, hall⟩ := (Bool.and_eq_true _ _).mp h
  obtain ⟨i, hi, rfl⟩ := mem_iff_getElem.mp hc
  have hat := all_eq_true.mp hall (s[i], i)
    (mem_zipIdx_iff_getElem?.mpr (getElem?_eq_getElem hi))
  by_cases hdash : i ∈ [8, 13, 18, 23]
  · rw [if_pos hdash] at hat
    exact .inl (of_decide_eq_true hat)
  · rw [if_neg hdash] at hat
    exact .inr hat

variable {c : Char}

theorem lowerHex_cases (h : c = '-' ∨ isLowerHex c = true) :
    c.toNat = 45 ∨ 48 ≤ c.toNat ∧ c.toNat ≤ 57 ∨ 97 ≤ c.toNat ∧ c.toNat ≤ 102 := by
  rcases h with rfl | h
  · exact .inl rfl
  · unfold isLowerHex at h
    simp only [Bool.or_eq_true, Bool.and_eq_true, decide_eq_true_eq] at h
    rcases h with ⟨hlo, hhi⟩ | ⟨hlo, hhi⟩
    · exact .inr (.inl ⟨hlo, hhi⟩)
    · exact .inr (.inr ⟨hlo, hhi⟩)

theorem toLower_of_lowerHex (h : c = '-' ∨ isLowerHex c = true) : c.toLower = c := by
  have hrange := lowerHex_cases h
  unfold Char.toLower
  rw [dif_neg]
  rintro ⟨hlo, hhi⟩
  have hlo' : 65 ≤ c.toNat := hlo
  have hhi' : c.toNat ≤ 90 := hhi
  omega

/-- A canonical text is its own canonical form. -/
theorem uuidFromText_toText (u : Uuid) : uuidFromText (uuidToText u) = .ok u := by
  have hchars := uuidValid_chars u.valid
  have htrim : stringTrim u.text = u.text :=
    stringTrim_of_all fun c hc => by
      have hrange := lowerHex_cases (hchars c hc)
      unfold isErlangSpace
      rw [decide_eq_false_iff_not]
      simp only [mem_cons, not_mem_nil, or_false]
      omega
  have hlower : u.text.map Char.toLower = u.text :=
    (map_congr_left fun c hc => toLower_of_lowerHex (hchars c hc)).trans (map_id _)
  unfold uuidFromText uuidToText
  simp only [htrim, hlower, dif_pos u.valid]

/-! ## Bytes -/

variable {n : Nat}

theorem bytesHexNibble_digitChar (h : n < 16) : bytesHexNibble (Nat.digitChar n) = some n := by
  have hall : ∀ k : Fin 16, bytesHexNibble (Nat.digitChar k) = some k.val := by decide
  exact hall ⟨n, h⟩

theorem digitChar_not_space (h : n < 16) : isErlangSpace (Nat.digitChar n) = false := by
  have hall : ∀ k : Fin 16, isErlangSpace (Nat.digitChar k) = false := by decide
  exact hall ⟨n, h⟩

theorem bytesDecodeHexPairs_toHex (raw : List UInt8) :
    bytesDecodeHexPairs (bytesToHex raw) = some raw := by
  induction raw with
  | nil => rfl
  | cons b raw ih =>
    have hb : b.toNat < 256 := UInt8.toNat_lt b
    have hbyte : UInt8.ofNat (b.toNat / 16 * 16 + b.toNat % 16) = b := by
      rw [Nat.div_add_mod' b.toNat 16]
      exact UInt8.ofNat_toNat
    show bytesDecodeHexPairs (Nat.digitChar (b.toNat / 16) :: Nat.digitChar (b.toNat % 16) ::
      bytesToHex raw) = _
    unfold bytesDecodeHexPairs
    rw [bytesHexNibble_digitChar (show b.toNat / 16 < 16 by omega),
      bytesHexNibble_digitChar (show b.toNat % 16 < 16 by omega), ih]
    show some (UInt8.ofNat (b.toNat / 16 * 16 + b.toNat % 16) :: raw) = _
    rw [hbyte]

theorem bytesFromHex_toHex (raw : List UInt8) : bytesFromHex (bytesToHex raw) = .ok raw := by
  have htrim : stringTrim (bytesToHex raw) = bytesToHex raw := by
    apply stringTrim_of_all
    intro c hc
    obtain ⟨b, -, hc⟩ := mem_flatMap.mp hc
    have hb : b.toNat < 256 := UInt8.toNat_lt b
    rcases mem_cons.mp hc with rfl | hc
    · exact digitChar_not_space (by omega)
    · rw [mem_singleton.mp hc]
      exact digitChar_not_space (by omega)
  unfold bytesFromHex
  rw [htrim, bytesDecodeHexPairs_toHex]

/-! ## Decimal -/

theorem decimalExponent_nil : decimalExponent [] = (0, []) := rfl

/-- Digits with a point, after an optional minus sign, read as the number they write. -/
theorem decimalParse_written (neg : Bool) {int frac : List Char}
    (hint : ∀ c ∈ int, c.isDigit = true) (hfrac : ∀ c ∈ frac, c.isDigit = true)
    (hne : int ≠ []) :
    decimalParse ((if neg then ['-'] else []) ++ (int ++ '.' :: frac)) =
      some ⟨(if neg then -1 else 1) * (digitsValue (int ++ frac) : Int), frac.length⟩ := by
  have hsign : decimalSign ((if neg then ['-'] else []) ++ (int ++ '.' :: frac)) =
      (if neg then -1 else 1, int ++ '.' :: frac) := by
    cases neg with
    | true => rfl
    | false =>
      refine decimalSign_of_digit fun c hc => hint c ?_
      obtain ⟨d, int, rfl⟩ := exists_cons_of_ne_nil hne
      exact mem_cons.mpr (.inl (Option.some.inj hc).symm)
  have hrun : decimalDigits (int ++ '.' :: frac) = (int, '.' :: frac) :=
    decimalDigits_append hint fun c hc => by
      rw [← Option.some.inj hc]
      decide
  have hall : int ++ frac ≠ [] := fun h => hne (append_eq_nil_iff.mp h).1
  unfold decimalParse
  simp only [hsign, hrun, decimalDigits_all hfrac, decimalExponent_nil]
  rw [if_pos ⟨trivial, hall⟩]
  unfold decimalNormalize
  rw [Int.sub_zero, if_neg (by omega), Int.toNat_natCast]

/-- Digits without a point read as a number of scale 0. -/
theorem decimalParse_integer (neg : Bool) {int : List Char} (hint : ∀ c ∈ int, c.isDigit = true)
    (hne : int ≠ []) :
    decimalParse ((if neg then ['-'] else []) ++ int) =
      some ⟨(if neg then -1 else 1) * (digitsValue int : Int), 0⟩ := by
  have hsign : decimalSign ((if neg then ['-'] else []) ++ int) =
      (if neg then -1 else 1, int) := by
    cases neg with
    | true => rfl
    | false => exact decimalSign_of_digit fun c hc => hint c (mem_of_mem_head? hc)
  unfold decimalParse
  simp only [hsign, decimalDigits_all hint, decimalExponent_nil, append_nil]
  rw [if_pos ⟨trivial, hne⟩]
  rfl

theorem toList_toString_nat (n : Nat) : (toString n).toList = Nat.toDigits 10 n := by
  show (Nat.repr n).toList = _
  unfold Nat.repr
  exact String.toList_ofList

theorem toList_toString_int (n : Int) :
    (toString n).toList = (if decide (n < 0) then ['-'] else []) ++ Nat.toDigits 10 n.natAbs := by
  cases n with
  | ofNat n => exact toList_toString_nat n
  | negSucc n =>
    show ("-" ++ Nat.repr (n + 1)).toList = _
    have hminus : "-".toList = ['-'] := rfl
    have hneg : decide (Int.negSucc n < 0) = true := decide_eq_true (Int.negSucc_lt_zero n)
    rw [String.toList_append, hminus, hneg]
    exact congrArg (['-'] ++ ·) (toList_toString_nat (n + 1))

theorem sign_mul_natAbs (n : Int) : (if decide (n < 0) then -1 else 1) * (n.natAbs : Int) = n := by
  by_cases h : n < 0
  · rw [if_pos (decide_eq_true h)]
    omega
  · rw [if_neg (by rwa [decide_eq_true_eq])]
    omega

variable (d : Decimal)

/-- The unscaled digits, padded to one more than the scale. -/
def paddedDigits : List Char :=
  List.replicate (d.scale + 1 - (Nat.toDigits 10 d.unscaled.natAbs).length) '0' ++
    Nat.toDigits 10 d.unscaled.natAbs

theorem scale_lt_padded : d.scale < (paddedDigits d).length := by
  unfold paddedDigits
  rw [length_append, length_replicate]
  omega

theorem decimalToText_scaled {d : Decimal} (h : d.scale ≠ 0) :
    (decimalToText d).toList = (if decide (d.unscaled < 0) then ['-'] else []) ++
      ((paddedDigits d).take ((paddedDigits d).length - d.scale) ++
        '.' :: (paddedDigits d).drop ((paddedDigits d).length - d.scale)) := by
  have hdigits : (toString d.unscaled.natAbs).toList = Nat.toDigits 10 d.unscaled.natAbs :=
    toList_toString_nat _
  have hlength : (toString d.unscaled.natAbs).length =
      (Nat.toDigits 10 d.unscaled.natAbs).length := by
    rw [← String.length_toList, hdigits]
  unfold decimalToText paddedDigits
  rw [if_neg h]
  simp only [hdigits, hlength, String.toList_append, String.toList_ofList, append_assoc]
  by_cases hneg : d.unscaled < 0
  · simp [hneg]
  · simp [hneg]

theorem decimalParse_toText : decimalParse (decimalToText d).toList = some d := by
  by_cases h : d.scale = 0
  · have htext : decimalToText d = toString d.unscaled := if_pos h
    rw [htext, toList_toString_int, decimalParse_integer _ (fun c hc => isDigit_of_mem_toDigits hc)
      Nat.toDigits_ne_nil, digitsValue_toDigits, sign_mul_natAbs, ← h]
  · have hdigits : ∀ c ∈ paddedDigits d, c.isDigit = true := fun c hc => isDigit_of_mem_zeros hc
    have hlt := scale_lt_padded d
    have hne : (paddedDigits d).take ((paddedDigits d).length - d.scale) ≠ [] := by
      apply ne_nil_of_length_pos
      rw [length_take]
      omega
    have hscale : ((paddedDigits d).drop ((paddedDigits d).length - d.scale)).length = d.scale := by
      rw [length_drop]
      omega
    have hvalue : digitsValue (paddedDigits d) = d.unscaled.natAbs := by
      unfold paddedDigits
      rw [digitsValue_zeros, digitsValue_toDigits]
    rw [decimalToText_scaled h, decimalParse_written _ (fun c hc => hdigits c (mem_of_mem_take hc))
      (fun c hc => hdigits c (mem_of_mem_drop hc)) hne, take_append_drop, hvalue, hscale,
      sign_mul_natAbs]

theorem decimalToText_chars : ∀ c ∈ (decimalToText d).toList, isErlangSpace c = false := by
  have hsign : ∀ (b : Bool) (c : Char), c ∈ (if b then ['-'] else []) → isErlangSpace c = false := by
    intro b c hc
    cases b with
    | false => exact nomatch hc
    | true =>
      rw [mem_singleton.mp hc]
      decide
  intro c hc
  by_cases h : d.scale = 0
  · have htext : decimalToText d = toString d.unscaled := if_pos h
    rw [htext, toList_toString_int] at hc
    rcases mem_append.mp hc with hc | hc
    · exact hsign _ c hc
    · exact not_space_of_digit (isDigit_of_mem_toDigits hc)
  · rw [decimalToText_scaled h] at hc
    rcases mem_append.mp hc with hc | hc
    · exact hsign _ c hc
    · rcases mem_append.mp hc with hc | hc
      · exact not_space_of_digit (isDigit_of_mem_zeros (mem_of_mem_take hc))
      · rcases mem_cons.mp hc with rfl | hc
        · decide
        · exact not_space_of_digit (isDigit_of_mem_zeros (mem_of_mem_drop hc))

/-- A decimal has a text, and is read back, exactly when its scale is not negative. -/
theorem decimalTermToText_ok {d : DecimalTerm} (h : 0 ≤ d.scale) :
    ∃ s, decimalTermToText d = .ok s ∧ decimalFromText s = .ok d := by
  refine ⟨_, if_neg (Int.not_lt.mpr h), ?_⟩
  unfold decimalFromText
  rw [stringTrim_of_all (decimalToText_chars _), decimalParse_toText]
  show Except.ok (⟨d.unscaled, (d.scale.toNat : Int)⟩ : DecimalTerm) = .ok d
  rw [Int.toNat_of_nonneg h]

/-! ## The calendar -/

theorem daysBeforeMonth_succ (y : Nat) {m : Nat} (h : 1 ≤ m) :
    daysBeforeMonth y (m + 1) = daysBeforeMonth y m + lastDayOfTheMonth y m := by
  obtain ⟨k, rfl⟩ := Nat.exists_eq_add_of_le' h
  unfold daysBeforeMonth
  rw [Nat.add_sub_cancel, Nat.add_sub_cancel, range_succ, map_append, sum_append]
  rfl

theorem daysBeforeYear_succ (y : Nat) :
    daysBeforeYear (y + 1) = daysBeforeYear y + daysBeforeMonth y 13 := by
  unfold daysBeforeYear
  rw [range_succ, map_append, sum_append]
  rfl

theorem lastDayOfTheMonth_pos (y m : Nat) : 28 ≤ lastDayOfTheMonth y m := by
  unfold lastDayOfTheMonth
  split
  · split <;> decide
  · split <;> decide

theorem lastDayOfTheMonth_le (y m : Nat) : lastDayOfTheMonth y m ≤ 31 := by
  unfold lastDayOfTheMonth
  split
  · split <;> decide
  · split <;> decide

theorem le_daysBeforeYear (y : Nat) : y ≤ daysBeforeYear y := by
  induction y with
  | zero => exact Nat.zero_le _
  | succ y ih =>
    have hyear : 28 ≤ daysBeforeMonth y 13 := by
      rw [daysBeforeMonth_succ y (show 1 ≤ 12 by decide)]
      exact Nat.le_add_left_of_le (lastDayOfTheMonth_pos y 12)
    rw [daysBeforeYear_succ]
    omega

theorem gregorianDaysToDate_spec (n : Nat) {y m d : Nat} (h : gregorianDaysToDate n = (y, m, d)) :
    1 ≤ m ∧ m ≤ 12 ∧ 1 ≤ d ∧ d ≤ lastDayOfTheMonth y m ∧ dateToGregorianDays y m d = n := by
  let yr := Nat.findGreatest (fun y => daysBeforeYear y ≤ n) n
  have hle : daysBeforeYear yr ≤ n :=
    Nat.findGreatest_spec (P := fun y => daysBeforeYear y ≤ n) (Nat.zero_le n) (Nat.zero_le n)
  have hlt : n < daysBeforeYear (yr + 1) := by
    by_contra hcon
    have hbound : yr + 1 ≤ n := (le_daysBeforeYear _).trans (Nat.not_lt.mp hcon)
    exact Nat.findGreatest_is_greatest (Nat.lt_succ_self yr) hbound (Nat.not_lt.mp hcon)
  let k := n - daysBeforeYear yr
  let i := Nat.findGreatest (fun m => daysBeforeMonth yr (m + 1) ≤ k) 11
  have hi : i ≤ 11 := Nat.findGreatest_le 11
  have hmonth : daysBeforeMonth yr (i + 1) ≤ k :=
    Nat.findGreatest_spec (P := fun m => daysBeforeMonth yr (m + 1) ≤ k) (Nat.zero_le 11)
      (Nat.zero_le k)
  have hnext : k < daysBeforeMonth yr (i + 2) := by
    by_cases hlast : i = 11
    · rw [daysBeforeYear_succ] at hlt
      rw [hlast]
      show n - daysBeforeYear yr < daysBeforeMonth yr 13
      omega
    · by_contra hcon
      exact Nat.findGreatest_is_greatest (Nat.lt_succ_self i) (by omega) (Nat.not_lt.mp hcon)
  rw [daysBeforeMonth_succ yr (show 1 ≤ i + 1 from Nat.succ_pos i)] at hnext
  have hdate : (yr, i + 1, k - daysBeforeMonth yr (i + 1) + 1) = (y, m, d) := h
  obtain ⟨hy, hdate⟩ := Prod.mk.inj hdate
  obtain ⟨hm, hd⟩ := Prod.mk.inj hdate
  rw [← hy, ← hm, ← hd]
  refine ⟨by omega, by omega, by omega, by omega, ?_⟩
  unfold dateToGregorianDays
  have hk : k = n - daysBeforeYear yr := rfl
  omega

/-! ## Date -/

/-- A date that ISO 8601 writes with four digits of a year. -/
def WritableDate (days : Int) : Prop :=
  0 ≤ days + dateEpochGd ∧ (gregorianDaysToDate (days + dateEpochGd).toNat).1 < 10000

instance (days : Int) : Decidable (WritableDate days) := inferInstanceAs (Decidable (_ ∧ _))

theorem not_mem_of_digits (hc : c.isDigit = false) {ds : List Char}
    (h : ∀ x ∈ ds, x.isDigit = true) : c ∉ ds := fun hmem => by
  rw [h c hmem] at hc
  exact nomatch hc

theorem not_mem_formatPadded (hc : c.isDigit = false) (hstar : c ≠ '*') (width n : Nat) :
    c ∉ formatPadded width n := by
  have hform : formatPadded width n = if width < (Nat.toDigits 10 n).length
      then replicate width '*'
      else replicate (width - (Nat.toDigits 10 n).length) '0' ++ Nat.toDigits 10 n := rfl
  rw [hform]
  split
  · exact fun hmem => hstar (eq_of_mem_replicate hmem)
  · exact not_mem_of_digits hc fun x hx => isDigit_of_mem_zeros hx

theorem splitOn_three (sep : Char) {a b c : List Char} (ha : sep ∉ a) (hb : sep ∉ b) (hc : sep ∉ c) :
    (a ++ sep :: (b ++ sep :: c)).splitOn sep = [a, b, c] := by
  rw [splitOn_append_cons_self_of_not_mem ha, splitOn_append_cons_self_of_not_mem hb,
    splitOn_eq_singleton hc]

variable {days : Int}

theorem dateToIso_eq (h : 0 ≤ days + dateEpochGd) {y m d : Nat}
    (hdate : gregorianDaysToDate (days + dateEpochGd).toNat = (y, m, d)) :
    dateToIso days =
      .ok (formatPadded 4 y ++ '-' :: (formatPadded 2 m ++ '-' :: formatPadded 2 d)) := by
  unfold dateToIso
  rw [if_neg (Int.not_lt.mpr h), hdate]

theorem dateParseIso_written {y m d : Nat} (hm : m < 100) (hd : d < 100) :
    dateParseIso (formatPadded 4 y ++ '-' :: (formatPadded 2 m ++ '-' :: formatPadded 2 d)) =
      if y < 10000 then some ((y : Int), (m : Int), (d : Int)) else none := by
  have hsep : ∀ width n, '-' ∉ formatPadded width n :=
    not_mem_formatPadded (by decide) (by decide)
  unfold dateParseIso
  rw [splitOn_three '-' (hsep 4 y) (hsep 2 m) (hsep 2 d)]
  simp only [stringToInteger_formatPadded (show 0 < 2 by decide) hm,
    stringToInteger_formatPadded (show 0 < 2 by decide) hd]
  by_cases hy : y < 10000
  · rw [stringToInteger_formatPadded (show 0 < 4 by decide) hy, if_pos hy]
  · rw [stringToInteger_overflow (show 0 < 4 by decide) (Nat.not_lt.mp hy), if_neg hy]

theorem dateToIso_ok (h : WritableDate days) :
    ∃ s, dateToIso days = .ok s ∧ dateFromIso s = .ok days := by
  obtain ⟨hepoch, hyear⟩ := h
  rcases hdate : gregorianDaysToDate (days + dateEpochGd).toNat with ⟨y, m, d⟩
  obtain ⟨hm1, hm2, hd1, hd2, hback⟩ := gregorianDaysToDate_spec _ hdate
  have hy : y < 10000 := by rwa [hdate] at hyear
  have hd31 := hd2.trans (lastDayOfTheMonth_le y m)
  refine ⟨_, dateToIso_eq hepoch hdate, ?_⟩
  have hvalid : validDate (y : Int) (m : Int) (d : Int) = true := by
    unfold validDate
    simp only [Int.toNat_natCast, Bool.and_eq_true, decide_eq_true_eq]
    omega
  unfold dateFromIso
  rw [dateParseIso_written (by omega) (by omega), if_pos hy]
  show (if validDate (y : Int) (m : Int) (d : Int) = true then
    Except.ok ((dateToGregorianDays (y : Int).toNat (m : Int).toNat (d : Int).toNat : Int) -
      dateEpochGd) else _) = _
  rw [if_pos hvalid, Int.toNat_natCast, Int.toNat_natCast, Int.toNat_natCast, hback,
    Int.toNat_of_nonneg hepoch, Int.add_sub_cancel]

/-- Any other has no text, or one that is refused. -/
theorem dateToIso_bad (h : ¬ WritableDate days) (hs : dateToIso days = .ok s) :
    ∃ e, dateFromIso s = .error e := by
  by_cases hepoch : 0 ≤ days + dateEpochGd
  · rcases hdate : gregorianDaysToDate (days + dateEpochGd).toNat with ⟨y, m, d⟩
    obtain ⟨hm1, hm2, hd1, hd2, -⟩ := gregorianDaysToDate_spec _ hdate
    have hd31 := hd2.trans (lastDayOfTheMonth_le y m)
    have hy : ¬ y < 10000 := fun hy => h ⟨hepoch, by rwa [hdate]⟩
    rw [dateToIso_eq hepoch hdate] at hs
    rw [← Except.ok.inj hs]
    unfold dateFromIso
    rw [dateParseIso_written (by omega) (by omega), if_neg hy]
    exact ⟨_, rfl⟩
  · unfold dateToIso at hs
    rw [if_pos (Int.not_le.mp hepoch)] at hs
    exact nomatch hs

/-! ## Time of day -/

theorem todInt_formatPadded {width n : Nat} (hwidth : 0 < width) (h : n < 10 ^ width) :
    todInt (formatPadded width n) = some n := by
  unfold todInt
  rw [stringToInteger_formatPadded hwidth h]
  show (if (0 : Int) ≤ (n : Int) then some (n : Int).toNat else none) = _
  rw [if_pos (Int.natCast_nonneg n), Int.toNat_natCast]

theorem todFrac_formatPadded (h : n < 1000000) : todFrac (formatPadded 6 n) = some n := by
  have hdigits := formatPadded_digits (show 0 < 6 by decide) h
  have hlen := length_formatPadded 6 n
  have hne : formatPadded 6 n ≠ [] := ne_nil_of_length_pos (by omega)
  have htake : (formatPadded 6 n ++ replicate 6 '0').take 6 = formatPadded 6 n :=
    take_left' hlen
  unfold todFrac
  rw [if_pos ⟨hne, all_eq_true.mpr hdigits⟩, htake,
    formatPadded_of_lt (show 0 < 6 by decide) h, digitsValue_zeros, digitsValue_toDigits]

theorem todParseSecs_written {secs frac : Nat} (hsecs : secs < 100) (hfrac : frac < 1000000) :
    todParseSecs (formatPadded 2 secs ++ if frac = 0 then [] else '.' :: formatPadded 6 frac) =
      some (secs, frac) := by
  have hsep : ∀ width n, '.' ∉ formatPadded width n :=
    not_mem_formatPadded (by decide) (by decide)
  unfold todParseSecs
  by_cases hzero : frac = 0
  · rw [if_pos hzero, append_nil, splitOn_eq_singleton (hsep 2 secs), hzero]
    show (todInt (formatPadded 2 secs)).map (·, 0) = _
    rw [todInt_formatPadded (by decide) hsecs]
    rfl
  · rw [if_neg hzero, splitOn_append_cons_self_of_not_mem (hsep 2 secs),
      splitOn_eq_singleton (hsep 6 frac)]
    dsimp only
    rw [todInt_formatPadded (by decide) hsecs, todFrac_formatPadded hfrac]

theorem todParseIso_toIso (t : TimeOfDay) :
    todParseIso (todToIso t) = some (t.micros / 1000000 / 3600, t.micros / 1000000 % 3600 / 60,
      t.micros / 1000000 % 60, t.micros % 1000000) := by
  have hwithin := t.within
  have hsep : ∀ width n, ':' ∉ formatPadded width n :=
    not_mem_formatPadded (by decide) (by decide)
  have hrest : ':' ∉ formatPadded 2 (t.micros / 1000000 % 60) ++
      if t.micros % 1000000 = 0 then [] else '.' :: formatPadded 6 (t.micros % 1000000) := by
    intro hmem
    rcases mem_append.mp hmem with hmem | hmem
    · exact hsep _ _ hmem
    · split at hmem
      · cases hmem
      · rcases mem_cons.mp hmem with hmem | hmem
        · exact absurd hmem (by decide)
        · exact hsep _ _ hmem
  unfold todParseIso todToIso
  rw [splitOn_three ':' (hsep _ _) (hsep _ _) hrest]
  dsimp only
  rw [todInt_formatPadded (by decide) (show t.micros / 1000000 / 3600 < 10 ^ 2 by omega),
    todInt_formatPadded (by decide) (show t.micros / 1000000 % 3600 / 60 < 10 ^ 2 by omega),
    todParseSecs_written (show t.micros / 1000000 % 60 < 100 by omega)
      (show t.micros % 1000000 < 1000000 by omega)]

theorem todFromIso_toIso (t : TimeOfDay) : todFromIso (todToIso t) = .ok t := by
  have hwithin := t.within
  have hparse := todParseIso_toIso t
  unfold todFromIso
  split
  · rename_i h m secs frac hread
    rw [hparse] at hread
    obtain ⟨hh, hread⟩ := Prod.mk.inj (Option.some.inj hread)
    obtain ⟨hm, hread⟩ := Prod.mk.inj hread
    obtain ⟨hs, hf⟩ := Prod.mk.inj hread
    have hmicros : (h * 3600 + m * 60 + secs) * 1000000 + frac = t.micros := by omega
    rw [dif_pos (show h ≤ 23 ∧ m ≤ 59 ∧ secs ≤ 59 by omega)]
    exact congrArg Except.ok (TimeOfDay.mk.injEq .. ▸ hmicros)
  · rename_i hread
    rw [hparse] at hread
    exact nomatch hread

end Ridge
