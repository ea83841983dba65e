import Ridge.Mem.Value

/-!
# The rich scalars and their canonical texts

`Decimal`, `Uuid`, `Bytes`, `Date` and `Time` as the runtime carries them, and the bridges of the
SQL codec over them (`runtime/ridge_rt.erl`). A bridge from text answers an `Error`; a bridge to
text that has no clause for its operand raises.
-/

/-!
## The texts of numbers

What the runtime's codecs write and read with `io_lib:format`, `string:to_integer`, `string:split`
and `string:trim` (`runtime/ridge_rt.erl`). A text is a list of characters.
-/

namespace Ridge

open List

/-- `~W..0b`: zeros up to the width, asterisks where the digits do not fit. -/
def formatPadded (width n : Nat) : List Char :=
  let digits := Nat.toDigits 10 n
  if width < digits.length then List.replicate width '*'
  else List.replicate (width - digits.length) '0' ++ digits

/-- `string:to_integer`: a sign, one digit at least, and what is left over. -/
def stringToInteger (s : List Char) : Option (Int × List Char) :=
  let (sign, r) := decimalSign s
  match decimalDigits r with
  | ([], _) => none
  | (ds, rest) => some (sign * digitsValue ds, rest)

/-- The characters `string:trim` takes off. -/
def isErlangSpace (c : Char) : Bool :=
  c.toNat ∈ [9, 10, 11, 12, 13, 32, 133, 8206, 8207, 8232, 8233]

/-- `string:trim`. -/
def stringTrim (s : List Char) : List Char :=
  ((s.dropWhile isErlangSpace).reverse.dropWhile isErlangSpace).reverse

/-! ## Digits -/

theorem digitsValue_eq (ds : List Char) : digitsValue ds = Nat.ofDigitChars 10 ds 0 := by
  rw [Nat.ofDigitChars_eq_foldl]
  rfl

theorem digitsValue_toDigits (n : Nat) : digitsValue (Nat.toDigits 10 n) = n := by
  rw [digitsValue_eq, Nat.ofDigitChars_ten_toDigits]

theorem digitsValue_zeros (k : Nat) (ds : List Char) :
    digitsValue (replicate k '0' ++ ds) = digitsValue ds := by
  rw [digitsValue_eq, digitsValue_eq, Nat.ofDigitChars_append, Nat.ofDigitChars_replicate_zero,
    Nat.mul_zero]

theorem digitsValue_append (a b : List Char) :
    digitsValue (a ++ b) = digitsValue a * 10 ^ b.length + digitsValue b := by
  rw [digitsValue_eq, digitsValue_eq, digitsValue_eq, Nat.ofDigitChars_append,
    Nat.ofDigitChars_eq_ofDigitChars_zero, Nat.mul_comm]

variable {ds : List Char}

theorem digitsValue_lt (h : ∀ c ∈ ds, c.isDigit = true) : digitsValue ds < 10 ^ ds.length := by
  induction ds with
  | nil => decide
  | cons c ds ih =>
    have hrest := ih fun x hx => h x (mem_cons_of_mem c hx)
    have hc : 48 ≤ c.toNat ∧ c.toNat ≤ 57 := Char.isDigit_iff_toNat.mp (h c mem_cons_self)
    have hone : digitsValue [c] = c.toNat - 48 := by
      show 10 * 0 + (c.toNat - '0'.toNat) = _
      rw [Nat.mul_zero, Nat.zero_add]
      rfl
    have hle : digitsValue [c] ≤ 9 := by omega
    rw [← singleton_append, digitsValue_append, length_append, length_singleton,
      Nat.pow_add, Nat.pow_one]
    have hmul := Nat.mul_le_mul_right (10 ^ ds.length) hle
    omega

variable {c : Char}

theorem isDigit_of_mem_toDigits {n : Nat} (h : c ∈ Nat.toDigits 10 n) : c.isDigit = true :=
  Nat.isDigit_of_mem_toDigits (by decide) (by decide) h

theorem isDigit_of_mem_zeros {k n : Nat} (h : c ∈ replicate k '0' ++ Nat.toDigits 10 n) :
    c.isDigit = true := by
  rcases mem_append.mp h with h | h
  · rw [eq_of_mem_replicate h]
    rfl
  · exact isDigit_of_mem_toDigits h

theorem decimalDigits_append {ds rest : List Char} (hds : ∀ c ∈ ds, c.isDigit = true)
    (hrest : ∀ c ∈ rest.head?, c.isDigit = false) : decimalDigits (ds ++ rest) = (ds, rest) := by
  have hstop : rest.takeWhile Char.isDigit = [] ∧ rest.dropWhile Char.isDigit = rest := by
    cases rest with
    | nil => exact ⟨rfl, rfl⟩
    | cons c rest =>
      have hc : c.isDigit = false := hrest c rfl
      exact ⟨takeWhile_cons_of_neg (by simp [hc]), dropWhile_cons_of_neg (by simp [hc])⟩
  unfold decimalDigits
  rw [span_eq_takeWhile_dropWhile, takeWhile_append_of_pos hds,
    dropWhile_append_of_pos hds, hstop.1, hstop.2, append_nil]

theorem decimalDigits_all (hds : ∀ c ∈ ds, c.isDigit = true) : decimalDigits ds = (ds, []) := by
  have hempty : ∀ c ∈ ([] : List Char).head?, c.isDigit = false := nofun
  have h := decimalDigits_append hds hempty
  rwa [append_nil] at h

variable {s : List Char}

theorem decimalSign_of_digit (h : ∀ c ∈ s.head?, c.isDigit = true) : decimalSign s = (1, s) := by
  unfold decimalSign
  split
  · exact absurd (h '-' rfl) (by decide)
  · exact absurd (h '+' rfl) (by decide)
  · rfl

/-- Digits read as their number, with nothing left over. -/
theorem stringToInteger_digits (hds : ∀ c ∈ ds, c.isDigit = true) (hne : ds ≠ []) :
    stringToInteger ds = some ((digitsValue ds : Int), []) := by
  unfold stringToInteger
  rw [decimalSign_of_digit fun c hc => hds c (mem_of_mem_head? hc)]
  show (match decimalDigits ds with
    | ([], _) => none
    | (ds, rest) => some (1 * (digitsValue ds : Int), rest)) = _
  rw [decimalDigits_all hds]
  cases ds with
  | nil => exact absurd rfl hne
  | cons c ds =>
    show some (1 * (digitsValue (c :: ds) : Int), ([] : List Char)) = _
    rw [Int.one_mul]

/-! ## Padding -/

variable {width n : Nat}

theorem formatPadded_of_lt (hwidth : 0 < width) (h : n < 10 ^ width) :
    formatPadded width n =
      replicate (width - (Nat.toDigits 10 n).length) '0' ++ Nat.toDigits 10 n := by
  have hlen : (Nat.toDigits 10 n).length ≤ width :=
    (Nat.length_toDigits_le_iff (by decide) hwidth).mpr h
  unfold formatPadded
  rw [if_neg (Nat.not_lt.mpr hlen)]

theorem formatPadded_digits (hwidth : 0 < width) (h : n < 10 ^ width) :
    ∀ c ∈ formatPadded width n, c.isDigit = true := by
  rw [formatPadded_of_lt hwidth h]
  exact fun c hc => isDigit_of_mem_zeros hc

theorem length_formatPadded (width n : Nat) : (formatPadded width n).length = width := by
  show (if width < (Nat.toDigits 10 n).length then replicate width '*'
    else replicate (width - (Nat.toDigits 10 n).length) '0' ++ Nat.toDigits 10 n).length = _
  by_cases hlen : width < (Nat.toDigits 10 n).length
  · rw [if_pos hlen, length_replicate]
  · rw [if_neg hlen, length_append, length_replicate]
    omega

/-- A padded number that fits reads back. -/
theorem stringToInteger_formatPadded (hwidth : 0 < width) (h : n < 10 ^ width) :
    stringToInteger (formatPadded width n) = some ((n : Int), []) := by
  have hne : formatPadded width n ≠ [] := by
    intro hnil
    have hlen := length_formatPadded width n
    rw [hnil, length_nil] at hlen
    omega
  rw [stringToInteger_digits (formatPadded_digits hwidth h) hne, formatPadded_of_lt hwidth h,
    digitsValue_zeros, digitsValue_toDigits]

/-- One that does not fit reads as no number. -/
theorem stringToInteger_overflow (hwidth : 0 < width) (h : 10 ^ width ≤ n) :
    stringToInteger (formatPadded width n) = none := by
  have hlen : width < (Nat.toDigits 10 n).length := by
    by_contra hcon
    exact absurd ((Nat.length_toDigits_le_iff (by decide) hwidth).mp (Nat.not_lt.mp hcon))
      (Nat.not_lt.mpr h)
  unfold formatPadded
  rw [if_pos hlen]
  obtain ⟨w, rfl⟩ := Nat.exists_eq_succ_of_ne_zero (Nat.pos_iff_ne_zero.mp hwidth)
  rfl

/-! ## Trimming -/

theorem not_space_of_digit (h : c.isDigit = true) : isErlangSpace c = false := by
  have hrange : 48 ≤ c.toNat ∧ c.toNat ≤ 57 := Char.isDigit_iff_toNat.mp h
  unfold isErlangSpace
  rw [decide_eq_false_iff_not]
  simp only [mem_cons, not_mem_nil, or_false]
  omega

theorem stringTrim_of_ends (hhead : ∀ c ∈ s.head?, isErlangSpace c = false)
    (hlast : ∀ c ∈ s.getLast?, isErlangSpace c = false) : stringTrim s = s := by
  have hdrop : ∀ {t : List Char}, (∀ c ∈ t.head?, isErlangSpace c = false) →
      t.dropWhile isErlangSpace = t := by
    intro t ht
    cases t with
    | nil => rfl
    | cons c t => exact dropWhile_cons_of_neg (by simp [ht c rfl])
  unfold stringTrim
  rw [hdrop hhead, hdrop (by rwa [head?_reverse]), reverse_reverse]

theorem stringTrim_of_all (h : ∀ c ∈ s, isErlangSpace c = false) : stringTrim s = s :=
  stringTrim_of_ends (fun c hc => h c (mem_of_mem_head? hc))
    fun c hc => h c (mem_of_mem_getLast? hc)

end Ridge

namespace Ridge

open List Option

/-- `mk_error(Code, Message)`. -/
structure CodecError where
  code : String
  message : String
  deriving DecidableEq

/-- What a call of a derived body can raise. -/
inductive CodecRaise where
  | functionClause (function : String)
  | badKey (field : String)
  | badMatch
  deriving DecidableEq

/-! ## Decimal -/

/-- `{decimal, Unscaled, Scale}`. Rounding to tens makes a negative scale. -/
structure DecimalTerm where
  unscaled : Int
  scale : Int
  deriving DecidableEq

variable (s : List Char)

def decimalFromText : Except CodecError DecimalTerm :=
  match decimalParse (stringTrim s) with
  | some d => .ok ⟨d.unscaled, d.scale⟩
  | none => .error ⟨"decimal.parse", "invalid decimal literal"⟩

/-- There is no clause for a negative scale. -/
def decimalTermToText (d : DecimalTerm) : Except CodecRaise (List Char) :=
  if d.scale < 0 then .error (.functionClause "decimal_to_text")
  else .ok (decimalToText ⟨d.unscaled, d.scale.toNat⟩).toList

/-! ## Uuid -/

def isLowerHex (c : Char) : Bool := ('0' ≤ c && c ≤ '9') || ('a' ≤ c && c ≤ 'f')

/-- The canonical 8-4-4-4-12 form. -/
def uuidValid : Bool :=
  s.length = 36 &&
    s.zipIdx.all fun e => if e.2 ∈ [8, 13, 18, 23] then e.1 = '-' else isLowerHex e.1

/-- `{uuid, CanonicalBin}`. -/
structure Uuid where
  text : List Char
  valid : uuidValid text = true

def uuidFromText : Except CodecError Uuid :=
  let lower := (stringTrim s).map Char.toLower
  if h : uuidValid lower = true then .ok ⟨lower, h⟩
  else .error ⟨"uuid.parse", "invalid uuid"⟩

def uuidToText (u : Uuid) : List Char := u.text

/-! ## Bytes -/

def bytesToHex (raw : List UInt8) : List Char :=
  raw.flatMap fun b => [Nat.digitChar (b.toNat / 16), Nat.digitChar (b.toNat % 16)]

def bytesHexNibble (c : Char) : Option Nat :=
  if '0' ≤ c ∧ c ≤ '9' then some (c.toNat - '0'.toNat)
  else if 'a' ≤ c ∧ c ≤ 'f' then some (c.toNat - 'a'.toNat + 10)
  else if 'A' ≤ c ∧ c ≤ 'F' then some (c.toNat - 'A'.toNat + 10)
  else none

def bytesDecodeHexPairs : List Char → Option (List UInt8)
  | [] => some []
  | [_] => none
  | h₁ :: h₂ :: rest =>
    match bytesHexNibble h₁, bytesHexNibble h₂ with
    | some n₁, some n₂ => (bytesDecodeHexPairs rest).map (UInt8.ofNat (n₁ * 16 + n₂) :: ·)
    | _, _ => none

def bytesFromHex : Except CodecError (List UInt8) :=
  match bytesDecodeHexPairs (stringTrim s) with
  | some raw => .ok raw
  | none => .error ⟨"bytes.parse", "invalid hex"⟩

/-! ## The Gregorian calendar -/

def isLeapYear (y : Nat) : Bool := y % 4 = 0 && (y % 100 ≠ 0 || y % 400 = 0)

/-- `calendar:last_day_of_the_month`. -/
def lastDayOfTheMonth (y m : Nat) : Nat :=
  if m = 2 then if isLeapYear y then 29 else 28
  else if m ∈ [4, 6, 9, 11] then 30 else 31

def daysBeforeMonth (y m : Nat) : Nat :=
  ((List.range (m - 1)).map fun i => lastDayOfTheMonth y (i + 1)).sum

def daysBeforeYear (y : Nat) : Nat :=
  ((List.range y).map fun i => daysBeforeMonth i 13).sum

/-- `calendar:valid_date`. -/
def validDate (y m d : Int) : Bool :=
  0 ≤ y && 1 ≤ m && m ≤ 12 && 1 ≤ d && d ≤ lastDayOfTheMonth y.toNat m.toNat

/-- `calendar:date_to_gregorian_days`, of a valid date. -/
def dateToGregorianDays (y m d : Nat) : Nat := daysBeforeYear y + daysBeforeMonth y m + (d - 1)

/-- `calendar:gregorian_days_to_date`. -/
def gregorianDaysToDate (n : Nat) : Nat × Nat × Nat :=
  let y := Nat.findGreatest (fun y => daysBeforeYear y ≤ n) n
  let k := n - daysBeforeYear y
  let m := Nat.findGreatest (fun m => daysBeforeMonth y (m + 1) ≤ k) 11 + 1
  (y, m, k - daysBeforeMonth y m + 1)

/-! ## Date -/

/-- The day number of 1970-01-01. -/
def dateEpochGd : Int := 719528

/-- `date_to_iso` of `{date, Days}`. There is no calendar before the year 0. -/
def dateToIso (days : Int) : Except CodecRaise (List Char) :=
  if days + dateEpochGd < 0 then .error (.functionClause "gregorian_days_to_date")
  else
    let (y, m, d) := gregorianDaysToDate (days + dateEpochGd).toNat
    .ok (formatPadded 4 y ++ '-' :: (formatPadded 2 m ++ '-' :: formatPadded 2 d))

def dateParseIso : Option (Int × Int × Int) :=
  match s.splitOn '-' with
  | [ys, ms, ds] =>
    match stringToInteger ys, stringToInteger ms, stringToInteger ds with
    | some (y, []), some (m, []), some (d, []) => some (y, m, d)
    | _, _, _ => none
  | _ => none

def dateFromIso : Except CodecError Int :=
  match dateParseIso s with
  | some (y, m, d) =>
    if validDate y m d then
      .ok (dateToGregorianDays y.toNat m.toNat d.toNat - dateEpochGd)
    else .error ⟨"date.invalid", "date out of range"⟩
  | none => .error ⟨"date.parse", "invalid ISO-8601 date"⟩

/-! ## Time of day -/

/-- `{time, Micros}`: the microseconds since midnight. -/
structure TimeOfDay where
  micros : Nat
  within : micros < 86400000000
  deriving DecidableEq

def todToIso (t : TimeOfDay) : List Char :=
  let secs := t.micros / 1000000
  let frac := t.micros % 1000000
  formatPadded 2 (secs / 3600) ++ ':' :: (formatPadded 2 (secs % 3600 / 60) ++
    ':' :: (formatPadded 2 (secs % 60) ++
      if frac = 0 then [] else '.' :: formatPadded 6 frac))

def todInt : Option Nat :=
  match stringToInteger s with
  | some (n, []) => if 0 ≤ n then some n.toNat else none
  | _ => none

/-- Digits of a fraction, padded and truncated to six places. -/
def todFrac : Option Nat :=
  if s ≠ [] ∧ s.all Char.isDigit then some (digitsValue ((s ++ List.replicate 6 '0').take 6))
  else none

def todParseSecs : Option (Nat × Nat) :=
  match s.splitOn '.' with
  | [secs] => (todInt secs).map (·, 0)
  | [secs, frac] =>
    match todInt secs, todFrac frac with
    | some n, some f => some (n, f)
    | _, _ => none
  | _ => none

def todParseIso : Option (Nat × Nat × Nat × Nat) :=
  match s.splitOn ':' with
  | [hs, ms, rest] =>
    match todInt hs, todInt ms, todParseSecs rest with
    | some h, some m, some (secs, frac) => some (h, m, secs, frac)
    | _, _, _ => none
  | _ => none

theorem todFrac_lt {s : List Char} {frac : Nat} (h : todFrac s = some frac) : frac < 1000000 := by
  unfold todFrac at h
  split at h
  · rename_i hs
    have hall : ∀ c ∈ s ++ replicate 6 '0', c.isDigit = true := by
      intro c hc
      rcases mem_append.mp hc with hc | hc
      · exact all_eq_true.mp hs.2 c hc
      · rw [eq_of_mem_replicate hc]
        rfl
    have hlt : digitsValue ((s ++ replicate 6 '0').take 6) <
        10 ^ ((s ++ replicate 6 '0').take 6).length :=
      digitsValue_lt fun c hc => hall c (mem_of_mem_take hc)
    have hlen : ((s ++ replicate 6 '0').take 6).length = 6 := by
      rw [length_take, length_append, length_replicate]
      omega
    rw [hlen, some.inj h] at hlt
    exact hlt
  · exact nomatch h

theorem todParseSecs_lt {s : List Char} {secs frac : Nat} (h : todParseSecs s = some (secs, frac)) :
    frac < 1000000 := by
  unfold todParseSecs at h
  split at h
  · obtain ⟨_, _, heq⟩ := Option.map_eq_some_iff.mp h
    rw [← (Prod.mk.inj heq).2]
    decide
  · split at h
    · rename_i hfrac
      rw [← (Prod.mk.inj (some.inj h)).2]
      exact todFrac_lt hfrac
    · exact nomatch h
  · exact nomatch h

theorem todParseIso_lt {s : List Char} {h m secs frac : Nat}
    (hparse : todParseIso s = some (h, m, secs, frac)) : frac < 1000000 := by
  unfold todParseIso at hparse
  split at hparse
  · split at hparse
    · rename_i hsecs
      obtain ⟨-, hrest⟩ := Prod.mk.inj (some.inj hparse)
      obtain ⟨-, hrest⟩ := Prod.mk.inj hrest
      rw [← (Prod.mk.inj hrest).2]
      exact todParseSecs_lt hsecs
    · exact nomatch hparse
  · exact nomatch hparse

def todFromIso : Except CodecError TimeOfDay :=
  match hparse : todParseIso s with
  | some (h, m, secs, frac) =>
    if hrange : h ≤ 23 ∧ m ≤ 59 ∧ secs ≤ 59 then
      .ok ⟨(h * 3600 + m * 60 + secs) * 1000000 + frac, by
        have hfrac := todParseIso_lt hparse
        omega⟩
    else .error ⟨"time.invalid", "time out of range"⟩
  | none => .error ⟨"time.invalid", "invalid ISO-8601 time"⟩

end Ridge
