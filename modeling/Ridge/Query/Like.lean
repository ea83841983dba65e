import Ridge.Lib.Like
import Ridge.Mem.Value
import Ridge.Query.Render

/-!
# LIKE patterns of a needle

`like_prefix`, `like_suffix` and `like_contains` (`runtime/ridge_rt.erl`) quote a needle and put the
wildcards around it; the in-memory matcher, `text_like`, knows the quoting. The renderer writes the
pattern as the bind of a bare `LIKE`, so a database reads it by its own rules: Postgres has the
backslash for an escape, SQLite has none and holds the cases of an ASCII letter to be the same.
-/

namespace Ridge

open List

/-! ## The patterns -/

variable (s : String)

/-- The backslash first, so that the escapes of the others stay. -/
def likeEscape : String :=
  textReplace '_' "\\_" (textReplace '%' "\\%" (textReplace '\\' "\\\\" s))

def likePrefix : String := likeEscape s ++ "%"

def likeSuffix : String := "%" ++ likeEscape s

def likeContains : String := "%" ++ likeEscape s ++ "%"

def LikeMode.pattern : LikeMode → String → String
  | .contains => likeContains
  | .startsWith => likePrefix
  | .endsWith => likeSuffix

def isLikeMeta (c : Char) : Bool := c = '\\' || c = '%' || c = '_'

/-- What the three replacements make of one character. -/
def escapeChar (c : Char) : List Char := if isLikeMeta c then ['\\', c] else [c]

theorem likeEscape_toList : (likeEscape s).toList = s.toList.flatMap escapeChar := by
  simp only [likeEscape, textReplace, String.toList_ofList, flatMap_assoc]
  refine flatMap_congr fun c _ => ?_
  by_cases hslash : c = '\\'
  · subst hslash
    rfl
  by_cases hrun : c = '%'
  · subst hrun
    rfl
  by_cases hone : c = '_'
  · subst hone
    rfl
  simp [escapeChar, isLikeMeta, hslash, hrun, hone]

theorem LikeMode.pattern_toList (mode : LikeMode) (needle : String) :
    (mode.pattern needle).toList = mode.wrap (needle.toList.flatMap escapeChar) := by
  have hrun : "%".toList = ['%'] := rfl
  cases mode <;>
    simp only [LikeMode.pattern, LikeMode.wrap, likePrefix, likeSuffix, likeContains,
      String.toList_append, likeEscape_toList, hrun] <;> rfl

/-! ## The in-memory matcher -/

theorem rtLikePct_eq_true {p s : List Char} :
    rtLikePct p s = true ↔ ∃ t, t <:+ s ∧ rtLikeMatch t p = true := by
  induction s with
  | nil =>
    rw [rtLikePct]
    constructor
    · exact fun h => ⟨[], suffix_refl [], h⟩
    · rintro ⟨t, hs, h⟩
      exact suffix_nil.mp hs ▸ h
  | cons c s ih =>
    rw [rtLikePct, Bool.or_eq_true, ih]
    constructor
    · rintro (h | ⟨t, hs, h⟩)
      · exact ⟨c :: s, suffix_refl _, h⟩
      · exact ⟨t, hs.trans (suffix_cons c s), h⟩
    · rintro ⟨t, hs, h⟩
      rcases suffix_cons_iff.mp hs with rfl | hs
      · exact .inl h
      · exact .inr ⟨t, hs, h⟩

theorem rtLikeMatch_rules : LikeRules (some '\\') id rtLikeMatch where
  nil s := by cases s <;> simp [rtLikeMatch]
  run s p := by
    rw [← rtLikePct_eq_true]
    cases s <;> rw [rtLikeMatch]
  one s p := by
    cases s <;> simp [rtLikeMatch]
  escaped e he c s p := by
    cases he
    cases s <;> simp [rtLikeMatch, OneOf]
  literal c hrun hone he s p := by
    have hslash : c ≠ '\\' := fun h => he (by rw [h]; rfl)
    cases s <;> simp [rtLikeMatch, OneOf, hrun, hslash]

/-! ## Needles -/

variable {like : List Char → List Char → Bool}

theorem standsForItself_escape {fold : Char → Char} (h : LikeRules (some '\\') fold like)
    (c : Char) : StandsForItself fold like escapeChar c := by
  intro s p
  unfold escapeChar
  by_cases hmeta : isLikeMeta c = true
  · rw [if_pos hmeta]
    exact h.escaped '\\' rfl c s p
  · rw [if_neg hmeta]
    simp only [isLikeMeta, Bool.or_eq_true, decide_eq_true_eq, not_or] at hmeta
    obtain ⟨⟨hslash, hrun⟩, hone⟩ := hmeta
    exact h.literal c hrun hone (fun hc => hslash (Option.some.inj hc).symm) s p

theorem matches_pattern (h : LikeRules (some '\\') id like) (mode : LikeMode) (needle s : String) :
    like s.toList (mode.pattern needle).toList = true ↔ mode.Means needle.toList s.toList := by
  rw [mode.pattern_toList, h.wrapped fun c _ => standsForItself_escape h c]
  simp only [map_id]
  exact ⟨fun ⟨_, hu, hs⟩ => hu ▸ hs, fun hs => ⟨_, rfl, hs⟩⟩

/-! ## ASCII letters -/

def swapCase (c : Char) : Char := if c.isUpper then c.toLower else c.toUpper

variable {c : Char}

theorem isAlpha_of_isUpper (h : c.isUpper = true) : c.isAlpha = true := by
  show (c.isUpper || c.isLower) = true
  rw [h, Bool.true_or]

theorem toNat_lt_of_isAlpha (h : c.isAlpha = true) : c.toNat < 128 := by
  change (decide ('A'.val ≤ c.val ∧ c.val ≤ 'Z'.val) ||
    (decide ('a'.val ≤ c.val) && decide (c.val ≤ 'z'.val))) = true at h
  simp only [Bool.or_eq_true, Bool.and_eq_true, decide_eq_true_eq, UInt32.le_iff_toNat_le] at h
  show c.val.toNat < 128
  rcases h with h | h
  · exact Nat.lt_of_le_of_lt h.2 (by decide)
  · exact Nat.lt_of_le_of_lt h.2 (by decide)

theorem swapCase_letter (h : c.isAlpha = true) :
    swapCase c ≠ c ∧ (swapCase c).toLower = c.toLower := by
  have hall : ∀ n < 128, (Char.ofNat n).isAlpha = true → swapCase (Char.ofNat n) ≠ Char.ofNat n ∧
      (swapCase (Char.ofNat n)).toLower = (Char.ofNat n).toLower := by decide
  have hc := hall c.toNat (toNat_lt_of_isAlpha h)
  rw [Char.ofNat_toNat] at hc
  exact hc h

theorem isAlpha_toLower (h : c.isUpper = true) : c.toLower.isAlpha = true := by
  have hall : ∀ n < 128, (Char.ofNat n).isUpper = true → (Char.ofNat n).toLower.isAlpha = true := by
    decide
  have hc := hall c.toNat (toNat_lt_of_isAlpha (isAlpha_of_isUpper h))
  rw [Char.ofNat_toNat] at hc
  exact hc h

theorem toLower_of_not_upper (h : ¬c.isUpper = true) : c.toLower = c := by
  unfold Char.toLower
  exact dif_neg fun hc => h (decide_eq_true hc)

/-- No other character has the lower case of a character that is no letter. -/
theorem eq_of_toLower_eq {c d : Char} (hc : c.isAlpha = false) (h : d.toLower = c.toLower) :
    d = c := by
  have hupper : ¬c.isUpper = true := fun h => by rw [isAlpha_of_isUpper h] at hc; cases hc
  rw [toLower_of_not_upper hupper] at h
  by_cases hd : d.isUpper = true
  · rw [← h, isAlpha_toLower hd] at hc
    cases hc
  · rwa [toLower_of_not_upper hd] at h

/-! ## Without an escape -/

theorem count_escapes (needle : List Char) :
    (needle.flatMap escapeChar).count '\\' = needle.count '\\' + needle.countP isLikeMeta := by
  induction needle with
  | nil => rfl
  | cons c needle ih =>
    rw [flatMap_cons, count_append, ih, count_cons, countP_cons]
    by_cases hmeta : isLikeMeta c = true
    · have hesc : escapeChar c = ['\\', c] := if_pos hmeta
      rw [hesc, if_pos hmeta, List.count_cons_self, count_singleton]
      simp only [beq_iff_eq]
      omega
    · have hesc : escapeChar c = [c] := if_neg hmeta
      rw [hesc, if_neg hmeta, count_singleton]
      simp only [beq_iff_eq]
      omega

/-- A needle that reads the same with no escape and either case: no metacharacter, no letter. -/
def PlainNeedle (needle : String) : Prop :=
  ∀ c ∈ needle.toList, isLikeMeta c = false ∧ c.isAlpha = false

variable {needle : List Char}

theorem flatMap_escapeChar (h : ∀ c ∈ needle, isLikeMeta c = false) :
    needle.flatMap escapeChar = needle.flatMap fun c => [c] :=
  flatMap_congr fun c hc => if_neg (by rw [h c hc]; decide)

section

variable {sqlite : List Char → List Char → Bool} (h : LikeRules none Char.toLower sqlite)
include h

theorem matches_literal (hmeta : ∀ c ∈ needle, isLikeMeta c = false) (mode : LikeMode)
    (s : List Char) :
    sqlite s (mode.wrap (needle.flatMap escapeChar)) = true ↔
      ∃ u, u.map Char.toLower = needle.map Char.toLower ∧ mode.Means u s := by
  rw [flatMap_escapeChar hmeta]
  refine h.wrapped (fun c hc t p => ?_) mode
  have hplain := hmeta c hc
  simp only [isLikeMeta, Bool.or_eq_false_iff, decide_eq_false_iff_not] at hplain
  exact h.literal c hplain.1.2 hplain.2 (by simp) t p

theorem plain_of_matches {mode : LikeMode} {needle : String}
    (hall : ∀ s : String, sqlite s.toList (mode.pattern needle).toList = true ↔
      mode.Means needle.toList s.toList) : PlainNeedle needle := by
  -- the needle itself has too few backslashes for the escapes of its pattern
  have hmeta : ∀ c ∈ needle.toList, isLikeMeta c = false := by
    have hself := (hall needle).mpr (mode.means_self _)
    have hcount := h.count_le (b := '\\') (by decide) (by decide)
      (fun d hd => eq_of_toLower_eq (by decide) hd) hself
    rw [mode.pattern_toList] at hcount
    have hwrap : (needle.toList.flatMap escapeChar).count '\\' ≤
        (mode.wrap (needle.toList.flatMap escapeChar)).count '\\' := by
      cases mode <;> simp [LikeMode.wrap, count_append]
    rw [count_escapes] at hwrap
    have hnone : needle.toList.countP isLikeMeta = 0 := by omega
    intro c hc
    exact Bool.eq_false_iff.mpr (countP_eq_zero.mp hnone c hc)
  refine fun c hc => ⟨hmeta c hc, Bool.eq_false_iff.mpr fun halpha => ?_⟩
  -- and a letter of it may be swapped for its other case
  let swapped := needle.toList.map fun c => if c.isAlpha then swapCase c else c
  have hfold : swapped.map Char.toLower = needle.toList.map Char.toLower := by
    rw [map_map]
    refine map_congr_left fun d _ => ?_
    show (if d.isAlpha then swapCase d else d).toLower = d.toLower
    split
    · next hd => exact (swapCase_letter hd).2
    · rfl
  have hmatch := (hall (String.ofList swapped)).mp (by
    rw [mode.pattern_toList, String.toList_ofList]
    exact (matches_literal h hmeta mode swapped).mpr ⟨swapped, hfold, mode.means_self _⟩)
  rw [String.toList_ofList] at hmatch
  have heq : needle.toList = swapped := hmatch.eq_of_length (length_map _).symm
  have hc' : c = if c.isAlpha then swapCase c else c :=
    map_inj_left.mp ((map_id' _).trans heq) c hc
  rw [if_pos halpha] at hc'
  exact (swapCase_letter halpha).1 hc'.symm

theorem matches_of_plain {needle : String} (hplain : PlainNeedle needle) (mode : LikeMode)
    (s : String) : sqlite s.toList (mode.pattern needle).toList = true ↔
      mode.Means needle.toList s.toList := by
  rw [mode.pattern_toList, matches_literal h (fun c hc => (hplain c hc).1)]
  refine ⟨fun ⟨u, hu, hs⟩ => ?_, fun hs => ⟨_, rfl, hs⟩⟩
  have heq : List.Forall₂ (fun d c => d.toLower = c.toLower) u needle.toList :=
    forall₂_map_left_iff.mp (forall₂_map_right_iff.mp (forall₂_eq_eq_eq ▸ hu))
  have hsame : List.Forall₂ Eq u needle.toList :=
    (forall₂_iff_get.mp heq).elim fun hlen hget => forall₂_iff_get.mpr ⟨hlen,
      fun i hi hj => eq_of_toLower_eq (hplain _ (get_mem _ _)).2 (hget i hi hj)⟩
  rw [forall₂_eq_eq_eq] at hsame
  exact hsame ▸ hs

end

/-! ## In a statement -/

/-- What a database makes of `<operand> LIKE $k`, the operand standing for `s`: it matches `s`
against the value bound at `$k`, the last one of the condition. -/
def LikeSelects (like : List Char → List Char → Bool) (operand cond : Fragment) (s : String) :
    Prop :=
  cond.text = operand.text ++ " LIKE " ++ placeholder operand.next ∧
    ∃ p, cond.binds = operand.binds ++ [.sqlText p] ∧ like s.toList p.toList = true

theorem likeSelects_iff (qualified : Bool) (v : QExpr) (p s : String) (n : Nat) :
    LikeSelects like (renderOperand qualified v n)
        (renderPred qualified (.qLike v (.qLitText p)) n) s ↔
      like s.toList p.toList = true := by
  have hcond : renderPred qualified (.qLike v (.qLitText p)) n =
      ⟨(renderOperand qualified v n).text ++ " LIKE " ++
          placeholder (renderOperand qualified v n).next,
        (renderOperand qualified v n).binds ++ [.sqlText p],
        (renderOperand qualified v n).next + 1⟩ := by
    simp only [renderPred, renderOperand, renderPredWith, renderOperandWith, cmpText, literalText,
      litValue]
  rw [hcond]
  refine ⟨fun ⟨_, q, hq, hs⟩ => ?_, fun hs => ⟨rfl, p, rfl, hs⟩⟩
  cases append_cancel_left hq
  exact hs

/-! ## SQLite's matcher -/

/-- The subject and the pattern in lower case, each backslash a character as any other. -/
def sqliteLike (s p : List Char) : Bool :=
  rtLikeMatch (s.map Char.toLower)
    (p.flatMap fun c => if c = '\\' then ['\\', '\\'] else [c.toLower])

theorem sqliteLike_rules : LikeRules none Char.toLower sqliteLike where
  nil s := by rw [sqliteLike, flatMap_nil, rtLikeMatch_rules.nil, map_eq_nil_iff]
  run s p := by
    show rtLikeMatch _ ('%' :: _) = true ↔ _
    rw [rtLikeMatch_rules.run]
    constructor
    · rintro ⟨t, hs, ht⟩
      obtain ⟨t, ht', rfl⟩ := suffix_map_iff.mp hs
      exact ⟨t, ht', ht⟩
    · exact fun ⟨t, hs, ht⟩ => ⟨t.map Char.toLower, hs.map _, ht⟩
  one s p := by
    show rtLikeMatch _ ('_' :: _) = true ↔ _
    rw [rtLikeMatch_rules.one]
    cases s <;> simp [sqliteLike, flatMap_def]
  escaped e he := nomatch he
  literal c hrun hone _ s p := by
    by_cases hslash : c = '\\'
    · subst hslash
      show rtLikeMatch _ ('\\' :: '\\' :: _) = true ↔ _
      rw [rtLikeMatch_rules.escaped _ rfl]
      cases s <;> simp [OneOf, sqliteLike, flatMap_def]
    · have hrest : sqliteLike s (c :: p) = rtLikeMatch (s.map Char.toLower) (c.toLower ::
          p.flatMap fun c => if c = '\\' then ['\\', '\\'] else [c.toLower]) := by
        rw [sqliteLike, flatMap_cons, if_neg hslash]
        rfl
      have hkept : ∀ d : Char, d.isAlpha = false → c.toLower = d → c = d := fun d hd h =>
        eq_of_toLower_eq hd (h.trans (toLower_of_not_upper fun hu => by
          rw [isAlpha_of_isUpper hu] at hd; cases hd).symm)
      rw [hrest, rtLikeMatch_rules.literal _ (fun h => hrun (hkept _ rfl h))
        (fun h => hone (hkept _ rfl h)) fun h => hslash (hkept _ rfl (Option.some.inj h).symm)]
      cases s <;> simp [OneOf, sqliteLike]

/-- In memory and on Postgres a needle's pattern selects what it says, whatever the needle; on
SQLite it does exactly if the needle is plain. -/
theorem like_selects {pg sqlite : List Char → List Char → Bool}
    (hpg : LikeRules (some '\\') id pg) (hsqlite : LikeRules none Char.toLower sqlite)
    (mode : LikeMode) (needle : String) (qualified : Bool) (v : QExpr) (n : Nat) :
    let operand := renderOperand qualified v n
    let cond := renderPred qualified (.qLike v (.qLitText (mode.pattern needle))) n
    (∀ s : String,
      (memLikePred (some (.sqlText s)) (some (.sqlText (mode.pattern needle))) = true ↔
        mode.Means needle.toList s.toList) ∧
      (LikeSelects pg operand cond s ↔ mode.Means needle.toList s.toList)) ∧
    ((∀ s : String, LikeSelects sqlite operand cond s ↔ mode.Means needle.toList s.toList) ↔
      PlainNeedle needle) := by
  intro operand cond
  refine ⟨fun s => ⟨matches_pattern rtLikeMatch_rules mode needle s, ?_⟩, ?_⟩
  · rw [likeSelects_iff]
    exact matches_pattern hpg mode needle s
  · simp only [operand, cond, likeSelects_iff]
    exact ⟨plain_of_matches hsqlite, fun hplain s => matches_of_plain hsqlite hplain mode s⟩

/-- A needle with a percent sign, on Postgres. -/
theorem like_selects_percent :
    LikeSelects rtLikeMatch (renderOperand true (.qCol "label") 1)
      (renderPred true (.qLike (.qCol "label") (.qLitText (LikeMode.startsWith.pattern "50%"))) 1)
      "50% off" :=
  ((like_selects rtLikeMatch_rules sqliteLike_rules .startsWith "50%" true (.qCol "label") 1).1
    "50% off").2.mpr ⟨" off".toList, rfl⟩

/-- SQLite takes the backslash of the escape for a character of the text. -/
theorem sqlite_misses_percent :
    LikeMode.startsWith.Means "50%".toList "50% off".toList ∧
      ¬LikeSelects sqliteLike (renderOperand true (.qCol "label") 1)
        (renderPred true (.qLike (.qCol "label") (.qLitText (LikeMode.startsWith.pattern "50%"))) 1)
        "50% off" := by
  refine ⟨⟨" off".toList, rfl⟩, fun h => ?_⟩
  have hmatch := (likeSelects_iff true _ _ _ 1).mp h
  rw [LikeMode.pattern_toList] at hmatch
  have hcount := sqliteLike_rules.count_le (b := '\\') (by decide) (by decide)
    (fun d hd => eq_of_toLower_eq (by decide) hd) hmatch
  exact absurd hcount (by decide)

end Ridge
