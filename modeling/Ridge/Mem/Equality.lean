import Ridge.Mem.Mutation
import Ridge.Mem.Ordering

/-!
# ridge_rt — where the store asks whether two values are equal

`==` compares decimals by value, `IN`, `DISTINCT`, the set operations, the groups and the conflicts
compare terms, and an order takes for equal what it does not order. `equalities` are these places for
two rows that differ in one cell, and `equalities_together` is when they give one answer. `MIN` and
`MAX` go by keys of their own, a decimal's being its nearest double (`extreme_iff`).
-/

namespace Ridge

open List

/-! ## The places -/

/-- Each place that tells two rows apart by one cell, asked whether the cells are equal. -/
def equalities (E : ErlRuntime) (column : String) (rest : SqlRow) (updateCols : List String)
    (a b : SqlValue) : List Prop :=
  let row := fun v => (column, v) :: rest
  [relate memSqlEq (some a) (some b) = true,
    memInPred (some a) [some b] = true,
    memDistinct true [row a, row b] = [row a],
    memSetOp "UNION" [row a] [row b] = [row a],
    memSetOp "INTERSECT" [row a] [row b] = [row a],
    memSetOp "EXCEPT" [row a] [row b] = [],
    memGroupNaryBy E.doubles column [row a, row b] = .ok [(a, [row a, row b])],
    -- An upsert of the second row finds the first, and a keyed delete takes it out.
    (memUpsertOne [column] updateCols ([row a], []) (row b)).1.length = 1,
    (memMutationAffected E [("t", [row a])] (.mutDeleteKeys "t" [column] [row b])).map Prod.snd =
      .ok [row a],
    memOrderCmp E.doubles (some a) (some b) = .eq]

/-- All hold or all fail. -/
def Together (ps : List Prop) : Prop := (∀ p ∈ ps, p) ∨ ∀ p ∈ ps, ¬p

/-- Two values of one ordered kind, numbers of which are equal only as the same term; a Bool or an
array, which have no order, only with itself. -/
def OneEquality (D : Doubles) : SqlValue → SqlValue → Prop
  | .sqlDecimal x, .sqlDecimal y => (decimalOfText x).value = (decimalOfText y).value → x = y
  | .sqlFloat x, .sqlFloat y => D.value x = D.value y → x = y
  | .sqlBool x, .sqlBool y => x = y
  | .sqlArray as, .sqlArray bs => as = bs
  | .sqlInt _, .sqlInt _ | .sqlText _, .sqlText _ | .sqlInstant _, .sqlInstant _
  | .sqlUuid _, .sqlUuid _ | .sqlBytes _, .sqlBytes _ | .sqlJson _, .sqlJson _
  | .sqlDate _, .sqlDate _ | .sqlTime _, .sqlTime _ | .sqlInterval _, .sqlInterval _ => True
  | _, _ => False

section

variable {D : Doubles} {a b : SqlValue}

theorem oneEquality_self : OneEquality D a a ↔ a ≠ .sqlNull := by
  cases a with
  | sqlNull => exact iff_of_false id fun h => h rfl
  | sqlDecimal x | sqlFloat x => exact iff_of_true (fun _ => rfl) nofun
  | sqlBool x | sqlArray as => exact iff_of_true rfl nofun
  | _ => exact iff_of_true trivial nofun

/-- Different values are told apart everywhere only where one is smaller. -/
theorem oneEquality_of_ne (h : a ≠ b) :
    OneEquality D a b ↔ memSqlLt D a b = true ∨ memSqlLt D b a = true := by
  have hlt : ∀ {β : Type} [LinearOrder β] {x y : β}, x ≠ y →
      decide (x < y) = true ∨ decide (y < x) = true := by
    intro β _ x y hxy
    rw [decide_eq_true_iff, decide_eq_true_iff]
    exact lt_or_gt_of_ne hxy
  cases a <;> cases b <;> first
    | exact iff_of_true trivial (hlt fun hxy => h (congrArg _ hxy))
    | exact iff_of_false id (fun hor => hor.elim nofun nofun)
    | skip
  · next x y => exact iff_of_false (fun hxy => h (congrArg _ hxy)) (fun hor => hor.elim nofun nofun)
  · next x y =>
      refine ⟨fun hone => hlt fun hval => h (congrArg _ (hone hval)), fun hor hval => ?_⟩
      rcases hor with hxy | hyx
      · exact absurd hval (of_decide_eq_true hxy).ne
      · exact absurd hval (of_decide_eq_true hyx).ne'
  · next x y =>
      show (_ → x = y) ↔ decimalTextLt x y = true ∨ decimalTextLt y x = true
      rw [decimalTextLt_eq, decimalTextLt_eq]
      refine ⟨fun hone => hlt fun hval => h (congrArg _ (hone hval)), fun hor hval => ?_⟩
      rcases hor with hxy | hyx
      · exact absurd hval (of_decide_eq_true hxy).ne
      · exact absurd hval (of_decide_eq_true hyx).ne'
  · next as bs => exact iff_of_false (fun hxy => h (congrArg _ hxy)) (fun hor => hor.elim nofun nofun)

theorem memSqlEq_self (a : SqlValue) : memSqlEq a a = true := by
  cases a with
  | sqlDecimal x =>
    show decimalTextEq x x = true
    rw [decimalTextEq_eq]
    exact decide_eq_true rfl
  | sqlNull => rfl
  | _ => exact decide_eq_true rfl

/-- What is smaller is not equal. -/
theorem memSqlEq_of_lt (h : memSqlLt D a b = true ∨ memSqlLt D b a = true) :
    memSqlEq a b = false := by
  have hne : a ≠ b := by
    rintro rfl
    rw [or_self, memSqlLt_irrefl] at h
    cases h
  cases a <;> cases b <;> first
    | exact decide_eq_false hne
    | skip
  next x y =>
    have h' : decimalTextLt x y = true ∨ decimalTextLt y x = true := h
    show decimalTextEq x y = false
    rw [decimalTextLt_eq, decimalTextLt_eq, decide_eq_true_iff, decide_eq_true_iff] at h'
    rw [decimalTextEq_eq]
    exact decide_eq_false (h'.elim ne_of_lt fun hlt => (ne_of_lt hlt).symm)

theorem memOrderCmp_eq : memOrderCmp D (some a) (some b) = .eq ↔
    memSqlLt D a b = false ∧ memSqlLt D b a = false := by
  unfold memOrderCmp
  dsimp only
  cases memSqlLt D a b <;> cases memSqlLt D b a <;> simp

end

/-! ## The places one by one -/

section

variable {x y : SqlRow}

theorem memDistinct_pair : memDistinct true [x, y] = [x] ↔ x = y := by
  show (if y ∈ [x] then [x] else [y, x]).reverse = [x] ↔ x = y
  by_cases h : y ∈ [x]
  · rw [if_pos h]
    exact iff_of_true rfl (mem_singleton.mp h).symm
  · rw [if_neg h]
    refine iff_of_false (fun heq => ?_) fun hxy => h (mem_singleton.mpr hxy.symm)
    exact absurd (congrArg List.length heq) (by simp)

theorem memSetOp_intersect : memSetOp "INTERSECT" [x] [y] = [x] ↔ x = y := by
  show memDistinct true ([x].filter (· ∈ [y])) = [x] ↔ x = y
  rw [filter_singleton]
  by_cases h : x ∈ [y]
  · rw [decide_eq_true h]
    exact iff_of_true rfl (mem_singleton.mp h)
  · rw [decide_eq_false h]
    exact iff_of_false (fun heq => nomatch heq) fun hxy => h (mem_singleton.mpr hxy)

theorem memSetOp_except : memSetOp "EXCEPT" [x] [y] = [] ↔ x = y := by
  show memDistinct true ([x].filter (· ∉ [y])) = [] ↔ x = y
  rw [filter_singleton]
  by_cases h : x ∈ [y]
  · rw [decide_eq_false (not_not.mpr h)]
    exact iff_of_true rfl (mem_singleton.mp h)
  · rw [decide_eq_true h]
    exact iff_of_false (fun heq => nomatch heq) fun hxy => h (mem_singleton.mpr hxy)

end

section

variable {E : ErlRuntime} {column : String} {rest : SqlRow} {a b : SqlValue}

theorem row_eq : ((column, a) :: rest : SqlRow) = (column, b) :: rest ↔ a = b := by
  rw [cons.injEq, Prod.mk.injEq]
  simp

theorem cellOf_row : cellOf column ((column, a) :: rest) = a := by
  unfold cellOf
  rw [find?_cons_of_pos (by simp)]
  rfl

theorem rowFind_row : rowFind ((column, a) :: rest) column = some a := by
  unfold rowFind
  rw [find?_cons_of_pos (by simp)]
  rfl

theorem memInPred_singleton : memInPred (some a) [some b] = true ↔ a = b ∧ a ≠ .sqlNull := by
  unfold memInPred
  split
  · next heq => cases heq
  · next heq =>
      cases heq
      exact iff_of_false nofun fun h => h.2 rfl
  · next v hnull heq =>
      cases heq
      have hne : a ≠ .sqlNull := hnull
      rw [and_iff_left hne]
      simp [eq_comm]

theorem memGroupNaryBy_pair :
    memGroupNaryBy E.doubles column [(column, a) :: rest, (column, b) :: rest] =
      .ok [(a, [(column, a) :: rest, (column, b) :: rest])] ↔ a = b := by
  have hfold : memGroupNaryBy E.doubles column [(column, a) :: rest, (column, b) :: rest] =
      addToGroup E.doubles b ((column, b) :: rest) [(a, [(column, a) :: rest])] := by
    show (addToGroup E.doubles (cellOf column _) _ [] >>= fun groups =>
      addToGroup E.doubles (cellOf column _) _ groups >>= pure) = _
    rw [cellOf_row, cellOf_row]
    show addToGroup E.doubles b _ _ >>= pure = _
    exact bind_pure _
  rw [hfold]
  unfold addToGroup
  by_cases hab : a = b
  · subst hab
    rw [if_pos (termEq_refl a), if_pos rfl]
    exact iff_of_true rfl rfl
  · refine iff_of_false (fun heq => ?_) hab
    split at heq
    · cases heq
    · have hlen := congrArg List.length (Except.ok.inj heq)
      exact absurd hlen (by simp)

theorem memRowConflicts_row :
    memRowConflicts ((column, a) :: rest) ((column, b) :: rest) [column] = decide (a = b) := by
  rw [memRowConflicts, all_cons, all_nil, Bool.and_true, rowFind_row, rowFind_row]
  exact cons_ne_nil column []

variable {updateCols : List String}

theorem memUpsertOne_pair :
    (memUpsertOne [column] updateCols ([(column, a) :: rest], []) ((column, b) :: rest)).1.length =
      1 ↔ a = b := by
  unfold memUpsertOne memUpsertMatch
  rw [memRowConflicts_row]
  by_cases hab : a = b
  · rw [decide_eq_true hab, if_pos rfl]
    refine iff_of_true ?_ hab
    cases updateCols <;> rfl
  · rw [decide_eq_false hab, if_neg Bool.false_ne_true]
    exact iff_of_false (by simp [memUpsertMatch]) hab

theorem memDeleteKeys_pair :
    (memMutationAffected E [("t", [(column, a) :: rest])]
        (.mutDeleteKeys "t" [column] [(column, b) :: rest])).map Prod.snd =
      .ok [(column, a) :: rest] ↔ a = b := by
  show (Except.ok ([(column, a) :: rest].filter fun row =>
    [(column, b) :: rest].any fun seed => memRowConflicts row seed [column]) : Eval (List SqlRow)) =
      .ok [(column, a) :: rest] ↔ a = b
  rw [Except.ok.injEq, filter_singleton, List.any_cons, List.any_nil, Bool.or_false,
    memRowConflicts_row]
  by_cases hab : a = b
  · rw [decide_eq_true hab]
    exact iff_of_true rfl hab
  · rw [decide_eq_false hab]
    exact iff_of_false (fun heq => nomatch heq) hab

/-- The places give one answer about two values exactly where they are one value or ordered. -/
theorem equalities_together :
    Together (equalities E column rest updateCols a b) ↔ OneEquality E.doubles a b := by
  unfold Together equalities
  simp only [forall_mem_cons, not_mem_nil, false_imp_iff, implies_true, and_true,
    memDistinct_pair, memSetOp_intersect, memSetOp_except, row_eq, memInPred_singleton,
    memGroupNaryBy_pair, memUpsertOne_pair, memDeleteKeys_pair, memOrderCmp_eq]
  have hunion : memSetOp "UNION" [(column, a) :: rest] [(column, b) :: rest] =
      [(column, a) :: rest] ↔ a = b := memDistinct_pair.trans row_eq
  rw [hunion]
  by_cases hab : a = b
  · subst hab
    rw [oneEquality_self]
    have heq : relate memSqlEq (some a) (some a) = true := memSqlEq_self a
    simp [heq, memSqlLt_irrefl]
  · rw [oneEquality_of_ne hab]
    have heq : relate memSqlEq (some a) (some b) = memSqlEq a b := rfl
    rw [heq]
    simp only [hab, false_and, not_false_eq_true, true_and, and_false, false_or]
    constructor
    · rintro ⟨-, hlt⟩
      by_contra hnot
      rw [not_or, Bool.not_eq_true, Bool.not_eq_true] at hnot
      exact hlt hnot
    · intro hlt
      refine ⟨?_, fun hnot => ?_⟩
      · rw [memSqlEq_of_lt hlt]
        exact Bool.false_ne_true
      · rcases hlt with hlt | hlt
        · rw [hnot.1] at hlt
          cases hlt
        · rw [hnot.2] at hlt
          cases hlt

end

/-! ## The order of keys -/

mutual

theorem termCmp_eq : ∀ {a b : MemKey}, termCmp a b = .eq → a = b
  | .num a, .num b, h => by
    unfold termCmp at h
    split at h
    · cases h
    · split at h
      · cases h
      · exact congrArg _ (le_antisymm (not_lt.mp ‹_›) (not_lt.mp ‹_›))
  | .bool a, .bool b, h => by
    cases a <;> cases b <;> first
      | rfl
      | cases h
  | .text a, .text b, h => by
    unfold termCmp at h
    split at h
    · cases h
    · split at h
      · cases h
      · exact congrArg _ (le_antisymm (not_lt.mp ‹_›) (not_lt.mp ‹_›))
  | .list as, .list bs, h => congrArg _ (termsCmp_eq (show termsCmp as bs = .eq from h))
  | .num _, .bool _, h | .num _, .list _, h | .num _, .text _, h | .bool _, .num _, h
  | .bool _, .list _, h | .bool _, .text _, h | .list _, .num _, h | .list _, .bool _, h
  | .list _, .text _, h | .text _, .num _, h | .text _, .bool _, h | .text _, .list _, h => by
    cases h

theorem termsCmp_eq : ∀ {as bs : List MemKey}, termsCmp as bs = .eq → as = bs
  | [], [], _ => rfl
  | [], _ :: _, h | _ :: _, [], h => nomatch h
  | a :: as, b :: bs, h => by
    unfold termsCmp at h
    cases hab : termCmp a b with
    | eq =>
      rw [hab] at h
      rw [termCmp_eq hab, termsCmp_eq h]
    | lt | gt =>
      rw [hab] at h
      cases h

end

mutual

theorem termCmp_swap : ∀ a b : MemKey, termCmp b a = (termCmp a b).swap
  | .num a, .num b | .text a, .text b => by
    unfold termCmp
    rcases lt_trichotomy a b with h | h | h
    · rw [if_neg h.not_gt, if_pos h, if_pos h]
      rfl
    · rw [h, if_neg (lt_irrefl b), if_neg (lt_irrefl b)]
      rfl
    · rw [if_pos h, if_neg h.not_gt, if_pos h]
      rfl
  | .bool a, .bool b => by cases a <;> cases b <;> rfl
  | .list as, .list bs => termsCmp_swap as bs
  | .num _, .bool _ | .num _, .list _ | .num _, .text _ | .bool _, .num _ | .bool _, .list _
  | .bool _, .text _ | .list _, .num _ | .list _, .bool _ | .list _, .text _ | .text _, .num _
  | .text _, .bool _ | .text _, .list _ => rfl

theorem termsCmp_swap : ∀ as bs : List MemKey, termsCmp bs as = (termsCmp as bs).swap
  | [], [] | [], _ :: _ | _ :: _, [] => rfl
  | a :: as, b :: bs => by
    unfold termsCmp
    rw [termCmp_swap a b]
    cases termCmp a b with
    | eq => exact termsCmp_swap as bs
    | lt => rfl
    | gt => rfl

end

/-- Kinds come in the order of their ranks. -/
theorem rank_le_of_termCmp {a b : MemKey} (h : termCmp a b = .lt) : a.rank ≤ b.rank := by
  cases a <;> cases b <;> first
    | exact Nat.le_refl _
    | exact Nat.le_of_ble_eq_true rfl
    | cases h

theorem termCmp_of_rank {a b : MemKey} (h : a.rank < b.rank) : termCmp a b = .lt := by
  cases a <;> cases b <;> first
    | rfl
    | exact absurd h (Nat.not_lt_of_le (Nat.le_of_ble_eq_true rfl))

theorem ite_cmp_lt {β : Type} [LinearOrder β] {a b : β} :
    (if a < b then Ordering.lt else if b < a then .gt else .eq) = .lt ↔ a < b := by
  by_cases h : a < b
  · rw [if_pos h]
    exact iff_of_true rfl h
  · rw [if_neg h]
    refine iff_of_false (fun heq => ?_) h
    split at heq <;> cases heq

mutual

theorem termCmp_trans : ∀ {a b c : MemKey}, termCmp a b = .lt → termCmp b c = .lt →
    termCmp a c = .lt
  | .num _, .num _, .num _, hab, hbc | .text _, .text _, .text _, hab, hbc =>
    ite_cmp_lt.mpr ((ite_cmp_lt.mp hab).trans (ite_cmp_lt.mp hbc))
  | .list as, .list bs, .list cs, hab, hbc => 
    termsCmp_trans (show termsCmp as bs = .lt from hab) hbc
  | .bool a, .bool b, .bool c, hab, hbc => by
    revert a b c
    decide
  -- Two of the three are of different kinds.
  | .num _, .num _, .bool _, _, hbc | .num _, .num _, .list _, _, hbc
  | .num _, .num _, .text _, _, hbc | .bool _, .bool _, .num _, _, hbc
  | .bool _, .bool _, .list _, _, hbc | .bool _, .bool _, .text _, _, hbc
  | .list _, .list _, .num _, _, hbc | .list _, .list _, .bool _, _, hbc
  | .list _, .list _, .text _, _, hbc | .text _, .text _, .num _, _, hbc
  | .text _, .text _, .bool _, _, hbc | .text _, .text _, .list _, _, hbc => hbc
  | .num _, .bool _, c, hab, hbc | .num _, .list _, c, hab, hbc | .num _, .text _, c, hab, hbc
  | .bool _, .num _, c, hab, hbc | .bool _, .list _, c, hab, hbc | .bool _, .text _, c, hab, hbc
  | .list _, .num _, c, hab, hbc | .list _, .bool _, c, hab, hbc | .list _, .text _, c, hab, hbc
  | .text _, .num _, c, hab, hbc | .text _, .bool _, c, hab, hbc | .text _, .list _, c, hab, hbc =>
    termCmp_of_rank ((Nat.lt_of_le_of_ne (rank_le_of_termCmp hab) nofun).trans_le
      (rank_le_of_termCmp hbc))

theorem termsCmp_trans : ∀ {as bs cs : List MemKey}, termsCmp as bs = .lt → termsCmp bs cs = .lt →
    termsCmp as cs = .lt
  | [], _, _ :: _, _, _ => rfl
  | [], [], [], h, _ => nomatch h
  | [], _ :: _, [], _, h => nomatch h
  | _ :: _, [], _, h, _ => nomatch h
  | _ :: _, _ :: _, [], _, h => nomatch h
  | a :: as, b :: bs, c :: cs, hab, hbc => by
    unfold termsCmp at hab hbc ⊢
    cases h : termCmp a b with
    | gt =>
      rw [h] at hab
      cases hab
    | eq =>
      rw [h] at hab
      rw [termCmp_eq h]
      cases h' : termCmp b c with
      | eq =>
        rw [h'] at hbc
        exact termsCmp_trans hab hbc
      | lt => rfl
      | gt =>
        rw [h'] at hbc
        cases hbc
    | lt =>
      cases h' : termCmp b c with
      | eq =>
        rw [← termCmp_eq h', h]
      | lt => rw [termCmp_trans h h']
      | gt =>
        rw [h'] at hbc
        cases hbc

end

/-! ## MIN and MAX -/

/-- A value's key; one without a key is never compared. -/
def keyOf (D : Doubles) (v : SqlValue) : MemKey :=
  match memKey D v with
  | .ok k => k
  | .error _ => .num 0

/-- A value stands before another in the direction's order. -/
def beats (D : Doubles) : ExtremeDir → SqlValue → SqlValue → Bool
  | .min, a, b => memSqlLt D a b
  | .max, a, b => memSqlLt D b a

def FirstBest (D : Doubles) (dir : ExtremeDir) (values : List SqlValue) (u : SqlValue) : Prop :=
  ∃ before after, values = before ++ u :: after ∧
    (∀ w ∈ before, memBetter dir (keyOf D u) (keyOf D w) = true) ∧
    ∀ w ∈ after, memBetter dir (keyOf D w) (keyOf D u) = false

section

variable {D : Doubles} {dir : ExtremeDir}

theorem memBetter_trans {a b c : MemKey} (hab : memBetter dir a b = true)
    (hbc : memBetter dir b c = true) : memBetter dir a c = true := by
  cases dir with
  | min => exact decide_eq_true (termCmp_trans (of_decide_eq_true hab) (of_decide_eq_true hbc))
  | max =>
    have hba : termCmp b a = .lt := by rw [termCmp_swap a b, of_decide_eq_true hab]; rfl
    have hcb : termCmp c b = .lt := by rw [termCmp_swap b c, of_decide_eq_true hbc]; rfl
    have hca := termCmp_trans hcb hba
    refine decide_eq_true ?_
    rw [termCmp_swap c a, hca]
    rfl

/-- What beats the best so far beats what that was not beaten by. -/
theorem memBetter_of_not {a b c : MemKey} (hab : memBetter dir a b = true)
    (hcb : memBetter dir c b = false) : memBetter dir a c = true := by
  cases hcmp : termCmp c b with
  | eq => rwa [termCmp_eq hcmp]
  | lt =>
    cases dir with
    | min => exact absurd hcmp (of_decide_eq_false hcb)
    | max =>
      refine memBetter_trans hab (decide_eq_true ?_)
      rw [termCmp_swap c b, hcmp]
      rfl
  | gt =>
    cases dir with
    | min =>
      refine memBetter_trans hab (decide_eq_true ?_)
      rw [termCmp_swap c b, hcmp]
      rfl
    | max => exact absurd hcmp (of_decide_eq_false hcb)

variable {values : List SqlValue}

theorem firstBest_snoc {best : SqlValue} (h : FirstBest D dir values best) (v : SqlValue) :
    FirstBest D dir (values ++ [v])
      (if memBetter dir (keyOf D v) (keyOf D best) then v else best) := by
  obtain ⟨before, after, rfl, hbefore, hafter⟩ := h
  by_cases hbetter : memBetter dir (keyOf D v) (keyOf D best) = true
  · rw [if_pos hbetter]
    refine ⟨before ++ best :: after, [], rfl, fun w hw => ?_, fun w hw => nomatch hw⟩
    rcases mem_append.mp hw with hw | hw
    · exact memBetter_trans hbetter (hbefore w hw)
    · rcases mem_cons.mp hw with rfl | hw
      · exact hbetter
      · exact memBetter_of_not hbetter (hafter w hw)
  · rw [if_neg hbetter]
    refine ⟨before, after ++ [v], by simp, hbefore, fun w hw => ?_⟩
    rcases mem_append.mp hw with hw | hw
    · exact hafter w hw
    · rw [mem_singleton.mp hw]
      exact Bool.eq_false_iff.mpr hbetter

variable {v : SqlValue}

theorem keyOf_eq {k : MemKey} (h : memKey D v = .ok k) : keyOf D v = k := by
  unfold keyOf
  rw [h]

/-- The fold keeps the first of the best so far. -/
theorem memExtreme_firstBest {rest values : List SqlValue} {best m : SqlValue}
    (h : FirstBest D dir values best) (hm : memExtreme D dir rest best = .ok m) :
    FirstBest D dir (values ++ rest) m := by
  induction rest generalizing values best with
  | nil =>
    cases hm
    rwa [append_nil]
  | cons v rest ih =>
    unfold memExtreme at hm
    obtain ⟨k, hk, hm⟩ := eval_bind_eq_ok.mp hm
    obtain ⟨kb, hkb, hm⟩ := eval_bind_eq_ok.mp hm
    have hstep := firstBest_snoc h v
    rw [keyOf_eq hk, keyOf_eq hkb] at hstep
    rw [← singleton_append, ← append_assoc]
    cases hbetter : memBetter dir k kb with
    | true | false =>
      rw [hbetter] at hm hstep
      exact ih hstep hm

theorem firstBest_unique {u u' : SqlValue} (h : FirstBest D dir values u)
    (h' : FirstBest D dir values u') : u = u' := by
  obtain ⟨before, after, rfl, hbefore, hafter⟩ := h
  obtain ⟨before', after', heq, hbefore', hafter'⟩ := h'
  rcases append_eq_append_iff.mp heq with ⟨mid, rfl, hmid⟩ | ⟨mid, rfl, hmid⟩
  · cases mid with
    | nil => exact (cons.inj hmid).1
    | cons w mid =>
      obtain ⟨rfl, rfl⟩ := cons.inj hmid
      have hlater := hafter u' (by simp)
      rw [hbefore' u (by simp)] at hlater
      cases hlater
  · cases mid with
    | nil => exact (cons.inj hmid).1.symm
    | cons w mid =>
      obtain ⟨rfl, rfl⟩ := cons.inj hmid
      have hlater := hafter' u (by simp)
      rw [hbefore u' (by simp)] at hlater
      cases hlater

/-- `MIN` or `MAX`. -/
def ExtremeDir.func : ExtremeDir → String
  | .min => "MIN"
  | .max => "MAX"

theorem memAgg_extreme (dir : ExtremeDir) (v : SqlValue) (rest : List SqlValue) :
    memAgg D dir.func (v :: rest) = memExtreme D dir rest v := by
  cases dir <;> rfl

/-- The extreme is returned and not beaten exactly where the keys are there and the first value with
the best key is not beaten. -/
theorem extreme_iff {rest : List SqlValue} :
    (∃ m, memAgg D dir.func (v :: rest) = .ok m ∧ m ∈ v :: rest ∧
      ∀ w ∈ v :: rest, beats D dir w m = false) ↔
    QuietExtreme D (v :: rest) ∧
      ∀ u, FirstBest D dir (v :: rest) u → ∀ w ∈ v :: rest, beats D dir w u = false := by
  rw [memAgg_extreme]
  have hfirst : ∀ m, memExtreme D dir rest v = .ok m → FirstBest D dir (v :: rest) m :=
    fun m hm => memExtreme_firstBest (show FirstBest D dir [v] v from
      ⟨[], [], rfl, nofun, nofun⟩) hm
  constructor
  · rintro ⟨m, hm, -, hbest⟩
    refine ⟨answers_memExtreme_cons.mp ⟨m, hm⟩, fun u hu => ?_⟩
    rw [firstBest_unique hu (hfirst m hm)]
    exact hbest
  · rintro ⟨hquiet, hall⟩
    obtain ⟨m, hm⟩ := answers_memExtreme_cons.mpr hquiet
    obtain ⟨before, after, hvalues, -⟩ := id (hfirst m hm)
    exact ⟨m, hm, by rw [hvalues]; simp, hall m (hfirst m hm)⟩

end

section

variable {D : Doubles} {dir : ExtremeDir}

end

end Ridge
