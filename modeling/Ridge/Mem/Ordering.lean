import Mathlib.Data.String.Basic
import Ridge.Lib.StableSort
import Ridge.Mem.QuietPlan

/-!
# ridge_rt — ORDER BY in the in-memory store

`mem_order`, `mem_order_pairs` and `mem_order_nary` hand the rows to `lists:sort` with a comparison
that takes a missing value for equal to everything. What the keys ask for is `rowRanking`; the rows
come out in that order under every sort that keeps its documentation exactly where the comparison is
transitive on the rows and follows the ranking (`mem_orders_ranked`).
-/

namespace Ridge

open Option

/-! ## What the keys ask for -/

/-- As `date_parse_iso` reads them: three runs of digits between dashes. -/
def isoDateParts (iso : String) : Option (Nat × Nat × Nat) :=
  match iso.toList.splitOn '-' with
  | [ys, ms, ds] =>
    if [ys, ms, ds].all fun run => run ≠ [] ∧ run.all Char.isDigit then
      some (digitsValue ys, digitsValue ms, digitsValue ds)
    else none
  | _ => none

def dateCmp (d e : Nat × Nat × Nat) : Ordering :=
  (cmp d.1 e.1).then ((cmp d.2.1 e.2.1).then (cmp d.2.2 e.2.2))

def exactCmp {α : Type} [DecidableEq α] (a b : α) : Option Ordering :=
  if a = b then some .eq else none

/-- Dates by the calendar; a text that is no date is the same as itself only. -/
def dateTextCmp (x y : String) : Option Ordering :=
  match isoDateParts x, isoDateParts y with
  | some d, some e => some (dateCmp d e)
  | none, none => exactCmp x y
  | _, _ => none

/-- Two values of an ordered kind compare; any others are the same or not comparable. -/
def valueCmp (D : Doubles) : SqlValue → SqlValue → Option Ordering
  | .sqlInt x, .sqlInt y => some (cmp x y)
  | .sqlText x, .sqlText y => some (cmp x y)
  | .sqlFloat x, .sqlFloat y => some (cmp (D.value x) (D.value y))
  | .sqlInstant x, .sqlInstant y => some (cmp x y)
  | .sqlDecimal x, .sqlDecimal y => some (cmp (decimalOfText x).value (decimalOfText y).value)
  | .sqlUuid x, .sqlUuid y => some (cmp x y)
  | .sqlBytes x, .sqlBytes y => some (cmp x y)
  | .sqlJson x, .sqlJson y => some (cmp x y)
  | .sqlDate x, .sqlDate y => dateTextCmp x y
  | .sqlTime x, .sqlTime y => some (cmp x y)
  | .sqlInterval x, .sqlInterval y => some (cmp x y)
  | a, b => exactCmp a b

theorem dateCmp_eq {d e : Nat × Nat × Nat} : dateCmp d e = .eq ↔ d = e := by
  unfold dateCmp
  rw [Ordering.then_eq_eq, Ordering.then_eq_eq, cmp_eq_eq_iff, cmp_eq_eq_iff, cmp_eq_eq_iff,
    Prod.ext_iff, Prod.ext_iff]

theorem dateCmp_swap (d e : Nat × Nat × Nat) : dateCmp e d = (dateCmp d e).swap := by
  unfold dateCmp
  rw [Ordering.swap_then, Ordering.swap_then, cmp_swap, cmp_swap, cmp_swap]

theorem exactCmp_eq {α : Type} [DecidableEq α] {a b : α} : exactCmp a b = some .eq ↔ a = b := by
  unfold exactCmp
  split <;> simp_all

theorem exactCmp_swap {α : Type} [DecidableEq α] (a b : α) :
    exactCmp b a = (exactCmp a b).map Ordering.swap := by
  unfold exactCmp
  by_cases h : a = b
  · rw [if_pos h, if_pos h.symm]
    rfl
  · rw [if_neg h, if_neg fun h' => h h'.symm]
    rfl

theorem dateTextCmp_swap (x y : String) :
    dateTextCmp y x = (dateTextCmp x y).map Ordering.swap := by
  unfold dateTextCmp
  cases isoDateParts x <;> cases isoDateParts y
  · exact exactCmp_swap x y
  · rfl
  · rfl
  · exact congrArg some (dateCmp_swap _ _)

theorem dateTextCmp_eq {x y : String} :
    dateTextCmp x y = some .eq ↔
      isoDateParts x = isoDateParts y ∧ (isoDateParts x = none → x = y) := by
  unfold dateTextCmp
  cases isoDateParts x <;> cases isoDateParts y
  · exact exactCmp_eq.trans ⟨fun h => ⟨rfl, fun _ => h⟩, fun h => h.2 rfl⟩
  · exact ⟨nofun, fun h => nomatch h.1⟩
  · exact ⟨nofun, fun h => nomatch h.1⟩
  · rw [some.injEq, dateCmp_eq, some.injEq]
    exact ⟨fun h => ⟨h, nofun⟩, And.left⟩

section

variable (D : Doubles)

theorem valueCmp_swap (a b : SqlValue) : valueCmp D b a = (valueCmp D a b).map Ordering.swap := by
  cases a <;> cases b <;> first
    | exact congrArg some (cmp_swap _ _).symm
    | exact dateTextCmp_swap _ _
    | exact exactCmp_swap _ _

/-- What two values of one rank have in common. -/
def SameRank : SqlValue → SqlValue → Prop
  | .sqlFloat x, .sqlFloat y => D.value x = D.value y
  | .sqlDecimal x, .sqlDecimal y => (decimalOfText x).value = (decimalOfText y).value
  | .sqlDate x, .sqlDate y =>
    isoDateParts x = isoDateParts y ∧ (isoDateParts x = none → x = y)
  | a, b => a = b

theorem valueCmp_eq {a b : SqlValue} : valueCmp D a b = some .eq ↔ SameRank D a b := by
  cases a <;> cases b <;> first
    | exact dateTextCmp_eq
    | exact exactCmp_eq
    | skip
  all_goals
    unfold valueCmp SameRank
    rw [some.injEq, cmp_eq_eq_iff]
    try simp only [SqlValue.sqlInt.injEq, SqlValue.sqlText.injEq, SqlValue.sqlInstant.injEq,
      SqlValue.sqlUuid.injEq, SqlValue.sqlBytes.injEq, SqlValue.sqlJson.injEq,
      SqlValue.sqlTime.injEq, SqlValue.sqlInterval.injEq]

theorem SameRank.refl (a : SqlValue) : SameRank D a a := by
  cases a <;> first
    | exact ⟨rfl, fun _ => rfl⟩
    | rfl

theorem SameRank.trans {a b c : SqlValue} (hab : SameRank D a b) (hbc : SameRank D b c) :
    SameRank D a c := by
  cases a <;> cases b <;> first
    | (cases hab; done)
    | (cases c <;> first
        | exact Eq.trans hab hbc
        | exact ⟨hab.1.trans hbc.1, fun h => (hab.2 h).trans (hbc.2 (hab.1 ▸ h))⟩
        | cases hbc)

/-- What a key asks for of two values there are. -/
def valueRanking : Ranking SqlValue where
  cmp := valueCmp D
  refl a := (valueCmp_eq D).mpr (SameRank.refl D a)
  swap := valueCmp_swap D
  trans _ _ _ hab hbc :=
    (valueCmp_eq D).mpr (SameRank.trans D ((valueCmp_eq D).mp hab) ((valueCmp_eq D).mp hbc))

end

/-! ## Rows by their keys -/

section

variable (D : Doubles) {α : Type} (key : QExpr → α → Eval (Option SqlValue))

/-- A key's value on a row; one that raises has none. -/
def cellAt (k : QExpr) (row : α) : Option SqlValue :=
  match key k row with
  | .ok v => v
  | .error _ => none

/-- The first key that differs decides, if its values compare. -/
def rowRanking : List (Bool × QExpr) → Ranking α
  | [] => .level
  | (asc, k) :: rest =>
    let first := (valueRanking D).ofOption.comap (cellAt key k)
    (if asc then first else first.descending).andThen (rowRanking rest)

/-- The comparison a sort is given, `false` where it raises. -/
def memLe (orders : List (Bool × QExpr)) (a b : α) : Bool :=
  isTrue (memLeBy ⟨D, .merge⟩ key orders a b)

/-- What it takes for the rows to come out in order: every comparison returns, and either the
comparison is transitive on the rows and follows the keys or no two rows are told apart. -/
def InOrder (orders : List (Bool × QExpr)) (rows : List α) : Prop :=
  (∀ a ∈ rows, ∀ b ∈ rows, Answers (memLeBy ⟨D, .merge⟩ key orders a b)) ∧
    ((TransOn (memLe D key orders) rows ∧
        rows.Pairwise ((rowRanking D key orders).Follows (memLe D key orders))) ∨
      rows.Pairwise (rowRanking D key orders).Unranked)

variable {D} {key}

/-- Only the doubles of the runtime matter to a comparison. -/
theorem memLeBy_sorting (S S' : Sorting) (orders : List (Bool × QExpr)) (a b : α) :
    memLeBy ⟨D, S⟩ key orders a b = memLeBy ⟨D, S'⟩ key orders a b := by
  induction orders with
  | nil => rfl
  | cons o rest ih =>
    unfold memLeBy
    rw [ih]

theorem memSqlLt_asymm {a b : SqlValue} (h : memSqlLt D a b = true) : memSqlLt D b a = false := by
  cases a <;> cases b <;> first
    | exact decide_eq_false (lt_asymm (of_decide_eq_true h))
    | cases h
    | skip
  next x y =>
    have h' : decimalTextLt x y = true := h
    show decimalTextLt y x = false
    rw [decimalTextLt_eq] at h' ⊢
    exact decide_eq_false (lt_asymm (of_decide_eq_true h'))

theorem memOrderCmp_swap (a b : Option SqlValue) :
    memOrderCmp D b a = (memOrderCmp D a b).swap := by
  cases a with
  | none => cases b <;> rfl
  | some a =>
    cases b with
    | none => rfl
    | some b =>
      unfold memOrderCmp
      dsimp only
      cases hab : memSqlLt D a b with
      | true =>
        rw [memSqlLt_asymm hab]
        rfl
      | false => cases memSqlLt D b a <;> rfl

variable {orders : List (Bool × QExpr)}

variable {S : Sorting}

/-- Of two rows one sorts no later than the other. -/
theorem memLeBy_total {a b : α} {c d : Bool} (hab : memLeBy ⟨D, S⟩ key orders a b = .ok c)
    (hba : memLeBy ⟨D, S⟩ key orders b a = .ok d) : (c || d) = true := by
  induction orders with
  | nil =>
    cases hab
    rfl
  | cons o rest ih =>
    unfold memLeBy at hab hba
    obtain ⟨x, hx, hab⟩ := eval_bind_eq_ok.mp hab
    obtain ⟨y, hy, hab⟩ := eval_bind_eq_ok.mp hab
    rw [hy] at hba
    obtain ⟨y', hy', hba⟩ := eval_bind_eq_ok.mp hba
    cases hy'
    rw [hx] at hba
    obtain ⟨x', hx', hba⟩ := eval_bind_eq_ok.mp hba
    cases hx'
    dsimp only at hab hba
    rw [memOrderCmp_swap] at hba
    cases hcmp : memOrderCmp D x y with
    | eq =>
      rw [hcmp] at hab hba
      exact ih hab hba
    | lt | gt =>
      rw [hcmp] at hab hba
      cases hab
      cases hba
      cases o.1 <;> rfl

theorem memLe_eq {a b : α} (h : Answers (memLeBy ⟨D, .merge⟩ key orders a b)) :
    memLeBy ⟨D, S⟩ key orders a b = .ok (memLe D key orders a b) := by
  obtain ⟨c, hc⟩ := h
  unfold memLe
  rw [memLeBy_sorting S .merge, hc]
  rfl

theorem totalOn_memLe {rows : List α}
    (h : ∀ a ∈ rows, ∀ b ∈ rows, Answers (memLeBy ⟨D, .merge⟩ key orders a b)) :
    TotalOn (memLe D key orders) rows := fun a ha b hb =>
  memLeBy_total (S := .merge) (memLe_eq (h a ha b hb)) (memLe_eq (h b hb a ha))

end

/-! ## Where the comparison follows the keys -/

section

variable {D : Doubles} {α : Type} {key : QExpr → α → Eval (Option SqlValue)}

theorem memSqlLt_irrefl (a : SqlValue) : memSqlLt D a a = false := by
  cases h : memSqlLt D a a with
  | false => rfl
  | true =>
    have hasymm := memSqlLt_asymm h
    rw [h] at hasymm
    exact hasymm

end

/-! ## Sorts -/

/-- `lists:sort/2` with what its documentation says of the elements of the list: it is a stable sort
wherever the comparison is a total preorder of those. -/
structure ListsSort extends Sorting where
  stableOn : ∀ {α : Type} {le : α → α → Eval Bool} {le' : α → α → Bool} {l : List α},
    (∀ a ∈ l, ∀ b ∈ l, le a b = .ok (le' a b)) → TotalOn le' l → TransOn le' l →
    sort le l = .ok (l.mergeSort le')

/-- Every comparison of two elements. -/
def compareAll {α : Type} (le : α → α → Eval Bool) (l : List α) : Eval (List (List Bool)) :=
  l.mapM fun a => l.mapM fun b => le a b

theorem answers_compareAll {α : Type} {le : α → α → Eval Bool} {l : List α} :
    Answers (compareAll le l) ↔ ∀ a ∈ l, ∀ b ∈ l, Answers (le a b) := by
  unfold compareAll
  simp only [answers_mapM]

/-- A sort that compares all elements first and does what `s` does where it finds no order. -/
def ListsSort.shuffling (s : Shuffle) : ListsSort where
  sort le l := do
    let _ ← compareAll le l
    let le' := fun a b => isTrue (le a b)
    pure (if TotalOn le' l ∧ TransOn le' l then l.mergeSort le' else s.run l)
  perm h := by
    obtain ⟨_, _, h⟩ := eval_bind_eq_ok.mp h
    cases h
    split
    · exact List.mergeSort_perm _ _
    · exact s.perm _
  returns h := by
    obtain ⟨cs, hcs⟩ := answers_compareAll.mpr h
    rw [hcs]
    exact ⟨_, rfl⟩
  stable := by
    intro α le l htotal htrans
    obtain ⟨cs, hcs⟩ := answers_compareAll.mpr fun a (_ : a ∈ l) b (_ : b ∈ l) =>
      answers_ok (ε := Crash) (le a b)
    rw [hcs]
    show Except.ok (if TotalOn le l ∧ TransOn le l then l.mergeSort le else s.run l) = _
    rw [if_pos ⟨fun a _ b _ => htotal a b, fun a _ b _ c _ => htrans a b c⟩]
  stableOn := by
    intro α le le' l hle htotal htrans
    obtain ⟨cs, hcs⟩ := answers_compareAll.mpr fun a ha b hb => ⟨le' a b, hle a ha b hb⟩
    have hsame : ∀ a ∈ l, ∀ b ∈ l, isTrue (le a b) = le' a b := fun a ha b hb => by
      rw [hle a ha b hb]
      rfl
    have hsame' : ∀ a ∈ l, ∀ b ∈ l, le' a b = isTrue (le a b) := fun a ha b hb =>
      (hsame a ha b hb).symm
    rw [hcs]
    show Except.ok (if TotalOn (fun a b => isTrue (le a b)) l ∧ _ then _ else s.run l) = _
    rw [if_pos ⟨htotal.congr hsame', htrans.congr hsame'⟩, mergeSort_congr_on hsame]

theorem shuffling_eq {α : Type} {le : α → α → Eval Bool} {le' : α → α → Bool} {l : List α}
    (hle : ∀ a ∈ l, ∀ b ∈ l, le a b = .ok (le' a b)) (htrans : ¬TransOn le' l) (s : Shuffle) :
    (ListsSort.shuffling s).sort le l = .ok (s.run l) := by
  obtain ⟨cs, hcs⟩ := answers_compareAll.mpr fun a ha b hb => ⟨le' a b, hle a ha b hb⟩
  have hsame : ∀ a ∈ l, ∀ b ∈ l, isTrue (le a b) = le' a b := fun a ha b hb => by
    rw [hle a ha b hb]
    rfl
  show (compareAll le l >>= fun _ => _) = _
  rw [hcs]
  show Except.ok (if _ ∧ TransOn (fun a b => isTrue (le a b)) l then _ else s.run l) = _
  rw [if_neg fun h => htrans (h.2.congr hsame)]

/-! ## The rows -/

section

variable (D : Doubles) {α : Type} (key : QExpr → α → Eval (Option SqlValue))
  (orders : List (Bool × QExpr)) (rows : List α)

/-- No keys ask for nothing. -/
theorem inOrder_nil : InOrder D key [] rows :=
  ⟨fun _ _ _ _ => answers_pure true, .inl ⟨fun _ _ _ _ _ _ _ _ => rfl,
    List.pairwise_of_forall fun _ _ => ⟨nofun, fun _ => rfl⟩⟩⟩

/-- Under every sort the rows come out as the keys ask exactly where `InOrder` holds. -/
theorem memOrderBy_ranked :
    (∀ S : ListsSort, ∃ out, memOrderBy ⟨D, S.toSorting⟩ key orders rows = .ok out ∧
      (rowRanking D key orders).Ranked rows out) ↔ InOrder D key orders rows := by
  cases orders with
  | nil =>
    refine iff_of_true (fun S => ⟨rows, rfl, List.Perm.refl _, ?_, fun _ _ => rfl⟩)
      (inOrder_nil D key rows)
    exact List.pairwise_of_forall fun _ _ => nofun
  | cons o os =>
    have hle : ∀ (S : Sorting) (a b : α), memLeBy ⟨D, S⟩ key (o :: os) a b =
        memLeBy ⟨D, .merge⟩ key (o :: os) a b := fun S a b => memLeBy_sorting S .merge _ a b
    constructor
    · intro hall
      -- What the sorts that look at every pair make of the rows.
      have hanswers : ∀ a ∈ rows, ∀ b ∈ rows,
          Answers (memLeBy ⟨D, .merge⟩ key (o :: os) a b) := by
        obtain ⟨out, hout, -⟩ := hall (.shuffling .keep)
        obtain ⟨cs, hcs, -⟩ := eval_bind_eq_ok.mp hout
        intro a ha b hb
        rw [← hle]
        exact answers_compareAll.mp ⟨cs, hcs⟩ a ha b hb
      have hsome : ∀ s : Shuffle, ∀ a ∈ rows, ∀ b ∈ rows,
          memLeBy ⟨D, (ListsSort.shuffling s).toSorting⟩ key (o :: os) a b =
            .ok (memLe D key (o :: os) a b) := fun s a ha b hb => memLe_eq (hanswers a ha b hb)
      refine ⟨hanswers, ?_⟩
      by_cases htrans : TransOn (memLe D key (o :: os)) rows
      · obtain ⟨out, hout, hranked⟩ := hall (.shuffling .keep)
        have hsort := (ListsSort.shuffling .keep).stableOn (hsome .keep) (totalOn_memLe hanswers)
          htrans
        cases hout.symm.trans hsort
        exact .inl ⟨htrans, (Ranking.ranked_mergeSort (totalOn_memLe hanswers) htrans).mp hranked⟩
      · refine .inr (by_contra fun hranked => ?_)
        obtain ⟨out, hperm, hnot⟩ := Ranking.exists_not_ranked hranked
        obtain ⟨s, rfl⟩ := Shuffle.exists_run hperm
        obtain ⟨out, hout, hranked⟩ := hall (.shuffling s)
        cases hout.symm.trans (shuffling_eq (hsome s) htrans s)
        exact hnot hranked
    · rintro ⟨hanswers, ⟨htrans, hfollows⟩ | hunranked⟩ S
      all_goals have hreturns : ∀ a ∈ rows, ∀ b ∈ rows,
          ∃ c, memLeBy ⟨D, S.toSorting⟩ key (o :: os) a b = .ok c := fun a ha b hb =>
        ⟨_, memLe_eq (hanswers a ha b hb)⟩
      · refine ⟨_, S.stableOn (fun a ha b hb => memLe_eq (hanswers a ha b hb))
          (totalOn_memLe hanswers) htrans, ?_⟩
        exact (Ranking.ranked_mergeSort (totalOn_memLe hanswers) htrans).mpr hfollows
      · obtain ⟨out, hout⟩ := S.returns hreturns
        exact ⟨out, hout, Ranking.ranked_of_unranked hunranked (S.perm hout)⟩

end

/-- The three entry points put rows, pairs and joined rows in the order of their keys, under every
sort that keeps its documentation, exactly where the comparison can be sorted by. -/
theorem mem_orders_ranked (D : Doubles) :
    (∀ (orders : List (Bool × QExpr)) (rows : List SqlRow),
      (∀ S : ListsSort, ∃ out, memOrder ⟨D, S.toSorting⟩ orders rows = .ok out ∧
        (rowRanking D (fun k row => memScalar D row k) orders).Ranked rows out) ↔
      InOrder D (fun k row => memScalar D row k) orders rows) ∧
    (∀ (orders : List (Bool × Int × QExpr)) (pairs : List JoinPair),
      (∀ S : ListsSort, ∃ out, memOrderPairs ⟨D, S.toSorting⟩ orders pairs = .ok out ∧
        (rowRanking D (fun k (p : JoinPair) => memJscalar D (p.1.getD []) (p.2.getD []) k)
          (orders.map fun o => (o.1, o.2.2))).Ranked pairs out) ↔
      InOrder D (fun k (p : JoinPair) => memJscalar D (p.1.getD []) (p.2.getD []) k)
        (orders.map fun o => (o.1, o.2.2)) pairs) ∧
    ∀ (orders : List (Bool × Int × QExpr)) (rows : List SqlRow),
      (∀ S : ListsSort, ∃ out, memOrderNary ⟨D, S.toSorting⟩ orders rows = .ok out ∧
        (rowRanking D (fun k row => memNscalar D row k)
          (orders.map fun o => (o.1, o.2.2))).Ranked rows out) ↔
      InOrder D (fun k row => memNscalar D row k) (orders.map fun o => (o.1, o.2.2)) rows :=
  ⟨memOrderBy_ranked D fun k row => memScalar D row k,
    fun orders pairs => memOrderBy_ranked D
      (fun k (p : JoinPair) => memJscalar D (p.1.getD []) (p.2.getD []) k)
      (orders.map fun o : Bool × Int × QExpr => (o.1, o.2.2)) pairs,
    fun orders rows => memOrderBy_ranked D (fun k row => memNscalar D row k)
      (orders.map fun o : Bool × Int × QExpr => (o.1, o.2.2)) rows⟩

/-- A row without the key stands between two that have it, and a sort that finds each row no later
than the next leaves 2 in front of 1. -/
theorem missing_key_out_of_order :
    memOrder ⟨.ieee, (ListsSort.shuffling .keep).toSorting⟩ [(true, .qCol "n")]
        [[("n", .sqlInt 2)], [], [("n", .sqlInt 1)]] =
      .ok [[("n", .sqlInt 2)], [], [("n", .sqlInt 1)]] ∧
    ¬(rowRanking .ieee (fun k row => memScalar .ieee row k) [(true, .qCol "n")]).Ranked
      [[("n", .sqlInt 2)], [], [("n", .sqlInt 1)]] [[("n", .sqlInt 2)], [], [("n", .sqlInt 1)]] := by
  refine ⟨by decide, fun hranked => ?_⟩
  exact (List.pairwise_cons.mp hranked.sorted).1 [("n", .sqlInt 1)] (by decide) (by decide)

end Ridge
