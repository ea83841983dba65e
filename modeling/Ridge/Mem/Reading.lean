import Mathlib
import Ridge.Mem.Compare
import Ridge.Mem.Rows

/-!
# ridge_rt — the interpreters against the truth of a tree

`<>`, `<=`, `>=` and `NOT` are the complement of a test that answers `false` on a value that is
missing. So a tree is walked at a reading `u` of UNKNOWN, which starts at `false` and turns over
below each complement. `FaithfulPred` is when every test that is made leans the way its reading
needs; the interpreters then answer as SQL does.
-/

/-!
## ridge_rt — flat rows

A join's flat row holds each leaf's columns under the leaf's prefix. The prefixes keep the leaves
apart whatever the columns are called, so a flat row is read back leaf by leaf (`FlatRow`), and a
probe's inner row joins it as one more leaf.
-/

namespace Ridge

open List Function

/-! ## Cells of merged rows -/

theorem rowFind_mergeRow (row changes : SqlRow) (column : String) :
    rowFind (mergeRow row changes) column =
      (rowFind changes column).or (rowFind row column) := by
  -- A cell keeps its column when its value is replaced.
  have hkey : ∀ c : String × SqlValue, ((changes.find? fun d => d.1 = c.1).getD c).1 = c.1 := by
    intro c
    cases h : changes.find? fun d => d.1 = c.1 with
    | none => rfl
    | some d => simpa using List.find?_some h
  have hcomp : ((fun d : String × SqlValue => decide (d.1 = column)) ∘
      fun c => (changes.find? fun d => d.1 = c.1).getD c) = fun c => decide (c.1 = column) := by
    funext c
    show decide (((changes.find? fun d => d.1 = c.1).getD c).1 = column) = _
    rw [hkey c]
  unfold rowFind mergeRow
  rw [List.find?_append, List.find?_map, hcomp]
  cases hrow : row.find? fun c => c.1 = column with
  | some c =>
    have hc : c.1 = column := by simpa using List.find?_some hrow
    show some ((changes.find? fun d => d.1 = c.1).getD c).2 = _
    rw [hc]
    cases changes.find? fun d => d.1 = column <;> rfl
  | none =>
    have hnew : ∀ d ∈ changes, d.1 = column → (!row.any fun c => c.1 = d.1) = true := by
      intro d _ hd
      rw [hd, Bool.not_eq_true', List.any_eq_false]
      exact fun c hc => List.find?_eq_none.mp hrow c hc
    have hfind : ∀ l : SqlRow, (∀ d ∈ l, d.1 = column → (!row.any fun c => c.1 = d.1) = true) →
        (l.filter fun d => !row.any fun c => c.1 = d.1).find? (fun d => d.1 = column) =
          l.find? fun d => d.1 = column := by
      intro l hl
      rw [List.find?_filter]
      refine List.find?_congr fun d hd => ?_
      refine decide_eq_decide.mpr ⟨fun h => of_decide_eq_true h.2, fun h => ⟨hl d hd h, ?_⟩⟩
      exact decide_eq_true h
    show (((changes.filter _).find? _).map Prod.snd) = _
    rw [hfind changes hnew]
    exact (Option.or_none).symm

theorem rowFind_memPrefixKeys (pre : String) (row : SqlRow) (column : String) :
    rowFind (memPrefixKeys pre row) (pre ++ column) = rowFind row column := by
  unfold rowFind memPrefixKeys
  rw [List.find?_map, Option.map_map]
  have hcomp : ((fun d : String × SqlValue => decide (d.1 = pre ++ column)) ∘
      fun c : String × SqlValue => (pre ++ c.1, c.2)) = fun c => decide (c.1 = column) := by
    funext c
    exact decide_eq_decide.mpr (String.append_right_inj pre)
  rw [hcomp]
  rfl

variable {row : SqlRow}

theorem rowFind_memPrefixKeys_eq_none {pre : String} {column : String}
    (h : ∀ c, column ≠ pre ++ c) : rowFind (memPrefixKeys pre row) column = none := by
  unfold rowFind memPrefixKeys
  rw [Option.map_eq_none_iff, find?_eq_none]
  intro d hd
  obtain ⟨c, _, rfl⟩ := mem_map.mp hd
  simpa using (h c.1).symm

/-! ## Prefixes -/

theorem dollar_not_mem_repr (n : Nat) : '$' ∉ n.repr.toList := by
  intro h
  have hmem : '$' ∈ Nat.toDigits 10 n := by simpa [Nat.repr] using h
  have hdigit : '$'.isDigit = true := Nat.isDigit_of_mem_toDigits (by decide) (by decide) hmem
  exact absurd hdigit (by decide)

theorem dollar_not_mem_toString (leaf : Int) : '$' ∉ (toString leaf).toList := by
  cases leaf with
  | ofNat n => exact dollar_not_mem_repr n
  | negSucc n =>
    show '$' ∉ ("-" ++ n.succ.repr).toList
    rw [String.toList_append, mem_append]
    exact not_or.mpr ⟨by decide, dollar_not_mem_repr _⟩

/-- Two texts without the mark before it are equal when the whole ones are. -/
theorem append_mark_inj {α : Type} {m : α} :
    ∀ {a b c d : List α}, m ∉ a → m ∉ b → a ++ m :: c = b ++ m :: d → a = b ∧ c = d
  | [], [], _, _, _, _, h => ⟨rfl, (cons.inj h).2⟩
  | [], y :: b, _, _, _, hb, h => absurd mem_cons_self ((cons.inj h).1 ▸ hb)
  | x :: a, [], _, _, ha, _, h => absurd mem_cons_self ((cons.inj h).1 ▸ ha)
  | x :: a, y :: b, _, _, ha, hb, h => by
    obtain ⟨hxy, htail⟩ := cons.inj h
    obtain ⟨hab, hcd⟩ := append_mark_inj (not_mem_of_not_mem_cons ha)
      (not_mem_of_not_mem_cons hb) htail
    exact ⟨by rw [hxy, hab], hcd⟩

theorem memLeafPrefix_inj {leaf leaf' : Int} {c c' : String}
    (h : memLeafPrefix leaf ++ c = memLeafPrefix leaf' ++ c') : leaf = leaf' := by
  have hlists := congrArg String.toList h
  simp only [memLeafPrefix, String.toList_append, append_assoc] at hlists
  have hdigits := (append_mark_inj (dollar_not_mem_toString leaf) (dollar_not_mem_toString leaf')
    (append_cancel_left hlists)).1
  exact Int.repr_injective (String.toList_inj.mp hdigits)

theorem dollar_mem_memLeafPrefix (leaf : Int) (c : String) :
    '$' ∈ (memLeafPrefix leaf ++ c).toList := by
  simp [memLeafPrefix, String.toList_append]

/-! ## Reading a flat row -/

/-- The flat row of the first `n` leaves of a scope. -/
structure FlatRow (s : Scope) (n : Nat) (row : SqlRow) : Prop where
  cell : ∀ leaf c, rowFind row (memLeafPrefix leaf ++ c) = rowFind (s leaf) c
  prefixed : ∀ c, '$' ∉ c.toList → rowFind row c = none
  beyond : ∀ leaf, (n : Int) ≤ leaf → s leaf = []

theorem FlatRow.empty : FlatRow (fun _ => []) 0 [] where
  cell _ _ := rfl
  prefixed _ _ := rfl
  beyond _ _ := rfl

variable {s : Scope}

theorem FlatRow.extend {n : Nat} (h : FlatRow s n row) (inner : SqlRow) :
    FlatRow (update s n inner) (n + 1)
      (mergeRow row (memPrefixKeys (memLeafPrefix n) inner)) where
  cell leaf c := by
    rw [rowFind_mergeRow, h.cell]
    by_cases hleaf : leaf = n
    · rw [hleaf, rowFind_memPrefixKeys, h.beyond n (Int.le_refl _), update_self]
      exact Option.or_none
    · rw [rowFind_memPrefixKeys_eq_none fun c' hc => hleaf (memLeafPrefix_inj hc),
        update_of_ne hleaf]
      rfl
  prefixed c hc := by
    rw [rowFind_mergeRow, h.prefixed c hc, rowFind_memPrefixKeys_eq_none fun c' h' => ?_]
    · rfl
    · rw [h'] at hc
      exact hc (dollar_mem_memLeafPrefix _ _)
  beyond leaf hleaf := by
    rw [update_of_ne (by omega)]
    exact h.beyond leaf (by omega)

/-- One table's row is leaf 0 of its probes. -/
theorem FlatRow.single (row : SqlRow) :
    FlatRow (update (fun _ => []) 0 row) 1 (memPrefixKeys (memLeafPrefix 0) row) := by
  have h := FlatRow.empty.extend row
  have hmerge : mergeRow [] (memPrefixKeys (memLeafPrefix (0 : Nat)) row) =
      memPrefixKeys (memLeafPrefix 0) row := by
    show (memPrefixKeys (memLeafPrefix 0) row).filter (fun _ => true) = _
    exact filter_eq_self.mpr fun _ _ => rfl
  rwa [hmerge] at h

open Kleene

open Kleene (reading holds)

/-! ## Where a column is read -/

/-- The three forms of row an interpreter walks. -/
inductive RowForm where
  | bare | pair | flat
  deriving DecidableEq

/-- What the tree names is in the row under that name. A flat row falls back on the bare name. -/
def RowForm.Holds (form : RowForm) (s : Scope) : QExpr → Prop
  | .qCol c => form = .flat → '$' ∉ c.toList ∨ rowFind (s 0) c ≠ none
  | .qColR c => form = .bare → rowFind (s 1) c = none
  | .qColAt leaf c => form ≠ .flat → rowFind (s leaf) c = none
  | _ => True

/-- The cells an interpreter reads are those of the scope. -/
structure RowForm.Represents (form : RowForm) (s : Scope) (c : Cells) : Prop where
  col : ∀ name, form.Holds s (.qCol name) → c.col name = rowFind (s 0) name
  colR : ∀ name, form.Holds s (.qColR name) → c.colR name = rowFind (s 1) name
  colAt : ∀ leaf name, form.Holds s (.qColAt leaf name) → c.colAt leaf name = rowFind (s leaf) name

theorem represents_bareCells (h : s 0 = row) :
    RowForm.bare.Represents s (bareCells row) where
  col name _ := by rw [h]; rfl
  colR name hname := (hname rfl).symm
  colAt leaf name hname := (hname (by decide)).symm

theorem represents_flatCells {n : Nat} (h : FlatRow s n row) :
    RowForm.flat.Represents s (flatCells row) where
  col name hname := by
    show memLeftCell row name = _
    rw [memLeftCell, h.cell]
    cases hcell : rowFind (s 0) name with
    | some v => rfl
    | none =>
      rcases hname rfl with hdollar | hthere
      · exact h.prefixed name hdollar
      · exact absurd hcell hthere
  colR name _ := h.cell 1 name
  colAt leaf name _ := h.cell leaf name

/-! ## Trees -/

section

variable (D : Doubles) (tables : Tables)

mutual

/-- An operand is a scalar whose columns are there and whose arithmetic stays in range. A `CASE`
asks its condition without the store. -/
def FaithfulScalar (form : RowForm) (n : Nat) (s : Scope) : QExpr → Prop
  | .qCol c => form.Holds s (.qCol c)
  | .qColR c => form.Holds s (.qColR c)
  | .qColAt leaf c => form.Holds s (.qColAt leaf c)
  | .qAdd a b =>
    FaithfulScalar form n s a ∧ FaithfulScalar form n s b ∧
      Fits D .add (sqlScalar D tables n s a) (sqlScalar D tables n s b)
  | .qSub a b =>
    FaithfulScalar form n s a ∧ FaithfulScalar form n s b ∧
      Fits D .sub (sqlScalar D tables n s a) (sqlScalar D tables n s b)
  | .qMul a b =>
    FaithfulScalar form n s a ∧ FaithfulScalar form n s b ∧
      Fits D .mul (sqlScalar D tables n s a) (sqlScalar D tables n s b)
  | .qDiv a b =>
    FaithfulScalar form n s a ∧ FaithfulScalar form n s b ∧
      Fits D .div (sqlScalar D tables n s a) (sqlScalar D tables n s b)
  | .qMod a b =>
    FaithfulScalar form n s a ∧ FaithfulScalar form n s b ∧
      Fits D .mod (sqlScalar D tables n s a) (sqlScalar D tables n s b)
  | .qCase c t e =>
    FaithfulPred form false false n s c ∧
      if holds (sqlPred D tables n s c) then FaithfulScalar form n s t
      else FaithfulScalar form n s e
  | e => (litValue e).isSome

/-- Every test that is made, read at `u`, leans that way. `store` says whether an `EXISTS` is put
to the store. -/
def FaithfulPred (form : RowForm) (store u : Bool) (n : Nat) (s : Scope) : QExpr → Prop
  | .qAnd a b =>
    FaithfulPred form store u n s a ∧
      (reading u (sqlPred D tables n s a) = true → FaithfulPred form store u n s b)
  | .qOr a b =>
    FaithfulPred form store u n s a ∧
      (reading u (sqlPred D tables n s a) = false → FaithfulPred form store u n s b)
  | .qNot x => FaithfulPred form store (!u) n s x
  | .qNotTrue x => FaithfulPred form store false n s x
  | .qEq a b =>
    FaithfulScalar form n s a ∧ FaithfulScalar form n s b ∧
      FaithfulEq D u (sqlScalar D tables n s a) (sqlScalar D tables n s b)
  | .qNe a b =>
    FaithfulScalar form n s a ∧ FaithfulScalar form n s b ∧
      FaithfulEq D (!u) (sqlScalar D tables n s a) (sqlScalar D tables n s b)
  | .qLt a b =>
    FaithfulScalar form n s a ∧ FaithfulScalar form n s b ∧
      FaithfulLt D u (sqlScalar D tables n s a) (sqlScalar D tables n s b)
  | .qGt a b =>
    FaithfulScalar form n s a ∧ FaithfulScalar form n s b ∧
      FaithfulLt D u (sqlScalar D tables n s b) (sqlScalar D tables n s a)
  | .qLe a b =>
    FaithfulScalar form n s a ∧ FaithfulScalar form n s b ∧
      FaithfulLt D (!u) (sqlScalar D tables n s b) (sqlScalar D tables n s a)
  | .qGe a b =>
    FaithfulScalar form n s a ∧ FaithfulScalar form n s b ∧
      FaithfulLt D (!u) (sqlScalar D tables n s a) (sqlScalar D tables n s b)
  | .qLike v p =>
    FaithfulScalar form n s v ∧ FaithfulScalar form n s p ∧
      FaithfulLike u (sqlScalar D tables n s v) (sqlScalar D tables n s p)
  | .qIn v items =>
    FaithfulScalar form n s v ∧ FaithfulScalars form n s items ∧
      FaithfulIn D u (sqlScalar D tables n s v) (sqlScalars D tables n s items)
  | .qCol c => form.Holds s (.qCol c) ∧ FaithfulBoolean u (rowFind (s 0) c)
  | .qColR c => form.Holds s (.qColR c) ∧ FaithfulBoolean u (rowFind (s 1) c)
  | .qColAt leaf c => form.Holds s (.qColAt leaf c) ∧ FaithfulBoolean u (rowFind (s leaf) c)
  | .qLitBool _ => True
  | .qCase c t e =>
    FaithfulPred form store false n s c ∧
      if holds (sqlPred D tables n s c) then FaithfulPred form store u n s t
      else FaithfulPred form store u n s e
  | .qExists table corr =>
    store = true ∧ UpToFirst
      (fun inner =>
        FaithfulPred .flat true false (n + 1) (Function.update s n inner) corr)
      (fun inner => holds (sqlPred D tables (n + 1) (Function.update s n inner) corr))
      (rowsOf table tables)
  | _ => False

def FaithfulScalars (form : RowForm) (n : Nat) (s : Scope) : List QExpr → Prop
  | [] => True
  | e :: es => FaithfulScalar form n s e ∧ FaithfulScalars form n s es

end

end

section

variable {D : Doubles} {tables : Tables} {form : RowForm} {n : Nat} {s : Scope} {c : Cells}

mutual

theorem scalarWith_eq (hc : form.Represents s c) {e : QExpr}
    (h : FaithfulScalar D tables form n s e) : scalarWith D c e = .ok (sqlScalar D tables n s e) := by
  cases e with
  | qCol name =>
    unfold FaithfulScalar at h
    exact congrArg Except.ok (hc.col name h)
  | qColR name =>
    unfold FaithfulScalar at h
    exact congrArg Except.ok (hc.colR name h)
  | qColAt leaf name =>
    unfold FaithfulScalar at h
    exact congrArg Except.ok (hc.colAt leaf name h)
  | qAdd a b | qSub a b | qMul a b | qDiv a b | qMod a b =>
    unfold FaithfulScalar at h
    unfold scalarWith
    rw [scalarWith_eq hc h.1, scalarWith_eq hc h.2.1]
    exact memArithApply_eq h.2.2
  | qCase cond t e =>
    unfold FaithfulScalar at h
    unfold scalarWith sqlScalar
    rw [predWith_eq hc h.1, holds_eq_reading]
    rw [holds_eq_reading] at h
    cases hread : reading false (sqlPred D tables n s cond) with
    | true | false =>
      rw [hread] at h
      exact scalarWith_eq hc h.2
  | _ => rfl

theorem predWith_eq (hc : form.Represents s c) {u : Bool} {e : QExpr}
    (h : FaithfulPred D tables form false u n s e) :
    predWith D c e = .ok (reading u (sqlPred D tables n s e)) := by
  cases e with
  | qAnd a b =>
    unfold FaithfulPred at h
    unfold predWith sqlPred
    rw [predWith_eq hc h.1, reading_and]
    cases hread : reading u (sqlPred D tables n s a) with
    | true => exact predWith_eq hc (h.2 hread)
    | false => rfl
  | qOr a b =>
    unfold FaithfulPred at h
    unfold predWith sqlPred
    rw [predWith_eq hc h.1, reading_or]
    cases hread : reading u (sqlPred D tables n s a) with
    | true => rfl
    | false => exact predWith_eq hc (h.2 hread)
  | qNot x =>
    unfold FaithfulPred at h
    unfold predWith sqlPred
    rw [predWith_eq hc h, reading_not]
    rfl
  | qNotTrue x =>
    unfold FaithfulPred at h
    unfold predWith sqlPred
    rw [predWith_eq hc h, holds_eq_reading]
    rfl
  | qEq a b =>
    unfold FaithfulPred at h
    unfold predWith sqlPred
    rw [scalarWith_eq hc h.1, scalarWith_eq hc h.2.1, ← relate_memSqlEq h.2.2]
    rfl
  | qNe a b =>
    unfold FaithfulPred at h
    unfold predWith sqlPred
    rw [scalarWith_eq hc h.1, scalarWith_eq hc h.2.1, reading_not,
      ← relate_memSqlEq h.2.2]
    rfl
  | qLt a b | qGt a b =>
    unfold FaithfulPred at h
    unfold predWith sqlPred
    rw [scalarWith_eq hc h.1, scalarWith_eq hc h.2.1, ← relate_memSqlLt h.2.2]
    rfl
  | qLe a b | qGe a b =>
    unfold FaithfulPred at h
    unfold predWith sqlPred
    rw [scalarWith_eq hc h.1, scalarWith_eq hc h.2.1, reading_not,
      ← relate_memSqlLt h.2.2]
    rfl
  | qLike v p =>
    unfold FaithfulPred at h
    unfold predWith sqlPred
    rw [scalarWith_eq hc h.1, scalarWith_eq hc h.2.1, ← memLikePred_eq h.2.2]
    rfl
  | qIn v items =>
    unfold FaithfulPred at h
    unfold predWith sqlPred
    rw [scalarWith_eq hc h.1, scalarsWith_eq hc h.2.1, ← memInPred_eq h.2.2]
    rfl
  | qCol name =>
    unfold FaithfulPred at h
    unfold predWith sqlPred
    rw [hc.col name h.1, memTruthy_eq h.2]
  | qColR name =>
    unfold FaithfulPred at h
    unfold predWith sqlPred
    rw [hc.colR name h.1, memTruthy_eq h.2]
  | qColAt leaf name =>
    unfold FaithfulPred at h
    unfold predWith sqlPred
    rw [hc.colAt leaf name h.1, memTruthy_eq h.2]
  | qLitBool b => exact rfl
  | qCase cond t e =>
    unfold FaithfulPred at h
    unfold predWith sqlPred
    rw [predWith_eq hc h.1, holds_eq_reading]
    rw [holds_eq_reading] at h
    cases hread : reading false (sqlPred D tables n s cond) with
    | true | false =>
      rw [hread] at h
      exact predWith_eq hc h.2
  | qExists table corr =>
    unfold FaithfulPred at h
    exact absurd h.1 Bool.false_ne_true
  | _ => exact False.elim h

theorem scalarsWith_eq (hc : form.Represents s c) : ∀ {es : List QExpr},
    FaithfulScalars D tables form n s es →
      scalarsWith D c es = .ok (sqlScalars D tables n s es)
  | [], _ => rfl
  | e :: es, h => by
    unfold FaithfulScalars at h
    unfold scalarsWith sqlScalars
    rw [scalarWith_eq hc h.1, scalarsWith_eq hc h.2]
    rfl

end

end

end Ridge
