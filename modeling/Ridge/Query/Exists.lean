import Ridge.Mem.Reading
import Ridge.Query.Render

/-!
# std.query — trees without an EXISTS

`renderExistsPred` writes such a tree as `renderPred` and `renderQual` do where the three name its
columns alike. The interpreters of the in-memory store read it alike when each column is addressed
for the shape of their row.
-/

namespace Ridge

open Option

/-- How a node of a tree addresses its column. -/
inductive Address where
  | left | right | leaf (i : Int)

def Address.node : Address → String → QExpr
  | .left => .qCol
  | .right => .qColR
  | .leaf i => .qColAt i

mutual

/-- The tree has no `EXISTS`, and addresses its columns as `ok` allows. -/
def Plain (ok : Address → Prop) : QExpr → Prop
  | .qCol _ => ok .left
  | .qColR _ => ok .right
  | .qColAt i _ => ok (.leaf i)
  | .qExists _ _ => False
  | .qNot x | .qNotTrue x => Plain ok x
  | .qAnd l r | .qOr l r | .qEq l r | .qNe l r | .qLt l r | .qGt l r | .qLe l r | .qGe l r
  | .qLike l r | .qAdd l r | .qSub l r | .qMul l r | .qDiv l r | .qMod l r =>
    Plain ok l ∧ Plain ok r
  | .qIn v items => Plain ok v ∧ PlainAll ok items
  | .qCase c t e => Plain ok c ∧ Plain ok t ∧ Plain ok e
  | _ => True

def PlainAll (ok : Address → Prop) : List QExpr → Prop
  | [] => True
  | e :: es => Plain ok e ∧ PlainAll ok es

end

/-! ## In a statement -/

def Naming.ref {σ : Type} (N : Naming σ) (s : σ) : Address → String → Option String
  | .left, c => some (N.col s c)
  | .right, c => some (N.colR s c)
  | .leaf i, c => N.colAt s i c

section

variable {σ τ : Type} {N : Naming σ} {M : Naming τ} {s : σ} {s' : τ} {ok : Address → Prop}
  (h : ∀ a, ok a → ∀ c, N.ref s a c = M.ref s' a c)
include h

-- No state changes in a tree without an `EXISTS`, so the induction keeps `s` and `s'`.
mutual

/-- Two renderers that name the columns of a tree alike write it alike. -/
theorem renderPredWith_congr {e : QExpr} (he : Plain ok e) :
    renderPredWith N s e = renderPredWith M s' e := by
  cases e with
  | qCol c => exact congrArg columnText (some.inj (h .left he c))
  | qColR c => exact congrArg columnText (some.inj (h .right he c))
  | qColAt i c =>
    simp only [renderPredWith]
    rw [show N.colAt s i c = M.colAt s' i c from h (.leaf i) he c]
  | qExists => exact he.elim
  | qNot x | qNotTrue x =>
    simp only [renderPredWith]
    rw [renderPredWith_congr (e := x) he]
  | qAnd | qOr =>
    simp only [renderPredWith]
    rw [renderPredWith_congr he.1, renderPredWith_congr he.2]
  | qEq | qNe | qLt | qGt | qLe | qGe | qLike | qAdd | qSub | qMul | qDiv | qMod =>
    simp only [renderPredWith]
    rw [renderOperandWith_congr he.1, renderOperandWith_congr he.2]
  | qIn v items =>
    cases items with
    | nil => rfl
    | cons x rest =>
      simp only [renderPredWith]
      rw [renderOperandWith_congr he.1, renderInListWith_congr he.2]
  | qCase =>
    simp only [renderPredWith]
    rw [renderPredWith_congr he.1, renderPredWith_congr he.2.1, renderPredWith_congr he.2.2]
  | _ => rfl

theorem renderOperandWith_congr {e : QExpr} (he : Plain ok e) :
    renderOperandWith N s e = renderOperandWith M s' e := by
  cases e with
  | qCol c => exact congrArg columnText (some.inj (h .left he c))
  | qColR c => exact congrArg columnText (some.inj (h .right he c))
  | qColAt i c =>
    simp only [renderOperandWith]
    rw [show N.colAt s i c = M.colAt s' i c from h (.leaf i) he c]
  | qAdd | qSub | qMul | qDiv | qMod =>
    simp only [renderOperandWith]
    rw [renderOperandWith_congr he.1, renderOperandWith_congr he.2]
  | qCase =>
    simp only [renderOperandWith]
    rw [renderPredWith_congr he.1, renderOperandWith_congr he.2.1, renderOperandWith_congr he.2.2]
  | _ => rfl

theorem renderInListWith_congr {es : List QExpr} (hes : PlainAll ok es) :
    renderInListWith N s es = renderInListWith M s' es := by
  match es, hes with
  | [], _ => rfl
  | [x], hx => exact renderOperandWith_congr hx.1
  | x :: y :: rest, hes =>
    simp only [renderInListWith]
    rw [renderOperandWith_congr hes.1, renderInListWith_congr hes.2]

end

end

/-- What mode 0 and `renderPred` name alike: a side of the scan or join that is there. -/
def SideAddress (nBase : Int) : Address → Prop
  | .left => 0 < nBase
  | .right => 1 < nBase
  | .leaf _ => False

/-- What mode 1 and `renderQual` name alike: a leaf of the base. -/
def BaseAddress (nBase : Int) : Address → Prop
  | .left => 0 < nBase
  | .right => 1 < nBase
  | .leaf i => i < nBase

variable {nBase : Int} {depth : Nat}

theorem existsNaming_side :
    ∀ a, SideAddress nBase a → ∀ c, (existsNaming 0 nBase).ref depth a c =
      sideNaming.ref true a c
  | .left, h, c => by
    show some (qualLeafRef 0 nBase 0 c) = some ("l." ++ quoteIdent c)
    rw [qualLeafRef, if_neg (Int.not_le.mpr h), if_pos rfl, if_pos rfl]
  | .right, h, c => by
    show some (qualLeafRef 0 nBase 1 c) = some ("r." ++ quoteIdent c)
    rw [qualLeafRef, if_neg (Int.not_le.mpr h), if_pos rfl, if_neg (by decide)]

theorem qualLeafRef_base {nBase leaf : Int} (h : leaf < nBase) (c : String) :
    qualLeafRef 1 nBase leaf c = naryColRef leaf c := by
  rw [qualLeafRef, if_neg (Int.not_le.mpr h), if_neg (by decide), if_neg (by decide)]

theorem existsNaming_base :
    ∀ a, BaseAddress nBase a → ∀ c, (existsNaming 1 nBase).ref depth a c = (leafNaming 0).ref () a c
  | .left, h, c | .right, h, c | .leaf _, h, c => congrArg some (qualLeafRef_base h c)

/-! ## In memory -/

mutual

/-- The tree with its columns addressed by `addr`, given their leaf. -/
def readdress (addr : Int → Address) : QExpr → QExpr
  | .qCol c => (addr 0).node c
  | .qColR c => (addr 1).node c
  | .qColAt i c => (addr i).node c
  | .qNot x => .qNot (readdress addr x)
  | .qNotTrue x => .qNotTrue (readdress addr x)
  | .qAnd l r => .qAnd (readdress addr l) (readdress addr r)
  | .qOr l r => .qOr (readdress addr l) (readdress addr r)
  | .qEq l r => .qEq (readdress addr l) (readdress addr r)
  | .qNe l r => .qNe (readdress addr l) (readdress addr r)
  | .qLt l r => .qLt (readdress addr l) (readdress addr r)
  | .qGt l r => .qGt (readdress addr l) (readdress addr r)
  | .qLe l r => .qLe (readdress addr l) (readdress addr r)
  | .qGe l r => .qGe (readdress addr l) (readdress addr r)
  | .qLike v p => .qLike (readdress addr v) (readdress addr p)
  | .qIn v items => .qIn (readdress addr v) (readdressAll addr items)
  | .qAdd l r => .qAdd (readdress addr l) (readdress addr r)
  | .qSub l r => .qSub (readdress addr l) (readdress addr r)
  | .qMul l r => .qMul (readdress addr l) (readdress addr r)
  | .qDiv l r => .qDiv (readdress addr l) (readdress addr r)
  | .qMod l r => .qMod (readdress addr l) (readdress addr r)
  | .qCase c t e => .qCase (readdress addr c) (readdress addr t) (readdress addr e)
  | .qExists table corr => .qExists table (readdress addr corr)
  | e => e

def readdressAll (addr : Int → Address) : List QExpr → List QExpr
  | [] => []
  | e :: es => readdress addr e :: readdressAll addr es

end

/-- A single row has no leaf but 0, a pair none but its sides; a flat row has every leaf. -/
def rowAddress (leaf : Int) : Address := if leaf = 0 then .left else .leaf leaf

def pairAddress (leaf : Int) : Address :=
  if leaf = 0 then .left else if leaf = 1 then .right else .leaf leaf

def Cells.ref (C : Cells) : Address → String → Option SqlValue
  | .left => C.col
  | .right => C.colR
  | .leaf i => C.colAt i

def scopeCells (s : Scope) : Cells where
  col := rowFind (s 0)
  colR := rowFind (s 1)
  colAt leaf := rowFind (s leaf)
  exists' := .ok false

variable {D : Doubles}

theorem scalarWith_node {C : Cells} (a : Address) (c : String) :
    scalarWith D C (a.node c) = .ok (C.ref a c) := by
  cases a <;> rfl

theorem predWith_node {C : Cells} (a : Address) (c : String) :
    predWith D C (a.node c) = .ok (memTruthy ((C.ref a c).getD .sqlNull)) := by
  cases a <;> rfl

theorem memHasExists_readdress {addr : Int → Address} {ok : Address → Prop} {e : QExpr}
    (he : Plain ok e) : memHasExists (readdress addr e) = false := by
  have hnode : ∀ (a : Address) c, memHasExists (a.node c) = false := fun a c => by cases a <;> rfl
  cases e with
  | qCol | qColR | qColAt => exact hnode _ _
  | qExists => exact he.elim
  | qNot x | qNotTrue x => exact memHasExists_readdress (e := x) he
  | qAnd l r | qOr l r =>
    simp only [readdress, memHasExists]
    rw [memHasExists_readdress he.1, memHasExists_readdress he.2]
    rfl
  | qCase c t e =>
    simp only [readdress, memHasExists]
    rw [memHasExists_readdress he.1, memHasExists_readdress he.2.1, memHasExists_readdress he.2.2]
    rfl
  | _ => rfl

section

variable {D : Doubles} {C : Cells} {addr : Int → Address} {s : Scope} {ok : Address → Prop}
  (h : ∀ leaf c, C.ref (addr leaf) c = rowFind (s leaf) c)
include h

mutual

theorem scalarWith_readdress {e : QExpr} (he : Plain ok e) :
    scalarWith D C (readdress addr e) = scalarWith D (scopeCells s) e := by
  cases e with
  | qCol | qColR | qColAt => exact (scalarWith_node _ _).trans (congrArg Except.ok (h _ _))
  | qAdd | qSub | qMul | qDiv | qMod =>
    simp only [readdress, scalarWith]
    rw [scalarWith_readdress he.1, scalarWith_readdress he.2]
  | qCase =>
    simp only [readdress, scalarWith]
    rw [predWith_readdress he.1, scalarWith_readdress he.2.1, scalarWith_readdress he.2.2]
  | _ => rfl

/-- A tree re-addressed for a row says of it what the tree says of the scope. -/
theorem predWith_readdress {e : QExpr} (he : Plain ok e) :
    predWith D C (readdress addr e) = predWith D (scopeCells s) e := by
  cases e with
  | qCol | qColR | qColAt =>
    refine (predWith_node _ _).trans ?_
    rw [h]
    rfl
  | qExists => exact he.elim
  | qNot x | qNotTrue x =>
    simp only [readdress, predWith]
    rw [predWith_readdress (e := x) he]
  | qAnd | qOr =>
    simp only [readdress, predWith]
    rw [predWith_readdress he.1, predWith_readdress he.2]
  | qEq | qNe | qLt | qGt | qLe | qGe | qLike =>
    simp only [readdress, predWith]
    rw [scalarWith_readdress he.1, scalarWith_readdress he.2]
  | qIn =>
    simp only [readdress, predWith]
    rw [scalarWith_readdress he.1, scalarsWith_readdress he.2]
  | qCase =>
    simp only [readdress, predWith]
    rw [predWith_readdress he.1, predWith_readdress he.2.1, predWith_readdress he.2.2]
  | _ => rfl

theorem scalarsWith_readdress {es : List QExpr} (hes : PlainAll ok es) :
    scalarsWith D C (readdressAll addr es) = scalarsWith D (scopeCells s) es := by
  match es, hes with
  | [], _ => rfl
  | e :: es, hes =>
    simp only [readdressAll, scalarsWith]
    rw [scalarWith_readdress hes.1, scalarsWith_readdress hes.2]

end

end

section

variable {D : Doubles} {s : Scope} {ok : Address → Prop} {e : QExpr}

variable {row : SqlRow}

theorem memPred_readdress (h0 : s 0 = row) (h : ∀ leaf, leaf ≠ 0 → s leaf = []) (he : Plain ok e) :
    memPred D row (readdress rowAddress e) = predWith D (scopeCells s) e := by
  refine predWith_readdress (fun leaf c => ?_) he
  unfold rowAddress
  split
  · next hleaf =>
    rw [hleaf, h0]
    rfl
  · next hleaf =>
    rw [h leaf hleaf]
    rfl

theorem memJpred_readdress {l r : SqlRow} (h0 : s 0 = l) (h1 : s 1 = r)
    (h : ∀ leaf, leaf ≠ 0 → leaf ≠ 1 → s leaf = []) (he : Plain ok e) :
    memJpred D l r (readdress pairAddress e) = predWith D (scopeCells s) e := by
  refine predWith_readdress (fun leaf c => ?_) he
  unfold pairAddress
  split
  · next hleaf =>
    rw [hleaf, h0]
    rfl
  · next hleft =>
    split
    · next hright =>
      rw [hright, h1]
      rfl
    · next hright =>
      rw [h leaf hleft hright]
      rfl

theorem memNpred_readdress {n : Nat} (h : FlatRow s n row) (he : Plain ok e) :
    memNpred D row (readdress .leaf e) = predWith D (scopeCells s) e := by
  have hcell : ∀ leaf c, (flatCells row).ref (.leaf leaf) c = rowFind (s leaf) c := h.cell
  exact predWith_readdress hcell he

end

theorem FlatRow.pair (l r : SqlRow) :
    FlatRow (Function.update (Function.update (fun _ => []) 0 l) 1 r) 2
      (mergeRow (memPrefixKeys (memLeafPrefix 0) l) (memPrefixKeys (memLeafPrefix 1) r)) :=
  (FlatRow.single l).extend r

/-- A tree without an `EXISTS` is written by `renderExistsPred` as by `renderPred` if it addresses
its columns by the sides of the base, and as by `renderQual` if by leaves of the base; and
re-addressed for the row of an interpreter it has the verdict that it has re-addressed for the flat
row, with the store at hand or without. -/
theorem exists_free_agree (nBase : Int) (depth : Nat) (e : QExpr) :
    (Plain (SideAddress nBase) e →
      renderExistsPred 0 nBase depth e = renderPred true e) ∧
    (Plain (BaseAddress nBase) e →
      renderExistsPred 1 nBase depth e = renderQual 0 e) ∧
    (Plain (fun _ => True) e → ∀ (D : Doubles) (tables : Tables) (n : Nat) (l r : SqlRow),
      let single := memPrefixKeys (memLeafPrefix 0) l
      let flat := mergeRow single (memPrefixKeys (memLeafPrefix 1) r)
      (memPred D l (readdress rowAddress e) = memNpred D single (readdress .leaf e) ∧
        memPredStore D tables l (readdress rowAddress e) =
          memNpred D single (readdress .leaf e)) ∧
      memJpred D l r (readdress pairAddress e) = memNpred D flat (readdress .leaf e) ∧
      ∀ row, memCorr D tables n (readdress .leaf e) row = memNpred D row (readdress .leaf e)) := by
  refine ⟨renderPredWith_congr existsNaming_side, renderPredWith_congr existsNaming_base, ?_⟩
  intro he D tables n l r single flat
  have hrow : memPred D l (readdress rowAddress e) = memNpred D single (readdress .leaf e) := by
    rw [memNpred_readdress (FlatRow.single l) he]
    exact memPred_readdress (Function.update_self ..) (fun _ h => Function.update_of_ne h ..) he
  refine ⟨⟨hrow, ?_⟩, ?_, fun row => memCorr_eq_memNpred (memHasExists_readdress he)⟩
  · rw [memPredStore_eq_memPred (memHasExists_readdress he)]
    exact hrow
  · rw [memNpred_readdress (FlatRow.pair l r) he]
    refine memJpred_readdress ?_ (Function.update_self ..) (fun leaf h0 h1 => ?_) he
    · rw [Function.update_of_ne (by decide), Function.update_self]
    · rw [Function.update_of_ne h1, Function.update_of_ne h0]

/-- A condition on both sides of a join. -/
theorem exists_free_agree_join :
    renderExistsPred 0 2 0 (.qAnd (.qEq (.qCol "id") (.qColR "owner")) (.qGt (.qColR "age")
        (.qLitInt 18))) =
      renderPred true (.qAnd (.qEq (.qCol "id") (.qColR "owner")) (.qGt (.qColR "age")
        (.qLitInt 18))) :=
  (exists_free_agree 2 0 _).1
    ⟨⟨show (0 : Int) < 2 by decide, show (1 : Int) < 2 by decide⟩, show (1 : Int) < 2 by decide,
      trivial⟩

/-- `renderPred` has no clause for a column of a leaf, `renderQual` no alias of a probed table. -/
theorem exists_free_differ :
    renderExistsPred 0 2 0 (.qColAt 0 "age") 1 ≠ renderPred true (.qColAt 0 "age") 1 ∧
      renderExistsPred 1 2 0 (.qColAt 2 "age") 1 ≠ renderQual 0 (.qColAt 2 "age") 1 := by
  constructor <;> intro h <;> exact absurd (congrArg Fragment.text h) (by decide)

end Ridge
