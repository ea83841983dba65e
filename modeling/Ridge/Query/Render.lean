import Ridge.Data.Sql

/-!
# std.query — captured trees in a statement

`renderPred` with `renderOperand`, `renderExistsPred` with `renderExistsOperand` and `renderQual`
with `qualOperand` (`stdlib/query.ridge`) write the same tree and differ in how a column names its
source and in whether they have a clause for an `EXISTS`: a `Naming` is that difference. A renderer
takes the number of its first placeholder and returns `{ text, binds, next }`, a `Fragment`.
-/

namespace Ridge

structure Fragment where
  text : String
  binds : List SqlValue
  next : Nat

/-- A renderer of one tree, given the number of its first placeholder. -/
abbrev Renderer := Nat → Fragment

/-- `Text.replace` of one character. -/
def textReplace (c : Char) (new : String) (s : String) : String :=
  String.ofList (s.toList.flatMap fun d => if d = c then new.toList else [d])

def placeholder (n : Nat) : String := "$" ++ toString n

/-- A delimited identifier: quoted, with each quote in it doubled. -/
def quoteIdent (name : String) : String := "\"" ++ textReplace '"' "\"\"" name ++ "\""

def boolLit (b : Bool) : String := if b then "TRUE" else "FALSE"

/-! ## Column references -/

def renderColRef (qualified isRight : Bool) (c : String) : String :=
  if qualified then if isRight then "r." ++ quoteIdent c else "l." ++ quoteIdent c
  else quoteIdent c

def xAlias (i : Int) : String := "x" ++ toString i

def tAlias (i : Int) : String := "t" ++ toString i

def naryColRef (leaf : Int) (c : String) : String := tAlias leaf ++ "." ++ quoteIdent c

/-- The alias a leaf reads inside a clause that carries an `EXISTS`. -/
def qualLeafRef (refMode nBase leaf : Int) (c : String) : String :=
  if leaf ≥ nBase then xAlias leaf ++ "." ++ quoteIdent c
  else if refMode = 0 then
    if leaf = 0 then "l." ++ quoteIdent c else "r." ++ quoteIdent c
  else if refMode = 2 then quoteIdent (tAlias leaf ++ "$" ++ c)
  else naryColRef leaf c

/-- How a renderer names columns, and what it opens an `EXISTS` with: the alias of the probed table
and the naming inside. `none` where the renderer has no clause for the node. -/
structure Naming (σ : Type) where
  col : σ → String → String
  colR : σ → String → String
  colAt : σ → Int → String → Option String
  probe : σ → Option (String × σ)

/-! ## Pieces of a tree -/

def columnText (text : String) : Renderer := fun n => ⟨text, [], n⟩

/-- What the fallback branches write. -/
def nullText : Renderer := fun n => ⟨"NULL", [], n⟩

/-- A literal binds as a placeholder; any other node that is left falls back. -/
def literalText (e : QExpr) : Renderer := fun n =>
  match litValue e with
  | some v => ⟨placeholder n, [v], n + 1⟩
  | none => nullText n

/-- `cmpPred` and its duals. -/
def cmpText (l : Renderer) (op : String) (r : Renderer) : Renderer := fun n =>
  let lr := l n
  let rr := r lr.next
  ⟨lr.text ++ op ++ rr.text, lr.binds ++ rr.binds, rr.next⟩

/-- `binPred`, `arithOperand` and their duals. -/
def binText (l : Renderer) (op : String) (r : Renderer) : Renderer := fun n =>
  let lr := l n
  let rr := r lr.next
  ⟨"(" ++ lr.text ++ op ++ rr.text ++ ")", lr.binds ++ rr.binds, rr.next⟩

/-- One tree between two texts. -/
def aroundText (before : String) (x : Renderer) (behind : String) : Renderer := fun n =>
  let r := x n
  ⟨before ++ r.text ++ behind, r.binds, r.next⟩

def inText (v items : Renderer) : Renderer := fun n =>
  let lv := v n
  let inner := items lv.next
  ⟨lv.text ++ " IN (" ++ inner.text ++ ")", lv.binds ++ inner.binds, inner.next⟩

def caseText (c t e : Renderer) : Renderer := fun n =>
  let cc := c n
  let ct := t cc.next
  let ce := e ct.next
  ⟨"CASE WHEN " ++ cc.text ++ " THEN " ++ ct.text ++ " ELSE " ++ ce.text ++ " END",
    cc.binds ++ ct.binds ++ ce.binds, ce.next⟩

section

variable {σ : Type} (N : Naming σ)

mutual

/-- A captured predicate. -/
def renderPredWith (s : σ) : QExpr → Renderer
  | .qAnd l r => binText (renderPredWith s l) " AND " (renderPredWith s r)
  | .qOr l r => binText (renderPredWith s l) " OR " (renderPredWith s r)
  | .qNot x => aroundText "(NOT " (renderPredWith s x) ")"
  | .qNotTrue x => aroundText "(" (renderPredWith s x) " IS NOT TRUE)"
  | .qEq l r => cmpText (renderOperandWith s l) " = " (renderOperandWith s r)
  | .qNe l r => cmpText (renderOperandWith s l) " <> " (renderOperandWith s r)
  | .qLt l r => cmpText (renderOperandWith s l) " < " (renderOperandWith s r)
  | .qGt l r => cmpText (renderOperandWith s l) " > " (renderOperandWith s r)
  | .qLe l r => cmpText (renderOperandWith s l) " <= " (renderOperandWith s r)
  | .qGe l r => cmpText (renderOperandWith s l) " >= " (renderOperandWith s r)
  | .qLike v p => cmpText (renderOperandWith s v) " LIKE " (renderOperandWith s p)
  | .qIn _ [] => columnText "FALSE"
  | .qIn v (x :: rest) => inText (renderOperandWith s v) (renderInListWith s (x :: rest))
  | .qLitBool b => columnText (boolLit b)
  | .qCase c t e => caseText (renderPredWith s c) (renderPredWith s t) (renderPredWith s e)
  | .qExists table corr =>
    match N.probe s with
    | some (alias', inner) =>
      aroundText ("EXISTS (SELECT 1 FROM " ++ quoteIdent table ++ " AS " ++ alias' ++ " WHERE ")
        (renderPredWith inner corr) ")"
    | none => nullText
  -- Every other node is written as an operand is; the columns of `renderPred` stand here too.
  | .qCol c => columnText (N.col s c)
  | .qColR c => columnText (N.colR s c)
  | .qColAt leaf c => ((N.colAt s leaf c).map columnText).getD nullText
  | .qAdd l r => binText (renderOperandWith s l) " + " (renderOperandWith s r)
  | .qSub l r => binText (renderOperandWith s l) " - " (renderOperandWith s r)
  | .qMul l r => binText (renderOperandWith s l) " * " (renderOperandWith s r)
  | .qDiv l r => binText (renderOperandWith s l) " / " (renderOperandWith s r)
  | .qMod l r => binText (renderOperandWith s l) " % " (renderOperandWith s r)
  | e => literalText e

def renderOperandWith (s : σ) : QExpr → Renderer
  | .qCol c => columnText (N.col s c)
  | .qColR c => columnText (N.colR s c)
  | .qColAt leaf c => ((N.colAt s leaf c).map columnText).getD nullText
  | .qAdd l r => binText (renderOperandWith s l) " + " (renderOperandWith s r)
  | .qSub l r => binText (renderOperandWith s l) " - " (renderOperandWith s r)
  | .qMul l r => binText (renderOperandWith s l) " * " (renderOperandWith s r)
  | .qDiv l r => binText (renderOperandWith s l) " / " (renderOperandWith s r)
  | .qMod l r => binText (renderOperandWith s l) " % " (renderOperandWith s r)
  | .qCase c t e => caseText (renderPredWith s c) (renderOperandWith s t) (renderOperandWith s e)
  | e => literalText e

/-- The items of an `IN`. -/
def renderInListWith (s : σ) : List QExpr → Renderer
  | [] => columnText ""
  | [x] => renderOperandWith s x
  | x :: y :: rest => cmpText (renderOperandWith s x) ", " (renderInListWith s (y :: rest))

end

end

/-! ## The three renderers -/

/-- Columns bare, or named by the side of a join they come from. -/
def sideNaming : Naming Bool where
  col qualified c := renderColRef qualified false c
  colR qualified c := renderColRef qualified true c
  colAt _ _ _ := none
  probe _ := some ("r", true)

/-- Columns named by the leaf they come from; the state is the number of open `EXISTS`. -/
def existsNaming (refMode nBase : Int) : Naming Nat where
  col _ c := qualLeafRef refMode nBase 0 c
  colR _ c := qualLeafRef refMode nBase 1 c
  colAt _ leaf c := some (qualLeafRef refMode nBase leaf c)
  probe depth := some (xAlias (nBase + depth), depth + 1)

/-- Columns named by the alias of their leaf, a left one by that of `q0`. -/
def leafNaming (q0 : Int) : Naming Unit where
  col _ c := naryColRef q0 c
  colR _ c := naryColRef 1 c
  colAt _ leaf c := some (naryColRef leaf c)
  probe _ := none

def renderPred (qualified : Bool) (e : QExpr) : Renderer := renderPredWith sideNaming qualified e

def renderOperand (qualified : Bool) (e : QExpr) : Renderer :=
  renderOperandWith sideNaming qualified e

def renderExistsPred (refMode nBase : Int) (depth : Nat) (e : QExpr) : Renderer :=
  renderPredWith (existsNaming refMode nBase) depth e

def renderQual (q0 : Int) (e : QExpr) : Renderer := renderPredWith (leafNaming q0) () e

end Ridge
