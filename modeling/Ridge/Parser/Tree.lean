import Ridge.Parser.Pratt

/-!
# Operator trees

Trees of the operator grammar (`docs/grammar.ebnf` §6), their text with the parentheses that the
levels require, and when an expression of the parser is such a tree.
-/

namespace Ridge

/-! ## Levels -/

/-- `Expr1` to `Expr12`, with `with` between the comparisons and the rest. `atom` is level 12. -/
inductive Level where
  | pipe | or | and | equality | relational | update | concat | additive | multiplicative | power
  | unary | application | atom
  deriving DecidableEq

namespace Level

/-- From loose to tight. -/
def num : Level → Nat
  | pipe => 0
  | or => 1
  | and => 2
  | equality => 3
  | relational => 4
  | update => 5
  | concat => 6
  | additive => 7
  | multiplicative => 8
  | power => 9
  | unary => 10
  | application => 11
  | atom => 12

instance : LE Level := ⟨fun a b => a.num ≤ b.num⟩

instance (a b : Level) : Decidable (a ≤ b) := inferInstanceAs (Decidable (a.num ≤ b.num))

theorem le_trans {a b c : Level} (hab : a ≤ b) (hbc : b ≤ c) : a ≤ c := Nat.le_trans hab hbc

end Level

namespace BinOp

def level : BinOp → Level
  | pipe => .pipe
  | or => .or
  | and => .and
  | eq | ne => .equality
  | lt | gt | le | ge => .relational
  | concat | cons => .concat
  | add | sub => .additive
  | mul | div | mod => .multiplicative
  | pow => .power

/-- The level a left operand needs to stand without parentheses. A comparison takes no comparison. -/
def leftLevel : BinOp → Level
  | pipe => .pipe
  | or => .and
  | and => .equality
  | eq | ne | lt | gt | le | ge => .update
  | concat | cons => .additive
  | add | sub => .additive
  | mul | div | mod => .multiplicative
  | pow => .unary

/-- The level a right operand needs to stand without parentheses. -/
def rightLevel : BinOp → Level
  | pipe => .or
  | or => .or
  | and => .and
  | eq | ne | lt | gt | le | ge => .update
  | concat | cons => .concat
  | add | sub => .multiplicative
  | mul | div | mod => .power
  | pow => .power

def token : BinOp → Token
  | pipe => .pipeFwd
  | or => .pipePipe
  | and => .ampAmp
  | eq => .eqEq
  | ne => .bangEq
  | lt => .lt
  | gt => .gt
  | le => .le
  | ge => .ge
  | concat => .plusPlus
  | cons => .colonColon
  | add => .plus
  | sub => .minus
  | mul => .star
  | div => .slash
  | mod => .percent
  | pow => .caret

end BinOp

/-! ## What may follow -/

namespace Token

/-- The binding power with which a token goes on with what stands before it; 0 if it does not. -/
def power : Token → Nat
  | kwIs => 7
  | kwWith => 10
  | tok => ((infixBp tok).map Prod.fst).getD 0

def endsExpr : Token → Bool
  | rParen | rBrack | rBrace | comma | newline | dedent | eof | kwThen | kwElse | arrow => true
  | _ => false

/-- An operator, or the end of an expression. -/
def follows (tok : Token) : Bool := tok.endsExpr || decide (0 < tok.power)

def isLiteral (tok : Token) : Bool :=
  tok.startsPatternLiteral || match tok with
    | rawTextLit _ => true
    | _ => false

end Token

/-! ## Trees -/

/-- A pattern that may stand after `is`, by what the parser makes of its tokens: before an operator
other than `::`, or an end, it reads them to their end, as a pattern without names. -/
structure PredicateText where
  toks : List Token
  nesting : Nat
  pattern : List Span → Pattern
  reads : ∀ (ts rest : List (Token × Span)) (depth bracketDepth : Nat), ts.map Prod.fst = toks →
    (Cursor.new rest).peek.follows = true → (Cursor.new rest).peek ≠ .colonColon →
    depth + nesting ≤ maxParseDepth →
    Converges (fun fuel => parsePattern fuel ⟨ts ++ rest, false, bracketDepth, depth⟩)
      (.ok (pattern (ts.map Prod.snd), ⟨rest, false, bracketDepth, depth⟩))
  noBinding : ∀ spans, predicateBinding (pattern spans) = none
  noSlice : ∀ spans, unsupportedPredicateSlice (pattern spans) true = none

/-- Operators over names and literals. A field of an update without a value is a name. -/
inductive Tree where
  | name (text : String)
  | literal (tok : Token) (h : tok.isLiteral = true)
  | binary (op : BinOp) (lhs rhs : Tree)
  | neg (operand : Tree)
  | is (subject : Tree) (pattern : PredicateText)
  | with (base : Tree) (fields : List (String × Option Tree))
  | call (callee arg : Tree) (args : List Tree)
  | field (base : Tree) (name : String)
  | paren (inner : Tree)

namespace Tree

def level : Tree → Level
  | name _ => .atom
  | literal _ _ => .atom
  | binary op _ _ => op.level
  | neg _ => .unary
  | is _ _ => .equality
  | .with _ _ => .update
  | call _ _ _ => .application
  | field _ _ => .atom
  | paren _ => .atom

mutual

def write : Tree → List Token
  | name text => [.lowerIdent text]
  | literal tok _ => [tok]
  | binary op lhs rhs => lhs.write ++ op.token :: rhs.write
  | neg operand => .minus :: operand.write
  | is subject pattern => subject.write ++ .kwIs :: pattern.toks
  | .with base fields => base.write ++ .kwWith :: .lBrace :: (writeFields fields ++ [.rBrace])
  | call callee arg args => callee.write ++ (arg.write ++ writeArgs args)
  | field base text => base.write ++ [.dot, .lowerIdent text]
  | paren inner => .lParen :: (inner.write ++ [.rParen])

def writeArgs : List Tree → List Token
  | [] => []
  | arg :: args => arg.write ++ writeArgs args

def writeFields : List (String × Option Tree) → List Token
  | [] => []
  | (text, value) :: fields =>
    .lowerIdent text :: (writeValue value ++
      if fields.isEmpty then [] else .comma :: writeFields fields)

def writeValue : Option Tree → List Token
  | none => []
  | some value => .assign :: value.write

end

/-- Parentheses, if the level is too loose. -/
def atLeast (l : Level) (t : Tree) : Tree := if l ≤ t.level then t else paren t

mutual

/-- The tree with the parentheses that the levels require, and no others. -/
def close : Tree → Tree
  | name text => name text
  | literal tok h => literal tok h
  | binary op lhs rhs => binary op (lhs.close.atLeast op.leftLevel) (rhs.close.atLeast op.rightLevel)
  | neg operand => neg (operand.close.atLeast .unary)
  | is subject pattern => is (subject.close.atLeast .update) pattern
  | .with base fields => .with (base.close.atLeast .update) (closeFields fields)
  | call callee arg args =>
    call (callee.close.atLeast .atom) (arg.close.atLeast .atom) (closeArgs args)
  | field base text => field (base.close.atLeast .atom) text
  | paren inner => paren inner.close

def closeArgs : List Tree → List Tree
  | [] => []
  | arg :: args => arg.close.atLeast .atom :: closeArgs args

def closeFields : List (String × Option Tree) → List (String × Option Tree)
  | [] => []
  | (text, value) :: fields => (text, closeValue value) :: closeFields fields

def closeValue : Option Tree → Option Tree
  | none => none
  | some value => some value.close

end

mutual

/-- The tree under its parentheses. -/
def bare : Tree → Tree
  | name text => name text
  | literal tok h => literal tok h
  | binary op lhs rhs => binary op lhs.bare rhs.bare
  | neg operand => neg operand.bare
  | is subject pattern => is subject.bare pattern
  | .with base fields => .with base.bare (bareFields fields)
  | call callee arg args => call callee.bare arg.bare (bareArgs args)
  | field base text => field base.bare text
  | paren inner => inner.bare

def bareArgs : List Tree → List Tree
  | [] => []
  | arg :: args => arg.bare :: bareArgs args

def bareFields : List (String × Option Tree) → List (String × Option Tree)
  | [] => []
  | (text, value) :: fields => (text, bareValue value) :: bareFields fields

def bareValue : Option Tree → Option Tree
  | none => none
  | some value => some value.bare

end

mutual

/-- How many calls of `parse_expr_bp` or `parse_pattern` stand inside each other, below the one that
reads the tree itself. -/
def nesting : Tree → Nat
  | name _ => 0
  | literal _ _ => 0
  | binary _ lhs rhs => max lhs.nesting (rhs.nesting + 1)
  | neg operand => operand.nesting + 1
  | is subject pattern => max subject.nesting pattern.nesting
  | .with base fields => max base.nesting (nestingFields fields)
  | call callee arg args => max callee.nesting (max arg.nesting (nestingArgs args))
  | field base _ => base.nesting
  | paren inner => inner.nesting + 1

def nestingArgs : List Tree → Nat
  | [] => 0
  | arg :: args => max arg.nesting (nestingArgs args)

def nestingFields : List (String × Option Tree) → Nat
  | [] => 0
  | (_, value) :: fields => max (nestingValue value) (nestingFields fields)

def nestingValue : Option Tree → Nat
  | none => 0
  | some value => value.nesting + 1

end

mutual

/-- No `<`, `>`, `<=` or `>=` has an update on its right. -/
def UpdatesLeft : Tree → Prop
  | name _ => True
  | literal _ _ => True
  | binary op lhs rhs =>
    ¬ (op.level = .relational ∧ rhs.level = .update) ∧ lhs.UpdatesLeft ∧ rhs.UpdatesLeft
  | neg operand => operand.UpdatesLeft
  | is subject _ => subject.UpdatesLeft
  | .with base fields => base.UpdatesLeft ∧ UpdatesLeftFields fields
  | call callee arg args => callee.UpdatesLeft ∧ arg.UpdatesLeft ∧ UpdatesLeftArgs args
  | field base _ => base.UpdatesLeft
  | paren inner => inner.UpdatesLeft

def UpdatesLeftArgs : List Tree → Prop
  | [] => True
  | arg :: args => arg.UpdatesLeft ∧ UpdatesLeftArgs args

def UpdatesLeftFields : List (String × Option Tree) → Prop
  | [] => True
  | (_, value) :: fields => UpdatesLeftValue value ∧ UpdatesLeftFields fields

def UpdatesLeftValue : Option Tree → Prop
  | none => True
  | some value => value.UpdatesLeft

end

attribute [grind =] write writeArgs writeFields writeValue nesting nestingArgs nestingFields
  nestingValue

end Tree

/-! ## Expressions of the parser -/

def Literal.token : Literal → Token
  | .intDec raw _ => .intDec raw
  | .intBin raw _ => .intBin raw
  | .intOct raw _ => .intOct raw
  | .intHex raw _ => .intHex raw
  | .float raw _ => .float raw
  | .decimal raw _ => .decimalLit raw
  | .bool value _ => if value then .kwTrue else .kwFalse
  | .text raw _ => .textLit raw
  | .rawText raw _ => .rawTextLit raw

mutual

/-- The expression is the tree, spans aside. -/
inductive Expr.IsTree : Expr → Tree → Prop
  | name {text span} : Expr.IsTree (.ident ⟨text, span⟩) (.name text)
  | literal {lit tok h} (htok : lit.token = tok) : Expr.IsTree (.literal lit) (.literal tok h)
  | pipe {lhs rhs l r span} (hl : Expr.IsTree lhs l) (hr : Expr.IsTree rhs r) :
      Expr.IsTree (.pipe lhs rhs span) (.binary .pipe l r)
  | binary {op lhs rhs l r span} (hop : op ≠ .pipe) (hl : Expr.IsTree lhs l) (hr : Expr.IsTree rhs r) :
      Expr.IsTree (.binary op lhs rhs span) (.binary op l r)
  | neg {e t span} (h : Expr.IsTree e t) : Expr.IsTree (.unary .neg e span) (.neg t)
  | is {e t span} {pattern : PredicateText} {spans} (h : Expr.IsTree e t) :
      Expr.IsTree (.is e (pattern.pattern spans) span) (.is t pattern)
  | with {e t span fields fs} (h : Expr.IsTree e t) (hfields : FieldsAreTrees fields fs) :
      Expr.IsTree (.with e fields span) (.with t fs)
  | call {e t span args u us} (h : Expr.IsTree e t) (hargs : ArgsAreTrees args (u :: us)) :
      Expr.IsTree (.call e args span) (.call t u us)
  | field {e t text fspan span} (h : Expr.IsTree e t) :
      Expr.IsTree (.fieldAccess e ⟨text, fspan⟩ span) (.field t text)
  | paren {e t span} (h : Expr.IsTree e t) : Expr.IsTree (.paren e span) (.paren t)

inductive ArgsAreTrees : List Expr → List Tree → Prop
  | nil : ArgsAreTrees [] []
  | cons {e t es ts} (h : Expr.IsTree e t) (hrest : ArgsAreTrees es ts) :
      ArgsAreTrees (e :: es) (t :: ts)

inductive FieldsAreTrees : List FieldInit → List (String × Option Tree) → Prop
  | nil : FieldsAreTrees [] []
  | short {text nspan span fields fs} (hrest : FieldsAreTrees fields fs) :
      FieldsAreTrees (⟨⟨text, nspan⟩, none, span⟩ :: fields) ((text, none) :: fs)
  | value {text nspan span e t fields fs} (h : Expr.IsTree e t)
      (hrest : FieldsAreTrees fields fs) :
      FieldsAreTrees (⟨⟨text, nspan⟩, some e, span⟩ :: fields) ((text, some t) :: fs)

end

end Ridge
