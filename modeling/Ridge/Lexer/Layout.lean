import Ridge.Syntax.Ast

/-!
# ridge-lexer — the layout pass

`process` (`ridge-lexer/src/layout.rs`): physical lines are grouped into logical ones, and a logical
line opens with the layout tokens its column asks for. The columns of the open blocks are kept
innermost first, above a sentinel `0` that is never popped.

What the pass adds is well nested and nothing else changes (`process_nested`).
-/

namespace Ridge

/-- `Span::point`. -/
def Span.point (offset : Nat) : Span := ⟨offset, offset⟩

namespace Lexer

/-! ## Errors of the lexer -/

inductive LexError where
  | indentAtTopLevel (span : Span)
  | inconsistentDedent (span : Span) (col : Nat) (expected : List Nat)
  | multilineStringOpenContent (span : Span)
  | multilineStringInsufficientIndent (span : Span)
  | unterminatedMultilineString (openSpan : Span) (kind : String)
  | unterminatedInterpolation (openSpan : Span)
  deriving DecidableEq

/-! ## Tokens the pass tells apart -/

/-- The four brackets that raise the depth. -/
def opensBracket : Token → Bool
  | .lParen | .lBrack | .lBrace | .interpExprStart => true
  | _ => false

def closesBracket : Token → Bool
  | .rParen | .rBrack | .rBrace | .interpExprEnd => true
  | _ => false

/-- A line that ends with one of these has a body on the next line. -/
def introducesBlock : Token → Bool
  | .assign | .arrow | .kwThen | .kwElse | .kwTry => true
  | _ => false

/-- `=` and `->` open blocks and are not among them. -/
def isContinuationOperator : Token → Bool
  | .pipeFwd | .kwIs | .pipePipe | .ampAmp | .eqEq | .bangEq | .lt | .gt | .le | .ge | .plusPlus
  | .colonColon | .plus | .minus | .star | .slash | .percent | .caret | .kwWith | .dot => true
  | _ => false

/-- A line that starts with `->` completes the one before. -/
def isLeadingContinuationOperator (tok : Token) : Bool :=
  isContinuationOperator tok || tok = .arrow

/-- `line_has_top_level_arrow`, from a bracket depth that may go below zero. -/
def hasTopLevelArrow (depth : Int) : List (Token × Span) → Bool
  | [] => false
  | (tok, _) :: rest =>
    if opensBracket tok then hasTopLevelArrow (depth + 1) rest
    else if closesBracket tok then hasTopLevelArrow (depth - 1) rest
    else if tok = .arrow ∧ depth = 0 then true
    else hasTopLevelArrow depth rest

variable (line : List (Token × Span))

def lineHasTopLevelArrow : Bool := hasTopLevelArrow 0 line

/-- A bracket that is an argument of the line before. -/
def isBracketArgContinuation (prevLast : Option Token) : Bool :=
  match line with
  | (.lParen, _) :: _ | (.lBrack, _) :: _ | (.lBrace, _) :: _ =>
    if prevLast.any introducesBlock then false else !lineHasTopLevelArrow line
  | _ => false

/-! ## Logical lines -/

/-- `(col, line_start_byte, tokens)`. -/
structure LogicalLine where
  col : Nat
  lineStart : Nat
  toks : List (Token × Span)
  deriving DecidableEq

def computeCol (lineStart : Nat) : Nat :=
  match line with
  | (_, span) :: _ => span.start - lineStart
  | [] => 0

/-- The tokens between two newlines; `current` are those of the line read so far. -/
def physicalLines (lineStart : Nat) (current : List (Token × Span)) :
    List (Token × Span) → List LogicalLine
  | [] => [⟨computeCol current lineStart, lineStart, current⟩]
  | (.newline, span) :: rest =>
    ⟨computeCol current lineStart, lineStart, current⟩ :: physicalLines span.stop [] rest
  | tok :: rest => physicalLines lineStart (current ++ [tok]) rest

/-- Append to the last line that has tokens, the lines newest first. -/
def extendPredecessor (toks : List (Token × Span)) : List LogicalLine → Option (List LogicalLine)
  | [] => none
  | line :: older =>
    if line.toks = [] then (extendPredecessor toks older).map (line :: ·)
    else some ({ line with toks := line.toks ++ toks } :: older)

/-- The line before ends with an operator that still needs its right-hand side. -/
def predTrailsOperator (merged : List LogicalLine) : Bool :=
  ((merged.find? fun line => line.toks ≠ []).bind fun line => line.toks.getLast?).any
    fun tok => isContinuationOperator tok.1

/-- One physical line onto the logical ones, newest first. -/
def mergeLine (merged : List LogicalLine) (line : LogicalLine) : List LogicalLine :=
  match line.toks with
  | [] => line :: merged
  | (tok, _) :: _ =>
    if isLeadingContinuationOperator tok || predTrailsOperator merged then
      (extendPredecessor line.toks merged).getD (line :: merged)
    else line :: merged

def collectLogicalLines (tokens : List (Token × Span)) : List LogicalLine :=
  ((physicalLines 0 [] tokens).foldl mergeLine []).reverse

/-! ## One line -/

/-- A bracket that is open, and the column of the statements in it once there is one. -/
structure BracketFrame where
  openLineStart : Nat
  baseline : Option Nat
  deriving DecidableEq

structure LayoutState where
  /-- The columns of the open blocks, innermost first. -/
  stack : List Nat
  bracketDepth : Nat
  /-- Innermost first. -/
  bracketFrames : List BracketFrame
  firstLogicalLine : Bool
  prevLastTok : Option Token
  deriving DecidableEq

namespace LayoutState

def start : LayoutState := ⟨[], 0, [], true, none⟩

/-- The innermost open column, the sentinel where no block is open. -/
def top (st : LayoutState) : Nat := st.stack.headD 0

end LayoutState

/-- What a line opens with. -/
structure Opening where
  state : LayoutState
  layout : List (Token × Span)
  errors : List LexError

variable (st : LayoutState)

/-- A line outside brackets: the column against the innermost block. -/
def outsideBrackets (line : LogicalLine) (here : Span) : Opening :=
  if st.firstLogicalLine then
    ⟨{ st with firstLogicalLine := false }, [],
      if 0 < line.col then [.indentAtTopLevel here] else []⟩
  else if st.top < line.col then
    if isBracketArgContinuation line.toks st.prevLastTok then ⟨st, [], []⟩
    else ⟨{ st with stack := line.col :: st.stack }, [(.indent, here)], []⟩
  else if line.col = st.top then ⟨st, [(.newline, here)], []⟩
  else
    let closed := st.stack.takeWhile (line.col < ·)
    let st' := { st with stack := st.stack.dropWhile (line.col < ·) }
    ⟨st', closed.map (fun _ => (.dedent, here)) ++ [(.newline, here)],
      if st'.top = line.col then []
      else [.inconsistentDedent here line.col (0 :: st'.stack.reverse)]⟩

/-- A line inside brackets: a newline between statements of one column, never an indent. -/
def insideBrackets (line : LogicalLine) (here : Span) : Opening :=
  match st.bracketFrames with
  | [] => ⟨st, [], []⟩
  | frame :: outer =>
    match frame.baseline with
    | some baseline =>
      if line.lineStart ≠ frame.openLineStart ∧ line.col ≤ baseline then
        ⟨st, [(.newline, here)], []⟩
      else ⟨st, [], []⟩
    | none =>
      if line.lineStart ≠ frame.openLineStart ∧
          isBracketArgContinuation line.toks st.prevLastTok = false then
        ⟨{ st with bracketFrames := { frame with baseline := some line.col } :: outer }, [], []⟩
      else ⟨st, [], []⟩

/-- A token's bracket; the frame of an opening one remembers the line it is on. -/
def trackBracket (lineStart : Nat) (st : LayoutState) (tok : Token) : LayoutState :=
  if opensBracket tok then
    { st with
      bracketDepth := st.bracketDepth + 1
      bracketFrames := ⟨lineStart, none⟩ :: st.bracketFrames }
  else if closesBracket tok then
    { st with bracketDepth := st.bracketDepth - 1, bracketFrames := st.bracketFrames.tail }
  else st

def trackBrackets (lineStart : Nat) (st : LayoutState) (toks : List (Token × Span)) : LayoutState :=
  toks.foldl (fun st tok => trackBracket lineStart st tok.1) st

/-- The state after a line that has tokens, the tokens it is written as, and its errors. -/
def layoutLine (line : LogicalLine) (first : Token × Span) :
    LayoutState × List (Token × Span) × List LexError :=
  let here := Span.point first.2.start
  let opening :=
    if st.bracketDepth = 0 then outsideBrackets st line here else insideBrackets st line here
  let st' := trackBrackets line.lineStart opening.state line.toks
  ({ st' with prevLastTok := line.toks.getLast?.map Prod.fst }, opening.layout ++ line.toks,
    opening.errors)

/-! ## The pass -/

/-- All lines, blank ones skipped, and at the end a dedent for each open block. -/
def layoutLines (eofSpan : Span) (st : LayoutState) :
    List LogicalLine → List (Token × Span) × List LexError
  | [] => (st.stack.map (fun _ => (.dedent, eofSpan)) ++ [(.eof, eofSpan)], [])
  | line :: rest =>
    match line.toks with
    | [] => layoutLines eofSpan st rest
    | first :: _ =>
      let (st', toks, errors) := layoutLine st line first
      let (toks', errors') := layoutLines eofSpan st' rest
      (toks ++ toks', errors ++ errors')

def process (tokens : List (Token × Span)) : List (Token × Span) × List LexError :=
  let eofSpan := (tokens.getLast?.map fun tok => Span.point tok.2.stop).getD (Span.point 0)
  layoutLines eofSpan .start (collectLogicalLines tokens)

end Lexer

end Ridge
