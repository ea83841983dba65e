import Ridge.Lib.Fuel
import Ridge.Syntax.Ast

/-!
# Patterns

`ridge-parser/src/pattern.rs`: `parse_pattern` with `::` and `@`, and the atoms.
-/

/-!
## The parser's cursor

`ridge-parser/src/cursor.rs`: the tokens that are left, and the flags that the parser carries along.
A parser function takes a cursor and returns one; it answers an error, and then its caller does.
Since the parser recurses, its functions take fuel: without an answer the fuel has run out.
-/

namespace Ridge

structure Cursor where
  toks : List (Token × Span)
  noLayoutArm : Bool
  bracketDepth : Nat
  recursionDepth : Nat

def maxParseDepth : Nat := 256

/-- The errors of the modelled functions. -/
inductive ParseError where
  | expected (span : Span) (expected : String) (found : Token)
  /-- An expected identifier too, with a text of its own. -/
  | aliasWithoutName (span : Span)
  | unexpectedToken (span : Span) (description : String)
  /-- A description that ends with the token found. -/
  | unexpectedFound (span : Span) (found : Token) (description : String)
  | layoutMismatch (span : Span) (hint : String)
  | nonAssociativeChain (span : Span) (op : String)
  | reservedKeywordAsIdent (span : Span) (keyword position : String)
  | multipleRestInListPattern (span : Span)
  | expressionTooDeep (span : Span) (limit : Nat)
  | letInNotSupported (span : Span)
  | recordUpdateSyntax (span openBrace : Span) (record : String)
  | indexSyntaxNotSupported (span : Span)
  | bangNegationNotSupported (span : Span)
  | loopNotSupported (span : Span) (keyword : String)
  | elsewhere (code : String) (span : Span)
  deriving DecidableEq

/-- An answer, an error or no fuel left. -/
abbrev ParseM := ExceptT ParseError Option

def outOfFuel {α : Type} : ParseM α := ExceptT.mk none

namespace Cursor

def new (toks : List (Token × Span)) : Cursor := ⟨toks, false, 0, 0⟩

variable (cur : Cursor)

def peek : Token := (cur.toks.head?.map Prod.fst).getD .eof

def peekN (n : Nat) : Option Token := cur.toks[n]?.map Prod.fst

def span : Span := (cur.toks.head?.map Prod.snd).getD .origin

def bump : Cursor := { cur with toks := cur.toks.tail }

/-- Require the token `want`. -/
def expect (want : Token) (description : String) : ParseM (Span × Cursor) :=
  if cur.peek = want then pure (cur.span, cur.bump)
  else throw (.expected cur.span description cur.peek)

def skipNewlines : Cursor :=
  { cur with toks := cur.toks.dropWhile fun t => t.1 == .newline }

/-- `DepthGuard::enter`. The guard leaves when the function that entered returns. -/
def enter : ParseM Cursor :=
  if maxParseDepth ≤ cur.recursionDepth then throw (.expressionTooDeep cur.span maxParseDepth)
  else pure { cur with recursionDepth := cur.recursionDepth + 1 }

def leave : Cursor := { cur with recursionDepth := cur.recursionDepth - 1 }

end Cursor

def parseLiteral (cur : Cursor) : ParseM (Literal × Cursor) :=
  match cur.peek with
  | .intDec raw => pure (.intDec raw cur.span, cur.bump)
  | .intBin raw => pure (.intBin raw cur.span, cur.bump)
  | .intOct raw => pure (.intOct raw cur.span, cur.bump)
  | .intHex raw => pure (.intHex raw cur.span, cur.bump)
  | .float raw => pure (.float raw cur.span, cur.bump)
  | .decimalLit raw => pure (.decimal raw cur.span, cur.bump)
  | .kwTrue => pure (.bool true cur.span, cur.bump)
  | .kwFalse => pure (.bool false cur.span, cur.bump)
  | .textLit raw => pure (.text raw cur.span, cur.bump)
  | .rawTextLit raw => pure (.rawText raw cur.span, cur.bump)
  | found => throw (.unexpectedFound cur.span found "expected a literal")

/-- The tokens of a literal that may stand in a pattern. -/
def Token.startsPatternLiteral : Token → Bool
  | .intDec _ | .intBin _ | .intOct _ | .intHex _ | .float _ | .decimalLit _ | .kwTrue | .kwFalse
  | .textLit _ => true
  | _ => false

/-! ## Qualified names -/

/-- The `.segment` pairs of a qualified name. The dot is always consumed. -/
def parseSegments : Nat → Cursor → ParseM (List Ident × Cursor)
  | 0, _ => outOfFuel
  | fuel + 1, cur =>
    if cur.peek = .dot then
      let cur := cur.bump
      match cur.peek with
      | .lowerIdent text | .upperIdent text => do
        let (segments, cur') ← parseSegments fuel cur.bump
        pure (⟨text, cur.span⟩ :: segments, cur')
      | found => throw (.expected cur.span "<identifier>" found)
    else pure ([], cur)

/-- `parse_qualified_name`, at an upper-case identifier. -/
def parseQualifiedName (fuel : Nat) (cur : Cursor) (text : String) :
    ParseM (QualifiedName × Cursor) := do
  let first : Ident := ⟨text, cur.span⟩
  let (segments, cur') ← parseSegments fuel cur.bump
  let last := (segments.getLast?.map Ident.span).getD cur.span
  pure (⟨first :: segments, cur.span.merge last⟩, cur')

/-! ## Patterns -/

def canStartPatternAtom : Token → Bool
  | .underscore | .lowerIdent _ | .upperIdent _ | .intDec _ | .intBin _ | .intOct _ | .intHex _
  | .float _ | .decimalLit _ | .kwTrue | .kwFalse | .textLit _ | .lParen | .lBrack => true
  | _ => false

/-- The comma that may stand after `..`. -/
def Cursor.skipComma (cur : Cursor) : Cursor := if cur.peek = .comma then cur.bump else cur

mutual

def parsePattern : Nat → Cursor → ParseM (Pattern × Cursor)
  | 0, _ => outOfFuel
  | fuel + 1, cur => do
    let cur ← cur.enter
    let (left, cur) ← parsePatternAtom fuel cur
    let (left, cur) ← parseAlias fuel left cur
    if cur.peek = .colonColon then
      -- Right-associative.
      let (tail, cur) ← parsePattern fuel cur.bump
      pure (.cons left tail (left.span.merge tail.span), cur.leave)
    else pure (left, cur.leave)

/-- `@`, which only a variable may precede. -/
def parseAlias : Nat → Pattern → Cursor → ParseM (Pattern × Cursor)
  | 0, _, _ => outOfFuel
  | fuel + 1, left, cur =>
    if cur.peek = .at then
      match left with
      | .var name varSpan => do
        let (inner, cur) ← parsePatternAtom fuel cur.bump
        pure (.bound name inner (varSpan.merge inner.span), cur)
      | _ => throw (.aliasWithoutName cur.span)
    else pure (left, cur)

def parsePatternAtom : Nat → Cursor → ParseM (Pattern × Cursor)
  | 0, _ => outOfFuel
  | fuel + 1, cur =>
    if cur.peek.startsPatternLiteral then do
      let (lit, cur) ← parseLiteral cur
      pure (.literal lit lit.span, cur)
    else match cur.peek with
    | .underscore => pure (.wildcard cur.span, cur.bump)
    | .lowerIdent text => pure (.var ⟨text, cur.span⟩ cur.span, cur.bump)
    | .lBrack =>
      let start := cur.span
      let cur := cur.bump
      if cur.peek = .rBrack then pure (.listNil (start.merge cur.span), cur.bump)
      else do
        let (elements, cur) ← parseListPatternElements fuel false cur
        let (stop, cur) ← cur.expect .rBrack "]"
        pure (.list elements (start.merge stop), cur)
    | .lBrace => parseInlineRecordPattern fuel cur
    | .lParen => parseParenOrTuplePattern fuel cur
    | .upperIdent text => parseConstructorPattern fuel cur text
    | found =>
      match found.keywordText with
      | some keyword => throw (.reservedKeywordAsIdent cur.span keyword "a pattern")
      | none => throw (.unexpectedFound cur.span found "unexpected token in pattern position")

def parseInlineRecordPattern : Nat → Cursor → ParseM (Pattern × Cursor)
  | 0, _ => outOfFuel
  | fuel + 1, cur => do
    let start := cur.span
    let cur := cur.bump
    let (fields, hasRest, cur) ←
      if cur.peek = .rBrace then pure ([], false, cur)
      else parseRecordPatternFields fuel cur
    let (stop, cur) ← cur.expect .rBrace "\x7d"
    pure (.record fields hasRest (start.merge stop), cur)

/-- The fields of an inline record pattern. `..` must be last. -/
def parseRecordPatternFields : Nat → Cursor → ParseM (List FieldPattern × Bool × Cursor)
  | 0, _ => outOfFuel
  | fuel + 1, cur =>
    if cur.peek = .dotDot then pure ([], true, cur.bump.skipComma)
    else match cur.peek with
    | .lowerIdent text => do
      let (field, cur) ← parseFieldPattern fuel ⟨text, cur.span⟩ cur.bump
      if cur.peek = .comma then
        let cur := cur.bump
        if cur.peek = .rBrace then pure ([field], false, cur)
        else
          let (fields, hasRest, cur) ← parseRecordPatternFields fuel cur
          pure (field :: fields, hasRest, cur)
      else pure ([field], false, cur)
    | found => throw (.unexpectedFound cur.span found "expected a lowercase field name in record pattern")

/-- A field after its name, with or without a pattern. -/
def parseFieldPattern : Nat → Ident → Cursor → ParseM (FieldPattern × Cursor)
  | 0, _, _ => outOfFuel
  | fuel + 1, name, cur =>
    if cur.peek = .assign then do
      let (inner, cur) ← parsePattern fuel cur.bump
      pure (⟨name, some inner, name.span.merge inner.span⟩, cur)
    else pure (⟨name, none, name.span⟩, cur)

/-- `parse_constructor_pattern`, at an upper-case identifier. -/
def parseConstructorPattern : Nat → Cursor → String → ParseM (Pattern × Cursor)
  | 0, _, _ => outOfFuel
  | fuel + 1, cur, text => do
    let start := cur.span
    let (qualifier, name, cur) ←
      if cur.peekN 1 = some .dot then do
        let (qn, cur) ← parseQualifiedName fuel cur text
        pure (some qn, qn.segments.getLast?.getD ⟨"", qn.span⟩, cur)
      else pure (none, ⟨text, start⟩, cur.bump)
    if cur.peek = .lBrace then
      let (fields, hasRest, cur) ← parseFieldPatternList fuel cur.bump
      let (stop, cur) ← cur.expect .rBrace "\x7d"
      pure (.constructor qualifier name (some fields) hasRest [] (start.merge stop), cur)
    else
      let (args, cur) ← parsePatternArgs fuel cur
      let stop := (args.getLast?.map Pattern.span).getD name.span
      pure (.constructor qualifier name none false args (start.merge stop), cur)

/-- The arguments of a constructor, as many as follow. -/
def parsePatternArgs : Nat → Cursor → ParseM (List Pattern × Cursor)
  | 0, _ => outOfFuel
  | fuel + 1, cur =>
    if canStartPatternAtom cur.peek then do
      let (arg, cur) ← parsePatternAtom fuel cur
      let (args, cur) ← parsePatternArgs fuel cur
      pure (arg :: args, cur)
    else pure ([], cur)

def parseFieldPatternList : Nat → Cursor → ParseM (List FieldPattern × Bool × Cursor)
  | 0, _ => outOfFuel
  | fuel + 1, cur =>
    if cur.peek = .rBrace then pure ([], false, cur)
    else if cur.peek = .dotDot then pure ([], true, cur.bump.skipComma)
    else match cur.peek with
    | .lowerIdent text => do
      let (field, cur) ← parseFieldPattern fuel ⟨text, cur.span⟩ cur.bump
      if cur.peek = .comma then
        let (fields, hasRest, cur) ← parseFieldPatternList fuel cur.bump
        pure (field :: fields, hasRest, cur)
      else pure ([field], false, cur)
    | found => throw (.expected cur.span "<identifier>" found)

def parseListPatternElements : Nat → Bool → Cursor → ParseM (List ListPatElem × Cursor)
  | 0, _, _ => outOfFuel
  | fuel + 1, hasRest, cur => do
    let (element, hasRest, cur) ← parseListPatternElement fuel hasRest cur
    if cur.peek = .comma then
      let cur := cur.bump
      if cur.peek = .rBrack then pure ([element], cur)
      else
        let (elements, cur) ← parseListPatternElements fuel hasRest cur
        pure (element :: elements, cur)
    else pure ([element], cur)

def parseListPatternElement : Nat → Bool → Cursor → ParseM (ListPatElem × Bool × Cursor)
  | 0, _, _ => outOfFuel
  | fuel + 1, hasRest, cur =>
    match cur.peek with
    | .dotDot =>
      if hasRest then throw (.multipleRestInListPattern cur.span)
      else pure (.rest none cur.span, true, cur.bump)
    | .lowerIdent text =>
      -- The identifier is consumed before what follows it is known.
      let name : Ident := ⟨text, cur.span⟩
      let cur := cur.bump
      if cur.peek = .at then
        let cur := cur.bump
        if cur.peek = .dotDot then
          if hasRest then throw (.multipleRestInListPattern cur.span)
          else pure (.rest (some name) (name.span.merge cur.span), true, cur.bump)
        else do
          let (inner, cur) ← parsePatternAtom fuel cur
          pure (.elem (.bound name inner (name.span.merge inner.span)), hasRest, cur)
      else pure (.elem (.var name name.span), hasRest, cur)
    | _ => do
      let (pat, cur) ← parsePattern fuel cur
      pure (.elem pat, hasRest, cur)

def parseParenOrTuplePattern : Nat → Cursor → ParseM (Pattern × Cursor)
  | 0, _ => outOfFuel
  | fuel + 1, cur =>
    let start := cur.span
    let cur := cur.bump
    if cur.peek = .rParen then
      throw (.unexpectedToken cur.span "unit `()` is not a valid pattern in 0.1.0")
    else do
      let (first, cur) ← parsePattern fuel cur
      if cur.peek = .comma then
        let (elems, cur) ← parseTuplePatternElems fuel cur
        let (stop, cur) ← cur.expect .rParen ")"
        pure (.tuple (first :: elems) (start.merge stop), cur)
      else
        let (stop, cur) ← cur.expect .rParen ")"
        pure (.paren first (start.merge stop), cur)

/-- The elements of a tuple after the first, each behind its comma. -/
def parseTuplePatternElems : Nat → Cursor → ParseM (List Pattern × Cursor)
  | 0, _ => outOfFuel
  | fuel + 1, cur =>
    if cur.peek = .comma then do
      let (elem, cur) ← parsePattern fuel cur.bump
      let (elems, cur) ← parseTuplePatternElems fuel cur
      pure (elem :: elems, cur)
    else pure ([], cur)

end

end Ridge
