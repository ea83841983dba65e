import Ridge.Parser.Pattern

/-!
# Expressions

`ridge-parser/src/expr.rs`: the operator core (`parse_expr_bp`, `parse_expr_tail`), atoms, and what
stands in brackets. The forms that a keyword leads (`if`, `match`, `let`, `fn`, `spawn`, …), a
`child` specification and an interpolated text have parsers of their own, which are a parameter
here.
-/

namespace Ridge

/-! ## Tables -/

/-- Left and right binding power. -/
def infixBp : Token → Option (Nat × Nat × BinOp)
  | .pipeFwd => some (1, 2, .pipe)
  | .pipePipe => some (4, 3, .or)
  | .ampAmp => some (6, 5, .and)
  | .eqEq => some (7, 8, .eq)
  | .bangEq => some (7, 8, .ne)
  | .lt => some (9, 10, .lt)
  | .gt => some (9, 10, .gt)
  | .le => some (9, 10, .le)
  | .ge => some (9, 10, .ge)
  | .plusPlus => some (12, 11, .concat)
  | .colonColon => some (12, 11, .cons)
  | .plus => some (13, 14, .add)
  | .minus => some (13, 14, .sub)
  | .star => some (15, 16, .mul)
  | .slash => some (15, 16, .div)
  | .percent => some (15, 16, .mod)
  | .caret => some (18, 17, .pow)
  | _ => none

def isNonAssoc : BinOp → Bool
  | .eq | .ne | .lt | .gt | .le | .ge => true
  | _ => false

/-- All of them share one group. -/
def nonAssocLevel (_ : BinOp) : Nat := 0

def opStaticStr : BinOp → String
  | .pipe => "|>"
  | .or => "||"
  | .and => "&&"
  | .eq => "=="
  | .ne => "!="
  | .lt => "<"
  | .gt => ">"
  | .le => "<="
  | .ge => ">="
  | .concat => "++"
  | .cons => "::"
  | .add => "+"
  | .sub => "-"
  | .mul => "*"
  | .div => "/"
  | .mod => "%"
  | .pow => "^"

def isIs : Expr → Bool
  | .is _ _ _ => true
  | _ => false

def comparisonExpr : Expr → Bool
  | .is _ _ _ => true
  | .binary op _ _ _ => isNonAssoc op
  | _ => false

/-- The check before a non-associative operator: what is on its left. -/
def chains (op : BinOp) : Expr → Bool
  | .is _ _ _ => true
  | .binary prev _ _ _ => isNonAssoc prev && nonAssocLevel prev == nonAssocLevel op
  | _ => false

def canStartArgAtom : Token → Bool
  | .intDec _ | .intBin _ | .intOct _ | .intHex _ | .float _ | .decimalLit _ | .textLit _
  | .rawTextLit _ | .kwTrue | .kwFalse | .interpStart | .lowerIdent _ | .upperIdent _ | .lParen
  | .lBrack | .kwFn | .kwSpawn => true
  | _ => false

/-- An argument's start, a minus or a record. -/
def canStartPrattExpr (tok : Token) : Bool :=
  canStartArgAtom tok || tok == .minus || tok == .lBrace

def needsTimeoutParentheses : Token → Bool
  | .kwIf | .kwMatch | .kwLet | .kwVar | .kwTry | .kwGuard | .kwReturn => true
  | _ => false

/-! ## Lookahead -/

def isArrowOrWhen : Option Token → Bool
  | some .arrow | some .kwWhen => true
  | _ => false

/-- The scan of a bracketed pattern up to its close, and the token behind it. -/
def armScan : Nat → Int → List Token → Bool
  | 0, _, _ => false
  | _, _, [] => false
  | limit + 1, depth, tok :: toks =>
    if tok.opens then armScan limit (depth + 1) toks
    else if tok.closes then
      if depth - 1 < 0 then false
      else if depth - 1 = 0 then isArrowOrWhen toks.head?
      else armScan limit (depth - 1) toks
    else armScan limit depth toks

def isMatchArmStart (cur : Cursor) : Bool :=
  if cur.peek.opens then armScan 200 0 (cur.toks.map Prod.fst) else isArrowOrWhen (cur.peekN 1)

/-- The last argument of a flat match arm ends where the next arm starts. -/
def armEnds (cur : Cursor) : Bool := cur.noLayoutArm && isMatchArmStart cur

/-! ## Patterns of `is` -/

def wildcardPattern : Pattern → Bool
  | .wildcard _ => true
  | .paren inner _ => wildcardPattern inner
  | _ => false

/-- An element follows the `..`. -/
def isVarlenList (elements : List ListPatElem) : Bool :=
  (elements.findIdx? fun
    | .rest _ _ => true
    | .elem _ => false).any fun i => i < elements.length - 1

mutual

/-- Where a pattern binds a name, or has alternatives. -/
def predicateBinding : Pattern → Option Span
  | .var _ span | .bound _ _ span | .or _ span => some span
  | .constructor _ _ fields _ args _ =>
    (bindingFieldsOpt fields).or (bindingAll args)
  | .record fields _ _ => bindingFields fields
  | .tuple elems _ => bindingAll elems
  | .cons head tail _ => (predicateBinding head).or (predicateBinding tail)
  | .paren inner _ => predicateBinding inner
  | .list elements _ => bindingElems elements
  | .wildcard _ | .literal _ _ | .listNil _ => none

def bindingAll : List Pattern → Option Span
  | [] => none
  | p :: ps => (predicateBinding p).or (bindingAll ps)

def bindingFieldsOpt : Option (List (FieldPatternOf Pattern)) → Option Span
  | none => none
  | some fields => bindingFields fields

def bindingFields : List (FieldPatternOf Pattern) → Option Span
  | [] => none
  | ⟨_, none, span⟩ :: _ => some span
  | ⟨_, some p, _⟩ :: fields => (predicateBinding p).or (bindingFields fields)

def bindingElems : List (ListPatElemOf Pattern) → Option Span
  | [] => none
  | .elem p :: elements => (predicateBinding p).or (bindingElems elements)
  | .rest (some _) span :: _ => some span
  | .rest none _ :: elements => bindingElems elements

end

mutual

/-- Where a list pattern with `..` is nested, or has an element that is no wildcard. -/
def unsupportedPredicateSlice : Pattern → Bool → Option Span
  | .list elements span, root =>
    if isVarlenList elements && (!root || elements.any fun
        | .elem p => !wildcardPattern p
        | .rest _ _ => false) then some span
    else sliceElems elements
  | .paren inner _, root => unsupportedPredicateSlice inner root
  | .constructor _ _ fields _ args _, _ => (sliceAll args).or (sliceFieldsOpt fields)
  | .record fields _ _, _ => sliceFields fields
  | .tuple elems _, _ => sliceAll elems
  | .cons head tail _, _ =>
    (unsupportedPredicateSlice head false).or (unsupportedPredicateSlice tail false)
  | _, _ => none

def sliceAll : List Pattern → Option Span
  | [] => none
  | p :: ps => (unsupportedPredicateSlice p false).or (sliceAll ps)

def sliceFieldsOpt : Option (List (FieldPatternOf Pattern)) → Option Span
  | none => none
  | some fields => sliceFields fields

def sliceFields : List (FieldPatternOf Pattern) → Option Span
  | [] => none
  | ⟨_, none, _⟩ :: fields => sliceFields fields
  | ⟨_, some p, _⟩ :: fields => (unsupportedPredicateSlice p false).or (sliceFields fields)

def sliceElems : List (ListPatElemOf Pattern) → Option Span
  | [] => none
  | .elem p :: elements => (unsupportedPredicateSlice p false).or (sliceElems elements)
  | .rest _ _ :: elements => sliceElems elements

end

/-- `parse_is_predicate`, at `is`. -/
def parseIsPredicate (fuel : Nat) (cur : Cursor) (subject : Expr) : ParseM (Expr × Cursor) := do
  if comparisonExpr subject then throw (.nonAssociativeChain cur.span "is")
  let (pattern, cur) ← parsePattern fuel cur.bump
  match predicateBinding pattern with
  | some span =>
    throw (.unexpectedToken span
      "`is` patterns cannot bind names; use `match` to extract values")
  | none =>
    match unsupportedPredicateSlice pattern true with
    | some span =>
      throw (.unexpectedToken span
        "suffix and middle rest patterns in `is` must be at the root with wildcard elements; use an explicit list predicate for nested or refutable slice tests")
    | none =>
      if cur.peek = .kwIs ∨ ((infixBp cur.peek).any fun bp => isNonAssoc bp.2.2) = true then
        throw (.nonAssociativeChain cur.span "is")
      else pure (.is subject pattern (subject.span.merge pattern.span), cur)

/-!
## The operator parser

`parse_expr_bp` reads a prefix and hands it to `parse_expr_tail`, which takes as many operators as
bind tighter than its minimum.
-/

variable (other : Nat → Cursor → ParseM (Expr × Cursor))

/-- A `.LOWER_IDENT` chain after an atom. -/
def parseFieldChain : Nat → Cursor → Expr → ParseM (Expr × Cursor)
  | 0, _, _ => outOfFuel
  | fuel + 1, cur, base =>
    if cur.peek = .dot then
      match cur.peekN 1 with
      | some (.lowerIdent text) =>
        let cur := cur.bump
        let field : Ident := ⟨text, cur.span⟩
        parseFieldChain fuel cur.bump (.fieldAccess base field (base.span.merge cur.span))
      | _ => pure (base, cur)
    else pure (base, cur)

/-- Whether `?>` leaves a `timeout` to the clause that it opens. -/
def opensTimeout (cur : Cursor) : Bool :=
  cur.peek == .lowerIdent "timeout" && (cur.peekN 1).any fun tok =>
    canStartPrattExpr tok || (!cur.noLayoutArm && needsTimeoutParentheses tok)

mutual

def parseExpr : Nat → Cursor → ParseM (Expr × Cursor)
  | 0, _ => outOfFuel
  | fuel + 1, cur =>
    match cur.peek with
    | .kwIf | .kwMatch | .kwLet | .kwVar | .kwTry | .kwGuard | .kwReturn | .kwFn | .kwSpawn =>
      other fuel cur
    | _ => do
      let (lhs, cur) ← parseExprBp fuel 0 cur
      if cur.peek = .leftArrow then
        let arrow := cur.span
        let (rhs, cur) ← parseExpr fuel cur.bump
        pure (.assign lhs rhs ((lhs.span.merge rhs.span).merge arrow), cur)
      else pure (lhs, cur)

def parseExprBp : Nat → Nat → Cursor → ParseM (Expr × Cursor)
  | 0, _, _ => outOfFuel
  | fuel + 1, minBp, cur => do
    let cur ← cur.enter
    let (lhs, cur) ← parsePrefix fuel cur
    let (e, cur) ← parseExprTail fuel minBp cur lhs
    pure (e, cur.leave)

/-- The prefix of `parse_expr_bp`: unary minus, the only prefix operator, or an atom. -/
def parsePrefix : Nat → Cursor → ParseM (Expr × Cursor)
  | 0, _ => outOfFuel
  | fuel + 1, cur =>
    if cur.peek = .minus then do
      let start := cur.span
      let (operand, cur) ← parseExprBp fuel 19 cur.bump
      pure (.unary .neg operand (start.merge operand.span), cur)
    else parseExprAtom12 fuel cur

def parseExprTail : Nat → Nat → Cursor → Expr → ParseM (Expr × Cursor)
  | 0, _, _, _ => outOfFuel
  | fuel + 1, minBp, cur, lhs =>
    if cur.peek = .kwIs ∧ minBp < 7 then do
      let (lhs, cur) ← parseIsPredicate fuel cur lhs
      parseExprTail fuel minBp cur lhs
    else if cur.peek = .kwWith ∧ minBp < 10 then do
      let (_, cur) ← cur.bump.expect .lBrace "\x7b"
      let (fields, cur) ← parseFieldInitList fuel cur
      let (stop, cur) ← cur.expect .rBrace "\x7d"
      parseExprTail fuel minBp cur (.with lhs fields (lhs.span.merge stop))
    else if cur.peek = .lBrack ∧ cur.span.start = lhs.span.stop then
      throw (.indexSyntaxNotSupported cur.span)
    else if minBp < 20 ∧ canStartArgAtom cur.peek = true then
      -- Application comes before the operators, so that `f x + y` is `(f x) + y`.
      if armEnds cur then pure (lhs, cur)
      else do
        let (args, cur) ← parseArgs fuel cur
        match args.getLast? with
        | none => pure (lhs, cur)
        | some last => parseExprTail fuel minBp cur (.call lhs args (lhs.span.merge last.span))
    else if minBp < 1 then
      -- After one postfix operator the expression is over.
      match cur.peek with
      | .questionGt => parseAsk fuel cur lhs
      | .bang => do
        let (message, cur) ← parseExprBp fuel 0 cur.bump
        pure (.send lhs message (lhs.span.merge message.span), cur)
      | .question => pure (.propagate lhs (lhs.span.merge cur.span), cur.bump)
      | _ => parseInfix fuel minBp cur lhs
    else parseInfix fuel minBp cur lhs

/-- The binary operators of `parse_expr_tail`. -/
def parseInfix : Nat → Nat → Cursor → Expr → ParseM (Expr × Cursor)
  | 0, _, _, _ => outOfFuel
  | fuel + 1, minBp, cur, lhs =>
    match infixBp cur.peek with
    | none => pure (lhs, cur)
    | some (lbp, rbp, op) =>
      if lbp ≤ minBp then pure (lhs, cur)
      else if isNonAssoc op && chains op lhs then
        throw (.nonAssociativeChain cur.span (opStaticStr op))
      else do
        let opSpan := cur.span
        let (rhs, cur) ← parseExprBp fuel rbp cur.bump
        if op = .pipe then
          parseExprTail fuel minBp cur (.pipe lhs rhs (lhs.span.merge rhs.span))
        else if isNonAssoc op && isIs rhs then
          throw (.nonAssociativeChain rhs.span (opStaticStr op))
        else
          parseExprTail fuel minBp cur
            (.binary op lhs rhs ((lhs.span.merge rhs.span).merge opSpan))

/-- The arguments of an application. -/
def parseArgs : Nat → Cursor → ParseM (List Expr × Cursor)
  | 0, _ => outOfFuel
  | fuel + 1, cur =>
    if canStartArgAtom cur.peek && !armEnds cur then do
      let (arg, cur) ← parseExprAtom12 fuel cur
      let (args, cur) ← parseArgs fuel cur
      pure (arg :: args, cur)
    else pure ([], cur)

/-- `handle ?> message arg* [timeout <ms|never>] [?]`, at `?>`. -/
def parseAsk : Nat → Cursor → Expr → ParseM (Expr × Cursor)
  | 0, _, _ => outOfFuel
  | fuel + 1, cur, handle =>
    let cur := cur.bump
    match cur.peek with
    | .lowerIdent text => do
      let message : Ident := ⟨text, cur.span⟩
      -- A flat match arm has no line breaks, and its message takes one argument.
      let (args, cur) ← parseAskArgs fuel (if cur.noLayoutArm then some 1 else none) cur.bump
      let (timeout, timeoutEnd, propagateEnd, cur) ← parseAskTimeout fuel cur
      let endSpan := (timeoutEnd.or (args.getLast?.map Expr.span)).getD message.span
      let ask : Expr := .ask handle message args timeout (handle.span.merge endSpan)
      if propagateEnd.isNone ∧ cur.peek = .question then
        pure (.propagate ask (ask.span.merge cur.span), cur.bump)
      else
        match propagateEnd with
        | some stop => pure (.propagate ask (ask.span.merge stop), cur)
        | none => pure (ask, cur)
    | found => throw (.expected cur.span "<message name (LOWER_IDENT)>" found)

/-- The arguments of an ask, at most as many as `limit` allows. -/
def parseAskArgs : Nat → Option Nat → Cursor → ParseM (List Expr × Cursor)
  | 0, _, _ => outOfFuel
  | fuel + 1, limit, cur =>
    if canStartArgAtom cur.peek && limit != some 0 && !armEnds cur && !opensTimeout cur then do
      let (arg, cur) ← parseExprAtom12 fuel cur
      let (args, cur) ← parseAskArgs fuel (limit.map (· - 1)) cur
      pure (arg :: args, cur)
    else pure ([], cur)

/-- The timeout, where it ends, and where a `?` after its operand does: that one is the ask's. -/
def parseAskTimeout : Nat → Cursor →
    ParseM (Option AskTimeout × Option Span × Option Span × Cursor)
  | 0, _ => outOfFuel
  | fuel + 1, cur =>
    if cur.peek = .lowerIdent "timeout" then
      let cur := cur.bump
      if cur.peek = .lowerIdent "never" then
        pure (some .never, some cur.span, none, cur.bump)
      else if needsTimeoutParentheses cur.peek then
        throw (.expected cur.span "a parenthesised expression after `timeout`" cur.peek)
      else do
        let (ms, cur) ← parseExprBp fuel 0 cur
        match ms with
        | .propagate inner span => pure (some (.millis inner), some inner.span, some span, cur)
        | ms => pure (some (.millis ms), some ms.span, none, cur)
    else pure (none, none, none, cur)

/-- `parse_expr_atom12`: an atom and its fields. -/
def parseExprAtom12 : Nat → Cursor → ParseM (Expr × Cursor)
  | 0, _ => outOfFuel
  | fuel + 1, cur => do
    let (base, cur) ← parseExprAtom fuel cur
    parseFieldChain fuel cur base

def parseExprAtom : Nat → Cursor → ParseM (Expr × Cursor)
  | 0, _ => outOfFuel
  | fuel + 1, cur =>
    if cur.peek.startsPatternLiteral then do
      let (lit, cur) ← parseLiteral cur
      pure (.literal lit, cur)
    else match cur.peek with
    | .rawTextLit raw => pure (.literal (.rawText raw cur.span), cur.bump)
    | .lParen => parseParenExpr fuel cur
    | .lBrack => do
      let start := cur.span
      let depth := cur.bracketDepth
      let (elems, stop, cur) ← parseListInner fuel { cur.bump with bracketDepth := depth + 1 }
      pure (.list elems (start.merge stop), { cur with bracketDepth := depth })
    | .lowerIdent text =>
      match text == "child", cur.peekN 1 with
      | true, some (.upperIdent _) => other fuel cur
      | _, _ => pure (.ident ⟨text, cur.span⟩, cur.bump)
    | .underscore =>
      throw (.unexpectedToken cur.span "bare `_` is a wildcard pattern, not an expression")
    | .kwFn | .kwSpawn | .interpStart => other fuel cur
    | .upperIdent text => parseUpperIdentAtom fuel cur text
    | .lBrace => parseInlineRecordLiteral fuel cur
    | .indent | .dedent =>
      throw (.layoutMismatch cur.span "unexpected layout token in expression position")
    | .kwIn => throw (.letInNotSupported cur.span)
    | .bang => throw (.bangNegationNotSupported cur.span)
    | .kwFor => throw (.loopNotSupported cur.span "for")
    | .kwWhile => throw (.loopNotSupported cur.span "while")
    | found => throw (.unexpectedFound cur.span found "unexpected token in expression position")

def parseParenExpr : Nat → Cursor → ParseM (Expr × Cursor)
  | 0, _ => outOfFuel
  | fuel + 1, cur =>
    let start := cur.span
    let cur := cur.bump
    if cur.peek = .rParen then pure (.unit (start.merge cur.span), cur.bump)
    else
      match cur.peek, cur.peekN 1 with
      | .dot, some (.lowerIdent text) => do
        let cur := cur.bump
        let field : Ident := ⟨text, cur.span⟩
        let (stop, cur) ← cur.bump.expect .rParen ")"
        pure (.fieldAccessorFn field (start.merge stop), cur)
      | _, _ => do
        let depth := cur.bracketDepth
        let (e, cur) ← parseParenInner fuel start { cur with bracketDepth := depth + 1 }
        pure (e, { cur with bracketDepth := depth })

def parseParenInner : Nat → Span → Cursor → ParseM (Expr × Cursor)
  | 0, _, _ => outOfFuel
  | fuel + 1, start, cur => do
    let (first, cur) ← parseExpr fuel cur
    let cur := if cur.peek = .newline ∧ cur.peekN 1 = some .rParen then cur.bump else cur
    if cur.peek = .rParen then pure (.paren first (start.merge cur.span), cur.bump)
    else if cur.peek = .comma then
      let (elems, cur) ← parseTupleElems fuel cur
      let (stop, cur) ← cur.expect .rParen ")"
      pure (.tuple (first :: elems) (start.merge stop), cur)
    else throw (.expected cur.span "`)` or `,`" cur.peek)

/-- The elements of a tuple after the first, each behind its comma. -/
def parseTupleElems : Nat → Cursor → ParseM (List Expr × Cursor)
  | 0, _ => outOfFuel
  | fuel + 1, cur =>
    if cur.peek = .comma then
      let cur := cur.bump
      if cur.peek = .rParen then pure ([], cur)
      else do
        let (elem, cur) ← parseExpr fuel cur
        let (elems, cur) ← parseTupleElems fuel cur
        pure (elem :: elems, cur)
    else pure ([], cur)

/-- `parse_list_inner`, with the span of the closing bracket. -/
def parseListInner : Nat → Cursor → ParseM (List Expr × Span × Cursor)
  | 0, _ => outOfFuel
  | fuel + 1, cur => do
    let cur := cur.skipNewlines
    if cur.peek = .rBrack then pure ([], cur.span, cur.bump)
    else
      let (first, cur) ← parseExpr fuel cur
      let (elems, cur) ← parseListElems fuel cur.skipNewlines
      let (stop, cur) ← cur.expect .rBrack "]"
      pure (first :: elems, stop, cur)

/-- The elements of a list after the first, each behind its comma. -/
def parseListElems : Nat → Cursor → ParseM (List Expr × Cursor)
  | 0, _ => outOfFuel
  | fuel + 1, cur =>
    if cur.peek = .comma then
      let cur := cur.bump.skipNewlines
      if cur.peek = .rBrack then pure ([], cur)
      else do
        let (elem, cur) ← parseExpr fuel cur
        let (elems, cur) ← parseListElems fuel cur.skipNewlines
        pure (elem :: elems, cur)
    else pure ([], cur)

/-- A qualified name, a record construction or a bare constructor. -/
def parseUpperIdentAtom : Nat → Cursor → String → ParseM (Expr × Cursor)
  | 0, _, _ => outOfFuel
  | fuel + 1, cur, text =>
    if cur.peekN 1 = some .dot then do
      let (qn, cur) ← parseQualifiedName fuel cur text
      let lastIsCtor := qn.segments.getLast?.any fun s => (s.text.toList.head?).any Char.isUpper
      if cur.peek = .lBrace then parseRecordConstruct fuel cur (.qualified qn)
      else if lastIsCtor then pure (.record (.qualified qn) [] qn.span, cur)
      else pure (.qualified qn, cur)
    else
      let name : Ident := ⟨text, cur.span⟩
      if cur.peekN 1 = some .lBrace then parseRecordConstruct fuel cur.bump (.bare name)
      else pure (.record (.bare name) [] name.span, cur.bump)

/-- `parse_record_construct`, at the brace. -/
def parseRecordConstruct : Nat → Cursor → RecordCtor → ParseM (Expr × Cursor)
  | 0, _, _ => outOfFuel
  | fuel + 1, cur, ctor => do
    let start := match ctor with
      | .bare name => name.span
      | .qualified name => name.span
    let depth := cur.bracketDepth
    let (_, cur) ← cur.expect .lBrace "\x7b"
    let (fields, cur) ← parseFieldInitList fuel { cur with bracketDepth := depth + 1 }
    let (stop, cur) ← ({ cur with bracketDepth := depth } : Cursor).expect .rBrace "\x7d"
    pure (.record ctor fields (start.merge stop), cur)

def parseInlineRecordLiteral : Nat → Cursor → ParseM (Expr × Cursor)
  | 0, _ => outOfFuel
  | fuel + 1, cur => do
    let start := cur.span
    let cur := cur.bump
    if cur.peek = .rBrace then pure (.recordLit [] (start.merge cur.span), cur.bump)
    else
      let (fields, cur) ← parseRecordLitFields fuel cur
      match cur.peek, fields with
      | .kwWith, [⟨name, none, _⟩] => throw (.recordUpdateSyntax cur.span start name.text)
      | _, _ =>
        let (stop, cur) ← cur.expect .rBrace "\x7d"
        pure (.recordLit fields (start.merge stop), cur)

def parseRecordLitFields : Nat → Cursor → ParseM (List FieldInit × Cursor)
  | 0, _ => outOfFuel
  | fuel + 1, cur =>
    match cur.peek with
    | .lowerIdent text => do
      let (field, cur) ← parseFieldValue fuel ⟨text, cur.span⟩ cur.bump
      if cur.peek = .comma then
        let cur := cur.bump
        if cur.peek = .rBrace then pure ([field], cur)
        else
          let (fields, cur) ← parseRecordLitFields fuel cur
          pure (field :: fields, cur)
      else pure ([field], cur)
    | found =>
      throw (.unexpectedFound cur.span found "expected a lowercase field name in record literal")

/-- `parse_field_init_list`, up to the closing brace. -/
def parseFieldInitList : Nat → Cursor → ParseM (List FieldInit × Cursor)
  | 0, _ => outOfFuel
  | fuel + 1, cur =>
    if cur.peek = .rBrace then pure ([], cur)
    else
      match cur.peek with
      | .lowerIdent text => do
        let (field, cur) ← parseFieldValue fuel ⟨text, cur.span⟩ cur.bump
        if cur.peek = .comma then
          let (fields, cur) ← parseFieldInitList fuel cur.bump
          pure (field :: fields, cur)
        else pure ([field], cur)
      | found => throw (.expected cur.span "<field name (LOWER_IDENT)>" found)

/-- A field after its name: `= value` or nothing. -/
def parseFieldValue : Nat → Ident → Cursor → ParseM (FieldInit × Cursor)
  | 0, _, _ => outOfFuel
  | fuel + 1, name, cur =>
    if cur.peek = .assign then do
      let (value, cur) ← parseExpr fuel cur.bump
      pure (⟨name, some value, name.span.merge value.span⟩, cur)
    else pure (⟨name, none, name.span⟩, cur)

end

end Ridge
