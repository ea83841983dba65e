import Ridge.Lexer.Layout

/-!
# ridge-lexer — triple-quoted strings

`scan_triple_quote_body` and `scan_interp_triple_body` with `find_triple_interp_close`
(`ridge-lexer/src/raw_scan.rs`). A scanner is given what follows its opener and the byte it starts
at; the scan of a hole's expression is a parameter.
-/

namespace Ridge.Lexer

/-- What the scanner hands to the interpolation pass. -/
inductive RawToken where
  | token (tok : Token)
  | interpStart
  | interpText (text : String)
  | interpExprStart
  | rBrace
  | newline
  deriving DecidableEq

variable (text : List Char)

/-- The bytes of some text. -/
def byteLen : Nat := (text.map Char.utf8Size).sum

/-- The text in front of the first `"""`. -/
def untilTriple : List Char → Option (List Char)
  | '"' :: '"' :: '"' :: _ => some []
  | c :: rest => (untilTriple rest).map (c :: ·)
  | [] => none

def skipToTripleQuoteClose (pos : Nat) (rest : List Char) : Nat :=
  match untilTriple rest with
  | some before => pos + byteLen before + 3
  | none => pos + byteLen rest

/-- `str::split('\n')`. -/
def splitLines : List Char → List (List Char)
  | [] => [[]]
  | c :: rest =>
    if c = '\n' then [] :: splitLines rest
    else match splitLines rest with
      | [] => [[c]]
      | line :: lines => (c :: line) :: lines

/-- The text in front of the last newline and the text behind it, by `rfind('\n')`. -/
def splitLastLine : List Char → Option (List Char × List Char)
  | [] => none
  | c :: rest =>
    match splitLastLine rest with
    | some (content, margin) => some (c :: content, margin)
    | none => if c = '\n' then some ([], rest) else none

def isSpace (c : Char) : Bool := c = ' '

/-- The content of a body, the width of its margin, and the error of a margin that is not all
spaces, which counts as none. -/
def contentAndMargin (openStart : Nat) (rawBody : List Char) : List Char × Nat × List LexError :=
  let (content, margin) := (splitLastLine rawBody).getD ([], [])
  if margin.all isSpace then (content, margin.length, [])
  else (content, 0, [.multilineStringInsufficientIndent (Span.point openStart)])

/-! ## The plain scanner -/

/-- One line of a plain body: without the margin, empty where it is blank and no longer than the
margin, as it stands where the margin is not there. -/
def plainLine (margin offset : Nat) (line : List Char) : List Char × List LexError :=
  if line.all isSpace ∧ line.length ≤ margin then ([], [])
  else if line = [] then ([], [])
  else if 0 < margin ∧ ¬(margin ≤ line.length ∧ (line.take margin).all isSpace) then
    (line, [.multilineStringInsufficientIndent (Span.point offset)])
  else (line.drop margin, [])

def plainLines (margin : Nat) : Nat → List (List Char) → List Char × List LexError
  | _, [] => ([], [])
  | offset, [line] => plainLine margin offset line
  | offset, line :: lines =>
    let (text, errors) := plainLine margin offset line
    let (text', errors') := plainLines margin (offset + byteLen line + 1) lines
    (text ++ '\n' :: text', errors ++ errors')

/-- The content, the errors and the byte behind the string. -/
def scanTripleQuoteBody (pos openStart : Nat) (rest : List Char) :
    Option String × List LexError × Nat :=
  match rest with
  | '\n' :: body =>
    match untilTriple body with
    | none =>
      (none, [.unterminatedMultilineString (Span.point openStart) "triple-quoted"],
        pos + byteLen rest)
    | some rawBody =>
      let (content, margin, marginErrors) := contentAndMargin openStart rawBody
      let (text, errors) := plainLines margin (pos + 1) (splitLines content)
      (some (String.ofList text), marginErrors ++ errors, pos + 1 + byteLen rawBody + 3)
  | _ => (none, [.multilineStringOpenContent ⟨openStart, pos + 1⟩], skipToTripleQuoteClose pos rest)

/-! ## The scanner with holes -/

/-- A string inside a hole: up to its quote or the end of its line. -/
def skipHoleString : List Char → List Char × List Char
  | [] => ([], [])
  | '"' :: rest => (['"'], rest)
  | '\n' :: rest => ([], '\n' :: rest)
  | '\\' :: c :: rest => let (inside, rest') := skipHoleString rest; ('\\' :: c :: inside, rest')
  | c :: rest => let (inside, rest') := skipHoleString rest; (c :: inside, rest')

theorem skipHoleString_append : (skipHoleString text).1 ++ (skipHoleString text).2 = text := by
  fun_induction skipHoleString text <;> simp_all

theorem skipHoleString_length : (skipHoleString text).2.length ≤ text.length := by
  have happend := congrArg List.length (skipHoleString_append text)
  rw [List.length_append] at happend
  omega

/-- The text of a hole up to the `}` that closes it, what follows that, and whether it is there. -/
structure Hole where
  inside : List Char
  rest : List Char
  closed : Bool

/-- More of a hole's text in front of what was read. -/
def Hole.after (h : Hole) : Hole := { h with inside := text ++ h.inside }

@[simp] theorem Hole.after_rest (h : Hole) : (h.after text).rest = h.rest := rfl

/-- The loops that step over a hole, by the depth of its braces. -/
def skipHole (depth : Nat) (text : List Char) : Hole :=
  match text with
  | [] => ⟨[], [], false⟩
  | '{' :: rest => (skipHole (depth + 1) rest).after ['{']
  | '}' :: rest => if depth ≤ 1 then ⟨[], rest, true⟩ else (skipHole (depth - 1) rest).after ['}']
  | '"' :: rest =>
    (skipHole depth (skipHoleString rest).2).after ('"' :: (skipHoleString rest).1)
  | c :: rest => (skipHole depth rest).after [c]
termination_by text.length
decreasing_by
  all_goals simp_wf
  have hlen := skipHoleString_length rest
  omega

theorem skipHole_length (depth : Nat) (text : List Char) :
    (skipHole depth text).rest.length ≤ text.length := by
  fun_induction skipHole depth text with
  | case5 depth rest ih =>
    have hlen := skipHoleString_length rest
    rw [Hole.after_rest, List.length_cons]
    omega
  | _ => simp_all <;> omega

/-- The text in front of the first `"""` outside holes and escapes. -/
def findTripleInterpClose (text : List Char) : Option (List Char) :=
  match text with
  | '$' :: '{' :: rest =>
    let hole := skipHole 1 rest
    (findTripleInterpClose (skipHole 1 rest).rest).map fun before =>
      '$' :: '{' :: hole.inside ++ (if hole.closed then ['}'] else []) ++ before
  | '\\' :: c :: rest => (findTripleInterpClose rest).map fun before => '\\' :: c :: before
  | '"' :: '"' :: '"' :: _ => some []
  | c :: rest => (findTripleInterpClose rest).map (c :: ·)
  | [] => none
termination_by text.length
decreasing_by
  all_goals simp_wf
  all_goals have hlen := skipHole_length 1 rest
  all_goals omega

/-- The spaces a line starts with. -/
def indentOf : Nat := (text.takeWhile isSpace).length

/-- A run of text that is not empty. -/
def flushText (buf : List Char) (start stop : Nat) : List (RawToken × Span) :=
  if buf = [] then [] else [(.interpText (String.ofList buf), ⟨start, stop⟩)]

section

variable (scanHoleExpr : Nat → List Char → List (RawToken × Span) × List LexError)
  (margin openStart : Nat)

/-- The tokens and errors of the content from a byte on: at the start of a line the margin goes, a
hole ends the run of text in `buf`, and an escape is kept with the character behind it. -/
def scanText (pos : Nat) (lineStart : Bool) (buf : List Char) (textStart : Nat)
    (text : List Char) : List (RawToken × Span) × List LexError :=
  match lineStart, text with
  | _, [] => (flushText buf textStart pos, [])
  | true, text =>
    let stripped := min margin (indentOf text)
    let rest := text.drop stripped
    let errors :=
      if stripped < margin ∧ rest ≠ [] ∧ rest.head? ≠ some '\n' then
        [.multilineStringInsufficientIndent (Span.point pos)]
      else []
    let run := scanText (pos + stripped) false buf textStart (text.drop stripped)
    (run.1, errors ++ run.2)
  | false, '$' :: '{' :: rest =>
    let hole := skipHole 1 rest
    let start := pos + 2
    let stop := start + byteLen hole.inside
    let expr := scanHoleExpr start hole.inside
    let opened := flushText buf textStart pos ++ (.interpExprStart, ⟨pos, start⟩) :: expr.1
    if hole.closed then
      let run := scanText (stop + 1) false [] (stop + 1) (skipHole 1 rest).rest
      (opened ++ (.token .interpExprEnd, ⟨stop, stop + 1⟩) :: run.1, expr.2 ++ run.2)
    else (opened, .unterminatedInterpolation (Span.point openStart) :: expr.2)
  | false, '\\' :: c :: rest =>
    scanText (pos + 1 + c.utf8Size) false (buf ++ ['\\', c]) textStart rest
  | false, '\n' :: rest => scanText (pos + 1) true (buf ++ ['\n']) textStart rest
  | false, c :: rest => scanText (pos + c.utf8Size) false (buf ++ [c]) textStart rest
termination_by (text.length, if lineStart then 1 else 0)
decreasing_by
  all_goals simp_wf
  all_goals have hlen := skipHole_length 1 rest
  all_goals omega

/-- The tokens, the errors and the byte behind the string. -/
def scanInterpTripleBody (pos : Nat) (rest : List Char) :
    List (RawToken × Span) × List LexError × Nat :=
  match rest with
  | '\n' :: body =>
    match findTripleInterpClose body with
    | none =>
      let stop := pos + byteLen rest
      ([(.token .interpEnd, Span.point stop)],
        [.unterminatedMultilineString (Span.point openStart) "interpolated"], stop)
    | some rawBody =>
      let (content, margin, marginErrors) := contentAndMargin openStart rawBody
      let run := scanText scanHoleExpr margin openStart (pos + 1) true [] (pos + 1) content
      let close := pos + 1 + byteLen rawBody
      (run.1 ++ [(.token .interpEnd, ⟨close, close + 3⟩)], marginErrors ++ run.2, close + 3)
  | _ =>
    let consumed := skipToTripleQuoteClose pos rest
    ([(.token .interpEnd, Span.point (max (consumed - 3) pos))],
      [.multilineStringOpenContent ⟨openStart, pos + 1⟩], consumed)

end

end Ridge.Lexer
