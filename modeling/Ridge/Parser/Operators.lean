import Ridge.Parser.Chains

/-!
# The operator table

What the documented levels promise, as far as the parser's depth limit goes: trees read back from
their text, and chains of comparisons are refused.
-/

/-!
## Places of an expression

`ExprPlace m d pre m' d'`: when `parse_expr_bp` starts with the minimum `m` at depth `d` on a text that
begins with `pre`, behind `pre` it is called with `m'` at depth `d'`. An error there is the error of
the whole.
-/

namespace Ridge

open List

variable {ts pre : List (Token × Span)}

variable {other : Nat → Cursor → ParseM (Expr × Cursor)}

/-- Fields of an update, each with its comma. -/
def writeFieldsBefore (fields : List (String × Option Tree)) : List Token :=
  fields.flatMap fun f => .lowerIdent f.1 :: (Tree.writeValue f.2 ++ [.comma])

inductive ExprPlace : Nat → Nat → List (Token × Span) → Nat → Nat → Prop
  | here {m d} : ExprPlace m d [] m d
  /-- Right of an operator. -/
  | right {m d m' d' rbp : Nat} {op : BinOp} {lhs : Tree} {s : Span} {ts pre}
      (hclosed : lhs.Closed) (hleft : lhs.UpdatesLeft) (hlevel : op.leftLevel ≤ lhs.level)
      (hbp : infixBp op.token = some (op.level.bp, rbp, op)) (hm : m < op.level.bp)
      (hts : ts.map Prod.fst = lhs.write) (hd : d + (lhs.nesting + 1) ≤ maxParseDepth)
      (h : ExprPlace rbp (d + 1) pre m' d') : ExprPlace m d (ts ++ (op.token, s) :: pre) m' d'
  | minus {m d m' d' : Nat} {s : Span} {pre} (hd : d < maxParseDepth)
      (h : ExprPlace 19 (d + 1) pre m' d') : ExprPlace m d ((.minus, s) :: pre) m' d'
  | paren {m d m' d' : Nat} {s : Span} {pre} (hd : d < maxParseDepth)
      (h : ExprPlace 0 (d + 1) pre m' d') : ExprPlace m d ((.lParen, s) :: pre) m' d'
  /-- In the parentheses of an argument. -/
  | argument {m d m' d' : Nat} {callee : Tree} {args : List Tree} {s : Span} {ts₁ ts₂ pre}
      (hm : m < 20) (hcallee : (callee.Closed ∧ callee.level = .atom) ∧ callee.UpdatesLeft)
      (hargs : ∀ a ∈ args, (a.Closed ∧ a.level = .atom) ∧ a.UpdatesLeft)
      (hts₁ : ts₁.map Prod.fst = callee.write) (hts₂ : ts₂.map Prod.fst = Tree.writeArgs args)
      (hd : d + (max callee.nesting (Tree.nestingArgs args) + 1) ≤ maxParseDepth)
      (h : ExprPlace 0 (d + 1) pre m' d') :
      ExprPlace m d (ts₁ ++ (ts₂ ++ (.lParen, s) :: pre)) m' d'
  /-- The value of a field of an update. -/
  | field {m d m' d' : Nat} {base : Tree} {fields : List (String × Option Tree)} {text : String}
      {s₁ s₂ s₃ s₄ : Span} {ts₁ ts₂ pre} (hm : m < 10)
      (hbase : (base.Closed ∧ .update ≤ base.level) ∧ base.UpdatesLeft)
      (hfields : ∀ f ∈ fields, ∀ v ∈ f.2, v.Closed ∧ v.UpdatesLeft)
      (hts₁ : ts₁.map Prod.fst = base.write)
      (hts₂ : ts₂.map Prod.fst = writeFieldsBefore fields)
      (hd : d + (max base.nesting (Tree.nestingFields fields) + 1) ≤ maxParseDepth)
      (h : ExprPlace 0 (d + 1) pre m' d') :
      ExprPlace m d (ts₁ ++ (.kwWith, s₁) :: (.lBrace, s₂)
        :: (ts₂ ++ (.lowerIdent text, s₃) :: (.assign, s₄) :: pre)) m' d'

/-- A text that starts an operand. -/
def Starts (ts : List (Token × Span)) : Prop :=
  ∃ tok s ts', ts = (tok, s) :: ts' ∧ (startsAtom tok ∨ tok = .minus)

theorem starts_write {t : Tree} (h : t.Closed) (hts : ts.map Prod.fst = t.write)
    (rest : List (Token × Span)) : Starts (ts ++ rest) := by
  obtain ⟨tok, toks, hwrite, hstart, -⟩ := t.write_start h
  obtain ⟨⟨tok', s⟩, ts', rfl, hfst, -⟩ := map_eq_cons_iff.mp (hts.trans hwrite)
  obtain rfl : tok' = tok := hfst
  exact ⟨tok', s, _, rfl, hstart⟩

variable {m d m' d' : Nat} {rest : List (Token × Span)}

theorem ExprPlace.starts (h : ExprPlace m d pre m' d') (hrest : Starts rest) :
    Starts (pre ++ rest) := by
  cases h with
  | here => exact hrest
  | right hclosed _ _ _ _ hts => rw [append_assoc]; exact starts_write hclosed hts _
  | minus => exact ⟨.minus, _, _, rfl, .inr rfl⟩
  | paren => exact ⟨.lParen, _, _, rfl, .inl (.inl rfl)⟩
  | argument _ hcallee _ hts₁ => rw [append_assoc]; exact starts_write hcallee.1.1 hts₁ _
  | field _ hbase _ hts₁ => rw [append_assoc]; exact starts_write hbase.1.1 hts₁ _

variable {err : ParseError}

theorem paren_error {d bd : Nat} {s : Span} (hstart : Starts ts)
    (h : ∀ bd, Converges (fun n => parseExprBp other n 0 (textAt d bd ts)) (.error err)) :
    Converges (fun n => parseExprAtom12 other n (textAt d bd ((.lParen, s) :: ts)))
      (.error err) := by
  obtain ⟨tok, s', ts', rfl, htok⟩ := hstart
  exact atom12_paren_error htok (expr_error htok (h (bd + 1)))

theorem argument_error {args : List Tree}
    (hargs : ∀ a ∈ args, (a.Closed ∧ a.level = .atom) ∧ a.UpdatesLeft) (d bd : Nat) {s : Span}
    (hts : ts.map Prod.fst = Tree.writeArgs args) (hd : d + Tree.nestingArgs args ≤ maxParseDepth)

    (h : Converges (fun n => parseExprAtom12 other n (textAt d bd ((.lParen, s) :: pre))) (.error err)) :
    Converges (fun n => parseArgs other n (textAt d bd (ts ++ (.lParen, s) :: pre)))
      (.error err) ∧ startsAtom (Cursor.new (ts ++ (.lParen, s) :: pre)).peek := by
  induction args generalizing ts with
  | nil =>
    obtain rfl := map_eq_nil_iff.mp hts
    exact ⟨args_error rfl rfl h, .inl rfl⟩
  | cons a args ih =>
    obtain ⟨ts₁, ts₂, rfl, hts₁, hts₂⟩ := map_eq_append_iff.mp hts
    rw [Tree.nestingArgs] at hd
    obtain ⟨hrest, hnext⟩ := ih (fun b hb => hargs b (mem_cons_of_mem _ hb)) hts₂ (by omega)
    have ha := hargs a mem_cons_self
    obtain ⟨e, -, hatom⟩ := (reads_tree other a).atom ha.1.1 ha.2 ha.1.2 ts₁ d bd hts₁
      (by omega)
    have hread := hatom _ _ hnext.ne.2.2.2 (fieldChain_stop hnext.ne.2.1)
    obtain ⟨tok, toks, hwrite, -, hstart⟩ := a.write_start ha.1.1
    obtain ⟨⟨tok', s'⟩, ts', rfl, hfst, -⟩ := map_eq_cons_iff.mp (hts₁.trans hwrite)
    obtain rfl : tok' = tok := hfst
    have hstart := hstart (by rw [ha.1.2]; decide)
    rw [append_assoc]
    have hargs := fun h => args_cons h rfl hread hrest
    exact ⟨hargs hstart.arg, hstart⟩

theorem field_error {fields : List (String × Option Tree)}
    (hfields : ∀ f ∈ fields, ∀ v ∈ f.2, v.Closed ∧ v.UpdatesLeft) (d bd : Nat) (text : String)
    (s s' : Span) (hts : ts.map Prod.fst = writeFieldsBefore fields)
    (hd : d + Tree.nestingFields fields ≤ maxParseDepth)
    (h : Converges (fun n => parseExpr other n (textAt d bd pre)) (.error err)) :
    Converges (fun n => parseFieldInitList other n
      (textAt d bd (ts ++ (.lowerIdent text, s) :: (.assign, s') :: pre))) (.error err) := by
  induction fields generalizing ts with
  | nil =>
    obtain rfl := map_eq_nil_iff.mp hts
    exact fieldList_error h
  | cons f fields ih =>
    obtain ⟨name, value⟩ := f
    rw [writeFieldsBefore, flatMap_cons, cons_append, append_assoc] at hts
    obtain ⟨⟨tok, nameSpan⟩, ts', rfl, hname, hts'⟩ := map_eq_cons_iff.mp hts
    obtain rfl : tok = .lowerIdent name := hname
    obtain ⟨ts₁, ts₂, rfl, hts₁, hts₂⟩ := map_eq_append_iff.mp hts'
    obtain ⟨⟨tok, commaSpan⟩, ts₃, rfl, hcomma, hts₃⟩ := map_eq_cons_iff.mp hts₂
    obtain rfl : tok = .comma := hcomma
    rw [Tree.nestingFields] at hd
    have hdepth : d + Tree.nestingValue value ≤ maxParseDepth := by omega
    have hreads : ∀ v ∈ value, SpineReads other v ∧ v.Closed := fun v hv =>
      have hv := hfields _ mem_cons_self v hv
      ⟨(reads_tree other v).spine hv.1 hv.2, hv.1⟩
    obtain ⟨field, -, hvalue⟩ := fieldValue_read name nameSpan hreads d bd hts₁ hdepth
    have hmore := ih (fun g hg => hfields g (mem_cons_of_mem _ hg)) hts₃ (by omega)
    rw [cons_append, append_assoc]
    exact fieldList_more (hvalue ((.comma, commaSpan)
      :: (ts₃ ++ (.lowerIdent text, s) :: (.assign, s') :: pre)) rfl) rfl hmore

theorem ExprPlace.error (h : ExprPlace m d pre m' d') (hrest : Starts rest)
    (herr : ∀ bd, Converges (fun n => parseExprBp other n m' (textAt d' bd rest)) (.error err))
    (bd : Nat) :
    Converges (fun n => parseExprBp other n m (textAt d bd (pre ++ rest))) (.error err) := by
  induction h generalizing bd with
  | here => exact herr bd
  | @right m d m' d' rbp op lhs s ts pre hclosed hleft hlevel hbp hm hts hd h ih =>
    obtain ⟨e, htree, hread⟩ := (reads_tree other lhs).spine hclosed hleft ts (d + 1) bd
      hts (by omega)
    have hchain : isNonAssoc op = true → chains op e = false := fun hnon =>
      chains_of_level op htree ((left_of_nonAssoc hnon).1 ▸ hlevel)
    have htail : Converges (fun n => parseExprTail other n m
        (textAt (d + 1) bd ((op.token, s) :: (pre ++ rest))) e) (.error err) :=
      tail_op_error rfl hbp hm hchain (ih herr bd)
    have hfollows : MayFollow ((op.token, s) :: (pre ++ rest)) lhs.level :=
      ⟨op_follows op, le_trans (power_le_left op) (Level.stop_mono hlevel)⟩
    have hm' := lt_of_lt_of_le hm
      (Level.bp_mono (Level.le_trans (level_le_left op) hlevel))
    have hspine := hread _ m _ hm' hfollows htail
    rw [append_assoc]
    exact exprBp_of_spine (by omega) hspine
  | minus hd h ih =>
    refine exprBp_of_spine hd (spine_error ((ih herr bd).turn₁ fun n hn => ?_))
    rw [parsePrefix, cons_append, if_pos peek_cons]
    exact bind_error hn
  | paren hd h ih =>
    refine exprBp_of_spine hd (spine_error (prefix_atom_error ?_
      (paren_error (h.starts hrest) fun bd => ih herr bd)))
    exact nofun
  | @argument m d m' d' callee args s ts₁ ts₂ pre hm hcallee hargs hts₁ hts₂ hd h ih =>
    obtain ⟨e, -, hatom⟩ := (reads_tree other callee).atom hcallee.1.1 hcallee.2
      hcallee.1.2 ts₁ (d + 1) bd hts₁ (by omega)
    have hparen : Converges (fun n => parseExprAtom12 other n
        (textAt (d + 1) bd ((.lParen, s) :: (pre ++ rest)))) (.error err) :=
      paren_error (h.starts hrest) fun bd => ih herr bd
    obtain ⟨hargsErr, hnext⟩ := argument_error hargs (d + 1) bd hts₂ (by omega) hparen
    have hread := hatom _ _ hnext.ne.2.2.2 (fieldChain_stop hnext.ne.2.1)
    obtain ⟨tok, toks, hwrite, -, hstart⟩ := callee.write_start hcallee.1.1
    obtain ⟨⟨tok', s'⟩, ts', rfl, hfst, -⟩ := map_eq_cons_iff.mp (hts₁.trans hwrite)
    obtain rfl : tok' = tok := hfst
    have hstart := hstart (by rw [hcallee.1.2]; decide)
    rw [append_assoc, append_assoc]
    refine exprBp_of_spine (by omega) (spine_after_operand (prefix_atom ?_ hread)
      (tail_call_error hm hnext.arg rfl hnext.ne.2.2.1 hargsErr))
    exact hstart.ne.1
  | @field m d m' d' base fields text s₁ s₂ s₃ s₄ ts₁ ts₂ pre hm hbase hfields hts₁ hts₂ hd h ih =>
    obtain ⟨e, -, hread⟩ := (reads_tree other base).spine hbase.1.1 hbase.2 ts₁ (d + 1)
      bd hts₁ (by omega)
    obtain ⟨tok, s, ts', hstart, htok⟩ := h.starts hrest
    have hvalue : Converges (fun n => parseExpr other n (textAt (d + 1) bd (pre ++ rest)))
        (.error err) := by
      have hbp := ih herr bd
      rw [hstart] at hbp ⊢
      exact expr_error htok hbp
    have hlist := field_error hfields (d + 1) bd text s₃ s₄ hts₂ (by omega) hvalue
    have htail : Converges (fun n => parseExprTail other n m (textAt (d + 1) bd
        ((.kwWith, s₁) :: (.lBrace, s₂)
          :: (ts₂ ++ (.lowerIdent text, s₃) :: (.assign, s₄) :: (pre ++ rest)))) e) (.error err) :=
      tail_with_error rfl hm (expect_text rfl) hlist
    have hfollows : MayFollow ((.kwWith, s₁) :: (.lBrace, s₂)
        :: (ts₂ ++ (.lowerIdent text, s₃) :: (.assign, s₄) :: (pre ++ rest))) base.level :=
      ⟨rfl, le_trans (show Token.power .kwWith ≤ Level.stop .update by decide)
        (Level.stop_mono hbase.1.2)⟩
    have hspine := hread _ m _ (lt_of_lt_of_le hm (Level.bp_mono hbase.1.2)) hfollows htail
    rw [append_assoc, cons_append, cons_append, append_assoc]
    exact exprBp_of_spine (by omega) hspine

/-- The text of the tree, with the parentheses that the levels require, reads as the tree. -/
def Tree.ReadsBack (other : Nat → Cursor → ParseM (Expr × Cursor)) (t : Tree) : Prop :=
  ∀ (ts rest : List (Token × Span)) (bd : Nat), ts.map Prod.fst = t.close.write →
    (Cursor.new rest).peek.endsExpr = true → ∃ e : Expr, e.IsTree t.close ∧
      Converges (fun fuel => parseExpr other fuel (textAt 0 bd (ts ++ rest)))
        (.ok (e, textAt 0 bd rest))

/-- Behind `pre`, the left operand, its comparison and a second one are refused with P009. -/
def Comparison.Refused (other : Nat → Cursor → ParseM (Expr × Cursor))
    (pre : List (Token × Span)) (lhs : Tree) (c : Comparison) (next : Token) : Prop :=
  ∀ (ts₁ ts₂ rest : List (Token × Span)) (s : Span) (bd : Nat),
    ts₁.map Prod.fst = (lhs.close.atLeast .update).write → ts₂.map Prod.fst = c.write →
    Converges
      (fun fuel => parseExpr other fuel (textAt 0 bd (pre ++ (ts₁ ++ (ts₂ ++ (next, s) :: rest)))))
      (.error (.nonAssociativeChain s (c.refusedOp next)))

/-! ## Too many parentheses -/

/-- A name in `n` pairs of parentheses. -/
def Tree.parens : Nat → Tree
  | 0 => name "a"
  | n + 1 => paren (parens n)

theorem Tree.parens_write (n : Nat) :
    (Tree.parens n).write = replicate n .lParen ++
      (.lowerIdent "a" :: replicate n .rParen) := by
  induction n with
  | zero => rfl
  | succ n ih =>
    rw [Tree.parens, Tree.write, ih, replicate_succ, cons_append, append_assoc,
      cons_append]
    exact congrArg _ (congrArg _ (congrArg _ (replicate_succ' (n := n)).symm))

theorem Tree.parens_close (n : Nat) : (Tree.parens n).close = Tree.parens n := by
  induction n with
  | zero => rfl
  | succ n ih => rw [Tree.parens, Tree.close, ih]

theorem ExprPlace.parens (s : Span) (d n : Nat) (h : d + n ≤ maxParseDepth) :
    ExprPlace 0 d (replicate n (.lParen, s)) 0 (d + n) := by
  induction n generalizing d with
  | zero => exact .here
  | succ n ih =>
    have hin := ih (d + 1) (by omega)
    rw [show d + 1 + n = d + (n + 1) by omega] at hin
    exact .paren (by omega) hin

theorem parens_tooDeep (other : Nat → Cursor → ParseM (Expr × Cursor)) (s : Span) (text : String)
    (rest : List (Token × Span)) :
    Converges (fun fuel => parseExpr other fuel (textAt 0 0
      (replicate maxParseDepth (.lParen, s) ++ (.lowerIdent text, s) :: rest)))
      (.error (.expressionTooDeep s maxParseDepth)) := by
  have hstarts : Starts ((.lowerIdent text, s) :: rest) := ⟨_, _, _, rfl, .inl (.inr (.inl ⟨_, rfl⟩))⟩
  have hplace := ExprPlace.parens s 0 maxParseDepth (by omega)
  rw [Nat.zero_add] at hplace
  have herr : ∀ bd, Converges
      (fun n => parseExprBp other n 0 (textAt maxParseDepth bd ((.lowerIdent text, s) :: rest)))
      (.error (.expressionTooDeep s maxParseDepth)) :=
    fun bd => ⟨1, fun n hn => by
      obtain ⟨m, rfl⟩ := Nat.exists_eq_add_of_le' hn
      rfl⟩
  have hbp := hplace.error hstarts herr 0
  obtain ⟨tok, s', ts', hstart, htok⟩ := hplace.starts hstarts
  rw [hstart] at hbp ⊢
  exact expr_error htok hbp

/-! ## A predicate -/

/-- `_` after `is`. -/
def PredicateText.wildcard : PredicateText where
  toks := [.underscore]
  nesting := 1
  pattern spans := .wildcard (spans.headD .origin)
  reads ts rest depth bd hts hfollows hcons hdepth := by
    obtain ⟨⟨tok, s⟩, ts', rfl, hfst, hnil⟩ := List.map_eq_cons_iff.mp hts
    obtain rfl : tok = .underscore := hfst
    obtain rfl := List.map_eq_nil_iff.mp hnil
    have hat : (textAt (depth + 1) bd rest).peek ≠ .at := fun h => by
      rw [show (Cursor.new rest).peek = .at from h] at hfollows
      cases hfollows
    refine ⟨2, fun n hn => ?_⟩
    obtain ⟨m, rfl⟩ := Nat.exists_eq_add_of_le' hn
    have halias : parseAlias (m + 1) (.wildcard s) (textAt (depth + 1) bd rest)
        = pure (.wildcard s, textAt (depth + 1) bd rest) := if_neg hat
    show parsePattern (m + 2) (textAt depth bd ((.underscore, s) :: rest)) = _
    rw [parsePattern, enter_text (by omega)]
    show (parseAlias (m + 1) (.wildcard s) (textAt (depth + 1) bd rest) >>= _ :
      ParseM (Pattern × Cursor)) = _
    rw [halias]
    exact if_neg hcons
  noBinding _ := rfl
  noSlice _ := rfl

/-- No keyword-led forms. -/
def noForms (_ : Nat) (_ : Cursor) : ParseM (Expr × Cursor) := outOfFuel

/-! ## The table -/

/-- Operator precedence is the documented table, for trees within the depth limit: a tree reads back
from its text, if no update stands right of a relational operator; a second comparison is refused
wherever an expression may stand, if it is no relational operator behind an equality and the first
has no update on the right of a relational operator. -/
theorem operator_precedence (other : Nat → Cursor → ParseM (Expr × Cursor)) :
    (∀ t : Tree, t.close.bare = t.bare ∧ (t.UpdatesLeft → t.close.nesting < maxParseDepth →
      t.ReadsBack other)) ∧
    ∀ (pre : List (Token × Span)) (m d : Nat) (lhs : Tree) (c : Comparison) (next : Token),
      ExprPlace 0 0 pre m d → m < 7 → lhs.UpdatesLeft → c.Regular next → comparesNext next →
      d + (max (lhs.close.atLeast .update).nesting c.nesting + 1) ≤ maxParseDepth →
      c.Refused other pre lhs next := by
  refine ⟨fun t => ⟨t.bare_close, fun hleft hdepth ts rest bd hts hends => ?_⟩, ?_⟩
  · have hclosed := t.closed_close
    have hspine := (reads_tree other t.close).spine hclosed (Tree.updatesLeft_close hleft)
    obtain ⟨e, htree, hread⟩ := hspine.expr hclosed 0 bd hts (by omega)
    exact ⟨e, htree, hread rest hends⟩
  · intro pre m d lhs c next hplace hm hleft hregular hnext hdepth ts₁ ts₂ rest s bd hts₁ hts₂
    have hstarts : Starts (ts₁ ++ (ts₂ ++ (next, s) :: rest)) :=
      starts_write (Tree.closed_atLeast lhs.closed_close) hts₁ _
    obtain ⟨tok, s', ts', hstart, htok⟩ := hplace.starts hstarts
    have herr : ∀ bd, Converges
        (fun n => parseExprBp other n m (textAt d bd (ts₁ ++ (ts₂ ++ (next, s) :: rest))))
        (.error (.nonAssociativeChain s (c.refusedOp next))) := fun bd =>
      chain_refused hleft hregular hnext hts₁ hts₂ hm hdepth bd s rest
    have hbp := hplace.error hstarts herr bd
    rw [hstart] at hbp ⊢
    exact expr_error htok hbp

/-- `a is _ && (b + c) * d` reads back, and `(a is _ == …` is refused. -/
theorem operator_precedence_predicate :
    (Tree.binary .and (.is (.name "a") .wildcard)
      (.binary .mul (.binary .add (.name "b") (.name "c")) (.name "d"))).ReadsBack noForms ∧
    (Comparison.is .wildcard).Refused noForms [(.lParen, .origin)] (.name "a") .eqEq := by
  refine ⟨((operator_precedence noForms).1 _).2 ?_ (by decide), ?_⟩
  · simp [Tree.UpdatesLeft, BinOp.level]
  · exact (operator_precedence noForms).2 _ 0 1 _ _ _ (.paren (by decide) .here) (by decide) trivial
      trivial (.inr rfl) (by decide)

/-- `a < b with { x }` -/
def Tree.updateRight : Tree := binary .lt (name "a") (.with (name "b") [("x", none)])

theorem Tree.updateRight_regrouped : Converges (fun fuel => parseExpr noForms fuel (textAt 0 0
    (Tree.updateRight.close.write.map (·, Span.origin) ++ [(.eof, Span.origin)])))
    (.ok (.with (.binary .lt (.ident ⟨"a", .origin⟩) (.ident ⟨"b", .origin⟩) .origin)
      [⟨⟨"x", .origin⟩, none, .origin⟩] .origin, textAt 0 0 [(.eof, .origin)])) := by
  refine ⟨16, fun n hn => ?_⟩
  obtain ⟨m, rfl⟩ := Nat.exists_eq_add_of_le' hn
  rfl

/-- `a == b < c` reads as `a == (b < c)`. -/
theorem relational_right_accepted : Converges (fun fuel => parseExpr noForms fuel (textAt 0 0
    ([Token.lowerIdent "a", .eqEq, .lowerIdent "b", .lt, .lowerIdent "c", .eof].map (·, .origin))))
    (.ok (.binary .eq (.ident ⟨"a", .origin⟩)
      (.binary .lt (.ident ⟨"b", .origin⟩) (.ident ⟨"c", .origin⟩) .origin) .origin,
      textAt 0 0 [(.eof, .origin)])) := by
  refine ⟨16, fun n hn => ?_⟩
  obtain ⟨m, rfl⟩ := Nat.exists_eq_add_of_le' hn
  rfl

/-- The conditions are needed: parentheses at the depth limit are refused, an update right of `<`
takes the comparison with it, and `<` behind `==` is accepted. -/
theorem operator_precedence_unconditional :
    ¬ (Tree.parens maxParseDepth).ReadsBack noForms ∧ ¬ Tree.updateRight.ReadsBack noForms ∧
      ¬ (Comparison.op .eq rfl (.name "b")).Refused noForms [] (.name "a") .lt := by
  refine ⟨fun h => ?_, fun h => ?_, fun h => ?_⟩
  · obtain ⟨e, -, hread⟩ := h
      ((Tree.parens maxParseDepth).write.map (·, Span.origin)) [(.eof, .origin)] 0
      (by rw [Tree.parens_close, map_map]; exact map_id _) rfl
    have hdeep := parens_tooDeep noForms Span.origin "a"
      ((replicate maxParseDepth .rParen).map (·, Span.origin) ++ [(.eof, .origin)])
    rw [Tree.parens_write, map_append, map_replicate, append_assoc] at hread
    cases hread.eq_of_eq hdeep
  · obtain ⟨e, htree, hread⟩ := h (Tree.updateRight.close.write.map (·, Span.origin))
      [(.eof, .origin)] 0 rfl rfl
    have he := hread.eq_of_eq Tree.updateRight_regrouped
    cases he
    cases htree
  · have hrefused := h [(.lowerIdent "a", .origin)] [(.eqEq, .origin), (.lowerIdent "b", .origin)]
      [(.lowerIdent "c", .origin), (.eof, .origin)] .origin 0 rfl rfl
    cases hrefused.eq_of_eq relational_right_accepted

end Ridge
