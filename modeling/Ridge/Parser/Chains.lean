import Ridge.Parser.Precedence

/-!
# Chains of comparisons

Two comparisons in a row without parentheses are refused with P009, wherever an expression may
stand. The refusal is at the second operator, so it does not matter what follows it.
-/

namespace Ridge

variable {other : Nat → Cursor → ParseM (Expr × Cursor)}

/-- A comparison after its left operand: an operator with its right one, or a predicate. -/
inductive Comparison where
  | op (op : BinOp) (h : isNonAssoc op = true) (rhs : Tree)
  | is (pattern : PredicateText)

/-- The text of a comparison's token in an error: `is`, if the token is no infix operator. -/
def nextOpText (next : Token) : String :=
  match infixBp next with
  | some (_, _, op) => opStaticStr op
  | none => "is"

theorem nextOpText_of_bp {next : Token} {lbp rbp : Nat} {op : BinOp}
    (h : infixBp next = some (lbp, rbp, op)) : nextOpText next = opStaticStr op := by
  rw [nextOpText, h]

namespace Comparison

def write : Comparison → List Token
  | op o _ rhs => o.token :: (rhs.close.atLeast .update).write
  | is pattern => .kwIs :: pattern.toks

def nesting : Comparison → Nat
  | op _ _ rhs => (rhs.close.atLeast .update).nesting + 1
  | is pattern => pattern.nesting

/-- Nothing is said of a relational operator behind an equality, nor of an update behind a
relational operator: the parser takes those another way than the levels do. -/
def Regular : Comparison → Token → Prop
  | op o _ rhs, next =>
    ¬ (o.level = .relational ∧ rhs.level = .update) ∧ rhs.UpdatesLeft ∧
      (o.level = .equality → next.power = 7)
  | is _, _ => True

/-- The operator that the refusal names: the predicate's own, else the second one. -/
def refusedOp : Comparison → Token → String
  | is _, _ => "is"
  | op _ _ _, next => nextOpText next

end Comparison

/-! ## The second operator -/

section Second

variable {m : Nat} {cur : Cursor} {lhs : Expr}

theorem tail_refuses (hcmp : comparisonExpr lhs = true) (hnext : comparesNext cur.peek)
    (hm : m < 7) : Converges (fun n => parseExprTail other n m cur lhs)
      (.error (.nonAssociativeChain cur.span (nextOpText cur.peek))) := by
  by_cases his : cur.peek = .kwIs
  · have hleft : Converges (fun n => parseIsPredicate n cur lhs)
        (.error (.nonAssociativeChain cur.span "is")) := by
      refine ⟨0, fun n _ => ?_⟩
      show parseIsPredicate n cur lhs = _
      rw [parseIsPredicate, hcmp]
      rfl
    rw [show nextOpText cur.peek = "is" by rw [his]; rfl]
    refine hleft.turn₁ fun n hn => ?_
    rw [parseExprTail, if_pos ⟨his, hm⟩]
    exact bind_error hn
  · obtain ⟨lbp, rbp, op, hbp, hop⟩ : ∃ lbp rbp op,
        infixBp cur.peek = some (lbp, rbp, op) ∧ isNonAssoc op = true := by
      have hany := hnext.resolve_left his
      cases hbp : infixBp cur.peek with
      | none =>
        rw [hbp] at hany
        cases hany
      | some bp =>
        rw [hbp] at hany
        exact ⟨bp.1, bp.2.1, bp.2.2, rfl, hany⟩
    have hlbp : ¬ lbp ≤ m := by
      have hseven := seven_le_power hnext
      rw [power_of_bp hbp] at hseven
      omega
    have hchain : (isNonAssoc op && chains op lhs) = true := by
      rw [hop, Bool.true_and]
      cases lhs with
      | is => rfl
      | binary prev =>
        show (isNonAssoc prev && _) = true
        rw [show isNonAssoc prev = true from hcmp]
        rfl
      | _ => exact nomatch hcmp
    rw [nextOpText_of_bp hbp]
    refine tail_of_infix ?_ (fun h => absurd h his) (fun h => ?_) (.turn fun n => ?_)
    · rw [Token.follows, decide_eq_true (by rw [power_of_bp hbp]; omega), Bool.or_true]
    · rw [h] at hbp
      cases hbp
    · rw [parseInfix, hbp]
      show (if lbp ≤ m then _ else _) = _
      rw [if_neg hlbp, if_pos hchain]
      rfl

end Second

/-! ## A chain -/

theorem nonAssoc_powers {op : BinOp} (h : isNonAssoc op = true) :
    (op.level = .equality ∧ infixBp op.token = some (7, 8, op)) ∨
      (op.level = .relational ∧ infixBp op.token = some (9, 10, op)) := by
  revert h
  cases op <;> decide

theorem compares_token {op : BinOp} (h : isNonAssoc op = true) : comparesNext op.token := by
  rcases nonAssoc_powers h with ⟨-, hbp⟩ | ⟨-, hbp⟩
  · exact .inr (by rw [hbp]; exact h)
  · exact .inr (by rw [hbp]; exact h)

theorem follows_of_compares {tok : Token} (h : comparesNext tok) :
    tok.follows = true ∧ tok ≠ .colonColon ∧ tok.power ≤ 9 := by
  rcases h with rfl | hnext
  · exact ⟨rfl, nofun, by decide⟩
  · cases tok <;> first
      | exact absurd (show false = true from hnext) Bool.false_ne_true
      | exact ⟨rfl, nofun, by decide⟩

/-- A chain in its own call of `parse_expr_bp`, at any minimum that leaves comparisons to it. -/
theorem chain_refused {lhs : Tree} {c : Comparison} {tok : Token} (hleft : lhs.UpdatesLeft)
    (hregular : c.Regular tok) (hnext : comparesNext tok) {ts₁ ts₂ : List (Token × Span)}
    (hts₁ : ts₁.map Prod.fst = (lhs.close.atLeast .update).write)
    (hts₂ : ts₂.map Prod.fst = c.write) {d m : Nat} (hm : m < 7)
    (hd : d + (max (lhs.close.atLeast .update).nesting c.nesting + 1) ≤ maxParseDepth) (bd : Nat)
    (s : Span) (rest : List (Token × Span)) :
    Converges (fun n => parseExprBp other n m (textAt d bd (ts₁ ++ (ts₂ ++ (tok, s) :: rest))))
      (.error (.nonAssociativeChain s (c.refusedOp tok))) := by
  have hclosed := Tree.closed_atLeast (l := .update) (Tree.closed_close lhs)
  have hlevel := Tree.level_atLeast .update lhs.close
  have hspine := (reads_tree other (lhs.close.atLeast .update)).spine hclosed
    (Tree.updatesLeft_atLeast (Tree.updatesLeft_close hleft))
  obtain ⟨e, htree, hread⟩ := hspine ts₁ (d + 1) bd hts₁ (by omega)
  have hstop : ∀ tok : Token, comparesNext tok →
      tok.power ≤ (lhs.close.atLeast .update).level.stop := fun tok h =>
    le_trans (le_trans (follows_of_compares h).2.2 (show 9 ≤ Level.stop .update by decide))
      (Level.stop_mono hlevel)
  have hm' : m < (lhs.close.atLeast .update).level.bp :=
    lt_of_lt_of_le (lt_of_lt_of_le hm (show 7 ≤ Level.bp .update by decide)) (Level.bp_mono hlevel)
  have hop : Converges
      (fun n => parseExprTail other n m (textAt (d + 1) bd (ts₂ ++ (tok, s) :: rest)) e)
      (.error (.nonAssociativeChain s (c.refusedOp tok))) := by
    cases c with
    | is pattern =>
      obtain ⟨⟨tok', opSpan⟩, ts₃, rfl, hop, hts₃⟩ := List.map_eq_cons_iff.mp hts₂
      obtain rfl : tok' = .kwIs := hop
      have hd' : d + 1 + pattern.nesting ≤ maxParseDepth := by
        rw [Comparison.nesting] at hd
        omega
      have hpat := pattern.reads ts₃ ((tok, s) :: rest) (d + 1) bd hts₃
        (follows_of_compares hnext).1 (follows_of_compares hnext).2.1 hd'
      have hrefuse : Converges (fun n => parseExprTail other n m
          (textAt (d + 1) bd ((.kwIs, opSpan) :: (ts₃ ++ (tok, s) :: rest))) e)
          (.error (.nonAssociativeChain (textAt (d + 1) bd ((tok, s) :: rest)).span "is")) := by
        have hpred : Converges (fun n => parseIsPredicate n
            (textAt (d + 1) bd ((.kwIs, opSpan) :: (ts₃ ++ (tok, s) :: rest))) e)
            (.error (.nonAssociativeChain (textAt (d + 1) bd ((tok, s) :: rest)).span "is")) :=
          isPredicate_chain_right (comparisonExpr_of_level htree hlevel) hpat
            (pattern.noBinding _) (pattern.noSlice _) hnext
        refine hpred.turn₁ fun n hn => ?_
        rw [parseExprTail, if_pos ⟨rfl, hm⟩]
        exact bind_error hn
      exact hrefuse
    | op o hnon rhs =>
      obtain ⟨⟨tok', opSpan⟩, ts₃, rfl, hop, hts₃⟩ := List.map_eq_cons_iff.mp hts₂
      obtain rfl : tok' = o.token := hop
      rw [Comparison.nesting] at hd
      have hlevelR := Tree.level_atLeast .update rhs.close
      have hreadR := (reads_tree other (rhs.close.atLeast .update)).spine
        (Tree.closed_atLeast (Tree.closed_close rhs))
        (Tree.updatesLeft_atLeast (Tree.updatesLeft_close hregular.2.1))
      obtain ⟨er, htreeR, hrhs⟩ := hreadR.exprBp (d + 1) bd hts₃ (by omega)
      obtain ⟨rbp, hinfix, hstopR, hbound⟩ := infix_table o
      have hpowerR : tok.power ≤ rbp := by
        rcases nonAssoc_powers hnon with ⟨ho, hbp⟩ | ⟨-, hbp⟩
        · have hrbp : 8 = rbp := congrArg (·.2.1) (Option.some.inj (hbp.symm.trans hinfix))
          have hseven := hregular.2.2 ho
          omega
        · have hrbp : 10 = rbp := congrArg (·.2.1) (Option.some.inj (hbp.symm.trans hinfix))
          have hnine := (follows_of_compares hnext).2.2
          omega
      have hupdate : ¬ (o.level = .relational ∧ (rhs.close.atLeast .update).level = .update) := by
        rintro ⟨ho, hr⟩
        refine hregular.1 ⟨ho, ?_⟩
        rw [Tree.atLeast] at hr
        by_cases hl : Level.update ≤ rhs.close.level
        · rwa [if_pos hl, Tree.level_close] at hr
        · rw [if_neg hl] at hr
          cases hr
      have hrhs := hrhs ((tok, s) :: rest) rbp
        (hbound _ ((left_of_nonAssoc hnon).2 ▸ hlevelR) hupdate)
        ⟨(follows_of_compares hnext).1, le_trans (le_trans (follows_of_compares hnext).2.2
          (show 9 ≤ Level.stop .update by decide)) (Level.stop_mono hlevelR)⟩ hpowerR
      -- The comparison is read; the second operator is refused.
      have hpipe : o ≠ .pipe := by
        rintro rfl
        cases hnon
      have hrefuse : Converges (fun n => parseExprTail other n m
          (textAt (d + 1) bd ((tok, s) :: rest))
          (.binary o e er ((e.span.merge er.span).merge opSpan)))
          (.error (.nonAssociativeChain s (nextOpText tok))) := tail_refuses hnon hnext hm
      refine tail_op rfl hinfix ?_ (fun _ => chains_of_level o htree hlevel) hrhs
        (fun _ => isIs_of_level htreeR hlevelR) (if_neg hpipe).symm hrefuse
      refine lt_of_lt_of_le hm ?_
      rcases nonAssoc_powers hnon with ⟨ho, -⟩ | ⟨ho, -⟩ <;> rw [ho] <;> decide
  have hhead : comparesNext (Cursor.new (ts₂ ++ (tok, s) :: rest)).peek := by
    cases c with
    | is pattern =>
      obtain ⟨⟨tok', opSpan⟩, ts₃, rfl, hop, -⟩ := List.map_eq_cons_iff.mp hts₂
      exact .inl hop
    | op o hnon rhs =>
      obtain ⟨⟨tok', opSpan⟩, ts₃, rfl, hop, -⟩ := List.map_eq_cons_iff.mp hts₂
      obtain rfl : tok' = o.token := hop
      exact compares_token hnon
  exact exprBp_of_spine (by omega)
    (hread _ m _ hm' ⟨(follows_of_compares hhead).1, hstop _ hhead⟩ hop)

/-! ## Where a chain may stand

An error of an inner call is the error of the outer one. -/

section Errors

variable {m d bd : Nat} {cur cur' : Cursor} {lhs e : Expr} {err : ParseError} {tok : Token}
  {s : Span} {ts : List (Token × Span)}

theorem spine_error (h : Converges (fun n => parsePrefix other n cur) (.error err)) :
    Converges (fun n => parseSpine other n m cur) (.error err) := by
  obtain ⟨N, hN⟩ := h
  exact ⟨N, fun n hn => bind_error (hN n hn)⟩

theorem prefix_atom_error (hminus : cur.peek ≠ .minus)
    (h : Converges (fun n => parseExprAtom12 other n cur) (.error err)) :
    Converges (fun n => parsePrefix other n cur) (.error err) := by
  refine h.turn₁ fun n hn => ?_
  rw [parsePrefix, if_neg hminus]
  exact hn

theorem expr_error (hstart : startsAtom cur.peek ∨ cur.peek = .minus)
    (h : Converges (fun n => parseExprBp other n 0 cur) (.error err)) :
    Converges (fun n => parseExpr other n cur) (.error err) :=
  expr_of_exprBp (hstart.elim .inr .inl) h nofun

theorem atom12_paren_error {open_ : Span} (hstart : startsAtom tok ∨ tok = .minus)
    (h : Converges (fun n => parseExpr other n (textAt d (bd + 1) ((tok, s) :: ts))) (.error err)) :
    Converges (fun n => parseExprAtom12 other n (textAt d bd ((.lParen, open_) :: (tok, s) :: ts)))
      (.error err) := by
  have hinner : Converges
      (fun n => parseParenInner other n open_ (textAt d (bd + 1) ((tok, s) :: ts))) (.error err) := by
    refine h.turn₁ fun n hn => ?_
    rw [parseParenInner]
    exact bind_error hn
  have hparen : Converges
      (fun n => parseParenExpr other n (textAt d bd ((.lParen, open_) :: (tok, s) :: ts)))
      (.error err) := by
    refine hinner.turn₁ fun n hn => ?_
    rw [parenExpr_inner hstart]
    exact bind_error hn
  have hatom : Converges
      (fun n => parseExprAtom other n (textAt d bd ((.lParen, open_) :: (tok, s) :: ts)))
      (.error err) := by
    refine hparen.turn₁ fun n hn => ?_
    rw [parseExprAtom]
    exact hn
  refine hatom.turn₁ fun n hn => ?_
  rw [parseExprAtom12]
  exact bind_error hn

theorem tail_op_error {op : BinOp} {lbp rbp : Nat} (hpeek : cur.peek = op.token)
    (hbp : infixBp op.token = some (lbp, rbp, op)) (hm : m < lbp)
    (hchain : isNonAssoc op = true → chains op lhs = false)
    (h : Converges (fun n => parseExprBp other n rbp cur.bump) (.error err)) :
    Converges (fun n => parseExprTail other n m cur lhs) (.error err) := by
  refine tail_of_infix (hpeek ▸ op_follows op) (fun hc => ?_) (fun hc => ?_)
    (h.turn₁ fun n hn => ?_)
  · rw [hpeek] at hc
    cases op <;> exact nomatch hc
  · rw [hpeek] at hc
    cases op <;> exact nomatch hc
  · have hchain' : ¬ (isNonAssoc op && chains op lhs) = true := by
      cases hop : isNonAssoc op with
      | false => simp
      | true => simp [hchain hop]
    rw [parseInfix, hpeek, hbp]
    show (if lbp ≤ m then _ else _) = _
    rw [if_neg (Nat.not_le.mpr hm), if_neg hchain']
    exact bind_error hn

theorem args_error (h : canStartArgAtom cur.peek = true) (hflat : cur.noLayoutArm = false)
    (harg : Converges (fun n => parseExprAtom12 other n cur) (.error err)) :
    Converges (fun n => parseArgs other n cur) (.error err) := by
  refine harg.turn₁ fun n hn => ?_
  have hends : armEnds cur = false := by
    rw [armEnds, hflat]
    rfl
  rw [parseArgs, h, hends]
  exact bind_error hn

theorem tail_call_error (hm : m < 20) (harg : canStartArgAtom cur.peek = true)
    (hflat : cur.noLayoutArm = false) (hbrack : cur.peek ≠ .lBrack)
    (hargs : Converges (fun n => parseArgs other n cur) (.error err)) :
    Converges (fun n => parseExprTail other n m cur lhs) (.error err) := by
  refine hargs.turn₁ fun n hn => ?_
  rw [tail_args hm harg hflat hbrack]
  exact bind_error hn

theorem tail_with_error {open_ : Span} {curOpen : Cursor} (hpeek : cur.peek = .kwWith)
    (hm : m < 10) (hopen : cur.bump.expect .lBrace "\x7b" = pure (open_, curOpen))
    (h : Converges (fun n => parseFieldInitList other n curOpen) (.error err)) :
    Converges (fun n => parseExprTail other n m cur lhs) (.error err) := by
  refine h.turn₁ fun n hn => ?_
  rw [tail_fields hpeek hm hopen]
  exact bind_error hn

theorem fieldList_error {text : String} {assign : Span}
    (h : Converges (fun n => parseExpr other n (textAt d bd ts)) (.error err)) :
    Converges (fun n => parseFieldInitList other n
      (textAt d bd ((.lowerIdent text, s) :: (.assign, assign) :: ts))) (.error err) := by
  have hvalue : Converges
      (fun n => parseFieldValue other n ⟨text, s⟩ (textAt d bd ((.assign, assign) :: ts)))
      (.error err) := by
    refine h.turn₁ fun n hn => ?_
    rw [parseFieldValue, if_pos peek_cons]
    exact bind_error hn
  refine hvalue.turn₁ fun n hn => ?_
  rw [parseFieldInitList, if_neg (by rw [peek_cons]; exact nofun)]
  exact bind_error hn

end Errors

end Ridge
