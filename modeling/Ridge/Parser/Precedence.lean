import Ridge.Parser.Closed

/-!
# Operator precedence

The text of a closed tree reads as the tree. By induction on the tree: the spine of `parse_expr_bp`
reads the tree and goes on with what follows, whatever that comes to, as long as the minimum leaves
the tree's operators to it and what follows binds no tighter than the tree's own operators.
-/

namespace Ridge

open List

variable {ts : List (Token × Span)}

variable {other : Nat → Cursor → ParseM (Expr × Cursor)}

/-! ## Shapes of what was read -/

variable {t : Tree}

variable {e : Expr}

theorem comparisonExpr_of_level (h : e.IsTree t) (hl : .update ≤ t.level) :
    comparisonExpr e = false := by
  cases h with
  | @binary op =>
    have hop : ∀ op : BinOp, Level.update ≤ op.level → isNonAssoc op = false := by
      intro op
      cases op <;> decide
    exact hop op hl
  | is => exact absurd hl (show ¬ Level.update ≤ .equality by decide)
  | _ => rfl

theorem chains_of_level (op : BinOp) (h : e.IsTree t) (hl : .update ≤ t.level) :
    chains op e = false := by
  have hcmp := comparisonExpr_of_level h hl
  cases h with
  | @binary prev =>
    show (isNonAssoc prev && _) = false
    rw [show isNonAssoc prev = false from hcmp]
    rfl
  | is => exact nomatch hcmp
  | _ => rfl

theorem isIs_of_level (h : e.IsTree t) (hl : .update ≤ t.level) : isIs e = false := by
  cases h with
  | is => exact absurd hl (show ¬ Level.update ≤ .equality by decide)
  | _ => rfl

/-! ## Reading a tree -/

/-- What follows a tree in its text. -/
structure MayFollow (rest : List (Token × Span)) (l : Level) : Prop where
  follows : (Cursor.new rest).peek.follows = true
  stop : (Cursor.new rest).peek.power ≤ l.stop

/-- The spine reads the tree, and goes on. -/
def SpineReads (other : Nat → Cursor → ParseM (Expr × Cursor)) (t : Tree) : Prop :=
  ∀ (ts : List (Token × Span)) (d bd : Nat), ts.map Prod.fst = t.write →
    d + t.nesting ≤ maxParseDepth → ∃ e : Expr, e.IsTree t ∧
      ∀ (rest : List (Token × Span)) (m : Nat) (r : Except ParseError (Expr × Cursor)),
        m < t.level.bp → MayFollow rest t.level →
        Converges (fun n => parseExprTail other n m (textAt d bd rest) e) r →
        Converges (fun n => parseSpine other n m (textAt d bd (ts ++ rest))) r

/-- An atom is read with its fields, whatever follows. -/
def AtomReads (other : Nat → Cursor → ParseM (Expr × Cursor)) (t : Tree) : Prop :=
  ∀ (ts : List (Token × Span)) (d bd : Nat), ts.map Prod.fst = t.write →
    d + t.nesting ≤ maxParseDepth → ∃ e : Expr, e.IsTree t ∧
      ∀ (rest : List (Token × Span)) (r : Except ParseError (Expr × Cursor)),
        (∀ text, (Cursor.new rest).peek ≠ .upperIdent text) →
        Converges (fun n => parseFieldChain n (textAt d bd rest) e) r →
        Converges (fun n => parseExprAtom12 other n (textAt d bd (ts ++ rest))) r

structure Reads (other : Nat → Cursor → ParseM (Expr × Cursor)) (t : Tree) : Prop where
  spine : t.Closed → t.UpdatesLeft → SpineReads other t
  atom : t.Closed → t.UpdatesLeft → t.level = .atom → AtomReads other t

theorem peek_textAt (d bd : Nat) (rest : List (Token × Span)) :
    (textAt d bd rest).peek = (Cursor.new rest).peek := rfl

/-- A tree in its own call of `parse_expr_bp`. -/
theorem SpineReads.exprBp (h : SpineReads other t) (d bd : Nat) (hts : ts.map Prod.fst = t.write)
    (hd : d + (t.nesting + 1) ≤ maxParseDepth) :
    ∃ e : Expr, e.IsTree t ∧ ∀ (rest : List (Token × Span)) (m : Nat), m < t.level.bp →
      MayFollow rest t.level → (Cursor.new rest).peek.power ≤ m →
      Converges (fun n => parseExprBp other n m (textAt d bd (ts ++ rest)))
        (.ok (e, textAt d bd rest)) := by
  obtain ⟨e, htree, hspine⟩ := h ts (d + 1) bd hts (by omega)
  refine ⟨e, htree, fun rest m hm hf hp => ?_⟩
  have hbp := exprBp_of_spine (by omega) (hspine rest m _ hm hf (tail_stop hf.follows hp))
  exact hbp

/-- A tree as an expression of its own. -/
theorem SpineReads.expr (h : SpineReads other t) (hclosed : t.Closed) (d bd : Nat)
    (hts : ts.map Prod.fst = t.write) (hd : d + (t.nesting + 1) ≤ maxParseDepth) :
    ∃ e : Expr, e.IsTree t ∧ ∀ rest : List (Token × Span),
      (Cursor.new rest).peek.endsExpr = true →
      Converges (fun n => parseExpr other n (textAt d bd (ts ++ rest)))
        (.ok (e, textAt d bd rest)) := by
  obtain ⟨e, htree, hread⟩ := h.exprBp d bd hts hd
  refine ⟨e, htree, fun rest hends => ?_⟩
  have hfollows : (Cursor.new rest).peek.follows = true := by
    rw [Token.follows, hends, Bool.true_or]
  have hpower : (Cursor.new rest).peek.power = 0 := power_of_endsExpr hends
  have hbp := hread rest 0 (Level.bp_pos t.level) ⟨hfollows, by rw [hpower]; exact Nat.zero_le _⟩
    (le_of_eq hpower)
  refine expr_of_exprBp ?_ hbp fun p hp => ?_
  · obtain ⟨tok, toks, hwrite, hstart, -⟩ := t.write_start hclosed
    obtain ⟨a, ts', rfl, hfst, -⟩ := map_eq_cons_iff.mp (hts.trans hwrite)
    rw [← hfst] at hstart
    rcases hstart with hstart | hstart
    · exact .inr hstart
    · exact .inl hstart
  · cases hp
    exact (follows_cases hfollows).2.2.2.1

/-! ## Atoms and arguments -/

theorem AtomReads.spine (h : AtomReads other t) (hclosed : t.Closed) (hlevel : t.level = .atom) :
    SpineReads other t := by
  intro ts d bd hts hd
  obtain ⟨e, htree, hatom⟩ := h ts d bd hts hd
  refine ⟨e, htree, fun rest m r _ hf htail => ?_⟩
  obtain ⟨-, -, hdot, -, -, -, -, hupper⟩ := follows_cases hf.follows
  have hread := hatom rest _ hupper (fieldChain_stop hdot)
  refine spine_after_operand (prefix_atom ?_ hread) htail
  -- Only the text of a negation starts with a minus.
  obtain ⟨tok, toks, hwrite, -, hstart⟩ := t.write_start hclosed
  obtain ⟨a, ts', rfl, hfst, -⟩ := map_eq_cons_iff.mp (hts.trans hwrite)
  have hne := (hstart (by rw [hlevel]; decide)).ne.1
  rw [← hfst] at hne
  exact hne

variable {args : List Tree}

/-- The arguments of a closed application. -/
theorem args_read (hreads : ∀ a ∈ args, AtomReads other a)
    (hclosed : ∀ a ∈ args, a.Closed ∧ a.level = .atom) (d bd : Nat)
    (hts : ts.map Prod.fst = Tree.writeArgs args) (hd : d + Tree.nestingArgs args ≤ maxParseDepth) :
    ∃ es, ArgsAreTrees es args ∧ ∀ rest : List (Token × Span),
      (Cursor.new rest).peek.follows = true →
      Converges (fun n => parseArgs other n (textAt d bd (ts ++ rest)))
        (.ok (es, textAt d bd rest)) := by
  induction args generalizing ts with
  | nil =>
    obtain rfl := map_eq_nil_iff.mp hts
    exact ⟨[], .nil, fun rest hf => args_nil (follows_cases hf).1⟩
  | cons arg args ih =>
    obtain ⟨ts₁, ts₂, rfl, hts₁, hts₂⟩ := map_eq_append_iff.mp hts
    rw [Tree.nestingArgs] at hd
    obtain ⟨e, htree, hatom⟩ := hreads arg mem_cons_self ts₁ d bd hts₁ (by omega)
    obtain ⟨es, htrees, hrest⟩ := ih (fun a ha => hreads a (mem_cons_of_mem _ ha))
      (fun a ha => hclosed a (mem_cons_of_mem _ ha)) hts₂ (by omega)
    refine ⟨e :: es, .cons htree htrees, fun rest hf => ?_⟩
    have hnext : (∀ text, (Cursor.new (ts₂ ++ rest)).peek ≠ .upperIdent text) ∧
        (Cursor.new (ts₂ ++ rest)).peek ≠ .dot := by
      cases args with
      | nil =>
        obtain rfl := map_eq_nil_iff.mp hts₂
        obtain ⟨-, -, hdot, -, -, -, -, hupper⟩ := follows_cases hf
        exact ⟨hupper, hdot⟩
      | cons a args =>
        have ha := hclosed a (mem_cons_of_mem _ mem_cons_self)
        obtain ⟨tok, toks, hwrite, -, hstart⟩ := a.write_start ha.1
        rw [Tree.writeArgs, hwrite] at hts₂
        obtain ⟨x, ts', rfl, hfst, -⟩ := map_eq_cons_iff.mp hts₂
        have hne := (hstart (by rw [ha.2]; decide)).ne
        rw [← hfst] at hne
        exact ⟨hne.2.2.2, hne.2.1⟩
    have harg := hatom (ts₂ ++ rest) _ hnext.1 (fieldChain_stop hnext.2)
    rw [← append_assoc] at harg
    have hstart : canStartArgAtom (textAt d bd (ts₁ ++ ts₂ ++ rest)).peek = true := by
      have ha := hclosed arg mem_cons_self
      obtain ⟨tok, toks, hwrite, -, hstart⟩ := arg.write_start ha.1
      obtain ⟨x, ts', rfl, hfst, -⟩ := map_eq_cons_iff.mp (hts₁.trans hwrite)
      have harg := (hstart (by rw [ha.2]; decide)).arg
      rw [← hfst] at harg
      exact harg
    exact args_cons hstart rfl harg (hrest rest hf)

/-- A field after its name, before a comma or the brace. -/
theorem fieldValue_read (text : String) (nameSpan : Span) {value : Option Tree}
    (hreads : ∀ v ∈ value, SpineReads other v ∧ v.Closed) (d bd : Nat)
    (hts : ts.map Prod.fst = Tree.writeValue value)
    (hd : d + Tree.nestingValue value ≤ maxParseDepth) :
    ∃ field : FieldInit, (∀ fs fields, FieldsAreTrees fs fields →
        FieldsAreTrees (field :: fs) ((text, value) :: fields)) ∧
      ∀ rest : List (Token × Span), (Cursor.new rest).peek.endsExpr = true →
        Converges (fun n => parseFieldValue other n ⟨text, nameSpan⟩ (textAt d bd (ts ++ rest)))
          (.ok (field, textAt d bd rest)) := by
  cases value with
  | none =>
    obtain rfl := map_eq_nil_iff.mp hts
    refine ⟨⟨⟨text, nameSpan⟩, none, nameSpan⟩, fun fs fields h => .short h,
      fun rest hends => .turn fun n => ?_⟩
    rw [nil_append, parseFieldValue, if_neg]
    · rfl
    intro h
    rw [peek_textAt] at h
    rw [h] at hends
    cases hends
  | some v =>
    obtain ⟨⟨tok, assignSpan⟩, ts', rfl, hassign, hts'⟩ := map_eq_cons_iff.mp hts
    obtain rfl : tok = .assign := hassign
    obtain ⟨hspine, hclosed⟩ := hreads v rfl
    rw [Tree.nestingValue] at hd
    obtain ⟨e, htree, hread⟩ := hspine.expr hclosed d bd hts' hd
    refine ⟨⟨⟨text, nameSpan⟩, some e, nameSpan.merge e.span⟩, fun fs fields h => .value htree h,
      fun rest hends => (hread rest hends).turn₁ fun n hn => ?_⟩
    rw [parseFieldValue, cons_append, if_pos peek_cons]
    exact bind_ok hn

variable {fields : List (String × Option Tree)}

theorem fields_read (hreads : ∀ f ∈ fields, ∀ v ∈ f.2, SpineReads other v ∧ v.Closed) (d bd : Nat)
    (hts : ts.map Prod.fst = Tree.writeFields fields)
    (hd : d + Tree.nestingFields fields ≤ maxParseDepth) :
    ∃ fs, FieldsAreTrees fs fields ∧ ∀ (s : Span) (rest : List (Token × Span)),
      Converges (fun n => parseFieldInitList other n (textAt d bd (ts ++ (.rBrace, s) :: rest)))
        (.ok (fs, textAt d bd ((.rBrace, s) :: rest))) := by
  induction fields generalizing ts with
  | nil =>
    obtain rfl := map_eq_nil_iff.mp hts
    exact ⟨[], .nil, fun s rest => fieldList_nil rfl⟩
  | cons f fields ih =>
    obtain ⟨text, value⟩ := f
    rw [Tree.writeFields] at hts
    obtain ⟨⟨tok, nameSpan⟩, ts', rfl, hname, hts'⟩ := map_eq_cons_iff.mp hts
    obtain rfl : tok = .lowerIdent text := hname
    obtain ⟨ts₁, ts₂, rfl, hts₁, hts₂⟩ := map_eq_append_iff.mp hts'
    rw [Tree.nestingFields] at hd
    have hdepth : d + Tree.nestingValue value ≤ maxParseDepth := by omega
    obtain ⟨field, hfield, hvalue⟩ := fieldValue_read text nameSpan
      (hreads _ mem_cons_self) d bd hts₁ hdepth
    cases fields with
    | nil =>
      obtain rfl := map_eq_nil_iff.mp hts₂
      refine ⟨[field], hfield _ _ .nil, fun s rest => ?_⟩
      rw [append_nil]
      refine fieldList_last (hvalue ((.rBrace, s) :: rest) rfl) ?_
      exact nofun
    | cons f fields =>
      obtain ⟨⟨tok, commaSpan⟩, ts₃, rfl, hcomma, hts₃⟩ := map_eq_cons_iff.mp hts₂
      obtain rfl : tok = .comma := hcomma
      obtain ⟨fs, hfs, hrest⟩ := ih (fun g hg => hreads g (mem_cons_of_mem _ hg)) hts₃
        (by omega)
      refine ⟨field :: fs, hfield _ _ hfs, fun s rest => ?_⟩
      rw [cons_append, append_assoc]
      exact fieldList_more (hvalue ((.comma, commaSpan) :: (ts₃ ++ (.rBrace, s) :: rest)) rfl)
        rfl (hrest s rest)

/-! ## Every form -/

variable (op : BinOp)

/-- How an operator's powers lie to the levels of its operands. -/
theorem infix_table : ∃ rbp, infixBp op.token = some (op.level.bp, rbp, op) ∧
    op.level.stop ≤ rbp ∧ ∀ l, op.rightLevel ≤ l → ¬ (op.level = .relational ∧ l = .update) →
      rbp < l.bp := by
  cases op <;> refine ⟨_, rfl, by decide, fun l => ?_⟩ <;> cases l <;> decide

theorem level_le_left : op.level ≤ op.leftLevel := by
  cases op <;> decide

theorem power_le_left : op.token.power ≤ op.leftLevel.stop := by
  cases op <;> decide

theorem stop_le_right : op.level.stop ≤ op.rightLevel.stop := by
  cases op <;> decide

theorem left_of_nonAssoc {op : BinOp} (h : isNonAssoc op = true) :
    op.leftLevel = .update ∧ op.rightLevel = .update := by
  revert h
  cases op <;> decide

theorem spine_binary {op : BinOp} {lhs rhs : Tree} (hclosed : (Tree.binary op lhs rhs).Closed)
    (hleft : (Tree.binary op lhs rhs).UpdatesLeft) (hl : SpineReads other lhs)
    (hr : SpineReads other rhs) : SpineReads other (.binary op lhs rhs) := by
  intro ts d bd hts hd
  obtain ⟨⟨hlevelL, hlevelR⟩, -, -⟩ := hclosed
  rw [Tree.nesting] at hd
  obtain ⟨ts₁, ts', rfl, hts₁, hts'⟩ := map_eq_append_iff.mp hts
  obtain ⟨⟨tok, opSpan⟩, ts₂, rfl, hop, hts₂⟩ := map_eq_cons_iff.mp hts'
  obtain rfl : tok = op.token := hop
  obtain ⟨el, htreeL, hspineL⟩ := hl ts₁ d bd hts₁ (by omega)
  obtain ⟨er, htreeR, hreadR⟩ := hr.exprBp d bd hts₂ (by omega)
  obtain ⟨rbp, hinfix, hstop, hbound⟩ := infix_table op
  have hchain : isNonAssoc op = true → chains op el = false := fun h =>
    chains_of_level op htreeL ((left_of_nonAssoc h).1 ▸ hlevelL)
  have his : isNonAssoc op = true → isIs er = false := fun h =>
    isIs_of_level htreeR ((left_of_nonAssoc h).2 ▸ hlevelR)
  refine ⟨if op = .pipe then .pipe el er (el.span.merge er.span)
    else .binary op el er ((el.span.merge er.span).merge opSpan), ?_, ?_⟩
  · by_cases hpipe : op = .pipe
    · subst hpipe
      exact .pipe htreeL htreeR
    · rw [if_neg hpipe]
      exact .binary hpipe htreeL htreeR
  · intro rest m r hm hf htail
    rw [append_assoc]
    refine hspineL _ m r (lt_of_lt_of_le hm ?_) ⟨op_follows op, ?_⟩ ?_
    · exact Level.bp_mono (Level.le_trans (level_le_left op) hlevelL)
    · exact le_trans (power_le_left op) (Level.stop_mono hlevelL)
    · have hrhs := hreadR rest rbp (hbound _ hlevelR hleft.1)
        ⟨hf.follows, hf.stop.trans ((stop_le_right op).trans (Level.stop_mono hlevelR))⟩
        (hf.stop.trans hstop)
      exact tail_op rfl hinfix hm hchain hrhs his rfl htail

theorem spine_neg {operand : Tree} (hclosed : (Tree.neg operand).Closed)
    (h : SpineReads other operand) : SpineReads other (.neg operand) := by
  intro ts d bd hts hd
  rw [Tree.nesting] at hd
  obtain ⟨⟨tok, opSpan⟩, ts', rfl, hop, hts'⟩ := map_eq_cons_iff.mp hts
  obtain rfl : tok = .minus := hop
  obtain ⟨e, htree, hread⟩ := h.exprBp d bd hts' hd
  refine ⟨.unary .neg e (opSpan.merge e.span), .neg htree, fun rest m r hm hf htail => ?_⟩
  have hoperand := hread rest 19
    (lt_of_lt_of_le (show 19 < Level.bp .unary by decide) (Level.bp_mono hclosed.1))
    ⟨hf.follows, hf.stop.trans (Level.stop_mono hclosed.1)⟩ hf.stop
  refine spine_after_operand (hoperand.turn₁ fun n hn => ?_) htail
  rw [parsePrefix, cons_append, if_pos peek_cons]
  exact bind_ok hn

/-- Comparisons bind with 7 at least. -/
theorem seven_le_power {tok : Token} (h : comparesNext tok) : 7 ≤ tok.power := by
  rcases h with rfl | hnext
  · decide
  · cases tok <;> first
      | exact absurd (show false = true from hnext) Bool.false_ne_true
      | decide

theorem spine_is {subject : Tree} {pattern : PredicateText}
    (hclosed : (Tree.is subject pattern).Closed) (h : SpineReads other subject) :
    SpineReads other (.is subject pattern) := by
  intro ts d bd hts hd
  rw [Tree.nesting] at hd
  obtain ⟨ts₁, ts', rfl, hts₁, hts'⟩ := map_eq_append_iff.mp hts
  obtain ⟨⟨tok, opSpan⟩, ts₂, rfl, hop, hts₂⟩ := map_eq_cons_iff.mp hts'
  obtain rfl : tok = .kwIs := hop
  obtain ⟨e, htree, hspine⟩ := h ts₁ d bd hts₁ (by omega)
  refine ⟨.is e (pattern.pattern (ts₂.map Prod.snd))
    (e.span.merge (pattern.pattern (ts₂.map Prod.snd)).span), .is htree,
    fun rest m r hm hf htail => ?_⟩
  rw [append_assoc]
  refine hspine _ m r (lt_of_lt_of_le hm ?_) ⟨rfl, ?_⟩ ?_
  · exact Level.bp_mono (Level.le_trans (show Level.equality ≤ .update by decide) hclosed.1)
  · exact le_trans (show Token.power .kwIs ≤ Level.stop .update by decide)
      (Level.stop_mono hclosed.1)
  · have hcolon : (Cursor.new rest).peek ≠ .colonColon := by
      intro hc
      have hstop := hf.stop
      rw [hc] at hstop
      exact absurd hstop (show ¬ Token.power .colonColon ≤ Level.stop .equality by decide)
    have hpat := pattern.reads ts₂ rest d bd hts₂ hf.follows hcolon (by omega)
    exact tail_is rfl hm (isPredicate_ok (comparisonExpr_of_level htree hclosed.1) hpat
      (pattern.noBinding _) (pattern.noSlice _) fun hnext =>
        absurd (seven_le_power hnext) (Nat.not_le.mpr (Nat.lt_succ_of_le hf.stop))) htail

variable {base : Tree}

theorem spine_update (hclosed : (Tree.with base fields).Closed) (h : SpineReads other base)
    (hfields : ∀ f ∈ fields, ∀ v ∈ f.2, SpineReads other v ∧ v.Closed) :
    SpineReads other (.with base fields) := by
  intro ts d bd hts hd
  rw [Tree.nesting] at hd
  obtain ⟨ts₁, ts', rfl, hts₁, hts'⟩ := map_eq_append_iff.mp hts
  obtain ⟨⟨tok, withSpan⟩, ts₂, rfl, hwith, hts₂⟩ := map_eq_cons_iff.mp hts'
  obtain ⟨⟨tok', openSpan⟩, ts₃, rfl, hopen, hts₃⟩ := map_eq_cons_iff.mp hts₂
  obtain ⟨ts₄, ts₅, rfl, hts₄, hts₅⟩ := map_eq_append_iff.mp hts₃
  obtain ⟨⟨tok'', closeSpan⟩, ts₆, rfl, hclose, hts₆⟩ := map_eq_cons_iff.mp hts₅
  obtain rfl : tok = .kwWith := hwith
  obtain rfl : tok' = .lBrace := hopen
  obtain rfl : tok'' = .rBrace := hclose
  obtain rfl := map_eq_nil_iff.mp hts₆
  obtain ⟨e, htree, hspine⟩ := h ts₁ d bd hts₁ (by omega)
  obtain ⟨fs, hfs, hread⟩ := fields_read hfields d bd hts₄ (by omega)
  refine ⟨.with e fs (e.span.merge closeSpan), .with htree hfs, fun rest m r hm hf htail => ?_⟩
  rw [append_assoc]
  refine hspine _ m r (lt_of_lt_of_le hm (Level.bp_mono hclosed.1)) ⟨rfl, ?_⟩ ?_
  · exact le_trans (show Token.power .kwWith ≤ Level.stop .update by decide)
      (Level.stop_mono hclosed.1)
  · have hfields' := hread closeSpan rest
    rw [show (.kwWith, withSpan) :: (.lBrace, openSpan) :: (ts₄ ++ [(.rBrace, closeSpan)]) ++ rest
      = (.kwWith, withSpan) :: (.lBrace, openSpan) :: (ts₄ ++ (.rBrace, closeSpan) :: rest) by simp]
    exact tail_with rfl hm (expect_text rfl) hfields' (expect_text rfl) htail

theorem spine_call {callee arg : Tree} (hclosed : (Tree.call callee arg args).Closed)
    (h : AtomReads other callee) (hargs : ∀ a ∈ arg :: args, AtomReads other a)
    (hatoms : ∀ a ∈ arg :: args, a.Closed ∧ a.level = .atom) :
    SpineReads other (.call callee arg args) := by
  intro ts d bd hts hd
  rw [Tree.nesting] at hd
  obtain ⟨ts₁, ts₂, rfl, hts₁, hts₂⟩ := map_eq_append_iff.mp hts
  obtain ⟨e, htree, hatom⟩ := h ts₁ d bd hts₁ (by omega)
  obtain ⟨es, htrees, hread⟩ := args_read hargs hatoms d bd hts₂
    (by rw [Tree.nestingArgs]; omega)
  cases htrees with
  | @cons ea _ es _ hea hes =>
  have hlast : ∃ last, (ea :: es).getLast? = some last := ⟨_, getLast?_cons⟩
  obtain ⟨last, hlast⟩ := hlast
  refine ⟨.call e (ea :: es) (e.span.merge last.span), .call htree (.cons hea hes),
    fun rest m r hm hf htail => ?_⟩
  rw [append_assoc]
  -- The first argument's token follows the callee.
  have harg : startsAtom (Cursor.new (ts₂ ++ rest)).peek := by
    have ha := hatoms arg mem_cons_self
    obtain ⟨tok, toks, hwrite, -, hstart⟩ := arg.write_start ha.1
    rw [hwrite] at hts₂
    obtain ⟨x, ts', rfl, hfst, -⟩ := map_eq_cons_iff.mp hts₂
    have hstart := hstart (by rw [ha.2]; decide)
    rw [← hfst] at hstart
    exact hstart
  have hcallee := hatom (ts₂ ++ rest) _ harg.ne.2.2.2 (fieldChain_stop harg.ne.2.1)
  refine spine_after_operand (prefix_atom ?_ hcallee) ?_
  · obtain ⟨tok, toks, hwrite, -, hstart⟩ := callee.write_start hclosed.1.2
    obtain ⟨x, ts', rfl, hfst, -⟩ := map_eq_cons_iff.mp (hts₁.trans hwrite)
    have hne := (hstart (Level.le_trans (by decide) hclosed.1.1)).ne.1
    rw [← hfst] at hne
    exact hne
  · exact tail_call hm harg.arg rfl harg.ne.2.2.1 (hread rest hf.follows) hlast htail

theorem atom_reads_field {text : String} (h : AtomReads other base) :
    AtomReads other (.field base text) := by
  intro ts d bd hts hd
  obtain ⟨ts₁, ts', rfl, hts₁, hts'⟩ := map_eq_append_iff.mp hts
  obtain ⟨⟨tok, dotSpan⟩, ts₂, rfl, hdot, hts₂⟩ := map_eq_cons_iff.mp hts'
  obtain ⟨⟨tok', nameSpan⟩, ts₃, rfl, hname, hts₃⟩ := map_eq_cons_iff.mp hts₂
  obtain rfl : tok = .dot := hdot
  obtain rfl : tok' = .lowerIdent text := hname
  obtain rfl := map_eq_nil_iff.mp hts₃
  obtain ⟨e, htree, hatom⟩ := h ts₁ d bd hts₁ hd
  refine ⟨.fieldAccess e ⟨text, nameSpan⟩ (e.span.merge nameSpan), .field htree,
    fun rest r hupper hchain => ?_⟩
  rw [append_assoc]
  refine hatom _ r nofun (hchain.turn₁ fun n hn => ?_)
  rw [parseFieldChain, cons_append, if_pos peek_cons]
  exact hn

theorem atom_reads_paren {inner : Tree} (hclosed : inner.Closed) (h : SpineReads other inner) :
    AtomReads other (.paren inner) := by
  intro ts d bd hts hd
  rw [Tree.nesting] at hd
  obtain ⟨⟨tok, openSpan⟩, ts', rfl, hopen, hts'⟩ := map_eq_cons_iff.mp hts
  obtain ⟨ts₁, ts₂, rfl, hts₁, hts₂⟩ := map_eq_append_iff.mp hts'
  obtain ⟨⟨tok', closeSpan⟩, ts₃, rfl, hclose, hts₃⟩ := map_eq_cons_iff.mp hts₂
  obtain rfl : tok = .lParen := hopen
  obtain rfl : tok' = .rParen := hclose
  obtain rfl := map_eq_nil_iff.mp hts₃
  obtain ⟨e, htree, hread⟩ := h.expr hclosed d (bd + 1) hts₁ hd
  refine ⟨.paren e (openSpan.merge closeSpan), .paren htree, fun rest r hupper hchain => ?_⟩
  have hinner := hread ((.rParen, closeSpan) :: rest) rfl
  obtain ⟨tok, toks, hwrite, hstart, -⟩ := inner.write_start hclosed
  obtain ⟨x, ts', rfl, hfst, -⟩ := map_eq_cons_iff.mp (hts₁.trans hwrite)
  rw [← hfst] at hstart
  rw [cons_append, append_assoc]
  exact atom12_of_atom (atom_paren hstart hinner) hchain

theorem atom_reads_name (text : String) : AtomReads other (.name text) := by
  intro ts d bd hts _
  obtain ⟨⟨tok, span⟩, ts', rfl, hname, hts'⟩ := map_eq_cons_iff.mp hts
  obtain rfl : tok = .lowerIdent text := hname
  obtain rfl := map_eq_nil_iff.mp hts'
  exact ⟨.ident ⟨text, span⟩, .name, fun rest r hupper hchain =>
    atom12_of_atom (atom_name hupper) hchain⟩

theorem atom_reads_literal (tok : Token) (h : tok.isLiteral = true) :
    AtomReads other (.literal tok h) := by
  intro ts d bd hts _
  obtain ⟨⟨tok', span⟩, ts', rfl, hlit, hts'⟩ := map_eq_cons_iff.mp hts
  obtain rfl : tok' = tok := hlit
  obtain rfl := map_eq_nil_iff.mp hts'
  have hatom : ∃ lit : Literal, lit.token = tok' ∧ ∀ rest, Converges
      (fun n => parseExprAtom other n (textAt d bd ((tok', span) :: rest)))
      (.ok (.literal lit, textAt d bd rest)) := atom_literal h
  obtain ⟨lit, htok, hread⟩ := hatom
  exact ⟨.literal lit, .literal htok, fun rest r _ hchain => atom12_of_atom (hread rest) hchain⟩

/-- The parser reads every closed tree whose updates stand on the left of `<`, `>`, `<=`, `>=`. -/
theorem reads_tree (other : Nat → Cursor → ParseM (Expr × Cursor)) (t : Tree) : Reads other t := by
  have hatom : ∀ t : Tree, t.level = .atom →
      (t.Closed → t.UpdatesLeft → AtomReads other t) → Reads other t := fun t hlevel h =>
    ⟨fun hclosed hleft => (h hclosed hleft).spine hclosed hlevel,
      fun hclosed hleft _ => h hclosed hleft⟩
  have hloose : ∀ t : Tree, t.level ≠ .atom →
      (t.Closed → t.UpdatesLeft → SpineReads other t) → Reads other t := fun t hlevel h =>
    ⟨h, fun _ _ hl => absurd hl hlevel⟩
  induction t using Tree.byParts with
  | name text => exact hatom _ rfl fun _ _ => atom_reads_name text
  | literal tok h => exact hatom _ rfl fun _ _ => atom_reads_literal tok h
  | binary op lhs rhs hl hr =>
    refine hloose _ ?_ fun hclosed hleft => spine_binary hclosed hleft
      (hl.spine hclosed.2.1 hleft.2.1) (hr.spine hclosed.2.2 hleft.2.2)
    show op.level ≠ .atom
    cases op <;> decide
  | neg operand ih =>
    exact hloose _ nofun fun hclosed hleft => spine_neg hclosed (ih.spine hclosed.2 hleft)
  | is subject pattern ih =>
    exact hloose _ nofun fun hclosed hleft => spine_is hclosed (ih.spine hclosed.2 hleft)
  | update base fields hbase hfields =>
    refine hloose _ nofun fun hclosed hleft =>
      spine_update hclosed (hbase.spine hclosed.2.1 hleft.1) fun f hf v hv => ?_
    have hvalue := Tree.mem_fields hclosed.2.2 hleft.2 hf hv
    exact ⟨(hfields f hf v hv).spine hvalue.1 hvalue.2, hvalue.1⟩
  | call callee arg args hcallee harg hargs =>
    refine hloose _ nofun fun hclosed hleft => ?_
    have hargsClosed : Tree.ClosedArgs (arg :: args) := ⟨hclosed.2.1, hclosed.2.2⟩
    have hargsLeft : Tree.UpdatesLeftArgs (arg :: args) := ⟨hleft.2.1, hleft.2.2⟩
    have hall : ∀ a ∈ arg :: args, (a.Closed ∧ a.level = .atom) ∧ a.UpdatesLeft :=
      fun a ha => Tree.mem_args hargsClosed hargsLeft ha
    refine spine_call hclosed
      (hcallee.atom hclosed.1.2 hleft.1 (Level.atom_le hclosed.1.1)) (fun a ha => ?_)
      fun a ha => (hall a ha).1
    have hreads : Reads other a := by
      rcases mem_cons.mp ha with rfl | ha
      · exact harg
      · exact hargs a ha
    exact hreads.atom (hall a ha).1.1 (hall a ha).2 (hall a ha).1.2
  | field base text ih =>
    exact hatom _ rfl fun hclosed hleft =>
      atom_reads_field (ih.atom hclosed.2 hleft (Level.atom_le hclosed.1))
  | paren inner ih =>
    exact hatom _ rfl fun hclosed hleft => atom_reads_paren hclosed (ih.spine hclosed hleft)

end Ridge
