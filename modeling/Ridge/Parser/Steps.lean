import Ridge.Parser.Tree

/-!
# Steps of the operator parser

What one turn of each parser function does with enough fuel: a turn answers what its next turn
answers, or it stops.
-/

namespace Ridge

variable {α β γ : Type}

/-! ## Turns -/

variable {f : Nat → Option α}

/-- One unit of fuel spent, with an answer that needs no other. -/
theorem Converges.turn {a : α} (h : ∀ n, f (n + 1) = some a) : Converges f a :=
  Converges.step (g := fun _ => some a) (.const a) h

theorem Converges.turn₁ {g : Nat → Option β} {a : α} {b : β} (hg : Converges g b)
    (h : ∀ n, g n = some b → f (n + 1) = some a) : Converges f a := by
  obtain ⟨N, hN⟩ := hg
  refine ⟨N + 1, fun n hn => ?_⟩
  obtain ⟨m, rfl⟩ : ∃ m, n = m + 1 := ⟨n - 1, by omega⟩
  exact h m (hN m (by omega))

theorem Converges.turn₂ {g : Nat → Option β} {g' : Nat → Option γ} {a : α} {b : β} {c : γ}
    (hg : Converges g b) (hg' : Converges g' c)
    (h : ∀ n, g n = some b → g' n = some c → f (n + 1) = some a) : Converges f a := by
  obtain ⟨N, hN⟩ := hg
  obtain ⟨M, hM⟩ := hg'
  refine ⟨max N M + 1, fun n hn => ?_⟩
  obtain ⟨m, rfl⟩ : ∃ m, n = m + 1 := ⟨n - 1, by omega⟩
  exact h m (hN m (by omega)) (hM m (by omega))

attribute [grind =] parseExprTail parseExprAtom parsePrefix parseInfix parseIsPredicate parseArgs
  parseExprAtom12 parseFieldInitList parseFieldValue parseFieldChain parseExprBp

theorem bind_ok {x : ParseM α} {f : α → ParseM β} {a : α} (h : x = some (.ok a)) :
    (x >>= f) = f a := by
  rw [h]
  rfl

theorem bind_error {x : ParseM α} {f : α → ParseM β} {err : ParseError}
    (h : x = some (.error err)) : (x >>= f) = some (.error err) := by
  rw [h]
  rfl

/-! ## Cursors -/

/-- The cursor of a text without flat match arms. -/
def textAt (depth bracketDepth : Nat) (ts : List (Token × Span)) : Cursor :=
  ⟨ts, false, bracketDepth, depth⟩

variable {d bd : Nat} {tok : Token} {s : Span} {ts rest : List (Token × Span)}

@[simp] theorem peek_cons : (textAt d bd ((tok, s) :: ts)).peek = tok := rfl

@[simp] theorem span_cons : (textAt d bd ((tok, s) :: ts)).span = s := rfl

@[simp] theorem bump_cons : (textAt d bd ((tok, s) :: ts)).bump = textAt d bd ts := rfl

@[simp] theorem armEnds_text : armEnds (textAt d bd ts) = false := rfl

theorem enter_text (h : d < maxParseDepth) :
    (textAt d bd ts).enter = (pure (textAt (d + 1) bd ts) : ParseM Cursor) :=
  if_neg (Nat.not_le.mpr h)

theorem expect_text {want : Token} {description : String} (h : tok = want) :
    (textAt d bd ((tok, s) :: ts)).expect want description
      = (pure (s, textAt d bd ts) : ParseM (Span × Cursor)) :=
  if_pos h

/-! ## Tokens that follow -/

/-- A token that follows an expression is none that the parser would take as part of an atom, an
argument or a postfix. -/
theorem follows_cases (h : tok.follows = true) :
    canStartArgAtom tok = false ∧ tok ≠ .lBrack ∧ tok ≠ .dot ∧ tok ≠ .leftArrow ∧
      tok ≠ .questionGt ∧ tok ≠ .bang ∧ tok ≠ .question ∧ (∀ text, tok ≠ .upperIdent text) := by
  cases tok <;> first
    | exact absurd (show false = true from h) Bool.false_ne_true
    | exact ⟨rfl, nofun, nofun, nofun, nofun, nofun, nofun, nofun⟩

theorem power_of_endsExpr (h : tok.endsExpr = true) : tok.power = 0 := by
  cases tok <;> first
    | exact absurd (show false = true from h) Bool.false_ne_true
    | rfl

theorem op_follows (op : BinOp) : op.token.follows = true := by
  cases op <;> rfl

theorem power_of_bp {lbp rbp : Nat} {op : BinOp} (h : infixBp tok = some (lbp, rbp, op)) :
    tok.power = lbp := by
  cases tok <;> simp only [infixBp, reduceCtorEq, Option.some.injEq, Prod.mk.injEq] at h
  all_goals
    obtain ⟨rfl, -⟩ := h
    rfl

/-! ## Turns of the tail -/

section Tail

variable {other : Nat → Cursor → ParseM (Expr × Cursor)} {m : Nat} {cur cur' : Cursor}
  {lhs rhs : Expr} {r : Except ParseError (Expr × Cursor)}

/-- Before an operator the tail looks for operators. -/
theorem tail_of_infix (hf : cur.peek.follows = true) (his : cur.peek = .kwIs → 7 ≤ m)
    (hwith : cur.peek = .kwWith → 10 ≤ m)
    (h : Converges (fun n => parseInfix other n m cur lhs) r) :
    Converges (fun n => parseExprTail other n m cur lhs) r := by
  obtain ⟨harg, hbrack, -, -, hask, hbang, hquestion, -⟩ := follows_cases hf
  refine h.turn₁ fun n hn => ?_
  have his' : ¬ (cur.peek = .kwIs ∧ m < 7) := fun hc => absurd (his hc.1) (Nat.not_le.mpr hc.2)
  have hwith' : ¬ (cur.peek = .kwWith ∧ m < 10) :=
    fun hc => absurd (hwith hc.1) (Nat.not_le.mpr hc.2)
  have harg' : ¬ (m < 20 ∧ canStartArgAtom cur.peek = true) := by
    rw [harg]
    exact fun hc => Bool.false_ne_true hc.2
  rw [parseExprTail, if_neg his', if_neg hwith', if_neg fun hc => hbrack hc.1, if_neg harg']
  by_cases hm : m < 1
  · rw [if_pos hm]
    split
    · next h => exact absurd h hask
    · next h => exact absurd h hbang
    · next h => exact absurd h hquestion
    · exact hn
  · rw [if_neg hm]
    exact hn

/-- A token that does not bind tighter than the minimum ends the tail. -/
theorem tail_stop (hf : cur.peek.follows = true) (hp : cur.peek.power ≤ m) :
    Converges (fun n => parseExprTail other n m cur lhs) (.ok (lhs, cur)) := by
  refine tail_of_infix hf (fun h => ?_) (fun h => ?_) (.turn fun n => ?_)
  · rwa [h] at hp
  · rwa [h] at hp
  · rw [parseInfix]
    cases hbp : infixBp cur.peek with
    | none => rfl
    | some bp =>
      obtain ⟨lbp, rbp, op⟩ := bp
      have hlbp : lbp ≤ m := by
        rwa [power_of_bp hbp] at hp
      show (if lbp ≤ m then _ else _) = _
      rw [if_pos hlbp]
      rfl

/-- An operator that binds tighter than the minimum, and its right operand. -/
theorem tail_op {op : BinOp} {lbp rbp : Nat} {e : Expr} (hpeek : cur.peek = op.token)
    (hbp : infixBp op.token = some (lbp, rbp, op)) (hm : m < lbp)
    (hchain : isNonAssoc op = true → chains op lhs = false)
    (hrhs : Converges (fun n => parseExprBp other n rbp cur.bump) (.ok (rhs, cur')))
    (his : isNonAssoc op = true → isIs rhs = false)
    (he : e = if op = .pipe then .pipe lhs rhs (lhs.span.merge rhs.span)
      else .binary op lhs rhs ((lhs.span.merge rhs.span).merge cur.span))
    (h : Converges (fun n => parseExprTail other n m cur' e) r) :
    Converges (fun n => parseExprTail other n m cur lhs) r := by
  refine tail_of_infix (hpeek ▸ op_follows op) (fun h => ?_) (fun h => ?_)
    (hrhs.turn₂ h fun n hn htail => ?_)
  · rw [hpeek] at h
    cases op <;> exact nomatch h
  · rw [hpeek] at h
    cases op <;> exact nomatch h
  · have hchain' : ¬ (isNonAssoc op && chains op lhs) = true := by
      cases hop : isNonAssoc op with
      | false => simp
      | true => simp [hchain hop]
    have his' : ¬ (isNonAssoc op && isIs rhs) = true := by
      cases hop : isNonAssoc op with
      | false => simp
      | true => simp [his hop]
    rw [parseInfix, hpeek, hbp]
    show (if lbp ≤ m then _ else _) = _
    rw [if_neg (Nat.not_le.mpr hm), if_neg hchain', hn]
    subst he
    by_cases hpipe : op = .pipe
    · rw [if_pos hpipe] at htail
      show (if op = .pipe then _ else _) = _
      rw [if_pos hpipe]
      exact htail
    · rw [if_neg hpipe] at htail
      show (if op = .pipe then _ else _) = _
      rw [if_neg hpipe, if_neg his']
      exact htail

/-- What `parse_is_predicate` refuses after its pattern. -/
def comparesNext (tok : Token) : Prop :=
  tok = .kwIs ∨ ((infixBp tok).any fun bp => isNonAssoc bp.2.2) = true

theorem isPredicate_ok {pattern : Pattern} (hcmp : comparisonExpr lhs = false)
    (hpat : Converges (fun n => parsePattern n cur.bump) (.ok (pattern, cur')))
    (hbind : predicateBinding pattern = none)
    (hslice : unsupportedPredicateSlice pattern true = none) (hend : ¬ comparesNext cur'.peek) :
    Converges (fun n => parseIsPredicate n cur lhs)
      (.ok (.is lhs pattern (lhs.span.merge pattern.span), cur')) := by
  obtain ⟨N, hN⟩ := hpat
  refine ⟨N, fun n hn => ?_⟩
  show parseIsPredicate n cur lhs = _
  rw [parseIsPredicate, hcmp]
  show (parsePattern n cur.bump >>= _ : ParseM (Expr × Cursor)) = _
  rw [bind_ok (hN n hn)]
  dsimp only
  rw [hbind]
  dsimp only
  rw [hslice]
  exact if_neg hend

theorem isPredicate_chain_right {pattern : Pattern} (hcmp : comparisonExpr lhs = false)
    (hpat : Converges (fun n => parsePattern n cur.bump) (.ok (pattern, cur')))
    (hbind : predicateBinding pattern = none)
    (hslice : unsupportedPredicateSlice pattern true = none) (hend : comparesNext cur'.peek) :
    Converges (fun n => parseIsPredicate n cur lhs)
      (.error (.nonAssociativeChain cur'.span "is")) := by
  obtain ⟨N, hN⟩ := hpat
  refine ⟨N, fun n hn => ?_⟩
  show parseIsPredicate n cur lhs = _
  rw [parseIsPredicate, hcmp]
  show (parsePattern n cur.bump >>= _ : ParseM (Expr × Cursor)) = _
  rw [bind_ok (hN n hn)]
  dsimp only
  rw [hbind]
  dsimp only
  rw [hslice]
  exact if_pos hend

theorem tail_is (hpeek : cur.peek = .kwIs) (hm : m < 7)
    (hpred : Converges (fun n => parseIsPredicate n cur lhs) (.ok (rhs, cur')))
    (h : Converges (fun n => parseExprTail other n m cur' rhs) r) :
    Converges (fun n => parseExprTail other n m cur lhs) r := by
  refine hpred.turn₂ h fun n hn htail => ?_
  rw [parseExprTail, if_pos ⟨hpeek, hm⟩, hn]
  exact htail

theorem tail_fields {n : Nat} {open_ : Span} {curOpen : Cursor} (hpeek : cur.peek = .kwWith)
    (hm : m < 10) (hopen : cur.bump.expect .lBrace "\x7b" = pure (open_, curOpen)) :
    parseExprTail other (n + 1) m cur lhs = (do
      let (fields, cur) ← parseFieldInitList other n curOpen
      let (stop, cur) ← cur.expect .rBrace "\x7d"
      parseExprTail other n m cur (.with lhs fields (lhs.span.merge stop))) := by
  have his : ¬ (cur.peek = .kwIs ∧ m < 7) := by
    rw [hpeek]
    exact fun hc => nomatch hc.1
  rw [parseExprTail, if_neg his, if_pos ⟨hpeek, hm⟩, hopen]
  rfl

theorem tail_with {fields : List FieldInit} {open_ close_ : Span} {curOpen curClose : Cursor}
    (hpeek : cur.peek = .kwWith) (hm : m < 10)
    (hopen : cur.bump.expect .lBrace "\x7b" = pure (open_, curOpen))
    (hfields : Converges (fun n => parseFieldInitList other n curOpen) (.ok (fields, curClose)))
    (hclose : curClose.expect .rBrace "\x7d" = pure (close_, cur'))
    (h : Converges
      (fun n => parseExprTail other n m cur' (.with lhs fields (lhs.span.merge close_))) r) :
    Converges (fun n => parseExprTail other n m cur lhs) r := by
  refine hfields.turn₂ h fun n hn htail => ?_
  rw [tail_fields hpeek hm hopen, bind_ok hn]
  show (curClose.expect .rBrace "\x7d" >>= _ : ParseM (Expr × Cursor)) = _
  rw [hclose]
  exact htail

/-- At the start of an argument the tail reads the arguments of an application. -/
theorem tail_args {n : Nat} (hm : m < 20) (harg : canStartArgAtom cur.peek = true)
    (hflat : cur.noLayoutArm = false) (hbrack : cur.peek ≠ .lBrack) :
    parseExprTail other (n + 1) m cur lhs = (do
      let (args, cur) ← parseArgs other n cur
      match args.getLast? with
      | none => pure (lhs, cur)
      | some last => parseExprTail other n m cur (.call lhs args (lhs.span.merge last.span))) := by
  have his : ¬ (cur.peek = .kwIs ∧ m < 7) := by
    rintro ⟨hc, -⟩
    rw [hc] at harg
    cases harg
  have hwith : ¬ (cur.peek = .kwWith ∧ m < 10) := by
    rintro ⟨hc, -⟩
    rw [hc] at harg
    cases harg
  have hends : ¬ armEnds cur = true := by
    rw [armEnds, hflat]
    exact Bool.false_ne_true
  rw [parseExprTail, if_neg his, if_neg hwith, if_neg fun hc => hbrack hc.1, if_pos ⟨hm, harg⟩]
  exact if_neg hends

theorem tail_call {arg : Expr} {args : List Expr} {last : Expr} (hm : m < 20)
    (harg : canStartArgAtom cur.peek = true) (hflat : cur.noLayoutArm = false)
    (hbrack : cur.peek ≠ .lBrack)
    (hargs : Converges (fun n => parseArgs other n cur) (.ok (arg :: args, cur')))
    (hlast : (arg :: args).getLast? = some last)
    (h : Converges (fun n => parseExprTail other n m cur'
      (.call lhs (arg :: args) (lhs.span.merge last.span))) r) :
    Converges (fun n => parseExprTail other n m cur lhs) r := by
  refine hargs.turn₂ h fun n hn htail => ?_
  rw [tail_args hm harg hflat hbrack, bind_ok hn]
  simp only [hlast]
  exact htail

end Tail

/-! ## Prefixes, atoms and arguments -/

section Atoms

variable {other : Nat → Cursor → ParseM (Expr × Cursor)} {m : Nat} {cur cur' : Cursor}
  {e e' : Expr} {r : Except ParseError (Expr × Cursor)}

/-- The prefix and the tail of `parse_expr_bp`, inside its guard. -/
def parseSpine (other : Nat → Cursor → ParseM (Expr × Cursor)) (fuel m : Nat) (cur : Cursor) :
    ParseM (Expr × Cursor) := do
  let (lhs, cur) ← parsePrefix other fuel cur
  parseExprTail other fuel m cur lhs

/-- The guard leaves when the spine is read. -/
theorem exprBp_of_spine (hd : d < maxParseDepth)
    (h : Converges (fun n => parseSpine other n m (textAt (d + 1) bd ts)) r) :
    Converges (fun n => parseExprBp other n m (textAt d bd ts))
      (r.map fun p => (p.1, p.2.leave)) := by
  refine h.turn₁ fun n hn => ?_
  rw [parseExprBp, enter_text hd, pure_bind]
  rw [parseSpine] at hn
  cases hoperand₀ : parsePrefix other n (textAt (d + 1) bd ts) with
  | none =>
    rw [hoperand₀] at hn
    exact nomatch hn
  | some x =>
    cases x with
    | error err =>
      rw [bind_error hoperand₀] at hn
      cases hn
      rfl
    | ok p =>
      rw [bind_ok hoperand₀] at hn
      show (parseExprTail other n m p.2 p.1 >>= _ : ParseM (Expr × Cursor)) = _
      cases r with
      | error err => exact bind_error hn
      | ok q => exact bind_ok hn

theorem spine_after_operand {lhs : Expr}
    (hoperand₀ : Converges (fun n => parsePrefix other n cur) (.ok (lhs, cur')))
    (h : Converges (fun n => parseExprTail other n m cur' lhs) r) :
    Converges (fun n => parseSpine other n m cur) r := by
  obtain ⟨N, hN⟩ := hoperand₀
  obtain ⟨M, hM⟩ := h
  refine ⟨max N M, fun n hn => ?_⟩
  show parseSpine other n m cur = _
  rw [parseSpine, bind_ok (hN n (by omega))]
  exact hM n (by omega)

theorem prefix_atom (hminus : cur.peek ≠ .minus)
    (hatom : Converges (fun n => parseExprAtom12 other n cur) (.ok (e, cur'))) :
    Converges (fun n => parsePrefix other n cur) (.ok (e, cur')) := by
  refine hatom.turn₁ fun n hn => ?_
  rw [parsePrefix, if_neg hminus]
  exact hn

/-- Outside the keyword forms and assignments, an expression is what the operators give. -/
theorem expr_of_exprBp (hstart : cur.peek = .minus ∨ cur.peek = .lParen ∨
      (∃ text, cur.peek = .lowerIdent text) ∨ cur.peek.isLiteral = true)
    (hbp : Converges (fun n => parseExprBp other n 0 cur) r)
    (hnext : ∀ p, r = .ok p → p.2.peek ≠ .leftArrow) :
    Converges (fun n => parseExpr other n cur) r := by
  refine hbp.turn₁ fun n hn => ?_
  have hcore : parseExpr other (n + 1) cur = (do
      let (lhs, cur) ← parseExprBp other n 0 cur
      if cur.peek = .leftArrow then
        let arrow := cur.span
        let (rhs, cur) ← parseExpr other n cur.bump
        pure (.assign lhs rhs ((lhs.span.merge rhs.span).merge arrow), cur)
      else pure (lhs, cur)) := by
    rw [parseExpr]
    generalize cur.peek = tok at hstart
    cases tok <;> first
      | rfl
      | (rcases hstart with h | h | ⟨_, h⟩ | h <;> cases h)
  rw [hcore]
  cases r with
  | error err => exact bind_error hn
  | ok p =>
    rw [bind_ok hn]
    exact if_neg (hnext p rfl)

theorem atom12_of_atom (hatom : Converges (fun n => parseExprAtom other n cur) (.ok (e, cur')))
    (h : Converges (fun n => parseFieldChain n cur' e) r) :
    Converges (fun n => parseExprAtom12 other n cur) r := by
  refine hatom.turn₂ h fun n hn hchain => ?_
  rw [parseExprAtom12, bind_ok hn]
  exact hchain

theorem fieldChain_stop (h : cur.peek ≠ .dot) :
    Converges (fun n => parseFieldChain n cur e) (.ok (e, cur)) := by
  refine .turn fun n => ?_
  rw [parseFieldChain, if_neg h]
  rfl

variable {text : String}

theorem atom_name (hnext : ∀ u, (textAt d bd rest).peek ≠ .upperIdent u) :
    Converges (fun n => parseExprAtom other n (textAt d bd ((.lowerIdent text, s) :: rest)))
      (.ok (.ident ⟨text, s⟩, textAt d bd rest)) := by
  refine .turn fun n => ?_
  have hpeek : ∀ u, (textAt d bd ((.lowerIdent text, s) :: rest)).peekN 1 ≠ some (.upperIdent u) := by
    intro u h
    cases rest with
    | nil => cases h
    | cons t rest => exact hnext u (Option.some.inj h)
  have htok : (textAt d bd ((.lowerIdent text, s) :: rest)).peek = .lowerIdent text := rfl
  rw [parseExprAtom, htok,
    if_neg (show ¬ (Token.lowerIdent text).startsPatternLiteral = true from Bool.false_ne_true)]
  dsimp only
  split
  · next u _ h => exact absurd h (hpeek u)
  · rfl

theorem atom_literal (h : tok.isLiteral = true) :
    ∃ lit : Literal, lit.token = tok ∧ ∀ rest,
      Converges (fun n => parseExprAtom other n (textAt d bd ((tok, s) :: rest)))
        (.ok (.literal lit, textAt d bd rest)) := by
  have hstep : ∀ lit : Literal, (∀ n rest,
      parseExprAtom other (n + 1) (textAt d bd ((tok, s) :: rest))
        = some (.ok (.literal lit, textAt d bd rest))) →
      ∀ rest, Converges (fun n => parseExprAtom other n (textAt d bd ((tok, s) :: rest)))
        (.ok (.literal lit, textAt d bd rest)) := fun lit hlit rest => .turn fun n => hlit n rest
  cases tok with
  | intDec raw => exact ⟨.intDec raw s, rfl, hstep _ fun n rest => by rw [parseExprAtom]; rfl⟩
  | intBin raw => exact ⟨.intBin raw s, rfl, hstep _ fun n rest => by rw [parseExprAtom]; rfl⟩
  | intOct raw => exact ⟨.intOct raw s, rfl, hstep _ fun n rest => by rw [parseExprAtom]; rfl⟩
  | intHex raw => exact ⟨.intHex raw s, rfl, hstep _ fun n rest => by rw [parseExprAtom]; rfl⟩
  | float raw => exact ⟨.float raw s, rfl, hstep _ fun n rest => by rw [parseExprAtom]; rfl⟩
  | decimalLit raw => exact ⟨.decimal raw s, rfl, hstep _ fun n rest => by rw [parseExprAtom]; rfl⟩
  | kwTrue => exact ⟨.bool true s, rfl, hstep _ fun n rest => by rw [parseExprAtom]; rfl⟩
  | kwFalse => exact ⟨.bool false s, rfl, hstep _ fun n rest => by rw [parseExprAtom]; rfl⟩
  | textLit raw => exact ⟨.text raw s, rfl, hstep _ fun n rest => by rw [parseExprAtom]; rfl⟩
  | rawTextLit raw => exact ⟨.rawText raw s, rfl, hstep _ fun n rest => by rw [parseExprAtom]; rfl⟩
  | _ => exact absurd (show false = true from h) Bool.false_ne_true

section

variable (hstart : (tok = .lParen ∨ (∃ text, tok = .lowerIdent text) ∨ tok.isLiteral = true) ∨ tok = .minus)
include hstart

/-- Before an operand the parenthesis holds an expression. -/
theorem parenExpr_inner {open_ : Span} {n : Nat} :
    parseParenExpr other (n + 1) (textAt d bd ((.lParen, open_) :: (tok, s) :: ts)) = (do
      let (e, cur) ← parseParenInner other n open_ (textAt d (bd + 1) ((tok, s) :: ts))
      pure (e, { cur with bracketDepth := bd })) := by
  rw [parseParenExpr]
  cases tok <;> first
    | rfl
    | (rcases hstart with (h | ⟨_, h⟩ | h) | h <;> cases h)

theorem atom_paren {open_ close_ : Span}
    (h : Converges (fun n => parseExpr other n (textAt d (bd + 1) ((tok, s) :: ts)))
      (.ok (e, textAt d (bd + 1) ((.rParen, close_) :: rest)))) :
    Converges (fun n => parseExprAtom other n (textAt d bd ((.lParen, open_) :: (tok, s) :: ts)))
      (.ok (.paren e (open_.merge close_), textAt d bd rest)) := by
  have hinner : Converges (fun n => parseParenInner other n open_ (textAt d (bd + 1) ((tok, s) :: ts)))
      (.ok (.paren e (open_.merge close_), textAt d (bd + 1) rest)) := by
    refine h.turn₁ fun n hn => ?_
    rw [parseParenInner, bind_ok hn]
    rfl
  have hparen : Converges
      (fun n => parseParenExpr other n (textAt d bd ((.lParen, open_) :: (tok, s) :: ts)))
      (.ok (.paren e (open_.merge close_), textAt d bd rest)) := by
    refine hinner.turn₁ fun n hn => ?_
    rw [parenExpr_inner hstart]
    exact bind_ok hn
  refine hparen.turn₁ fun n hn => ?_
  rw [parseExprAtom]
  exact hn

end

theorem args_nil (h : canStartArgAtom cur.peek = false) :
    Converges (fun n => parseArgs other n cur) (.ok ([], cur)) := by
  refine .turn fun n => ?_
  rw [parseArgs, h]
  rfl

/-- More arguments are read as the later ones are, and fail as they fail. -/
theorem args_cons {rest : Except ParseError (List Expr × Cursor)}
    (h : canStartArgAtom cur.peek = true) (hflat : cur.noLayoutArm = false)
    (harg : Converges (fun n => parseExprAtom12 other n cur) (.ok (e, cur')))
    (hargs : Converges (fun n => parseArgs other n cur') rest) :
    Converges (fun n => parseArgs other n cur) (rest.map fun p => (e :: p.1, p.2)) := by
  refine harg.turn₂ hargs fun n hn hrest => ?_
  have hends : armEnds cur = false := by
    rw [armEnds, hflat]
    rfl
  rw [parseArgs, h, hends]
  show (parseExprAtom12 other n cur >>= _ : ParseM (List Expr × Cursor)) = _
  rw [bind_ok hn]
  cases rest with
  | ok => exact bind_ok hrest
  | error => exact bind_error hrest

/-! ## Fields -/

theorem fieldList_nil (h : cur.peek = .rBrace) :
    Converges (fun n => parseFieldInitList other n cur) (.ok ([], cur)) := by
  refine .turn fun n => ?_
  rw [parseFieldInitList, if_pos h]
  rfl

theorem fieldList_last {field : FieldInit}
    (h : Converges (fun n => parseFieldValue other n ⟨text, s⟩ (textAt d bd ts)) (.ok (field, cur')))
    (hlast : cur'.peek ≠ .comma) :
    Converges (fun n => parseFieldInitList other n (textAt d bd ((.lowerIdent text, s) :: ts)))
      (.ok ([field], cur')) := by
  refine h.turn₁ fun n hn => ?_
  rw [parseFieldInitList, if_neg (by rw [peek_cons]; exact nofun)]
  show (parseFieldValue other n ⟨text, s⟩ (textAt d bd ts) >>= _ :
    ParseM (List FieldInit × Cursor)) = _
  rw [bind_ok hn]
  exact if_neg hlast

theorem fieldList_more {field : FieldInit} {rest : Except ParseError (List FieldInit × Cursor)}
    (h : Converges (fun n => parseFieldValue other n ⟨text, s⟩ (textAt d bd ts)) (.ok (field, cur)))
    (hcomma : cur.peek = .comma)
    (hmore : Converges (fun n => parseFieldInitList other n cur.bump) rest) :
    Converges (fun n => parseFieldInitList other n (textAt d bd ((.lowerIdent text, s) :: ts)))
      (rest.map fun p => (field :: p.1, p.2)) := by
  refine h.turn₂ hmore fun n hn hrest => ?_
  rw [parseFieldInitList, if_neg (by rw [peek_cons]; exact nofun)]
  show (parseFieldValue other n ⟨text, s⟩ (textAt d bd ts) >>= _ :
    ParseM (List FieldInit × Cursor)) = _
  rw [bind_ok hn]
  show (if cur.peek = .comma then _ else _) = _
  rw [if_pos hcomma]
  cases rest with
  | ok => exact bind_ok hrest
  | error => exact bind_error hrest

end Atoms

end Ridge
