import Ridge.Parser.Steps

/-!
# Closed trees

A tree is closed if every operand has the level that its operator requires. `close` makes a tree
closed and keeps it under its parentheses; a tree's text starts with a token of an operand.
-/

namespace Ridge

open List

namespace Level

/-- The binding power of the loosest operator of a level: a minimum below it takes the operator. -/
def bp : Level → Nat
  | pipe => 1
  | or => 4
  | and => 6
  | equality => 7
  | relational => 9
  | update => 10
  | concat => 12
  | additive => 13
  | multiplicative => 15
  | power => 18
  | unary | application | atom => 20

/-- The binding power up to which a following operator takes a tree of the level whole. -/
def stop : Level → Nat
  | pipe => 2
  | or => 3
  | and => 5
  | equality | relational => 6
  | update => 10
  | concat => 11
  | additive => 14
  | multiplicative => 16
  | power => 17
  | unary | application | atom => 19

variable {a b : Level}

theorem bp_mono (h : a ≤ b) : a.bp ≤ b.bp := by
  revert h
  cases a <;> cases b <;> decide

theorem stop_mono (h : a ≤ b) : a.stop ≤ b.stop := by
  revert h
  cases a <;> cases b <;> decide

theorem bp_pos (a : Level) : 0 < a.bp := by
  cases a <;> decide

theorem le_atom (a : Level) : a ≤ .atom := by
  cases a <;> decide

theorem atom_le {a : Level} (h : Level.atom ≤ a) : a = .atom := by
  revert h
  cases a <;> decide

end Level

namespace Tree

/-! ## Recursion -/

/-- What holds of a tree if it holds of its operands, arguments and field values. -/
theorem byParts {P : Tree → Prop} (name : ∀ text, P (.name text))
    (literal : ∀ tok h, P (.literal tok h))
    (binary : ∀ op lhs rhs, P lhs → P rhs → P (.binary op lhs rhs))
    (neg : ∀ operand, P operand → P (.neg operand))
    (is : ∀ subject pattern, P subject → P (.is subject pattern))
    (update : ∀ base fields, P base → (∀ f ∈ fields, ∀ v ∈ f.2, P v) → P (.with base fields))
    (call : ∀ callee arg args, P callee → P arg → (∀ a ∈ args, P a) → P (.call callee arg args))
    (field : ∀ base text, P base → P (.field base text))
    (paren : ∀ inner, P inner → P (.paren inner)) (t : Tree) : P t := by
  refine Tree.rec (motive_1 := P) (motive_2 := fun fields => ∀ f ∈ fields, ∀ v ∈ f.2, P v)
    (motive_3 := fun args => ∀ a ∈ args, P a) (motive_4 := fun f => ∀ v ∈ f.2, P v)
    (motive_5 := fun value => ∀ v ∈ value, P v)
    name literal binary neg is update call field paren ?_ ?_ ?_ ?_ ?_ ?_ ?_ t
  · exact nofun
  · exact fun _ _ hf hfields => forall_mem_cons.mpr ⟨hf, hfields⟩
  · exact nofun
  · exact fun _ _ ha hargs => forall_mem_cons.mpr ⟨ha, hargs⟩
  · exact fun _ _ hv => hv
  · exact nofun
  · exact fun v hv w hw => Option.some.inj hw ▸ hv

/-! ## Closed trees -/

mutual

/-- Every operand has the level it needs. -/
def Closed : Tree → Prop
  | .name _ => True
  | .literal _ _ => True
  | .binary op lhs rhs =>
    (op.leftLevel ≤ lhs.level ∧ op.rightLevel ≤ rhs.level) ∧ lhs.Closed ∧ rhs.Closed
  | .neg operand => .unary ≤ operand.level ∧ operand.Closed
  | .is subject _ => .update ≤ subject.level ∧ subject.Closed
  | .with base fields => .update ≤ base.level ∧ base.Closed ∧ ClosedFields fields
  | .call callee arg args =>
    (.atom ≤ callee.level ∧ callee.Closed) ∧ (.atom ≤ arg.level ∧ arg.Closed) ∧ ClosedArgs args
  | .field base _ => .atom ≤ base.level ∧ base.Closed
  | .paren inner => inner.Closed

def ClosedArgs : List Tree → Prop
  | [] => True
  | arg :: args => (.atom ≤ arg.level ∧ arg.Closed) ∧ ClosedArgs args

def ClosedFields : List (String × Option Tree) → Prop
  | [] => True
  | (_, value) :: fields => ClosedValue value ∧ ClosedFields fields

def ClosedValue : Option Tree → Prop
  | none => True
  | some value => value.Closed

end

theorem level_close (t : Tree) : t.close.level = t.level := by
  cases t <;> rfl

theorem level_atLeast (l : Level) (t : Tree) : l ≤ (atLeast l t).level := by
  rw [atLeast]
  by_cases h : l ≤ t.level
  · rw [if_pos h]
    exact h
  · rw [if_neg h]
    exact Level.le_atom l

variable {t : Tree}

theorem closed_atLeast {l : Level} (h : t.Closed) : (atLeast l t).Closed := by
  rw [atLeast]
  by_cases hl : l ≤ t.level
  · rwa [if_pos hl]
  · rwa [if_neg hl]

theorem closed_close (t : Tree) : t.close.Closed := by
  induction t using byParts with
  | name => trivial
  | literal => trivial
  | binary op lhs rhs hl hr =>
    exact ⟨⟨level_atLeast _ _, level_atLeast _ _⟩, closed_atLeast hl, closed_atLeast hr⟩
  | neg operand h | is subject pattern h => exact ⟨level_atLeast _ _, closed_atLeast h⟩
  | update base fields hbase hfields =>
    refine ⟨level_atLeast _ _, closed_atLeast hbase, ?_⟩
    induction fields with
    | nil => trivial
    | cons f fields ih =>
      obtain ⟨text, value⟩ := f
      refine ⟨?_, ih fun g hg => hfields g (mem_cons_of_mem _ hg)⟩
      cases value with
      | none => trivial
      | some v => exact hfields _ mem_cons_self v rfl
  | call callee arg args hcallee harg hargs =>
    refine ⟨⟨level_atLeast _ _, closed_atLeast hcallee⟩,
      ⟨level_atLeast _ _, closed_atLeast harg⟩, ?_⟩
    induction args with
    | nil => trivial
    | cons a args ih =>
      exact ⟨⟨level_atLeast _ _, closed_atLeast (hargs a mem_cons_self)⟩,
        ih fun b hb => hargs b (mem_cons_of_mem _ hb)⟩
  | field base text h => exact ⟨level_atLeast _ _, closed_atLeast h⟩
  | paren inner h => exact h

/-- Closing puts in parentheses and nothing else. -/
theorem bare_atLeast (l : Level) (t : Tree) : (atLeast l t).bare = t.bare := by
  rw [atLeast]
  by_cases h : l ≤ t.level
  · rw [if_pos h]
  · rw [if_neg h]
    rfl

theorem bare_close (t : Tree) : t.close.bare = t.bare := by
  induction t using byParts with
  | name => rfl
  | literal => rfl
  | binary op lhs rhs hl hr =>
    rw [close, bare, bare_atLeast, bare_atLeast, hl, hr, bare]
  | neg operand h | is subject pattern h => rw [close, bare, bare_atLeast, h, bare]
  | update base fields hbase hfields =>
    have hrest : bareFields (closeFields fields) = bareFields fields := by
      induction fields with
      | nil => rfl
      | cons f fields ih =>
        obtain ⟨text, value⟩ := f
        rw [closeFields, bareFields, ih fun g hg => hfields g (mem_cons_of_mem _ hg),
          bareFields]
        cases value with
        | none => rfl
        | some v => rw [closeValue, bareValue, hfields _ mem_cons_self v rfl, bareValue]
    rw [close, bare, bare_atLeast, hbase, hrest, bare]
  | call callee arg args hcallee harg hargs =>
    have hrest : bareArgs (closeArgs args) = bareArgs args := by
      induction args with
      | nil => rfl
      | cons a args ih =>
        rw [closeArgs, bareArgs, bare_atLeast, hargs a mem_cons_self,
          ih fun b hb => hargs b (mem_cons_of_mem _ hb), bareArgs]
    rw [close, bare, bare_atLeast, bare_atLeast, hcallee, harg, hrest, bare]
  | field base text h => rw [close, bare, bare_atLeast, h, bare]
  | paren inner h => exact h

theorem updatesLeft_atLeast {l : Level} (h : t.UpdatesLeft) : (atLeast l t).UpdatesLeft := by
  rw [atLeast]
  by_cases hl : l ≤ t.level
  · rwa [if_pos hl]
  · rwa [if_neg hl]

theorem updatesLeft_close (h : t.UpdatesLeft) : t.close.UpdatesLeft := by
  induction t using byParts with
  | name => trivial
  | literal => trivial
  | binary op lhs rhs hl hr =>
    refine ⟨fun hc => h.1 ⟨hc.1, ?_⟩, updatesLeft_atLeast (hl h.2.1), updatesLeft_atLeast (hr h.2.2)⟩
    have hlevel := hc.2
    rw [atLeast] at hlevel
    by_cases hr : op.rightLevel ≤ rhs.close.level
    · rwa [if_pos hr, level_close] at hlevel
    · rw [if_neg hr] at hlevel
      cases hlevel
  | neg operand ih | is subject pattern ih => exact updatesLeft_atLeast (ih h)
  | update base fields hbase hfields =>
    refine ⟨updatesLeft_atLeast (hbase h.1), ?_⟩
    have hleft := h.2
    clear h
    induction fields with
    | nil => trivial
    | cons f fields ih =>
      obtain ⟨text, value⟩ := f
      refine ⟨?_, ih (fun g hg => hfields g (mem_cons_of_mem _ hg)) hleft.2⟩
      cases value with
      | none => trivial
      | some v => exact hfields _ mem_cons_self v rfl hleft.1
  | call callee arg args hcallee harg hargs =>
    refine ⟨updatesLeft_atLeast (hcallee h.1), updatesLeft_atLeast (harg h.2.1), ?_⟩
    have hleft := h.2.2
    clear h
    induction args with
    | nil => trivial
    | cons a args ih =>
      exact ⟨updatesLeft_atLeast (hargs a mem_cons_self hleft.1),
        ih (fun b hb => hargs b (mem_cons_of_mem _ hb)) hleft.2⟩
  | field base text ih => exact updatesLeft_atLeast (ih h)
  | paren inner ih => exact ih h

theorem mem_args {args : List Tree} (hclosed : ClosedArgs args) (hleft : UpdatesLeftArgs args)
    {a : Tree} (ha : a ∈ args) : (a.Closed ∧ a.level = .atom) ∧ a.UpdatesLeft := by
  induction args with
  | nil => cases ha
  | cons b args ih =>
    rcases mem_cons.mp ha with rfl | ha
    · exact ⟨⟨hclosed.1.2, Level.atom_le hclosed.1.1⟩, hleft.1⟩
    · exact ih hclosed.2 hleft.2 ha

theorem mem_fields {fields : List (String × Option Tree)} (hclosed : ClosedFields fields)
    (hleft : UpdatesLeftFields fields) {f : String × Option Tree} (hf : f ∈ fields) {v : Tree}
    (hv : v ∈ f.2) : v.Closed ∧ v.UpdatesLeft := by
  induction fields with
  | nil => cases hf
  | cons g fields ih =>
    rcases mem_cons.mp hf with rfl | hf
    · obtain ⟨text, value⟩ := f
      obtain rfl : value = some v := hv
      exact ⟨hclosed.1, hleft.1⟩
    · exact ih hclosed.2 hleft.2 hf

/-! ## Where a text starts -/

end Tree

/-- The first tokens of operands; a minus only where the level allows it. -/
def startsAtom (tok : Token) : Prop :=
  tok = .lParen ∨ (∃ text, tok = .lowerIdent text) ∨ tok.isLiteral = true

variable {tok : Token}

theorem startsAtom.arg (h : startsAtom tok) : canStartArgAtom tok = true := by
  rcases h with rfl | ⟨text, rfl⟩ | h
  · rfl
  · rfl
  · cases tok <;> first
      | rfl
      | exact absurd (show false = true from h) Bool.false_ne_true

theorem startsAtom.ne (h : startsAtom tok) :
    tok ≠ .minus ∧ tok ≠ .dot ∧ tok ≠ .lBrack ∧ ∀ text, tok ≠ .upperIdent text := by
  rcases h with rfl | ⟨text, rfl⟩ | h
  · exact ⟨nofun, nofun, nofun, nofun⟩
  · exact ⟨nofun, nofun, nofun, nofun⟩
  · cases tok <;> first
      | exact absurd (show false = true from h) Bool.false_ne_true
      | exact ⟨nofun, nofun, nofun, nofun⟩

namespace Tree

theorem write_start (t : Tree) (h : t.Closed) :
    ∃ tok toks, t.write = tok :: toks ∧ (startsAtom tok ∨ tok = .minus) ∧
      (.application ≤ t.level → startsAtom tok) := by
  induction t using byParts with
  | name text => exact ⟨_, _, rfl, .inl (.inr (.inl ⟨text, rfl⟩)), fun _ => .inr (.inl ⟨text, rfl⟩)⟩
  | literal tok hlit => exact ⟨_, _, rfl, .inl (.inr (.inr hlit)), fun _ => .inr (.inr hlit)⟩
  | binary op lhs rhs hl hr =>
    obtain ⟨tok, toks, hwrite, hstart, -⟩ := hl h.2.1
    have hloose : ¬ Level.application ≤ op.level := by
      cases op <;> decide
    exact ⟨tok, _, by rw [write, hwrite]; rfl, hstart, fun hlevel => absurd hlevel hloose⟩
  | neg operand => exact ⟨.minus, _, rfl, .inr rfl,
      fun hlevel => absurd hlevel (show ¬ Level.application ≤ .unary by decide)⟩
  | is subject pattern ih =>
    obtain ⟨tok, toks, hwrite, hstart, -⟩ := ih h.2
    exact ⟨tok, _, by rw [write, hwrite]; rfl, hstart,
      fun hlevel => absurd hlevel (show ¬ Level.application ≤ .equality by decide)⟩
  | update base fields hbase =>
    obtain ⟨tok, toks, hwrite, hstart, -⟩ := hbase h.2.1
    exact ⟨tok, _, by rw [write, hwrite]; rfl, hstart,
      fun hlevel => absurd hlevel (show ¬ Level.application ≤ .update by decide)⟩
  | call callee arg args hcallee =>
    obtain ⟨tok, toks, hwrite, -, hatom⟩ := hcallee h.1.2
    have hstart := hatom (Level.le_trans (by decide) h.1.1)
    exact ⟨tok, _, by rw [write, hwrite]; rfl, .inl hstart, fun _ => hstart⟩
  | field base text ih =>
    obtain ⟨tok, toks, hwrite, -, hatom⟩ := ih h.2
    have hstart := hatom (Level.le_trans (by decide) h.1)
    exact ⟨tok, _, by rw [write, hwrite]; rfl, .inl hstart, fun _ => hstart⟩
  | paren inner => exact ⟨.lParen, _, rfl, .inl (.inl rfl), fun _ => .inl rfl⟩

end Tree

end Ridge
