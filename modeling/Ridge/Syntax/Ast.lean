import Ridge.Types.Capability

/-!
# The abstract syntax tree

`ridge-ast/src/{expr,pattern,lit,decl,block,ident}.rs`, as far as the modelled passes read it.
Type annotations, attributes, visibility and doc comments are left out.

The records that hold expressions (`MatchArm`, `FieldInit`, `FnDecl`, …) are written over the
type of expressions, so that `Expr` can nest through them.
-/

namespace Ridge

structure Span where
  start : Nat
  stop : Nat
  deriving DecidableEq

structure Ident where
  text : String
  span : Span
  deriving DecidableEq

/-- A dotted path whose first segment is upper-case. -/
structure QualifiedName where
  segments : List Ident
  span : Span
  deriving DecidableEq

/-- Numeric literals carry their raw lexeme, a decimal one with its suffix. -/
inductive Literal where
  | intDec (raw : String) (span : Span)
  | intBin (raw : String) (span : Span)
  | intOct (raw : String) (span : Span)
  | intHex (raw : String) (span : Span)
  | float (raw : String) (span : Span)
  | decimal (raw : String) (span : Span)
  | bool (value : Bool) (span : Span)
  | text (raw : String) (span : Span)
  | rawText (raw : String) (span : Span)
  deriving DecidableEq

/-! ## Patterns -/

/-- A field of a record pattern; without a sub-pattern it binds a variable of its own name. -/
structure FieldPatternOf (π : Type) where
  name : Ident
  pattern : Option π
  span : Span

/-- An element of a bracketed list pattern. -/
inductive ListPatElemOf (π : Type) where
  | elem (p : π)
  | rest (bind : Option Ident) (span : Span)

inductive Pattern where
  | wildcard (span : Span)
  | literal (lit : Literal) (span : Span)
  | var (name : Ident) (span : Span)
  | constructor (qualifier : Option QualifiedName) (name : Ident)
      (fields : Option (List (FieldPatternOf Pattern))) (hasRest : Bool) (args : List Pattern)
      (span : Span)
  | tuple (elems : List Pattern) (span : Span)
  | cons (head tail : Pattern) (span : Span)
  | bound (name : Ident) (inner : Pattern) (span : Span)
  | paren (inner : Pattern) (span : Span)
  | listNil (span : Span)
  | list (elements : List (ListPatElemOf Pattern)) (span : Span)
  | record (fields : List (FieldPatternOf Pattern)) (hasRest : Bool) (span : Span)
  | or (alts : List Pattern) (span : Span)

abbrev FieldPattern := FieldPatternOf Pattern
abbrev ListPatElem := ListPatElemOf Pattern

namespace Pattern

mutual
/-- The names a pattern binds. -/
def binders : Pattern → List String
  | .wildcard _ => []
  | .literal _ _ => []
  | .var name _ => [name.text]
  | .constructor _ _ fields _ args _ => bindersFieldsOpt fields ++ bindersAll args
  | .tuple elems _ => bindersAll elems
  | .cons head tail _ => head.binders ++ tail.binders
  | .bound name inner _ => name.text :: inner.binders
  | .paren inner _ => inner.binders
  | .listNil _ => []
  | .list elements _ => bindersElems elements
  | .record fields _ _ => bindersFields fields
  | .or alts _ => bindersAll alts

def bindersAll : List Pattern → List String
  | [] => []
  | p :: ps => p.binders ++ bindersAll ps

def bindersFieldsOpt : Option (List (FieldPatternOf Pattern)) → List String
  | none => []
  | some fields => bindersFields fields

def bindersFields : List (FieldPatternOf Pattern) → List String
  | [] => []
  | ⟨name, none, _⟩ :: fs => name.text :: bindersFields fs
  | ⟨_, some p, _⟩ :: fs => p.binders ++ bindersFields fs

def bindersElems : List (ListPatElemOf Pattern) → List String
  | [] => []
  | .elem p :: es => p.binders ++ bindersElems es
  | .rest none _ :: es => bindersElems es
  | .rest (some name) _ :: es => name.text :: bindersElems es
end

end Pattern

/-! ## Expressions -/

structure BlockOf (ε : Type) where
  stmts : List ε
  span : Span

structure MatchArmOf (ε : Type) where
  pattern : Pattern
  guard : Option ε
  body : ε
  span : Span

inductive InterpPartOf (ε : Type) where
  | text (raw : String) (span : Span)
  | expr (expr : ε) (span : Span)

/-- A field of a record construction or update; without a value it is the variable of its own
name. -/
structure FieldInitOf (ε : Type) where
  name : Ident
  value : Option ε
  span : Span

/-- A function parameter: a name or a destructuring pattern. -/
inductive Param where
  | bare (name : Ident)
  | annotated (name : Ident) (span : Span)
  | pattern (pat : Pattern) (span : Span)
  | patternAnnotated (pat : Pattern) (span : Span)

def Param.binders : Param → List String
  | .bare name => [name.text]
  | .annotated name _ => [name.text]
  | .pattern pat _ => pat.binders
  | .patternAnnotated pat _ => pat.binders

/-- Where the implementation of a function comes from. -/
inductive BodyOf (ε : Type) where
  | expr (e : ε)
  | ffi
  | primitive

structure FnDeclOf (ε : Type) where
  caps : List Capability
  name : Ident
  params : List Param
  body : BodyOf ε
  span : Span

inductive AskTimeoutOf (ε : Type) where
  | never
  | millis (e : ε)

inductive RecordCtor where
  | bare (name : Ident)
  | qualified (name : QualifiedName)

inductive BinOp where
  | pipe | or | and | eq | ne | lt | gt | le | ge | concat | cons | add | sub | mul | div | mod
  | pow
  deriving DecidableEq

inductive UnaryOp where
  | neg
  deriving DecidableEq

inductive Expr where
  | is (subject : Expr) (pattern : Pattern) (span : Span)
  | literal (lit : Literal)
  | unit (span : Span)
  | ident (id : Ident)
  | qualified (q : QualifiedName)
  | interp (parts : List (InterpPartOf Expr)) (span : Span)
  | list (elems : List Expr) (span : Span)
  | tuple (elems : List Expr) (span : Span)
  | paren (inner : Expr) (span : Span)
  | fieldAccessorFn (field : Ident) (span : Span)
  | binary (op : BinOp) (lhs rhs : Expr) (span : Span)
  | unary (op : UnaryOp) (expr : Expr) (span : Span)
  | call (callee : Expr) (args : List Expr) (span : Span)
  | fieldAccess (base : Expr) (field : Ident) (span : Span)
  | pipe (lhs rhs : Expr) (span : Span)
  | lambda (params : List Pattern) (body : Expr) (span : Span)
  | innerFn (decl : FnDeclOf Expr) (span : Span)
  | record (constructor : RecordCtor) (fields : List (FieldInitOf Expr)) (span : Span)
  | recordLit (fields : List (FieldInitOf Expr)) (span : Span)
  | with (base : Expr) (fields : List (FieldInitOf Expr)) (span : Span)
  | ask (handle : Expr) (message : Ident) (args : List Expr)
      (timeout : Option (AskTimeoutOf Expr)) (span : Span)
  | send (handle message : Expr) (span : Span)
  | spawn (actor : Ident) (args : List Expr) (span : Span)
  | childSpec (actor : Ident) (args : List Expr) (span : Span)
  | propagate (inner : Expr) (span : Span)
  | ite (cond thenBranch : Expr) (elseBranch : Option Expr) (span : Span)
  | match (scrutinee : Expr) (arms : List (MatchArmOf Expr)) (span : Span)
  | try (block : BlockOf Expr) (span : Span)
  | guard (cond : Expr) (elseBranch : BlockOf Expr) (span : Span)
  | ret (value : Expr) (span : Span)
  | let (pat : Pattern) (value : Expr) (span : Span)
  | var (name : Ident) (value : Expr) (span : Span)
  | assign (target value : Expr) (span : Span)
  | block (block : BlockOf Expr)

abbrev Block := BlockOf Expr
abbrev MatchArm := MatchArmOf Expr
abbrev InterpPart := InterpPartOf Expr
abbrev FieldInit := FieldInitOf Expr
abbrev Body := BodyOf Expr
abbrev FnDecl := FnDeclOf Expr
abbrev AskTimeout := AskTimeoutOf Expr

/-! ## Spans -/

def Literal.span : Literal → Span
  | .intDec _ span | .intBin _ span | .intOct _ span | .intHex _ span | .float _ span
  | .decimal _ span | .bool _ span | .text _ span | .rawText _ span => span

def Expr.span : Expr → Span
  | .literal lit => lit.span
  | .unit span => span
  | .ident id => id.span
  | .qualified q => q.span
  | .block region => region.span
  | .is _ _ span | .interp _ span | .list _ span | .tuple _ span | .paren _ span
  | .fieldAccessorFn _ span | .binary _ _ _ span | .unary _ _ span | .call _ _ span
  | .fieldAccess _ _ span | .pipe _ _ span | .lambda _ _ span | .innerFn _ span
  | .record _ _ span | .recordLit _ span | .with _ _ span | .ask _ _ _ _ span
  | .send _ _ span | .spawn _ _ span | .childSpec _ _ span | .propagate _ span
  | .ite _ _ _ span | .match _ _ span | .try _ span | .guard _ _ span | .ret _ span
  | .let _ _ span | .var _ _ span | .assign _ _ span => span

/-!
## Tokens

`ridge-lexer/src/token.rs`. A token carries its text as the source has it; the parser reads a list
of tokens with their spans, which the layout pass ends with `eof`.
-/

inductive Token where
  | kwActor | kwAs | kwCatch | kwClass | kwConst | kwDeriving | kwElse | kwFalse | kwFn | kwFor
  | kwGuard | kwIf | kwImport | kwIn | kwInit | kwInstance | kwLet | kwMatch | kwIs | kwOn
  | kwOpaque | kwPub | kwReturn | kwSpawn | kwState | kwThen | kwTrue | kwTry | kwType | kwVar
  | kwWhen | kwWhere | kwWhile | kwWith
  | lowerIdent (text : String)
  | upperIdent (text : String)
  | underscore
  | intDec (raw : String)
  | intBin (raw : String)
  | intOct (raw : String)
  | intHex (raw : String)
  | float (raw : String)
  | decimalLit (raw : String)
  | textLit (raw : String)
  | rawTextLit (raw : String)
  | interpStart
  | interpText (raw : String)
  | interpExprStart
  | interpExprEnd
  | interpEnd
  | pipeFwd | leftArrow | questionGt | question | bang | colonColon | plusPlus | arrow | fatArrow
  | at | dotDot | assign | colon | comma | dot
  | lParen | rParen | lBrack | rBrack | lBrace | rBrace
  | pipe | plus | minus | star | slash | percent | caret | ampAmp | pipePipe
  | eqEq | bangEq | lt | gt | le | ge
  | docComment (text : String)
  | newline | indent | dedent | eof
  deriving DecidableEq

namespace Token

def keywordText : Token → Option String
  | kwActor => some "actor"
  | kwAs => some "as"
  | kwCatch => some "catch"
  | kwClass => some "class"
  | kwConst => some "const"
  | kwDeriving => some "deriving"
  | kwElse => some "else"
  | kwFalse => some "false"
  | kwFn => some "fn"
  | kwFor => some "for"
  | kwGuard => some "guard"
  | kwIf => some "if"
  | kwImport => some "import"
  | kwIn => some "in"
  | kwInit => some "init"
  | kwInstance => some "instance"
  | kwLet => some "let"
  | kwMatch => some "match"
  | kwIs => some "is"
  | kwOn => some "on"
  | kwOpaque => some "opaque"
  | kwPub => some "pub"
  | kwReturn => some "return"
  | kwSpawn => some "spawn"
  | kwState => some "state"
  | kwThen => some "then"
  | kwTrue => some "true"
  | kwTry => some "try"
  | kwType => some "type"
  | kwVar => some "var"
  | kwWhen => some "when"
  | kwWhere => some "where"
  | kwWhile => some "while"
  | kwWith => some "with"
  | _ => none

/-- Opening brackets, for the scans that look for a token outside brackets. -/
def opens : Token → Bool
  | lParen | lBrack | lBrace => true
  | _ => false

def closes : Token → Bool
  | rParen | rBrack | rBrace => true
  | _ => false

end Token

def Span.merge (a b : Span) : Span := ⟨min a.start b.start, max a.stop b.stop⟩

/-- `Span::point(0)`, where there is no token. -/
def Span.origin : Span := ⟨0, 0⟩

def Pattern.span : Pattern → Span
  | .wildcard span | .literal _ span | .var _ span | .constructor _ _ _ _ _ span
  | .tuple _ span | .cons _ _ span | .bound _ _ span | .paren _ span | .listNil span
  | .list _ span | .record _ _ span | .or _ span => span

/-!
## Subexpressions

`Expr.children` lists the direct subexpressions of an expression, and `Expr.inductionOn` is induction
along it. The passes that walk expressions differ in the children they visit; their lemmas are
about children and not about forty forms.
-/

open List

variable {e : Expr}

namespace BodyOf

variable {ε : Type}

def exprs : BodyOf ε → List ε
  | .expr e => [e]
  | .ffi => []
  | .primitive => []

end BodyOf

namespace AskTimeoutOf

variable {ε : Type}

def exprs : AskTimeoutOf ε → List ε
  | .never => []
  | .millis e => [e]

end AskTimeoutOf

namespace InterpPartOf

variable {ε : Type}

def exprs : InterpPartOf ε → List ε
  | .text _ _ => []
  | .expr e _ => [e]

end InterpPartOf

namespace MatchArmOf

variable {ε : Type}

def exprs (arm : MatchArmOf ε) : List ε := arm.guard.toList ++ [arm.body]

end MatchArmOf

namespace FieldInitOf

variable {ε : Type}

def exprs (field : FieldInitOf ε) : List ε := field.value.toList

end FieldInitOf

namespace Expr

/-- The direct subexpressions. -/
def children : Expr → List Expr
  | .is subject _ _ => [subject]
  | .literal _ => []
  | .unit _ => []
  | .ident _ => []
  | .qualified _ => []
  | .interp parts _ => parts.flatMap InterpPartOf.exprs
  | .list elems _ => elems
  | .tuple elems _ => elems
  | .paren inner _ => [inner]
  | .fieldAccessorFn _ _ => []
  | .binary _ lhs rhs _ => [lhs, rhs]
  | .unary _ expr _ => [expr]
  | .call callee args _ => callee :: args
  | .fieldAccess base _ _ => [base]
  | .pipe lhs rhs _ => [lhs, rhs]
  | .lambda _ body _ => [body]
  | .innerFn decl _ => decl.body.exprs
  | .record _ fields _ => fields.flatMap FieldInitOf.exprs
  | .recordLit fields _ => fields.flatMap FieldInitOf.exprs
  | .with base fields _ => base :: fields.flatMap FieldInitOf.exprs
  | .ask handle _ args timeout _ =>
    handle :: args ++ timeout.toList.flatMap AskTimeoutOf.exprs
  | .send handle message _ => [handle, message]
  | .spawn _ args _ => args
  | .childSpec _ args _ => args
  | .propagate inner _ => [inner]
  | .ite cond thenBranch elseBranch _ => cond :: thenBranch :: elseBranch.toList
  | .match scrutinee arms _ => scrutinee :: arms.flatMap MatchArmOf.exprs
  | .try region _ => region.stmts
  | .guard cond elseBranch _ => cond :: elseBranch.stmts
  | .ret value _ => [value]
  | .let _ value _ => [value]
  | .var _ value _ => [value]
  | .assign target value _ => [target, value]
  | .block region => region.stmts

/-! ## Children are smaller -/

theorem sizeOf_toList {o : Option Expr} (h : e ∈ o.toList) : sizeOf e < sizeOf o := by
  cases o with
  | none => simp at h
  | some x =>
    obtain rfl : e = x := by simpa using h
    simp

theorem sizeOf_bodyExprs {body : BodyOf Expr} (h : e ∈ body.exprs) : sizeOf e < sizeOf body := by
  cases body with
  | expr x =>
    rw [BodyOf.exprs, mem_singleton] at h
    subst h
    simp
  | ffi | primitive => simp [BodyOf.exprs] at h

theorem sizeOf_timeoutExprs {timeout : AskTimeoutOf Expr} (h : e ∈ timeout.exprs) :
    sizeOf e < sizeOf timeout := by
  cases timeout with
  | never => simp [AskTimeoutOf.exprs] at h
  | millis x =>
    rw [AskTimeoutOf.exprs, mem_singleton] at h
    subst h
    simp

theorem sizeOf_partExprs {part : InterpPartOf Expr} (h : e ∈ part.exprs) :
    sizeOf e < sizeOf part := by
  cases part with
  | text raw span => simp [InterpPartOf.exprs] at h
  | expr x span =>
    rw [InterpPartOf.exprs, mem_singleton] at h
    subst h
    simp only [InterpPartOf.expr.sizeOf_spec]
    omega

theorem sizeOf_armExprs {arm : MatchArmOf Expr} (h : e ∈ arm.exprs) : sizeOf e < sizeOf arm := by
  obtain ⟨pattern, guard, body, span⟩ := arm
  rw [MatchArmOf.exprs, mem_append, mem_singleton] at h
  simp only [MatchArmOf.mk.sizeOf_spec]
  rcases h with h | h
  · have : sizeOf e < sizeOf guard := sizeOf_toList h
    omega
  · subst h
    omega

theorem sizeOf_fieldExprs {field : FieldInitOf Expr} (h : e ∈ field.exprs) :
    sizeOf e < sizeOf field := by
  obtain ⟨name, value, span⟩ := field
  have : sizeOf e < sizeOf value := sizeOf_toList h
  simp only [FieldInitOf.mk.sizeOf_spec]
  omega

/-- What is true of the parts of a list's elements is true of the list. -/
theorem sizeOf_flatMap {α : Type} [SizeOf α] {f : α → List Expr}
    (hf : ∀ {a e}, e ∈ f a → sizeOf e < sizeOf a) {as : List α} (h : e ∈ as.flatMap f) :
    sizeOf e < sizeOf as := by
  obtain ⟨a, ha, he⟩ := mem_flatMap.mp h
  have := hf he
  have := sizeOf_lt_of_mem ha
  omega

theorem sizeOf_children {c : Expr} (h : c ∈ e.children) : sizeOf c < sizeOf e := by
  cases e <;> simp only [children, mem_cons, mem_append, not_mem_nil, or_false,
    cons_append] at h
  case is | paren | unary | fieldAccess | lambda | propagate | ret | «let» | var =>
    subst h
    decreasing_tactic
  case binary | pipe | send | assign =>
    rcases h with rfl | rfl <;> decreasing_tactic
  case list | tuple | spawn | childSpec =>
    have := sizeOf_lt_of_mem h
    clear h
    decreasing_tactic
  case interp =>
    have := sizeOf_flatMap sizeOf_partExprs h
    clear h
    decreasing_tactic
  case record | recordLit =>
    have := sizeOf_flatMap sizeOf_fieldExprs h
    clear h
    decreasing_tactic
  case innerFn decl span =>
    obtain ⟨caps, name, params, body, span'⟩ := decl
    have : sizeOf c < sizeOf body := sizeOf_bodyExprs h
    clear h
    decreasing_tactic
  case call =>
    rcases h with rfl | h
    · decreasing_tactic
    · have := sizeOf_lt_of_mem h
      clear h
      decreasing_tactic
  case «with» =>
    rcases h with rfl | h
    · decreasing_tactic
    · have := sizeOf_flatMap sizeOf_fieldExprs h
      clear h
      decreasing_tactic
  case ask timeout span =>
    rcases h with rfl | h | h
    · decreasing_tactic
    · have := sizeOf_lt_of_mem h
      clear h
      decreasing_tactic
    · cases timeout with
      | none => simp at h
      | some timeout =>
        have : sizeOf c < sizeOf timeout := sizeOf_timeoutExprs (by simpa using h)
        clear h
        decreasing_tactic
  case ite =>
    rcases h with rfl | rfl | h
    · decreasing_tactic
    · decreasing_tactic
    · have := sizeOf_toList h
      clear h
      decreasing_tactic
  case «match» =>
    rcases h with rfl | h
    · decreasing_tactic
    · have := sizeOf_flatMap sizeOf_armExprs h
      clear h
      decreasing_tactic
  case «try» region span =>
    obtain ⟨stmts, span'⟩ := region
    have : sizeOf c < sizeOf stmts := sizeOf_lt_of_mem h
    clear h
    decreasing_tactic
  case guard region span =>
    obtain ⟨stmts, span'⟩ := region
    rcases h with rfl | h
    · decreasing_tactic
    · have : sizeOf c < sizeOf stmts := sizeOf_lt_of_mem h
      clear h
      decreasing_tactic
  case block region =>
    obtain ⟨stmts, span'⟩ := region
    have : sizeOf c < sizeOf stmts := sizeOf_lt_of_mem h
    clear h
    decreasing_tactic

theorem inductionOn {P : Expr → Prop} (h : ∀ e, (∀ c ∈ e.children, P c) → P e) (e : Expr) : P e := by
  induction hk : sizeOf e using Nat.strong_induction_on generalizing e with
  | _ k ih =>
    refine h e fun c hc => ih (sizeOf c) ?_ c rfl
    have := sizeOf_children hc
    omega

end Expr

end Ridge
