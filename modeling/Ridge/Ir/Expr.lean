import Ridge.Data.Sql

/-!
# The core IR

The expression language that lowering hands to code generation
(`ridge-ir/src/expr.rs`, `pat.rs`, `symbol.rs`, `lit.rs`). Node identities, spans, types and
capability sets are left out: nothing that code generation decides for an early exit reads
them.
-/

namespace Ridge

inductive IrLit where
  | int (n : Int)
  | float (x : Float64)
  | bool (b : Bool)
  | text (s : String)
  | unit
  | emptyList
  deriving DecidableEq

inductive CtorKind where
  | record
  | unionVariant
  deriving DecidableEq

/-- `SymbolRef`, with a module and a class named by their numbers. -/
inductive SymbolRef where
  | local (name : String) (module : Nat)
  | stdlib (module name : String)
  | external (module : Nat) (name : String)
  | handler (actorModule : Nat) (actor handler : String)
  | actorType (module : Nat) (name : String)
  | constructor (kind : CtorKind) (name : String)
  | prelude (name : String)
  | method (cls : Nat) (method : String)
  deriving DecidableEq

/-- A `bind` with an inner pattern is an `as` pattern. -/
inductive IrPat where
  | wild
  | lit (value : IrLit)
  | bind (name : String) (inner : Option IrPat)
  | ctor (sym : SymbolRef) (fields : List (String × IrPat)) (args : List IrPat)
  | tuple (elems : List IrPat)
  | cons (head tail : IrPat)
  | nil

inductive AssignTarget where
  | local (name : String)
  | stateField (name : String)
  deriving DecidableEq

mutual

inductive IrExpr where
  | lit (value : IrLit)
  | local (name : String)
  | symbol (sym : SymbolRef)
  | call (callee : IrExpr) (args : List IrExpr)
  | lambda (params : List String) (body : IrExpr)
  | construct (ctor : SymbolRef) (fields : List (String × IrExpr))
  | recordUpdate (base : IrExpr) (updates : List (String × IrExpr))
  | field (base : IrExpr) (name : String)
  | listLit (elems : List IrExpr)
  | tuple (elems : List IrExpr)
  | cons (head tail : IrExpr)
  | match (scrutinee : IrExpr) (arms : List IrArm)
  | block (stmts : List IrExpr)
  | letIn (pat : IrPat) (value body : IrExpr)
  | varIn (name : String) (value body : IrExpr)
  | assign (target : AssignTarget) (value : IrExpr)
  | functionScope (body : IrExpr)
  | resultScope (body : IrExpr)
  | resultExit (value : IrExpr)
  | ret (value : IrExpr)
  | send (handle : IrExpr) (message : SymbolRef) (args : List IrExpr)
  | ask (handle : IrExpr) (message : SymbolRef) (args : List IrExpr) (timeout : IrTimeout)
  | spawn (actor : SymbolRef) (args : List IrExpr)
  | childSpec (actor : SymbolRef) (args : List IrExpr)
  | tryAsk (handle : IrExpr) (message : SymbolRef) (args : List IrExpr) (timeout : IrTimeout)
  | actorSend (handle : IrExpr) (message : SymbolRef) (args : List IrExpr)

inductive IrArm where
  | mk (pat : IrPat) (guard : Option IrExpr) (body : IrExpr)

/-- The optional `IrTimeout` of an ask: absent, `Never`, or a number of milliseconds. -/
inductive IrTimeout where
  | none
  | never
  | millis (e : IrExpr)

end

end Ridge
