import Ridge.Types.Ty

/-!
# Types as snapshots write them

`render_type_vars` of `ridge-types/src/render.rs` for types, and `render_ast_type` of
`ridge-reload/src/render.rs` for the written types of actor states. Beside them, what a type is in
any compilation (`Portable`): constructors by their defining module and name, aliases by what they
stand for, quantified variables by their place. A text says less: it leaves out capability rows,
what an alias stands for, and variables that are not among the given ones.
-/

namespace Ridge.Reload

/-- What the renderers read of a `TyConDecl`. -/
structure NamedTyCon where
  name : String
  def_module_raw : Option Nat

structure RenderCtx where
  tycons : List NamedTyCon
  module_fqns : List String

def varLetter (index : Nat) : String :=
  if index < 26 then String.singleton (Char.ofNat ('a'.toNat + index)) else s!"t{index}"

/-- The defining module, where there is one, and the name of a constructor. -/
def RenderCtx.nominal (ctx : RenderCtx) (id : TyConId) : Option (Option String × String) :=
  (ctx.tycons[id]?).map fun decl =>
    (decl.def_module_raw.bind fun m => ctx.module_fqns[m]?, decl.name)

def tyconName (ctx : RenderCtx) (id : TyConId) : String :=
  match ctx.nominal id with
  | none => "?"
  | some (none, name) => name
  | some (some fqn, name) => fqn ++ "." ++ name

mutual
def renderTypeVars (ctx : RenderCtx) (vars : List TyVid) : Ty → String
  | .var v => if v ∈ vars then varLetter (vars.idxOf v) else "_"
  | .con id args =>
    if args.isEmpty then tyconName ctx id
    else tyconName ctx id ++ "<" ++ ", ".intercalate (renderAll ctx vars args) ++ ">"
  | .fn params ret _ =>
    "fn(" ++ ", ".intercalate (renderAll ctx vars params) ++ ") -> "
      ++ renderTypeVars ctx vars ret
  | .tuple ts => "(" ++ ", ".intercalate (renderAll ctx vars ts) ++ ")"
  | .record fields tail =>
    let tailText := match tail with
      | .closed => []
      | .opened _ => ["| _"]
    "\x7b" ++ ", ".intercalate (renderFields ctx vars fields ++ tailText) ++ "\x7d"
  | .aliased name _ => tyconName ctx name
  | .rigid _ _ => "?"
  | .error => "?"

def renderAll (ctx : RenderCtx) (vars : List TyVid) : List Ty → List String
  | [] => []
  | t :: ts => renderTypeVars ctx vars t :: renderAll ctx vars ts

def renderFields (ctx : RenderCtx) (vars : List TyVid) : List (String × Ty) → List String
  | [] => []
  | (n, t) :: fields => (n ++ ": " ++ renderTypeVars ctx vars t) :: renderFields ctx vars fields
end

def renderType (ctx : RenderCtx) (t : Ty) : String := renderTypeVars ctx [] t

/-- The variables that a scheme or a declaration quantifies. -/
structure Quantified where
  vars : List TyVid
  cap_vars : List CapVid
  row_vars : List RowVid

/-- A `Scheme`, as far as a caller and the renderers read it. -/
structure Scheme extends Quantified where
  ty : Ty

def renderScheme (ctx : RenderCtx) (s : Scheme) : String := renderTypeVars ctx s.vars s.ty

/-! ## Written types -/

inductive PrimitiveType where
  | Int | Float | Bool | Text | Unit | Timestamp | Decimal | Uuid | Bytes | Date | Time
  deriving DecidableEq

/-- `Type` of the syntax tree, without spans. -/
inductive AstType where
  | Primitive (name : PrimitiveType)
  | Named (name : String)
  | App (head : String) (args : List AstType)
  | Tuple (elems : List AstType)
  | List (elem : AstType)
  | Fn (params : List AstType) (caps : List Capability) (ret : AstType)
  | Paren (inner : AstType)
  | Var (name : String)
  | Record (fields : List (String × AstType)) (tail : Option String)

def primitiveName : PrimitiveType → String
  | .Int => "Int"
  | .Float => "Float"
  | .Bool => "Bool"
  | .Text => "Text"
  | .Unit => "Unit"
  | .Timestamp => "Timestamp"
  | .Decimal => "Decimal"
  | .Uuid => "Uuid"
  | .Bytes => "Bytes"
  | .Date => "Date"
  | .Time => "Time"

def capabilityName : Capability → String
  | .io => "io"
  | .fs => "fs"
  | .net => "net"
  | .time => "time"
  | .random => "random"
  | .env => "env"
  | .proc => "proc"
  | .spawn => "spawn"
  | .ffi => "ffi"
  | .db => "db"

mutual
def renderAstType : AstType → String
  | .Primitive name => primitiveName name
  | .Named name => name
  | .Var name => name
  | .App head args => head ++ "<" ++ ", ".intercalate (renderAstTypes args) ++ ">"
  | .Tuple elems => "(" ++ ", ".intercalate (renderAstTypes elems) ++ ")"
  | .List elem => "[" ++ renderAstType elem ++ "]"
  | .Paren inner => renderAstType inner
  | .Fn params caps ret =>
    let capsText := if caps.isEmpty then ""
      else "(" ++ ", ".intercalate (caps.map capabilityName) ++ ")"
    "fn" ++ capsText ++ "(" ++ ", ".intercalate (renderAstTypes params) ++ ") -> "
      ++ renderAstType ret
  | .Record fields tail =>
    let tailText := match tail with
      | none => []
      | some t => ["| " ++ t]
    "\x7b" ++ ", ".intercalate ((renderAstFields fields).mergeSort (· ≤ ·) ++ tailText) ++ "\x7d"

def renderAstTypes : List AstType → List String
  | [] => []
  | t :: ts => renderAstType t :: renderAstTypes ts

def renderAstFields : List (String × AstType) → List String
  | [] => []
  | (n, t) :: fields => (n ++ ": " ++ renderAstType t) :: renderAstFields fields
end

/-! ## Types in any compilation -/

/-- A type without anything of the compilation it comes from. -/
inductive Portable where
  /-- A quantified variable by its place; a variable that is not quantified has none. -/
  | var (place : Option Nat)
  | rigid (id : Nat)
  | con (name : Option (Option String × String)) (args : List Portable)
  /-- The capabilities are a set and the places of their variables. -/
  | fn (params : List Portable) (ret : Portable) (caps : CapabilitySet)
      (capVars : Finset (Option Nat))
  | tuple (ts : List Portable)
  /-- An open record has the place of its row variable. -/
  | record (fields : List (String × Portable)) (tail : Option (Option Nat))
  | error

/-- The place of a variable among the quantified ones. -/
def placeIn (vars : List Nat) (v : Nat) : Option Nat :=
  if v ∈ vars then some (vars.idxOf v) else none

mutual
/-- What a type is, under its quantified variables. -/
def portable (ctx : RenderCtx) (q : Quantified) : Ty → Portable
  | .var v => .var (placeIn q.vars v)
  | .rigid id _ => .rigid id
  | .con id args => .con (ctx.nominal id) (portableAll ctx q args)
  | .fn params ret caps =>
    .fn (portableAll ctx q params) (portable ctx q ret) caps.parts.1
      (caps.parts.2.image (placeIn q.cap_vars))
  | .tuple ts => .tuple (portableAll ctx q ts)
  | .record fields tail =>
    .record (portableFields ctx q fields) <| match tail with
      | .closed => none
      | .opened rv => some (placeIn q.row_vars rv)
  | .aliased _ body => portable ctx q body
  | .error => .error

def portableAll (ctx : RenderCtx) (q : Quantified) : List Ty → List Portable
  | [] => []
  | t :: ts => portable ctx q t :: portableAll ctx q ts

def portableFields (ctx : RenderCtx) (q : Quantified) :
    List (String × Ty) → List (String × Portable)
  | [] => []
  | (n, t) :: fields => (n, portable ctx q t) :: portableFields ctx q fields
end

end Ridge.Reload
