import Ridge.Types.Capability
import Ridge.Lib.KeyedList
import Mathlib.Data.String.Basic

/-!
# Ridge types — the type language

`ridge-types/src/ty.rs`: `Type`, its record rows, and the two constructors that keep a field
list sorted and duplicate-free (`Row::new`, `Type::record`). The Rust enum is called `Type`,
which is Lean's own word; here it is `Ty`.

Variables of the three kinds (`TyVid`, `RowVid`, `CapVid`) are indices into three separate
unification tables and are plain numbers here; a type constructor is named by its arena index
(`TyConId`).
-/

namespace Ridge

abbrev TyVid := Nat
abbrev RowVid := Nat
abbrev CapVid := Nat
abbrev TyConId := Nat

/-- The tail of a record row. -/
inductive RowTail where
  | closed
  | opened (rv : RowVid)
  deriving DecidableEq

inductive Ty where
  /-- A unification variable. -/
  | var (v : TyVid)
  /-- A variable of the signature under check; the name is for diagnostics only. -/
  | rigid (id : Nat) (name : String)
  | con (id : TyConId) (args : List Ty)
  | fn (params : List Ty) (ret : Ty) (caps : CapRow)
  | tuple (ts : List Ty)
  | record (fields : List (String × Ty)) (tail : RowTail)
  /-- Diagnostic-naming wrapper around an eagerly resolved alias body. -/
  | aliased (name : TyConId) (body : Ty)
  | error

abbrev Field := String × Ty

/-- A record row: the substitution target of a bound row variable. -/
structure Row where
  fields : List Field
  tail : RowTail

variable (fields : List Field)

/-- Sort by label, the last of equal labels wins. -/
def normaliseFields : List Field := KeyedList.normalise fields

/-- `Row::new`. -/
def Row.new (tail : RowTail) : Row := ⟨normaliseFields fields, tail⟩

/-- `Type::record`. -/
def Ty.mkRecord (tail : RowTail) : Ty :=
  .record (normaliseFields fields) tail

/-! ## Induction

The recursor Lean generates for a nested inductive asks for a motive per list; membership is
how the proofs below speak about components. -/

section
variable {P : Ty → Prop}

@[elab_as_elim] theorem Ty.inductionOn (var : ∀ v, P (.var v))
    (rigid : ∀ id name, P (.rigid id name)) (con : ∀ id args, (∀ a ∈ args, P a) → P (.con id args))
    (fn : ∀ params ret caps, (∀ p ∈ params, P p) → P ret → P (.fn params ret caps))
    (tuple : ∀ ts, (∀ t ∈ ts, P t) → P (.tuple ts))
    (record : ∀ fields tail, (∀ f ∈ fields, P f.2) → P (.record fields tail))
    (wrapper : ∀ name body, P body → P (.aliased name body)) (error : P .error) (t : Ty) : P t := by
  refine Ty.rec (motive_1 := P) (motive_2 := fun ts => ∀ t ∈ ts, P t)
    (motive_3 := fun fs => ∀ f ∈ fs, P f.2) (motive_4 := fun f => P f.2)
    var rigid con ?fn tuple record wrapper error ?nil ?cons ?fnil ?fcons ?pair t
  case fn => exact fun params ret caps ih₁ ih₂ => fn params ret caps ih₁ ih₂
  case nil => simp
  case cons => exact fun t ts ht hts => List.forall_mem_cons.mpr ⟨ht, hts⟩
  case fnil => simp
  case fcons => exact fun f fs hf hfs => List.forall_mem_cons.mpr ⟨hf, hfs⟩
  case pair => exact fun _ _ h => h

end

/-! ## Types up to alias wrappers

`strip` is the comparison form of a type: alias wrappers dropped, the diagnostic name of a
signature variable forgotten (two are the same type when their ids match), record fields in
label order. -/

mutual
def Ty.strip : Ty → Ty
  | .var v => .var v
  | .rigid id _ => .rigid id ""
  | .con id args => .con id (Ty.stripAll args)
  | .fn params ret caps => .fn (Ty.stripAll params) ret.strip caps
  | .tuple ts => .tuple (Ty.stripAll ts)
  | .record fields tail => .mkRecord (Ty.stripFields fields) tail
  | .aliased _ body => body.strip
  | .error => .error

def Ty.stripAll : List Ty → List Ty
  | [] => []
  | t :: ts => t.strip :: Ty.stripAll ts

def Ty.stripFields : List Field → List Field
  | [] => []
  | (label, t) :: fs => (label, t.strip) :: Ty.stripFields fs
end

theorem Ty.stripAll_eq_map (ts : List Ty) : Ty.stripAll ts = ts.map Ty.strip := by
  induction ts with
  | nil => rfl
  | cons t ts ih => rw [Ty.stripAll, ih, List.map_cons]

theorem Ty.stripFields_eq_map (fs : List Field) :
    Ty.stripFields fs = fs.map fun f => (f.1, f.2.strip) := by
  induction fs with
  | nil => rfl
  | cons f fs ih => rw [Ty.stripFields, ih, List.map_cons]

/-- Two types are the same up to `Alias` wrappers. -/
def SameUpToAlias (a b : Ty) : Prop := a.strip = b.strip

/-! ## Type-constructor declarations

`ridge-types/src/tycon.rs`, as far as the modelled passes read it. -/

structure RecordField where
  name : String
  ty : Ty

structure RecordSchema where
  params : List TyVid
  fields : List RecordField

/-- Payload shape of a union variant. -/
inductive VariantPayload where
  | nullary
  | positional (tys : List Ty)
  | record (schema : RecordSchema)

structure UnionVariant where
  name : String
  kind : VariantPayload

structure UnionSchema where
  params : List TyVid
  variants : List UnionVariant

inductive TyConKind where
  | primitive
  | record (schema : RecordSchema)
  | union (schema : UnionSchema)
  | aliased (params : List TyVid) (body : Ty)
  | actor
  | builtin

structure TyConDecl where
  id : TyConId
  name : String
  kind : TyConKind
  isAnon : Bool

/-- The built-in constructors the modelled passes compare against. The arena interns each
under an index of its own, so the handles are pairwise distinct. -/
structure BuiltinTyCons where
  bool : TyConId
  list : TyConId
  option : TyConId
  ret : TyConId
  rows : TyConId
  joincond : TyConId
  joinresult : TyConId
  leftJoinresult : TyConId
  rightJoinresult : TyConId
  fullJoinresult : TyConId
  insertShape : TyConId
  distinct : [bool, list, option, ret, rows, joincond, joinresult, leftJoinresult,
    rightJoinresult, fullJoinresult, insertShape].Nodup

end Ridge
