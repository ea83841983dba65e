import Ridge.Operators.Stdlib

/-!
# Operators compute on what they accept

The three tables side by side: the types an operator is accepted at, the function it becomes and
what that function does. `Computes` asks that the function is the operator's own for the type of
the operands and that it answers what the operator means there; `OperatorFits` is when it does.
-/

namespace Ridge

open List

/-- A call of a function of the standard library. -/
def runStdlib (H : HostArith) (name : StdlibName) (vs : List CErlVal) : HostEnd :=
  match vs with
  | [a, b] =>
    if name = ("std.int", "mod") then stdIntMod H a b
    else if name = ("std.int", "pow") then stdIntPow H a b
    else if name = ("std.text", "concat") then stdTextConcat a b
    else if name = ("std.list", "concat") then stdListConcat a b
    else runPrimitive H name [a, b]
  | vs => runPrimitive H name vs

/-! ## What an operator means -/

/-- The types whose values the operators compute on. -/
inductive OperandKind where
  | int | float | text | list
  deriving DecidableEq

def kindOfTyCon (B : OperandTyCons) (id : TyConId) : Option OperandKind :=
  if id = B.int then some .int
  else if id = B.float then some .float
  else if id = B.text then some .text
  else if id = B.list then some .list
  else none

def kindOf (B : OperandTyCons) : Ty → Option OperandKind
  | .con id _ => kindOfTyCon B id
  | _ => none

/-- The function of an operator at a type, where it has one. -/
def CalcOp.own : CalcOp → OperandKind → Option StdlibName
  | .add, .int => some ("std.int", "add")
  | .sub, .int => some ("std.int", "sub")
  | .mul, .int => some ("std.int", "mul")
  | .div, .int => some ("std.int", "div")
  | .mod, .int => some ("std.int", "mod")
  | .pow, .int => some ("std.int", "pow")
  | .add, .float => some ("std.float", "add")
  | .sub, .float => some ("std.float", "sub")
  | .mul, .float => some ("std.float", "mul")
  | .div, .float => some ("std.float", "div")
  | .concat, .text => some ("std.text", "concat")
  | .concat, .list => some ("std.list", "concat")
  | _, _ => none

def OperatorExpr.own : OperatorExpr → OperandKind → Option StdlibName
  | .binary op _ _, kind => op.own kind
  | .neg _, .int => some ("std.int", "neg")
  | .neg _, .float => some ("std.float", "neg")
  | .neg _, _ => none

/-- The exact result on integers; a division by zero has none. -/
def CalcOp.exact : CalcOp → Int → Int → Option Int
  | .add, a, b => some (a + b)
  | .sub, a, b => some (a - b)
  | .mul, a, b => some (a * b)
  | .div, a, b => if b = 0 then none else some (a.tdiv b)
  | .mod, a, b => if b = 0 then none else some (a.fmod b)
  | .pow, a, b => some (exactPow a b)
  | .concat, _, _ => none

def CalcOp.doubles (H : HostArith) : CalcOp → Float64 → Float64 → Option Float64
  | .add => H.add
  | .sub => H.sub
  | .mul => H.mul
  | .div => H.div
  | _ => fun _ _ => none

def doubleEnd : Option Float64 → HostEnd
  | some x => .ok (.float x)
  | none => .error badarith

/-- On integers: the exact result in the range of `Int`, the out-of-range error outside of it, and
`badarith` where there is no result. -/
def RightInt (op : CalcOp) (a b : Int) (r : HostEnd) : Prop :=
  match op.exact a b with
  | some n => ExactInt n r
  | none => r = .error badarith

/-- A function answers what an operator means at the values of a type. -/
def OperatorExpr.Right (H : HostArith) (e : OperatorExpr) (kind : OperandKind)
    (f : List CErlVal → HostEnd) : Prop :=
  match e, kind with
  | .binary op _ _, .int =>
    ∀ a b, InIntRange a → InIntRange b → RightInt op a b (f [.int a, .int b])
  | .binary op _ _, .float =>
    ∀ x y, f [.float x, .float y] = doubleEnd (op.doubles H x y)
  | .binary _ _ _, .text =>
    ∀ a b, f [.binary a, .binary b] = .ok (.binary (a ++ b))
  | .binary _ _ _, .list =>
    ∀ vs ws, f [.ofList vs, .ofList ws] = .ok (.ofList (vs ++ ws))
  | .neg _, .int => ∀ a, InIntRange a → ExactInt (-a) (f [.int a])
  | .neg _, .float => ∀ x, f [.float x] = .ok (.float (H.neg x))
  | .neg _, _ => False

section

variable (B : OperandTyCons) (place : OperatorPlace) (e : OperatorExpr) (ty : Ty)

/-- The checker has no objection. -/
def Accepted : Prop :=
  place.inferred = true → ∃ t, inferOperator B e ty = .ok t

/-- The selected function is the operator's own at the type of the operands, and answers what the
operator means. -/
def Computes (H : HostArith) : Prop :=
  ∃ kind, kindOf B ty = some kind ∧ e.own kind = some (lowerOperator B place e ty) ∧
    e.Right H kind (runStdlib H (lowerOperator B place e ty))

/-- Where it is. A place that is not inferred leaves the `Int` and the `Text` operation, and a
division is taken for one of `Float` wherever an operand looks like a `Float`. -/
def OperatorFits : Prop :=
  match e with
  | .binary .mod _ _ => kindOf B ty = some .int
  | .binary .pow _ _ => kindOf B ty = some .int
  | .binary .div lhs rhs =>
    kindOf B ty = some .int ∧ (looksLikeFloat lhs || looksLikeFloat rhs) = false ∨
      kindOf B ty = some .float ∧
        (place.inferred || (looksLikeFloat lhs || looksLikeFloat rhs)) = true
  | .binary .concat _ _ =>
    kindOf B ty = some .text ∨ kindOf B ty = some .list ∧ place.inferred = true
  | _ => kindOf B ty = some .int ∨ kindOf B ty = some .float ∧ place.inferred = true

end

/-! ## The functions are right -/

section

variable (H : HostArith)

variable {op : CalcOp}

variable {a b n : Int} {r : HostEnd}

theorem rightInt_of_some (h : op.exact a b = some n) (hr : ExactInt n r) : RightInt op a b r := by
  unfold RightInt
  rw [h]
  exact hr

theorem rightInt_of_none {a b : Int} (h : op.exact a b = none) (hr : r = .error badarith) :
    RightInt op a b r := by
  unfold RightInt
  rw [h]
  exact hr

/-- A primitive that ends in the exact result or the out-of-range error. -/
theorem rightInt_of_end {label : String} (h : op.exact a b = some n) (hr : r = intEnd label n) :
    RightInt op a b r :=
  rightInt_of_some h (hr ▸ exactInt_intEnd label n)

variable {name : StdlibName}

theorem right_int (hown : op.own .int = some name) (a b : Int) (hb : InIntRange b) :
    RightInt op a b (runStdlib H name [.int a, .int b]) := by
  cases op with
  | add => cases hown; exact rightInt_of_end rfl (run_add H a b)
  | sub => cases hown; exact rightInt_of_end rfl (run_sub H a b)
  | mul => cases hown; exact rightInt_of_end rfl (run_mul H a b)
  | div =>
    cases hown
    by_cases hzero : b = 0
    · rw [hzero]
      exact rightInt_of_none rfl (run_div_zero H (.int a))
    · exact rightInt_of_end (if_neg hzero) (run_div H hzero)
  | mod =>
    cases hown
    by_cases hzero : b = 0
    · rw [hzero]
      exact rightInt_of_none rfl (stdIntMod_zero H (.int a))
    · refine rightInt_of_some (if_neg hzero) ?_
      exact (exactInt_of_range (inIntRange_fmod hzero hb)).mpr (stdIntMod_int H hzero hb)
  | pow => cases hown; exact rightInt_of_some rfl (stdIntPowInt_exact H a hb)
  | concat => cases hown

theorem right_float (hown : op.own .float = some name) (x y : Float64) :
    runStdlib H name [.float x, .float y] = doubleEnd (op.doubles H x y) := by
  have hdoubles : ∀ f : Float64 → Float64 → Option Float64,
      H.onDoubles f (.float x) (.float y) = doubleEnd (f x y) := by
    intro f
    show (match f x y with
      | some z => Except.ok (CErlVal.float z)
      | none => Except.error badarith) = doubleEnd (f x y)
    cases f x y <;> rfl
  have hexact : ∀ r : HostEnd, HostEnd.andThen r (fun v => .ok v) = r := by
    intro r
    cases r <;> rfl
  cases op with
  | add => cases hown; exact (hexact _).trans (hdoubles H.add)
  | sub => cases hown; exact (hexact _).trans (hdoubles H.sub)
  | mul => cases hown; exact (hexact _).trans (hdoubles H.mul)
  | div => cases hown; exact (hexact _).trans (hdoubles H.div)
  | mod => cases hown
  | pow => cases hown
  | concat => cases hown

/-- The function of an operator at a type is right there. -/
theorem right_of_own {e : OperatorExpr} {kind : OperandKind} (hown : e.own kind = some name) :
    e.Right H kind (runStdlib H name) := by
  cases e with
  | binary op lhs rhs =>
    cases kind with
    | int => exact fun a b _ hb => right_int H hown a b hb
    | float => exact right_float H hown
    | text =>
      cases op <;> cases hown
      exact stdTextConcat_binary
    | list =>
      cases op <;> cases hown
      exact stdListConcat_ofList
  | neg expr =>
    cases kind with
    | int =>
      cases hown
      intro a _
      show ExactInt (-a) (runPrimitive H ("std.int", "neg") [.int a])
      rw [run_neg]
      exact exactInt_intEnd _ _
    | float =>
      cases hown
      exact fun _ => rfl
    | text => cases hown
    | list => cases hown

end

/-! ## The selection -/

section

variable {B : OperandTyCons}

theorem isFloatTy_iff {ty : Ty} : isFloatTy B ty = true ↔ kindOf B ty = some .float := by
  have hdistinct := B.distinct
  cases ty with
  | con id args =>
    simp only [nodup_cons, mem_cons, not_mem_nil, not_or] at hdistinct
    show decide (id = B.float) = true ↔ kindOfTyCon B id = some .float
    unfold kindOfTyCon
    rw [decide_eq_true_iff]
    constructor
    · rintro rfl
      rw [if_neg (Ne.symm hdistinct.1.1), if_pos rfl]
    · split_ifs with h₁ h₂ <;> intro h <;> first | exact h₂ | cases h
  | _ => constructor <;> intro h <;> cases h

theorem isListTy_iff {ty : Ty} : isListTy B ty = true ↔ kindOf B ty = some .list := by
  have hdistinct := B.distinct
  cases ty with
  | con id args =>
    simp only [nodup_cons, mem_cons, not_mem_nil, not_or] at hdistinct
    show decide (id = B.list) = true ↔ kindOfTyCon B id = some .list
    unfold kindOfTyCon
    rw [decide_eq_true_iff]
    constructor
    · rintro rfl
      rw [if_neg (Ne.symm hdistinct.1.2.2.1), if_neg (Ne.symm hdistinct.2.1.2.1),
        if_neg (Ne.symm hdistinct.2.2.1.1), if_pos rfl]
    · split_ifs with h₁ h₂ h₃ h₄ <;> intro h <;> first | exact h₄ | cases h
  | _ => constructor <;> intro h <;> cases h

/-- What lowering sees of a type. -/
theorem isFloatTy_recorded {place : OperatorPlace} {ty : Ty} :
    isFloatTy B (recordedType place ty) =
      (place.inferred && decide (kindOf B ty = some .float)) := by
  unfold recordedType
  cases place.inferred with
  | false => rfl
  | true => exact Bool.eq_iff_iff.mpr (isFloatTy_iff.trans (by simp))

theorem isListTy_recorded {place : OperatorPlace} {ty : Ty} :
    isListTy B (recordedType place ty) =
      (place.inferred && decide (kindOf B ty = some .list)) := by
  unfold recordedType
  cases place.inferred with
  | false => rfl
  | true => exact Bool.eq_iff_iff.mpr (isListTy_iff.trans (by simp))

/-- Both operands have the one type, so the type of the right one never steps in. -/
theorem opToSymbolWithFallback_same (op : CalcOp) (t : Ty) (lhs rhs : Expr) :
    opToSymbolWithFallback B op t t lhs rhs =
      if op = .div ∧ isFloatTy B t = false ∧
          (looksLikeFloat lhs || looksLikeFloat rhs) = true then ("std.float", "div")
      else opToSymbol B op t := by
  unfold opToSymbolWithFallback
  cases t <;> simp only [ite_self, Bool.not_eq_true', and_self_left]

theorem own_iff_fits (place : OperatorPlace) (e : OperatorExpr) (ty : Ty) :
    (∃ kind, kindOf B ty = some kind ∧ e.own kind = some (lowerOperator B place e ty)) ↔
      OperatorFits B place e ty := by
  have hfloat : isFloatTy B (recordedType place ty) = _ := isFloatTy_recorded
  have hlist : isListTy B (recordedType place ty) = _ := isListTy_recorded
  cases e with
  | neg expr =>
    have hlower : lowerOperator B place (.neg expr) ty =
        if isFloatTy B (recordedType place ty) then ("std.float", "neg")
        else ("std.int", "neg") := rfl
    rw [hlower, hfloat]
    unfold OperatorFits
    rcases kindOf B ty with _ | kind
    · simp
    · cases kind <;> cases place.inferred <;> simp [OperatorExpr.own]
  | binary op lhs rhs =>
    have hlower : lowerOperator B place (.binary op lhs rhs) ty = _ :=
      opToSymbolWithFallback_same op (recordedType place ty) lhs rhs
    rw [hlower, hfloat]
    unfold opToSymbol
    rw [hfloat, hlist]
    clear hfloat hlist
    -- what is left is the table: the operator, the type, the place and the look of the operands
    cases op <;> simp only [OperatorFits] <;> generalize kindOf B ty = found <;>
      generalize place.inferred = inferred <;>
      generalize (looksLikeFloat lhs || looksLikeFloat rhs) = looks <;>
      rcases found with _ | (_ | _ | _ | _) <;> cases inferred <;> cases looks <;>
      simp [OperatorExpr.own, CalcOp.own]

end

/-- Accepted or not, an operator computes on the values of its operands' type exactly where it
fits. -/
theorem operators_compute_iff (B : OperandTyCons) (H : HostArith) (place : OperatorPlace)
    (e : OperatorExpr) (ty : Ty) : Computes B place e ty H ↔ OperatorFits B place e ty := by
  constructor
  · rintro ⟨kind, hkind, hown, _⟩
    exact own_iff_fits place e ty |>.mp ⟨kind, hkind, hown⟩
  · intro hfits
    obtain ⟨kind, hkind, hown⟩ := (own_iff_fits place e ty).mpr hfits
    exact ⟨kind, hkind, hown, right_of_own H hown⟩

/-- The first type constructors of the prelude. -/
def preludeOperands : OperandTyCons := ⟨0, 1, 3, 6, by decide⟩

/-- `7.0 % 2.0` in a function. -/
def sevenModTwo : OperatorExpr :=
  .binary .mod (.literal (.float "7.0" ⟨0, 3⟩)) (.literal (.float "2.0" ⟨6, 9⟩))

/-- `7.0 % 2.0` is accepted at `Float`, becomes the modulo of `Int`, and raises on every host. -/
theorem float_modulo_raises :
    Accepted preludeOperands .function sevenModTwo (.con 1 []) ∧
      lowerOperator preludeOperands .function sevenModTwo (.con 1 []) = ("std.int", "mod") ∧
      (∀ H : HostArith, runStdlib H ("std.int", "mod")
        [.float ⟨0x401C000000000000⟩, .float ⟨0x4000000000000000⟩] = .error badarith) ∧
      ∀ H : HostArith, ¬ Computes preludeOperands .function sevenModTwo (.con 1 []) H := by
  refine ⟨fun _ => ⟨_, rfl⟩, rfl, fun _ => rfl, ?_⟩
  rintro H ⟨kind, hkind, hown, _⟩
  cases hkind
  cases hown

end Ridge
