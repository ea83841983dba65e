import Mathlib.Data.Int.Log
import Ridge.Lib.Answers
import Ridge.Mem.Plan

/-!
# ridge_rt — the rows a plan comes to

What the parts of a scan do to a list of rows: the filter, the sort, the removal of duplicates and
the page.
-/

namespace Ridge

open List Except

variable {rows : List SqlRow}

section

variable {α β : Type}

/-! ## Tests that may raise -/

/-- A test that answered `true`. -/
def isTrue : Eval Bool → Bool
  | .ok b => b
  | .error _ => false

@[simp] theorem isTrue_ok (b : Bool) : isTrue (.ok b) = b := rfl

variable {test : α → Eval Bool}

/-- A filter answers iff its test does on every row, and keeps those it is true of. -/
theorem memFilter_eq_ok {l l' : List α} :
    memFilter test l = .ok l' ↔
      (∀ x ∈ l, ∃ b, test x = .ok b) ∧ l' = l.filter fun x => isTrue (test x) := by
  induction l generalizing l' with
  | nil =>
    show (Except.ok [] : Eval (List α)) = .ok l' ↔ _
    simp [eq_comm]
  | cons x xs ih =>
    unfold memFilter
    cases hx : test x with
    | error c =>
      refine ⟨fun h => (nomatch h), fun h => ?_⟩
      obtain ⟨b, hb⟩ := h.1 x mem_cons_self
      rw [hx] at hb
      cases hb
    | ok keep =>
      cases hrest : memFilter test xs with
      | error c =>
        refine ⟨fun h => (nomatch h), fun h => ?_⟩
        have hok := ih.mpr ⟨fun y hy => h.1 y (mem_cons_of_mem x hy), rfl⟩
        rw [hrest] at hok
        cases hok
      | ok rest =>
        obtain ⟨hall, hrest'⟩ := ih.mp hrest
        show (Except.ok (if keep then x :: rest else rest) : Eval (List α)) = .ok l' ↔ _
        rw [ok.injEq, filter_cons, hx, isTrue_ok, ← hrest', eq_comm]
        refine ⟨fun h => ⟨fun y hy => ?_, h⟩, And.right⟩
        rcases mem_cons.mp hy with rfl | hy
        · exact ⟨keep, hx⟩
        · exact hall y hy

variable {f : α → Eval β} {l : List α}

theorem mapM_eq_ok {out : List β} :
    l.mapM f = .ok out ↔ List.Forall₂ (fun a b => f a = .ok b) l out := by
  induction l generalizing out with
  | nil =>
    rw [mapM_nil, forall₂_nil_left_iff]
    show (Except.ok [] : Eval (List β)) = .ok out ↔ _
    rw [ok.injEq, eq_comm]
  | cons x xs ih =>
    rw [mapM_cons, forall₂_cons_left_iff]
    cases hx : f x with
    | error c => exact ⟨fun h => (nomatch h), fun ⟨_, _, h, _⟩ => (nomatch h)⟩
    | ok y =>
      cases hxs : xs.mapM f with
      | error c =>
        refine ⟨fun h => (nomatch h), fun ⟨_, ys, _, h, _⟩ => ?_⟩
        rw [ih.mpr h] at hxs
        cases hxs
      | ok ys =>
        show (Except.ok (y :: ys) : Eval (List β)) = .ok out ↔ _
        rw [ok.injEq]
        refine ⟨fun h => ⟨y, ys, rfl, ih.mp hxs, h.symm⟩, fun ⟨y', ys', hy, h, hout⟩ => ?_⟩
        cases hy
        rw [ih.mpr h] at hxs
        cases hxs
        exact hout.symm

theorem exists_mapM_eq_ok (h : ∀ a ∈ l, ∃ b, f a = .ok b) : ∃ out, l.mapM f = .ok out := by
  induction l with
  | nil => exact ⟨[], rfl⟩
  | cons a l ih =>
    obtain ⟨b, hb⟩ := h a mem_cons_self
    obtain ⟨out, hout⟩ := ih fun a' ha' => h a' (mem_cons_of_mem a ha')
    exact ⟨b :: out, mapM_eq_ok.mpr (List.Forall₂.cons hb (mapM_eq_ok.mp hout))⟩

/-! ## Any of a list -/

/-- `F` as far down the list as the first element `T` is true of. -/
def UpToFirst (F : α → Prop) (T : α → Bool) : List α → Prop
  | [] => True
  | x :: xs => F x ∧ (T x = false → UpToFirst F T xs)

theorem anyEval_eq {F : α → Prop} {T : α → Bool} (h : ∀ x, F x → test x = .ok (T x)) :
    ∀ {l : List α}, UpToFirst F T l → anyEval test l = .ok (l.any T)
  | [], _ => rfl
  | x :: xs, ⟨hx, hrest⟩ => by
    unfold anyEval
    rw [h x hx, List.any_cons]
    cases hT : T x with
    | true => rfl
    | false => exact anyEval_eq h (hrest hT)

theorem answers_memFilter : Answers (memFilter test l) ↔ ∀ x ∈ l, Answers (test x) :=
  ⟨fun ⟨_, h⟩ => (memFilter_eq_ok.mp h).1, fun h => ⟨_, memFilter_eq_ok.mpr ⟨h, rfl⟩⟩⟩

theorem answers_anyEval {l : List α} :
    Answers (anyEval test l) ↔
      UpToFirst (fun x => Answers (test x)) (fun x => isTrue (test x)) l := by
  induction l with
  | nil => exact iff_of_true (answers_pure false) trivial
  | cons x xs ih =>
    unfold anyEval UpToFirst
    rw [answers_bind_ite, ih]
    refine and_congr_right fun hanswers => ?_
    obtain ⟨b, hb⟩ := hanswers
    rw [hb, isTrue_ok, ok.injEq, ok.injEq]
    exact and_iff_right fun _ => answers_pure true

end

/-! ## Distinct -/

theorem mem_memDistinct {dist : Bool} {row : SqlRow} :
    row ∈ memDistinct dist rows ↔ row ∈ rows := by
  unfold memDistinct
  split
  · suffices h : ∀ acc : List SqlRow,
        row ∈ rows.foldl (fun acc r => if r ∈ acc then acc else r :: acc) acc ↔
          row ∈ acc ∨ row ∈ rows by
      rw [mem_reverse, h]
      simp
    induction rows with
    | nil => simp
    | cons r rows ih =>
      intro acc
      rw [foldl_cons, ih]
      split
      · next hr =>
        rw [mem_cons]
        refine ⟨fun h => h.imp_right .inr, fun h => ?_⟩
        rcases h with h | rfl | h
        · exact .inl h
        · exact .inl hr
        · exact .inr h
      · rw [mem_cons, mem_cons]
        tauto
  · exact Iff.rfl

/-! ## The page -/

def afterOffset (rows : List SqlRow) (off : Int) : List SqlRow :=
  if 0 < off then rows.drop off.toNat else rows

theorem memPaginate_eq (rows : List SqlRow) (lim off : Int) :
    memPaginate rows lim off =
      if lim < 0 then afterOffset rows off else (afterOffset rows off).take lim.toNat := rfl

variable {lim off : Int}

theorem memPaginate_unpaged (hlim : lim < 0) (hoff : off ≤ 0) :
    memPaginate rows lim off = rows := by
  rw [memPaginate_eq, if_pos hlim, afterOffset, if_neg (by omega)]

/-- A tighter limit takes from the same page. -/
theorem memPaginate_take {n : Nat} (h : lim < 0 ∨ n ≤ lim) :
    memPaginate rows n off = (memPaginate rows lim off).take n := by
  rw [memPaginate_eq, memPaginate_eq, if_neg (by omega)]
  split
  · rfl
  · rw [take_take]
    congr 1
    omega

theorem forall₂_memPaginate {R : SqlRow → SqlRow → Prop} {out : List SqlRow}
    (h : List.Forall₂ R rows out) (lim off : Int) :
    List.Forall₂ R (memPaginate rows lim off) (memPaginate out lim off) := by
  have hafter : List.Forall₂ R (afterOffset rows off) (afterOffset out off) := by
    unfold afterOffset
    split
    · exact forall₂_drop _ h
    · exact h
  rw [memPaginate_eq, memPaginate_eq]
  split
  · exact hafter
  · exact forall₂_take _ hafter

/-!
## ridge_rt — a runtime system

Doubles as IEEE 754 has them, rounding to nearest and ties to even, and a merge sort that makes its
comparisons first. A result that rounds to zero is the positive zero here.
-/

/-! ## Doubles -/

def Float64.value (x : Float64) : ℚ :=
  let bits := x.bits.toNat
  let sign : ℚ := if bits / 2 ^ 63 = 1 then -1 else 1
  let exponent : Nat := bits / 2 ^ 52 % 2 ^ 11
  let mantissa : Nat := bits % 2 ^ 52
  if exponent = 0 then sign * mantissa * (2 : ℚ) ^ (-1074 : Int)
  else sign * ((2 ^ 52 + mantissa : Nat) : ℚ) * (2 : ℚ) ^ ((exponent : Int) - 1075)

def roundHalfEven (q : ℚ) : Int :=
  let down := ⌊q⌋
  let rest := q - down
  if rest < 1 / 2 ∨ (rest = 1 / 2 ∧ down % 2 = 0) then down else down + 1

/-- The nearest double, if it is finite. -/
def roundDouble (q : ℚ) : Option Float64 :=
  if q = 0 then some ⟨0⟩
  else
    let e := max (Int.log 2 |q|) (-1022)
    let m := (roundHalfEven (|q| * (2 : ℚ) ^ (52 - e))).toNat
    -- Rounding up may carry into the next power of two.
    let (m, e) := if m = 2 ^ 53 then (2 ^ 52, e + 1) else (m, e)
    if 1023 < e then none
    else
      let sign := if q < 0 then 2 ^ 63 else 0
      let magnitude := if m < 2 ^ 52 then m else (e + 1023).toNat * 2 ^ 52 + (m - 2 ^ 52)
      some ⟨BitVec.ofNat 64 (sign + magnitude)⟩

def Doubles.ieee : Doubles where
  value := Float64.value
  add x y := roundDouble (x.value + y.value)
  sub x y := roundDouble (x.value - y.value)
  mul x y := roundDouble (x.value * y.value)
  div x y := roundDouble (x.value / y.value)
  ofInt n := roundDouble n
  ratio n d := roundDouble (n / d)

/-! ## Sorting -/

def Sorting.merge : Sorting where
  sort le l := do
    let _ ← l.mapM fun a => l.mapM fun b => le a b
    pure (l.mergeSort fun a b => isTrue (le a b))
  perm h := by
    obtain ⟨_, _, h⟩ := eval_bind_eq_ok.mp h
    cases h
    exact List.mergeSort_perm _ _
  returns := by
    intro α le l h
    have hrow : ∀ a ∈ l, ∃ cs, (l.mapM fun b => le a b) = .ok cs := fun a ha => by
      choose! c hc using h a ha
      exact ⟨l.map c, mapM_eq_ok.mpr (List.forall₂_map_right_iff.mpr
        (List.forall₂_same.mpr fun b hb => hc b hb))⟩
    choose! cs hcs using hrow
    have hall : (l.mapM fun a => l.mapM fun b => le a b) = .ok (l.map cs) :=
      mapM_eq_ok.mpr (List.forall₂_map_right_iff.mpr
        (List.forall₂_same.mpr fun a ha => hcs a ha))
    rw [hall]
    exact ⟨_, rfl⟩
  stable := by
    intro α le l _ _
    have hall : (l.mapM fun a => l.mapM fun b => (Except.ok (le a b) : Eval Bool)) =
        .ok (l.map fun a => l.map fun b => le a b) :=
      mapM_eq_ok.mpr (List.forall₂_map_right_iff.mpr (List.forall₂_same.mpr fun a _ =>
        mapM_eq_ok.mpr (List.forall₂_map_right_iff.mpr (List.forall₂_same.mpr fun _ _ => rfl))))
    rw [hall]
    rfl

def ErlRuntime.standard : ErlRuntime := ⟨.ieee, .merge⟩

end Ridge
