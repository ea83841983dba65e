import Mathlib.Data.List.Basic

/-!
# Three truth values

Kleene's strong logic over `Option Bool`, `none` for UNKNOWN. A two-valued test that answers `u`
where the truth is unknown reads a formula *at* `u`. `and` and `or` keep the reading they are read
at and `not` turns it over, so a two-valued interpreter is right about a formula as long as every
test below an odd number of negations leans to `true`.
-/

namespace Ridge.Kleene

/-- TRUE, FALSE or UNKNOWN. -/
abbrev Truth := Option Bool

def and : Truth → Truth → Truth
  | some false, _ | _, some false => some false
  | some true, v | v, some true => v
  | none, none => none

def or : Truth → Truth → Truth
  | some true, _ | _, some true => some true
  | some false, v | v, some false => v
  | none, none => none

def not : Truth → Truth
  | some b => some !b
  | none => none

/-- What a two-valued test answers that takes UNKNOWN for `u`. -/
def reading (u : Bool) (v : Truth) : Bool := v.getD u

/-- Whether the formula holds: UNKNOWN does not. -/
def holds (v : Truth) : Bool := v = some true

section

variable {u : Bool} {v w : Truth}

@[simp] theorem reading_some (b : Bool) : reading u (some b) = b := rfl

@[simp] theorem reading_none : reading u none = u := rfl

theorem holds_eq_reading : holds v = reading false v := by
  cases v with
  | none => rfl
  | some b => cases b <;> rfl

theorem reading_and : reading u (and v w) = (reading u v && reading u w) := by
  rcases v with _ | (_ | _) <;> rcases w with _ | (_ | _) <;> cases u <;> rfl

theorem reading_or : reading u (or v w) = (reading u v || reading u w) := by
  rcases v with _ | (_ | _) <;> rcases w with _ | (_ | _) <;> cases u <;> rfl

/-- Below a negation UNKNOWN leans the other way. -/
theorem reading_not : reading u (not v) = !reading (!u) v := by
  rcases v with _ | (_ | _) <;> cases u <;> rfl

/-! ## Any of a list -/

def any : List Truth → Truth := List.foldr or (some false)

@[simp] theorem any_nil : any [] = some false := rfl

@[simp] theorem any_cons : any (v :: vs) = or v (any vs) := rfl

theorem reading_any {vs : List Truth} : reading u (any vs) = vs.any (reading u) := by
  induction vs with
  | nil => rfl
  | cons v vs ih => rw [any_cons, reading_or, ih, List.any_cons]

end

end Ridge.Kleene
