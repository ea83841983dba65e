import Ridge.Unify.Sound
import Ridge.Unify.Complete

/-!
# Unified types resolve to the same type

The statement the callers of `unify` rely on, put together from the equations of
`Ridge.Unify.Sound` and the canonical assignment of `Ridge.Unify.Canonical`: after a successful
call on operands without errors, `deep_resolve` gives both operands the same type, up to alias
wrappers.

It needs the journal of the call to be `Regular`, and it fails without. `unify_rows` reads both
tails before it unifies the shared fields; when a field binds one of the tails, the tail is bound
a second time and the merge keeps the first row only (`shared_field_binds_tail`).
-/

namespace Ridge

open Run InferCtx Option UnificationTable

variable {W : Workspace} {n : Nat} {σ σ' : InferCtx} {es : List UnifyEvent}

/-! ## Types without errors -/

/-- `Type::Error` occurs in the type, or in a binding it reaches. -/
inductive HasError (σ : InferCtx) : Ty → Prop
  | error : HasError σ .error
  | var {v t} : σ.tyvids.probeValue v = some t → HasError σ t → HasError σ (.var v)
  | arg {id args a} : a ∈ args → HasError σ a → HasError σ (.con id args)
  | param {params ret caps a} : a ∈ params → HasError σ a → HasError σ (.fn params ret caps)
  | ret {params ret caps} : HasError σ ret → HasError σ (.fn params ret caps)
  | elem {ts a} : a ∈ ts → HasError σ a → HasError σ (.tuple ts)
  | field {fields tail f} : f ∈ fields → HasError σ f.2 → HasError σ (.record fields tail)
  | behind {fields rv row} : σ.rowvids.probeValue rv = some row →
      HasError σ (.record row.fields row.tail) → HasError σ (.record fields (.opened rv))
  | body {name t} : HasError σ t → HasError σ (.aliased name t)

/-- The variables without an error behind them. -/
def errorFree (σ : InferCtx) : CleanSet where
  ty v := ¬ HasError σ (.var v)
  row rv := ¬ HasError σ (.record [] (.opened rv))

theorem clean_of_not_hasError {t : Ty} (h : ¬ HasError σ t) : t.Clean (errorFree σ) := by
  induction t using Ty.inductionOn with
  | var v => exact h
  | rigid id name => exact trivial
  | error => exact absurd .error h
  | con id args ih => exact Ty.clean_con.mpr fun a ha => ih a ha fun he => h (.arg ha he)
  | tuple ts ih => exact Ty.clean_tuple.mpr fun a ha => ih a ha fun he => h (.elem ha he)
  | wrapper name body ih => exact ih fun he => h (.body he)
  | fn params ret caps ihp ihr =>
    exact ⟨Ty.cleanAll_iff.mpr fun a ha => ihp a ha fun he => h (.param ha he),
      ihr fun he => h (.ret he)⟩
  | record fields tail ih =>
    refine ⟨Ty.cleanFields_iff.mpr fun f hf => ih f hf fun he => h (.field hf he), ?_⟩
    cases tail with
    | closed => exact trivial
    | opened rv =>
      intro he
      cases he with
      | field hf _ => cases hf
      | behind hrv he => exact h (.behind hrv he)

theorem errorFree_holds (σ : InferCtx) : (errorFree σ).Holds σ where
  ty_root v := by
    refine not_congr ⟨fun h => ?_, fun h => ?_⟩
    · cases h with
      | var hv he => exact .var (by rwa [probeValue_root] at hv) he
    · cases h with
      | var hv he => exact .var (by rwa [probeValue_root]) he
  ty_bound v t hv ht := clean_of_not_hasError fun he => hv (.var ht he)
  row_root v := by
    refine not_congr ⟨fun h => ?_, fun h => ?_⟩
    · cases h with
      | field hf _ => cases hf
      | behind hv he => exact .behind (by rwa [probeValue_root] at hv) he
    · cases h with
      | field hf _ => cases hf
      | behind hv he => exact .behind (by rwa [probeValue_root]) he
  row_bound v row hv hrow :=
    clean_of_not_hasError (t := .record row.fields row.tail) fun he => hv (.behind hrow he)
  row_fresh v hv he := by
    cases he with
    | field hf _ => cases hf
    | behind hrow _ => rw [σ.rowvids.probeValue_fresh hv] at hrow; cases hrow

/-! ## Agreement -/

/-- The call made no binding its occurs check could not see through, bound no row twice, and
reduced no `InsertShape` over another projection. -/
def Regular (W : Workspace) (es : List UnifyEvent) : Prop := ∀ e ∈ es, e.Seen ∧ e.Faithful W

/-- Deep resolution of the type meets no projection an alias wrapper holds back. -/
def Transparent (W : Workspace) (σ : InferCtx) (t : Ty) : Prop :=
  ∀ id args, Meets W σ t id args → SeesThrough W id args

/-- Two types deep resolution makes the same, alias wrappers aside. -/
def ResolveAlike (W : Workspace) (σ : InferCtx) (a b : Ty) : Prop :=
  ∃ da db, Converges (fun n => σ.deepResolve W n a) da ∧
    Converges (fun n => σ.deepResolve W n b) db ∧ SameUpToAlias da db

theorem resolveAlike_of_interp (hσ : σ.AcyclicBindings) {a b : Ty}
    (ha : Transparent W σ a) (hb : Transparent W σ b)
    (h : ∀ ρ, Sat W ρ σ → interp W ρ a = interp W ρ b) : ResolveAlike W σ a b := by
  obtain ⟨da, hda⟩ := (hσ.resolves W).deepResolve a
  obtain ⟨db, hdb⟩ := (hσ.resolves W).deepResolve b
  obtain ⟨ρ, hρ, hfree⟩ := exists_canonical W hσ
  obtain ⟨N, hN⟩ := hda
  obtain ⟨M, hM⟩ := hdb
  refine ⟨da, db, ⟨N, hN⟩, ⟨M, hM⟩, ?_⟩
  calc da.strip = interp W ρ a := (interp_deepResolve hρ hfree ha (hN N (Nat.le_refl N))).symm
    _ = interp W ρ b := h ρ hρ
    _ = db.strip := interp_deepResolve hρ hfree hb (hM M (Nat.le_refl M))

variable {id : TyConId}

theorem seesThrough_of_not_mem (hid : id ∉ W.builtins.projections) (args : List Ty) :
    SeesThrough W id args :=
  fun _ => W.reduceProjection_of_not_mem hid _

theorem transparent_nullary (hid : id ∉ W.builtins.projections) : Transparent W σ (.con id []) := by
  intro head args hm
  cases hm with
  | here _ => exact seesThrough_of_not_mem hid args
  | arg ha _ => cases ha

/-- A context in which `ρ0` carries the row of the shared field and has lost the other one. -/
structure LosesRow (σ : InferCtx) : Prop where
  kept : σ.rowvids.probeValue 0 = some ⟨[("a", .con 20 [])], .closed⟩
  other : σ.rowvids.probeValue 1 = some ⟨[], .opened 2⟩
  fresh : σ.rowvids.probeValue 2 = none

theorem LosesRow.not_resolveAlike (h : LosesRow σ) :
    ¬ ResolveAlike .bare σ (.record [("x", .record [] (.opened 0))] (.opened 0))
      (.record [("x", .record [("a", .con 20 [])] .closed)] (.opened 1)) := by
  rintro ⟨da, db, ⟨N, hN⟩, ⟨M, hM⟩, hsame⟩
  have ha := hN (N + 5) (by omega)
  have hb := hM (M + 5) (by omega)
  -- one side ends in a closed tail, the other one in an open tail
  simp only [deepResolve, resolveRow, UnificationTable.find, probeValue_root,
    h.kept, h.other, h.fresh] at ha hb
  obtain ⟨ra, hra, ha⟩ := bind_eq_some_iff.mp ha
  obtain ⟨rb, hrb, hb⟩ := bind_eq_some_iff.mp hb
  cases hra
  cases hrb
  obtain ⟨fa, -, ha⟩ := bind_eq_some_iff.mp ha
  obtain ⟨fb, -, hb⟩ := bind_eq_some_iff.mp hb
  cases ha
  cases hb
  obtain ⟨-, htail⟩ := Ty.record.inj hsame
  cases htail

end Ridge

/-!
# Most general unifiers

The statement about `unify` on ordinary types, put together from `Ridge.Unify.Complete`: when some
unifier makes the operands equal, `unify` returns normally; and whenever it does, every unifier
solves the bindings it made, row variables it handed out on the way aside.

A unifier keeps the labels of a record apart from those of its tail. Read without this, as deep
resolution reads a context (the fields of a tail come last and win), the statement fails
(`tail_overwrites_field`).
-/

namespace Ridge.Unifiers

open Run InferCtx List UnificationTable

variable {W : Workspace} {σ : InferCtx} {ρ : Assignment} {a b t : Ty}

/-! ## The scope of two operands -/

/-- The head of the type is ordinary, and its labels are apart. -/
structure Fine (W : Workspace) (σ : InferCtx) (ρ : Assignment) (t : Ty) : Prop where
  ordinary : OrdinaryHead W σ t
  apart : ApartHead ρ t

/-- The variables behind which everything is fine, and those not handed out yet. -/
def scope (W : Workspace) (σ : InferCtx) (ρ : Assignment) : Scope where
  ty v := ∀ u, Reaches σ u (.var v) → Fine W σ ρ u
  row rv := σ.rowvids.len ≤ rv ∨ ∀ u, Reaches σ u (.record [] (.opened rv)) → Fine W σ ρ u
  cap v := PlainCaps σ (.var v)

theorem hasCaps_of_plain {c : CapRow} (h : PlainCaps σ c) : (scope W σ ρ).HasCaps c := by
  cases c with
  | concrete s => exact trivial
  | var v => exact h
  | union rows => cases h

theorem fit_of_fine (hsorted : ∀ rv, KeyedList.Strict (ρ.row rv).fields)
    (ht : ∀ u, Reaches σ u t → Fine W σ ρ u) (hold : Old σ t.vars) : Fit W (scope W σ ρ) ρ σ t := by
  refine ⟨fun u hu => ?_, hold⟩
  have hreach := Reaches.of_part (σ := σ) hu
  have hfine := ht u hreach
  cases u with
  | var v => exact fun w hw => ht w (hw.trans hreach)
  | con id args => exact hfine.ordinary
  | fn params ret caps => exact hasCaps_of_plain hfine.ordinary
  | error => exact hfine.ordinary
  | rigid | tuple | aliased => exact trivial
  | record fields tail =>
    refine ⟨?_, hfine.apart⟩
    cases tail with
    | closed => exact trivial
    | opened rv =>
      refine .inr fun w hw => ?_
      cases hw with
      | here => exact ⟨trivial, (hsorted rv).nodup⟩
      | field hf _ => cases hf
      | behind hrow hw => exact ht w (.trans (.behind hrow hw) hreach)

theorem models_scope (hσ : σ.AcyclicBindings) (hal : Allocated σ) (hsat : Sat W ρ σ)
    (hsorted : ∀ rv, KeyedList.Strict (ρ.row rv).fields) : Models W (scope W σ ρ) ρ σ := by
  refine ⟨hσ, hal, hsat, hsorted, fun w hw => ?_, fun v t hv ht => ?_, fun rv row hrv hrow => ?_,
    fun rv hrv => .inl hrv, fun v c hv hc => ?_⟩
  · -- a class reaches what its members reach
    cases w with
    | ty v =>
      intro u hu
      cases hu with
      | here => exact ⟨trivial, trivial⟩
      | var hbound hu => exact hw u (.var (by rwa [probeValue_root] at hbound) hu)
    | cap v =>
      cases (hw : PlainCaps σ (.var v)) with
      | free h => exact .free (by rwa [probeValue_root])
      | bound h hc => exact .bound (by rwa [probeValue_root]) hc
    | row rv =>
      rcases hw with hfresh | hw
      · exact .inl (by rwa [σ.rowvids.root_fresh rv hfresh])
      · refine .inr fun u hu => ?_
        cases hu with
        | here => exact ⟨trivial, (hsorted _).nodup⟩
        | field hf _ => cases hf
        | behind hrow hu =>
          exact hw u (.behind (by rwa [probeValue_root] at hrow) hu)
  · have hold := hal.bound (.ty v)
    rw [bindingVars_ty ht] at hold
    exact fit_of_fine hsorted (fun u hu => hv u (.var ht hu)) hold
  · have hold := hal.bound (.row rv)
    rw [bindingVars_row hrow] at hold
    rcases hrv with hfresh | hrv
    · rw [σ.rowvids.probeValue_fresh hfresh] at hrow
      cases hrow
    · exact fit_of_fine hsorted (fun u hu => hrv u (.behind hrow hu)) hold
  · cases (hv : PlainCaps σ (.var v)) with
    | free h => rw [h] at hc; cases hc
    | bound h hplain =>
      rw [h] at hc
      cases hc
      exact hasCaps_of_plain hplain

/-! ## The call -/

/-- `unify` is complete and most general on ordinary types: it returns normally when there is a
unifier, it fails only when there is none, and every unifier factors through the bindings it
makes. -/
theorem unify_most_general (W : Workspace) {σ : InferCtx} {a b : Ty} (hσ : σ.AcyclicBindings)
    (hal : Allocated σ) (hold : Old σ a.vars ∧ Old σ b.vars) (ha : Ordinary W σ a)
    (hb : Ordinary W σ b) :
    ((∃ ρ, Unifier W σ a b ρ) → ∃ σ' es,
      Converges (fun n => unify W n a b σ) (.ok (), σ', es)) ∧
    (∀ e σ' es, Converges (fun n => unify W n a b σ) (.error e, σ', es) →
      ¬ ∃ ρ, Unifier W σ a b ρ) ∧
    ∀ σ' es, Converges (fun n => unify W n a b σ) (.ok (), σ', es) →
      ∀ ρ, Unifier W σ a b ρ → ∃ ρ', Sat W ρ' σ' ∧ SameOn σ ρ ρ' := by
  have hfactors : ∀ ρ, Unifier W σ a b ρ → ∃ σ' es,
      Converges (fun n => unify W n a b σ) (.ok (), σ', es) ∧
        ∃ ρ', Sat W ρ' σ' ∧ SameOn σ ρ ρ' := by
    intro ρ hρ
    have hm := models_scope hσ hal hρ.sat hρ.sorted
    have hfit : ∀ t, (∀ u, Reaches σ u t → Fine W σ ρ u) → Old σ t.vars →
        Fit W (scope W σ ρ) ρ σ t := fun t => fit_of_fine hρ.sorted
    obtain ⟨σ', ρ', ⟨es, hends⟩, hext⟩ := unify_factors W (scope W σ ρ) _ σ ρ a b hm
      (hfit a (fun u hu => ⟨ha u hu, hρ.apart u (.inl hu)⟩) hold.1)
      (hfit b (fun u hu => ⟨hb u hu, hρ.apart u (.inr hu)⟩) hold.2) hρ.equal
      (Nat.lt_succ_self _)
    exact ⟨σ', es, hends, ρ', hext.models.sat, hext.same⟩
  refine ⟨?_, ?_, ?_⟩
  · rintro ⟨ρ, hρ⟩
    obtain ⟨σ', es, hends, -⟩ := hfactors ρ hρ
    exact ⟨σ', es, hends⟩
  · rintro e σ' es herror ⟨ρ, hρ⟩
    obtain ⟨σ₁, es₁, hends, -⟩ := hfactors ρ hρ
    cases herror.eq_of_eq hends
  · intro σ' es hok ρ hρ
    obtain ⟨σ₁, es₁, hends, hρ'⟩ := hfactors ρ hρ
    cases hok.eq_of_eq hends
    exact hρ'

/-! ### Two calls -/

variable {P : Ty → Prop}

theorem forall_reaches_nullary {id : TyConId} (h : P (.con id [])) :
    ∀ u, Reaches σ u (.con id []) → P u := by
  intro u hu
  cases hu with
  | here => exact h
  | arg ha _ => cases ha

theorem forall_reaches_record {fields : List Field} {tail : RowTail} (h : P (.record fields tail))
    (hfields : ∀ f ∈ fields, ∀ u, Reaches σ u f.2 → P u)
    (htail : ∀ rv, tail = .opened rv → σ.rowvids.probeValue rv = none) :
    ∀ u, Reaches σ u (.record fields tail) → P u := by
  intro u hu
  cases hu with
  | here => exact h
  | field hf hu => exact hfields _ hf u hu
  | behind hrow hu => rw [htail _ rfl] at hrow; cases hrow

/-- One open row variable. -/
def oneRow : InferCtx := InferCtx.new.freshRowvid.2

theorem oneRow_allocated : Allocated oneRow where
  bound w rv hrv := by cases w <;> cases hrv
  root rv hrv := hrv

/-- The substitution that gives every row variable one row. -/
def constantRow (row : Row) : Assignment where
  ty v := .var v
  row _ := row
  cap _ := .concrete .PURE
  cap_canonical _ := CapRow.canonical_concrete _

theorem sat_oneRow (row : Row) : Sat .bare (constantRow row) oneRow where
  ty_root _ := rfl
  ty_bound _ _ h := by cases h
  row_root _ := rfl
  row_bound _ _ h := by cases h
  cap_root _ := rfl
  cap_bound _ _ h := by cases h

/-- `{ g: A | r0 }` against `{ g: A, h: B }`. -/
theorem unify_most_general_open_record : ∃ σ' es,
    Converges (fun n => unify .bare n (.record [("g", .con 20 [])] (.opened 0))
      (.record [("g", .con 20 []), ("h", .con 21 [])] .closed) oneRow) (.ok (), σ', es) := by
  have hfields : ∀ {P : Ty → Prop}, P (.con 20 []) → P (.con 21 []) →
      ∀ f ∈ [("g", Ty.con 20 []), ("h", .con 21 [])], ∀ u, Reaches oneRow u f.2 → P u := by
    intro P h₁ h₂ f hf
    rcases mem_pair.mp hf with rfl | rfl
    · exact forall_reaches_nullary h₁
    · exact forall_reaches_nullary h₂
  have hfield : ∀ {P : Ty → Prop}, P (.con 20 []) →
      ∀ f ∈ [("g", Ty.con 20 [])], ∀ u, Reaches oneRow u f.2 → P u := by
    intro P h f hf
    rw [mem_singleton.mp hf]
    exact forall_reaches_nullary h
  have hdata : ∀ id, id = 20 ∨ id = 21 → id ∉ Workspace.bare.builtins.projections := by
    rintro id (rfl | rfl) <;> decide
  refine (unify_most_general .bare acyclicBindings_new.fresh.2.2 oneRow_allocated
    ⟨fun rv hrv => ?_, fun rv hrv => ?_⟩
    (forall_reaches_record trivial (hfield (hdata 20 (.inl rfl))) fun _ _ => rfl)
    (forall_reaches_record trivial (hfields (hdata 20 (.inl rfl)) (hdata 21 (.inr rfl)))
      fun _ _ => rfl)).1 ⟨constantRow ⟨[("h", .con 21 [])], .closed⟩,
        sat_oneRow _, fun _ => pairwise_singleton _ _, ?_, rfl⟩
  · cases mem_singleton.mp hrv
    exact Nat.zero_lt_one
  · cases hrv
  · rintro u (hu | hu)
    · have happart : Apart (constantRow ⟨[("h", .con 21 [])], .closed⟩) [("g", .con 20 [])]
          (.opened 0) := by
        show ["g", "h"].Nodup
        decide
      exact forall_reaches_record (P := ApartHead _) happart (hfield trivial) (fun _ _ => rfl) u hu
    · have happart : Apart (constantRow ⟨[("h", .con 21 [])], .closed⟩)
          [("g", .con 20 []), ("h", .con 21 [])] .closed := by
        show ["g", "h"].Nodup
        decide
      exact forall_reaches_record (P := ApartHead _) happart (hfields trivial trivial)
        (fun _ _ => rfl) u hu

/-- `oneRow` with `r0` bound to `{ g: B }`. -/
def rowBound : InferCtx :=
  { oneRow with rowvids := oneRow.rowvids.unionValue 0 ⟨[("g", .con 21 [])], .closed⟩ }

/-- Without keeping labels apart the statement fails: `{ g: A | r0 }` and `{ g: B }` are refused,
and yet binding `r0` to `{ g: B }` makes deep resolution give both the same type, since the fields
of a tail come last. -/
theorem tail_overwrites_field :
    oneRow.AcyclicBindings ∧
    Ordinary .bare oneRow (.record [("g", .con 20 [])] (.opened 0)) ∧
    Ordinary .bare oneRow (.record [("g", .con 21 [])] .closed) ∧
    (∃ e σ' es, Converges (fun n => unify .bare n (.record [("g", .con 20 [])] (.opened 0))
      (.record [("g", .con 21 [])] .closed) oneRow) (.error e, σ', es)) ∧
    ResolveAlike .bare rowBound (.record [("g", .con 20 [])] (.opened 0))
      (.record [("g", .con 21 [])] .closed) ∧
    ∃ ρ, Sat .bare ρ oneRow ∧ interp .bare ρ (.record [("g", .con 20 [])] (.opened 0))
      = interp .bare ρ (.record [("g", .con 21 [])] .closed) := by
  have hfield : ∀ {id}, id ∉ Workspace.bare.builtins.projections → ∀ f ∈ [("g", Ty.con id [])],
      ∀ u, Reaches oneRow u f.2 → OrdinaryHead .bare oneRow u := by
    intro id hid f hf
    rw [mem_singleton.mp hf]
    exact forall_reaches_nullary hid
  have hfuel : ∀ {α : Type} {f : Nat → Option α} {a : α}, (∀ n, f (n + 9) = some a) →
      Converges f a := by
    intro α f a h
    refine ⟨9, fun n hn => ?_⟩
    obtain ⟨m, rfl⟩ := Nat.exists_eq_add_of_le' hn
    exact h m
  refine ⟨acyclicBindings_new.fresh.2.2,
    forall_reaches_record trivial (hfield (by decide)) fun _ _ => rfl,
    forall_reaches_record trivial (hfield (by decide)) fun _ _ => rfl,
    ⟨_, _, _, hfuel fun _ => rfl⟩,
    ⟨.record [("g", .con 21 [])] .closed, .record [("g", .con 21 [])] .closed,
      hfuel fun _ => rfl, hfuel fun _ => rfl, rfl⟩,
    constantRow ⟨[("g", .con 21 [])], .closed⟩, sat_oneRow _, rfl⟩

end Ridge.Unifiers
