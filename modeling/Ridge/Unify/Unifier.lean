import Ridge.Unify.Canonical
import Ridge.Unify.Acyclic

/-!
# Unifiers of ordinary types

What it is to unify two types that mention no projection and no `Type::Error`. A substitution is
an assignment; it extends the bindings of a context when it satisfies them (`Sat`). A row
substitution puts no label behind fields that list it already (`Apart`): without this, the fields
of a tail overwrite the fields in front of it, and no two records would ever have to agree.

The height of what a type stands for drops from a type to its parts and never rises along a
binding. This is why a unifier rules out a failing occurs check.
-/

namespace Ridge

/-! ## Height -/

mutual
/-- How deep constructors are nested in a type. -/
def Ty.height : Ty → Nat
  | .con _ args => Ty.heightAll args + 1
  | .fn params ret _ => max (Ty.heightAll params) ret.height + 1
  | .tuple ts => Ty.heightAll ts + 1
  | .record fields _ => Ty.heightFields fields + 1
  | .aliased _ body => body.height + 1
  | .var _ | .rigid _ _ | .error => 0

def Ty.heightAll : List Ty → Nat
  | [] => 0
  | t :: ts => max t.height (Ty.heightAll ts)

def Ty.heightFields : List Field → Nat
  | [] => 0
  | (_, t) :: fs => max t.height (Ty.heightFields fs)
end

theorem Ty.height_le_heightAll {t : Ty} {ts : List Ty} (h : t ∈ ts) :
    t.height ≤ Ty.heightAll ts := by
  induction ts with
  | nil => cases h
  | cons u ts ih =>
    rw [Ty.heightAll]
    rcases List.mem_cons.mp h with rfl | h
    · exact Nat.le_max_left _ _
    · exact le_trans (ih h) (Nat.le_max_right _ _)

variable {fs : List Field}

theorem Ty.height_le_heightFields {f : Field} (h : f ∈ fs) : f.2.height ≤ Ty.heightFields fs := by
  induction fs with
  | nil => cases h
  | cons g fs ih =>
    rw [Ty.heightFields]
    rcases List.mem_cons.mp h with rfl | h
    · exact Nat.le_max_left _ _
    · exact le_trans (ih h) (Nat.le_max_right _ _)

theorem Ty.heightFields_le {k : Nat} (h : ∀ f ∈ fs, f.2.height ≤ k) : Ty.heightFields fs ≤ k := by
  induction fs with
  | nil => exact Nat.zero_le k
  | cons f fs ih =>
    rw [Ty.heightFields]
    exact Nat.max_le.mpr ⟨h f List.mem_cons_self, ih fun g hg => h g (List.mem_cons_of_mem f hg)⟩

end Ridge

namespace Ridge.Unifiers

open InferCtx Relation List Option KeyedList UnificationTable

variable {t : Ty} {fields : List Field} {tail : RowTail}

/-! ## Parts -/

/-- `u` is written in `t`. -/
inductive Part (u : Ty) : Ty → Prop
  | here : Part u u
  | arg {id args a} : a ∈ args → Part u a → Part u (.con id args)
  | param {params ret caps a} : a ∈ params → Part u a → Part u (.fn params ret caps)
  | ret {params ret caps} : Part u ret → Part u (.fn params ret caps)
  | elem {ts a} : a ∈ ts → Part u a → Part u (.tuple ts)
  | field {fields tail f} : f ∈ fields → Part u f.2 → Part u (.record fields tail)
  | body {name t} : Part u t → Part u (.aliased name t)

/-- `u` is written in `t`, or in a binding that `t` reaches. -/
inductive Reaches (σ : InferCtx) (u : Ty) : Ty → Prop
  | here : Reaches σ u u
  | var {v t} : σ.tyvids.probeValue v = some t → Reaches σ u t → Reaches σ u (.var v)
  | arg {id args a} : a ∈ args → Reaches σ u a → Reaches σ u (.con id args)
  | param {params ret caps a} : a ∈ params → Reaches σ u a → Reaches σ u (.fn params ret caps)
  | ret {params ret caps} : Reaches σ u ret → Reaches σ u (.fn params ret caps)
  | elem {ts a} : a ∈ ts → Reaches σ u a → Reaches σ u (.tuple ts)
  | field {fields tail f} : f ∈ fields → Reaches σ u f.2 → Reaches σ u (.record fields tail)
  | behind {fields rv row} : σ.rowvids.probeValue rv = some row → Reaches σ u row.toTy →
      Reaches σ u (.record fields (.opened rv))
  | body {name t} : Reaches σ u t → Reaches σ u (.aliased name t)

variable {σ : InferCtx}

theorem Reaches.of_part {u : Ty} (h : Part u t) : Reaches σ u t := by
  induction h with
  | here => exact .here
  | arg ha _ ih => exact .arg ha ih
  | param ha _ ih => exact .param ha ih
  | ret _ ih => exact .ret ih
  | elem ha _ ih => exact .elem ha ih
  | field hf _ ih => exact .field hf ih
  | body _ ih => exact .body ih

theorem Reaches.trans {u v : Ty} (huv : Reaches σ u v) (h : Reaches σ v t) : Reaches σ u t := by
  induction h with
  | here => exact huv
  | var hv _ ih => exact .var hv ih
  | arg ha _ ih => exact .arg ha ih
  | param ha _ ih => exact .param ha ih
  | ret _ ih => exact .ret ih
  | elem ha _ ih => exact .elem ha ih
  | field hf _ ih => exact .field hf ih
  | behind hrow _ ih => exact .behind hrow ih
  | body _ ih => exact .body ih

/-! ## Ordinary types -/

/-- A capability row that is one set or one variable, also where the variable is bound. -/
inductive PlainCaps (σ : InferCtx) : CapRow → Prop
  | concrete {s} : PlainCaps σ (.concrete s)
  | free {v} : σ.capvids.probeValue v = none → PlainCaps σ (.var v)
  | bound {v c} : σ.capvids.probeValue v = some c → PlainCaps σ c → PlainCaps σ (.var v)

/-- The head of the type is no projection and no error. -/
def OrdinaryHead (W : Workspace) (σ : InferCtx) : Ty → Prop
  | .con id _ => id ∉ W.builtins.projections
  | .fn _ _ caps => PlainCaps σ caps
  | .error => False
  | _ => True

def Ordinary (W : Workspace) (σ : InferCtx) (t : Ty) : Prop :=
  ∀ u, Reaches σ u t → OrdinaryHead W σ u

/-- The row variables were handed out. -/
def Old (σ : InferCtx) (vs : List Vertex) : Prop :=
  ∀ rv, .row rv ∈ vs → rv < σ.rowvids.len

/-- The bindings and the classes of a context mention row variables it handed out. -/
structure Allocated (σ : InferCtx) : Prop where
  bound : ∀ w, Old σ (σ.bindingVars w)
  root : ∀ rv, rv < σ.rowvids.len → σ.rowvids.root rv < σ.rowvids.len

/-! ## Unifiers -/

def labels (fields : List Field) : List String := fields.map Prod.fst

/-- No label of the record is listed twice, the fields of its tail included. -/
def Apart (ρ : Assignment) (fields : List Field) (tail : RowTail) : Prop :=
  (labels fields ++ labels (ρ.tailRow tail).fields).Nodup

def ApartHead (ρ : Assignment) : Ty → Prop
  | .record fields tail => Apart ρ fields tail
  | _ => True

/-- A substitution that extends the bindings of the context and makes the two types equal. The
rows it substitutes are in the form `Row::new` gives them, and list no label that stands in front
of them. -/
structure Unifier (W : Workspace) (σ : InferCtx) (a b : Ty) (ρ : Assignment) : Prop where
  sat : Sat W ρ σ
  sorted : ∀ rv, KeyedList.Strict (ρ.row rv).fields
  apart : ∀ u, Reaches σ u a ∨ Reaches σ u b → ApartHead ρ u
  equal : interp W ρ a = interp W ρ b

/-- `ρ'` gives every variable of `σ` what `ρ` gives it. -/
structure SameOn (σ : InferCtx) (ρ ρ' : Assignment) : Prop where
  ty : ρ'.ty = ρ.ty
  cap : ρ'.cap = ρ.cap
  row : ∀ rv, rv < σ.rowvids.len → ρ'.row rv = ρ.row rv

theorem SameOn.refl (σ : InferCtx) (ρ : Assignment) : SameOn σ ρ ρ := ⟨rfl, rfl, fun _ _ => rfl⟩

variable {vs : List Vertex}

theorem SameOn.agree {ρ ρ' : Assignment} (h : SameOn σ ρ ρ') (hvs : Old σ vs) :
    ∀ w ∈ vs, Agree ρ' ρ w := by
  intro w hw
  cases w with
  | ty v => exact congrFun h.ty v
  | row rv => exact h.row rv (hvs rv hw)
  | cap v => exact congrFun h.cap v

/-! ## The scope of an equation -/

/-- The variables an equation speaks about. -/
structure Scope where
  ty : TyVid → Prop
  row : RowVid → Prop
  cap : CapVid → Prop

namespace Scope

variable (S : Scope)

def Has : Vertex → Prop
  | .ty v => S.ty v
  | .row rv => S.row rv
  | .cap v => S.cap v

def HasTail : RowTail → Prop
  | .closed => True
  | .opened rv => S.row rv

def HasCaps : CapRow → Prop
  | .concrete _ => True
  | .var v => S.cap v
  | .union _ => False

/-- The head of the type is ordinary, it stays within the scope, and its labels are apart. -/
def Fits (W : Workspace) (ρ : Assignment) : Ty → Prop
  | .var v => S.ty v
  | .con id _ => id ∉ W.builtins.projections
  | .fn _ _ caps => S.HasCaps caps
  | .record fields tail => S.HasTail tail ∧ Apart ρ fields tail
  | .error => False
  | _ => True

end Scope

/-- Every part of the type fits, and its row variables were handed out. -/
structure Fit (W : Workspace) (S : Scope) (ρ : Assignment) (σ : InferCtx) (t : Ty) : Prop where
  parts : ∀ u, Part u t → S.Fits W ρ u
  old : Old σ t.vars

/-- `ρ` solves the context, and what the variables of the scope are bound to fits. -/
structure Models (W : Workspace) (S : Scope) (ρ : Assignment) (σ : InferCtx) : Prop where
  acyclic : σ.AcyclicBindings
  allocated : Allocated σ
  sat : Sat W ρ σ
  sorted : ∀ rv, KeyedList.Strict (ρ.row rv).fields
  root : ∀ w, S.Has w → S.Has (σ.rootOf w)
  ty_bound : ∀ v t, S.ty v → σ.tyvids.probeValue v = some t → Fit W S ρ σ t
  row_bound : ∀ rv row, S.row rv → σ.rowvids.probeValue rv = some row → Fit W S ρ σ row.toTy
  row_fresh : ∀ rv, σ.rowvids.len ≤ rv → S.row rv
  cap_bound : ∀ v c, S.cap v → σ.capvids.probeValue v = some c → S.HasCaps c

variable {W : Workspace} {S : Scope} {ρ : Assignment} {σ : InferCtx} {n : Nat}

theorem old_append {vs ws : List Vertex} : Old σ (vs ++ ws) ↔ Old σ vs ∧ Old σ ws := by
  simp only [Old, mem_append, or_imp, forall_and]

namespace Fit

theorem arg {id : TyConId} {args : List Ty} (h : Fit W S ρ σ (.con id args)) :
    ∀ a ∈ args, Fit W S ρ σ a := fun a ha =>
  ⟨fun u hu => h.parts u (.arg ha hu), fun rv hrv => h.old rv (Ty.mem_varsAll.mpr ⟨a, ha, hrv⟩)⟩

theorem elem {ts : List Ty} (h : Fit W S ρ σ (.tuple ts)) : ∀ t ∈ ts, Fit W S ρ σ t := fun t ht =>
  ⟨fun u hu => h.parts u (.elem ht hu), fun rv hrv => h.old rv (Ty.mem_varsAll.mpr ⟨t, ht, hrv⟩)⟩

theorem fn {params : List Ty} {ret : Ty} {caps : CapRow} (h : Fit W S ρ σ (.fn params ret caps)) :
    (∀ p ∈ params, Fit W S ρ σ p) ∧ Fit W S ρ σ ret ∧ S.HasCaps caps := by
  have hold := h.old
  rw [Ty.vars, old_append, old_append] at hold
  refine ⟨fun p hp => ⟨fun u hu => h.parts u (.param hp hu), fun rv hrv => ?_⟩,
    ⟨fun u hu => h.parts u (.ret hu), hold.1.2⟩, h.parts _ .here⟩
  exact hold.1.1 rv (Ty.mem_varsAll.mpr ⟨p, hp, hrv⟩)

theorem record (h : Fit W S ρ σ (.record fields tail)) :
    (∀ f ∈ fields, Fit W S ρ σ f.2) ∧ S.HasTail tail ∧ Old σ tail.vars ∧ Apart ρ fields tail := by
  have hold := old_append.mp h.old
  have hhead := h.parts _ .here
  refine ⟨fun f hf => ⟨fun u hu => h.parts u (.field hf hu), fun rv hrv => ?_⟩, hhead.1, hold.2,
    hhead.2⟩
  exact hold.1 rv (Ty.mem_varsFields.mpr ⟨f, hf, hrv⟩)

theorem body {name : TyConId} (h : Fit W S ρ σ (.aliased name t)) : Fit W S ρ σ t :=
  ⟨fun u hu => h.parts u (.body hu), h.old⟩

theorem of_record (hfields : ∀ f ∈ fields, Fit W S ρ σ f.2) (htail : S.HasTail tail)
    (hold : Old σ tail.vars) (hapart : Apart ρ fields tail) :
    Fit W S ρ σ (.record fields tail) := by
  refine ⟨fun u hu => ?_, old_append.mpr ⟨fun rv hrv => ?_, hold⟩⟩
  · cases hu with
    | here => exact ⟨htail, hapart⟩
    | field hf hu => exact (hfields _ hf).parts u hu
  · obtain ⟨f, hf, hrv⟩ := Ty.mem_varsFields.mp hrv
    exact (hfields f hf).old rv hrv

end Fit

/-! ## Records with labels apart -/

theorem labels_interpFields (fs : List Field) : labels (interpFields W ρ fs) = labels fs := by
  rw [interpFields_eq_map, labels, labels, List.map_map]
  rfl

variable {f : Field}

/-- With labels apart, a record has the fields written in it and those of its tail. -/
theorem mem_extend {fs : List Field} {row : Row} (h : (labels fs ++ labels row.fields).Nodup) :
    f ∈ (Row.extend fs row).fields ↔ f ∈ fs ∨ f ∈ row.fields := by
  have hnodup : ((fs ++ row.fields).map Prod.fst).Nodup := by rwa [map_append]
  rw [← mem_append]
  constructor
  · exact mem_of_mem_normalise
  · intro hf
    apply KeyedList.mem_of_lookup
    show (normalise (fs ++ row.fields)).lookup f.1 = some f.2
    rw [lookup_normalise, lastOf_iff_mem hnodup]
    exact hf

theorem Apart.interp (h : Apart ρ fields tail) :
    (labels (interpFields W ρ fields) ++ labels (ρ.tailRow tail).fields).Nodup := by
  rw [labels_interpFields]
  exact h

theorem mem_interpFields (hf : f ∈ fields) : (f.1, interp W ρ f.2) ∈ interpFields W ρ fields := by
  rw [interpFields_eq_map]
  exact mem_map.mpr ⟨f, hf, rfl⟩

/-! ## The weight of a variable -/

/-- Twice the height of what a variable stands for; a row counts as half a step above its fields. -/
def weight (ρ : Assignment) : Vertex → Nat
  | .ty v => 2 * (ρ.ty v).height
  | .row rv => 2 * Ty.heightFields (ρ.row rv).fields + 1
  | .cap _ => 0

theorem interp_height_con {id : TyConId} {args : List Ty} (hid : id ∉ W.builtins.projections)
    {a : Ty} (ha : a ∈ args) : (interp W ρ a).height < (interp W ρ (.con id args)).height := by
  rw [interp, W.project_of_not_mem hid, interpAll_eq_map, Ty.height, Nat.lt_succ_iff]
  exact Ty.height_le_heightAll (mem_map_of_mem ha)

theorem interp_height_tuple {ts : List Ty} (ht : t ∈ ts) :
    (interp W ρ t).height < (interp W ρ (.tuple ts)).height := by
  rw [interp, interpAll_eq_map, Ty.height, Nat.lt_succ_iff]
  exact Ty.height_le_heightAll (mem_map_of_mem ht)

theorem interp_height_param {params : List Ty} (ret : Ty) (caps : CapRow) {p : Ty}
    (hp : p ∈ params) : (interp W ρ p).height < (interp W ρ (.fn params ret caps)).height := by
  rw [interp, interpAll_eq_map, Ty.height, Nat.lt_succ_iff]
  exact le_trans (Ty.height_le_heightAll (mem_map_of_mem hp)) (Nat.le_max_left _ _)

theorem interp_height_ret (params : List Ty) (ret : Ty) (caps : CapRow) :
    (interp W ρ ret).height < (interp W ρ (.fn params ret caps)).height := by
  rw [interp, Ty.height, Nat.lt_succ_iff]
  exact Nat.le_max_right _ _

theorem interp_height_extend (h : Apart ρ fields tail) (hf : f ∈ fields) :
    (interp W ρ f.2).height
      ≤ Ty.heightFields (Row.extend (interpFields W ρ fields) (ρ.tailRow tail)).fields :=
  Ty.height_le_heightFields (f := (f.1, interp W ρ f.2))
    ((mem_extend h.interp).mpr (.inl (mem_interpFields hf)))

theorem interp_height_field (h : Apart ρ fields tail) (hf : f ∈ fields) :
    (interp W ρ f.2).height < (interp W ρ (.record fields tail)).height := by
  rw [interp, Row.toTy, Ty.height, Nat.lt_succ_iff]
  exact interp_height_extend h hf

variable {rv : RowVid}

theorem interp_height_tail (h : Apart ρ fields (.opened rv)) :
    Ty.heightFields (ρ.row rv).fields
      ≤ Ty.heightFields
        (Row.extend (interpFields W ρ fields) (ρ.tailRow (.opened rv))).fields :=
  Ty.heightFields_le fun _ hf => Ty.height_le_heightFields ((mem_extend h.interp).mpr (.inr hf))

theorem has_vertices {c : CapRow} (h : S.HasCaps c) : ∀ w ∈ c.vertices, S.Has w := by
  intro w hw
  obtain ⟨v, hv, rfl⟩ := mem_map.mp hw
  cases c with
  | concrete s => simp [CapRow.vars] at hv
  | var u =>
    rw [CapRow.vars, mem_singleton] at hv
    rw [hv]
    exact h
  | union rows => exact h.elim

/-- The variables of a type are in the scope, and weigh no more than the type. -/
theorem weight_le (ht : Fit W S ρ σ t) :
    ∀ w ∈ t.vars, S.Has w ∧ weight ρ w ≤ 2 * (interp W ρ t).height := by
  induction t using Ty.inductionOn with
  | var v =>
    intro w hw
    rw [Ty.vars, mem_singleton] at hw
    subst hw
    exact ⟨ht.parts _ .here, Nat.le_refl _⟩
  | rigid | error => intro w hw; cases hw
  | con id args ih =>
    intro w hw
    obtain ⟨a, ha, hwa⟩ := Ty.mem_varsAll.mp hw
    obtain ⟨hhas, hle⟩ := ih a ha (ht.arg a ha) w hwa
    have := interp_height_con (ρ := ρ) (ht.parts _ .here : id ∉ W.builtins.projections) ha
    exact ⟨hhas, by omega⟩
  | tuple ts ih =>
    intro w hw
    obtain ⟨a, ha, hwa⟩ := Ty.mem_varsAll.mp hw
    obtain ⟨hhas, hle⟩ := ih a ha (ht.elem a ha) w hwa
    have := interp_height_tuple (W := W) (ρ := ρ) ha
    exact ⟨hhas, by omega⟩
  | wrapper name body ih => exact ih ht.body
  | fn params ret caps ihp ihr =>
    intro w hw
    obtain ⟨hparams, hret, hcaps⟩ := ht.fn
    rw [Ty.vars, mem_append, mem_append] at hw
    rcases hw with (hw | hw) | hw
    · obtain ⟨p, hp, hwp⟩ := Ty.mem_varsAll.mp hw
      obtain ⟨hhas, hle⟩ := ihp p hp (hparams p hp) w hwp
      have := interp_height_param (W := W) (ρ := ρ) ret caps hp
      exact ⟨hhas, by omega⟩
    · obtain ⟨hhas, hle⟩ := ihr hret w hw
      have := interp_height_ret (W := W) (ρ := ρ) params ret caps
      exact ⟨hhas, by omega⟩
    · obtain ⟨v, -, rfl⟩ := mem_map.mp hw
      exact ⟨has_vertices hcaps _ hw, Nat.zero_le _⟩
  | record fields tail ih =>
    intro w hw
    obtain ⟨hfields, htail, -, hapart⟩ := ht.record
    rw [Ty.vars, mem_append] at hw
    rcases hw with hw | hw
    · obtain ⟨f, hf, hwf⟩ := Ty.mem_varsFields.mp hw
      obtain ⟨hhas, hle⟩ := ih f hf (hfields f hf) w hwf
      have := interp_height_field (W := W) hapart hf
      exact ⟨hhas, by omega⟩
    · cases tail with
      | closed => cases hw
      | opened rv =>
        rw [RowTail.vars, mem_singleton] at hw
        subst hw
        refine ⟨htail, ?_⟩
        have hmono := interp_height_tail (W := W) hapart
        show 2 * Ty.heightFields (ρ.row rv).fields + 1 ≤ _
        rw [interp, Row.toTy, Ty.height]
        omega

/-- Below a constructor they weigh less. -/
theorem weight_lt (ht : Fit W S ρ σ t) (hvar : ∀ v, t ≠ .var v)
    (halias : ∀ name body, t ≠ .aliased name body) :
    ∀ w ∈ t.vars, weight ρ w < 2 * (interp W ρ t).height := by
  intro w hw
  cases t with
  | var v => exact absurd rfl (hvar v)
  | aliased name body => exact absurd rfl (halias name body)
  | rigid | error => cases hw
  | con id args =>
    obtain ⟨a, ha, hwa⟩ := Ty.mem_varsAll.mp hw
    have hle := (weight_le (ht.arg a ha) w hwa).2
    have := interp_height_con (ρ := ρ) (ht.parts _ .here : id ∉ W.builtins.projections) ha
    omega
  | tuple ts =>
    obtain ⟨a, ha, hwa⟩ := Ty.mem_varsAll.mp hw
    have hle := (weight_le (ht.elem a ha) w hwa).2
    have := interp_height_tuple (W := W) (ρ := ρ) ha
    omega
  | fn params ret caps =>
    obtain ⟨hparams, hret, hcaps⟩ := ht.fn
    rw [Ty.vars, mem_append, mem_append] at hw
    rcases hw with (hw | hw) | hw
    · obtain ⟨p, hp, hwp⟩ := Ty.mem_varsAll.mp hw
      have hle := (weight_le (hparams p hp) w hwp).2
      have := interp_height_param (W := W) (ρ := ρ) ret caps hp
      omega
    · have hle := (weight_le hret w hw).2
      have := interp_height_ret (W := W) (ρ := ρ) params ret caps
      omega
    · obtain ⟨v, -, rfl⟩ := mem_map.mp hw
      have := interp_height_ret (W := W) (ρ := ρ) params ret caps
      show 0 < _
      omega
  | record fields tail =>
    obtain ⟨hfields, -, -, hapart⟩ := ht.record
    rw [Ty.vars, mem_append] at hw
    rcases hw with hw | hw
    · obtain ⟨f, hf, hwf⟩ := Ty.mem_varsFields.mp hw
      have hle := (weight_le (hfields f hf) w hwf).2
      have := interp_height_field (W := W) hapart hf
      omega
    · cases tail with
      | closed => cases hw
      | opened rv =>
        rw [RowTail.vars, mem_singleton] at hw
        subst hw
        have hmono := interp_height_tail (W := W) hapart
        show 2 * Ty.heightFields (ρ.row rv).fields + 1 < _
        rw [interp, Row.toTy, Ty.height]
        omega

/-! ### Along the bindings -/

namespace Models

variable (hm : Models W S ρ σ)
include hm

theorem weight_rootOf (w : Vertex) : weight ρ (σ.rootOf w) = weight ρ w := by
  cases w with
  | ty v => rw [rootOf, weight, weight, hm.sat.ty_root]
  | row rv => rw [rootOf, weight, weight, hm.sat.row_root]
  | cap v => rfl

/-- What a variable is bound to weighs no more than the variable. -/
theorem weight_binding {w : Vertex} (hw : S.Has w) :
    ∀ u ∈ σ.bindingVars w, S.Has u ∧ weight ρ u ≤ weight ρ w := by
  intro u hu
  cases w with
  | ty v =>
    cases hv : σ.tyvids.probeValue v with
    | none => rw [bindingVars_ty_none hv] at hu; cases hu
    | some t =>
      rw [bindingVars_ty hv] at hu
      have := weight_le (hm.ty_bound v t hw hv) u hu
      rwa [← hm.sat.ty_bound v t hv] at this
  | cap v =>
    cases hv : σ.capvids.probeValue v with
    | none => rw [bindingVars_cap_none hv] at hu; cases hu
    | some c =>
      rw [bindingVars_cap hv] at hu
      obtain ⟨k, -, rfl⟩ := mem_map.mp hu
      exact ⟨has_vertices (hm.cap_bound v c hw hv) _ hu, Nat.zero_le _⟩
  | row rv =>
    cases hv : σ.rowvids.probeValue rv with
    | none => rw [bindingVars_row_none hv] at hu; cases hu
    | some row =>
      rw [bindingVars_row hv, Row.vars, mem_append] at hu
      obtain ⟨hfields, htail, -, hapart⟩ := (hm.row_bound rv row hw hv).record
      have hrow : ρ.row rv = Row.extend (interpFields W ρ row.fields) (ρ.tailRow row.tail) :=
        hm.sat.row_bound rv row hv
      rcases hu with hu | hu
      · obtain ⟨f, hf, huf⟩ := Ty.mem_varsFields.mp hu
        obtain ⟨hhas, hle⟩ := weight_le (hfields f hf) u huf
        have hheight := interp_height_extend (W := W) hapart hf
        refine ⟨hhas, ?_⟩
        rw [weight, hrow]
        omega
      · cases htl : row.tail with
        | closed => rw [htl] at hu; cases hu
        | opened r =>
          rw [htl, RowTail.vars, mem_singleton] at hu
          subst hu
          rw [htl] at htail hapart
          have hmono := interp_height_tail (W := W) hapart
          refine ⟨htail, ?_⟩
          rw [weight, weight, hrow, htl]
          omega

theorem weight_path {w v : Vertex} (hw : S.Has w) (h : ReflTransGen σ.Edge w v) :
    S.Has v ∧ weight ρ v ≤ weight ρ w := by
  induction h with
  | refl => exact ⟨hw, Nat.le_refl _⟩
  | @tail u x _ hedge ih =>
    obtain ⟨hroot, y, hy, rfl⟩ := hedge
    obtain ⟨hhas, hle⟩ := hm.weight_binding ih.1 y hy
    refine ⟨hm.root y hhas, ?_⟩
    rw [hm.weight_rootOf]
    omega

theorem weight_reaches {v : Vertex} {k : Nat} (hvs : ∀ w ∈ vs, S.Has w ∧ weight ρ w ≤ k)
    (h : σ.ReachesFrom vs v) : weight ρ v ≤ k := by
  obtain ⟨w, hw, hpath⟩ := h
  obtain ⟨hhas, hle⟩ := hvs w hw
  have := (hm.weight_path (hm.root w hhas) hpath).2
  rw [hm.weight_rootOf] at this
  omega

/-- A type that stands for the same as a variable does not reach the variable. -/
theorem not_reaches_ty {x : TyVid} (ht : Fit W S ρ σ t) (hvar : ∀ v, t ≠ .var v)
    (halias : ∀ name body, t ≠ .aliased name body) (heq : ρ.ty x = interp W ρ t) :
    ¬ σ.ReachesFrom t.vars (.ty (σ.tyvids.root x)) := by
  rintro ⟨w, hw, hpath⟩
  have hlt := weight_lt ht hvar halias w hw
  have hle := (hm.weight_path (hm.root w (weight_le ht w hw).1) hpath).2
  rw [hm.weight_rootOf] at hle
  have hx := hm.weight_rootOf (.ty x)
  rw [rootOf] at hx
  rw [hx, weight, heq] at hle
  omega

/-- Neither do the fields of a row that stands for the same as a row variable. -/
theorem not_reaches_row (hfields : ∀ f ∈ fields, Fit W S ρ σ f.2) (hapart : Apart ρ fields tail)
    (heq : ρ.row rv = Row.extend (interpFields W ρ fields) (ρ.tailRow tail)) (hf : f ∈ fields) :
    ¬ σ.ReachesFrom f.2.vars (.row (σ.rowvids.root rv)) := by
  intro hreach
  have hle := hm.weight_reaches (weight_le (hfields f hf)) hreach
  have hrv := hm.weight_rootOf (.row rv)
  have hheight := interp_height_extend (W := W) hapart hf
  rw [← heq] at hheight
  rw [rootOf] at hrv
  rw [hrv, weight] at hle
  omega

end Models

/-! ## The occurs checks only find what is there -/

theorem anyM_true {α : Type} {f : α → Option Bool} {l : List α} (h : l.anyM f = some true) :
    ∃ a ∈ l, f a = some true := by
  induction l with
  | nil => cases h
  | cons a l ih =>
    rw [anyM_cons] at h
    cases ha : f a with
    | none => rw [ha] at h; cases h
    | some b =>
      rw [ha] at h
      cases b with
      | true => exact ⟨a, mem_cons_self, ha⟩
      | false =>
        obtain ⟨c, hc, hfc⟩ := ih h
        exact ⟨c, mem_cons_of_mem a hc, hfc⟩

theorem reaches_of_shallowResolve {u : Ty} {v : Vertex} (h : σ.shallowResolve n t = some u)
    (hu : σ.ReachesFrom u.vars v) : σ.ReachesFrom t.vars v := by
  induction n generalizing t with
  | zero => cases h
  | succ n ih =>
    cases t with
    | var w =>
      simp only [shallowResolve, UnificationTable.find, probeValue_root] at h
      rw [Ty.vars, reachesFrom_singleton]
      cases hw : σ.tyvids.probeValue w with
      | some bound =>
        rw [hw] at h
        rw [bindingVars_ty hw]
        exact .inr (ih h)
      | none =>
        rw [hw] at h
        cases h
        rw [Ty.vars, reachesFrom_singleton] at hu
        simpa [rootOf, bindingVars, UnificationTable.root_root] using hu
    | aliased name body =>
      show σ.ReachesFrom body.vars v
      exact ih h
    | rigid | con | fn | tuple | record | error => cases h; exact hu

theorem reaches_of_occurs {x : TyVid} (h : σ.occurs n x t = some true) :
    σ.ReachesFrom t.vars (.ty (σ.tyvids.root x)) := by
  induction n generalizing t with
  | zero => cases h
  | succ n ih =>
    cases t with
    | var w =>
      rw [Ty.vars, reachesFrom_singleton]
      simp only [occurs, UnificationTable.find, probeValue_root] at h
      split at h
      · next heq => exact .inl (by rw [heq]; rfl)
      · cases hw : σ.tyvids.probeValue w with
        | none => rw [hw] at h; cases h
        | some bound =>
          rw [hw] at h
          rw [bindingVars_ty hw]
          exact .inr (ih h)
    | con id args | tuple ts =>
      obtain ⟨a, ha, hocc⟩ := anyM_true h
      exact reachesFrom_varsAll.mpr ⟨a, ha, ih hocc⟩
    | record fields tail =>
      obtain ⟨f, hf, hocc⟩ := anyM_true h
      exact reachesFrom_append.mpr (.inl (reachesFrom_varsFields.mpr ⟨f, hf, ih hocc⟩))
    | fn params ret caps =>
      rw [Ty.vars, reachesFrom_append, reachesFrom_append]
      obtain ⟨b, hb, h⟩ := bind_eq_some_iff.mp h
      cases b with
      | true =>
        obtain ⟨p, hp, hocc⟩ := anyM_true hb
        exact .inl (.inl (reachesFrom_varsAll.mpr ⟨p, hp, ih hocc⟩))
      | false => exact .inl (.inr (ih h))
    | aliased name body =>
      show σ.ReachesFrom body.vars _
      exact ih h
    | rigid | error => cases h

mutual
theorem reaches_of_rowOccurs {rv : RowVid} : ∀ (n : Nat) {fields : List Field} {tail : RowTail},
    σ.rowOccurs n rv fields tail = some true →
      σ.ReachesFrom (Ty.varsFields fields ++ tail.vars) (.row (σ.rowvids.root rv))
  | 0, _, _, h => by cases h
  | n + 1, fields, .closed, h => by
    obtain ⟨f, hf, hocc⟩ := anyM_true h
    exact reachesFrom_append.mpr
      (.inl (reachesFrom_varsFields.mpr ⟨f, hf, reaches_of_tyOccursRowvid n hocc⟩))
  | n + 1, fields, .opened t, h => by
    rw [reachesFrom_append, RowTail.vars, reachesFrom_singleton]
    simp only [rowOccurs, UnificationTable.find, probeValue_root] at h
    split at h
    · next heq => exact .inr (.inl (by rw [heq]; rfl))
    · have hfields : fields.anyM (fun f => σ.tyOccursRowvid n rv f.2) = some true →
          σ.ReachesFrom (Ty.varsFields fields) (.row (σ.rowvids.root rv)) := by
        intro h
        obtain ⟨f, hf, hocc⟩ := anyM_true h
        exact reachesFrom_varsFields.mpr ⟨f, hf, reaches_of_tyOccursRowvid n hocc⟩
      cases ht : σ.rowvids.probeValue t with
      | none => rw [ht] at h; exact .inl (hfields h)
      | some row =>
        rw [ht] at h
        obtain ⟨b, hb, h⟩ := bind_eq_some_iff.mp h
        cases b with
        | true =>
          rw [bindingVars_row ht]
          exact .inr (.inr (reaches_of_rowOccurs n hb))
        | false => exact .inl (hfields h)

theorem reaches_of_tyOccursRowvid {rv : RowVid} : ∀ (n : Nat) {t : Ty},
    σ.tyOccursRowvid n rv t = some true → σ.ReachesFrom t.vars (.row (σ.rowvids.root rv))
  | 0, _, h => by cases h
  | n + 1, t, h => by
    simp only [tyOccursRowvid] at h
    obtain ⟨u, hu, h⟩ := bind_eq_some_iff.mp h
    refine reaches_of_shallowResolve hu ?_
    cases u with
    | record fields tail => exact reaches_of_rowOccurs n h
    | con id args | tuple ts =>
      obtain ⟨a, ha, hocc⟩ := anyM_true h
      exact reachesFrom_varsAll.mpr ⟨a, ha, reaches_of_tyOccursRowvid n hocc⟩
    | fn params ret caps =>
      rw [Ty.vars, reachesFrom_append, reachesFrom_append]
      obtain ⟨b, hb, h⟩ := bind_eq_some_iff.mp h
      cases b with
      | true =>
        obtain ⟨p, hp, hocc⟩ := anyM_true hb
        exact .inl (.inl (reachesFrom_varsAll.mpr ⟨p, hp, reaches_of_tyOccursRowvid n hocc⟩))
      | false => exact .inl (.inr (reaches_of_tyOccursRowvid n h))
    | aliased name body =>
      show σ.ReachesFrom body.vars _
      exact reaches_of_tyOccursRowvid n h
    | var | rigid | error => cases h
end

end Ridge.Unifiers
