import Ridge.Types.Ty

/-!
# Projections — type constructors that compute

Eight built-in constructors are not data but functions on types: `Ret` reads the return of a
function type, `Rows` the row a query receiver decodes into, the join projections rebuild a
receiver or its condition, `InsertShape` the record a typed insert accepts. `unify` reduces one
at the head of an operand, `deep_resolve` reduces every one it meets; both try the eight in one
order, which is `Workspace.projections` here. A projection whose argument is not known yet is
*stuck* and is treated as an ordinary constructor.

`Workspace` is the part of `InferCtx` that unification reads and never writes.
-/

namespace Ridge

open List Option

variable {p : Projection} {u : Ty}

/-- The reconciled type-constructor ids the query projections reduce against. -/
structure RowsTycons where
  query : TyConId
  seq : Option TyConId
  join : TyConId
  leftJoin : TyConId
  rightJoin : TyConId
  fullJoin : TyConId
  joined : Option TyConId
  leftJoined : Option TyConId
  rightJoined : Option TyConId
  fullJoined : Option TyConId

/-- The receivers of the query projections. -/
def RowsTycons.ids (rt : RowsTycons) : List TyConId :=
  [rt.query, rt.join, rt.leftJoin, rt.rightJoin, rt.fullJoin] ++ rt.seq.toList
    ++ rt.joined.toList ++ rt.leftJoined.toList ++ rt.rightJoined.toList ++ rt.fullJoined.toList

/-- The constructors that compute. -/
def BuiltinTyCons.projections (b : BuiltinTyCons) : List TyConId :=
  [b.ret, b.rows, b.joincond, b.joinresult, b.leftJoinresult, b.rightJoinresult,
    b.fullJoinresult, b.insertShape]

/-- What unification reads of the inference context. The receivers are declared by the standard
library under names of their own, so none of them is a projection. -/
structure Workspace where
  builtins : BuiltinTyCons
  rowsTycons : Option RowsTycons
  insertShapes : TyConId → Option TyConId
  insertShapeEntities : TyConId → Option TyConId
  tyconDecls : List TyConDecl
  receivers : ∀ rt ∈ rowsTycons, ∀ id ∈ rt.ids, id ∉ builtins.projections

/-- A workspace without the query library. -/
def Workspace.bare : Workspace where
  builtins := ⟨0, 1, 2, 3, 4, 5, 6, 7, 8, 9, 10, by decide⟩
  rowsTycons := none
  insertShapes := fun _ => none
  insertShapeEntities := fun _ => none
  tyconDecls := []
  receivers := by simp

namespace Workspace

variable (W : Workspace)

def optionOf (t : Ty) : Ty := .con W.builtins.option [t]

/-- The row a receiver decodes into. -/
def reduceRowsArg : Ty → Option Ty
  | .con qid (q :: rest) =>
    match W.rowsTycons with
    | none => none
    | some rt =>
      if qid = rt.query then some q
      else if rt.seq = some qid then some q
      else match rest with
        | [] => none
        | f :: _ =>
          if qid = rt.join then some (.tuple [q, f])
          else if qid = rt.leftJoin then some (.tuple [q, W.optionOf f])
          else if qid = rt.rightJoin then some (.tuple [W.optionOf q, f])
          else if qid = rt.fullJoin then some (.tuple [W.optionOf q, W.optionOf f])
          -- a composite receiver: its own row is reduced here, without resolving it
          else if rt.joined = some qid then
            (reduceRowsArg q).map fun inner => .tuple [inner, f]
          else if rt.leftJoined = some qid then
            (reduceRowsArg q).map fun inner => .tuple [inner, W.optionOf f]
          else if rt.rightJoined = some qid then
            (reduceRowsArg q).map fun inner => .tuple [W.optionOf inner, f]
          else if rt.fullJoined = some qid then
            (reduceRowsArg q).map fun inner => .tuple [W.optionOf inner, W.optionOf f]
          else none
  | _ => none

/-- Is `qid` one of the nested-join receivers? -/
def isCompositeJoin (rt : RowsTycons) (qid : TyConId) : Bool :=
  rt.joined = some qid || rt.leftJoined = some qid || rt.rightJoined = some qid
    || rt.fullJoined = some qid

/-- The entities a join receiver carries, left to right. -/
def joinEntities : Ty → Option (List Ty)
  | .con qid (q :: rest) =>
    match W.rowsTycons with
    | none => none
    | some rt =>
      if qid = rt.query then some [q]
      else match rest with
        | [] => none
        | g :: _ =>
          if qid = rt.join then some [q, g]
          else if isCompositeJoin rt qid then (joinEntities q).map (· ++ [g])
          else none
  | _ => none

def joinAdapter : Ty → Option Ty
  | .con qid qargs =>
    match W.rowsTycons with
    | none => none
    | some rt =>
      if qid = rt.query then qargs[1]?
      else if qid = rt.join || isCompositeJoin rt qid then qargs[2]?
      else none
  | _ => none

/-- The curried condition a join over `q` adding `f` accepts. -/
def reduceJoincondArg (q f : Ty) : Option Ty :=
  (W.joinEntities q).map fun es =>
    .fn (es ++ [f]) (.con W.builtins.bool []) (.concrete .PURE)

/-- The type a join verb over `q` adding `f` produces: the verb's binary constructor over a
query, its nested constructor over a composite receiver. -/
def reduceResultArg (binary : RowsTycons → TyConId) (nested : RowsTycons → Option TyConId)
    (q f : Ty) : Option Ty :=
  match W.rowsTycons, q with
  | some rt, .con qid qargs =>
    match W.joinAdapter q with
    | none => none
    | some a =>
      if qid = rt.query then qargs[0]?.map fun e => .con (binary rt) [e, f, a]
      else if qid = rt.join || isCompositeJoin rt qid then
        (nested rt).map fun joined => .con joined [q, f, a]
      else none
  | _, _ => none

def reduceJoinresultArg : Ty → Ty → Option Ty := W.reduceResultArg (·.join) (·.joined)

def reduceLeftjoinresultArg : Ty → Ty → Option Ty :=
  W.reduceResultArg (·.leftJoin) (·.leftJoined)

def reduceRightjoinresultArg : Ty → Ty → Option Ty :=
  W.reduceResultArg (·.rightJoin) (·.rightJoined)

def reduceFulljoinresultArg : Ty → Ty → Option Ty :=
  W.reduceResultArg (·.fullJoin) (·.fullJoined)

/-- The companion of an entity that has one, any other constructor
application itself. -/
def reduceInsertShapeArg : Ty → Option Ty
  | .con eid args =>
    match W.insertShapes eid with
    | some shape => some (.con shape [])
    | none => some (.con eid args)
  | _ => none

/-- The entity an arity-0 shape belongs to. -/
def insertShapeInverse : Ty → Option Ty
  | .con tid [] => some (.con ((W.insertShapeEntities tid).getD tid) [])
  | _ => none

/-! ## The table of projections -/

/-- A constructor that computes: its head, its arity, and what it does with its arguments. -/
structure Projection where
  head : TyConId
  arity : Nat
  reduce : List Ty → Option Ty

def unary (head : TyConId) (f : Ty → Option Ty) : Projection where
  head := head
  arity := 1
  reduce
    | [q] => f q
    | _ => none

def binary (head : TyConId) (f : Ty → Ty → Option Ty) : Projection where
  head := head
  arity := 2
  reduce
    | [q, e] => f q e
    | _ => none

/-- `Ret (fn … -> r)` is `r`. -/
def reduceRetArg : Ty → Option Ty
  | .fn _ ret _ => some ret
  | _ => none

def ret : Projection := unary W.builtins.ret reduceRetArg
def rows : Projection := unary W.builtins.rows W.reduceRowsArg
def joincond : Projection := binary W.builtins.joincond W.reduceJoincondArg
def joinresult : Projection := binary W.builtins.joinresult W.reduceJoinresultArg
def leftjoinresult : Projection := binary W.builtins.leftJoinresult W.reduceLeftjoinresultArg
def rightjoinresult : Projection := binary W.builtins.rightJoinresult W.reduceRightjoinresultArg
def fulljoinresult : Projection := binary W.builtins.fullJoinresult W.reduceFulljoinresultArg
def insertShape : Projection := unary W.builtins.insertShape W.reduceInsertShapeArg

/-- The eight projections, in the order both passes try them. -/
def projections : List Projection :=
  [W.ret, W.rows, W.joincond, W.joinresult, W.leftjoinresult, W.rightjoinresult,
    W.fulljoinresult, W.insertShape]

/-- What `deep_resolve` does at a constructor application whose arguments are resolved: the
first projection of that head and arity that reduces. -/
def reduceProjection (id : TyConId) (args : List Ty) : Option Ty :=
  W.projections.findSome? fun p =>
    if p.head = id ∧ args.length = p.arity then p.reduce args else none

/-- The application with its projection reduced, or as it is when there is nothing to reduce. -/
def project (id : TyConId) (args : List Ty) : Ty :=
  (W.reduceProjection id args).getD (.con id args)

/-! ### Reading the table

The heads are distinct, so the order the eight are tried in does not show. -/

theorem heads_eq : W.projections.map (·.head) = W.builtins.projections := rfl

theorem heads_nodup : (W.projections.map (·.head)).Nodup := by
  rw [heads_eq]
  exact W.builtins.distinct.of_cons.of_cons.of_cons

theorem findSome?_of_nodup {ps : List Projection} (hps : (ps.map (·.head)).Nodup) (hp : p ∈ ps)
    (args : List Ty) :
    (ps.findSome? fun q => if q.head = p.head ∧ args.length = q.arity then q.reduce args else none)
      = if args.length = p.arity then p.reduce args else none := by
  induction ps with
  | nil => simp at hp
  | cons q ps ih =>
    rw [map_cons, nodup_cons] at hps
    rcases mem_cons.mp hp with rfl | hp
    · rw [findSome?_cons]
      have hrest : (ps.findSome? fun q =>
          if q.head = p.head ∧ args.length = q.arity then q.reduce args else none) = none := by
        rw [findSome?_eq_none_iff]
        intro q hq
        rw [if_neg]
        rintro ⟨hhead, -⟩
        exact hps.1 (mem_map.mpr ⟨q, hq, hhead⟩)
      by_cases hlen : args.length = p.arity
      · rw [if_pos ⟨rfl, hlen⟩, if_pos hlen]
        cases hred : p.reduce args with
        | some u => rfl
        | none => exact hrest
      · rw [if_neg fun h => hlen h.2, if_neg hlen]
        exact hrest
    · rw [findSome?_cons, if_neg fun h => hps.1 (mem_map.mpr ⟨p, hp, h.1.symm⟩)]
      exact ih hps.2 hp

theorem reduceProjection_head (hp : p ∈ W.projections) (args : List Ty) :
    W.reduceProjection p.head args
      = if args.length = p.arity then p.reduce args else none :=
  findSome?_of_nodup W.heads_nodup hp args

variable {id : TyConId}

/-- Any other constructor is data. -/
theorem reduceProjection_of_not_mem (hid : id ∉ W.builtins.projections) (args : List Ty) :
    W.reduceProjection id args = none := by
  rw [reduceProjection, findSome?_eq_none_iff]
  intro p hp
  rw [if_neg]
  rintro ⟨rfl, -⟩
  exact hid (by rw [← heads_eq]; exact mem_map.mpr ⟨p, hp, rfl⟩)

theorem project_of_not_mem (hid : id ∉ W.builtins.projections) (args : List Ty) :
    W.project id args = .con id args := by
  rw [project, reduceProjection_of_not_mem W hid, getD_none]

variable {args : List Ty}

theorem project_of_reduce (hp : p ∈ W.projections) (hlen : args.length = p.arity)
    (h : p.reduce args = some u) : W.project p.head args = u := by
  rw [project, reduceProjection_head W hp, if_pos hlen, h, getD_some]

variable {W}

theorem arity_pos (hp : p ∈ W.projections) : 0 < p.arity := by
  simp only [projections, mem_cons, not_mem_nil, or_false] at hp
  rcases hp with rfl | rfl | rfl | rfl | rfl | rfl | rfl | rfl <;>
    first | exact Nat.one_pos | exact Nat.two_pos

/-- A constructor without arguments is data. -/
theorem project_nil (id : TyConId) : W.project id [] = .con id [] := by
  have hnone : W.reduceProjection id [] = none := by
    rw [reduceProjection, findSome?_eq_none_iff]
    intro p hp
    rw [if_neg]
    rintro ⟨-, hlen⟩
    exact absurd hlen (Nat.ne_of_lt (arity_pos hp))
  rw [project, hnone, getD_none]

theorem option_not_mem : W.builtins.option ∉ W.builtins.projections := by
  have h := W.builtins.distinct
  simp only [BuiltinTyCons.projections, nodup_cons, mem_cons, not_or] at h ⊢
  grind

/-! ### Maps that commute with the projections

A map on types that keeps data constructors, functions and tuples commutes with every
reduction. Erasing aliases is such a map, and so is interpretation under an assignment. -/

structure Hom (W : Workspace) (f : Ty → Ty) : Prop where
  nil : ∀ id, f (.con id []) = .con id []
  con : ∀ id args, id ∉ W.builtins.projections → f (.con id args) = .con id (args.map f)
  fn : ∀ params ret caps, ∃ caps', f (.fn params ret caps) = .fn (params.map f) (f ret) caps'
  fnPure : ∀ params ret,
    f (.fn params ret (.concrete .PURE)) = .fn (params.map f) (f ret) (.concrete .PURE)
  tuple : ∀ ts, f (.tuple ts) = .tuple (ts.map f)

variable {f : Ty → Ty}

theorem Hom.optionOf (hf : W.Hom f) (t : Ty) : f (W.optionOf t) = W.optionOf (f t) := by
  rw [Workspace.optionOf, hf.con _ _ option_not_mem]
  rfl

/-- The receiver a join projection recognised is data. -/
theorem mem_ids_of_isCompositeJoin {rt : RowsTycons} {qid : TyConId}
    (h : isCompositeJoin rt qid = true) : qid ∈ rt.ids := by
  simp only [isCompositeJoin, Bool.or_eq_true, decide_eq_true_eq] at h
  simp only [RowsTycons.ids, mem_append, mem_toList]
  grind

section

variable (hf : W.Hom f)
include hf

variable {t : Ty}

theorem Hom.reduceRowsArg (h : W.reduceRowsArg t = some u) :
    W.reduceRowsArg (f t) = some (f u) := by
  induction t using Ty.inductionOn generalizing u with
  | con qid qargs ih =>
    cases qargs with
    | nil => simp [Workspace.reduceRowsArg] at h
    | cons q rest =>
      have ihq := fun u => ih q mem_cons_self (u := u)
      unfold Workspace.reduceRowsArg at h
      cases hrt : W.rowsTycons with
      | none => rw [hrt] at h; cases h
      | some rt =>
        rw [hrt] at h
        dsimp only at h
        have hdata : qid ∈ rt.ids → f (.con qid (q :: rest)) = .con qid (f q :: rest.map f) :=
          fun hmem => hf.con _ _ (W.receivers rt (by rw [hrt]; rfl) qid hmem)
        split at h
        · next heq =>
          cases h
          rw [hdata (by simp [RowsTycons.ids, heq]), Workspace.reduceRowsArg, hrt]
          simp [heq]
        · next hne₁ =>
          split at h
          · next heq =>
            cases h
            rw [hdata (by simp [RowsTycons.ids, heq]), Workspace.reduceRowsArg, hrt]
            simp [heq]
          · next hne₂ =>
            cases rest with
            | nil => cases h
            | cons e rest =>
              -- a join receiver, or a composite one whose own row is reduced first
              have hmem : qid ∈ rt.ids := by
                clear ih ihq hdata
                simp only [RowsTycons.ids, mem_append, mem_toList]
                grind
              rw [hdata hmem, Workspace.reduceRowsArg, hrt]
              simp only [hne₁, hne₂, if_false, map_cons] at h ⊢
              have hnested : ∀ {g : Ty → Ty}, (W.reduceRowsArg q).map g = some u →
                  ∃ inner, W.reduceRowsArg (f q) = some (f inner) ∧ u = g inner := by
                intro g hg
                obtain ⟨inner, hinner, rfl⟩ := map_eq_some_iff.mp hg
                exact ⟨inner, ihq inner hinner, rfl⟩
              clear ih hdata
              split_ifs at h with h₁ h₂ h₃ h₄ h₅ h₆ h₇ h₈
              · cases h
                rw [if_pos h₁]
                simp [hf.tuple]
              · cases h
                rw [if_neg h₁, if_pos h₂]
                simp [hf.tuple, hf.optionOf]
              · cases h
                rw [if_neg h₁, if_neg h₂, if_pos h₃]
                simp [hf.tuple, hf.optionOf]
              · cases h
                rw [if_neg h₁, if_neg h₂, if_neg h₃, if_pos h₄]
                simp [hf.tuple, hf.optionOf]
              · obtain ⟨inner, hinner, rfl⟩ := hnested h
                rw [if_neg h₁, if_neg h₂, if_neg h₃, if_neg h₄, if_pos h₅]
                simp [hinner, hf.tuple]
              · obtain ⟨inner, hinner, rfl⟩ := hnested h
                rw [if_neg h₁, if_neg h₂, if_neg h₃, if_neg h₄, if_neg h₅, if_pos h₆]
                simp [hinner, hf.tuple, hf.optionOf]
              · obtain ⟨inner, hinner, rfl⟩ := hnested h
                rw [if_neg h₁, if_neg h₂, if_neg h₃, if_neg h₄, if_neg h₅, if_neg h₆, if_pos h₇]
                simp [hinner, hf.tuple, hf.optionOf]
              · obtain ⟨inner, hinner, rfl⟩ := hnested h
                rw [if_neg h₁, if_neg h₂, if_neg h₃, if_neg h₄, if_neg h₅, if_neg h₆, if_neg h₇, if_pos h₈]
                simp [hinner, hf.tuple, hf.optionOf]
  | var | rigid | fn | tuple | record | wrapper | error => cases h

theorem Hom.joinEntities {es : List Ty} (h : W.joinEntities t = some es) :
    W.joinEntities (f t) = some (es.map f) := by
  induction t using Ty.inductionOn generalizing es with
  | con qid qargs ih =>
    cases qargs with
    | nil => simp [Workspace.joinEntities] at h
    | cons q rest =>
      have ihq : ∀ es, W.joinEntities q = some es → W.joinEntities (f q) = some (es.map f) :=
        fun _ => ih q mem_cons_self
      unfold Workspace.joinEntities at h
      cases hrt : W.rowsTycons with
      | none => rw [hrt] at h; cases h
      | some rt =>
        rw [hrt] at h
        dsimp only at h
        have hdata : qid ∈ rt.ids → f (.con qid (q :: rest)) = .con qid (f q :: rest.map f) :=
          fun hmem => hf.con _ _ (W.receivers rt (by rw [hrt]; rfl) qid hmem)
        split at h
        · next heq =>
          cases h
          rw [hdata (by simp [RowsTycons.ids, heq]), Workspace.joinEntities, hrt]
          simp [heq]
        · next hne =>
          cases rest with
          | nil => cases h
          | cons e rest =>
            dsimp only at h
            split at h
            · next heq =>
              cases h
              rw [hdata (by simp [RowsTycons.ids, heq]), Workspace.joinEntities, hrt]
              simp only [hne, if_false, map_cons, if_pos heq, map_nil]
            · next hne₂ =>
              split at h
              · next hcomp =>
                obtain ⟨es', hes', rfl⟩ := map_eq_some_iff.mp h
                rw [hdata (mem_ids_of_isCompositeJoin hcomp), Workspace.joinEntities, hrt]
                simp only [hne, hne₂, if_false, map_cons, if_pos hcomp, ihq es' hes',
                  map_some, map_append, map_nil]
              · cases h
  | var | rigid | fn | tuple | record | wrapper | error => cases h

theorem Hom.joinAdapter {t a : Ty} (h : W.joinAdapter t = some a) :
    W.joinAdapter (f t) = some (f a) := by
  cases t with
  | con qid qargs =>
    unfold Workspace.joinAdapter at h
    cases hrt : W.rowsTycons with
    | none => rw [hrt] at h; cases h
    | some rt =>
      rw [hrt] at h
      dsimp only at h
      have hdata : qid ∈ rt.ids → f (.con qid qargs) = .con qid (qargs.map f) :=
        fun hmem => hf.con _ _ (W.receivers rt (by rw [hrt]; rfl) qid hmem)
      split at h
      · next heq =>
        rw [hdata (by simp [RowsTycons.ids, heq]), Workspace.joinAdapter, hrt]
        simp [heq, h]
      · next hne =>
        split at h
        · next hcomp =>
          have hmem : qid ∈ rt.ids := by
            rcases Bool.or_eq_true _ _ ▸ hcomp with hj | hj
            · simp [RowsTycons.ids, of_decide_eq_true hj]
            · exact mem_ids_of_isCompositeJoin hj
          rw [hdata hmem, Workspace.joinAdapter, hrt]
          simp [hne, hcomp, h]
        · cases h
  | var | rigid | fn | tuple | record | aliased | error => cases h

theorem Hom.reduceResultArg {binary : RowsTycons → TyConId} {nested : RowsTycons → Option TyConId}
    (hbinary : ∀ rt, binary rt ∈ rt.ids) (hnested : ∀ rt, ∀ id ∈ nested rt, id ∈ rt.ids) {q e : Ty}
    (h : W.reduceResultArg binary nested q e = some u) :
    W.reduceResultArg binary nested (f q) (f e) = some (f u) := by
  unfold Workspace.reduceResultArg at h
  split at h
  · next rt qid qargs hrt =>
    have hids := W.receivers rt (by rw [hrt]; rfl)
    split at h
    · cases h
    · next a ha =>
      have ha' := hf.joinAdapter ha
      have hdata : qid ∈ rt.ids → f (.con qid qargs) = .con qid (qargs.map f) :=
        fun hmem => hf.con _ _ (hids qid hmem)
      split at h
      · next heq =>
        obtain ⟨x, hx, rfl⟩ := map_eq_some_iff.mp h
        have hq := hdata (by simp [RowsTycons.ids, heq])
        rw [hq] at ha' ⊢
        unfold Workspace.reduceResultArg
        simp only [hrt, ha', if_pos heq, getElem?_map, hx, map_some]
        rw [hf.con _ _ (hids _ (hbinary rt))]
        rfl
      · next hne =>
        split at h
        · next hcomp =>
          obtain ⟨id, hid, rfl⟩ := map_eq_some_iff.mp h
          have hmem : qid ∈ rt.ids := by
            rcases Bool.or_eq_true _ _ ▸ hcomp with hj | hj
            · simp [RowsTycons.ids, of_decide_eq_true hj]
            · exact mem_ids_of_isCompositeJoin hj
          have hq := hdata hmem
          rw [hf.con _ _ (hids _ (hnested rt id hid)), map_cons, map_cons,
            map_cons, map_nil]
          rw [hq] at ha' ⊢
          unfold Workspace.reduceResultArg
          simp only [hrt, ha', hne, if_false, hcomp, if_true, hid, map_some]
        · cases h
  · cases h

/-- `InsertShape` is the exception: it hands its argument back, so the map has to keep the head
of the argument even when that is a projection. -/
theorem Hom.reduceInsertShapeArg
    (ht : ∀ id args, t = .con id args → f (.con id args) = .con id (args.map f))
    (h : W.reduceInsertShapeArg t = some u) : W.reduceInsertShapeArg (f t) = some (f u) := by
  cases t with
  | con eid args =>
    have hhead := ht eid args rfl
    rw [hhead]
    simp only [Workspace.reduceInsertShapeArg] at h ⊢
    cases hshape : W.insertShapes eid with
    | none =>
      rw [hshape] at h
      cases h
      rw [hhead]
    | some shape =>
      rw [hshape] at h
      cases h
      rw [hf.nil]
  | var | rigid | fn | tuple | record | aliased | error => cases h

theorem Hom.reduceRetArg (h : Workspace.reduceRetArg t = some u) :
    Workspace.reduceRetArg (f t) = some (f u) := by
  cases t with
  | fn params result caps =>
    cases h
    obtain ⟨caps', hfn⟩ := hf.fn params u caps
    rw [hfn]
    rfl
  | var | rigid | con | tuple | record | aliased | error => cases h

theorem Hom.reduceJoincondArg {q e : Ty} (h : W.reduceJoincondArg q e = some u) :
    W.reduceJoincondArg (f q) (f e) = some (f u) := by
  obtain ⟨es, hes, rfl⟩ := map_eq_some_iff.mp h
  rw [hf.fnPure, hf.nil, Workspace.reduceJoincondArg, hf.joinEntities hes, map_some,
    map_append]
  rfl

end

variable {head : TyConId}

theorem unary_reduce {g : Ty → Option Ty} (h : (unary head g).reduce args = some u) :
    ∃ q, args = [q] ∧ g q = some u := by
  rcases args with _ | ⟨q, _ | ⟨e, rest⟩⟩
  · cases h
  · exact ⟨q, rfl, h⟩
  · cases h

theorem binary_reduce {g : Ty → Ty → Option Ty} (h : (binary head g).reduce args = some u) :
    ∃ q e, args = [q, e] ∧ g q e = some u := by
  rcases args with _ | ⟨q, _ | ⟨e, _ | ⟨x, rest⟩⟩⟩
  · cases h
  · cases h
  · exact ⟨q, e, rfl, h⟩
  · cases h

/-- An `InsertShape` is not reduced over another projection. -/
def InsertsData (W : Workspace) (head : TyConId) (args : List Ty) : Prop :=
  head = W.builtins.insertShape →
    ∀ id as, args = [.con id as] → id ∉ W.builtins.projections

theorem result_mem_ids (rt : RowsTycons) :
    (∀ id ∈ rt.joined, id ∈ rt.ids) ∧ (∀ id ∈ rt.leftJoined, id ∈ rt.ids) ∧
      (∀ id ∈ rt.rightJoined, id ∈ rt.ids) ∧ ∀ id ∈ rt.fullJoined, id ∈ rt.ids := by
  simp only [RowsTycons.ids, mem_append, mem_toList, mem_def]
  grind

/-- Reductions commute with such a map. -/
theorem Hom.reduce (hf : W.Hom f) (hp : p ∈ W.projections)
    (hins : p.head = W.builtins.insertShape → ∀ id as, args = [.con id as] → f (.con id as) = .con id (as.map f))
    (h : p.reduce args = some u) : p.reduce (args.map f) = some (f u) := by
  have hbinary : ∀ rt : RowsTycons, rt.join ∈ rt.ids ∧ rt.leftJoin ∈ rt.ids ∧
      rt.rightJoin ∈ rt.ids ∧ rt.fullJoin ∈ rt.ids := by simp [RowsTycons.ids]
  simp only [projections, mem_cons, not_mem_nil, or_false] at hp
  rcases hp with rfl | rfl | rfl | rfl | rfl | rfl | rfl | rfl
  · obtain ⟨q, rfl, hq⟩ := unary_reduce h
    exact hf.reduceRetArg hq
  · obtain ⟨q, rfl, hq⟩ := unary_reduce h
    exact hf.reduceRowsArg hq
  · obtain ⟨q, e, rfl, hq⟩ := binary_reduce h
    exact hf.reduceJoincondArg hq
  · obtain ⟨q, e, rfl, hq⟩ := binary_reduce h
    exact hf.reduceResultArg (fun rt => (hbinary rt).1) (fun rt => (result_mem_ids rt).1) hq
  · obtain ⟨q, e, rfl, hq⟩ := binary_reduce h
    exact hf.reduceResultArg (fun rt => (hbinary rt).2.1) (fun rt => (result_mem_ids rt).2.1) hq
  · obtain ⟨q, e, rfl, hq⟩ := binary_reduce h
    exact hf.reduceResultArg (fun rt => (hbinary rt).2.2.1)
      (fun rt => (result_mem_ids rt).2.2.1) hq
  · obtain ⟨q, e, rfl, hq⟩ := binary_reduce h
    exact hf.reduceResultArg (fun rt => (hbinary rt).2.2.2)
      (fun rt => (result_mem_ids rt).2.2.2) hq
  · obtain ⟨q, rfl, hq⟩ := unary_reduce h
    exact hf.reduceInsertShapeArg (fun id as hqid => hins rfl id as (by rw [hqid])) hq

end Workspace

end Ridge
