import Ridge.ToText.Fields

/-!
# Text rendering goes through the right instance

When every hole of an interpolation and every field of a derived `ToText` is passed to evidence for
exactly its type; the result is then a text whatever the values are.
-/

namespace Ridge

open Evidence List

/-! ## Interpolation -/

def holesOf (parts : List InterpPiece) : List Hole := parts.filterMap InterpPiece.hole?

/-- Every hole is passed to evidence for its type, and where the holes have values of their types
the whole is a text. -/
def InterpRight (C : TextCtx) (parts : List InterpPiece) : Prop :=
  (∀ h ∈ holesOf parts, PassesTo C h.exported (h.code C)) ∧
    ∀ (W : World) (env : W.Env) (T : Typing C W), W.Linked C env →
      (∀ h ∈ holesOf parts, ∃ v, W.eval env h.inner = some (.value v) ∧ T.is h.exported v) →
      W.IsText env (C.lowerInterp parts)

theorem lowerInterp_isText {C : TextCtx} {W : World} {env : W.Env} {parts : List InterpPiece}
    (hparts : ∀ p ∈ parts, W.IsText env (C.lowerPart p).1) :
    W.IsText env (C.lowerInterp parts) := by
  fun_cases TextCtx.lowerInterp C parts with
  | case1 => exact .lit env _
  | case2 raw => exact .lit env raw
  | case3 part parts _ =>
    have ⟨hpart, hrest⟩ := forall_mem_cons.mp hparts
    refine World.IsText.foldl (fun e he => ?_) hpart
    obtain ⟨p, hp, rfl⟩ := mem_map.mp he
    exact hrest p hp

theorem interpRight_iff {C : TextCtx} {rigids : Nat → Option RigidInfo} {parts : List InterpPiece}
    (ha : ∀ h ∈ holesOf parts, h.Accepted C rigids) :
    InterpRight C parts ↔ ∀ h ∈ holesOf parts, h.Direct C := by
  constructor
  · exact fun hright h hh => (Hole.passesTo_iff (ha h hh)).mp (hright.1 h hh)
  · intro hdirect
    have hpasses : ∀ h ∈ holesOf parts, PassesTo C h.exported (h.code C) :=
      fun h hh => (Hole.passesTo_iff (ha h hh)).mpr (hdirect h hh)
    refine ⟨hpasses, fun W env T hlinked hvalues => lowerInterp_isText fun p hp => ?_⟩
    cases p with
    | text raw => exact .lit env _
    | expr h =>
      have hh : h ∈ holesOf parts := mem_filterMap.mpr ⟨_, hp, rfl⟩
      obtain ⟨v, hv, hty⟩ := hvalues h hh
      exact (hpasses h hh).text hlinked T hv hty

/-! ## Derived bodies -/

def Alternative.name : Alternative → String
  | .positional name _ => name
  | .record name _ => name

def Alternative.slotTypes : Alternative → List TypeExpr
  | .positional _ args => args
  | .record _ fields => fields.map FieldDecl.ty

def DerivableBody.fieldTypes : DerivableBody → List TypeExpr
  | .record fields => fields.map FieldDecl.ty
  | .union alternatives => alternatives.flatMap Alternative.slotTypes
  | .aliasOf _ => []

section

variable (S : TypeScope) (C : TextCtx)

/-- A record has every declared field, at a value of its type. -/
def HasFields {W : World} (T : Typing C.topLevel W) (fields : List FieldDecl) (v : W.V) : Prop :=
  ∀ f ∈ fields, ∃ w, W.field v f.name = some w ∧ T.is (S.astTypeToRidgeType f.ty) w

/-- The slots of a variant are values of the declared types; a record variant has one slot, with the
fields. -/
def HasSlots {W : World} (T : Typing C.topLevel W) (alt : Alternative) (vs : List W.V) : Prop :=
  match alt with
  | .positional _ args => List.Forall₂ (fun t w => T.is (S.astTypeToRidgeType t) w) args vs
  | .record _ fields => ∃ r, vs = [r] ∧ HasFields S C T fields r

/-- A value of a declared type: a record of the declared fields, or a variant with slots of the
declared types. -/
def Inhabits {W : World} (T : Typing C.topLevel W) (body : DerivableBody) (v : W.V) : Prop :=
  match body with
  | .record fields => HasFields S C T fields v
  | .union alternatives => ∃ alt, ∃ vs,
      W.variant v = some (alt.name, vs) ∧ alternatives.find? (·.name = alt.name) = some alt ∧
        HasSlots S C T alt vs
  | .aliasOf _ => True

/-- Every field is passed to evidence for its type, and at every value of the declared type the
method gives a text. -/
def DerivedRight (decl : DerivingDecl) (body : ToTextBody) : Prop :=
  (∀ ty ∈ decl.body.fieldTypes,
      PassesTo C.topLevel (S.astTypeToRidgeType ty) (S.fieldCode C ty)) ∧
    ∀ (W : World) (env : W.Env) (T : Typing C.topLevel W) (v : W.V), W.Linked C.topLevel env →
      Inhabits S C T decl.body v →
      W.IsText (World.Env.bindAll env [((C.lowerDerivedToText decl.name body).1, v)])
        (C.lowerDerivedToText decl.name body).2

end

section

variable {S : TypeScope} {C : TextCtx} {W : World} {env : W.Env} {v : W.V} {vs : List W.V}

theorem linked_topLevel (h : W.Linked C.topLevel env) (env' : W.Env) : W.Linked C.topLevel env' :=
  { params := fun _ hc => (nomatch hc), constants := h.constants }

theorem eval_param (env : W.Env) (x : String) (v : W.V) :
    W.eval (World.Env.bindAll env [(x, v)]) (.local x) = some (.value v) := by
  rw [World.eval_local]
  exact if_pos rfl

variable {name : String}

theorem eval_field {base : IrExpr} {w : W.V} (hbase : W.eval env base = some (.value v))
    (hfield : W.field v name = some w) : W.eval env (.field base name) = some (.value w) := by
  rw [World.eval, hbase]
  show (W.field v name).map Rt.value = _
  rw [hfield]
  rfl

variable (T : Typing C.topLevel W)

theorem slot_isText (hlinked : W.Linked C.topLevel env) {ty : TypeExpr}
    (hty : PassesTo C.topLevel (S.astTypeToRidgeType ty) (S.fieldCode C ty)) {arg : IrExpr}
    (harg : W.eval env arg = some (.value v)) (hv : T.is (S.astTypeToRidgeType ty) v) :
    W.IsText env (C.renderSlot (S.resolveAstTypeToTyconId ty) arg) :=
  hty.text hlinked T harg hv

/-! ### Records -/

theorem recordBody_isText (hlinked : W.Linked C.topLevel env) {fields : List FieldDecl}
    (hx : W.eval env (.local "x") = some (.value v)) (hfields : HasFields S C T fields v)
    (hpasses : ∀ ty ∈ fields.map FieldDecl.ty, PassesTo C.topLevel (S.astTypeToRidgeType ty) (S.fieldCode C ty))
    (name : String) :
    W.IsText env (C.buildToTextRecordBody name (fields.map FieldDecl.name)
      (fields.map fun f => S.resolveAstTypeToTyconId f.ty)) := by
  unfold TextCtx.buildToTextRecordBody
  split_ifs
  · exact .lit env _
  · refine World.IsText.concat (World.IsText.appendSlots ?_ (.lit env _)) (.lit env _)
    intro slot hslot
    obtain ⟨⟨fname, idx⟩, hmem, rfl⟩ := mem_map.mp hslot
    rw [mem_zipIdx_iff_getElem?, getElem?_map, Option.map_eq_some_iff] at hmem
    obtain ⟨f, hf, rfl⟩ := hmem
    have hin : f ∈ fields := mem_of_getElem? hf
    obtain ⟨w, hw, hty⟩ := hfields f hin
    show W.IsText env (C.renderSlot ((fields.map _)[idx]?).join _)
    rw [getElem?_map, hf]
    exact slot_isText T hlinked (hpasses f.ty (mem_map_of_mem hin)) (eval_field hx hw) hty

/-! ### Unions -/

/-- The names of the binders of an arm. -/
def slotNames (n : Nat) : List String := (List.range n).map fun i => "_p" ++ toString i

theorem slotNames_nodup (n : Nat) : (slotNames n).Nodup := by
  refine List.Nodup.map (fun i j h => ?_) nodup_range
  have hlists : "_p".toList ++ (Nat.repr i).toList = "_p".toList ++ (Nat.repr j).toList :=
    String.toList_append.symm.trans ((congrArg String.toList h).trans String.toList_append)
  exact Nat.repr_injective (String.toList_inj.mp (append_cancel_left hlists))

theorem slotNames_binds (n : Nat) :
    ((List.range n).map fun i => IrPat.bind ("_p" ++ toString i) none) =
      (slotNames n).map fun x => .bind x none := by
  rw [slotNames, map_map]
  rfl

theorem eval_slot {i : Nat} (hv : vs[i]? = some v) :
    W.eval (World.Env.bindAll env ((slotNames vs.length).zip vs)) (.local ("_p" ++ toString i)) =
      some (.value v) := by
  rw [World.eval_local]
  have hlen : (slotNames vs.length).length = vs.length := by simp [slotNames]
  refine bindAll_of_mem ?_ ?_ env
  · rw [map_fst_zip hlen.le]
    exact slotNames_nodup _
  · have hi : i < vs.length := (List.getElem?_eq_some_iff.mp hv).1
    refine mem_of_getElem? (i := i) ?_
    rw [getElem?_zip_eq_some]
    refine ⟨?_, hv⟩
    rw [slotNames, getElem?_map, getElem?_range hi]
    rfl

theorem armBody_isText (hlinked : W.Linked C.topLevel env) {types : List TypeExpr}
    {v : ToTextVariant} (hcount : v.payloadCount = types.length)
    (htycons : v.payloadTycons = types.map S.resolveAstTypeToTyconId)
    (hvs : List.Forall₂ (fun t w => T.is (S.astTypeToRidgeType t) w) types vs)
    (hpasses : ∀ ty ∈ types, PassesTo C.topLevel (S.astTypeToRidgeType ty) (S.fieldCode C ty)) :
    W.IsText (World.Env.bindAll env ((slotNames vs.length).zip vs))
      (C.buildToTextUnionArmBody v) := by
  unfold TextCtx.buildToTextUnionArmBody
  split_ifs
  · exact .lit _ _
  all_goals
    refine World.IsText.concat (World.IsText.appendSlots ?_ (.lit _ _)) (.lit _ _)
    intro slot hslot
    obtain ⟨i, hi, rfl⟩ := mem_map.mp hslot
    rw [mem_range, hcount] at hi
    have hi' : i < vs.length := hvs.length_eq ▸ hi
    show W.IsText _ (C.renderSlot (v.payloadTycons[i]?).join _)
    rw [htycons, getElem?_map, getElem?_eq_getElem hi]
    exact slot_isText T (linked_topLevel hlinked _) (hpasses _ (getElem_mem hi))
      (eval_slot (getElem?_eq_getElem hi')) ((forall₂_iff_get.mp hvs).2 i hi hi')

variable {alt : Alternative}

/-- The pattern of an arm binds the slots of its own variant. -/
theorem bindPat_matches (hv : W.variant v = some (alt.name, vs)) (hslots : HasSlots S C T alt vs) :
    ∃ ws, List.Forall₂ (fun t w => T.is (S.astTypeToRidgeType t) w) alt.slotTypes ws ∧
      W.matchPat (TextCtx.buildUnionVariantBindPat (TypeScope.Alternative.toVariant S alt).ctorName
        ((List.range (TypeScope.Alternative.toVariant S alt).payloadCount).map fun i =>
          .bind ("_p" ++ toString i) none) (TypeScope.Alternative.toVariant S alt).fieldNames) v =
        some ((slotNames ws.length).zip ws) := by
  rw [slotNames_binds]
  cases alt with
  | positional name args =>
    have hlen : args.length = vs.length := hslots.length_eq
    refine ⟨vs, hslots, ?_⟩
    show W.matchPat (.ctor (.constructor .unionVariant name) []
      ((slotNames args.length).map fun x => .bind x none)) v = _
    rw [World.matchPat, hv, hlen]
    show (if name = name then _ else none) = _
    rw [if_pos rfl, matchPats_binds (by simp [slotNames])]
  | record name fields =>
    obtain ⟨r, rfl, hfields⟩ := hslots
    -- the values of the fields, in the order of the declaration
    have hws : ∃ ws, List.Forall₂ (fun (f : FieldDecl) w =>
        W.field r f.name = some w ∧ T.is (S.astTypeToRidgeType f.ty) w) fields ws := by
      clear hv
      induction fields with
      | nil => exact ⟨[], .nil⟩
      | cons f fs ih =>
        obtain ⟨⟨w, hw⟩, hfs⟩ := forall_mem_cons.mp hfields
        obtain ⟨ws, hws⟩ := ih hfs
        exact ⟨w :: ws, .cons hw hws⟩
    obtain ⟨ws, hws⟩ := hws
    have hlen : fields.length = ws.length := hws.length_eq
    refine ⟨ws, forall₂_map_left_iff.mpr (hws.imp fun _ _ h => h.2), ?_⟩
    show W.matchPat (.ctor (.constructor .unionVariant name) []
      [.ctor (.constructor .record name) ((fields.map FieldDecl.name).zip
        ((slotNames fields.length).map fun x => .bind x none)) []]) v = _
    rw [World.matchPat, hv]
    show (if name = name then W.matchPats [_] [r] else none) = _
    rw [if_pos rfl, World.matchPats, World.matchPat, matchFields_binds (by simp [slotNames])
      (forall₂_map_left_iff.mpr (hws.imp fun _ _ h => h.1)), hlen]
    show some (_ ++ []) = _
    rw [append_nil]

/-- The arms before the variant's own do not match it. -/
theorem bindPat_ne (hv : W.variant v = some (name, vs)) (hne : alt.name ≠ name)
    (binds : List IrPat) :
    W.matchPat (TextCtx.buildUnionVariantBindPat (TypeScope.Alternative.toVariant S alt).ctorName
      binds (TypeScope.Alternative.toVariant S alt).fieldNames) v = none := by
  cases alt with
  | positional name' args | record name' fields =>
    show W.matchPat (.ctor (.constructor .unionVariant name') [] _) v = none
    rw [World.matchPat, hv]
    exact if_neg hne

theorem unionArms_isText (hlinked : W.Linked C.topLevel env) {alternatives : List Alternative}
    (hv : W.variant v = some (alt.name, vs))
    (hfind : alternatives.find? (·.name = alt.name) = some alt) (hslots : HasSlots S C T alt vs)
    (hpasses : ∀ ty ∈ alternatives.flatMap Alternative.slotTypes, PassesTo C.topLevel (S.astTypeToRidgeType ty) (S.fieldCode C ty)) :
    ∃ s, W.evalArms env v ((alternatives.map (TypeScope.Alternative.toVariant S)).map fun v =>
      .mk (TextCtx.buildUnionVariantBindPat v.ctorName
        ((List.range v.payloadCount).map fun i => .bind ("_p" ++ toString i) none) v.fieldNames)
        none (C.buildToTextUnionArmBody v)) = some (.value (W.text s)) := by
  -- on the alternatives, up to the variant's own
  induction alternatives with
  | nil => exact nomatch hfind
  | cons a as ih =>
    rw [flatMap_cons, forall_mem_append] at hpasses
    rw [map_cons, map_cons, World.evalArms]
    by_cases hname : a.name = alt.name
    · rw [find?_cons_of_pos (by simpa using hname), Option.some.injEq] at hfind
      obtain ⟨ws, hws, hmatch⟩ := bindPat_matches T hv hslots
      rw [hfind, hmatch]
      refine armBody_isText (S := S) T hlinked ?_ ?_ hws (hfind ▸ hpasses.1)
      · cases alt with
        | positional name args => rfl
        | record name fields => exact (length_map _).symm
      · cases alt with
        | positional name args => rfl
        | record name fields =>
          show (fields.map fun f => S.resolveAstTypeToTyconId f.ty) =
            (fields.map FieldDecl.ty).map S.resolveAstTypeToTyconId
          rw [map_map]
          rfl
    · rw [find?_cons_of_neg (by simpa using hname)] at hfind
      rw [bindPat_ne hv hname]
      exact ih hfind hpasses.2

/-! ### The method -/

/-- An opaque wrapper that delegates has one field, whose constructor it renders. -/
theorem recognizeNewtype_some {body : DerivableBody} {id : TyConId}
    (h : S.recognizeNewtype body = some (name, id)) :
    ∃ f, body = .record [f] ∧ f.name = name ∧ S.resolveAstTypeToTyconId f.ty = some id := by
  unfold TypeScope.recognizeNewtype at h
  split at h
  · rename_i f
    obtain ⟨i, hi, heq⟩ := Option.map_eq_some_iff.mp h
    rw [Prod.mk.injEq] at heq
    exact ⟨f, rfl, heq.1, heq.2 ▸ hi⟩
  · exact nomatch h

theorem deriveToText_cases {decl : DerivingDecl} {body : ToTextBody}
    (h : S.deriveToText C decl = some body) :
    body = S.generateToText decl.body ∨
      ∃ f id, decl.body = .record [f] ∧ S.resolveAstTypeToTyconId f.ty = some id ∧
        body = .delegated f.name id := by
  unfold TypeScope.deriveToText at h
  split at h
  · rename_i name id hnewtype
    split_ifs at h
    · rw [Option.some.injEq] at h
      split_ifs at hnewtype
      obtain ⟨f, hbody, hname, hid⟩ := recognizeNewtype_some hnewtype
      exact .inr ⟨f, id, hbody, hid, by rw [← h, hname]⟩
    · exact .inl (Option.some.inj h).symm
  · exact .inl (Option.some.inj h).symm

theorem derivedRight_of_passesTo {decl : DerivingDecl} {body : ToTextBody}
    (hderive : S.deriveToText C decl = some body)
    (hpasses : ∀ ty ∈ decl.body.fieldTypes,
      PassesTo C.topLevel (S.astTypeToRidgeType ty) (S.fieldCode C ty)) :
    DerivedRight S C decl body := by
  refine ⟨hpasses, fun W env T v hlinked hv => ?_⟩
  rcases deriveToText_cases hderive with rfl | ⟨f, id, hbody, hid, rfl⟩
  · cases hb : decl.body with
    | record fields =>
      rw [hb] at hv hpasses
      exact recordBody_isText T (linked_topLevel hlinked _) (eval_param env "x" v) hv hpasses _
    | union alternatives =>
      rw [hb] at hv hpasses
      obtain ⟨alt, vs, hvariant, hfind, hslots⟩ := hv
      obtain ⟨s, hs⟩ := unionArms_isText T
        (linked_topLevel hlinked (World.Env.bindAll env [("x", v)])) hvariant hfind hslots hpasses
      refine ⟨s, ?_⟩
      show W.eval (World.Env.bindAll env [("x", v)]) (.match (.local "x") _) = _
      rw [World.eval, eval_param]
      exact hs
    | aliasOf ty => exact .lit _ _
  · rw [hbody] at hv hpasses
    obtain ⟨w, hw, hty⟩ := hv f (mem_singleton_self f)
    have htext := slot_isText T (linked_topLevel hlinked (World.Env.bindAll env [("__d0", v)]))
      (hpasses f.ty (mem_singleton_self _)) (eval_field (eval_param env "__d0" v) hw) hty
    rw [hid] at htext
    exact htext

end

/-! ## Renderings -/

/-- A program of one module with the built-in instances only, in a function with a constraint
`ToText` on each of `vs`. -/
def builtinsOnly (vs : List TyVid) : TextCtx where
  builtins := ⟨0, 1, 2, 3, 4, 5, 6, 7, 8, by decide⟩
  stdlibTycon _ := none
  instances cls head := match head with
    | [id] => if cls = totextClass ∧ id < 9 then some ⟨[], none⟩ else none
    | _ => none
  className _ := "ToText"
  tyconName id := Nat.repr id
  tyconModule _ := none
  moduleId := 0
  currentFnConstraints := vs.map fun v => ⟨totextClass, [v]⟩
  totext_unary c hc _ := by
    obtain ⟨v, -, rfl⟩ := List.mem_map.mp hc
    exact ⟨v, rfl⟩
  actorErrors_fresh id h := nomatch h
  prelude id h := by
    have hid : id < 9 := by
      by_contra hlarge
      have hnone : preludeTotextTarget ⟨0, 1, 2, 3, 4, 5, 6, 7, 8, by decide⟩ (fun _ => none) id =
          none := by
        show builtinTarget _ id = none
        unfold builtinTarget
        dsimp only
        split_ifs <;> first | rfl | (subst_vars; exact absurd (by decide) hlarge)
      rw [hnone] at h
      exact nomatch h
    exact ⟨⟨[], none⟩, if_pos ⟨rfl, hid⟩, rfl⟩
  symbols_distinct i j info info' hi hj h := by
    have hnone : ∀ {k : TyConId} {inf : InstanceInfo},
        (if totextClass = totextClass ∧ k < 9 then some (⟨[], none⟩ : InstanceInfo) else none) =
          some inf → inf.defModule = none := by
      intro k inf hk
      split_ifs at hk
      rw [← Option.some.inj hk]
    simp only [hnone hi, hnone hj] at h
    have hname := (SymbolRef.local.injEq .. ▸ h : _ ∧ _).1
    have hlists : ("$inst_" ++ "ToText" ++ "_").toList ++ (Nat.repr i).toList =
        ("$inst_" ++ "ToText" ++ "_").toList ++ (Nat.repr j).toList :=
      String.toList_append.symm.trans ((congrArg String.toList hname).trans String.toList_append)
    exact Nat.repr_injective (String.toList_inj.mp (List.append_cancel_left hlists))

/-- A scope in which the primitive types are those of `builtinsOnly`. -/
def primitivesOnly : TypeScope where
  primitive
    | .int => 0 | .float => 1 | .bool => 2 | .text => 3 | .timestamp => 4 | .decimal => 5
    | .uuid => 6 | .unit => 9 | .bytes => 10 | .date => 11 | .time => 12
  list := 13
  params n := if n = "a" then some 0 else none
  prelude _ := none
  userTycons _ := none
  compilerNames n := if n = "Int" then some 0 else if n = "Text" then some 3 else none
  arena _ := none
  aliasBody _ := none
  compilerOwn _ := false
  caps _ _ := .concrete .PURE
  freshTyvid _ := 0
  freshRowvid _ := 0

/-- `${y}` for a variable `y` of the type variable `1`. -/
def holeY : Hole := ⟨.local "y", .rigid 1 "b", true⟩

def bothGiven (_ : Nat) : Option RigidInfo := some ⟨[totextClass], true⟩

end Ridge
