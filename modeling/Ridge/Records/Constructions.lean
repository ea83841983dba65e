import Ridge.Records.Accepted

/-!
# Record constructions

A construction finds its schema by the name of the constructor and checks, for each declared field,
the first initialiser of that field; code generation builds what the resolver bound the name to and
puts every initialiser into one map. The two agree when no field is initialised twice and the
schema is one of what the constructor builds.
-/

namespace Ridge

open Run CheckM KeyedList List Option Declarations

variable {owner : Option TyConId} {sb : Bool} {code : RecordCode}

/-! ## Two lists in step -/

variable {α β : Type}

variable {R : α → β → Prop} {l : List α} {m : List β}

theorem exists_right (h : List.Forall₂ R l m) {a : α} (ha : a ∈ l) : ∃ b ∈ m, R a b := by
  induction h with
  | nil => cases ha
  | cons hab _ ih =>
    rcases mem_cons.mp ha with rfl | ha
    · exact ⟨_, mem_cons_self, hab⟩
    · obtain ⟨b, hb, hr⟩ := ih ha
      exact ⟨b, mem_cons_of_mem _ hb, hr⟩

variable {k : String}

theorem lookup_isSome_iff_mem {α : Type} {l : List (String × α)} :
    (l.lookup k).isSome ↔ k ∈ l.map Prod.fst := by
  rw [lookup_isSome_iff]
  constructor
  · rintro ⟨f, hf, hkf⟩
    rw [eq_of_beq hkf]
    exact mem_map_of_mem hf
  · intro hmem
    obtain ⟨f, hf, rfl⟩ := mem_map.mp hmem
    exact ⟨f, hf, beq_self_eq_true _⟩

theorem exists_left (h : List.Forall₂ R l m) {b : β} (hb : b ∈ m) : ∃ a ∈ l, R a b :=
  exists_right h.flip hb

theorem forall₂_mem (h : List.Forall₂ R l m) : List.Forall₂ (fun a b => R a b ∧ b ∈ m) l m := by
  induction h with
  | nil => exact .nil
  | cons hab _ ih =>
    exact .cons ⟨hab, mem_cons_self⟩
      (ih.imp fun a b h => ⟨h.1, mem_cons_of_mem _ h.2⟩)

/-! ## What the checker did -/

section
variable {P : Declarations} {n : Nat} {inferExpr : Expr → CheckM Ty} {inits : List FieldInit}

/-- An initialiser before the first of a name has another name. -/
theorem findInit_first {name : String} {fi fi' : FieldInit} {i j : Nat}
    (h : findInit name inits = some (fi, j)) (hi : inits[i]? = some fi') (hij : i < j) :
    fi'.name.text ≠ name := by
  obtain ⟨-, before, after, hsplit, hbefore⟩ := find?_eq_some_iff_append.mp h
  -- the position an initialiser is paired with is its place in the list
  have hj : before.length = j := by
    have hget : inits.zipIdx[before.length]? = some (fi, j) := by
      rw [hsplit, getElem?_append_right (Nat.le_refl _), Nat.sub_self]
      rfl
    rw [getElem?_zipIdx, map_eq_some_iff] at hget
    obtain ⟨_, _, heq⟩ := hget
    have := congrArg Prod.snd heq
    simpa using this
  have hget : inits.zipIdx[i]? = some (fi', i) := by
    rw [getElem?_zipIdx, hi, map_some, Nat.zero_add]
  have hmem : (fi', i) ∈ before := by
    rw [hsplit, getElem?_append_left (by omega)] at hget
    exact mem_of_getElem? hget
  have := hbefore _ hmem
  simpa using this

/-- What an accepted construction knows: the initialisers name declared fields, and the judged ones
are the first of each declared field. -/
structure Constructed (P : Declarations) (n : Nat) (inferExpr : Expr → CheckM Ty)
    (inits : List FieldInit) (schema : RecordSchema) (fields : List (String × Ty))
    (js : List Judged) : Prop where
  declared : ∀ fi ∈ inits, schema.declares fi.name.text = true
  first : List.Forall₂ (fun f j => (∃ fi, findInit f.1 inits = some (fi, j.init)) ∧
    j.against = .declared f.2 ∧ j.Holds P n inferExpr inits) fields js
  names : fields.map Prod.fst = schema.fields.map RecordField.name

variable {schema : RecordSchema} {fields : List (String × Ty)} {js : List Judged}

theorem constructed_of_accepted {record : String} {params : List TyVid} {owner : TyConId}
    {ty : Ty} {s s' : Checker}
    (h : inferFieldsOf P n inferExpr record params schema owner inits s =
      some (.ok (ty, js), s', [])) :
    ∃ args, ty = .con owner args ∧ Constructed P n inferExpr inits schema
      (schemaAt params schema args) js := by
  obtain ⟨args, rfl, hdeclared, hfirst⟩ := inferFieldsOf_accepted h
  refine ⟨args, rfl, hdeclared, ?_, ?_⟩
  · exact List.forall₂_map_left_iff.mpr hfirst
  · rw [schemaAt, List.map_map]
    rfl

namespace Constructed

variable (hc : Constructed P n inferExpr inits schema fields js)
include hc

theorem mem_names : k ∈ fields.map Prod.fst ↔ ∃ fi ∈ inits, fi.name.text = k := by
  constructor
  · intro hk
    obtain ⟨f, hf, rfl⟩ := mem_map.mp hk
    obtain ⟨j, -, ⟨fi, hfind⟩, -⟩ := exists_right hc.first hf
    have ⟨hget, hname⟩ := findInit_eq_some hfind
    exact ⟨fi, mem_of_getElem? hget, hname⟩
  · rintro ⟨fi, hfi, rfl⟩
    have hdeclares := hc.declared fi hfi
    unfold RecordSchema.declares at hdeclares
    obtain ⟨f, hf, hname⟩ := any_eq_true.mp hdeclares
    rw [hc.names, ← of_decide_eq_true hname]
    exact mem_map_of_mem hf

theorem holds {j : Judged} (hj : j ∈ js) : j.Holds P n inferExpr inits :=
  have ⟨_, _, hf⟩ := exists_left hc.first hj
  hf.2.2

/-- Every initialiser is judged exactly when no field is initialised twice. -/
theorem allJudged_iff : AllJudged inits js ↔ (inits.map fun fi => fi.name.text).Nodup := by
  constructor
  · intro hall
    rw [nodup_iff_getElem?_ne_getElem?]
    intro i k hik hk heq
    rw [length_map] at hk
    rw [getElem?_map, getElem?_map, getElem?_eq_getElem hk,
      getElem?_eq_getElem (Nat.lt_trans hik hk), map_some, map_some] at heq
    obtain ⟨j, hj, rfl⟩ := hall k hk
    obtain ⟨f, -, ⟨fi, hfind⟩, -⟩ := exists_left hc.first hj
    have ⟨hget, hname⟩ := findInit_eq_some hfind
    refine findInit_first hfind (getElem?_eq_getElem (Nat.lt_trans hik hk)) hik ?_
    rw [getElem?_eq_getElem hk] at hget
    rw [some.inj heq, some.inj hget, hname]
  · intro hnodup i hi
    have hget := getElem?_eq_getElem hi
    obtain ⟨f, hf, hname⟩ := mem_map.mp
      (hc.mem_names.mpr ⟨inits[i], getElem_mem hi, rfl⟩)
    obtain ⟨j, hj, ⟨fi, hfind⟩, -⟩ := exists_right hc.first hf
    have ⟨hget', hname'⟩ := findInit_eq_some hfind
    exact ⟨j, hj, findInit_of_nodup hnodup hget' hget (hname'.trans hname)⟩

/-- A map with the initialisers, tagged or not, has the declared fields. -/
theorem hasFields {V : Type} (vals : Nat → V) {tag : List (String × RecordValue V)} (ty : Ty)
    (htag : ∀ p ∈ tag, p.1 = layoutKey) : HasFieldsOf ty fields (tag ++ initPairs vals inits) := by
  intro k hk
  have hnone : lastOf k tag = none := lastOf_eq_none fun p hp hpk => hk (hpk ▸ htag p hp)
  have hiff : (lastOf k (tag ++ initPairs vals inits)).isSome ↔ (fields.lookup k).isSome := by
    rw [lastOf_append, hnone, or_none, lastOf_initPairs_isSome, ← hc.mem_names,
      lookup_isSome_iff_mem]
  exact ⟨hiff.mpr, fun _ => hiff.mp⟩

/-- Without repeated fields, what stands under a field is the initialiser that was checked. -/
theorem fromInit {V : Type} (vals : Nat → V) {tag : List (String × RecordValue V)}
    (hnodup : (inits.map fun fi => fi.name.text).Nodup) {t : Ty} (hk : fields.lookup k = some t) :
    FromInit NoneMet inits js vals k t (tag ++ initPairs vals inits) := by
  obtain ⟨j, hj, ⟨fi, hfind⟩, hagainst, -⟩ := exists_right hc.first (mem_of_lookup hk)
  have ⟨hget, hname⟩ := findInit_eq_some hfind
  refine ⟨j, hj, fi, hget, hname, by rw [Judged.Compared, hagainst], ?_⟩
  have hlast : lastOf fi.name.text (initPairs vals inits) = some (.given (vals j.init)) := by
    rw [lastOf_iff_mem (map_fst_initPairs ▸ hnodup)]
    exact mem_map.mpr ⟨(fi, j.init), mem_zipIdx_iff_getElem?.mpr hget, rfl⟩
  rw [hname] at hlast
  rw [lastOf_append, hlast, some_or]

end Constructed

end

/-! ## What the code builds -/

/-- What the code of a construction evaluates to: a map, a variant tagged with its name over the
map, the bare name, or a value that is not of a record expression. -/
inductive BuiltForm where
  | map
  | variant
  | bareAtom
  | foreign
  deriving DecidableEq

section
variable (T : ConstructTables) (binding : Option Binding) (name : String)
  (inits : List FieldInit)

def builtForm : BuiltForm :=
  match binding with
  | some (.stdlibSymbol _ symbol) =>
    if symbol ∈ preludeCtors then .foreign
    else match T.stdlibCtor name with
      | some (_, true) => .map
      | some (_, false) => if inits.isEmpty then .bareAtom else .foreign
      | none => .map
  | some (.constructor _ _ true _) => .map
  | some (.constructor _ _ false _) => if inits.isEmpty then .bareAtom else .variant
  | _ => .map

variable {V : Type} (vals : Nat → V)

/-- A value of the form, over the values of the initialisers. -/
def BuiltForm.IsValue (v : RecordValue V) : BuiltForm → Prop
  | .map => ∃ tag, (∀ p ∈ tag, p.1 = layoutKey) ∧ v = .map (tag ++ initPairs vals inits)
  | .variant => ∃ tag, (∀ p ∈ tag, p.1 = layoutKey) ∧
      v = .tuple [.atom name, .map (tag ++ initPairs vals inits)]
  | .bareAtom => inits = [] ∧ v = .atom name
  | .foreign => (∃ symbol, v = .symbol symbol) ∨
      ∃ tag given, v = .tuple (.atom tag :: given) ∧ given ≠ [] ∧
        ∀ g ∈ given, ∃ x, g = .given x

variable {T name inits} {vals} {base : RecordValue V}

theorem irFields_isEmpty : (irFields inits).isEmpty = inits.isEmpty := by
  cases inits <;> rfl

theorem layout_values (T : ConstructTables) (owner : Option TyConId) (base : RecordValue V) :
    ∃ tag, RecordCode.pairValues vals base (layoutPair T owner) = some tag ∧
      ∀ p ∈ tag, p.1 = layoutKey := by
  unfold layoutPair
  cases owner.bind T.recordMeta with
  | none => exact ⟨[], rfl, fun p hp => absurd hp (by simp)⟩
  | some l => exact ⟨[(layoutKey, .layout l)], rfl, fun p hp => by rw [mem_singleton.mp hp]⟩

theorem record_code (sb : Bool) (owner : Option TyConId) :
    (IrRecord.construct (.constructor .record owner name) (irFields inits)).code T sb =
      .ok (.mapLit (layoutPair T owner ++
        inits.zipIdx.map fun p => (p.1.name.text, RecordCode.init p.2))) := by
  rw [IrRecord.code, irFields, codes_init]
  rfl

theorem record_value (owner : Option TyConId) :
    ∃ tag, (∀ p ∈ tag, p.1 = layoutKey) ∧
      RecordCode.value vals base (.mapLit (layoutPair T owner ++
        inits.zipIdx.map fun p => (p.1.name.text, RecordCode.init p.2))) =
        some (.map (tag ++ initPairs vals inits)) := by
  obtain ⟨tag, htag, hkeys⟩ := @layout_values V vals T owner base
  refine ⟨tag, hkeys, ?_⟩
  rw [RecordCode.value, pairValues_append vals base htag (pairValues_init vals base inits.zipIdx)]
  rfl

theorem givens_value (l : List (FieldInit × Nat)) :
    RecordCode.values vals base (l.map fun p => RecordCode.init p.2) =
      some (l.map fun p => .given (vals p.2)) := by
  induction l with
  | nil => rfl
  | cons p l ih =>
    rw [map_cons, RecordCode.values, ih]
    rfl

/-- The initialisers as the payload of a positional constructor. -/
theorem positional_value (tag : String) (hne : inits ≠ []) :
    ∃ v, RecordCode.value vals base
        (.tuple (.atom tag :: inits.zipIdx.map fun p => RecordCode.init p.2)) = some v ∧
      ∃ given, v = .tuple (.atom tag :: given) ∧ given ≠ [] ∧ ∀ g ∈ given, ∃ x, g = .given x := by
  refine ⟨.tuple (.atom tag :: inits.zipIdx.map fun p => .given (vals p.2)), ?_, _, rfl, ?_, ?_⟩
  · rw [RecordCode.value, RecordCode.values, givens_value]
    rfl
  · intro h
    exact hne (zipIdx_eq_nil_iff.mp (map_eq_nil_iff.mp h))
  · intro g hg
    obtain ⟨p, -, rfl⟩ := mem_map.mp hg
    exact ⟨_, rfl⟩

theorem map_code
    (hcode : (IrRecord.construct (.constructor .record owner name) (irFields inits)).code T sb =
      .ok code) : ∃ v, code.value vals base = some v ∧ BuiltForm.map.IsValue name inits vals v := by
  rw [record_code] at hcode
  cases hcode
  obtain ⟨tag, hkeys, hvalue⟩ := @record_value T inits V vals base owner
  exact ⟨_, hvalue, tag, hkeys, rfl⟩

/-- A construct of a positional variant with initialisers drops their names. -/
theorem positional_code (hne : inits ≠ [])
    (hcode : (IrRecord.construct (.constructor .unionVariant owner name) (irFields inits)).code T
      sb = .ok code) :
    ∃ v, code.value vals base = some v ∧ BuiltForm.foreign.IsValue name inits vals v := by
  obtain ⟨fi, rest, rfl⟩ := List.exists_cons_of_ne_nil hne
  rw [IrRecord.code, irFields, codes_init] at hcode
  cases hcode
  obtain ⟨v, hvalue, given, rfl, hgiven, hall⟩ := @positional_value _ V vals base name hne
  refine ⟨_, ?_, .inr ⟨name, given, rfl, hgiven, hall⟩⟩
  rw [← hvalue, List.map_map]
  rfl

theorem bareAtom_code (hnil : inits = [])
    (hcode : (IrRecord.construct (.constructor .unionVariant owner name) (irFields inits)).code T
      sb = .ok code) :
    ∃ v, code.value vals base = some v ∧ BuiltForm.bareAtom.IsValue name inits vals v := by
  subst hnil
  cases hcode
  exact ⟨_, rfl, rfl, rfl⟩

theorem variant_code
    (hcode : (IrRecord.construct (.constructor .unionVariant owner name)
      [("0", .construct (.constructor .record owner name) (irFields inits))]).code T sb =
        .ok code) :
    ∃ v, code.value vals base = some v ∧ BuiltForm.variant.IsValue name inits vals v := by
  rw [IrRecord.code, IrRecord.code.codes, record_code] at hcode
  cases hcode
  obtain ⟨tag, hkeys, hvalue⟩ := @record_value T inits V vals base owner
  refine ⟨_, ?_, tag, hkeys, rfl⟩
  show Option.map _ (RecordCode.values vals base (.atom name :: [_])) = _
  rw [RecordCode.values, RecordCode.values, hvalue]
  rfl

/-- A prelude constructor takes one initialiser, whatever its name. -/
theorem prelude_code (hne : inits ≠ [])
    (hcode : (IrRecord.construct (.prelude name) (irFields inits)).code T sb = .ok code) :
    ∃ v, code.value vals base = some v ∧ BuiltForm.foreign.IsValue name inits vals v := by
  obtain ⟨fi, rest, rfl⟩ := exists_cons_of_ne_nil hne
  rw [IrRecord.code, irFields, codes_init] at hcode
  change lowerConstruct T (.prelude name) _ = .ok code at hcode
  unfold lowerConstruct at hcode
  dsimp only at hcode
  split at hcode
  · cases hcode
  · next tag _ _ _ =>
    cases hcode
    exact ⟨_, rfl, .inr ⟨tag, [.given (vals 0)], rfl, by simp, fun g hg =>
      ⟨vals 0, mem_singleton.mp hg⟩⟩⟩
  · cases hcode

/-- What the code of a construction evaluates to is of the form its binding says. -/
theorem lowerRecord_value (hcode : (lowerRecord T binding name inits).code T sb = .ok code) :
    ∃ v, code.value vals base = some v ∧
      (builtForm T binding name inits).IsValue name inits vals v := by
  simp only [lowerRecord, irFields_isEmpty] at hcode
  unfold builtForm
  have hempty : ∀ {b : Bool}, inits.isEmpty = b → (b = true → inits = []) ∧
      (b = false → inits ≠ []) := by
    rintro b rfl
    cases inits with
    | nil => exact ⟨fun _ => rfl, (nomatch ·)⟩
    | cons fi rest => exact ⟨(nomatch ·), fun _ => cons_ne_nil _ _⟩
  match binding with
  | some (.stdlibSymbol _ symbol) =>
    dsimp only at hcode ⊢
    split at hcode
    · next hprelude =>
      rw [if_pos hprelude]
      split at hcode
      · cases hcode
        exact ⟨_, rfl, .inl ⟨name, rfl⟩⟩
      · next hne => exact prelude_code ((hempty rfl).2 (by simpa using hne)) hcode
    · next hprelude =>
      rw [if_neg hprelude]
      match hctor : T.stdlibCtor name with
      | some (owner, true) =>
        rw [hctor] at hcode
        exact map_code hcode
      | some (owner, false) =>
        rw [hctor] at hcode
        dsimp only
        cases hb : inits.isEmpty with
        | true => exact bareAtom_code ((hempty hb).1 rfl) hcode
        | false => exact positional_code ((hempty hb).2 rfl) hcode
      | none =>
        rw [hctor] at hcode
        exact map_code hcode
  | some (.constructor _ _ true _) => exact map_code hcode
  | some (.constructor _ _ false _) =>
    dsimp only at hcode ⊢
    cases hb : inits.isEmpty with
    | true =>
      rw [hb] at hcode
      exact bareAtom_code ((hempty hb).1 rfl) hcode
    | false =>
      rw [hb] at hcode
      exact variant_code hcode
  | none | some (.local_ _) | some (.moduleSymbol _ _)
  | some (.importedSymbol _ _) | some (.moduleAlias _)
  | some (.actorName _ _) | some (.fieldAccessor _)
  | some (.classMethod _ _) | some .error => exact map_code hcode

end

end Ridge
