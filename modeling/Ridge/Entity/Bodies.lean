import Ridge.Entity.Mirror
import Ridge.Collections.TypedMapIndex

/-!
# What the derived bodies do to a record

The encoding and the decoding of a record, column by column, and the row between them.
-/

/-!
## The derived row and schema instances

What the method bodies do that lowering builds for `deriving (Row)` and `deriving (Schema)`
(`ridge-lower/src/item.rs`). A record value is a native map from its field names; a row is a typed
map with keys of type `Text`.
-/

namespace Ridge

variable {F Seed Stream Digest : Type}

/-- The host of the derived bodies: the codecs', the typed maps', how a text feeds a hash, and the
seed of a fresh map. -/
structure RowHost (F Seed Stream Digest : Type) where
  sql : SqlHost F
  maps : MapHost Seed Stream Digest
  feedText : String → Stream → Stream
  fresh : Seed

/-- The `Hash` and `Eq` evidence of `Text` that `text_map_arguments` passes. -/
def RowHost.textKeys (H : RowHost F Seed Stream Digest) : KeyMethods String Stream where
  toKeyEq := .exact String
  hash := H.feedText
  hash_eq h s := by rw [of_decide_eq_true h]

/-- `Map Text SqlValue`. -/
abbrev RowMap (Seed Digest : Type) := RidgeMap Seed Digest String SqlValue

abbrev RecordVal (F : Type) := List (String × RowVal F)

/-- `x.<field>`. -/
def readField (x : RecordVal F) (field : String) : Except CodecRaise (RowVal F) :=
  match EntryMap.get (.exact String) field x with
  | some v => .ok v
  | none => .error (.badKey field)

/-! ## Dictionaries -/

def buildSqlTypeDict (H : SqlHost F) : SqlTag → SqlType F
  | .base s => instSqlTypeScalar H s
  | .list s => instSqlTypeList (instSqlTypeScalar H s)

/-- The dictionary of a column: `SqlType (Option a)` over the one of its tag if it is nullable. -/
def columnDict (H : SqlHost F) (optional : Bool) (tag : SqlTag) : SqlType F :=
  if optional then instSqlTypeOption (buildSqlTypeDict H tag) else buildSqlTypeDict H tag

/-! ## `Row` -/

section

variable [DecidableEq Digest] (H : RowHost F Seed Stream Digest)

/-- The pairs of a row, one for a column in order. -/
def encodePairs (x : RecordVal F) :
    List RowColumnSpec → Except CodecRaise (List (String × SqlValue))
  | [] => .ok []
  | c :: columns => do
    let v ← readField x c.fieldName
    let encoded ← (columnDict H.sql c.optional c.typeTag).toSql v
    let rest ← encodePairs x columns
    pure ((c.column, encoded) :: rest)

/-- `std.map.fromList` of pairs. -/
def rowOfPairs (pairs : List (String × SqlValue)) : RowMap Seed Digest :=
  typedMapFromList H.maps H.textKeys H.fresh pairs

variable (columns : List RowColumnSpec)

/-- `build_to_row_record_body`. -/
def toRow (x : RecordVal F) :
    Except CodecRaise (RowMap Seed Digest) :=
  (encodePairs H x columns).map (rowOfPairs H)

/-- One field of `build_from_row_record_body`: a missing column is an error, or `None` where the
field is optional. -/
def readColumn (row : RowMap Seed Digest) (c : RowColumnSpec) : Except CodecError (RowVal F) :=
  match typedMapGet H.maps H.textKeys c.column row with
  | some sv => (columnDict H.sql c.optional c.typeTag).fromSql sv
  | none =>
    if c.optional then .ok .none
    else .error ⟨"row.missing_column", "missing column \"" ++ (c.column ++ ("\" for field \"" ++
      (c.fieldName ++ "\"")))⟩

/-- The reads in declaration order, the first failure ending them. -/
def readColumns (row : RowMap Seed Digest) : List RowColumnSpec →
    Except CodecError (List (String × RowVal F))
  | [] => .ok []
  | c :: columns => do
    let v ← readColumn H row c
    let rest ← readColumns row columns
    pure ((c.fieldName, v) :: rest)

/-- `build_from_row_record_body`: the record of the fields read. -/
def fromRow (row : RowMap Seed Digest) :
    Except CodecError (RecordVal F) :=
  (readColumns H row columns).map (EntryMap.ofList (.exact String))

def rowColumns : List String := columns.map (·.column)

/-- The columns of `build_to_insert_row_body`: neither the generated ones nor those without a
codec. -/
def insertColumns (columns : List SchemaColumnSpec) : List RowColumnSpec :=
  columns.filterMap fun c : SchemaColumnSpec =>
    if c.generation.isSome then none
    else c.sqlTypeTag.map fun tag => ⟨c.fieldName, c.column, tag, c.nullable⟩

/-- `build_to_insert_row_body`. -/
def toInsertRow (columns : List SchemaColumnSpec) (x : RecordVal F) :
    Except CodecRaise (RowMap Seed Digest) :=
  (encodePairs H x (insertColumns columns)).map (rowOfPairs H)

end

/-! ## `HasSchema` -/

def generated (g : Generation) (c : ColumnSchema) : ColumnSchema := { c with generation := g }

def primaryKey (c : ColumnSchema) : ColumnSchema := { c with primaryKey := true }

def colGenerated (c : ColumnSchema) : Bool :=
  match c.generation with
  | .supplied => false
  | _ => true

def emptySchema (name table : String) : EntitySchema := ⟨name, table, [], [], []⟩

def withColumn (c : ColumnSchema) (s : EntitySchema) : EntitySchema :=
  { s with columns := s.columns ++ [c] }

/-- `build_db_type_call`: `DbText` where there is no codec to ask. -/
def buildDbType (H : SqlHost F) : Option SqlTag → DbType
  | none => .dbText
  | some tag => (buildSqlTypeDict H tag).dbType

def buildColumn (H : SqlHost F) (c : SchemaColumnSpec) : ColumnSchema :=
  let col := mkColumn c.fieldName c.column (buildDbType H c.sqlTypeTag) c.nullable
  let col := match c.generation with
    | some gen => generated gen col
    | none => col
  if c.primaryKey then primaryKey col else col

def schemaOf (H : SqlHost F) (spec : SchemaSpec) : EntitySchema :=
  spec.columns.foldl (fun acc c => withColumn (buildColumn H c) acc)
    (emptySchema spec.entityName spec.table)

/-! ## The insert companion -/

/-- The fields of `<Entity>Insert`: those that are not database-generated. An entity without a
generated field is its own insert shape. -/
def insertFields (fields : List FieldDecl) : List FieldDecl :=
  fields.filter fun f => !isGeneratedField f.name f.ty

open List EntryMap Except

variable {cols : List RowColumnSpec} {pairs : List (String × SqlValue)}

/-! ## Lists that correspond -/

theorem exists_partner {α β : Type} {R : α → β → Prop} {l : List α} {m : List β}
    (h : List.Forall₂ R l m) {a : α} (ha : a ∈ l) : ∃ b ∈ m, R a b := by
  induction h with
  | nil => exact nomatch ha
  | @cons a' b l m hhead _ ih =>
    rcases mem_cons.mp ha with rfl | ha
    · exact ⟨b, mem_cons_self, hhead⟩
    · obtain ⟨b', hb', hrel⟩ := ih ha
      exact ⟨b', mem_cons_of_mem b hb', hrel⟩

/-- Partners that agree on an attribute have it in the same order. -/
theorem map_of_partners {α β γ : Type} {R : α → β → Prop} {l : List α} {m : List β} {g : α → γ}
    {g' : β → γ} (h : List.Forall₂ R l m) (hR : ∀ a b, R a b → g' b = g a) :
    m.map g' = l.map g := by
  induction h with
  | nil => rfl
  | cons hhead _ ih => exact congrArg₂ List.cons (hR _ _ hhead) ih

/-- Partners for all members make a list of them. -/
theorem partners_of_forall {α β : Type} {R : α → β → Prop} {l : List α}
    (h : ∀ a ∈ l, ∃ b, R a b) : ∃ m, List.Forall₂ R l m := by
  induction l with
  | nil => exact ⟨[], .nil⟩
  | cons a l ih =>
    obtain ⟨b, hb⟩ := h a mem_cons_self
    obtain ⟨m, hm⟩ := ih fun x hx => h x (mem_cons_of_mem a hx)
    exact ⟨b :: m, .cons hb hm⟩

theorem partners_trans {α β γ : Type} {R : α → β → Prop} {S : β → γ → Prop} {T : α → γ → Prop}
    {l : List α} {m : List β} {n : List γ} (h : List.Forall₂ R l m) (h' : List.Forall₂ S m n)
    (hT : ∀ a ∈ l, ∀ b c, R a b → S b c → T a c) : List.Forall₂ T l n := by
  induction h generalizing n with
  | nil =>
    cases h'
    exact .nil
  | @cons a b l m hhead _ ih =>
    cases h' with
    | cons hhead' htail' =>
      exact .cons (hT a mem_cons_self _ _ hhead hhead')
        (ih htail' fun x hx => hT x (mem_cons_of_mem a hx))

/-! ## The specs and the fields they come from -/

/-- The column spec is that of the field. -/
structure Describes (f : FieldDecl) (c : RowColumnSpec) : Prop where
  name : c.fieldName = f.name
  column : c.column = columnSqlName f.name
  classified : sqlRowField f.ty = some (c.optional, c.typeTag)

theorem mapM_rowSpec {decl : TypeDecl} {fields : List FieldDecl}
    (h : (fields.mapM fun field : FieldDecl =>
      match sqlRowField field.ty with
      | some (optional, typeTag) =>
        (.ok ⟨field.name, columnSqlName field.name, typeTag, optional⟩ :
          Except DeriveError RowColumnSpec)
      | none => .error ⟨"Row", decl.name, some field⟩) = .ok cols) :
    List.Forall₂ Describes fields cols := by
  induction fields generalizing cols with
  | nil =>
    rw [mapM_nil] at h
    rw [← ok.inj h]
    exact .nil
  | cons f fields ih =>
    rw [mapM_cons] at h
    obtain ⟨c, hc, h⟩ := except_bind_eq_ok.mp h
    obtain ⟨rest, hrest, heq⟩ := except_bind_eq_ok.mp h
    rw [← ok.inj heq]
    refine .cons ?_ (ih hrest)
    split at hc
    · rename_i optional typeTag hclass
      rw [← ok.inj hc]
      exact ⟨rfl, rfl, hclass⟩
    · exact nomatch hc

/-- An accepted `deriving (Row)` classifies every field. -/
theorem generateRow_spec {decl : TypeDecl} (h : generateRow decl = .ok cols) :
    ∃ fields, decl.body = .record fields ∧ List.Forall₂ Describes fields cols := by
  unfold generateRow at h
  split at h
  · rename_i fields hbody
    exact ⟨fields, hbody, mapM_rowSpec h⟩
  · exact nomatch h

section Describes

variable {H : SqlHost F} {f : FieldDecl} {c : RowColumnSpec}

theorem Describes.checked (h : Describes f c) : checkedType f.ty = columnTy c.optional c.typeTag :=
  (checkedType_rowField h.classified).1

theorem Describes.optional (h : Describes f c) : isOptionalType f.ty = c.optional :=
  (checkedType_rowField h.classified).2

variable (H)

theorem sqlTypeInstance_tag (tag : SqlTag) :
    sqlTypeInstance H tag.rowTy = some (buildSqlTypeDict H tag) := by
  cases tag with
  | base s => rfl
  | list s => rfl

theorem serves_tag (tag : SqlTag) : (buildSqlTypeDict H tag).Serves tag.rowTy := by
  cases tag with
  | base s => exact serves_scalar H s
  | list s => exact serves_list (serves_scalar H s)

theorem sqlTypeInstance_column (optional : Bool) (tag : SqlTag) :
    sqlTypeInstance H (columnTy optional tag) = some (columnDict H optional tag) := by
  cases optional with
  | false => exact sqlTypeInstance_tag H tag
  | true =>
    show (sqlTypeInstance H tag.rowTy).map instSqlTypeOption = _
    rw [sqlTypeInstance_tag]
    rfl

theorem columnDict_keeps (optional : Bool) (tag : SqlTag) {v : RowVal F}
    (hv : (columnTy optional tag).Has v) :
    (columnDict H optional tag).RoundTrips (columnTy optional tag) v ↔
      (columnTy optional tag).Writable v := by
  cases optional with
  | false => exact (serves_tag H tag).keeps v hv
  | true => exact option_keeps (serves_tag H tag) hv

end Describes

/-! ## Rows -/

variable [DecidableEq Digest] (H : RowHost F Seed Stream Digest)

theorem distinct_exact_iff {κ α : Type} [DecidableEq κ] {m : List (κ × α)} :
    EntryMap.Distinct (.exact κ) m ↔ (m.map Prod.fst).Nodup := by
  unfold EntryMap.Distinct List.Nodup
  rw [pairwise_map]
  have heq : ∀ a b : κ × α, (KeyEq.exact κ).eq a.1 b.1 = false ↔ a.1 ≠ b.1 :=
    fun a b => decide_eq_false_iff_not
  simp only [heq]

theorem get_of_mem {κ α : Type} [DecidableEq κ] {m : List (κ × α)} (h : (m.map Prod.fst).Nodup)
    {k : κ} {v : α} (hmem : (k, v) ∈ m) : EntryMap.get (.exact κ) k m = some v := by
  have hdistinct := distinct_exact_iff.mpr h
  unfold EntryMap.get
  rw [hdistinct.find_of_mem hmem (decide_eq_true rfl)]
  rfl

theorem mem_of_get {κ α : Type} [DecidableEq κ] {m : List (κ × α)} {k : κ} {v : α}
    (h : EntryMap.get (.exact κ) k m = some v) : (k, v) ∈ m := by
  obtain ⟨e, he, hv⟩ := Option.map_eq_some_iff.mp h
  obtain ⟨hmem, hk⟩ := find_some he
  have hkey : k = e.1 := of_decide_eq_true hk
  rw [hkey, ← hv]
  exact hmem

theorem rowOfPairs_perm (h : (pairs.map Prod.fst).Nodup) :
    (rowOfPairs H pairs).entries.Perm pairs :=
  (typedMapFromList_spec H.fresh pairs).2.trans (ofList_perm (distinct_exact_iff.mpr h))

theorem rowOfPairs_toList (h : (pairs.map Prod.fst).Nodup) :
    (typedMapToList H.maps (rowOfPairs H pairs)).Perm pairs :=
  (typedMapToList_perm _).trans (rowOfPairs_perm H h)

theorem rowOfPairs_get (h : (pairs.map Prod.fst).Nodup) {k : String} {s : SqlValue}
    (hmem : (k, s) ∈ pairs) : typedMapGet H.maps H.textKeys k (rowOfPairs H pairs) = some s := by
  have hindexed := (typedMapFromList_spec (H := H.maps) (M := H.textKeys) H.fresh pairs).1
  have hget := typedMapGet_eq hindexed k
  have hperm := get_perm (rowOfPairs_perm H h) hindexed.distinct k
  exact hget.trans (hperm.trans (get_of_mem h hmem))

/-! ## Encoding and decoding, column by column -/

/-- A column writes the pair. -/
def Encodes (x : RecordVal F) (c : RowColumnSpec) (e : String × SqlValue) : Prop :=
  e.1 = c.column ∧ ∃ v, EntryMap.get (.exact String) c.fieldName x = some v ∧
    (columnDict H.sql c.optional c.typeTag).toSql v = .ok e.2

variable {x : RecordVal F}

theorem readField_eq_ok {field : String} {v : RowVal F} :
    readField x field = .ok v ↔ EntryMap.get (.exact String) field x = some v := by
  unfold readField
  cases EntryMap.get (.exact String) field x with
  | none => exact ⟨fun h => (nomatch h), fun h => (nomatch h)⟩
  | some w => exact ⟨fun h => congrArg some (ok.inj h), fun h =>
    congrArg Except.ok (Option.some.inj h)⟩

omit [DecidableEq Digest] in
theorem encodePairs_eq_ok :
    encodePairs H x cols = .ok pairs ↔ List.Forall₂ (Encodes H x) cols pairs := by
  induction cols generalizing pairs with
  | nil =>
    constructor
    · intro h
      rw [← ok.inj h]
      exact .nil
    · intro h
      cases h
      rfl
  | cons c cols ih =>
    constructor
    · intro h
      obtain ⟨v, hv, h⟩ := except_bind_eq_ok.mp h
      obtain ⟨s, hs, h⟩ := except_bind_eq_ok.mp h
      obtain ⟨rest, hrest, heq⟩ := except_bind_eq_ok.mp h
      rw [← ok.inj heq]
      exact .cons ⟨rfl, v, readField_eq_ok.mp hv, hs⟩ (ih.mp hrest)
    · intro h
      cases h with
      | cons hhead htail =>
        rename_i e rest
        obtain ⟨hcol, v, hv, hs⟩ := hhead
        refine except_bind_eq_ok.mpr ⟨v, readField_eq_ok.mpr hv,
          except_bind_eq_ok.mpr ⟨e.2, hs, except_bind_eq_ok.mpr ⟨rest, ih.mpr htail, ?_⟩⟩⟩
        rw [← hcol]
        rfl

omit [DecidableEq Digest] in
theorem encodes_columns (h : List.Forall₂ (Encodes H x) cols pairs) :
    pairs.map Prod.fst = rowColumns cols :=
  map_of_partners h fun _ _ hrel => hrel.1

theorem readColumns_eq_ok {row : RowMap Seed Digest} {vs : List (String × RowVal F)} :
    readColumns H row cols = .ok vs ↔
      List.Forall₂ (fun c e => e.1 = c.fieldName ∧ readColumn H row c = .ok e.2) cols vs := by
  induction cols generalizing vs with
  | nil =>
    constructor
    · intro h
      rw [← ok.inj h]
      exact .nil
    · intro h
      cases h
      rfl
  | cons c cols ih =>
    constructor
    · intro h
      obtain ⟨v, hv, h⟩ := except_bind_eq_ok.mp h
      obtain ⟨rest, hrest, heq⟩ := except_bind_eq_ok.mp h
      rw [← ok.inj heq]
      exact .cons ⟨rfl, hv⟩ (ih.mp hrest)
    · intro h
      cases h with
      | cons hhead htail =>
        rename_i e rest
        refine except_bind_eq_ok.mpr ⟨e.2, hhead.2,
          except_bind_eq_ok.mpr ⟨rest, ih.mpr htail, ?_⟩⟩
        rw [← hhead.1]
        rfl

end Ridge
