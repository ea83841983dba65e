import Ridge.Entity.Bodies

/-!
# Derived rows and schemas agree

`RowAgrees` says of one record type and one value of it that the row comes back as the value, that
`toRow`, `rowColumns` and the schema name the same columns, that the insert row has the columns the
database does not fill, and that a column is declared as the instance of its field has it.
-/

namespace Ridge

open List EntryMap

variable {f : FieldDecl}

variable {F Seed Stream Digest : Type} [DecidableEq Digest]

/-- A value of the record type: its fields, each of the declared type. -/
structure IsRecord (fields : List FieldDecl) (r : RecordVal F) : Prop where
  distinct : (r.map Prod.fst).Nodup
  named : ∀ k, (EntryMap.get (.exact String) k r).isSome = true ↔ ∃ f ∈ fields, f.name = k
  typed : ∀ f ∈ fields, ∀ v, EntryMap.get (.exact String) f.name r = some v →
    (checkedType f.ty).Has v

/-- Equal records: the same fields, with equal values. -/
def SameRecord (fields : List FieldDecl) (r' r : RecordVal F) : Prop :=
  (∀ k, (EntryMap.get (.exact String) k r').isSome = (EntryMap.get (.exact String) k r).isSome) ∧
    ∀ f ∈ fields, ∀ v' v, EntryMap.get (.exact String) f.name r' = some v' →
      EntryMap.get (.exact String) f.name r = some v → (checkedType f.ty).Same v' v

/-- The value of the insert companion that `r` extends. -/
def companion (fields : List FieldDecl) (r : RecordVal F) : RecordVal F :=
  r.filter fun e => (insertFields fields).any fun f => f.name = e.1

/-- The pair of a schema column: its name, and its field's value under the field's own instance. -/
def InsertPair (H : SqlHost F) (fields : List FieldDecl) (r : RecordVal F) (c : ColumnSchema)
    (e : String × SqlValue) : Prop :=
  e.1 = c.column ∧ ∃ f ∈ fields, f.name = c.name ∧ ∃ d v,
    sqlTypeInstance H (checkedType f.ty) = some d ∧
      EntryMap.get (.exact String) f.name r = some v ∧ d.toSql v = .ok e.2

/-- The column's type is the one of the field's instance, and it admits NULL exactly when that
instance writes some value so. -/
def DeclaredAs (H : SqlHost F) (f : FieldDecl) (c : ColumnSchema) : Prop :=
  ∃ d, sqlTypeInstance H (checkedType f.ty) = some d ∧ c.ty = d.dbType ∧
    (c.nullable = true ↔ ∃ v, (checkedType f.ty).Has v ∧ d.toSql v = .ok .sqlNull)

structure RowAgrees (H : RowHost F Seed Stream Digest) (fields : List FieldDecl)
    (row : List RowColumnSpec) (schema : SchemaSpec) (r : RecordVal F) : Prop where
  roundTrip : ∃ m, toRow H row r = .ok m ∧ ∃ r', fromRow H row m = .ok r' ∧ SameRecord fields r' r
  /-- Traversal of a map is in no order of its own, so the order is that of the pairs it is built
  from. -/
  keys : ∃ pairs, encodePairs H r row = .ok pairs ∧ pairs.map Prod.fst = rowColumns row ∧
    ((typedMapToList H.maps (rowOfPairs H pairs)).map Prod.fst).Perm (rowColumns row)
  columns : rowColumns row = (schemaOf H.sql schema).columns.map (·.column)
  distinct : (rowColumns row).Nodup
  insert : ∃ m, toInsertRow H schema.columns (companion fields r) = .ok m ∧
    ∃ pairs, (typedMapToList H.maps m).Perm pairs ∧
      List.Forall₂ (InsertPair H.sql fields r)
        ((schemaOf H.sql schema).columns.filter fun c => !colGenerated c) pairs
  declared : List.Forall₂ (DeclaredAs H.sql) fields (schemaOf H.sql schema).columns

/-- The column names are distinct, and every field of the value has a column value that reads
back. -/
structure RowFits (fields : List FieldDecl) (r : RecordVal F) : Prop where
  columns : (fields.map fun f => columnSqlName f.name).Nodup
  writable : ∀ f ∈ fields, ∀ v, EntryMap.get (.exact String) f.name r = some v →
    (checkedType f.ty).Writable v

variable {H : RowHost F Seed Stream Digest} {fields : List FieldDecl} {cols : List RowColumnSpec}
  {r : RecordVal F}

/-! ## Names -/

theorem rowColumns_eq (h : List.Forall₂ Describes fields cols) :
    rowColumns cols = fields.map fun f => columnSqlName f.name :=
  map_of_partners h fun _ _ hd => hd.column

theorem fieldNames_eq (h : List.Forall₂ Describes fields cols) :
    cols.map (·.fieldName) = fields.map (·.name) :=
  map_of_partners h fun _ _ hd => hd.name

theorem nodup_names (h : (fields.map fun f => columnSqlName f.name).Nodup) :
    (fields.map (·.name)).Nodup := by
  have hcomp : (fields.map fun f => columnSqlName f.name) =
      (fields.map (·.name)).map columnSqlName := by
    rw [map_map]
    rfl
  rw [hcomp] at h
  exact List.Nodup.of_map _ h

theorem exists_field (h : List.Forall₂ Describes fields cols) {c : RowColumnSpec} (hc : c ∈ cols) :
    ∃ f ∈ fields, Describes f c :=
  exists_partner h.flip hc

theorem get_field (hr : IsRecord fields r) (hf : f ∈ fields) :
    ∃ v, EntryMap.get (.exact String) f.name r = some v ∧ (checkedType f.ty).Has v := by
  obtain ⟨v, hv⟩ := Option.isSome_iff_exists.mp ((hr.named f.name).mpr ⟨f, hf, rfl⟩)
  exact ⟨v, hv, hr.typed f hf v hv⟩

/-! ## The round trip -/

def ColumnKeeps (H : SqlHost F) (r : RecordVal F) (c : RowColumnSpec) : Prop :=
  ∃ v, EntryMap.get (.exact String) c.fieldName r = some v ∧
    (columnDict H c.optional c.typeTag).RoundTrips (columnTy c.optional c.typeTag) v

omit [DecidableEq Digest] in
theorem columnKeeps_iff (hr : IsRecord fields r) (hf : f ∈ fields) {c : RowColumnSpec}
    (hd : Describes f c) : ColumnKeeps H.sql r c ↔
      ∀ v, EntryMap.get (.exact String) f.name r = some v → (checkedType f.ty).Writable v := by
  obtain ⟨v, hv, htyped⟩ := get_field hr hf
  unfold ColumnKeeps
  rw [hd.name, hv, hd.checked]
  rw [hd.checked] at htyped
  constructor
  · rintro ⟨v', hv', hkeeps⟩ w hw
    rw [← Option.some.inj hv'] at hkeeps
    rw [← Option.some.inj hw]
    exact (columnDict_keeps H.sql _ _ htyped).mp hkeeps
  · intro h
    exact ⟨v, rfl, (columnDict_keeps H.sql _ _ htyped).mpr (h v rfl)⟩

section

variable (hd : List.Forall₂ Describes fields cols)
  (hnodup : (fields.map fun f => columnSqlName f.name).Nodup)
include hd hnodup

variable {m : RowMap Seed Digest}

/-- The values read of a row, under the names of their fields. -/
theorem get_read {vs : List (String × RowVal F)}
    (hreads : List.Forall₂ (fun c e => e.1 = c.fieldName ∧ readColumn H m c = .ok e.2) cols vs) :
    (∀ {c w}, c ∈ cols → readColumn H m c = .ok w →
      EntryMap.get (.exact String) c.fieldName (EntryMap.ofList (.exact String) vs) = some w) ∧
      (EntryMap.ofList (.exact String) vs).Perm vs := by
  have hnames : (vs.map Prod.fst).Nodup := by
    rw [map_of_partners hreads fun _ _ hrel => hrel.1, fieldNames_eq hd]
    exact nodup_names hnodup
  have hperm := ofList_perm (distinct_exact_iff.mpr hnames)
  refine ⟨fun {c w} hc hread => ?_, hperm⟩
  obtain ⟨⟨name, w'⟩, hval, hname, hread'⟩ := exists_partner hreads hc
  have hw : w' = w := Except.ok.inj (hread'.symm.trans hread)
  have hname' : name = c.fieldName := hname
  rw [get_perm hperm (distinct_ofList vs)]
  exact get_of_mem hnames (hname' ▸ hw ▸ hval)

theorem read_written {pairs : List (String × SqlValue)}
    (hencodes : List.Forall₂ (Encodes H r) cols pairs) {c : RowColumnSpec} (hc : c ∈ cols) :
    ∃ s v, EntryMap.get (.exact String) c.fieldName r = some v ∧
      (columnDict H.sql c.optional c.typeTag).toSql v = .ok s ∧
      readColumn H (rowOfPairs H pairs) c =
        (columnDict H.sql c.optional c.typeTag).fromSql s := by
  have hkeys : (pairs.map Prod.fst).Nodup := by
    rw [encodes_columns H hencodes, rowColumns_eq hd]
    exact hnodup
  obtain ⟨⟨col, s⟩, hpair, hcol, v, hv, hwrite⟩ := exists_partner hencodes hc
  have hcol' : col = c.column := hcol
  rw [hcol'] at hpair
  refine ⟨s, v, hv, hwrite, ?_⟩
  rw [readColumn, rowOfPairs_get H hkeys hpair]

theorem keeps_of_roundTrip (hto : toRow H cols r = .ok m) {r' : RecordVal F}
    (hfrom : fromRow H cols m = .ok r') (hsame : SameRecord fields r' r) :
    ∀ c ∈ cols, ColumnKeeps H.sql r c := by
  intro c hc
  obtain ⟨pairs, hpairs, rfl⟩ := except_map_eq_ok.mp hto
  obtain ⟨vs, hvs, rfl⟩ := except_map_eq_ok.mp hfrom
  have hencodes := (encodePairs_eq_ok H).mp hpairs
  have hreads := (readColumns_eq_ok H).mp hvs
  obtain ⟨s, v, hv, hwrite, hread⟩ := read_written hd hnodup hencodes hc
  obtain ⟨⟨_, w⟩, _, _, hread'⟩ := exists_partner hreads hc
  have hback := (get_read hd hnodup hreads).1 hc hread'
  rw [hread] at hread'
  obtain ⟨f, hf, hdesc⟩ := exists_field hd hc
  have hfield := hsame.2 f hf w v (hdesc.name ▸ hback) (hdesc.name ▸ hv)
  rw [hdesc.checked] at hfield
  exact ⟨v, hv, s, hwrite, w, hread', hfield⟩

/-- A record all of whose columns keep their fields comes back. -/
theorem roundTrip_of_keeps (hr : IsRecord fields r) (h : ∀ c ∈ cols, ColumnKeeps H.sql r c) :
    ∃ m, toRow H cols r = .ok m ∧ ∃ r', fromRow H cols m = .ok r' ∧ SameRecord fields r' r := by
  obtain ⟨pairs, hencodes⟩ : ∃ pairs, List.Forall₂ (Encodes H r) cols pairs :=
    partners_of_forall fun c hc => by
      obtain ⟨v, hv, s, hs, -⟩ := h c hc
      exact ⟨(c.column, s), rfl, v, hv, hs⟩
  -- what a column reads is the value its field has
  have hback : ∀ c ∈ cols, ∃ w v, readColumn H (rowOfPairs H pairs) c = .ok w ∧
      EntryMap.get (.exact String) c.fieldName r = some v ∧
      (columnTy c.optional c.typeTag).Same w v := by
    intro c hc
    obtain ⟨s, v, hv, hwrite, hread⟩ := read_written hd hnodup hencodes hc
    obtain ⟨v', hv', s', hs', w, hw, hsame⟩ := h c hc
    have hvv : v' = v := Option.some.inj (hv'.symm.trans hv)
    rw [hvv] at hs' hsame
    have hss : s' = s := Except.ok.inj (hs'.symm.trans hwrite)
    rw [hss] at hw
    exact ⟨w, v, hread.trans hw, hv, hsame⟩
  obtain ⟨vs, hreads⟩ : ∃ vs, List.Forall₂ (fun (c : RowColumnSpec) (e : String × RowVal F) =>
      e.1 = c.fieldName ∧ readColumn H (rowOfPairs H pairs) c = .ok e.2) cols vs :=
    partners_of_forall fun c hc => by
      obtain ⟨w, _, hw, _⟩ := hback c hc
      exact ⟨(c.fieldName, w), rfl, hw⟩
  obtain ⟨hget, hperm⟩ := get_read hd hnodup hreads
  refine ⟨rowOfPairs H pairs, except_map_eq_ok.mpr ⟨pairs, (encodePairs_eq_ok H).mpr hencodes, rfl⟩,
    _, except_map_eq_ok.mpr ⟨vs, (readColumns_eq_ok H).mpr hreads, rfl⟩, ?_, ?_⟩
  · intro k
    rw [Bool.eq_iff_iff, hr.named k]
    constructor
    · intro hk
      obtain ⟨v, hv⟩ := Option.isSome_iff_exists.mp hk
      obtain ⟨c, hc, hname⟩ := exists_partner hreads.flip (hperm.mem_iff.mp (mem_of_get hv))
      obtain ⟨f, hf, hdesc⟩ := exists_field hd hc
      exact ⟨f, hf, hdesc.name.symm.trans hname.1.symm⟩
    · rintro ⟨f, hf, rfl⟩
      obtain ⟨c, hc, hdesc⟩ := exists_partner hd hf
      obtain ⟨w, _, hw, _⟩ := hback c hc
      rw [← hdesc.name, hget hc hw]
      rfl
  · intro f hf v' v hv' hv
    obtain ⟨c, hc, hdesc⟩ := exists_partner hd hf
    obtain ⟨w, v₀, hw, hv₀, hsame⟩ := hback c hc
    have hwv : w = v' := by
      have hw' := hget hc hw
      rw [hdesc.name] at hw'
      exact Option.some.inj (hw'.symm.trans hv')
    have hvv : v₀ = v := by
      rw [hdesc.name] at hv₀
      exact Option.some.inj (hv₀.symm.trans hv)
    rw [hdesc.checked, ← hwv, ← hvv]
    exact hsame

end

/-! ## The schema -/

theorem schemaOf_columns (H : SqlHost F) (spec : SchemaSpec) :
    (schemaOf H spec).columns = spec.columns.map (buildColumn H) := by
  have hfold : ∀ (cs : List SchemaColumnSpec) (s : EntitySchema),
      (cs.foldl (fun acc c => withColumn (buildColumn H c) acc) s).columns =
        s.columns ++ cs.map (buildColumn H) := by
    intro cs
    induction cs with
    | nil => exact fun s => (append_nil _).symm
    | cons c cs ih =>
      intro s
      rw [foldl_cons, ih]
      exact append_assoc _ _ _
  exact hfold spec.columns _

section BuildColumn

variable (H : SqlHost F) (c : SchemaColumnSpec)

/-- The steps of a column leave what `mkColumn` gave it, and set the generation. -/
theorem buildColumn_spec : (buildColumn H c).name = c.fieldName ∧
    (buildColumn H c).column = c.column ∧ (buildColumn H c).ty = buildDbType H c.sqlTypeTag ∧
    (buildColumn H c).nullable = c.nullable ∧
    (buildColumn H c).generation = c.generation.getD .supplied := by
  unfold buildColumn
  rcases c.generation with _ | gen <;> cases c.primaryKey <;> exact ⟨rfl, rfl, rfl, rfl, rfl⟩

end BuildColumn

def fieldColumn (H : SqlHost F) (f : FieldDecl) : ColumnSchema := buildColumn H (schemaColumnSpec f)

theorem colGenerated_fieldColumn (H : SqlHost F) (f : FieldDecl) :
    colGenerated (fieldColumn H f) = isGeneratedField f.name f.ty := by
  have hgen : (fieldColumn H f).generation =
      ((if isGeneratedField f.name f.ty then some Generation.identity else none).getD .supplied) :=
    (buildColumn_spec H (schemaColumnSpec f)).2.2.2.2
  unfold colGenerated
  rw [hgen]
  cases isGeneratedField f.name f.ty <;> rfl

theorem declaredAs_of_describes (H : SqlHost F) {c : RowColumnSpec} (hd : Describes f c) :
    DeclaredAs H f (fieldColumn H f) := by
  obtain ⟨-, -, hty, hnull, -⟩ := buildColumn_spec H (schemaColumnSpec f)
  have htag : (schemaColumnSpec f).sqlTypeTag = some c.typeTag := by
    show (sqlRowField f.ty).map Prod.snd = _
    rw [hd.classified]
    rfl
  have hopt : (schemaColumnSpec f).nullable = c.optional := hd.optional
  unfold DeclaredAs
  rw [hd.checked]
  refine ⟨_, sqlTypeInstance_column H c.optional c.typeTag, ?_, ?_⟩
  · show (buildColumn H (schemaColumnSpec f)).ty = _
    rw [hty, htag]
    cases c.optional <;> rfl
  · show (buildColumn H (schemaColumnSpec f)).nullable = true ↔ _
    rw [hnull, hopt]
    cases hopt : c.optional with
    | false =>
      refine iff_of_false Bool.false_ne_true ?_
      rintro ⟨v, -, hnull⟩
      exact (serves_tag H c.typeTag).neverNull v hnull
    | true => exact iff_of_true rfl ⟨.none, trivial, rfl⟩

/-! ## The insert row -/

omit [DecidableEq Digest] in
theorem Describes.unique {c c' : RowColumnSpec} (h : Describes f c) (h' : Describes f c') :
    c = c' := by
  have hclass := Option.some.inj (h.classified.symm.trans h'.classified)
  obtain ⟨hopt, htag⟩ := Prod.mk.inj hclass
  cases c
  cases c'
  rw [RowColumnSpec.mk.injEq]
  exact ⟨h.name.trans h'.name.symm, h.column.trans h'.column.symm, htag, hopt⟩

omit [DecidableEq Digest] in
/-- The columns of the insert row are those of the companion's fields. -/
theorem describes_insert (hd : List.Forall₂ Describes fields cols) :
    List.Forall₂ Describes (insertFields fields) (insertColumns (fields.map schemaColumnSpec)) := by
  induction hd with
  | nil => exact .nil
  | @cons f c fields cols hhead _ ih =>
    unfold insertFields insertColumns
    rw [map_cons, filter_cons, filterMap_cons]
    by_cases hgen : isGeneratedField f.name f.ty = true
    · have hspec : (schemaColumnSpec f).generation.isSome = true := by
        show (if isGeneratedField f.name f.ty then some Generation.identity else none).isSome = true
        rw [hgen]
        rfl
      rw [hgen, if_neg (by decide), if_pos hspec]
      exact ih
    · rw [Bool.not_eq_true] at hgen
      have hspec : ¬ (schemaColumnSpec f).generation.isSome = true := by
        show ¬ (if isGeneratedField f.name f.ty then some Generation.identity else none).isSome = true
        rw [hgen]
        exact Bool.false_ne_true
      have htag : (schemaColumnSpec f).sqlTypeTag = some c.typeTag := by
        show (sqlRowField f.ty).map Prod.snd = _
        rw [hhead.classified]
        rfl
      rw [hgen, if_pos (by decide), if_neg hspec, htag]
      refine .cons ⟨rfl, rfl, ?_⟩ ih
      show sqlRowField f.ty = some (isOptionalType f.ty, c.typeTag)
      rw [hhead.optional]
      exact hhead.classified

omit [DecidableEq Digest] in
theorem get_companion (hf : f ∈ insertFields fields) (r : RecordVal F) :
    EntryMap.get (.exact String) f.name (companion fields r) =
      EntryMap.get (.exact String) f.name r := by
  unfold EntryMap.get EntryMap.find companion
  rw [find?_filter]
  refine congrArg (Option.map Prod.snd) (congrArg (fun p => List.find? p r) (funext fun e => ?_))
  by_cases hk : f.name = e.1
  · have hany : ((insertFields fields).any fun g => g.name = e.1) = true :=
      any_eq_true.mpr ⟨f, hf, decide_eq_true hk⟩
    simp [hany]
  · have hne : (KeyEq.exact String).eq f.name e.1 = false := decide_eq_false hk
    simp [hne]

theorem insert_of_keeps (hd : List.Forall₂ Describes fields cols)
    (hnodup : (fields.map fun f => columnSqlName f.name).Nodup)
    (h : ∀ c ∈ cols, ColumnKeeps H.sql r c) :
    ∃ m, toInsertRow H (fields.map schemaColumnSpec) (companion fields r) = .ok m ∧
      ∃ pairs, (typedMapToList H.maps m).Perm pairs ∧
        List.Forall₂ (InsertPair H.sql fields r)
          ((fields.map (fieldColumn H.sql)).filter fun c => !colGenerated c) pairs := by
  have hins := describes_insert hd
  have hsub : ∀ f ∈ insertFields fields, f ∈ fields := fun f hf => (mem_filter.mp hf).1
  -- the field of an insert column has, in the companion, the value it has in the record
  have hwrite : ∀ c ∈ insertColumns (fields.map schemaColumnSpec), ∃ e,
      Encodes H (companion fields r) c e := by
    intro c hc
    obtain ⟨f, hf, hdesc⟩ := exists_field hins hc
    obtain ⟨c', hc', hdesc'⟩ := exists_partner hd (hsub f hf)
    obtain ⟨v, hv, s, hs, -⟩ := h c' hc'
    rw [hdesc'.unique hdesc] at hv hs
    refine ⟨(c.column, s), rfl, v, ?_, hs⟩
    rw [hdesc.name, get_companion hf, ← hdesc.name]
    exact hv
  obtain ⟨pairs, hpairs⟩ := partners_of_forall hwrite
  have hkeys : (pairs.map Prod.fst).Nodup := by
    rw [encodes_columns H hpairs, rowColumns_eq hins]
    exact hnodup.sublist (filter_sublist.map _)
  refine ⟨rowOfPairs H pairs, except_map_eq_ok.mpr ⟨pairs, (encodePairs_eq_ok H).mpr hpairs, rfl⟩,
    pairs, rowOfPairs_toList H hkeys, ?_⟩
  have hfilter : (fields.map (fieldColumn H.sql)).filter (fun c => !colGenerated c) =
      (insertFields fields).map (fieldColumn H.sql) := by
    unfold insertFields
    rw [filter_map]
    refine congrArg (List.map _) (congrArg (fun p => List.filter p fields) (funext fun f => ?_))
    exact congrArg (!·) (colGenerated_fieldColumn H.sql f)
  rw [hfilter, forall₂_map_left_iff]
  refine partners_trans hins hpairs fun f hf c e hdesc henc => ?_
  obtain ⟨hcol, v, hv, hs⟩ := henc
  obtain ⟨hname, hcolumn, -⟩ := buildColumn_spec H.sql (schemaColumnSpec f)
  rw [hdesc.name, get_companion hf] at hv
  refine ⟨hcol.trans (hdesc.column.trans hcolumn.symm), f, hsub f hf, hname.symm, _, v, ?_, hv, hs⟩
  rw [hdesc.checked]
  exact sqlTypeInstance_column H.sql c.optional c.typeTag

/-! ## The result -/

/-- A derived row and schema agree on a record exactly when its column names are distinct and its
values can be written. -/
theorem derived_rows_agree_iff (H : RowHost F Seed Stream Digest) (decl : TypeDecl)
    {fields : List FieldDecl} (hbody : decl.body = .record fields) {row : List RowColumnSpec}
    (hrow : generateRow decl = .ok row) {schema : SchemaSpec}
    (hschema : generateSchema decl = .ok schema) {r : RecordVal F} (hr : IsRecord fields r) :
    RowAgrees H fields row schema r ↔ RowFits fields r := by
  obtain ⟨fields', hbody', hd⟩ := generateRow_spec hrow
  have hfields : fields' = fields := TypeBody.record.inj (hbody'.symm.trans hbody)
  rw [hfields] at hd
  have hspec : schema.columns = fields.map schemaColumnSpec := by
    rw [generateSchema, hbody] at hschema
    rw [← Except.ok.inj hschema]
  have hschemaCols : (schemaOf H.sql schema).columns = fields.map (fieldColumn H.sql) := by
    rw [schemaOf_columns, hspec, map_map]
    rfl
  constructor
  · intro h
    have hnodup : (fields.map fun f => columnSqlName f.name).Nodup := by
      rw [← rowColumns_eq hd]
      exact h.distinct
    obtain ⟨m, hto, r', hfrom, hsame⟩ := h.roundTrip
    have hkeeps := keeps_of_roundTrip hd hnodup hto hfrom hsame
    refine ⟨hnodup, fun f hf => ?_⟩
    obtain ⟨c, hc, hdesc⟩ := exists_partner hd hf
    exact (columnKeeps_iff hr hf hdesc).mp (hkeeps c hc)
  · intro h
    have hnodup := h.columns
    have hkeeps : ∀ c ∈ row, ColumnKeeps H.sql r c := fun c hc => by
      obtain ⟨f, hf, hdesc⟩ := exists_field hd hc
      exact (columnKeeps_iff hr hf hdesc).mpr (h.writable f hf)
    have hround := roundTrip_of_keeps hd hnodup hr hkeeps
    have hdistinct : (rowColumns row).Nodup := by
      rw [rowColumns_eq hd]
      exact hnodup
    refine ⟨hround, ?_, ?_, hdistinct, ?_, ?_⟩
    · obtain ⟨m, hto, -⟩ := hround
      obtain ⟨pairs, hpairs, -⟩ := except_map_eq_ok.mp hto
      have hcols := encodes_columns H ((encodePairs_eq_ok H).mp hpairs)
      refine ⟨pairs, hpairs, hcols, ?_⟩
      rw [← hcols] at hdistinct ⊢
      exact (rowOfPairs_toList H hdistinct).map _
    · rw [hschemaCols, rowColumns_eq hd, map_map]
      exact map_congr_left fun f _ => (buildColumn_spec H.sql (schemaColumnSpec f)).2.1.symm
    · rw [hspec, hschemaCols]
      exact insert_of_keeps hd hnodup hkeeps
    · rw [hschemaCols, forall₂_map_right_iff, forall₂_same]
      intro f hf
      obtain ⟨c, -, hdesc⟩ := exists_partner hd hf
      exact declaredAs_of_describes H.sql hdesc

omit [DecidableEq Digest] in
/-- There is a host: one float, printed as `1.0`, and the decoder that the grammar describes. -/
theorem exists_rowHost : Nonempty (RowHost Unit Unit Unit Unit) := by
  classical
  have hone : Json.Digits ['1'] := ⟨nofun, fun c hc => by rw [mem_singleton.mp hc]; rfl⟩
  have hzero : Json.Digits ['0'] := ⟨nofun, fun c hc => by rw [mem_singleton.mp hc]; rfl⟩
  let text : FloatText Unit :=
    { print := fun _ => ['1', '.', '0']
      read := fun _ => ()
      printed := fun _ => ⟨false, ['1'], ['.', '0'], [], ⟨hone, nofun⟩, .some hzero, nofun, .none, rfl⟩
      read_print := fun _ => rfl }
  let sql : SqlHost Unit :=
    { text with
      decode := fun t =>
        if h : ∃ w, Json.Document text.read t w then .ok h.choose
        else .error ⟨"decode_error", "invalid"⟩
      sound := fun {t w} h => by
        by_cases hdoc : ∃ w, Json.Document text.read t w
        · rw [dif_pos hdoc] at h
          rw [← Except.ok.inj h]
          exact hdoc.choose_spec
        · rw [dif_neg hdoc] at h
          exact nomatch h
      complete := fun {t w} h => ⟨_, dif_pos ⟨w, h⟩⟩
      timeFromIso := fun _ => .error ⟨"parse_error", "invalid ISO-8601 timestamp"⟩ }
  exact ⟨⟨sql, ⟨fun _ => (), fun _ => (), id, fun m => List.Perm.refl m⟩, fun _ s => s, ()⟩⟩

/-- `{ id: Int, displayName: Option Text }`. -/
def memberFields : List FieldDecl :=
  [⟨"id", .primitive .int⟩, ⟨"displayName", .app "Option" [.primitive .text]⟩]

/-- `{ id = 7, displayName = None }`. -/
def memberSeven : RecordVal Unit := [("id", .scalar (.int 7)), ("displayName", .none)]

theorem isRecord_memberSeven : IsRecord memberFields memberSeven where
  distinct := by decide
  named k := by
    unfold EntryMap.get EntryMap.find memberSeven memberFields
    by_cases hid : k = "id"
    · rw [hid]
      exact iff_of_true rfl ⟨_, mem_cons_self, rfl⟩
    · by_cases hname : k = "displayName"
      · rw [hname]
        exact iff_of_true rfl ⟨_, mem_cons_of_mem _ mem_cons_self, rfl⟩
      · simp [KeyEq.exact, hid, hname, Ne.symm hid, Ne.symm hname]
  typed f hf v hv := by
    rcases mem_cons.mp hf with rfl | hf
    · rw [← Option.some.inj hv]
      rfl
    · rw [mem_singleton.mp hf] at hv ⊢
      rw [← Option.some.inj hv]
      trivial

theorem member_rows_agree : ∃ (H : RowHost Unit Unit Unit Unit) (row : List RowColumnSpec)
    (schema : SchemaSpec), generateRow ⟨"Member", .record memberFields⟩ = .ok row ∧
      generateSchema ⟨"Member", .record memberFields⟩ = .ok schema ∧
      RowAgrees H memberFields row schema memberSeven := by
  obtain ⟨H⟩ := exists_rowHost
  refine ⟨H, _, _, rfl, rfl, (derived_rows_agree_iff H ⟨"Member", .record memberFields⟩ rfl rfl rfl
    isRecord_memberSeven).mpr ?_⟩
  refine ⟨by decide, fun f hf v hv => ?_⟩
  rcases mem_cons.mp hf with rfl | hf
  · rw [← Option.some.inj hv]
    trivial
  · rw [mem_singleton.mp hf] at hv ⊢
    rw [← Option.some.inj hv]
    trivial

/-- `{ userId: Int, user_id: Int }`. -/
def twoKeys : List FieldDecl := [⟨"userId", .primitive .int⟩, ⟨"user_id", .primitive .int⟩]

/-- `{ userId = 1, user_id = 2 }`. -/
def oneAndTwo : RecordVal Unit := [("userId", .scalar (.int 1)), ("user_id", .scalar (.int 2))]

theorem isRecord_oneAndTwo : IsRecord twoKeys oneAndTwo where
  distinct := by decide
  named k := by
    unfold EntryMap.get EntryMap.find oneAndTwo twoKeys
    by_cases hfirst : k = "userId"
    · rw [hfirst]
      exact iff_of_true rfl ⟨_, mem_cons_self, rfl⟩
    · by_cases hsecond : k = "user_id"
      · rw [hsecond]
        exact iff_of_true rfl ⟨_, mem_cons_of_mem _ mem_cons_self, rfl⟩
      · simp [KeyEq.exact, hfirst, hsecond, Ne.symm hfirst, Ne.symm hsecond]
  typed f hf v hv := by
    rcases mem_cons.mp hf with rfl | hf
    · rw [← Option.some.inj hv]
      rfl
    · rw [mem_singleton.mp hf] at hv ⊢
      rw [← Option.some.inj hv]
      rfl

/-- Both fields have the column `user_id`: the row keeps the second value, and is read as it
twice. -/
theorem snake_case_collision : Nonempty (RowHost Unit Unit Unit Unit) ∧
    IsRecord twoKeys oneAndTwo ∧ ∀ H : RowHost Unit Unit Unit Unit, ∃ row schema,
      generateRow ⟨"Pair", .record twoKeys⟩ = .ok row ∧
      generateSchema ⟨"Pair", .record twoKeys⟩ = .ok schema ∧
      rowColumns row = ["user_id", "user_id"] ∧
      (encodePairs H oneAndTwo row).map (EntryMap.ofList (.exact String)) =
        .ok [("user_id", .sqlInt 2)] ∧
      ¬ RowAgrees H twoKeys row schema oneAndTwo := by
  refine ⟨exists_rowHost, isRecord_oneAndTwo, fun H => ⟨_, _, rfl, rfl, rfl, rfl, fun h => ?_⟩⟩
  have hnodup : (["user_id", "user_id"] : List String).Nodup := h.distinct
  exact absurd hnodup (by decide)

end Ridge
