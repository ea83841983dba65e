import Ridge.Entity.RoundTrips
import Ridge.Json.RoundTrip

/-!
# std.sql — the codec class

The instances of `SqlType` (`stdlib/sql.ridge`) over the values a derived row can hold. The host
reads JSON texts and RFC 3339 instants.
-/

namespace Ridge

/-- What the codecs take from the host: `json:decode`, over the printing and reading of floats, and
`calendar:rfc3339_to_system_time`. -/
structure SqlHost (F : Type) extends FloatText F where
  decode : List Char → Except CodecError (Json.Term F)
  sound : ∀ {t w}, decode t = .ok w → Json.Document read t w
  complete : ∀ {t w}, Json.Document read t w → ∃ w', decode t = .ok w'
  timeFromIso : List Char → Except CodecError Int

variable {F : Type}

def SqlHost.jsonDecode (H : SqlHost F) (t : List Char) : Except CodecError (JsonValue F) :=
  (H.decode t).map erlangToJsonValue

/-! ## Values -/

/-- The types with an instance of their own. -/
inductive SqlScalar where
  | int | text | bool | float | timestamp | decimal | uuid | bytes | jsonValue | date | time | duration
  deriving DecidableEq

inductive ScalarVal (F : Type) where
  | int (n : Int)
  | text (s : String)
  | bool (b : Bool)
  | float (x : Float64)
  | timestamp (micros : Int)
  | decimal (d : DecimalTerm)
  | uuid (u : Uuid)
  | bytes (raw : List UInt8)
  | jsonValue (v : JsonValue F)
  | date (days : Int)
  | time (t : TimeOfDay)
  | duration (ms : Int)

def ScalarVal.kind : ScalarVal F → SqlScalar
  | .int _ => .int
  | .text _ => .text
  | .bool _ => .bool
  | .float _ => .float
  | .timestamp _ => .timestamp
  | .decimal _ => .decimal
  | .uuid _ => .uuid
  | .bytes _ => .bytes
  | .jsonValue _ => .jsonValue
  | .date _ => .date
  | .time _ => .time
  | .duration _ => .duration

/-- The value of a record field. -/
inductive RowVal (F : Type) where
  | scalar (v : ScalarVal F)
  | none
  | some (v : RowVal F)
  | list (vs : List (RowVal F))

/-- The types of record fields, as the checker has them: `other` is any type but these. -/
inductive RowTy where
  | scalar (s : SqlScalar)
  | option (t : RowTy)
  | list (t : RowTy)
  | other
  deriving DecidableEq

def RowTy.Has : RowTy → RowVal F → Prop
  | .scalar s, .scalar v => v.kind = s
  | .option _, .none => True
  | .option t, .some v => t.Has v
  | .list t, .list vs => ∀ v ∈ vs, t.Has v
  | _, _ => False

/-- Equality of values. A `JsonValue` is what it denotes: an object that a derived encoder built
from its fields is read back as a map. -/
def ScalarVal.Same : ScalarVal F → ScalarVal F → Prop
  | .jsonValue v, .jsonValue w => v.denotes = w.denotes
  | v, w => v = w

def RowTy.Same : RowTy → RowVal F → RowVal F → Prop
  | .scalar _, .scalar v, .scalar w => v.Same w
  | .option _, .none, .none => True
  | .option t, .some v, .some w => t.Same v w
  | .list t, .list vs, .list ws => List.Forall₂ t.Same vs ws
  | _, _, _ => False

/-- What has a text that reads back: a decimal without a negative scale, a date of the years 0 to
9999, a JSON value without control characters. -/
def ScalarVal.Writable : ScalarVal F → Prop
  | .decimal d => 0 ≤ d.scale
  | .date days => WritableDate days
  | .jsonValue v => v.Clean
  | _ => True

def RowTy.Writable : RowTy → RowVal F → Prop
  | .scalar _, .scalar v => v.Writable
  | .option t, .some v => t.Writable v
  | .list t, .list vs => ∀ v ∈ vs, t.Writable v
  | _, _ => True

/-! ## The instances -/

/-- A dictionary of the class. The witness of `dbType` is ignored. -/
structure SqlType (F : Type) where
  toSql : RowVal F → Except CodecRaise SqlValue
  fromSql : SqlValue → Except CodecError (RowVal F)
  dbType : DbType

variable (H : SqlHost F)

def ScalarVal.toSql : ScalarVal F → Except CodecRaise SqlValue
  | .int n => .ok (.sqlInt n)
  | .text s => .ok (.sqlText s)
  | .bool b => .ok (.sqlBool b)
  | .float x => .ok (.sqlFloat x)
  | .timestamp micros => .ok (.sqlInstant micros)
  | .decimal d => (decimalTermToText d).map fun s => .sqlDecimal (String.ofList s)
  | .uuid u => .ok (.sqlUuid (String.ofList (uuidToText u)))
  | .bytes raw => .ok (.sqlBytes (String.ofList (bytesToHex raw)))
  | .jsonValue v => .ok (.sqlJson (String.ofList (jsonEncode H.toFloatText v)))
  | .date days => (dateToIso days).map fun s => .sqlDate (String.ofList s)
  | .time t => .ok (.sqlTime (String.ofList (todToIso t)))
  | .duration ms => .ok (.sqlInterval ms)

/-- The instances read what they wrote, and the form SQLite keeps the value in. -/
def SqlScalar.fromSql : SqlScalar → SqlValue → Except CodecError (ScalarVal F)
  | .int, .sqlInt n => .ok (.int n)
  | .int, _ => .error ⟨"sql.decode.int", "expected a SQL integer"⟩
  | .text, .sqlText s => .ok (.text s)
  | .text, _ => .error ⟨"sql.decode.text", "expected a SQL text value"⟩
  | .bool, .sqlBool b => .ok (.bool b)
  | .bool, .sqlInt 1 => .ok (.bool true)
  | .bool, .sqlInt 0 => .ok (.bool false)
  | .bool, _ => .error ⟨"sql.decode.bool", "expected a SQL boolean"⟩
  | .float, .sqlFloat x => .ok (.float x)
  | .float, _ => .error ⟨"sql.decode.float", "expected a SQL float"⟩
  | .timestamp, .sqlInstant n => .ok (.timestamp n)
  | .timestamp, .sqlText s => (H.timeFromIso s.toList).map .timestamp
  | .timestamp, _ => .error ⟨"sql.decode.timestamp", "expected a SQL instant"⟩
  | .decimal, .sqlDecimal s => (decimalFromText s.toList).map .decimal
  | .decimal, .sqlText s => (decimalFromText s.toList).map .decimal
  | .decimal, _ => .error ⟨"sql.decode.decimal", "expected a SQL decimal"⟩
  | .uuid, .sqlUuid s => (uuidFromText s.toList).map .uuid
  | .uuid, .sqlText s => (uuidFromText s.toList).map .uuid
  | .uuid, _ => .error ⟨"sql.decode.uuid", "expected a SQL uuid"⟩
  | .bytes, .sqlBytes s => (bytesFromHex s.toList).map .bytes
  | .bytes, _ => .error ⟨"sql.decode.bytes", "expected a SQL byte string"⟩
  | .jsonValue, .sqlJson s => (H.jsonDecode s.toList).map .jsonValue
  | .jsonValue, .sqlText s => (H.jsonDecode s.toList).map .jsonValue
  | .jsonValue, _ => .error ⟨"sql.decode.json", "expected a SQL json value"⟩
  | .date, .sqlDate s => (dateFromIso s.toList).map .date
  | .date, .sqlText s => (dateFromIso s.toList).map .date
  | .date, _ => .error ⟨"sql.decode.date", "expected a SQL date"⟩
  | .time, .sqlTime s => (todFromIso s.toList).map .time
  | .time, .sqlText s => (todFromIso s.toList).map .time
  | .time, _ => .error ⟨"sql.decode.time", "expected a SQL time"⟩
  | .duration, .sqlInterval n => .ok (.duration n)
  | .duration, .sqlInt n => .ok (.duration n)
  | .duration, _ => .error ⟨"sql.decode.interval", "expected a SQL interval"⟩

def SqlScalar.dbType : SqlScalar → DbType
  | .int => .dbBigInt
  | .text => .dbText
  | .bool => .dbBoolean
  | .float => .dbFloat
  | .timestamp => .dbTimestampTz
  | .decimal => .dbRaw "numeric"
  | .uuid => .dbUuid
  | .bytes => .dbBytes
  | .jsonValue => .dbJsonb
  | .date => .dbDate
  | .time => .dbTime
  | .duration => .dbInterval

/-- `$inst_SqlType_{Type}` of a base type. A value of another type has not the shape it takes
apart. -/
def instSqlTypeScalar (s : SqlScalar) : SqlType F where
  toSql
    | .scalar v => if v.kind = s then v.toSql H else .error .badMatch
    | _ => .error .badMatch
  fromSql v := (s.fromSql H v).map .scalar
  dbType := s.dbType

/-- `SqlType (Option a)`: a nullable column. -/
def instSqlTypeOption (d : SqlType F) : SqlType F where
  toSql
    | .none => .ok .sqlNull
    | .some v => d.toSql v
    | _ => .error .badMatch
  fromSql
    | .sqlNull => .ok .none
    | v => (d.fromSql v).map .some
  dbType := d.dbType

def listToSqlValues (d : SqlType F) : List (RowVal F) → Except CodecRaise (List SqlValue)
  | [] => .ok []
  | x :: rest => do
    let v ← d.toSql x
    let vs ← listToSqlValues d rest
    pure (v :: vs)

def sqlValuesToList (d : SqlType F) : List SqlValue → Except CodecError (List (RowVal F))
  | [] => .ok []
  | v :: rest => do
    let x ← d.fromSql v
    let xs ← sqlValuesToList d rest
    pure (x :: xs)

/-- `SqlType (List a)`: an array column. -/
def instSqlTypeList (d : SqlType F) : SqlType F where
  toSql
    | .list vs => (listToSqlValues d vs).map .sqlArray
    | _ => .error .badMatch
  fromSql
    | .sqlArray vs => (sqlValuesToList d vs).map .list
    | _ => .error ⟨"sql.decode.array", "expected a SQL array"⟩
  dbType := .dbArray d.dbType

def sqlTypeInstance : RowTy → Option (SqlType F)
  | .scalar s => some (instSqlTypeScalar H s)
  | .option t => (sqlTypeInstance t).map instSqlTypeOption
  | .list t => (sqlTypeInstance t).map instSqlTypeList
  | .other => none

/-!
## What the codecs keep

A value comes back from its column exactly when it is writable, and only an absent value is
written as NULL.
-/

open Except

/-- A value is written, and what is written reads back as the value. -/
def SqlType.RoundTrips (d : SqlType F) (t : RowTy) (v : RowVal F) : Prop :=
  ∃ s, d.toSql v = .ok s ∧ ∃ w, d.fromSql s = .ok w ∧ t.Same w v

/-- The instance serves the type: it keeps the writable values, and no other. -/
structure SqlType.Serves (d : SqlType F) (t : RowTy) : Prop where
  keeps : ∀ v, t.Has v → (d.RoundTrips t v ↔ t.Writable v)
  neverNull : ∀ v, d.toSql v ≠ .ok .sqlNull

variable {ε α β : Type}

theorem except_map_eq_ok {f : α → β} {x : Except ε α} {b : β} :
    x.map f = .ok b ↔ ∃ a, x = .ok a ∧ f a = b := by
  cases x with
  | error e => exact ⟨fun h => (nomatch h), fun ⟨_, h, _⟩ => (nomatch h)⟩
  | ok a => exact ⟨fun h => ⟨a, rfl, ok.inj h⟩, fun ⟨_, h, heq⟩ => by
    rw [← ok.inj h] at heq
    exact congrArg Except.ok heq⟩

theorem except_bind_eq_ok {x : Except ε α} {f : α → Except ε β} {b : β} :
    x >>= f = .ok b ↔ ∃ a, x = .ok a ∧ f a = .ok b := by
  cases x with
  | error e => exact ⟨fun h => (nomatch h), fun ⟨_, h, _⟩ => (nomatch h)⟩
  | ok a => exact ⟨fun h => ⟨a, rfl, h⟩, fun ⟨_, h, heq⟩ => by rwa [← ok.inj h] at heq⟩

/-! ## Base types -/

theorem jsonDecode_encode (v : JsonValue F) :
    (∃ w, H.jsonDecode (jsonEncode H.toFloatText v) = .ok w ∧ w.denotes = v.denotes) ↔ v.Clean := by
  constructor
  · rintro ⟨w, hw, -⟩
    obtain ⟨term, hterm, -⟩ := except_map_eq_ok.mp hw
    exact ((document_iff H.toFloatText v term).mp (H.sound hterm)).1
  · intro hclean
    obtain ⟨term, hterm⟩ := H.complete ((document_iff H.toFloatText v _).mpr ⟨hclean, rfl⟩)
    have hvalue := ((document_iff H.toFloatText v term).mp (H.sound hterm)).2
    refine ⟨erlangToJsonValue term, except_map_eq_ok.mpr ⟨term, hterm, rfl⟩, ?_⟩
    rw [hvalue, JsonValue.denotes_erlangToJsonValue]

/-- A scalar that reads back from its own text. -/
theorem scalar_keeps (v : ScalarVal F) :
    (∃ s, v.toSql H = .ok s ∧ ∃ w : ScalarVal F, v.kind.fromSql H s = .ok w ∧ w.Same v) ↔
      v.Writable := by
  have hself : ∀ {s : SqlValue} {w : ScalarVal F}, w.toSql H = .ok s →
      w.kind.fromSql H s = .ok w → w.Same w →
      ∃ s, w.toSql H = .ok s ∧ ∃ w' : ScalarVal F, w.kind.fromSql H s = .ok w' ∧ w'.Same w :=
    fun hto hfrom hsame => ⟨_, hto, _, hfrom, hsame⟩
  cases v with
  | int n | text s | bool b | float x | timestamp n
  | duration n => exact iff_of_true (hself rfl rfl rfl) trivial
  | uuid u =>
    refine iff_of_true (hself rfl ?_ rfl) trivial
    show (uuidFromText (String.ofList (uuidToText u)).toList).map ScalarVal.uuid = _
    rw [String.toList_ofList, uuidFromText_toText]
    rfl
  | bytes raw =>
    refine iff_of_true (hself rfl ?_ rfl) trivial
    show (bytesFromHex (String.ofList (bytesToHex raw)).toList).map ScalarVal.bytes = _
    rw [String.toList_ofList, bytesFromHex_toHex]
    rfl
  | time t =>
    refine iff_of_true (hself rfl ?_ rfl) trivial
    show (todFromIso (String.ofList (todToIso t)).toList).map ScalarVal.time = _
    rw [String.toList_ofList, todFromIso_toIso]
    rfl
  | decimal d =>
    constructor
    · rintro ⟨s, hs, -⟩
      obtain ⟨text, htext, -⟩ := except_map_eq_ok.mp hs
      unfold decimalTermToText at htext
      split at htext
      · exact nomatch htext
      · exact Int.not_lt.mp ‹_›
    · intro hscale
      obtain ⟨text, hto, hfrom⟩ := decimalTermToText_ok hscale
      refine hself (except_map_eq_ok.mpr ⟨text, hto, rfl⟩) ?_ rfl
      show (decimalFromText (String.ofList text).toList).map ScalarVal.decimal = _
      rw [String.toList_ofList, hfrom]
      rfl
  | date days =>
    constructor
    · rintro ⟨s, hs, w, hw, -⟩
      obtain ⟨text, htext, rfl⟩ := except_map_eq_ok.mp hs
      by_contra hdate
      obtain ⟨e, he⟩ := dateToIso_bad hdate htext
      have hread : (dateFromIso (String.ofList text).toList).map ScalarVal.date = .ok w := hw
      rw [String.toList_ofList, he] at hread
      exact nomatch hread
    · intro hdate
      obtain ⟨text, hto, hfrom⟩ := dateToIso_ok hdate
      refine hself (except_map_eq_ok.mpr ⟨text, hto, rfl⟩) ?_ rfl
      show (dateFromIso (String.ofList text).toList).map ScalarVal.date = _
      rw [String.toList_ofList, hfrom]
      rfl
  | jsonValue v =>
    have hread : ∀ w : ScalarVal F, SqlScalar.fromSql H .jsonValue
        (.sqlJson (String.ofList (jsonEncode H.toFloatText v))) = .ok w ↔
        ∃ x, H.jsonDecode (jsonEncode H.toFloatText v) = .ok x ∧ .jsonValue x = w := by
      intro w
      show (H.jsonDecode (String.ofList _).toList).map ScalarVal.jsonValue = .ok w ↔ _
      rw [String.toList_ofList]
      exact except_map_eq_ok
    refine Iff.trans ?_ (jsonDecode_encode H v)
    constructor
    · rintro ⟨s, hs, w, hw, hsame⟩
      rw [← ok.inj hs] at hw
      obtain ⟨x, hx, rfl⟩ := (hread w).mp hw
      exact ⟨x, hx, hsame⟩
    · rintro ⟨x, hx, hsame⟩
      exact ⟨_, rfl, _, (hread _).mpr ⟨x, hx, rfl⟩, hsame⟩

theorem scalar_not_null (v : ScalarVal F) : v.toSql H ≠ .ok .sqlNull := by
  intro h
  cases v with
  | decimal d | date days =>
    obtain ⟨_, -, htext⟩ := except_map_eq_ok.mp h
    exact nomatch htext
  | _ => exact nomatch h

theorem serves_scalar (s : SqlScalar) : (instSqlTypeScalar H s).Serves (.scalar s) where
  keeps v hv := by
    cases v with
    | scalar v =>
      have hkind : v.kind = s := hv
      subst hkind
      refine Iff.trans ?_ (scalar_keeps H v)
      have hto : (instSqlTypeScalar H v.kind).toSql (.scalar v) = v.toSql H := if_pos rfl
      unfold SqlType.RoundTrips
      rw [hto]
      constructor
      · rintro ⟨x, hx, w, hw, hsame⟩
        obtain ⟨y, hy, rfl⟩ := except_map_eq_ok.mp hw
        exact ⟨x, hx, y, hy, hsame⟩
      · rintro ⟨x, hx, y, hy, hsame⟩
        exact ⟨x, hx, _, except_map_eq_ok.mpr ⟨y, hy, rfl⟩, hsame⟩
    | none | some v | list vs => exact hv.elim
  neverNull v h := by
    cases v with
    | scalar v =>
      have hto : (if v.kind = s then v.toSql H else .error .badMatch) = .ok .sqlNull := h
      split at hto
      · exact scalar_not_null H v hto
      · exact nomatch hto
    | none | some v | list vs => exact nomatch h

/-! ## Lists and options -/

variable {H}

variable {d : SqlType F}

variable {t : RowTy}

theorem list_keeps (hd : d.Serves t) {vs : List (RowVal F)} (hvs : ∀ v ∈ vs, t.Has v) :
    (∃ ss, listToSqlValues d vs = .ok ss ∧ ∃ ws, sqlValuesToList d ss = .ok ws ∧
      List.Forall₂ t.Same ws vs) ↔ ∀ v ∈ vs, t.Writable v := by
  induction vs with
  | nil => exact iff_of_true ⟨[], rfl, [], rfl, .nil⟩ nofun
  | cons v vs ih =>
    have hone := hd.keeps v (hvs v List.mem_cons_self)
    have hrest := ih fun x hx => hvs x (List.mem_cons_of_mem v hx)
    rw [List.forall_mem_cons, ← hone, ← hrest]
    constructor
    · rintro ⟨ss, hss, ws, hws, hsame⟩
      obtain ⟨s, hs, hss⟩ := except_bind_eq_ok.mp hss
      obtain ⟨ss', hss', heq⟩ := except_bind_eq_ok.mp hss
      rw [← ok.inj heq] at hws
      obtain ⟨w, hw, hws⟩ := except_bind_eq_ok.mp hws
      obtain ⟨ws', hws', heq⟩ := except_bind_eq_ok.mp hws
      rw [← ok.inj heq] at hsame
      obtain ⟨hhead, htail⟩ := List.forall₂_cons.mp hsame
      exact ⟨⟨s, hs, w, hw, hhead⟩, ss', hss', ws', hws', htail⟩
    · rintro ⟨⟨s, hs, w, hw, hhead⟩, ss, hss, ws, hws, htail⟩
      refine ⟨s :: ss, except_bind_eq_ok.mpr ⟨s, hs, except_bind_eq_ok.mpr ⟨ss, hss, rfl⟩⟩,
        w :: ws, ?_, .cons hhead htail⟩
      exact except_bind_eq_ok.mpr ⟨w, hw, except_bind_eq_ok.mpr ⟨ws, hws, rfl⟩⟩

theorem serves_list (hd : d.Serves t) :
    (instSqlTypeList d).Serves (.list t) where
  keeps v hv := by
    cases v with
    | list vs =>
      refine Iff.trans ?_ (list_keeps hd hv)
      constructor
      · rintro ⟨s, hs, w, hw, hsame⟩
        obtain ⟨ss, hss, rfl⟩ := except_map_eq_ok.mp hs
        obtain ⟨ws, hws, rfl⟩ := except_map_eq_ok.mp hw
        exact ⟨ss, hss, ws, hws, hsame⟩
      · rintro ⟨ss, hss, ws, hws, hsame⟩
        exact ⟨_, except_map_eq_ok.mpr ⟨ss, hss, rfl⟩, _, except_map_eq_ok.mpr ⟨ws, hws, rfl⟩, hsame⟩
    | scalar v | none | some v => exact hv.elim
  neverNull v h := by
    cases v with
    | list vs =>
      obtain ⟨_, -, hnull⟩ := except_map_eq_ok.mp h
      exact nomatch hnull
    | scalar v | none | some v => exact nomatch h

theorem option_fromSql {s : SqlValue} (h : s ≠ .sqlNull) :
    (instSqlTypeOption d).fromSql s = (d.fromSql s).map .some := by
  cases s with
  | sqlNull => exact absurd rfl h
  | _ => rfl

/-- An absent value is NULL, and NULL is no present value. -/
theorem option_keeps (hd : d.Serves t) {v : RowVal F} (hv : (RowTy.option t).Has v) :
    (instSqlTypeOption d).RoundTrips (.option t) v ↔ (RowTy.option t).Writable v := by
  cases v with
  | none => exact iff_of_true ⟨.sqlNull, rfl, .none, rfl, trivial⟩ trivial
  | some v =>
    refine Iff.trans ?_ (hd.keeps v hv)
    constructor
    · rintro ⟨s, hs, w, hw, hsame⟩
      have hnull : s ≠ .sqlNull := fun heq => hd.neverNull v (by rw [← heq]; exact hs)
      rw [option_fromSql hnull] at hw
      obtain ⟨w', hw', rfl⟩ := except_map_eq_ok.mp hw
      exact ⟨s, hs, w', hw', hsame⟩
    · rintro ⟨s, hs, w, hw, hsame⟩
      have hnull : s ≠ .sqlNull := fun heq => hd.neverNull v (by rw [← heq]; exact hs)
      refine ⟨s, hs, .some w, ?_, hsame⟩
      rw [option_fromSql hnull]
      exact except_map_eq_ok.mpr ⟨w, hw, rfl⟩
  | scalar v | list vs => exact hv.elim

end Ridge
