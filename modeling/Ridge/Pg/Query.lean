import Ridge.Pg.Socket

/-!
# Requests of a Postgres connection

`runtime/ridge_pg.erl`, the connection process and the extended-protocol round trips. What the
server answers to a `Sync` is a parameter of the round trip: any messages, with one `ReadyForQuery`
at their end.
-/

namespace Ridge

/-- The functions on values that the driver calls: `param_text`, `decode_value` and the maps of rows
and names. Those that may raise answer nothing then. -/
structure PgCodec (P V R : Type) where
  paramText : P → Option Binary
  decodeValue : Nat → Binary → Option V
  sqlNull : V
  typedTextMapFromList : List (Binary × V) → R
  migrationName : R → Binary

/-! ## The server -/

/-- The reply to one `Sync`. -/
structure PgReply where
  body : List Frame
  ready : Frame
  isReady : ready.isReady = true
  noReady : ∀ m ∈ body, m.isReady = false
  fits : ∀ m ∈ body ++ [ready], m.Fits

def PgReply.messages (r : PgReply) : List Frame := r.body ++ [r.ready]

/-- What a round trip meets: the reply, and why its socket operations fail, those that do. -/
structure PgTrip where
  reply : PgReply
  fate : Nat → Option Binary

/-! ## Writing a request -/

section Codec

variable {P V R : Type} (K : PgCodec P V R)

def encodeParam (v : P) : Option Binary :=
  (K.paramText v).map fun bin => bigEndian 4 bin.length ++ bin

def buildBind (binds : List P) : Option Binary :=
  (binds.mapM (encodeParam K)).map fun params =>
    [0, 0] ++ bigEndian 2 0 ++ bigEndian 2 binds.length ++ params.flatten ++ bigEndian 2 0

/-- `send_extended`. The parameters are encoded after the first message is sent. -/
def sendExtended (sql : Binary) (binds : List P) : PgM Unit :=
  Early.bind (sendMsg 'P' ([0] ++ sql ++ [0] ++ bigEndian 2 0)) fun _ =>
    match buildBind K binds with
    | none => Early.leave .crash
    | some bound =>
      Early.bind (sendMsg 'B' bound) fun _ =>
      Early.bind (sendMsg 'D' ['P'.toUInt8, 0]) fun _ =>
      Early.bind (sendMsg 'E' ([0] ++ bigEndian 4 0)) fun _ => sendMsg 'S' []

/-! ## Reading a reply -/

/-- A loop over `recv_msg` that ends at `ReadyForQuery`; without a next state it raises. -/
def collect {S : Type} (step : S → Frame → Option S) (s : S) (c : PgConn) :
    Except PgStop S × PgConn :=
  match _h : recvMsg c with
  | (.error stop, c') => (.error stop, c')
  | (.ok m, c') =>
    if m.isReady then (.ok s, c')
    else
      match step s m with
      | none => (.error .crash, c')
      | some s' => collect step s' c'
termination_by c.unread.length
decreasing_by exact recvMsg_shorter _h

def takeBytes (n : Nat) (bin : Binary) : Option (Binary × Binary) :=
  if n ≤ bin.length then some (bin.take n, bin.drop n) else none

/-- The type's OID stands behind the name, six bytes in. -/
def decodeFields : Nat → Binary → Option (List (Binary × Nat))
  | 0, _ => some []
  | n + 1, bin => do
    let (name, rest) := readCstring bin
    let (attributes, rest) ← takeBytes 18 rest
    let fields ← decodeFields n rest
    pure ((name, ofBigEndian ((attributes.drop 6).take 4)) :: fields)

def decodeRowDesc (payload : Binary) : Option (List (Binary × Nat)) := do
  let (count, rest) ← takeBytes 2 payload
  decodeFields (ofBigEndian count) rest

/-- A length of all ones is a null. -/
def decodeCols : Nat → Binary → Option (List (Option Binary))
  | 0, _ => some []
  | n + 1, bin => do
    let (header, rest) ← takeBytes 4 bin
    if ofBigEndian header = 0xFFFFFFFF then
      let vals ← decodeCols n rest
      pure (none :: vals)
    else
      let (val, rest) ← takeBytes (ofBigEndian header) rest
      let vals ← decodeCols n rest
      pure (some val :: vals)

def decodeCell (oid : Nat) : Option Binary → Option V
  | none => some K.sqlNull
  | some val => K.decodeValue oid val

/-- `lists:zipwith` raises on lists of different lengths. -/
def zipCells : List (Binary × Nat) → List (Option Binary) → Option (List (Binary × V))
  | [], [] => some []
  | (name, oid) :: cols, val :: vals => do
    let cell ← decodeCell K oid val
    let cells ← zipCells cols vals
    pure ((name, cell) :: cells)
  | _, _ => none

def decodeDataRow (payload : Binary) (cols : List (Binary × Nat)) : Option R := do
  let (count, rest) ← takeBytes 2 payload
  let vals ← decodeCols (ofBigEndian count) rest
  let cells ← zipCells K cols vals
  pure (K.typedTextMapFromList cells)

def rowsStep (s : List (Binary × Nat) × List R) (m : Frame) :
    Option (List (Binary × Nat) × List R) :=
  if m.tag = 'T'.toUInt8 then (decodeRowDesc m.payload).map fun cols => (cols, s.2)
  else if m.tag = 'D'.toUInt8 then (decodeDataRow K m.payload s.1).map fun row => (s.1, row :: s.2)
  else some s

def collectRows (cols : List (Binary × Nat)) (acc : List R) : PgM (List R) :=
  Early.bind (collect (rowsStep K) (cols, acc)) fun s => Early.pure s.2.reverse

def execStep (tag : Binary) (m : Frame) : Option Binary :=
  if m.tag = 'C'.toUInt8 then some (readCstring m.payload).1 else some tag

/-- Digits, with a sign or not. -/
def binaryToInteger (bin : Binary) : Option Int :=
  let isDigit := fun b : UInt8 => decide (48 ≤ b ∧ b ≤ 57)
  let value := fun digits : Binary =>
    if digits ≠ [] ∧ digits.all isDigit then
      some (digits.foldl (fun n b => n * 10 + (b.toNat - 48)) 0)
    else none
  match bin with
  | 43 :: digits => (value digits).map Int.ofNat
  | 45 :: digits => (value digits).map fun n => -(Int.ofNat n)
  | digits => (value digits).map Int.ofNat

def safeInt (bin : Binary) : Int := (binaryToInteger bin).getD 0

def parseAffected (tag : Binary) : Int :=
  match (binary "DELETE ").isPrefixOf tag, (binary "UPDATE ").isPrefixOf tag,
    (binary "INSERT ").isPrefixOf tag with
  | true, _, _ => safeInt (tag.drop 7)
  | _, true, _ => safeInt (tag.drop 7)
  | _, _, true =>
    -- The OID, a blank and the count.
    match (tag.drop 7).dropWhile (· != 32) with
    | _ :: count => safeInt count
    | [] => 0
  | _, _, _ => 0

def collectExec (tag : Binary) : PgM Int :=
  Early.bind (collect execStep tag) fun tag => Early.pure (parseAffected tag)

/-! ## Round trips -/

/-- The `try` of `run_query` and `run_exec`. With the last message of the request the server's reply
is on its way. -/
def roundTrip {A : Type} (trip : PgTrip) (sql : Binary) (binds : List P) (answer : PgM A) :
    PgM (Except PgError A) := fun c =>
  let request := Early.bind (sendExtended K sql binds) fun _ =>
    Early.bind (Early.modify fun c =>
      { c with unread := c.unread ++ Frame.stream trip.reply.messages }) fun _ => answer
  match request { c with fate := trip.fate } with
  | (.ok a, c') => (.ok (.ok a), c')
  | (.error (.pgError e), c') => (.ok (.error e), drainUntilReady c')
  | (.error stop, c') => (.error stop, c')

def runQuery (trip : PgTrip) (sql : Binary) (binds : List P) : PgM (Except PgError (List R)) :=
  roundTrip K trip sql binds (collectRows K [] [])

def runExec (trip : PgTrip) (sql : Binary) (binds : List P) : PgM (Except PgError Int) :=
  roundTrip K trip sql binds (collectExec [])

/-! ## Verbs -/

inductive PgVerb (P : Type) where
  | ping
  | tx (sql : Binary)
  | rawQuery (sql : Binary) (params : List P)
  | rawExec (sql : Binary) (params : List P)
  | migrationsInit
  | all (table : Binary)
  | getRows (table column : Binary) (key : P)

inductive PgValue (R : Type) where
  | rows (rows : List R)
  | count (n : Int)
  | names (names : List Binary)

/-- A quote in the name is doubled. -/
def pgQuoteIdent (name : Binary) : Binary :=
  [34] ++ name.flatMap (fun b => if b = 34 then [34, 34] else [b]) ++ [34]

def migrationsTable : Binary := pgQuoteIdent (binary "_ridge_migrations")

def createMigrationsSql : Binary :=
  binary "CREATE TABLE IF NOT EXISTS " ++ migrationsTable ++ binary " (" ++
    pgQuoteIdent (binary "name") ++ binary " text PRIMARY KEY, " ++
    pgQuoteIdent (binary "applied_at") ++ binary " timestamptz NOT NULL DEFAULT now())"

def selectMigrationsSql : Binary :=
  binary "SELECT " ++ pgQuoteIdent (binary "name") ++ binary " FROM " ++ migrationsTable ++
    binary " ORDER BY " ++ pgQuoteIdent (binary "name")

/-- `run_verb`, with what its round trips meet. -/
def runVerb (trips : Nat → PgTrip) : PgVerb P → PgM (Except PgError (PgValue R))
  | .ping => rows (runQuery K (trips 0) (binary "SELECT 1") [])
  | .tx sql => count (runExec K (trips 0) sql [])
  | .rawQuery sql params => rows (runQuery K (trips 0) sql params)
  | .rawExec sql params => count (runExec K (trips 0) sql params)
  | .migrationsInit =>
    Early.bind (runExec K (trips 0) createMigrationsSql []) fun
      | .error e => Early.pure (.error e)
      | .ok _ =>
        Early.bind (runQuery K (trips 1) selectMigrationsSql []) fun found =>
          Early.pure (found.map fun rows => .names (rows.map K.migrationName))
  | .all table => rows (runQuery K (trips 0) (binary "SELECT * FROM " ++ pgQuoteIdent table) [])
  | .getRows table column key =>
    rows (runQuery K (trips 0)
      (binary "SELECT * FROM " ++ pgQuoteIdent table ++ binary " WHERE " ++ pgQuoteIdent column ++
        binary " = $1") [key])
where
  rows (m : PgM (Except PgError (List R))) : PgM (Except PgError (PgValue R)) :=
    Early.bind m fun found => Early.pure (found.map .rows)
  count (m : PgM (Except PgError Int)) : PgM (Except PgError (PgValue R)) :=
    Early.bind m fun found => Early.pure (found.map .count)

/-! ## The process -/

/-- A request, with what its round trips meet. -/
structure PgRequest (P : Type) where
  verb : PgVerb P
  trips : Nat → PgTrip

/-- The connection process: its socket, and whether it is still there. -/
structure PgProcess where
  conn : PgConn
  alive : Bool

/-- One turn of `pg_conn_loop`, with the reply it sends. After a transport fault the process ends; an
error that it does not catch ends it too, without a reply. -/
def PgProcess.handle (r : PgRequest P) (p : PgProcess) :
    Option (Except PgError (PgValue R)) × PgProcess :=
  if p.alive then
    match runVerb K r.trips r.verb p.conn with
    | (.ok reply, c) => (some reply, ⟨c, true⟩)
    | (.error (.pgFatal e), c) => (some (.error e), ⟨c, false⟩)
    | (.error _, c) => (none, ⟨c, false⟩)
  else (none, p)

def PgProcess.run (rs : List (PgRequest P)) (p : PgProcess) : PgProcess :=
  rs.foldl (fun p r => (p.handle K r).2) p

/-- Without a reply the caller's time is up. -/
def workerRequest (reply : Option (Except PgError (PgValue R))) : Except PgError (PgValue R) :=
  reply.getD (.error ⟨binary "db.timeout", binary "postgres request timed out", none, none, none⟩)

end Codec

/-!
## Reading in step

What each loop does with a stream of framed messages, by whether one of its reads fails. A read that
fails takes nothing, so the loops stay in step with the frames as long as they go on reading.
-/

open List Early Frame

/-! ## Consuming a part of the stream -/

/-- A message without a payload takes one read. -/
def Frame.reads (m : Frame) : Nat := if m.payload = [] then 1 else 2

def readsOf (ms : List Frame) : Nat := (ms.map Frame.reads).sum

@[simp] theorem readsOf_nil : readsOf [] = 0 := rfl

@[simp] theorem readsOf_cons (m : Frame) (ms : List Frame) :
    readsOf (m :: ms) = m.reads + readsOf ms := sum_cons

/-- None of the next `n` operations fails. -/
def PgClear (fate : Nat → Option Binary) (n : Nat) : Prop := ∀ i < n, fate i = none

theorem pgClear_add {fate : Nat → Option Binary} {m n : Nat} :
    PgClear fate (m + n) ↔ PgClear fate m ∧ PgClear (fun i => fate (m + i)) n := by
  constructor
  · intro h
    exact ⟨fun i hi => h i (by omega), fun i hi => h (m + i) (by omega)⟩
  · rintro ⟨hm, hn⟩ i hi
    by_cases him : i < m
    · exact hm i him
    · have hrest : fate (m + (i - m)) = none := hn (i - m) (by omega)
      rwa [show m + (i - m) = i by omega] at hrest

/-- How a process ends: a throw that `run_query` and `run_exec` do not catch, or another error. -/
def PgStop.Ends : PgStop → Prop
  | pgError _ => False
  | _ => True

namespace PgConn

/-- After `n` reads that leave `rest`. -/
def consumed (c : PgConn) (n : Nat) (rest : Binary) : PgConn := { c.after n with unread := rest }

variable (c : PgConn) (m n : Nat) (rest rest' : Binary)

@[simp] theorem consumed_unread : (c.consumed n rest).unread = rest := rfl

@[simp] theorem consumed_faulty : (c.consumed n rest).faulty = c.faulty := rfl

@[simp] theorem consumed_fate (i : Nat) : (c.consumed n rest).fate i = c.fate (n + i) := rfl

@[simp] theorem consumed_consumed :
    (c.consumed m rest).consumed n rest' = c.consumed (m + n) rest' := by
  show PgConn.mk rest' c.sent (fun i => c.fate (m + (n + i))) c.faulty
    = PgConn.mk rest' c.sent (fun i => c.fate (m + n + i)) c.faulty
  simp only [Nat.add_assoc]

end PgConn

/-! ## One message -/

section Message

variable {c : PgConn} {n : Int} {m : Frame} {rest : Binary}

theorem xrecv_clear (hfate : c.fate 0 = none) (hn : 0 ≤ n) (hle : n ≤ c.unread.length) :
    xrecv n c = (.ok (c.unread.take n.toNat), c.consumed 1 (c.unread.drop n.toNat)) := by
  unfold xrecv
  rw [hfate]
  exact if_pos ⟨hn, hle⟩

theorem xrecv_fails (hfate : c.fate 0 ≠ none) :
    ∃ e, xrecv n c = (.error (.pgFatal e), { c.after 1 with faulty := true }) := by
  obtain ⟨reason, hreason⟩ := Option.ne_none_iff_exists'.mp hfate
  refine ⟨connError "db.conn.recv" reason, ?_⟩
  unfold xrecv
  rw [hreason]

theorem xrecv_header (hfate : c.fate 0 = none) (hunread : c.unread = m.bytes ++ rest) :
    xrecv 5 c = (.ok (m.tag :: bigEndian 4 (m.payload.length + 4)),
      c.consumed 1 (m.payload ++ rest)) := by
  have hle := m.header_le rest
  rw [xrecv_clear hfate (by decide) (by rw [hunread]; exact Int.ofNat_le.mpr hle), hunread]
  exact congrArg₂ (fun data tail => (Except.ok data, c.consumed 1 tail)) (m.take_header rest)
    (m.drop_header rest)

theorem readRawMsg_of_header {tag : UInt8} {len : Binary} {c₁ : PgConn} {k : Nat}
    (hheader : xrecv 5 c = (.ok (tag :: len), c₁)) (hlen : ofBigEndian len = k + 4) :
    readRawMsg c = (if (k : Int) = 0 then Early.pure ⟨tag, []⟩
      else Early.bind (xrecv k) fun payload => Early.pure ⟨tag, payload⟩ : PgM Frame) c₁ := by
  have hk : (ofBigEndian len : Int) - 4 = k := by omega
  unfold readRawMsg
  rw [bind_of_ok hheader, ← hk]
  rfl

theorem readRawMsg_clear (hfits : m.Fits) (hunread : c.unread = m.bytes ++ rest)
    (hclear : PgClear c.fate m.reads) : readRawMsg c = (.ok m, c.consumed m.reads rest) := by
  have hfirst : c.fate 0 = none := hclear 0 (by
    unfold Frame.reads
    split <;> omega)
  rw [readRawMsg_of_header (xrecv_header hfirst hunread) (ofBigEndian_header hfits)]
  by_cases hempty : m.payload = []
  · rw [if_pos (by rw [hempty]; rfl), Frame.reads, if_pos hempty, hempty]
    show (Except.ok (Frame.mk m.tag []), c.consumed 1 rest) = _
    rw [← hempty]
  · have hpos := length_pos_iff.mpr hempty
    have hreads : m.reads = 2 := if_neg hempty
    have hsecond : (c.consumed 1 (m.payload ++ rest)).fate 0 = none := hclear 1 (by omega)
    have hpayload : xrecv (m.payload.length : Int) (c.consumed 1 (m.payload ++ rest))
        = (.ok m.payload, c.consumed 2 rest) := by
      rw [xrecv_clear hsecond (by omega) (by
        show (m.payload.length : Int) ≤ ((m.payload ++ rest).length : Nat)
        rw [length_append]
        omega)]
      show (Except.ok ((m.payload ++ rest).take m.payload.length),
        (c.consumed 1 (m.payload ++ rest)).consumed 1 ((m.payload ++ rest).drop m.payload.length)) = _
      rw [take_left, drop_left, PgConn.consumed_consumed]
    rw [if_neg (by omega), hreads]
    exact bind_of_ok hpayload

theorem readRawMsg_fails (hfits : m.Fits) (hunread : c.unread = m.bytes ++ rest)
    (hclear : ¬ PgClear c.fate m.reads) :
    ∃ e c', readRawMsg c = (.error (.pgFatal e), c') ∧ c'.faulty = true := by
  by_cases hfirst : c.fate 0 = none
  · rw [readRawMsg_of_header (xrecv_header hfirst hunread) (ofBigEndian_header hfits)]
    have hempty : m.payload ≠ [] := fun hempty => hclear fun i hi => by
      rw [Frame.reads, if_pos hempty] at hi
      obtain rfl : i = 0 := by omega
      exact hfirst
    have hpos := length_pos_iff.mpr hempty
    have hsecond : (c.consumed 1 (m.payload ++ rest)).fate 0 ≠ none := fun hsecond =>
      hclear fun i hi => by
        rw [Frame.reads, if_neg hempty] at hi
        rcases (show i = 0 ∨ i = 1 by omega) with rfl | rfl
        · exact hfirst
        · exact hsecond
    rw [if_neg (by omega)]
    obtain ⟨e, hfail⟩ := xrecv_fails hsecond
    exact ⟨e, _, bind_of_error hfail, rfl⟩
  · obtain ⟨e, hfail⟩ := xrecv_fails hfirst
    exact ⟨e, _, bind_of_error hfail, rfl⟩

end Message

/-! ## Draining -/

section Drain

variable {c : PgConn} {z : Frame}

variable {ms : List Frame}

theorem drain_clear (hz : z.isReady = true) (hready : ∀ m ∈ ms, m.isReady = false)
    (hfits : ∀ m ∈ ms ++ [z], m.Fits) (hunread : c.unread = Frame.stream (ms ++ [z]))
    (hclear : PgClear c.fate (readsOf (ms ++ [z]))) :
    drainUntilReady c = c.consumed (readsOf (ms ++ [z])) [] := by
  induction ms generalizing c with
  | nil =>
    have hread := readRawMsg_clear (hfits z mem_cons_self) hunread hclear
    rw [drainUntilReady_of_ok hread, if_pos hz]
    rfl
  | cons m ms ih =>
    rw [cons_append, stream_cons] at hunread
    rw [cons_append, readsOf_cons, pgClear_add] at hclear
    have hread := readRawMsg_clear (hfits m mem_cons_self) hunread hclear.1
    rw [drainUntilReady_of_ok hread, if_neg (by rw [hready m mem_cons_self]; decide)]
    have hrest := ih (c := c.consumed m.reads (Frame.stream (ms ++ [z])))
      (fun m hm => hready m (mem_cons_of_mem _ hm))
      (fun m hm => hfits m (mem_cons_of_mem _ hm)) rfl hclear.2
    rw [hrest, PgConn.consumed_consumed]
    rfl

theorem drain_fails (hready : ∀ m ∈ ms, m.isReady = false) (hfits : ∀ m ∈ ms ++ [z], m.Fits)
    (hunread : c.unread = Frame.stream (ms ++ [z]))
    (hclear : ¬ PgClear c.fate (readsOf (ms ++ [z]))) : (drainUntilReady c).faulty = true := by
  induction ms generalizing c with
  | nil =>
    obtain ⟨e, c', hread, hfaulty⟩ :=
      readRawMsg_fails (hfits z mem_cons_self) hunread hclear
    rw [drainUntilReady_of_error hread]
    exact hfaulty
  | cons m ms ih =>
    rw [cons_append, stream_cons] at hunread
    rw [cons_append, readsOf_cons, pgClear_add] at hclear
    by_cases hm : PgClear c.fate m.reads
    · have hread := readRawMsg_clear (hfits m mem_cons_self) hunread hm
      rw [drainUntilReady_of_ok hread, if_neg (by rw [hready m mem_cons_self]; decide)]
      exact ih (c := c.consumed m.reads (Frame.stream (ms ++ [z])))
        (fun m hm => hready m (mem_cons_of_mem _ hm))
        (fun m hm => hfits m (mem_cons_of_mem _ hm)) rfl fun hrest => hclear ⟨hm, hrest⟩
    · obtain ⟨e, c', hread, hfaulty⟩ :=
        readRawMsg_fails (hfits m mem_cons_self) hunread hm
      rw [drainUntilReady_of_error hread]
      exact hfaulty

end Drain

end Ridge
