import Ridge.Lib.Early
import Ridge.Lib.Frame

/-!
# The socket of a Postgres connection

`runtime/ridge_pg.erl`, message framing and transport. A connection sees the bytes that the server
has sent and it has not read. Each operation may fail with a reason; a failed one takes no bytes.
-/

namespace Ridge

open Early

/-- A text of the source as a binary. -/
def binary (s : String) : Binary := s.toUTF8.toList

/-- An error map of the runtime. The server names the last three, if it has them. -/
structure PgError where
  code : Binary
  message : Binary
  constraint : Option Binary
  table : Option Binary
  column : Option Binary
  deriving DecidableEq

/-- How a function of the driver leaves: with one of its two throws, or with any other error. -/
inductive PgStop where
  | pgError (e : PgError)
  | pgFatal (e : PgError)
  | crash
  deriving DecidableEq

structure PgConn where
  unread : Binary
  sent : Binary
  /-- Why the operations to come fail, those that do. -/
  fate : Nat → Option Binary
  /-- A read has failed. The driver does not see it, except where the read is its own. -/
  faulty : Bool

namespace PgConn

variable (c : PgConn)

/-- After `n` operations. -/
def after (n : Nat) : PgConn := { c with fate := fun i => c.fate (n + i) }

@[simp] theorem after_unread (n : Nat) : (c.after n).unread = c.unread := rfl

@[simp] theorem after_faulty (n : Nat) : (c.after n).faulty = c.faulty := rfl

theorem after_after (m n : Nat) : (c.after m).after n = c.after (m + n) := by
  show PgConn.mk c.unread c.sent (fun i => c.fate (m + (n + i))) c.faulty
    = PgConn.mk c.unread c.sent (fun i => c.fate (m + n + i)) c.faulty
  simp only [Nat.add_assoc]

end PgConn

abbrev PgM (α : Type) := Early PgConn PgStop α

/-! ## Transport -/

def connError (code : String) (reason : Binary) : PgError :=
  ⟨binary code, reason, none, none, none⟩

def xsend (data : Binary) : PgM Unit := fun c =>
  match c.fate 0 with
  | some reason => (.error (.pgFatal (connError "db.conn.send" reason)), c.after 1)
  | none => (.ok (), { c.after 1 with sent := c.sent ++ data })

/-- Without the bytes it waits for, a read fails when its time is up; so does one of a negative
length. -/
def xrecv (n : Int) : PgM Binary := fun c =>
  match c.fate 0 with
  | some reason =>
    (.error (.pgFatal (connError "db.conn.recv" reason)), { c.after 1 with faulty := true })
  | none =>
    if 0 ≤ n ∧ n ≤ c.unread.length then
      (.ok (c.unread.take n.toNat), { c.after 1 with unread := c.unread.drop n.toNat })
    else
      (.error (.pgFatal (connError "db.conn.recv" (binary "timeout"))),
        { c.after 1 with faulty := true })

/-! ## Messages -/

/-- Up to the first zero byte, and what follows it. -/
def readCstring (bin : Binary) : Binary × Binary :=
  (bin.takeWhile (· != 0), (bin.dropWhile (· != 0)).tail)

/-- The later field of a code wins. -/
def decodeErrorFields (bin : Binary) (acc : List (UInt8 × Binary)) : List (UInt8 × Binary) :=
  match bin with
  | [] => acc
  | [0] => acc
  | code :: rest =>
    decodeErrorFields (readCstring rest).2 ((code, (readCstring rest).1) :: acc)
termination_by bin.length
decreasing_by
  have hdrop := (List.dropWhile_suffix (l := rest) (· != 0)).length_le
  simp only [readCstring, List.length_tail, List.length_cons]
  omega

def decodeError (payload : Binary) : PgError :=
  let field := fun c : Char => (decodeErrorFields payload []).lookup c.toUInt8
  { code :=
      match field 'C' with
      | none => binary "db.error"
      | some sqlState => binary "db.error." ++ sqlState
    message := (field 'M').getD (binary "postgres error")
    constraint := field 'n'
    table := field 't'
    column := field 'c' }

def sendMsg (tag : Char) (payload : Binary) : PgM Unit :=
  xsend (Frame.bytes ⟨tag.toUInt8, payload⟩)

def readRawMsg : PgM Frame :=
  Early.bind (xrecv 5) fun header =>
    let payloadLen : Int := ofBigEndian header.tail - 4
    if payloadLen = 0 then Early.pure ⟨header.headD 0, []⟩
    else Early.bind (xrecv payloadLen) fun payload => Early.pure ⟨header.headD 0, payload⟩

def Frame.isError (m : Frame) : Bool := m.tag == 'E'.toUInt8

def Frame.isNotice (m : Frame) : Bool := m.tag == 'N'.toUInt8

def Frame.isReady (m : Frame) : Bool := m.tag == 'Z'.toUInt8

/-! A message takes its header off the stream, so the loops over messages end. -/

section Shorter

variable {n : Int} {c c' : PgConn}

theorem xrecv_ok {data : Binary} (h : xrecv n c = (.ok data, c')) :
    c.fate 0 = none ∧ 0 ≤ n ∧ n ≤ c.unread.length ∧ data = c.unread.take n.toNat ∧
      c' = { c.after 1 with unread := c.unread.drop n.toNat } := by
  unfold xrecv at h
  cases hfate : c.fate 0 with
  | some reason =>
    rw [hfate] at h
    cases h
  | none =>
    rw [hfate] at h
    dsimp only at h
    split at h
    · next hn =>
      cases h
      exact ⟨rfl, hn.1, hn.2, rfl, rfl⟩
    · cases h

theorem readRawMsg_shorter {m : Frame} (h : readRawMsg c = (.ok m, c')) :
    c'.unread.length < c.unread.length := by
  unfold readRawMsg at h
  rcases hheader : xrecv 5 c with ⟨stop | header, c₁⟩
  · rw [bind_of_error hheader] at h
    cases h
  · rw [bind_of_ok hheader] at h
    obtain ⟨-, -, hfive, -, rfl⟩ := xrecv_ok hheader
    have hlt : (c.unread.drop 5).length < c.unread.length := by
      rw [List.length_drop]
      omega
    dsimp only at h
    split at h
    · cases h
      exact hlt
    · rcases hpayload : xrecv (ofBigEndian header.tail - 4) _ with ⟨stop | payload, c₂⟩
      · rw [bind_of_error hpayload] at h
        cases h
      · rw [bind_of_ok hpayload] at h
        obtain ⟨-, -, -, -, rfl⟩ := xrecv_ok hpayload
        cases h
        refine lt_of_le_of_lt ?_ hlt
        show ((c.unread.drop 5).drop _).length ≤ _
        rw [List.length_drop]
        exact Nat.sub_le _ _

end Shorter

/-- A server error is thrown, a notice skipped. -/
def recvMsg (c : PgConn) : Except PgStop Frame × PgConn :=
  match _h : readRawMsg c with
  | (.error stop, c') => (.error stop, c')
  | (.ok m, c') =>
    if m.isError then (.error (.pgError (decodeError m.payload)), c')
    else if m.isNotice then recvMsg c'
    else (.ok m, c')
termination_by c.unread.length
decreasing_by exact readRawMsg_shorter _h

/-- `drain_until_ready`. Whatever goes wrong, it is done. -/
def drainUntilReady (c : PgConn) : PgConn :=
  match _h : readRawMsg c with
  | (.error _, c') => c'
  | (.ok m, c') => if m.isReady then c' else drainUntilReady c'
termination_by c.unread.length
decreasing_by exact readRawMsg_shorter _h

section Loops

variable {c c' : PgConn} {m : Frame} {stop : PgStop}

theorem recvMsg_of_error (h : readRawMsg c = (.error stop, c')) :
    recvMsg c = (.error stop, c') := by
  rw [recvMsg]
  split
  · next heq =>
    rw [h] at heq
    cases heq
    rfl
  · next heq =>
    rw [h] at heq
    cases heq

theorem recvMsg_of_ok (h : readRawMsg c = (.ok m, c')) :
    recvMsg c = if m.isError then (.error (.pgError (decodeError m.payload)), c')
      else if m.isNotice then recvMsg c' else (.ok m, c') := by
  rw [recvMsg]
  split
  · next heq =>
    rw [h] at heq
    cases heq
  · next heq =>
    rw [h] at heq
    cases heq
    rfl

theorem drainUntilReady_of_error (h : readRawMsg c = (.error stop, c')) :
    drainUntilReady c = c' := by
  rw [drainUntilReady]
  split
  · next heq =>
    rw [h] at heq
    cases heq
    rfl
  · next heq =>
    rw [h] at heq
    cases heq

theorem drainUntilReady_of_ok (h : readRawMsg c = (.ok m, c')) :
    drainUntilReady c = if m.isReady then c' else drainUntilReady c' := by
  rw [drainUntilReady]
  split
  · next heq =>
    rw [h] at heq
    cases heq
  · next heq =>
    rw [h] at heq
    cases heq
    rfl

end Loops

theorem recvMsg_shorter {c c' : PgConn} {m : Frame} (h : recvMsg c = (.ok m, c')) :
    c'.unread.length < c.unread.length := by
  induction c using recvMsg.induct with
  | case1 c stop c₁ hread =>
    rw [recvMsg_of_error hread] at h
    cases h
  | case2 c m₁ c₁ hread herror =>
    rw [recvMsg_of_ok hread, if_pos herror] at h
    cases h
  | case3 c m₁ c₁ hread herror hnotice ih =>
    rw [recvMsg_of_ok hread, if_neg herror, if_pos hnotice] at h
    exact lt_trans (ih h) (readRawMsg_shorter hread)
  | case4 c m₁ c₁ hread herror hnotice =>
    rw [recvMsg_of_ok hread, if_neg herror, if_neg hnotice] at h
    cases h
    exact readRawMsg_shorter hread

end Ridge
