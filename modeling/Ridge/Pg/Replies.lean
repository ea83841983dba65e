import Mathlib.Data.List.Induction
import Ridge.Pg.RoundTrip

/-!
# A reply belongs to its own request

Over any sequence of requests, as long as no read fails while the rest of a reply is drained behind
an SQL error: that fault the driver swallows, and keeps the connection.
-/

namespace Ridge

open List Early

section Codec

variable {P V R : Type} (K : PgCodec P V R)

/-! ## What the server sent -/

/-- The rows of a reply, each under the last description before it. -/
def rowsSent (cols : List (Binary × Nat)) : List Frame → Option (List R)
  | [] => some []
  | m :: ms =>
    if m.tag = 'T'.toUInt8 then (decodeRowDesc m.payload).bind fun cols => rowsSent cols ms
    else if m.tag = 'D'.toUInt8 then
      (decodeDataRow K m.payload cols).bind fun row => (rowsSent cols ms).map (row :: ·)
    else rowsSent cols ms

def commandTag (body : List Frame) : Binary :=
  (((body.filter (·.tag = 'C'.toUInt8)).getLast?).map fun m => (readCstring m.payload).1).getD []

namespace PgReply

/-- The server reports no error. -/
def Plain (r : PgReply) : Prop := ∀ m ∈ r.body, m.isError = false

def SendsRows (r : PgReply) (rows : List R) : Prop := r.Plain ∧ rowsSent K [] r.body = some rows

def SendsCount (r : PgReply) (n : Int) : Prop := r.Plain ∧ n = parseAffected (commandTag r.body)

end PgReply

def PgRequest.Sent (r : PgRequest P) (v : PgValue R) : Prop :=
  match r.verb with
  | .ping | .rawQuery _ _ | .all _ | .getRows _ _ _ =>
    ∃ rows, v = .rows rows ∧ (r.trips 0).reply.SendsRows K rows
  | .tx _ | .rawExec _ _ => ∃ n, v = .count n ∧ (r.trips 0).reply.SendsCount n
  | .migrationsInit => (r.trips 0).reply.Plain ∧
    ∃ rows, v = .names (rows.map K.migrationName) ∧ (r.trips 1).reply.SendsRows K rows

/-! ## The loops read what was sent -/

theorem skipsNotices_rowsStep : SkipsNotices (rowsStep K) := by
  intro s m hnotice
  have htag : m.tag = 'N'.toUInt8 := eq_of_beq hnotice
  rw [rowsStep, if_neg (by rw [htag]; decide), if_neg (by rw [htag]; decide)]

theorem skipsNotices_execStep : SkipsNotices execStep := by
  intro s m hnotice
  have htag : m.tag = 'N'.toUInt8 := eq_of_beq hnotice
  rw [execStep, if_neg (by rw [htag]; decide)]

theorem foldlM_rowsStep (cols : List (Binary × Nat)) (acc : List R) (ms : List Frame) :
    (ms.foldlM (rowsStep K) (cols, acc)).map (fun s => s.2.reverse)
      = (rowsSent K cols ms).map (acc.reverse ++ ·) := by
  induction ms generalizing cols acc with
  | nil => simp [rowsSent]
  | cons m ms ih =>
    rw [foldlM_cons, rowsSent, rowsStep]
    by_cases hdesc : m.tag = 'T'.toUInt8
    · rw [if_pos hdesc, if_pos hdesc]
      cases decodeRowDesc m.payload with
      | none => rfl
      | some cols' => exact ih cols' acc
    · rw [if_neg hdesc, if_neg hdesc]
      by_cases hrow : m.tag = 'D'.toUInt8
      · rw [if_pos hrow, if_pos hrow]
        cases decodeDataRow K m.payload cols with
        | none => rfl
        | some row =>
          have hrest := ih cols (row :: acc)
          show (ms.foldlM (rowsStep K) (cols, row :: acc)).map _
            = ((rowsSent K cols ms).map (row :: ·)).map _
          rw [hrest, Option.map_map]
          refine congrArg (Option.map · _) (funext fun rows => ?_)
          show (row :: acc).reverse ++ rows = acc.reverse ++ row :: rows
          rw [reverse_cons, append_assoc]
          rfl
      · rw [if_neg hrow, if_neg hrow]
        exact ih cols acc

theorem foldlM_execStep (tag : Binary) (ms : List Frame) :
    ms.foldlM execStep tag =
      some ((((ms.filter (·.tag = 'C'.toUInt8)).getLast?).map
        fun m => (readCstring m.payload).1).getD tag) := by
  induction ms generalizing tag with
  | nil => rfl
  | cons m ms ih =>
    rw [foldlM_cons, execStep]
    by_cases hcommand : m.tag = 'C'.toUInt8
    · rw [if_pos hcommand, filter_cons_of_pos (by simpa using hcommand), getLast?_cons]
      show ms.foldlM execStep _ = _
      rw [ih]
      cases (ms.filter (·.tag = 'C'.toUInt8)).getLast? <;> rfl
    · rw [if_neg hcommand, filter_cons_of_neg (by simpa using hcommand)]
      exact ih tag

variable {K} {trip : PgTrip} {c : PgConn} {sql : Binary} {binds : List P}

theorem whole_count {s : Binary} (h : trip.Whole execStep [] s) :
    trip.reply.SendsCount (parseAffected s) := by
  have htag := foldlM_execStep [] trip.reply.body
  rw [h.read.steps] at htag
  exact ⟨h.read.noError, congrArg parseAffected (Option.some.inj htag)⟩

/-- Without a failing operation a query reads its reply whole. -/
theorem whole_of_rows {rows : List R} (hfate : ∀ i, trip.fate i = none)
    (h : trip.reply.SendsRows K rows) :
    ∃ s, trip.Whole (rowsStep K) ([], []) s ∧ s.2.reverse = rows := by
  have hrows := foldlM_rowsStep K [] [] trip.reply.body
  rw [h.2] at hrows
  obtain ⟨s, hsteps, hs⟩ := Option.map_eq_some_iff.mp hrows
  exact ⟨s, ⟨fun i _ => hfate i, h.1, hsteps, fun i _ => hfate _⟩, hs⟩

theorem whole_of_plain (hfate : ∀ i, trip.fate i = none) (h : trip.reply.Plain) :
    trip.Whole execStep [] (commandTag trip.reply.body) :=
  ⟨fun _ _ => hfate _, h, foldlM_execStep [] _, fun _ _ => hfate _⟩

/-! ## Verbs -/

variable (K) in
def QueryDrainFails (trip : PgTrip) (binds : List P) : Prop :=
  (buildBind K binds).isSome = true ∧ trip.DrainFails (rowsStep K) ([], [])

variable (K) in
def ExecDrainFails (trip : PgTrip) (binds : List P) : Prop :=
  (buildBind K binds).isSome = true ∧ trip.DrainFails execStep []

def PgVerb.params : PgVerb P → List P
  | .rawQuery _ params | .rawExec _ params => params
  | .getRows _ _ key => [key]
  | .ping | .tx _ | .migrationsInit | .all _ => []

variable (K) in
/-- After an SQL error of the request has been read, a read fails before the end of the reply. -/
def PgRequest.DrainFails (r : PgRequest P) : Prop :=
  match r.verb with
  | .ping | .rawQuery _ _ | .all _ | .getRows _ _ _ => QueryDrainFails K (r.trips 0) r.verb.params
  | .tx _ | .rawExec _ _ => ExecDrainFails K (r.trips 0) r.verb.params
  | .migrationsInit => ExecDrainFails K (r.trips 0) [] ∨
    (∃ s, (r.trips 0).Whole execStep [] s) ∧ QueryDrainFails K (r.trips 1) []

/-- How a computation ends that stays in step: with the process, or with an answer, and a value in it
is one of `sent`. -/
def StaysInStep {α : Type} (sent : α → Prop) (m : PgM (Except PgError α)) (c : PgConn) : Prop :=
  (∃ stop c', stop.Ends ∧ m c = (.error stop, c')) ∨
    ∃ a c', m c = (.ok a, c') ∧ c'.InStep ∧ ∀ v, a = .ok v → sent v

/-- How a computation ends that has lost a fault: it answers. -/
def LosesFault {α : Type} (m : PgM (Except PgError α)) (c : PgConn) : Prop :=
  ∃ a c', m c = (.ok a, c') ∧ c'.faulty = true

theorem StaysInStep.map {α β : Type} {sent : α → Prop} {sent' : β → Prop}
    {m : PgM (Except PgError α)} (h : StaysInStep sent m c) (f : α → β)
    (hsent : ∀ v, sent v → sent' (f v)) :
    StaysInStep sent' (Early.bind m fun found => Early.pure (found.map f)) c := by
  rcases h with ⟨stop, c', hends, hstop⟩ | ⟨a, c', ha, hstep, hv⟩
  · exact .inl ⟨stop, c', hends, bind_of_error hstop⟩
  · refine .inr ⟨a.map f, c', bind_of_ok ha, hstep, fun v' hv' => ?_⟩
    cases a with
    | error e => cases hv'
    | ok v =>
      cases hv'
      exact hsent v (hv v rfl)

theorem LosesFault.map {α β : Type} {m : PgM (Except PgError α)} (h : LosesFault m c) (f : α → β) :
    LosesFault (Early.bind m fun found => Early.pure (found.map f)) c := by
  obtain ⟨a, c', ha, hfaulty⟩ := h
  exact ⟨a.map f, c', bind_of_ok ha, hfaulty⟩

theorem runQuery_stays (hc : c.InStep) (h : ¬ QueryDrainFails K trip binds) :
    StaysInStep (trip.reply.SendsRows K) (runQuery K trip sql binds) c := by
  rcases roundTrip_cases sql (fun s : List (Binary × Nat) × List R => s.2.reverse)
    (skipsNotices_rowsStep K) hc h with hends | ⟨a, c', ha, hstep, hv⟩
  · exact .inl hends
  · refine .inr ⟨a, c', ha, hstep, fun v hav => ?_⟩
    obtain ⟨s, hwhole, rfl⟩ := hv v hav
    have hrows := foldlM_rowsStep K [] [] trip.reply.body
    rw [hwhole.read.steps] at hrows
    refine ⟨hwhole.read.noError, ?_⟩
    cases hsent : rowsSent K [] trip.reply.body with
    | none =>
      rw [hsent] at hrows
      cases hrows
    | some rows =>
      rw [hsent] at hrows
      exact hrows.symm

theorem runExec_stays (hc : c.InStep) (h : ¬ ExecDrainFails K trip binds) :
    StaysInStep (fun n => trip.reply.SendsCount n ∧ ∃ s, trip.Whole execStep [] s)
      (runExec K trip sql binds) c := by
  rcases roundTrip_cases sql parseAffected skipsNotices_execStep hc h with
    hends | ⟨a, c', ha, hstep, hv⟩
  · exact .inl hends
  · refine .inr ⟨a, c', ha, hstep, fun v hav => ?_⟩
    obtain ⟨s, hwhole, rfl⟩ := hv v hav
    exact ⟨whole_count hwhole, s, hwhole⟩

theorem runQuery_loses (hc : c.InStep) (h : QueryDrainFails K trip binds) :
    LosesFault (runQuery K trip sql binds) c := by
  obtain ⟨e, c', htrip, hfaulty⟩ := roundTrip_drainFails sql
    (fun s : List (Binary × Nat) × List R => s.2.reverse) (skipsNotices_rowsStep K) hc h.1 h.2
  exact ⟨_, c', htrip, hfaulty⟩

theorem runExec_loses (hc : c.InStep) (h : ExecDrainFails K trip binds) :
    LosesFault (runExec K trip sql binds) c := by
  obtain ⟨e, c', htrip, hfaulty⟩ :=
    roundTrip_drainFails sql parseAffected skipsNotices_execStep hc h.1 h.2
  exact ⟨_, c', htrip, hfaulty⟩

theorem runQuery_sent (sql : Binary) (hc : c.InStep) (hbinds : (buildBind K binds).isSome = true)
    (hfate : ∀ i, trip.fate i = none) {rows : List R} (h : trip.reply.SendsRows K rows) :
    ∃ c', runQuery K trip sql binds c = (.ok (.ok rows), c') := by
  obtain ⟨s, hwhole, rfl⟩ := whole_of_rows hfate h
  obtain ⟨c', htrip, -⟩ := roundTrip_whole sql
    (fun s : List (Binary × Nat) × List R => s.2.reverse) (skipsNotices_rowsStep K) hc hbinds hwhole
  exact ⟨c', htrip⟩

theorem runExec_sent (sql : Binary) (hc : c.InStep) (hbinds : (buildBind K binds).isSome = true)
    (hfate : ∀ i, trip.fate i = none) (h : trip.reply.Plain) :
    ∃ c', runExec K trip sql binds c = (.ok (.ok (parseAffected (commandTag trip.reply.body))), c') ∧
      c'.InStep :=
  roundTrip_whole sql parseAffected skipsNotices_execStep hc hbinds (whole_of_plain hfate h)

theorem runVerb_stays (r : PgRequest P) (hc : c.InStep) (h : ¬ r.DrainFails K) :
    StaysInStep (r.Sent K) (runVerb K r.trips r.verb) c := by
  obtain ⟨verb, trips⟩ := r
  have hquery : ∀ (sql : Binary) (binds : List P), ¬ QueryDrainFails K (trips 0) binds →
      StaysInStep (fun v => ∃ rows, v = .rows rows ∧ (trips 0).reply.SendsRows K rows)
        (runVerb.rows (runQuery K (trips 0) sql binds)) c := fun sql binds h =>
    (runQuery_stays hc h).map _ fun rows hrows => ⟨rows, rfl, hrows⟩
  have hexec : ∀ (sql : Binary) (binds : List P), ¬ ExecDrainFails K (trips 0) binds →
      StaysInStep (fun v : PgValue R => ∃ n, v = .count n ∧ (trips 0).reply.SendsCount n)
        (runVerb.count (runExec K (trips 0) sql binds)) c := fun sql binds h =>
    (runExec_stays hc h).map _ fun n hn => ⟨n, rfl, hn.1⟩
  cases verb with
  | ping => exact hquery _ _ h
  | tx sql => exact hexec _ _ h
  | rawQuery sql params => exact hquery _ _ h
  | rawExec sql params => exact hexec _ _ h
  | all table | getRows table column key => exact hquery _ _ h
  | migrationsInit =>
    have hfirst : StaysInStep _ (runExec K (trips 0) createMigrationsSql []) c :=
      runExec_stays hc fun hfail => h (.inl hfail)
    rcases hfirst with ⟨stop, c', hends, hstop⟩ | ⟨a, c', ha, hstep, hv⟩
    · exact .inl ⟨stop, c', hends, bind_of_error hstop⟩
    · cases a with
      | error e => exact .inr ⟨.error e, c', bind_of_ok ha, hstep, nofun⟩
      | ok n =>
        obtain ⟨hcount, hwhole⟩ := hv n rfl
        have hsecond : StaysInStep (PgRequest.Sent K ⟨.migrationsInit, trips⟩)
            (Early.bind (runQuery K (trips 1) selectMigrationsSql []) fun found =>
              Early.pure (found.map fun rows => .names (rows.map K.migrationName))) c' :=
          (runQuery_stays hstep fun hfail => h (.inr ⟨hwhole, hfail⟩)).map _ fun rows hrows =>
            ⟨hcount.1, rows, rfl, hrows⟩
        show StaysInStep _ (Early.bind _ _) c
        unfold StaysInStep
        rw [bind_of_ok ha]
        exact hsecond

theorem runVerb_loses (r : PgRequest P) (hc : c.InStep) (h : r.DrainFails K) :
    LosesFault (runVerb K r.trips r.verb) c := by
  obtain ⟨verb, trips⟩ := r
  cases verb with
  | ping => exact (runQuery_loses hc h).map _
  | tx sql => exact (runExec_loses hc h).map _
  | rawQuery sql params => exact (runQuery_loses hc h).map _
  | rawExec sql params => exact (runExec_loses hc h).map _
  | all table | getRows table column key => exact (runQuery_loses hc h).map _
  | migrationsInit =>
    rcases h with hfirst | ⟨⟨s, hwhole⟩, hsecond⟩
    · obtain ⟨e, c', htrip, hfaulty⟩ :=
        roundTrip_drainFails createMigrationsSql parseAffected skipsNotices_execStep hc hfirst.1
          hfirst.2
      exact ⟨.error e, c', bind_of_ok htrip, hfaulty⟩
    · have hbinds : (buildBind K ([] : List P)).isSome = true := rfl
      obtain ⟨c', htrip, hstep⟩ :=
        roundTrip_whole createMigrationsSql parseAffected skipsNotices_execStep hc hbinds hwhole
      obtain ⟨a, c'', hquery, hfaulty⟩ := (runQuery_loses hstep hsecond).map
        fun rows => PgValue.names (R := R) (rows.map K.migrationName)
      exact ⟨a, c'', (bind_of_ok htrip).trans hquery, hfaulty⟩

/-- No socket operation of the request fails. -/
def PgRequest.Undisturbed (r : PgRequest P) : Prop := ∀ k i, (r.trips k).fate i = none

theorem runVerb_sent (r : PgRequest P) (hc : c.InStep) (hfate : r.Undisturbed)
    (hbinds : (buildBind K r.verb.params).isSome = true) {v : PgValue R} (h : r.Sent K v) :
    ∃ c', runVerb K r.trips r.verb c = (.ok (.ok v), c') := by
  obtain ⟨verb, trips⟩ := r
  have hquery : ∀ (sql : Binary) (binds : List P), (buildBind K binds).isSome = true →
      (∃ rows, v = .rows rows ∧ (trips 0).reply.SendsRows K rows) →
      ∃ c', runVerb.rows (runQuery K (trips 0) sql binds) c = (.ok (.ok v), c') := by
    rintro sql binds hbinds ⟨rows, rfl, hrows⟩
    obtain ⟨c', htrip⟩ := runQuery_sent sql hc hbinds (hfate 0) hrows
    exact ⟨c', bind_of_ok htrip⟩
  have hexec : ∀ (sql : Binary) (binds : List P), (buildBind K binds).isSome = true →
      (∃ n, v = .count n ∧ (trips 0).reply.SendsCount n) →
      ∃ c', runVerb.count (runExec K (trips 0) sql binds) c = (.ok (.ok v), c') := by
    rintro sql binds hbinds ⟨n, rfl, hplain, rfl⟩
    obtain ⟨c', htrip, -⟩ := runExec_sent sql hc hbinds (hfate 0) hplain
    exact ⟨c', bind_of_ok htrip⟩
  cases verb with
  | ping => exact hquery _ _ hbinds h
  | tx sql => exact hexec _ _ hbinds h
  | rawQuery sql params => exact hquery _ _ hbinds h
  | rawExec sql params => exact hexec _ _ hbinds h
  | all table | getRows table column key => exact hquery _ _ hbinds h
  | migrationsInit =>
    obtain ⟨hplain, rows, rfl, hrows⟩ := h
    obtain ⟨c', hfirst, hstep⟩ :=
      runExec_sent createMigrationsSql hc hbinds (hfate 0) hplain
    obtain ⟨c'', hsecond⟩ :=
      runQuery_sent selectMigrationsSql hstep hbinds (hfate 1) hrows
    exact ⟨c'', (bind_of_ok hfirst).trans (bind_of_ok hsecond)⟩

/-! ## The process -/

variable (K) in
/-- What a request may rely on. -/
structure PgProcess.Keeps (p : PgProcess) (r : PgRequest P) : Prop where
  /-- A value in the answer is the one that the server sent for the request. -/
  own : ∀ v, workerRequest (p.handle K r).1 = .ok v → r.Sent K v
  /-- If no operation fails, the value that the server sent is the answer. -/
  answered : p.alive = true → r.Undisturbed → (buildBind K r.verb.params).isSome = true →
    ∀ v, r.Sent K v → workerRequest (p.handle K r).1 = .ok v
  /-- The connection goes on only when the reply is read, its `ReadyForQuery` too. -/
  consumed : (p.handle K r).2.alive = true → (p.handle K r).2.conn.unread = []
  /-- It does not go on after a failed read. -/
  sound : (p.handle K r).2.alive = true → (p.handle K r).2.conn.faulty = false

/-- A connection that is ready for its first request. -/
def PgProcess.start (sent : Binary) : PgProcess := ⟨⟨[], sent, fun _ => none, false⟩, true⟩

/-- As long as it is there, the connection is in step. -/
def PgProcess.Sound (p : PgProcess) : Prop := p.alive = true → p.conn.InStep

variable {p : PgProcess} {r : PgRequest P}

theorem PgProcess.handle_dead (h : ¬ p.alive = true) : p.handle K r = (none, p) := if_neg h

theorem PgProcess.handle_ok {a : Except PgError (PgValue R)} {c' : PgConn} (h : p.alive = true)
    (hrun : runVerb K r.trips r.verb p.conn = (.ok a, c')) :
    p.handle K r = (some a, ⟨c', true⟩) := by
  rw [PgProcess.handle, if_pos h, hrun]

theorem PgProcess.handle_ends {stop : PgStop} {c' : PgConn} (h : p.alive = true)
    (hends : stop.Ends) (hrun : runVerb K r.trips r.verb p.conn = (.error stop, c')) :
    (∀ v, workerRequest (p.handle K r).1 ≠ .ok v) ∧ (p.handle K r).2.alive = false := by
  rw [PgProcess.handle, if_pos h, hrun]
  cases stop with
  | pgError e => exact absurd hends id
  | pgFatal e | crash => exact ⟨nofun, rfl⟩

/-- One step. -/
theorem PgProcess.keeps_of_sound (hp : p.Sound) (h : p.alive = true → ¬ r.DrainFails K) :
    p.Keeps K r := by
  by_cases halive : p.alive = true
  · have hanswered : ∀ _ : r.Undisturbed, (buildBind K r.verb.params).isSome = true →
        ∀ v, r.Sent K v → workerRequest (p.handle K r).1 = .ok v := fun hfate hbinds v hv => by
      obtain ⟨c', hrun⟩ := runVerb_sent r (hp halive) hfate hbinds hv
      rw [PgProcess.handle_ok halive hrun]
      rfl
    rcases runVerb_stays r (hp halive) (h halive) with
      ⟨stop, c', hends, hrun⟩ | ⟨a, c', hrun, hstep, hv⟩
    · obtain ⟨hanswer, hdead⟩ := PgProcess.handle_ends halive hends hrun
      have hnot : ¬ (p.handle K r).2.alive = true := by
        rw [hdead]
        decide
      exact ⟨fun v hv => absurd hv (hanswer v), fun _ => hanswered, fun h => absurd h hnot,
        fun h => absurd h hnot⟩
    · have hturn := PgProcess.handle_ok halive hrun
      refine ⟨fun v hval => ?_, fun _ => hanswered, fun _ => ?_, fun _ => ?_⟩
      · rw [hturn] at hval
        exact hv v hval
      · rw [hturn]
        exact hstep.unread
      · rw [hturn]
        exact hstep.sound
  · have hturn : p.handle K r = (none, p) := PgProcess.handle_dead halive
    refine ⟨fun v hv => ?_, fun h => absurd h halive, fun h => ?_, fun h => ?_⟩
    · rw [hturn] at hv
      cases hv
    · rw [hturn] at h
      exact absurd h halive
    · rw [hturn] at h
      exact absurd h halive

theorem PgProcess.Keeps.next (h : p.Keeps K r) : (p.handle K r).2.Sound :=
  fun halive => ⟨h.consumed halive, h.sound halive⟩

theorem PgProcess.not_keeps (hp : p.Sound) (halive : p.alive = true) (h : r.DrainFails K) :
    ¬ p.Keeps K r := by
  intro hkeeps
  obtain ⟨a, c', hrun, hfaulty⟩ := runVerb_loses r (hp halive) h
  have hsound := hkeeps.sound
  rw [PgProcess.handle_ok halive hrun] at hsound
  rw [hsound rfl] at hfaulty
  cases hfaulty

theorem PgProcess.run_concat (p : PgProcess) (pre : List (PgRequest P)) :
    p.run K (pre ++ [r]) = ((p.run K pre).handle K r).2 := by
  rw [PgProcess.run, foldl_append]
  rfl

theorem PgProcess.sound_run (hp : p.Sound) (rs : List (PgRequest P))
    (h : ∀ pre r post, rs = pre ++ r :: post → (p.run K pre).Sound → (p.run K pre).Keeps K r) :
    (p.run K rs).Sound := by
  induction rs using List.reverseRecOn with
  | nil => exact hp
  | append_singleton rs r ih =>
    have hbefore : (p.run K rs).Sound := ih fun pre r' post heq =>
      h pre r' (post ++ [r]) (by rw [heq, append_assoc]; rfl)
    rw [PgProcess.run_concat]
    exact (h rs r [] rfl hbefore).next

/-- Every request handled by a connection is answered with what the server sent for it, or with an
error, and the connection is used again only in step, if and only if no read fails behind the SQL
error of a request and before the end of its reply. -/
theorem replies_belong_iff (K : PgCodec P V R) (sent : Binary) (rs : List (PgRequest P)) :
    (∀ pre r post, rs = pre ++ r :: post → ((PgProcess.start sent).run K pre).Keeps K r) ↔
      ∀ pre r post, rs = pre ++ r :: post → ((PgProcess.start sent).run K pre).alive = true →
        ¬ r.DrainFails K := by
  have hstart : (PgProcess.start sent).Sound := fun _ => ⟨rfl, rfl⟩
  constructor
  · intro h pre r post heq halive hfails
    have hsound := PgProcess.sound_run (K := K) hstart pre fun pre' r' post' heq' _ =>
      h pre' r' (post' ++ r :: post) (by rw [heq, heq', append_assoc]; rfl)
    exact PgProcess.not_keeps hsound halive hfails (h pre r post heq)
  · intro h
    have hkeeps : ∀ pre r post, rs = pre ++ r :: post →
        ((PgProcess.start sent).run K pre).Sound → ((PgProcess.start sent).run K pre).Keeps K r :=
      fun pre r post heq hsound => PgProcess.keeps_of_sound hsound (h pre r post heq)
    intro pre r post heq
    refine hkeeps pre r post heq (PgProcess.sound_run hstart pre fun pre' r' post' heq' => ?_)
    exact hkeeps pre' r' (post' ++ r :: post) (by rw [heq, heq', append_assoc]; rfl)

end Codec

/-! ## A reply left behind -/

/-- Values without content, and rows as their cells. -/
def plainCodec : PgCodec Unit Unit (List (Binary × Unit)) where
  paramText _ := some []
  decodeValue _ _ := some ()
  sqlNull := ()
  typedTextMapFromList cells := cells
  migrationName _ := []

def readyFrame : Frame := ⟨'Z'.toUInt8, [73]⟩

def errorFrame : Frame := ⟨'E'.toUInt8, [0]⟩

/-- An error, and nothing else. -/
def errorReply : PgReply where
  body := [errorFrame]
  ready := readyFrame
  isReady := by decide
  noReady := by decide
  fits := by decide

/-- One row, without columns. -/
def rowReply : PgReply where
  body := [⟨'T'.toUInt8, [0, 0]⟩, ⟨'D'.toUInt8, [0, 0]⟩]
  ready := readyFrame
  isReady := by decide
  noReady := by decide
  fits := by decide

/-- The first read of the drain times out, behind five sends and the two reads of the error. -/
def failingPing : PgRequest Unit :=
  ⟨.ping, fun _ => ⟨errorReply, fun i => if i = 7 then some (binary "timeout") else none⟩⟩

def nextPing : PgRequest Unit := ⟨.ping, fun _ => ⟨rowReply, fun _ => none⟩⟩

theorem plainCodec_binds : (buildBind plainCodec ([] : List Unit)).isSome = true := rfl

/-- The request goes on with the `ReadyForQuery` of the failed one unread. -/
theorem failingPing_leaves : ∃ c', (PgProcess.start []).run plainCodec [failingPing] = ⟨c', true⟩ ∧
    c'.unread = Frame.stream [readyFrame] := by
  have hstep : (PgProcess.start []).conn.InStep := ⟨rfl, rfl⟩
  have hsend : PgClear (failingPing.trips 0).fate 5 := fun i hi => if_neg (by omega)
  have hraise : RaisesAt (rowsStep plainCodec) ([], []) (failingPing.trips 0).readFate [errorFrame]
      [] errorFrame [] := by
    refine ⟨rfl, nofun, rfl, rfl, fun i hi => if_neg ?_⟩
    have htwo : i < 2 := hi
    omega
  obtain ⟨c', htrip, hunread, -, hfate⟩ := roundTrip_raises (binary "SELECT 1")
    (fun s : List (Binary × Nat) × List (List (Binary × Unit)) => s.2.reverse)
    (skipsNotices_rowsStep plainCodec) hstep plainCodec_binds hsend hraise
  have hfails : c'.fate 0 ≠ none := by
    rw [hfate]
    exact nofun
  obtain ⟨e, hread⟩ := xrecv_fails hfails
  have hdrain : drainUntilReady c' = { c'.after 1 with faulty := true } :=
    drainUntilReady_of_error (bind_of_error hread)
  have hverb : runVerb plainCodec failingPing.trips failingPing.verb (PgProcess.start []).conn
      = (.ok (.error (decodeError errorFrame.payload)), { c'.after 1 with faulty := true }) := by
    rw [hdrain] at htrip
    exact bind_of_ok htrip
  refine ⟨_, congrArg Prod.snd (PgProcess.handle_ok rfl hverb), hunread⟩

/-- After a read has timed out in the drain of an SQL error, the next request is answered with no
rows, and the server sent it one. -/
theorem stale_reply :
    ¬ ∀ (rs pre : List (PgRequest Unit)) (r : PgRequest Unit) (post : List (PgRequest Unit)),
      rs = pre ++ r :: post → ((PgProcess.start []).run plainCodec pre).Keeps plainCodec r := by
  intro h
  have hkeeps := h [failingPing, nextPing] [failingPing] nextPing [] rfl
  obtain ⟨c', hrun, hunread⟩ := failingPing_leaves
  rw [hrun] at hkeeps
  obtain ⟨sent, htrip⟩ := roundTrip_of_sent (binary "SELECT 1") c' plainCodec_binds
    (fun i _ => rfl : PgClear (nextPing.trips 0).fate 5) (collectRows plainCodec [] [])
  have hcollect : collect (rowsStep plainCodec) ([], []) ⟨c'.unread ++ Frame.stream rowReply.messages,
      sent, fun _ => none, c'.faulty⟩ = (.ok ([], []), _) :=
    collect_ready (m := readyFrame) (by decide) rfl (by rw [hunread]; rfl) fun i _ => rfl
  have hrows : collectRows plainCodec [] [] ⟨c'.unread ++ Frame.stream (nextPing.trips 0).reply.messages,
      sent, (nextPing.trips 0).readFate, c'.faulty⟩ = (.ok [], _) := bind_of_ok hcollect
  rw [hrows] at htrip
  have hverb : runVerb plainCodec nextPing.trips nextPing.verb c' = (.ok (.ok (.rows [])), _) :=
    bind_of_ok htrip
  have hsent := hkeeps.own (.rows []) (by rw [PgProcess.handle_ok rfl hverb]; rfl)
  obtain ⟨rows, hrows, -, hsent⟩ := hsent
  cases hrows
  exact absurd hsent (by decide)

end Ridge
