import Ridge.Pg.Query

/-!
# A round trip

From a connection without unread bytes, a round trip ends the process, or it answers and leaves no
byte of its reply, unless a read fails while the rest of the reply is drained.
-/

namespace Ridge

open List Option Early Frame

/-! ## Collecting -/

section Collect

variable {S : Type} {step : S → Frame → Option S} {s s' : S} {c c' : PgConn} {m : Frame}
  {stop : PgStop}

theorem collect_of_error (h : recvMsg c = (.error stop, c')) :
    collect step s c = (.error stop, c') := by
  rw [collect]
  split
  · next heq =>
    rw [h] at heq
    cases heq
    rfl
  · next heq =>
    rw [h] at heq
    cases heq

theorem collect_of_ok (h : recvMsg c = (.ok m, c')) :
    collect step s c = if m.isReady then (.ok s, c') else
      match step s m with
      | none => (.error .crash, c')
      | some s' => collect step s' c' := by
  rw [collect]
  split
  · next heq =>
    rw [h] at heq
    cases heq
  · next heq =>
    rw [h] at heq
    cases heq
    rfl

/-- A loop that passes over notices, which it does not see. -/
def SkipsNotices (step : S → Frame → Option S) : Prop :=
  ∀ s m, m.isNotice = true → step s m = some s

theorem isError_of_ready (h : m.isReady = true) : m.isError = false ∧ m.isNotice = false := by
  have htag : m.tag = 'Z'.toUInt8 := eq_of_beq h
  rw [isError, isNotice, htag]
  decide

variable {rest : Binary}

/-- A message that is neither an error nor the last of the reply. -/
theorem collect_message (hskip : SkipsNotices step) (hfits : m.Fits) (herror : m.isError = false)
    (hready : m.isReady = false) (hunread : c.unread = m.bytes ++ rest)
    (hclear : PgClear c.fate m.reads) :
    collect step s c =
      match step s m with
      | none => (.error .crash, c.consumed m.reads rest)
      | some s' => collect step s' (c.consumed m.reads rest) := by
  have hread := recvMsg_of_ok (readRawMsg_clear hfits hunread hclear)
  rw [if_neg (by rw [herror]; decide)] at hread
  by_cases hnotice : m.isNotice = true
  · rw [if_pos hnotice] at hread
    rw [hskip s m hnotice]
    -- Both sides read the message behind the notice.
    show collect step s c = collect step s (c.consumed m.reads rest)
    rcases hnext : recvMsg (c.consumed m.reads rest) with ⟨stop | m', c'⟩
    · rw [collect_of_error hnext, collect_of_error (hread.trans hnext)]
    · rw [collect_of_ok hnext, collect_of_ok (hread.trans hnext)]
  · rw [if_neg hnotice] at hread
    rw [collect_of_ok hread, if_neg (by rw [hready]; decide)]

theorem collect_raise (hfits : m.Fits) (herror : m.isError = true)
    (hunread : c.unread = m.bytes ++ rest) (hclear : PgClear c.fate m.reads) :
    collect step s c = (.error (.pgError (decodeError m.payload)), c.consumed m.reads rest) := by
  have hread := recvMsg_of_ok (readRawMsg_clear hfits hunread hclear)
  rw [if_pos herror] at hread
  exact collect_of_error hread

theorem collect_ready (hfits : m.Fits) (hready : m.isReady = true)
    (hunread : c.unread = m.bytes ++ rest) (hclear : PgClear c.fate m.reads) :
    collect step s c = (.ok s, c.consumed m.reads rest) := by
  have hread := recvMsg_of_ok (readRawMsg_clear hfits hunread hclear)
  obtain ⟨herror, hnotice⟩ := isError_of_ready hready
  rw [if_neg (by rw [herror]; decide), if_neg (by rw [hnotice]; decide)] at hread
  rw [collect_of_ok hread, if_pos hready]

theorem collect_fails (hfits : m.Fits) (hunread : c.unread = m.bytes ++ rest)
    (hclear : ¬ PgClear c.fate m.reads) :
    ∃ stop c', stop.Ends ∧ collect step s c = (.error stop, c') := by
  obtain ⟨e, c', hread, -⟩ := readRawMsg_fails hfits hunread hclear
  exact ⟨.pgFatal e, c', trivial, collect_of_error (recvMsg_of_error hread)⟩

/-- The first error of a reply, reached without a crash and without a fault. -/
structure RaisesAt (step : S → Frame → Option S) (s : S) (fate : Nat → Option Binary)
    (body pre : List Frame) (e : Frame) (post : List Frame) : Prop where
  split : body = pre ++ e :: post
  before : ∀ m ∈ pre, m.isError = false
  error : e.isError = true
  steps : (pre.foldlM step s).isSome = true
  clear : PgClear fate (readsOf (pre ++ [e]))

/-- A reply read to its end. -/
structure ReadsAll (step : S → Frame → Option S) (s : S) (fate : Nat → Option Binary)
    (reply : PgReply) (s' : S) : Prop where
  noError : ∀ m ∈ reply.body, m.isError = false
  steps : reply.body.foldlM step s = some s'
  clear : PgClear fate (readsOf reply.messages)

variable {body pre post : List Frame} {e z : Frame}

theorem collect_raisesAt (hskip : SkipsNotices step) (hready : ∀ m ∈ pre, m.isReady = false)
    (hfits : ∀ m ∈ pre ++ e :: post, m.Fits) (hunread : c.unread = Frame.stream (pre ++ e :: post))
    (h : RaisesAt step s c.fate (pre ++ e :: post) pre e post) :
    collect step s c = (.error (.pgError (decodeError e.payload)),
      c.consumed (readsOf (pre ++ [e])) (Frame.stream post)) := by
  induction pre generalizing c s with
  | nil => exact collect_raise (hfits e mem_cons_self) h.error hunread h.clear
  | cons m pre ih =>
    rw [cons_append, stream_cons] at hunread
    have hclear := h.clear
    rw [cons_append, readsOf_cons, pgClear_add] at hclear
    have hsteps := h.steps
    rw [foldlM_cons] at hsteps
    rw [collect_message hskip (hfits m mem_cons_self) (h.before m mem_cons_self)
      (hready m mem_cons_self) hunread hclear.1]
    cases hstep : step s m with
    | none =>
      rw [hstep] at hsteps
      cases hsteps
    | some s₁ =>
      rw [hstep] at hsteps
      have hrest := ih (s := s₁) (c := c.consumed m.reads (Frame.stream (pre ++ e :: post)))
        (fun m hm => hready m (mem_cons_of_mem _ hm))
        (fun m hm => hfits m (mem_cons_of_mem _ hm)) rfl
        ⟨rfl, fun m hm => h.before m (mem_cons_of_mem _ hm), h.error, hsteps, hclear.2⟩
      show collect step s₁ _ = _
      rw [hrest, PgConn.consumed_consumed]
      rfl

theorem collect_readsAll (hskip : SkipsNotices step) (hz : z.isReady = true)
    (hready : ∀ m ∈ body, m.isReady = false) (hfits : ∀ m ∈ body ++ [z], m.Fits)
    (hunread : c.unread = Frame.stream (body ++ [z])) (hnoError : ∀ m ∈ body, m.isError = false)
    (hsteps : body.foldlM step s = some s') (hclear : PgClear c.fate (readsOf (body ++ [z]))) :
    collect step s c = (.ok s', c.consumed (readsOf (body ++ [z])) []) := by
  induction body generalizing c s with
  | nil =>
    obtain rfl : s = s' := some.inj hsteps
    exact collect_ready (hfits z mem_cons_self) hz hunread hclear
  | cons m body ih =>
    rw [cons_append, stream_cons] at hunread
    rw [cons_append, readsOf_cons, pgClear_add] at hclear
    rw [foldlM_cons] at hsteps
    rw [collect_message hskip (hfits m mem_cons_self) (hnoError m mem_cons_self)
      (hready m mem_cons_self) hunread hclear.1]
    cases hstep : step s m with
    | none =>
      rw [hstep] at hsteps
      cases hsteps
    | some s₁ =>
      rw [hstep] at hsteps
      have hrest := ih (s := s₁) (c := c.consumed m.reads (Frame.stream (body ++ [z])))
        (fun m hm => hready m (mem_cons_of_mem _ hm))
        (fun m hm => hfits m (mem_cons_of_mem _ hm)) rfl
        (fun m hm => hnoError m (mem_cons_of_mem _ hm)) hsteps hclear.2
      show collect step s₁ _ = _
      rw [hrest, PgConn.consumed_consumed]
      rfl

/-- A loop over a reply ends its process, is left with the reply's first error, or reads it all. -/
theorem collect_cases (hskip : SkipsNotices step) (hready : ∀ m ∈ body, m.isReady = false)
    (hfits : ∀ m ∈ body ++ [z], m.Fits) (hunread : c.unread = Frame.stream (body ++ [z])) :
    (∃ stop c', stop.Ends ∧ collect step s c = (.error stop, c')) ∨
      (∃ pre e post, RaisesAt step s c.fate body pre e post) ∨
      ((∀ m ∈ body, m.isError = false) ∧ (body.foldlM step s).isSome = true ∧
        PgClear c.fate (readsOf (body ++ [z]))) := by
  induction body generalizing c s with
  | nil =>
    by_cases hclear : PgClear c.fate (readsOf [z])
    · exact .inr (.inr ⟨nofun, rfl, hclear⟩)
    · exact .inl (collect_fails (hfits z mem_cons_self) hunread hclear)
  | cons m body ih =>
    have hm := hfits m mem_cons_self
    rw [cons_append, stream_cons] at hunread
    by_cases hclear : PgClear c.fate m.reads
    · by_cases herror : m.isError = true
      · exact .inr (.inl ⟨[], m, body, rfl, nofun, herror, rfl, hclear⟩)
      · have herror := Bool.eq_false_iff.mpr herror
        have hturn := collect_message (s := s) hskip hm herror (hready m mem_cons_self)
          hunread hclear
        rw [hturn]
        cases hstep : step s m with
        | none => exact .inl ⟨.crash, _, trivial, rfl⟩
        | some s₁ =>
          have hrest := ih (s := s₁) (c := c.consumed m.reads (Frame.stream (body ++ [z])))
            (fun m hm => hready m (mem_cons_of_mem _ hm))
            (fun m hm => hfits m (mem_cons_of_mem _ hm)) rfl
          have hsteps : (m :: body).foldlM step s = body.foldlM step s₁ := by
            rw [foldlM_cons, hstep]
            rfl
          rcases hrest with hends | ⟨pre, e, post, hraise⟩ | ⟨hnone, hsome, hall⟩
          · exact .inl hends
          · refine .inr (.inl ⟨m :: pre, e, post, by rw [hraise.split]; rfl,
              forall_mem_cons.mpr ⟨herror, hraise.before⟩, hraise.error, ?_, ?_⟩)
            · rw [foldlM_cons, hstep]
              exact hraise.steps
            · rw [cons_append, readsOf_cons, pgClear_add]
              exact ⟨hclear, hraise.clear⟩
          · refine .inr (.inr ⟨forall_mem_cons.mpr ⟨herror, hnone⟩, ?_, ?_⟩)
            · rw [hsteps]
              exact hsome
            · rw [cons_append, readsOf_cons, pgClear_add]
              exact ⟨hclear, hall⟩
    · exact .inl (collect_fails hm hunread hclear)

end Collect

/-! ## Sending -/

/-- A computation of `n` sends: they all go out, or the process ends. -/
structure Sends (n : Nat) (m : PgM Unit) : Prop where
  clear : ∀ c : PgConn, PgClear c.fate n → ∃ sent, m c = (.ok (), { c.after n with sent := sent })
  fails : ∀ c : PgConn, ¬ PgClear c.fate n → ∃ stop c', stop.Ends ∧ m c = (.error stop, c')

theorem sends_msg (tag : Char) (payload : Binary) : Sends 1 (sendMsg tag payload) where
  clear := fun c h => by
    refine ⟨c.sent ++ Frame.bytes ⟨tag.toUInt8, payload⟩, ?_⟩
    unfold sendMsg xsend
    rw [h 0 (by omega)]
  fails := fun c h => by
    have hfate : c.fate 0 ≠ none := fun hfate => h fun i hi => by
      obtain rfl : i = 0 := by omega
      exact hfate
    obtain ⟨reason, hreason⟩ := ne_none_iff_exists'.mp hfate
    refine ⟨.pgFatal (connError "db.conn.send" reason), c.after 1, trivial, ?_⟩
    unfold sendMsg xsend
    rw [hreason]

theorem Sends.bind {m n : Nat} {x y : PgM Unit} (hx : Sends m x) (hy : Sends n y) :
    Sends (m + n) (Early.bind x fun _ => y) where
  clear := fun c h => by
    rw [pgClear_add] at h
    obtain ⟨sent, hsent⟩ := hx.clear c h.1
    obtain ⟨sent', hsent'⟩ := hy.clear { c.after m with sent := sent } h.2
    refine ⟨sent', ?_⟩
    rw [bind_of_ok hsent, hsent', ← PgConn.after_after]
    rfl
  fails := fun c h => by
    rw [pgClear_add] at h
    by_cases hm : PgClear c.fate m
    · obtain ⟨sent, hsent⟩ := hx.clear c hm
      obtain ⟨stop, c', hends, hstop⟩ :=
        hy.fails { c.after m with sent := sent } fun hn => h ⟨hm, hn⟩
      exact ⟨stop, c', hends, (bind_of_ok hsent).trans hstop⟩
    · obtain ⟨stop, c', hends, hstop⟩ := hx.fails c hm
      exact ⟨stop, c', hends, bind_of_error hstop⟩

section Codec

variable {P V R A S : Type} {K : PgCodec P V R} {c : PgConn}

variable (sql : Binary)

variable {binds : List P}

/-- The five messages of a request. -/
theorem sends_extended (h : (buildBind K binds).isSome = true) :
    Sends 5 (sendExtended K sql binds) := by
  obtain ⟨bound, hbound⟩ := isSome_iff_exists.mp h
  unfold sendExtended
  rw [hbound]
  exact (sends_msg _ _).bind <| (sends_msg _ _).bind <| (sends_msg _ _).bind <|
    (sends_msg _ _).bind (sends_msg _ _)

theorem sendExtended_crash (h : ¬ (buildBind K binds).isSome = true) (c : PgConn) :
    ∃ stop c', stop.Ends ∧ sendExtended K sql binds c = (.error stop, c') := by
  have hbound : buildBind K binds = none := not_isSome_iff_eq_none.mp h
  have hfirst := sends_msg 'P' ([0] ++ sql ++ [0] ++ bigEndian 2 0)
  unfold sendExtended
  rw [hbound]
  by_cases hclear : PgClear c.fate 1
  · obtain ⟨sent, hsent⟩ := hfirst.clear c hclear
    exact ⟨.crash, _, trivial, bind_of_ok hsent⟩
  · obtain ⟨stop, c', hends, hstop⟩ := hfirst.fails c hclear
    exact ⟨stop, c', hends, bind_of_error hstop⟩

/-! ## The whole trip -/

/-- No byte is left of an earlier reply, and no read has failed. -/
structure PgConn.InStep (c : PgConn) : Prop where
  unread : c.unread = []
  sound : c.faulty = false

/-- What the reads of a trip meet, behind its five sends. -/
def PgTrip.readFate (trip : PgTrip) : Nat → Option Binary := fun i => trip.fate (5 + i)

/-- The request is sent, the server answers with an error, and the driver reads it; then a read
fails before the end of the reply. -/
def PgTrip.DrainFails (trip : PgTrip) (step : S → Frame → Option S) (s : S) : Prop :=
  PgClear trip.fate 5 ∧ ∃ pre e post, RaisesAt step s trip.readFate trip.reply.body pre e post ∧
    ¬ PgClear (fun i => trip.readFate (readsOf (pre ++ [e]) + i)) (readsOf (post ++ [trip.reply.ready]))

theorem PgReply.fits_tail {r : PgReply} {pre post : List Frame} {e : Frame}
    (h : r.body = pre ++ e :: post) :
    (∀ m ∈ post, m.isReady = false) ∧ (∀ m ∈ post ++ [r.ready], m.Fits) ∧
      (∀ m ∈ pre, m.isReady = false) ∧ (∀ m ∈ pre ++ e :: (post ++ [r.ready]), m.Fits) := by
  have hnoReady := r.noReady
  have hfits := r.fits
  rw [h] at hnoReady hfits
  rw [append_assoc, cons_append] at hfits
  refine ⟨fun m hm => hnoReady m ?_, fun m hm => hfits m ?_, fun m hm => hnoReady m ?_, hfits⟩
  · exact mem_append_right _ (mem_cons_of_mem _ hm)
  · exact mem_append_right _ (mem_cons_of_mem _ hm)
  · exact mem_append_left _ hm

variable {step : S → Frame → Option S} {s : S} {trip : PgTrip} {binds : List P}

/-- A trip whose request is sent goes on with what is unread, and its reply behind it. -/
theorem roundTrip_of_sent (c : PgConn) (hbinds : (buildBind K binds).isSome = true)
    (hsend : PgClear trip.fate 5) (answer : PgM A) : ∃ sent,
    roundTrip K trip sql binds answer c =
      match answer ⟨c.unread ++ Frame.stream trip.reply.messages, sent, trip.readFate, c.faulty⟩ with
      | (.ok a, c') => (.ok (.ok a), c')
      | (.error (.pgError e), c') => (.ok (.error e), drainUntilReady c')
      | (.error stop, c') => (.error stop, c') := by
  obtain ⟨sent, hsent⟩ := (sends_extended sql hbinds).clear { c with fate := trip.fate } hsend
  refine ⟨sent, ?_⟩
  unfold roundTrip
  dsimp only
  rw [bind_of_ok hsent]
  rfl

theorem roundTrip_inStep (hc : c.InStep) (hbinds : (buildBind K binds).isSome = true)
    (hsend : PgClear trip.fate 5) (answer : PgM A) : ∃ sent,
    roundTrip K trip sql binds answer c =
      match answer ⟨Frame.stream trip.reply.messages, sent, trip.readFate, false⟩ with
      | (.ok a, c') => (.ok (.ok a), c')
      | (.error (.pgError e), c') => (.ok (.error e), drainUntilReady c')
      | (.error stop, c') => (.error stop, c') := by
  have htrip := roundTrip_of_sent sql c hbinds hsend answer
  rwa [hc.unread, hc.sound, nil_append] at htrip

theorem roundTrip_of_unsent (answer : PgM A)
    (h : ¬ ((buildBind K binds).isSome = true ∧ PgClear trip.fate 5)) :
    ∃ stop c', stop.Ends ∧ roundTrip K trip sql binds answer c = (.error stop, c') := by
  obtain ⟨stop, c', hends, hstop⟩ : ∃ stop c', stop.Ends ∧
      sendExtended K sql binds { c with fate := trip.fate } = (.error stop, c') := by
    by_cases hbinds : (buildBind K binds).isSome = true
    · exact (sends_extended sql hbinds).fails _ fun hclear => h ⟨hbinds, hclear⟩
    · exact sendExtended_crash sql hbinds _
  refine ⟨stop, c', hends, ?_⟩
  unfold roundTrip
  dsimp only
  rw [bind_of_error hstop]
  cases stop with
  | pgError e => exact absurd hends id
  | pgFatal e => rfl
  | crash => rfl

variable (finish : S → A)

/-- A trip that reads its server's error, and what it drains. -/
theorem roundTrip_raises (hskip : SkipsNotices step) (hc : c.InStep)
    (hbinds : (buildBind K binds).isSome = true) (hsend : PgClear trip.fate 5)
    {pre post : List Frame} {e : Frame}
    (h : RaisesAt step s trip.readFate trip.reply.body pre e post) :
    ∃ c', roundTrip K trip sql binds (Early.bind (collect step s) fun s => Early.pure (finish s)) c
        = (.ok (.error (decodeError e.payload)), drainUntilReady c') ∧
      c'.unread = Frame.stream (post ++ [trip.reply.ready]) ∧ c'.faulty = false ∧
      c'.fate = fun i => trip.readFate (readsOf (pre ++ [e]) + i) := by
  obtain ⟨sent, htrip⟩ := roundTrip_inStep sql hc hbinds hsend
    (Early.bind (collect step s) fun s => Early.pure (finish s))
  obtain ⟨-, -, hready, hfits⟩ := PgReply.fits_tail h.split
  have hmessages : trip.reply.messages = pre ++ e :: (post ++ [trip.reply.ready]) := by
    rw [PgReply.messages, h.split, append_assoc, cons_append]
  have hcollect := collect_raisesAt (c := ⟨Frame.stream (pre ++ e :: (post ++ [trip.reply.ready])),
    sent, trip.readFate, false⟩) hskip hready hfits rfl ⟨rfl, h.before, h.error, h.steps, h.clear⟩
  rw [htrip, hmessages, bind_of_error hcollect]
  exact ⟨_, rfl, rfl, rfl, rfl⟩

/-- A read that fails while the driver drains goes unnoticed. -/
theorem roundTrip_drainFails (hskip : SkipsNotices step) (hc : c.InStep)
    (hbinds : (buildBind K binds).isSome = true) (h : trip.DrainFails step s) :
    ∃ e c', roundTrip K trip sql binds
      (Early.bind (collect step s) fun s => Early.pure (finish s)) c = (.ok (.error e), c') ∧
      c'.faulty = true := by
  obtain ⟨hsend, pre, e, post, hraise, hfail⟩ := h
  obtain ⟨c', htrip, hunread, -, hfate⟩ :=
    roundTrip_raises sql finish hskip hc hbinds hsend hraise
  obtain ⟨hready, hfits, -, -⟩ := PgReply.fits_tail hraise.split
  exact ⟨_, _, htrip, drain_fails hready hfits hunread (by rw [hfate]; exact hfail)⟩

/-- Everything of the trip goes through, and the driver reads its reply to the end. -/
structure PgTrip.Whole (trip : PgTrip) (step : S → Frame → Option S) (s s' : S) : Prop where
  send : PgClear trip.fate 5
  read : ReadsAll step s trip.readFate trip.reply s'

theorem roundTrip_whole (hskip : SkipsNotices step) (hc : c.InStep)
    (hbinds : (buildBind K binds).isSome = true) {s' : S} (h : trip.Whole step s s') :
    ∃ c', roundTrip K trip sql binds
      (Early.bind (collect step s) fun s => Early.pure (finish s)) c = (.ok (.ok (finish s')), c') ∧
      c'.InStep := by
  obtain ⟨sent, htrip⟩ := roundTrip_inStep sql hc hbinds h.send
    (Early.bind (collect step s) fun s => Early.pure (finish s))
  have hcollect := collect_readsAll (c := ⟨Frame.stream trip.reply.messages, sent, trip.readFate,
    false⟩) hskip trip.reply.isReady trip.reply.noReady trip.reply.fits rfl h.read.noError
    h.read.steps h.read.clear
  rw [htrip, bind_of_ok hcollect]
  exact ⟨_, rfl, rfl, rfl⟩

/-- Unless a read fails in the drain, a trip ends the process, or it stays in step: it answers with
an error, or with its own reply. -/
theorem roundTrip_cases (hskip : SkipsNotices step) (hc : c.InStep)
    (hdrain : ¬ ((buildBind K binds).isSome = true ∧ trip.DrainFails step s)) :
    (∃ stop c', stop.Ends ∧ roundTrip K trip sql binds
      (Early.bind (collect step s) fun s => Early.pure (finish s)) c = (.error stop, c')) ∨
    (∃ a c', roundTrip K trip sql binds
      (Early.bind (collect step s) fun s => Early.pure (finish s)) c = (.ok a, c') ∧ c'.InStep ∧
      ∀ v, a = .ok v → ∃ s', trip.Whole step s s' ∧ v = finish s') := by
  by_cases hsent : (buildBind K binds).isSome = true ∧ PgClear trip.fate 5
  · obtain ⟨hbinds, hsend⟩ := hsent
    obtain ⟨sent, htrip⟩ := roundTrip_inStep sql hc hbinds hsend
      (Early.bind (collect step s) fun s => Early.pure (finish s))
    rcases collect_cases (s := s) (c := ⟨Frame.stream trip.reply.messages, sent, trip.readFate, false⟩)
      hskip trip.reply.noReady trip.reply.fits rfl with
      ⟨stop, c', hends, hstop⟩ | ⟨pre, e, post, hraise⟩ | ⟨hnone, hsome, hclear⟩
    · refine .inl ⟨stop, c', hends, ?_⟩
      rw [htrip, bind_of_error hstop]
      cases stop with
      | pgError e => exact absurd hends id
      | pgFatal e => rfl
      | crash => rfl
    · obtain ⟨c', hraises, hunread, hsound, hfate⟩ :=
        roundTrip_raises sql finish hskip hc hbinds hsend hraise
      obtain ⟨hready, hfits, -, -⟩ := PgReply.fits_tail hraise.split
      have hclear : PgClear c'.fate (readsOf (post ++ [trip.reply.ready])) := by
        by_contra hfail
        rw [hfate] at hfail
        exact hdrain ⟨hbinds, hsend, pre, e, post, hraise, hfail⟩
      have hdrained := drain_clear trip.reply.isReady hready hfits hunread hclear
      refine .inr ⟨_, _, hraises, ?_, nofun⟩
      rw [hdrained]
      exact ⟨rfl, hsound⟩
    · obtain ⟨s', hsteps⟩ := isSome_iff_exists.mp hsome
      have hwhole : trip.Whole step s s' := ⟨hsend, hnone, hsteps, hclear⟩
      obtain ⟨c', hok, hstep⟩ := roundTrip_whole sql finish hskip hc hbinds hwhole
      refine .inr ⟨_, c', hok, hstep, fun v hv => ⟨s', hwhole, ?_⟩⟩
      exact (Except.ok.inj hv).symm
  · exact .inl (roundTrip_of_unsent sql _ hsent)

end Codec

end Ridge
