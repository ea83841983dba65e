import Ridge.Lexer.Nested

/-!
# ridge-lexer — what the layout pass reads of a stream

The pass reads the kinds of the tokens, the columns of the lines and whether two lines start at the
same byte. Blank lines are passed over by both of its walks (`process_eq`), and streams whose lines
are alike in what is read give the same kinds (`layoutLines_alike`).
-/

namespace Ridge.Lexer

open List Option

variable {toks toks' : List (Token × Span)} {line line' : LogicalLine} {st st' : LayoutState}

/-- The kinds of the tokens, their places left out. -/
def kinds (toks : List (Token × Span)) : List Token := toks.map Prod.fst

@[simp] theorem kinds_nil : kinds [] = [] := rfl

@[simp] theorem kinds_cons (tok : Token × Span) (toks : List (Token × Span)) :
    kinds (tok :: toks) = tok.1 :: kinds toks := rfl

@[simp] theorem kinds_append (toks toks' : List (Token × Span)) :
    kinds (toks ++ toks') = kinds toks ++ kinds toks' :=
  map_append

theorem kinds_map_const (tok : Token) (here : Span) (closed : List Nat) :
    kinds (closed.map fun _ => (tok, here)) = closed.map fun _ => tok :=
  map_map

theorem kinds_eq_nil : kinds toks = [] ↔ toks = [] :=
  map_eq_nil_iff

/-! ## Blank lines -/

def nonblank (lines : List LogicalLine) : List LogicalLine :=
  lines.filter fun line => line.toks ≠ []

theorem nonblank_blank (h : line.toks = []) (lines : List LogicalLine) :
    nonblank (line :: lines) = nonblank lines :=
  filter_cons_of_neg (by simp [h])

theorem nonblank_cons (h : line.toks ≠ []) (lines : List LogicalLine) :
    nonblank (line :: lines) = line :: nonblank lines :=
  filter_cons_of_pos (by simp [h])

theorem nonblank_append (lines lines' : List LogicalLine) :
    nonblank (lines ++ lines') = nonblank lines ++ nonblank lines' :=
  filter_append ..

theorem layoutLines_nonblank (eofSpan : Span) (st : LayoutState) (lines : List LogicalLine) :
    layoutLines eofSpan st (nonblank lines) = layoutLines eofSpan st lines := by
  induction lines generalizing st with
  | nil => rfl
  | cons line rest ih =>
    cases htoks : line.toks with
    | nil =>
      rw [nonblank_blank htoks, ih, layoutLines.eq_2, htoks]
    | cons first others =>
      rw [nonblank_cons (by simp [htoks]), layoutLines.eq_2, layoutLines.eq_2, htoks]
      simp only [ih]

/-- The line completes the one before, or the one before asks for it. -/
def joins (prev line : LogicalLine) : Bool :=
  (line.toks.head?.any fun tok => isLeadingContinuationOperator tok.1) ||
    prev.toks.getLast?.any fun tok => isContinuationOperator tok.1

variable (merged : List LogicalLine)

/-- `mergeLine` where no line is blank. -/
def joinLine (line : LogicalLine) : List LogicalLine :=
  match merged with
  | [] => [line]
  | prev :: older =>
    if joins prev line then { prev with toks := prev.toks ++ line.toks } :: older
    else line :: prev :: older

theorem joinLine_cons (prev : LogicalLine) (older : List LogicalLine) (line : LogicalLine) :
    joinLine (prev :: older) line =
      if joins prev line then { prev with toks := prev.toks ++ line.toks } :: older
      else line :: prev :: older :=
  rfl

theorem find?_nonblank : (merged.find? fun line => line.toks ≠ []) = (nonblank merged).head? :=
  head?_filter.symm

theorem extendPredecessor_nonblank (toks : List (Token × Span)) (merged : List LogicalLine) :
    (extendPredecessor toks merged).map nonblank =
      match nonblank merged with
      | [] => none
      | prev :: older => some ({ prev with toks := prev.toks ++ toks } :: older) := by
  induction merged with
  | nil => rfl
  | cons line older ih =>
    unfold extendPredecessor
    by_cases hblank : line.toks = []
    · rw [if_pos hblank, nonblank_blank hblank, ← ih, Option.map_map]
      refine congrArg (Option.map · (extendPredecessor toks older)) (funext fun lines => ?_)
      exact nonblank_blank hblank lines
    · rw [if_neg hblank, nonblank_cons hblank]
      show some (nonblank _) = _
      rw [nonblank_cons (by simp [hblank])]

theorem nonblank_mergeLine (line : LogicalLine) :
    nonblank (mergeLine merged line) =
      if line.toks = [] then nonblank merged else joinLine (nonblank merged) line := by
  cases htoks : line.toks with
  | nil =>
    rw [if_pos rfl, mergeLine, htoks]
    exact nonblank_blank htoks merged
  | cons first others =>
    have hline : line.toks ≠ [] := by simp [htoks]
    have hext := extendPredecessor_nonblank line.toks merged
    rw [if_neg (cons_ne_nil _ _), mergeLine, htoks]
    dsimp only
    rw [predTrailsOperator, find?_nonblank, ← htoks]
    cases hmerged : nonblank merged with
    | nil =>
      rw [hmerged] at hext
      have hnone : extendPredecessor line.toks merged = none := map_eq_none_iff.mp hext
      rw [hnone, getD_none, ite_self, nonblank_cons hline, hmerged]
      rfl
    | cons prev older =>
      rw [hmerged] at hext
      obtain ⟨out, hout, hprev⟩ := map_eq_some_iff.mp hext
      rw [hout, getD_some, apply_ite nonblank, hprev, nonblank_cons hline, hmerged,
        joinLine_cons, joins, htoks]
      rfl

theorem nonblank_foldl_mergeLine (lines merged : List LogicalLine) :
    nonblank (lines.foldl mergeLine merged) = (nonblank lines).foldl joinLine (nonblank merged) := by
  induction lines generalizing merged with
  | nil => rfl
  | cons line lines ih =>
    rw [foldl_cons, ih, nonblank_mergeLine]
    by_cases hblank : line.toks = []
    · rw [if_pos hblank, nonblank_blank hblank]
    · rw [if_neg hblank, nonblank_cons hblank, foldl_cons]

/-- The lines the pass lays out, newest first. -/
def joinedLines (toks : List (Token × Span)) : List LogicalLine :=
  (nonblank (physicalLines 0 [] toks)).foldl joinLine []

def eofSpanOf (toks : List (Token × Span)) : Span :=
  (toks.getLast?.map fun tok => Span.point tok.2.stop).getD (Span.point 0)

theorem process_eq (toks : List (Token × Span)) :
    process toks = layoutLines (eofSpanOf toks) .start (joinedLines toks).reverse := by
  unfold process joinedLines
  rw [← layoutLines_nonblank, collectLogicalLines, nonblank, filter_reverse]
  show layoutLines _ _ (nonblank _).reverse = _
  rw [nonblank_foldl_mergeLine]
  rfl

/-! ## Lines that are alike -/

/-- Equal bytes on one side are equal on the other. -/
def Faithful (same : Nat → Nat → Prop) : Prop :=
  ∀ ⦃a b a' b'⦄, same a b → same a' b' → (a = a' ↔ b = b')

structure Alike (same : Nat → Nat → Prop) (line line' : LogicalLine) : Prop where
  col : line.col = line'.col
  kinds : kinds line.toks = kinds line'.toks
  lineStart : same line.lineStart line'.lineStart

structure AlikeFrame (same : Nat → Nat → Prop) (frame frame' : BracketFrame) : Prop where
  openLineStart : same frame.openLineStart frame'.openLineStart
  baseline : frame.baseline = frame'.baseline

structure AlikeState (same : Nat → Nat → Prop) (st st' : LayoutState) : Prop where
  stack : st.stack = st'.stack
  bracketDepth : st.bracketDepth = st'.bracketDepth
  bracketFrames : List.Forall₂ (AlikeFrame same) st.bracketFrames st'.bracketFrames
  firstLogicalLine : st.firstLogicalLine = st'.firstLogicalLine
  prevLastTok : st.prevLastTok = st'.prevLastTok

theorem Alike.mono {same same' : Nat → Nat → Prop} (h : ∀ {a b}, same a b → same' a b)
    (hl : Alike same line line') : Alike same' line line' :=
  ⟨hl.col, hl.kinds, h hl.lineStart⟩

variable {same : Nat → Nat → Prop}

theorem hasTopLevelArrow_kinds {line line' : List (Token × Span)} (h : kinds line = kinds line')
    (depth : Int) : hasTopLevelArrow depth line = hasTopLevelArrow depth line' := by
  induction line generalizing line' depth with
  | nil => rw [kinds_eq_nil.mp h.symm]
  | cons tok rest ih =>
    obtain ⟨t, span⟩ := tok
    cases line' with
    | nil => cases h
    | cons tok' rest' =>
      obtain ⟨t', span'⟩ := tok'
      obtain ⟨htok, hrest⟩ := cons.inj h
      cases (show t = t' from htok)
      unfold hasTopLevelArrow
      rw [ih hrest, ih hrest, ih hrest]

theorem isBracketArgContinuation_kinds {line line' : List (Token × Span)}
    (h : kinds line = kinds line') (prevLast : Option Token) :
    isBracketArgContinuation line prevLast = isBracketArgContinuation line' prevLast := by
  have harrow := hasTopLevelArrow_kinds h 0
  cases line with
  | nil => rw [kinds_eq_nil.mp h.symm]
  | cons tok rest =>
    obtain ⟨t, span⟩ := tok
    cases line' with
    | nil => cases h
    | cons tok' rest' =>
      obtain ⟨t', span'⟩ := tok'
      cases (show t = t' from (cons.inj h).1)
      unfold isBracketArgContinuation lineHasTopLevelArrow
      cases t <;> first
        | rfl
        | rw [harrow]

theorem head?_kinds (h : kinds toks = kinds toks') :
    toks.head?.map Prod.fst = toks'.head?.map Prod.fst := by
  rw [← head?_map, ← head?_map]
  exact congrArg List.head? h

theorem getLast?_kinds (h : kinds toks = kinds toks') :
    toks.getLast?.map Prod.fst = toks'.getLast?.map Prod.fst := by
  rw [← getLast?_map, ← getLast?_map]
  exact congrArg List.getLast? h

theorem any_kind {tok tok' : Option (Token × Span)} (h : tok.map Prod.fst = tok'.map Prod.fst)
    (test : Token → Bool) : (tok.any fun t => test t.1) = tok'.any fun t => test t.1 := by
  cases tok <;> cases tok'
  · rfl
  · cases h
  · cases h
  · exact congrArg test (some.inj h)

theorem joins_alike {prev prev' : LogicalLine} (hprev : Alike same prev prev')
    (hline : Alike same line line') : joins prev line = joins prev' line' := by
  unfold joins
  rw [any_kind (head?_kinds hline.kinds), any_kind (getLast?_kinds hprev.kinds)]

theorem joinLine_alike {merged merged' : List LogicalLine}
    (hmerged : List.Forall₂ (Alike same) merged merged') (hline : Alike same line line') :
    List.Forall₂ (Alike same) (joinLine merged line) (joinLine merged' line') := by
  cases hmerged with
  | nil => exact .cons hline .nil
  | cons hprev holder =>
    rw [joinLine_cons, joinLine_cons, joins_alike hprev hline]
    split
    · refine .cons ⟨hprev.col, ?_, hprev.lineStart⟩ holder
      show kinds (_ ++ _) = kinds (_ ++ _)
      rw [kinds_append, kinds_append, hprev.kinds, hline.kinds]
    · exact .cons hline (.cons hprev holder)

theorem foldl_joinLine_alike {lines lines' merged merged' : List LogicalLine}
    (hlines : List.Forall₂ (Alike same) lines lines')
    (hmerged : List.Forall₂ (Alike same) merged merged') :
    List.Forall₂ (Alike same) (lines.foldl joinLine merged) (lines'.foldl joinLine merged') := by
  induction hlines generalizing merged merged' with
  | nil => exact hmerged
  | cons hline _ ih => exact ih (joinLine_alike hmerged hline)

variable {lines lines' : List LogicalLine}

theorem nonblank_alike (h : List.Forall₂ (Alike same) lines lines') :
    List.Forall₂ (Alike same) (nonblank lines) (nonblank lines') := by
  induction h with
  | nil => exact .nil
  | @cons line line' lines lines' hline _ ih =>
    by_cases hblank : line.toks = []
    · have hblank' : line'.toks = [] := kinds_eq_nil.mp (hline.kinds ▸ kinds_eq_nil.mpr hblank)
      rw [nonblank_blank hblank, nonblank_blank hblank']
      exact ih
    · have hblank' : line'.toks ≠ [] := fun h =>
        hblank (kinds_eq_nil.mp (hline.kinds ▸ kinds_eq_nil.mpr h))
      rw [nonblank_cons hblank, nonblank_cons hblank']
      exact .cons hline ih

theorem AlikeState.exists_frames (h : AlikeState same st st') :
    ∃ frames', st' = { st with bracketFrames := frames' } ∧
      List.Forall₂ (AlikeFrame same) st.bracketFrames frames' := by
  refine ⟨st'.bracketFrames, ?_, h.bracketFrames⟩
  rw [h.stack, h.bracketDepth, h.firstLogicalLine, h.prevLastTok]

/-! ## One line of two runs -/

variable {lineStart lineStart' : Nat}

theorem trackBracket_alike (hstart : same lineStart lineStart') (h : AlikeState same st st')
    (tok : Token) :
    AlikeState same (trackBracket lineStart st tok) (trackBracket lineStart' st' tok) := by
  unfold trackBracket
  split
  · exact { h with
      bracketDepth := congrArg (· + 1) h.bracketDepth
      bracketFrames := .cons ⟨hstart, rfl⟩ h.bracketFrames }
  · split
    · refine { h with bracketDepth := congrArg (· - 1) h.bracketDepth, bracketFrames := ?_ }
      obtain ⟨frames', rfl, hframes⟩ := h.exists_frames
      show List.Forall₂ _ st.bracketFrames.tail frames'.tail
      cases hst : st.bracketFrames with
      | nil =>
        rw [hst] at hframes
        rw [forall₂_nil_left_iff.mp hframes]
        exact .nil
      | cons frame outer =>
        rw [hst] at hframes
        obtain ⟨_, _, _, houter, rfl⟩ := forall₂_cons_left_iff.mp hframes
        exact houter
    · exact h

theorem trackBrackets_alike (hstart : same lineStart lineStart') (htoks : kinds toks = kinds toks')
    (h : AlikeState same st st') :
    AlikeState same (trackBrackets lineStart st toks) (trackBrackets lineStart' st' toks') := by
  unfold trackBrackets
  induction toks generalizing toks' st st' with
  | nil =>
    rw [kinds_eq_nil.mp htoks.symm]
    exact h
  | cons tok rest ih =>
    cases toks' with
    | nil => cases htoks
    | cons tok' rest' =>
      obtain ⟨htok, hrest⟩ := cons.inj htoks
      rw [foldl_cons, foldl_cons, ← htok]
      exact ih hrest (trackBracket_alike hstart h tok.1)

/-- The two runs open a line alike. -/
structure AlikeOpening (same : Nat → Nat → Prop) (o o' : Opening) : Prop where
  state : AlikeState same o.state o'.state
  layout : kinds o.layout = kinds o'.layout

theorem outsideBrackets_alike (h : AlikeState same st st') (hline : Alike same line line')
    (here here' : Span) :
    AlikeOpening same (outsideBrackets st line here) (outsideBrackets st' line' here') := by
  obtain ⟨frames', rfl, hframes⟩ := h.exists_frames
  unfold outsideBrackets LayoutState.top
  rw [← hline.col, ← isBracketArgContinuation_kinds hline.kinds]
  split
  · exact ⟨⟨rfl, rfl, hframes, rfl, rfl⟩, rfl⟩
  · split
    · split
      · exact ⟨h, rfl⟩
      · exact ⟨⟨rfl, rfl, hframes, rfl, rfl⟩, rfl⟩
    · split
      · exact ⟨h, rfl⟩
      · refine ⟨⟨rfl, rfl, hframes, rfl, rfl⟩, ?_⟩
        show kinds (_ ++ _) = kinds (_ ++ _)
        rw [kinds_append, kinds_append, kinds_map_const, kinds_map_const]
        rfl

theorem insideBrackets_alike (hsame : Faithful same) (h : AlikeState same st st')
    (hline : Alike same line line') (here here' : Span) :
    AlikeOpening same (insideBrackets st line here) (insideBrackets st' line' here') := by
  obtain ⟨frames', rfl, hframes⟩ := h.exists_frames
  unfold insideBrackets
  cases hst : st.bracketFrames with
  | nil =>
    rw [hst] at hframes
    rw [forall₂_nil_left_iff.mp hframes] at h ⊢
    exact ⟨h, rfl⟩
  | cons frame outer =>
    rw [hst] at hframes
    obtain ⟨frame', outer', hframe, houter, rfl⟩ := forall₂_cons_left_iff.mp hframes
    -- The two lines are on the opener's line together or not at all.
    have hopener : line.lineStart = frame.openLineStart ↔
        line'.lineStart = frame'.openLineStart :=
      hsame hline.lineStart hframe.openLineStart
    dsimp only
    rw [← hframe.baseline, ← hline.col, ← isBracketArgContinuation_kinds hline.kinds]
    cases frame.baseline with
    | some baseline =>
      simp only [ne_eq, hopener]
      split
      · exact ⟨h, rfl⟩
      · exact ⟨h, rfl⟩
    | none =>
      simp only [ne_eq, hopener]
      split
      · exact ⟨⟨rfl, rfl, .cons ⟨hframe.openLineStart, rfl⟩ houter, rfl, rfl⟩, rfl⟩
      · exact ⟨h, rfl⟩

theorem layoutLine_alike (hsame : Faithful same) (h : AlikeState same st st')
    (hline : Alike same line line') (first first' : Token × Span) :
    AlikeState same (layoutLine st line first).1 (layoutLine st' line' first').1 ∧
      kinds (layoutLine st line first).2.1 = kinds (layoutLine st' line' first').2.1 := by
  have hopening : AlikeOpening same
      (if st.bracketDepth = 0 then outsideBrackets st line (Span.point first.2.start)
        else insideBrackets st line (Span.point first.2.start))
      (if st'.bracketDepth = 0 then outsideBrackets st' line' (Span.point first'.2.start)
        else insideBrackets st' line' (Span.point first'.2.start)) := by
    rw [← h.bracketDepth]
    split
    · exact outsideBrackets_alike h hline _ _
    · exact insideBrackets_alike hsame h hline _ _
  have htrack := trackBrackets_alike hline.lineStart hline.kinds hopening.state
  refine ⟨{ htrack with prevLastTok := getLast?_kinds hline.kinds }, ?_⟩
  show kinds (_ ++ _) = kinds (_ ++ _)
  rw [kinds_append, kinds_append, hopening.layout, hline.kinds]

theorem layoutLines_alike (hsame : Faithful same) (hlines : List.Forall₂ (Alike same) lines lines')
    (h : AlikeState same st st') (eofSpan eofSpan' : Span) :
    kinds (layoutLines eofSpan st lines).1 = kinds (layoutLines eofSpan' st' lines').1 := by
  induction hlines generalizing st st' with
  | nil =>
    show kinds (_ ++ _) = kinds (_ ++ _)
    rw [kinds_append, kinds_append, kinds_map_const, kinds_map_const, h.stack]
    rfl
  | @cons line line' lines lines' hline _ ih =>
    rw [layoutLines.eq_2, layoutLines.eq_2]
    cases htoks : line.toks with
    | nil =>
      rw [show line'.toks = [] from
        kinds_eq_nil.mp (hline.kinds ▸ kinds_eq_nil.mpr htoks)]
      exact ih h
    | cons first others =>
      cases htoks' : line'.toks with
      | nil =>
        have hkinds := hline.kinds
        rw [htoks, htoks'] at hkinds
        cases hkinds
      | cons first' others' =>
        obtain ⟨hst, hout⟩ := layoutLine_alike hsame h hline first first'
        show kinds (_ ++ _) = kinds (_ ++ _)
        rw [kinds_append, kinds_append, hout, ih hst]

theorem alikeState_start : AlikeState same .start .start := ⟨rfl, rfl, .nil, rfl, rfl⟩

/-- Streams whose joined lines are alike come out with the same kinds. -/
theorem process_alike (hsame : Faithful same)
    (h : List.Forall₂ (Alike same) (joinedLines toks) (joinedLines toks')) :
    kinds (process toks).1 = kinds (process toks').1 := by
  rw [process_eq, process_eq]
  exact layoutLines_alike hsame (rel_reverse h) alikeState_start _ _

end Ridge.Lexer
