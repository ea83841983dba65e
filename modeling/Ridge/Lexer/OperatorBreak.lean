import Ridge.Lexer.Lines

/-!
# ridge-lexer — a binary operator leads or trails a line break

A stream is a sequence of pieces, each a distance behind the one before: that is all the layout pass
can see of where a token is. Behind a line break the pass reads a stream the same wherever it is
placed, so the two spellings of a break differ in two lines only, and these are joined into lines
that are alike.
-/

namespace Ridge.Lexer

open List

/-- A token other than a newline. -/
structure Word where
  kind : Token
  len : Nat
  notNewline : kind ≠ .newline

/-- A token of a stream, behind the bytes since the one before. A newline is one byte long. -/
inductive Piece where
  | newline (gap : Nat)
  | word (gap : Nat) (w : Word)

/-- The stream that starts at a byte. -/
def place (pos : Nat) : List Piece → List (Token × Span)
  | [] => []
  | .newline gap :: rest => (.newline, ⟨pos + gap, pos + gap + 1⟩) :: place (pos + gap + 1) rest
  | .word gap w :: rest => (w.kind, ⟨pos + gap, pos + gap + w.len⟩) :: place (pos + gap + w.len) rest

theorem physicalLines_newline (lineStart : Nat) (current : List (Token × Span)) (span : Span)
    (rest : List (Token × Span)) :
    physicalLines lineStart current ((.newline, span) :: rest) =
      ⟨computeCol current lineStart, lineStart, current⟩ :: physicalLines span.stop [] rest :=
  rfl

theorem physicalLines_tok (lineStart : Nat) (current : List (Token × Span)) {kind : Token}
    (hkind : kind ≠ .newline) (span : Span) (rest : List (Token × Span)) :
    physicalLines lineStart current ((kind, span) :: rest) =
      physicalLines lineStart (current ++ [(kind, span)]) rest := by
  rw [physicalLines]
  intro span' h
  exact hkind (congrArg Prod.fst h)

theorem computeCol_append {current : List (Token × Span)} (h : current ≠ [])
    (toks : List (Token × Span)) (lineStart : Nat) :
    computeCol (current ++ toks) lineStart = computeCol current lineStart := by
  cases current with
  | nil => exact absurd rfl h
  | cons tok rest => rfl

/-! ## Where lines start -/

variable {pieces : List Piece}

theorem lineStart_lt {lineStart pos : Nat} (hpos : lineStart ≤ pos)
    (current : List (Token × Span)) :
    ((physicalLines lineStart current (place pos pieces)).map LogicalLine.lineStart).Pairwise
        (· < ·) ∧
      ∀ line ∈ physicalLines lineStart current (place pos pieces), lineStart ≤ line.lineStart := by
  induction pieces generalizing lineStart pos current with
  | nil => simp [place, physicalLines]
  | cons piece rest ih =>
    cases piece with
    | newline gap =>
      have hstep : pos + gap + 1 ≤ pos + gap + 1 := le_refl _
      obtain ⟨hpair, hle⟩ := ih hstep []
      rw [place, physicalLines_newline, map_cons, pairwise_cons]
      refine ⟨⟨fun start hmem => ?_, hpair⟩, fun line hline => ?_⟩
      · obtain ⟨line, hline, rfl⟩ := mem_map.mp hmem
        have hline := hle line hline
        show lineStart < line.lineStart
        omega
      · rcases mem_cons.mp hline with rfl | hline
        · exact le_refl _
        · have hline := hle line hline
          omega
    | word gap w =>
      rw [place, physicalLines_tok _ _ w.notNewline]
      exact ih (by omega) _

theorem nodup_lineStarts (pieces : List Piece) :
    ((physicalLines 0 [] (place 0 pieces)).map LogicalLine.lineStart).Nodup :=
  (lineStart_lt (le_refl 0) []).1.imp Nat.ne_of_lt

/-- Positions in two lists of lines correspond, where no two lines of a list start alike. -/
theorem faithful_zip {starts starts' : List Nat} (h : starts.Nodup) (h' : starts'.Nodup) :
    Faithful fun a b => (a, b) ∈ starts.zip starts' := by
  intro a b a' b' hab hab'
  obtain ⟨i, hi, hget⟩ := getElem_of_mem hab
  obtain ⟨j, hj, hget'⟩ := getElem_of_mem hab'
  rw [getElem_zip] at hget hget'
  obtain ⟨rfl, rfl⟩ := Prod.mk.inj hget
  obtain ⟨rfl, rfl⟩ := Prod.mk.inj hget'
  rw [h.getElem_inj_iff, h'.getElem_inj_iff]

/-! ## The stream in front of a place -/

variable (pre : List Piece)

/-- In front of a place the pass reads lines that do not depend on what comes after it. -/
theorem physicalLines_front (lineStart pos : Nat) (current : List (Token × Span)) :
    ∃ lines lineStart' current' pos', ∀ rest,
      physicalLines lineStart current (place pos (pre ++ rest)) =
        lines ++ physicalLines lineStart' current' (place pos' rest) := by
  induction pre generalizing lineStart pos current with
  | nil => exact ⟨[], lineStart, current, pos, fun _ => rfl⟩
  | cons piece pre ih =>
    cases piece with
    | newline gap =>
      obtain ⟨lines, lineStart', current', pos', hfront⟩ := ih (pos + gap + 1) (pos + gap + 1) []
      refine ⟨⟨computeCol current lineStart, lineStart, current⟩ :: lines, lineStart', current',
        pos', fun rest => ?_⟩
      rw [cons_append, place, physicalLines_newline, hfront]
      rfl
    | word gap w =>
      obtain ⟨lines, lineStart', current', pos', hfront⟩ :=
        ih lineStart (pos + gap + w.len) (current ++ [(w.kind, ⟨pos + gap, pos + gap + w.len⟩)])
      refine ⟨lines, lineStart', current', pos', fun rest => ?_⟩
      rw [cons_append, place, physicalLines_tok _ _ w.notNewline, hfront]

/-! ## The stream behind a place -/

/-- Lines that read the same, wherever they start. -/
def SameLine (line line' : LogicalLine) : Prop :=
  line.col = line'.col ∧ kinds line.toks = kinds line'.toks

/-- Two readings of what comes behind a place: it completes the line read so far, and the lines after
that read the same. A line without tokens so far takes its column from here. -/
structure Behind (lineStart lineStart' : Nat) (current current' toks toks' : List (Token × Span))
    (line line' : LogicalLine) (rest rest' : List LogicalLine) : Prop where
  wrote : line.toks = current ++ toks
  wrote' : line'.toks = current' ++ toks'
  sameKinds : kinds toks = kinds toks'
  starts : line.lineStart = lineStart
  starts' : line'.lineStart = lineStart'
  col : current ≠ [] → line.col = computeCol current lineStart
  col' : current' ≠ [] → line'.col = computeCol current' lineStart'
  fresh : current = [] → line.col = line'.col
  after : List.Forall₂ SameLine rest rest'

variable {current current' : List (Token × Span)}

variable {rest rest' : List LogicalLine}

theorem behind_ends (lineStart lineStart' : Nat) (hblank : current = [] ↔ current' = [])
    (hrest : List.Forall₂ SameLine rest rest') :
    Behind lineStart lineStart' current current' [] []
      ⟨computeCol current lineStart, lineStart, current⟩
      ⟨computeCol current' lineStart', lineStart', current'⟩ rest rest' where
  wrote := (append_nil _).symm
  wrote' := (append_nil _).symm
  sameKinds := rfl
  starts := rfl
  starts' := rfl
  col _ := rfl
  col' _ := rfl
  fresh h := by rw [h, hblank.mp h]; rfl
  after := hrest

theorem physicalLines_behind (post : List Piece) (lineStart lineStart' pos pos' : Nat)
    (hblank : current = [] ↔ current' = [])
    (hcol : current = [] → pos - lineStart = pos' - lineStart' ∧ lineStart ≤ pos ∧ lineStart' ≤ pos') :
    ∃ toks toks' line line' rest rest',
      physicalLines lineStart current (place pos post) = line :: rest ∧
      physicalLines lineStart' current' (place pos' post) = line' :: rest' ∧
      Behind lineStart lineStart' current current' toks toks' line line' rest rest' := by
  induction post generalizing lineStart lineStart' pos pos' current current' with
  | nil => exact ⟨[], [], _, _, [], [], rfl, rfl, behind_ends _ _ hblank .nil⟩
  | cons piece post ih =>
    cases piece with
    | newline gap =>
      -- A fresh line: its column is counted from the newline.
      obtain ⟨toks, toks', line, line', rest, rest', hlines, hlines', hbehind⟩ :=
        ih (pos + gap + 1) (pos' + gap + 1) (pos + gap + 1) (pos' + gap + 1)
          (iff_of_true rfl rfl : ([] : List (Token × Span)) = [] ↔ ([] : List (Token × Span)) = [])
          fun _ => by omega
      have hline : SameLine line line' := by
        refine ⟨hbehind.fresh rfl, ?_⟩
        rw [hbehind.wrote, hbehind.wrote']
        exact hbehind.sameKinds
      refine ⟨[], [], _, _, line :: rest, line' :: rest', ?_, ?_,
        behind_ends _ _ hblank (.cons hline hbehind.after)⟩
      · rw [place, physicalLines_newline, hlines]
      · rw [place, physicalLines_newline, hlines']
    | word gap w =>
      have hgrown : ∀ tok tok' : Token × Span,
          current ++ [tok] = [] ↔ current' ++ [tok'] = [] := by simp
      obtain ⟨toks, toks', line, line', rest, rest', hlines, hlines', hbehind⟩ :=
        ih lineStart lineStart' (pos + gap + w.len) (pos' + gap + w.len) (hgrown _ _)
          fun h => absurd h (by simp)
      have hc := hbehind.col (by simp)
      have hc' := hbehind.col' (by simp)
      refine ⟨(w.kind, ⟨pos + gap, pos + gap + w.len⟩) :: toks,
        (w.kind, ⟨pos' + gap, pos' + gap + w.len⟩) :: toks', line, line', rest, rest', ?_, ?_, ?_⟩
      · rw [place, physicalLines_tok _ _ w.notNewline, hlines]
      · rw [place, physicalLines_tok _ _ w.notNewline, hlines']
      · exact {
          wrote := by rw [hbehind.wrote, append_assoc]; rfl
          wrote' := by rw [hbehind.wrote', append_assoc]; rfl
          sameKinds := congrArg (w.kind :: ·) hbehind.sameKinds
          starts := hbehind.starts
          starts' := hbehind.starts'
          col := fun h => by rw [hc, computeCol_append h]
          col' := fun h => by rw [hc', computeCol_append h]
          fresh := fun h => by
            obtain ⟨hdist, hle, hle'⟩ := hcol h
            rw [hc, hc', h, hblank.mp h]
            show pos + gap - lineStart = pos' + gap - lineStart'
            omega
          after := hbehind.after }

/-! ## The two spellings -/

/-- An operator between two operands, with the line break behind it. -/
def trailing (indent : Nat) (left op right : Word) (gap : Nat × Nat × Nat)
    (post : List Piece) : List Piece :=
  pre ++ .word indent left :: .word gap.1 op :: .newline gap.2.1 :: .word gap.2.2 right :: post

/-- The line break in front of the operator. -/
def leading (indent : Nat) (left op right : Word) (gap : Nat × Nat × Nat)
    (post : List Piece) : List Piece :=
  pre ++ .word indent left :: .newline gap.1 :: .word gap.2.1 op :: .word gap.2.2 right :: post

variable {line next : LogicalLine}

theorem joinLine_joined {merged : List LogicalLine} (hline : line.toks ≠ [])
    (hjoins : ∀ prev : LogicalLine, prev.toks.getLast? = line.toks.getLast? → joins prev next) :
    joinLine (joinLine merged line) next =
      joinLine merged { line with toks := line.toks ++ next.toks } := by
  cases merged with
  | nil =>
    show joinLine [line] next = _
    rw [joinLine_cons, if_pos (hjoins line rfl)]
    rfl
  | cons prev older =>
    have hhead : joins prev { line with toks := line.toks ++ next.toks } = joins prev line := by
      unfold joins
      rw [head?_append_of_ne_nil _ hline]
    rw [joinLine_cons, joinLine_cons, hhead]
    split
    · have hlast : (prev.toks ++ line.toks).getLast? = line.toks.getLast? :=
        getLast?_append_of_ne_nil _ hline
      rw [joinLine_cons, if_pos (hjoins _ hlast), append_assoc]
    · rw [joinLine_cons, if_pos (hjoins line rfl)]

def wordSpan (pos gap : Nat) (w : Word) : Span := ⟨pos + gap, pos + gap + w.len⟩

section

variable (lineStart pos : Nat) (current : List (Token × Span)) (indent : Nat)
  (left op right : Word) (gap : Nat × Nat × Nat) (post : List Piece)

theorem physicalLines_trailing :
    ∃ o r lineStart' pos',
      physicalLines lineStart current (place pos (.word indent left :: .word gap.1 op ::
        .newline gap.2.1 :: .word gap.2.2 right :: post)) =
      ⟨computeCol (current ++ [(left.kind, wordSpan pos indent left)]) lineStart, lineStart,
        current ++ [(left.kind, wordSpan pos indent left)] ++ [(op.kind, o)]⟩ ::
        physicalLines lineStart' [(right.kind, r)] (place pos' post) := by
  let afterOp := pos + indent + left.len + gap.1 + op.len
  let afterBreak := afterOp + gap.2.1 + 1
  refine ⟨wordSpan (pos + indent + left.len) gap.1 op, wordSpan afterBreak gap.2.2 right,
    afterBreak, afterBreak + gap.2.2 + right.len, ?_⟩
  simp only [place]
  rw [physicalLines_tok _ _ left.notNewline, physicalLines_tok _ _ op.notNewline,
    physicalLines_newline, physicalLines_tok _ _ right.notNewline, computeCol_append (by simp)]
  rfl

theorem physicalLines_leading :
    ∃ o r lineStart' pos',
      physicalLines lineStart current (place pos (.word indent left :: .newline gap.1 ::
        .word gap.2.1 op :: .word gap.2.2 right :: post)) =
      ⟨computeCol (current ++ [(left.kind, wordSpan pos indent left)]) lineStart, lineStart,
        current ++ [(left.kind, wordSpan pos indent left)]⟩ ::
        physicalLines lineStart' [(op.kind, o), (right.kind, r)] (place pos' post) := by
  let afterBreak := pos + indent + left.len + gap.1 + 1
  let afterOp := afterBreak + gap.2.1 + op.len
  refine ⟨wordSpan afterBreak gap.2.1 op, wordSpan afterOp gap.2.2 right, afterBreak,
    afterOp + gap.2.2 + right.len, ?_⟩
  simp only [place]
  rw [physicalLines_tok _ _ left.notNewline, physicalLines_newline,
    physicalLines_tok _ _ op.notNewline, physicalLines_tok _ _ right.notNewline]
  rfl

end

/-- Lines that read the same are alike where their starts correspond. -/
theorem alike_of_sameLine (h : List.Forall₂ SameLine rest rest') :
    List.Forall₂
      (Alike fun a b => (a, b) ∈
        (rest.map LogicalLine.lineStart).zip (rest'.map LogicalLine.lineStart)) rest rest' := by
  induction h with
  | nil => exact .nil
  | cons hline _ ih =>
    refine .cons ⟨hline.1, hline.2, mem_cons_self⟩ (ih.imp fun line line' h => ?_)
    exact h.mono (mem_cons_of_mem _)

theorem alike_refl (lines : List LogicalLine) :
    List.Forall₂
      (Alike fun a b => (a, b) ∈
        (lines.map LogicalLine.lineStart).zip (lines.map LogicalLine.lineStart)) lines lines :=
  alike_of_sameLine (forall₂_same.mpr fun _ _ => ⟨rfl, rfl⟩)

/-- What is joined, where the line after the front is joined to the one after it. -/
theorem joinedLines_eq {front rest : List LogicalLine}
    (hlines : physicalLines 0 [] (place 0 pieces) = front ++ line :: next :: rest)
    (hline : line.toks ≠ []) (hnext : next.toks ≠ [])
    (hjoins : ∀ prev : LogicalLine, prev.toks.getLast? = line.toks.getLast? → joins prev next) :
    joinedLines (place 0 pieces) =
      (nonblank rest).foldl joinLine (joinLine ((nonblank front).foldl joinLine [])
        { line with toks := line.toks ++ next.toks }) := by
  unfold joinedLines
  rw [hlines, nonblank_append, nonblank_cons hline, nonblank_cons hnext, foldl_append, foldl_cons,
    foldl_cons, joinLine_joined hline hjoins]

/-- The line break behind a continuation operator or in front of it: the layout pass gives the same
kinds of tokens, however far the second line is indented and whatever comes before and after. -/
theorem operator_break {op : Word} (hop : isContinuationOperator op.kind = true)
    (pre : List Piece) (indent : Nat) (left right : Word) (gap gap' : Nat × Nat × Nat)
    (post : List Piece) :
    kinds (process (place 0 (trailing pre indent left op right gap post))).1 =
      kinds (process (place 0 (leading pre indent left op right gap' post))).1 := by
  obtain ⟨front, lineStart, current, pos, hfront⟩ := physicalLines_front pre 0 0 []
  obtain ⟨o, r, s, p, htrailing⟩ :=
    physicalLines_trailing lineStart pos current indent left op right gap post
  obtain ⟨o', r', s', p', hleading⟩ :=
    physicalLines_leading lineStart pos current indent left op right gap' post
  obtain ⟨toks, toks', next, next', rest, rest', hnext, hnext', hbehind⟩ :=
    physicalLines_behind post s s' p p' (iff_of_false (cons_ne_nil (right.kind, r) [])
      (cons_ne_nil (op.kind, o') [(right.kind, r')])) fun h => absurd h (cons_ne_nil _ _)
  have hlines := (hfront _).trans (congrArg (front ++ ·) (htrailing.trans (congrArg _ hnext)))
  have hlines' := (hfront _).trans (congrArg (front ++ ·) (hleading.trans (congrArg _ hnext')))
  -- No two lines of a spelling start at the same byte.
  have hsame := faithful_zip (hlines ▸ nodup_lineStarts _) (hlines' ▸ nodup_lineStarts _)
  rw [map_append, map_append, map_cons, map_cons, map_cons, map_cons,
    zip_append rfl, zip_cons_cons, zip_cons_cons] at hsame
  refine process_alike hsame ?_
  have hjoined := joinedLines_eq hlines (by simp) (by simp [hbehind.wrote]) fun prev hprev => by
    rw [joins, hprev.trans (getLast?_concat ..), Option.any_some, hop, Bool.or_true]
  have hjoined' := joinedLines_eq hlines' (by simp) (by simp [hbehind.wrote']) fun prev _ => by
    unfold joins isLeadingContinuationOperator
    rw [hbehind.wrote', cons_append, head?_cons, Option.any_some, hop]
    rfl
  unfold trailing leading at *
  rw [hjoined, hjoined']
  refine foldl_joinLine_alike (nonblank_alike ?_) (joinLine_alike
    (foldl_joinLine_alike (nonblank_alike ?_) .nil) ⟨rfl, ?_, ?_⟩)
  · exact (alike_of_sameLine hbehind.after).imp fun line line' h => h.mono fun hmem =>
      mem_append_right _ (mem_cons_of_mem _ (mem_cons_of_mem _ hmem))
  · exact (alike_refl front).imp fun line line' h => h.mono (mem_append_left _)
  · show kinds (_ ++ _) = kinds (_ ++ _)
    rw [hbehind.wrote, hbehind.wrote']
    simp [hbehind.sameKinds]
  · exact mem_append_right _ mem_cons_self

/-- `a +⏎  b` and `a⏎  + b`. -/
theorem operator_break_plus :
    kinds (process (place 0 (trailing [] 0 ⟨.lowerIdent "a", 1, nofun⟩ ⟨.plus, 1, nofun⟩
        ⟨.lowerIdent "b", 1, nofun⟩ (1, 0, 2) []))).1 =
      kinds (process (place 0 (leading [] 0 ⟨.lowerIdent "a", 1, nofun⟩ ⟨.plus, 1, nofun⟩
        ⟨.lowerIdent "b", 1, nofun⟩ (0, 2, 1) []))).1 :=
  operator_break rfl [] 0 _ _ _ _ []

end Ridge.Lexer
