import Mathlib.Data.List.TakeWhile
import Ridge.Lexer.TripleLines

/-!
# ridge-lexer — where the two triple-quoted scanners agree

Both split a body at its last newline and take the margin from each line. They part at a backslash
in front of the closing quotes, at a line behind an escaped newline and at a line with too few
spaces (`triple_quotes_agree`).
-/

namespace Ridge.Lexer

open List

variable {line : List Char} {margin : Nat}

/-! ## Lines -/

/-- A line both scanners read alike: behind an escaped newline there must be no margin to take, and
elsewhere the line reaches the margin, has no spaces at all or nothing else. -/
def LineAgrees (margin : Nat) (carried : Bool) (line : List Char) : Prop :=
  if carried then margin = 0 ∨ line = []
  else line.all isSpace ∨ margin ≤ indentOf line ∨ indentOf line = 0

def LinesAgree (margin : Nat) : Bool → List (List Char) → Prop
  | _, [] => True
  | carried, line :: lines =>
    LineAgrees margin carried line ∧ LinesAgree margin (endsEscaped line) lines

instance (margin : Nat) (carried : Bool) (line : List Char) :
    Decidable (LineAgrees margin carried line) :=
  inferInstanceAs (Decidable (if carried then _ else _))

instance LinesAgree.decidable (margin : Nat) :
    ∀ carried lines, Decidable (LinesAgree margin carried lines)
  | _, [] => .isTrue trivial
  | carried, line :: lines =>
    have := LinesAgree.decidable margin (endsEscaped line) lines
    inferInstanceAs (Decidable (LineAgrees margin carried line ∧ _))

theorem indentOf_of_all (h : line.all isSpace = true) : indentOf line = line.length := by
  unfold indentOf
  rw [takeWhile_eq_self_iff.mpr (all_eq_true.mp h)]

theorem all_of_indentOf (h : indentOf line = line.length) : line.all isSpace = true := by
  have heq := (takeWhile_sublist isSpace).eq_of_length h
  exact all_eq_true.mpr (takeWhile_eq_self_iff.mp heq)

theorem drop_indent_eq_nil : line.drop (indentOf line) = [] ↔ line.all isSpace = true := by
  rw [drop_eq_nil_iff]
  exact ⟨fun h => all_of_indentOf (Nat.le_antisymm (indentOf_le line) h),
    fun h => (indentOf_of_all h).ge⟩

theorem le_indentOf :
    margin ≤ indentOf line ↔ margin ≤ line.length ∧ (line.take margin).all isSpace = true := by
  induction line generalizing margin with
  | nil =>
    rw [take_nil]
    exact ⟨fun h => ⟨h, rfl⟩, fun h => h.1⟩
  | cons c line ih =>
    cases margin with
    | zero => exact ⟨fun _ => ⟨Nat.zero_le _, rfl⟩, fun _ => Nat.zero_le _⟩
    | succ margin =>
      by_cases hc : c = ' '
      · subst hc
        rw [indentOf_cons_space, take_succ_cons, length_cons, all_cons,
          Nat.succ_le_succ_iff, Nat.succ_le_succ_iff, ih]
        exact Iff.rfl
      · rw [indentOf_cons hc, take_succ_cons, all_cons]
        simp [isSpace, hc]

/-- A line to take the margin from: spaces only, or the margin stands at its start. -/
def Indented (margin : Nat) (line : List Char) : Prop :=
  line.all isSpace = true ∨ margin ≤ indentOf line

theorem plainLine_of_indented (h : Indented margin line) (offset : Nat) :
    plainLine margin offset line = (line.drop margin, []) := by
  unfold plainLine
  by_cases hshort : line.all isSpace ∧ line.length ≤ margin
  · rw [if_pos hshort, drop_eq_nil_of_le hshort.2]
  · rw [if_neg hshort]
    by_cases hnil : line = []
    · rw [if_pos hnil, hnil, drop_nil]
    · rw [if_neg hnil]
      have hmargin : margin ≤ indentOf line := by
        rcases h with hblank | hmargin
        · rw [indentOf_of_all hblank]
          exact Nat.le_of_not_le fun hle => hshort ⟨hblank, hle⟩
        · exact hmargin
      rw [if_neg (fun hcond => hcond.2 (le_indentOf.mp hmargin))]

theorem plainLine_of_not_indented (h : ¬Indented margin line) (offset : Nat) :
    plainLine margin offset line =
      (line, [.multilineStringInsufficientIndent (Span.point offset)]) := by
  have hnil : line ≠ [] := by
    intro heq
    rw [heq] at h
    exact h (.inl rfl)
  have hpos : 0 < margin := Nat.pos_of_ne_zero fun heq => h (.inr (heq ▸ Nat.zero_le _))
  unfold plainLine
  rw [if_neg (fun hcond => h (.inl hcond.1)), if_neg hnil,
    if_pos ⟨hpos, fun hcond => h (.inr (le_indentOf.mpr hcond))⟩]

theorem holeLine_of_indented (h : Indented margin line) (offset : Nat) :
    holeLine margin offset false line = (line.drop margin, []) := by
  show (line.drop (min margin (indentOf line)),
    if indentOf line < margin ∧ line.drop (min margin (indentOf line)) ≠ [] then
      [LexError.multilineStringInsufficientIndent (Span.point offset)] else []) = _
  by_cases hindent : margin ≤ indentOf line
  · rw [Nat.min_eq_left hindent, if_neg (fun hcond => Nat.not_lt.mpr hindent hcond.1)]
  · have hlt := Nat.lt_of_not_le hindent
    have hblank := h.resolve_right hindent
    have hdrop := drop_indent_eq_nil.mpr hblank
    have hdrop' : line.drop margin = [] := by
      apply drop_eq_nil_of_le
      rw [← indentOf_of_all hblank]
      exact hlt.le
    rw [Nat.min_eq_right hlt.le, if_neg (fun hcond => hcond.2 hdrop), hdrop, hdrop']

theorem holeLine_of_not_indented (h : ¬Indented margin line) (offset : Nat) :
    holeLine margin offset false line = (line.drop (indentOf line),
      [.multilineStringInsufficientIndent (Span.point offset)]) := by
  have hlt : indentOf line < margin := Nat.lt_of_not_le fun hle => h (.inr hle)
  have hne : line.drop (indentOf line) ≠ [] := fun heq => h (.inl (drop_indent_eq_nil.mp heq))
  show (line.drop (min margin (indentOf line)),
    if indentOf line < margin ∧ line.drop (min margin (indentOf line)) ≠ [] then
      [LexError.multilineStringInsufficientIndent (Span.point offset)] else []) = _
  rw [Nat.min_eq_right hlt.le, if_pos ⟨hlt, hne⟩]

theorem drop_eq_self {n : Nat} : line.drop n = line ↔ n = 0 ∨ line = [] := by
  constructor
  · intro h
    have hlen := congrArg List.length h
    rw [length_drop] at hlen
    rcases Nat.eq_zero_or_pos n with hn | hn
    · exact .inl hn
    · exact .inr (length_eq_zero_iff.mp (by omega))
  · rintro (rfl | rfl)
    · rfl
    · exact drop_nil

theorem plainLine_eq_holeLine (margin offset : Nat) (carried : Bool) (line : List Char) :
    plainLine margin offset line = holeLine margin offset carried line ↔
      LineAgrees margin carried line := by
  cases carried with
  | true =>
    show plainLine margin offset line = (line, []) ↔ margin = 0 ∨ line = []
    by_cases hindent : Indented margin line
    · rw [plainLine_of_indented hindent, Prod.mk.injEq, drop_eq_self]
      exact and_iff_left rfl
    · rw [plainLine_of_not_indented hindent]
      refine ⟨fun h => absurd (Prod.mk.inj h).2 nofun, fun h => absurd ?_ hindent⟩
      rcases h with rfl | rfl
      · exact .inr (Nat.zero_le _)
      · exact .inl rfl
  | false =>
    show _ ↔ line.all isSpace ∨ margin ≤ indentOf line ∨ indentOf line = 0
    by_cases hindent : Indented margin line
    · rw [plainLine_of_indented hindent, holeLine_of_indented hindent, ← or_assoc]
      exact ⟨fun _ => .inl hindent, fun _ => rfl⟩
    · rw [plainLine_of_not_indented hindent, holeLine_of_not_indented hindent, Prod.mk.injEq,
        eq_comm, drop_eq_self, and_iff_left rfl, ← or_assoc]
      have hne : line ≠ [] := by
        intro heq
        rw [heq] at hindent
        exact hindent (.inl rfl)
      rw [or_iff_left hne]
      exact (or_iff_right hindent).symm

/-- The scanner with holes never reports more of a line. -/
theorem holeLine_errors_le (margin offset : Nat) (carried : Bool) (line : List Char) :
    (holeLine margin offset carried line).2.length ≤ (plainLine margin offset line).2.length := by
  cases carried with
  | true => exact Nat.zero_le _
  | false =>
    by_cases hindent : Indented margin line
    · rw [plainLine_of_indented hindent, holeLine_of_indented hindent]
    · rw [plainLine_of_not_indented hindent, holeLine_of_not_indented hindent]

variable {lines : List (List Char)}

theorem plainLines_cons (margin offset : Nat) (line : List Char) (h : lines ≠ []) :
    plainLines margin offset (line :: lines) =
      ((plainLine margin offset line).1 ++
          '\n' :: (plainLines margin (offset + byteLen line + 1) lines).1,
        (plainLine margin offset line).2 ++
          (plainLines margin (offset + byteLen line + 1) lines).2) := by
  cases lines with
  | nil => exact absurd rfl h
  | cons next lines => rfl

theorem holeLines_cons (margin offset : Nat) (carried : Bool) (line : List Char) (h : lines ≠ []) :
    holeLines margin offset carried (line :: lines) =
      ((holeLine margin offset carried line).1 ++ '\n' ::
          (holeLines margin (offset + byteLen line + 1) (endsEscaped line) lines).1,
        (holeLine margin offset carried line).2 ++
          (holeLines margin (offset + byteLen line + 1) (endsEscaped line) lines).2) := by
  cases lines with
  | nil => exact absurd rfl h
  | cons next lines => rfl

theorem holeLines_errors_le (margin offset : Nat) (carried : Bool) (lines : List (List Char)) :
    (holeLines margin offset carried lines).2.length ≤
      (plainLines margin offset lines).2.length := by
  induction lines generalizing offset carried with
  | nil => exact Nat.zero_le _
  | cons line lines ih =>
    have hline := holeLine_errors_le margin offset carried line
    by_cases hnil : lines = []
    · subst hnil
      exact hline
    · rw [plainLines_cons _ _ _ hnil, holeLines_cons _ _ _ _ hnil, length_append,
        length_append]
      exact Nat.add_le_add hline (ih _ _)

theorem plainLine_sublist (margin offset : Nat) (line : List Char) :
    List.Sublist (plainLine margin offset line).1 line := by
  by_cases hindent : Indented margin line
  · rw [plainLine_of_indented hindent]
    exact drop_sublist _ _
  · rw [plainLine_of_not_indented hindent]

theorem holeLine_sublist (margin offset : Nat) (carried : Bool) (line : List Char) :
    List.Sublist (holeLine margin offset carried line).1 line := by
  cases carried with
  | true => exact List.Sublist.refl _
  | false => exact drop_sublist _ _

/-- Two texts up to their first newline. -/
theorem append_newline_inj {first first' rest rest' : List Char} (h : '\n' ∉ first)
    (h' : '\n' ∉ first') (heq : first ++ '\n' :: rest = first' ++ '\n' :: rest') :
    first = first' ∧ rest = rest' := by
  induction first generalizing first' with
  | nil =>
    cases first' with
    | nil => exact ⟨rfl, (cons.inj heq).2⟩
    | cons c first' =>
      exact absurd ((cons.inj heq).1 ▸ mem_cons_self) h'
  | cons c first ih =>
    cases first' with
    | nil => exact absurd ((cons.inj heq).1 ▸ mem_cons_self) h
    | cons c' first' =>
      obtain ⟨hc, htail⟩ := cons.inj heq
      obtain ⟨hfirst, hrest⟩ := ih (fun hmem => h (mem_cons_of_mem _ hmem))
        (fun hmem => h' (mem_cons_of_mem _ hmem)) htail
      exact ⟨by rw [hc, hfirst], hrest⟩

/-- The texts are cut at the newlines, and the errors by their number. -/
theorem plainLines_eq_holeLines (h : ∀ line ∈ lines, '\n' ∉ line) (margin offset : Nat)
    (carried : Bool) :
    plainLines margin offset lines = holeLines margin offset carried lines ↔
      LinesAgree margin carried lines := by
  induction lines generalizing offset carried with
  | nil => exact ⟨fun _ => trivial, fun _ => rfl⟩
  | cons line lines ih =>
    have ih' := ih (fun l hl => h l (mem_cons_of_mem _ hl)) (offset + byteLen line + 1)
      (endsEscaped line)
    show _ ↔ LineAgrees margin carried line ∧ LinesAgree margin (endsEscaped line) lines
    rw [← plainLine_eq_holeLine margin offset]
    by_cases hnil : lines = []
    · subst hnil
      exact (and_iff_left trivial).symm
    · have hline := h line mem_cons_self
      rw [← ih', plainLines_cons _ _ _ hnil, holeLines_cons _ _ _ _ hnil]
      constructor
      · intro heq
        obtain ⟨htext, herrors⟩ := Prod.mk.inj heq
        obtain ⟨hfirst, hrest⟩ := append_newline_inj
          (fun hmem => hline ((plainLine_sublist margin offset line).subset hmem))
          (fun hmem => hline ((holeLine_sublist margin offset carried line).subset hmem)) htext
        have hle := holeLine_errors_le margin offset carried line
        have hles := holeLines_errors_le margin (offset + byteLen line + 1) (endsEscaped line) lines
        have hlen := congrArg List.length herrors
        rw [length_append, length_append] at hlen
        obtain ⟨hfirst', hrest'⟩ := append_inj herrors (by omega)
        exact ⟨Prod.ext hfirst hfirst', Prod.ext hrest hrest'⟩
      · rintro ⟨hfirst, hrest⟩
        rw [hfirst, hrest]

/-! ## Bodies -/

theorem splitLastLine_append {text content margin : List Char}
    (h : splitLastLine text = some (content, margin)) : text = content ++ '\n' :: margin := by
  induction text generalizing content margin with
  | nil => cases h
  | cons c rest ih =>
    unfold splitLastLine at h
    split at h
    · next content' margin' heq =>
        cases h
        rw [ih heq]
        rfl
    · split at h
      · next hc =>
          cases h
          rw [hc]
          rfl
      · cases h

/-- A body's content holds no hole when the body holds none. -/
theorem noHole_content {raw : List Char} (h : NoHole raw) (openStart : Nat) :
    NoHole (contentAndMargin openStart raw).1 := by
  have hcontent : (contentAndMargin openStart raw).1 = ((splitLastLine raw).getD ([], [])).1 := by
    unfold contentAndMargin
    dsimp only
    split <;> rfl
  rw [hcontent]
  cases hsplit : splitLastLine raw with
  | none =>
    rintro ⟨before, after, heq⟩
    simp at heq
  | some split =>
    rw [splitLastLine_append hsplit] at h
    exact h.left

/-- The text an interpolated string holds besides its holes. -/
def interpTextOf (tokens : List (RawToken × Span)) : String :=
  String.join (tokens.map fun (token, _) => match token with
    | .interpText text => text
    | _ => "")

theorem interpTextOf_flush (buf : List Char) (start stop : Nat) (span : Span) :
    interpTextOf (flushText buf start stop ++ [(.token .interpEnd, span)]) = String.ofList buf := by
  unfold flushText
  split
  · next h =>
      rw [h]
      rfl
  · show String.join [String.ofList buf, ""] = _
    simp [String.join]

/-- An error without the name of the literal it is about. -/
def LexError.unnamed : LexError → LexError
  | .unterminatedMultilineString openSpan _ => .unterminatedMultilineString openSpan ""
  | e => e

/-- A plain and an interpolated string of one text, with the same errors (up to `view`) and the same
end. -/
def SameString (view : LexError → LexError) (plain : Option String × List LexError × Nat)
    (interp : List (RawToken × Span) × List LexError × Nat) : Prop :=
  plain.1.getD "" = interpTextOf interp.1 ∧ plain.2.1.map view = interp.2.1.map view ∧
    plain.2.2 = interp.2.2

/-- The bodies both scanners read alike, by what follows the opener. -/
def Agreed (openStart : Nat) (rest : List Char) : Prop :=
  ∀ body raw, rest = '\n' :: body → untilTriple body = some raw →
    endsEscaped raw = false ∧
      LinesAgree (contentAndMargin openStart raw).2.1 false
        (splitLines (contentAndMargin openStart raw).1)

/-- An opening line with nothing on it, and no closing quotes: the error names the literal. -/
def Unclosed (rest : List Char) : Prop :=
  ∃ body, rest = '\n' :: body ∧ untilTriple body = none

/-- The errors of the lines are all of one kind. -/
def IndentErrors (errors : List LexError) : Prop :=
  ∀ e ∈ errors, ∃ span, e = .multilineStringInsufficientIndent span

theorem IndentErrors.append {errors errors' : List LexError} (h : IndentErrors errors)
    (h' : IndentErrors errors') : IndentErrors (errors ++ errors') := fun e he =>
  (List.mem_append.mp he).elim (h e) (h' e)

theorem indentErrors_point (offset : Nat) :
    IndentErrors [.multilineStringInsufficientIndent (Span.point offset)] := fun _ he =>
  ⟨_, List.mem_singleton.mp he⟩

theorem plainLine_indentErrors (margin offset : Nat) (line : List Char) :
    IndentErrors (plainLine margin offset line).2 := by
  by_cases hindent : Indented margin line
  · rw [plainLine_of_indented hindent]
    exact nofun
  · rw [plainLine_of_not_indented hindent]
    exact indentErrors_point offset

theorem holeLine_indentErrors (margin offset : Nat) (carried : Bool) (line : List Char) :
    IndentErrors (holeLine margin offset carried line).2 := by
  cases carried with
  | true => exact nofun
  | false =>
    by_cases hindent : Indented margin line
    · rw [holeLine_of_indented hindent]
      exact nofun
    · rw [holeLine_of_not_indented hindent]
      exact indentErrors_point offset

theorem lines_indentErrors (margin offset : Nat) (carried : Bool) (lines : List (List Char)) :
    IndentErrors (plainLines margin offset lines).2 ∧
      IndentErrors (holeLines margin offset carried lines).2 := by
  induction lines generalizing offset carried with
  | nil => exact ⟨nofun, nofun⟩
  | cons line lines ih =>
    have hplain := plainLine_indentErrors margin offset line
    have hhole := holeLine_indentErrors margin offset carried line
    by_cases hnil : lines = []
    · subst hnil
      exact ⟨hplain, hhole⟩
    · rw [plainLines_cons _ _ _ hnil, holeLines_cons _ _ _ _ hnil]
      obtain ⟨hplains, hholes⟩ := ih (offset + byteLen line + 1) (endsEscaped line)
      exact ⟨hplain.append hplains, hhole.append hholes⟩

theorem contentAndMargin_indentErrors (openStart : Nat) (raw : List Char) :
    IndentErrors (contentAndMargin openStart raw).2.2 := by
  unfold contentAndMargin
  dsimp only
  split
  · exact nofun
  · exact indentErrors_point openStart

/-- A way to look at errors that keeps those of the lines apart from the others. -/
structure KeepsIndentErrors (view : LexError → LexError) : Prop where
  indent : ∀ span, view (.multilineStringInsufficientIndent span) =
    .multilineStringInsufficientIndent span
  unterminated : ∀ openSpan kind span, view (.unterminatedMultilineString openSpan kind) ≠
    .multilineStringInsufficientIndent span

theorem KeepsIndentErrors.map_eq {view : LexError → LexError} (h : KeepsIndentErrors view)
    {errors : List LexError} (herrors : IndentErrors errors) : errors.map view = errors := by
  conv_rhs => rw [← List.map_id errors]
  refine List.map_congr_left fun e he => ?_
  obtain ⟨span, rfl⟩ := herrors e he
  exact h.indent span

section

variable (scanHoleExpr : Nat → List Char → List (RawToken × Span) × List LexError)
  (pos openStart : Nat)

variable {body raw : List Char}

theorem scanTripleQuoteBody_closed (h : untilTriple body = some raw) :
    scanTripleQuoteBody pos openStart ('\n' :: body) =
      (some (String.ofList (plainLines (contentAndMargin openStart raw).2.1 (pos + 1)
          (splitLines (contentAndMargin openStart raw).1)).1),
        (contentAndMargin openStart raw).2.2 ++
          (plainLines (contentAndMargin openStart raw).2.1 (pos + 1)
            (splitLines (contentAndMargin openStart raw).1)).2,
        pos + 1 + byteLen raw + 3) := by
  simp only [scanTripleQuoteBody, h]

theorem scanInterpTripleBody_unclosed {body : List Char} (h : findTripleInterpClose body = none) :
    scanInterpTripleBody scanHoleExpr openStart pos ('\n' :: body) =
      ([(.token .interpEnd, Span.point (pos + byteLen ('\n' :: body)))],
        [.unterminatedMultilineString (Span.point openStart) "interpolated"],
        pos + byteLen ('\n' :: body)) := by
  simp only [scanInterpTripleBody, h]

theorem scanInterpTripleBody_closed (h : findTripleInterpClose body = some raw)
    (hhole : NoHole raw) :
    ∃ stop, scanInterpTripleBody scanHoleExpr openStart pos ('\n' :: body) =
      (flushText (holeLines (contentAndMargin openStart raw).2.1 (pos + 1) false
            (splitLines (contentAndMargin openStart raw).1)).1 (pos + 1) stop ++
          [(.token .interpEnd, ⟨pos + 1 + byteLen raw, pos + 1 + byteLen raw + 3⟩)],
        (contentAndMargin openStart raw).2.2 ++
          (holeLines (contentAndMargin openStart raw).2.1 (pos + 1) false
            (splitLines (contentAndMargin openStart raw).1)).2,
        pos + 1 + byteLen raw + 3) := by
  have hrun := scanText_lines scanHoleExpr (contentAndMargin openStart raw).2.1 openStart
    (splitLines_ne_nil (contentAndMargin openStart raw).1)
    (isLine_of_mem_splitLines (noHole_content hhole openStart)) (pos + 1) false [] (pos + 1)
  rw [unlines_splitLines] at hrun
  simp only [Bool.not_false, List.nil_append] at hrun
  simp only [scanInterpTripleBody, h, hrun]
  exact ⟨_, rfl⟩

theorem sameString_unclosed {body : List Char} (h : untilTriple body = none)
    (hhole : NoHole body) (view : LexError → LexError) :
    SameString view (scanTripleQuoteBody pos openStart ('\n' :: body))
        (scanInterpTripleBody scanHoleExpr openStart pos ('\n' :: body)) ↔
      view (.unterminatedMultilineString (Span.point openStart) "triple-quoted") =
        view (.unterminatedMultilineString (Span.point openStart) "interpolated") := by
  rw [scanInterpTripleBody_unclosed scanHoleExpr pos openStart (findTripleInterpClose_none h hhole)]
  simp only [scanTripleQuoteBody, h]
  exact ⟨fun hsame => (List.cons.inj hsame.2.1).1,
    fun heq => ⟨rfl, congrArg (fun e => [e]) heq, rfl⟩⟩

variable {body raw : List Char} (hraw : untilTriple body = some raw) (hhole : NoHole raw)
  {view : LexError → LexError} (hview : KeepsIndentErrors view)

include hraw hhole hview

/-- Quotes behind a backslash close one string and not the other. -/
theorem not_sameString_escaped (hends : endsEscaped raw = true) :
    ¬SameString view (scanTripleQuoteBody pos openStart ('\n' :: body))
      (scanInterpTripleBody scanHoleExpr openStart pos ('\n' :: body)) := by
  rw [scanTripleQuoteBody_closed pos openStart hraw]
  rintro ⟨-, herrors, hstop⟩
  cases hclose : findTripleInterpClose body with
  | none =>
    rw [scanInterpTripleBody_unclosed scanHoleExpr pos openStart hclose] at herrors
    have hindent := (contentAndMargin_indentErrors openStart raw).append
      (lines_indentErrors (contentAndMargin openStart raw).2.1 (pos + 1) false
        (splitLines (contentAndMargin openStart raw).1)).1
    have heq := (hview.map_eq hindent).symm.trans herrors
    obtain ⟨span, hspan⟩ := hindent _ (by rw [heq]; exact List.mem_cons_self)
    exact hview.unterminated _ _ _ hspan
  | some raw' =>
    have hlt := (findTripleInterpClose_eq hraw hhole).2 hends raw' hclose
    have hstop' : (scanInterpTripleBody scanHoleExpr openStart pos ('\n' :: body)).2.2 =
        pos + 1 + byteLen raw' + 3 := by
      simp only [scanInterpTripleBody, hclose]
    rw [hstop'] at hstop
    dsimp only at hstop
    omega

theorem sameString_iff (hends : endsEscaped raw = false) :
    SameString view (scanTripleQuoteBody pos openStart ('\n' :: body))
        (scanInterpTripleBody scanHoleExpr openStart pos ('\n' :: body)) ↔
      LinesAgree (contentAndMargin openStart raw).2.1 false
        (splitLines (contentAndMargin openStart raw).1) := by
  obtain ⟨stop, hinterp⟩ := scanInterpTripleBody_closed scanHoleExpr pos openStart
    ((findTripleInterpClose_eq hraw hhole).1 hends) hhole
  have hlines := isLine_of_mem_splitLines (noHole_content hhole openStart)
  have hmargin := contentAndMargin_indentErrors openStart raw
  obtain ⟨hplains, hholes⟩ := lines_indentErrors (contentAndMargin openStart raw).2.1 (pos + 1)
    false (splitLines (contentAndMargin openStart raw).1)
  rw [← plainLines_eq_holeLines (fun line hline => (hlines line hline).noNewline) _ (pos + 1),
    hinterp, scanTripleQuoteBody_closed pos openStart hraw]
  unfold SameString
  rw [hview.map_eq (hmargin.append hplains), hview.map_eq (hmargin.append hholes),
    interpTextOf_flush]
  constructor
  · rintro ⟨htext, herrors, -⟩
    exact Prod.ext (String.ofList_inj.mp htext) (List.append_cancel_left herrors)
  · intro heq
    rw [heq]
    exact ⟨rfl, rfl, rfl⟩

end

section

variable {scanHoleExpr : Nat → List Char → List (RawToken × Span) × List LexError}
  {pos openStart : Nat} {rest : List Char}

/-- The plain and the interpolated string of a body agree, whatever errors are compared by, on the
agreed bodies and on those the closing quotes of which are missing. -/
theorem sameString_cases (h : NoHole ((untilTriple rest).getD rest)) {view : LexError → LexError}
    (hview : KeepsIndentErrors view) :
    SameString view (scanTripleQuoteBody pos openStart rest)
        (scanInterpTripleBody scanHoleExpr openStart pos rest) ↔
      Agreed openStart rest ∧ (Unclosed rest →
        view (.unterminatedMultilineString (Span.point openStart) "triple-quoted") =
          view (.unterminatedMultilineString (Span.point openStart) "interpolated")) := by
  by_cases hopen : ∃ body, rest = '\n' :: body
  · obtain ⟨body, rfl⟩ := hopen
    have huntil : untilTriple ('\n' :: body) = (untilTriple body).map ('\n' :: ·) := by
      rw [untilTriple]
      nofun
    rw [huntil] at h
    cases hraw : untilTriple body with
    | none =>
      rw [hraw] at h
      rw [sameString_unclosed scanHoleExpr pos openStart hraw h.tail]
      refine ⟨fun hview => ⟨fun body' raw hbody hraw' => ?_, fun _ => hview⟩,
        fun hagreed => hagreed.2 ⟨body, rfl, hraw⟩⟩
      cases hbody
      rw [hraw] at hraw'
      cases hraw'
    | some raw =>
      rw [hraw] at h
      have hclosed : ¬Unclosed ('\n' :: body) := by
        rintro ⟨body', hbody, hnone⟩
        cases hbody
        rw [hraw] at hnone
        cases hnone
      have hagreed : Agreed openStart ('\n' :: body) ↔ endsEscaped raw = false ∧
          LinesAgree (contentAndMargin openStart raw).2.1 false
            (splitLines (contentAndMargin openStart raw).1) := by
        refine ⟨fun hagreed => hagreed body raw rfl hraw, fun hlines body' raw' hbody hraw' => ?_⟩
        cases hbody
        cases hraw.symm.trans hraw'
        exact hlines
      rw [hagreed, and_iff_left (fun hunclosed => absurd hunclosed hclosed)]
      cases hends : endsEscaped raw with
      | false =>
        rw [sameString_iff scanHoleExpr pos openStart hraw h.tail hview hends]
        exact (and_iff_right rfl).symm
      | true =>
        have hnot := not_sameString_escaped scanHoleExpr pos openStart hraw h.tail hview hends
        exact ⟨fun hsame => absurd hsame hnot, fun hlines => nomatch hlines.1⟩
  · have hnot : ∀ body, rest ≠ '\n' :: body := fun body hbody => hopen ⟨body, hbody⟩
    refine iff_of_true ?_ ⟨fun body _ hbody _ => absurd hbody (hnot body), ?_⟩
    · -- without a newline at the opener both report its line and skip to the same place
      unfold scanTripleQuoteBody scanInterpTripleBody
      split
      · next body => exact absurd rfl (hnot body)
      · exact ⟨rfl, rfl, rfl⟩
    · rintro ⟨body, hbody, -⟩
      exact absurd hbody (hnot body)

/-- A body without holes is the same plain and interpolated exactly when it is an agreed one. Where
the closing quotes are missing the errors are the same but for the literal they name. -/
theorem triple_quotes_agree (h : NoHole ((untilTriple rest).getD rest)) :
    (SameString LexError.unnamed (scanTripleQuoteBody pos openStart rest)
        (scanInterpTripleBody scanHoleExpr openStart pos rest) ↔ Agreed openStart rest) ∧
      (SameString id (scanTripleQuoteBody pos openStart rest)
          (scanInterpTripleBody scanHoleExpr openStart pos rest) ↔
        Agreed openStart rest ∧ ¬Unclosed rest) := by
  constructor
  · rw [sameString_cases h ⟨fun _ => rfl, fun _ _ _ heq => LexError.noConfusion heq⟩]
    exact and_iff_left fun _ => rfl
  · rw [sameString_cases h ⟨fun _ => rfl, fun _ _ _ heq => LexError.noConfusion heq⟩]
    refine and_congr_right fun _ => imp_congr_right fun _ => ?_
    exact ⟨fun heq => absurd (LexError.unterminatedMultilineString.inj heq).2 (by decide),
      False.elim⟩

/-- A body with a blank line and a deeper one, read at the start of a file. -/
theorem triple_quotes_agree_indented :
    SameString id (scanTripleQuoteBody 4 0 "\n  a\n\n    b\n  \"\"\" c".toList)
      (scanInterpTripleBody (fun _ _ => ([], [])) 0 4 "\n  a\n\n    b\n  \"\"\" c".toList) := by
  refine (triple_quotes_agree (by decide)).2.mpr ⟨fun body raw hbody hraw => ?_, ?_⟩
  · cases hbody
    cases (show untilTriple _ = some "  a\n\n    b\n  ".toList by decide).symm.trans hraw
    decide
  · rintro ⟨body, hbody, hnone⟩
    cases hbody
    exact absurd hnone (by decide)

/-- A `\` at the end of a line takes the newline into an escape, and the next line keeps its margin
in the interpolated string only. -/
theorem escaped_newline_keeps_margin :
    NoHole ((untilTriple "\n  a\\\n  b\n  \"\"\"".toList).getD "\n  a\\\n  b\n  \"\"\"".toList) ∧
      (scanTripleQuoteBody 4 0 "\n  a\\\n  b\n  \"\"\"".toList).1 = some "a\\\nb" ∧
      interpTextOf (scanInterpTripleBody (fun _ _ => ([], [])) 0 4
        "\n  a\\\n  b\n  \"\"\"".toList).1 = "a\\\n  b" ∧
      ¬SameString LexError.unnamed (scanTripleQuoteBody 4 0 "\n  a\\\n  b\n  \"\"\"".toList)
        (scanInterpTripleBody (fun _ _ => ([], [])) 0 4 "\n  a\\\n  b\n  \"\"\"".toList) := by
  have hraw : untilTriple "  a\\\n  b\n  \"\"\"".toList = some "  a\\\n  b\n  ".toList := by decide
  have hhole : NoHole "  a\\\n  b\n  ".toList := by decide
  have hclose := (findTripleInterpClose_eq hraw hhole).1 (by decide)
  obtain ⟨stop, hinterp⟩ := scanInterpTripleBody_closed (fun _ _ => ([], [])) 4 0 hclose hhole
  have hplain : (scanTripleQuoteBody 4 0 "\n  a\\\n  b\n  \"\"\"".toList).1 = some "a\\\nb" := by
    decide
  have htext : interpTextOf (scanInterpTripleBody (fun _ _ => ([], [])) 0 4
      "\n  a\\\n  b\n  \"\"\"".toList).1 = "a\\\n  b" := by
    show interpTextOf (scanInterpTripleBody _ 0 4 ('\n' :: "  a\\\n  b\n  \"\"\"".toList)).1 = _
    rw [hinterp, interpTextOf_flush]
    decide
  refine ⟨by decide, hplain, htext, fun hsame => ?_⟩
  have heq := hsame.1
  rw [hplain, htext] at heq
  exact absurd heq (by decide)

end

end Ridge.Lexer
