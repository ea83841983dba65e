import Ridge.Lexer.TripleQuote

/-!
# ridge-lexer — the scanner with holes, read by lines

`scan_interp_triple_body` goes through its content character by character. Where there is no hole
this is line by line (`scanText_lines`): a line behind an escaped newline keeps its margin, and one
with too few spaces loses those it has.
-/

namespace Ridge.Lexer

open List Option

variable {c : Char} {text line : List Char}

/-- No `$` in front of a `{`, so neither a hole nor an escaped one. -/
def NoHole (text : List Char) : Prop := ¬['$', '{'] <:+: text

instance (text : List Char) : Decidable (NoHole text) :=
  inferInstanceAs (Decidable (¬['$', '{'] <:+: text))

theorem NoHole.tail (h : NoHole (c :: text)) : NoHole text :=
  fun hin => h (hin.trans (suffix_cons c text).isInfix)

variable {text' : List Char}

theorem NoHole.left (h : NoHole (text ++ text')) : NoHole text :=
  fun hin => h (hin.trans (prefix_append text text').isInfix)

theorem NoHole.right (h : NoHole (text ++ text')) : NoHole text' :=
  fun hin => h (hin.trans (suffix_append text text').isInfix)

theorem NoHole.head (h : NoHole ('$' :: c :: text)) : c ≠ '{' := by
  rintro rfl
  exact h ⟨[], text, rfl⟩

/-- An odd number of backslashes at the end: the last one escapes what comes next. -/
def endsEscaped : List Char → Bool
  | [] => false
  | ['\\'] => true
  | '\\' :: _ :: rest => endsEscaped rest
  | _ :: rest => endsEscaped rest

attribute [grind =] endsEscaped untilTriple findTripleInterpClose

theorem endsEscaped_cons (hc : c ≠ '\\') (rest : List Char) :
    endsEscaped (c :: rest) = endsEscaped rest := by
  cases rest <;> simp [endsEscaped, hc]

@[simp] theorem endsEscaped_escape (c : Char) (rest : List Char) :
    endsEscaped ('\\' :: c :: rest) = endsEscaped rest := by
  simp [endsEscaped]

/-! ## The closing quotes -/

variable {raw : List Char}

theorem untilTriple_nil_or (h : untilTriple text = some raw) :
    (raw = [] ∧ ∃ rest, text = '"' :: '"' :: '"' :: rest) ∨
      ∃ c rest raw', text = c :: rest ∧ raw = c :: raw' ∧ untilTriple rest = some raw' ∧
        ∀ rest', text ≠ '"' :: '"' :: '"' :: rest' := by
  unfold untilTriple at h
  split at h
  · next rest =>
      cases h
      exact .inl ⟨rfl, rest, rfl⟩
  · next c rest hnot =>
      obtain ⟨raw', hraw', rfl⟩ := map_eq_some_iff.mp h
      refine .inr ⟨c, rest, raw', rfl, rfl, hraw', fun rest' heq => ?_⟩
      obtain ⟨rfl, rfl⟩ := cons.inj heq
      exact hnot rest' rfl rfl
  · cases h

theorem findClose_escape (c : Char) (rest : List Char) :
    findTripleInterpClose ('\\' :: c :: rest) =
      (findTripleInterpClose rest).map fun before => '\\' :: c :: before := by
  rw [findTripleInterpClose]

theorem findClose_quotes (rest : List Char) :
    findTripleInterpClose ('"' :: '"' :: '"' :: rest) = some [] := by
  rw [findTripleInterpClose]

theorem findClose_cons {c : Char} {rest : List Char} (hc : c ≠ '\\' ∨ rest = [])
    (hhole : ∀ rest', c :: rest ≠ '$' :: '{' :: rest')
    (hquotes : ∀ rest', c :: rest ≠ '"' :: '"' :: '"' :: rest') :
    findTripleInterpClose (c :: rest) = (findTripleInterpClose rest).map (c :: ·) := by
  rw [findTripleInterpClose]
  · rintro rest' rfl rfl
    exact hhole rest' rfl
  · rintro c' rest' rfl rfl
    rcases hc with hc | hc
    · exact hc rfl
    · cases hc
  · rintro rest' rfl rfl
    exact hquotes rest' rfl

theorem byteLen_cons (c : Char) (text : List Char) :
    byteLen (c :: text) = c.utf8Size + byteLen text := by
  unfold byteLen
  rw [map_cons, sum_cons]

theorem byteLen_append (text text' : List Char) :
    byteLen (text ++ text') = byteLen text + byteLen text' := by
  unfold byteLen
  rw [map_append, sum_append]

/-- Without holes, what decides is whether the quotes are escaped. -/
theorem findTripleInterpClose_eq (h : untilTriple text = some raw) (hhole : NoHole raw) :
    (endsEscaped raw = false → findTripleInterpClose text = some raw) ∧
      (endsEscaped raw = true → ∀ raw', findTripleInterpClose text = some raw' →
        byteLen raw < byteLen raw') := by
  induction raw using endsEscaped.induct generalizing text with
  | case1 =>
    rcases untilTriple_nil_or h with ⟨-, rest, rfl⟩ | ⟨c, rest, raw', -, hraw, -⟩
    · exact ⟨fun _ => findClose_quotes rest, nofun⟩
    · cases hraw
  | case2 =>
    rcases untilTriple_nil_or h with ⟨hraw, -⟩ | ⟨c, rest, raw', rfl, hraw, hrest, -⟩
    · cases hraw
    obtain ⟨rfl, rfl⟩ := cons.inj hraw
    rcases untilTriple_nil_or hrest with ⟨-, rest', rfl⟩ | ⟨c, rest', raw', -, hraw', -⟩
    · -- The backslash takes the first quote.
      refine ⟨nofun, fun _ raw' hraw' => ?_⟩
      rw [findClose_escape] at hraw'
      obtain ⟨before, -, rfl⟩ := map_eq_some_iff.mp hraw'
      have hsize := Char.utf8Size_pos '"'
      rw [byteLen_cons, byteLen_cons, byteLen_cons]
      show '\\'.utf8Size + 0 < _
      omega
    · cases hraw'
  | case3 c raw ih =>
    rcases untilTriple_nil_or h with ⟨hraw, -⟩ | ⟨c', rest, raw', rfl, hraw, hrest, -⟩
    · cases hraw
    obtain ⟨rfl, rfl⟩ := List.cons.inj hraw
    rcases untilTriple_nil_or hrest with ⟨hraw', -⟩ | ⟨c', rest', raw', rfl, hraw', hrest', -⟩
    · cases hraw'
    obtain ⟨rfl, rfl⟩ := List.cons.inj hraw'
    obtain ⟨hclosed, hescaped⟩ := ih hrest' hhole.tail.tail
    rw [endsEscaped_escape, findClose_escape]
    refine ⟨fun hends => by rw [hclosed hends]; rfl, fun hends raw' hraw' => ?_⟩
    obtain ⟨before, hbefore, rfl⟩ := Option.map_eq_some_iff.mp hraw'
    have hlt := hescaped hends before hbefore
    rw [byteLen_cons, byteLen_cons, byteLen_cons, byteLen_cons]
    omega
  | case4 c raw hsingle hescape ih =>
    have hc : c ≠ '\\' := by
      rintro rfl
      cases raw with
      | nil => exact hsingle rfl rfl
      | cons c' raw => exact hescape c' raw rfl rfl
    rcases untilTriple_nil_or h with ⟨hraw, -⟩ | ⟨c', rest, raw', rfl, hraw, hrest, hquotes⟩
    · cases hraw
    obtain ⟨rfl, rfl⟩ := List.cons.inj hraw
    have hopen : ∀ rest', c :: rest ≠ '$' :: '{' :: rest' := by
      intro rest' heq
      obtain ⟨rfl, rfl⟩ := List.cons.inj heq
      rcases untilTriple_nil_or hrest with ⟨-, rest'', heq'⟩ | ⟨c', _, raw', heq', rfl, -⟩
      · cases heq'
      · obtain ⟨rfl, rfl⟩ := List.cons.inj heq'
        exact hhole.head rfl
    obtain ⟨hclosed, hescaped⟩ := ih hrest hhole.tail
    rw [endsEscaped_cons hc, findClose_cons (.inl hc) hopen hquotes]
    refine ⟨fun hends => by rw [hclosed hends]; rfl, fun hends raw' hraw' => ?_⟩
    obtain ⟨before, hbefore, rfl⟩ := Option.map_eq_some_iff.mp hraw'
    have hlt := hescaped hends before hbefore
    rw [byteLen_cons, byteLen_cons]
    omega

variable {rest : List Char}

theorem untilTriple_none_cons (h : untilTriple (c :: rest) = none) :
    untilTriple rest = none ∧ ∀ rest', c :: rest ≠ '"' :: '"' :: '"' :: rest' := by
  unfold untilTriple at h
  split at h
  · cases h
  · next c' rest' hnot heq =>
      obtain ⟨rfl, rfl⟩ := cons.inj heq
      refine ⟨map_eq_none_iff.mp h, fun rest' heq => ?_⟩
      obtain ⟨rfl, rfl⟩ := cons.inj heq
      exact hnot rest' rfl rfl
  · next heq => cases heq

/-- A body that is not closed is not closed for the other scanner. -/
theorem findTripleInterpClose_none (h : untilTriple text = none) (hhole : NoHole text) :
    findTripleInterpClose text = none := by
  induction text using endsEscaped.induct with
  | case1 => rw [findTripleInterpClose]
  | case2 =>
    rw [findClose_cons (c := '\\') (.inr rfl) nofun nofun, findTripleInterpClose]
    rfl
  | case3 c rest ih =>
    have hrest := (untilTriple_none_cons (untilTriple_none_cons h).1).1
    rw [findClose_escape, ih hrest hhole.tail.tail]
    rfl
  | case4 c rest hsingle hescape ih =>
    obtain ⟨hrest, hquotes⟩ := untilTriple_none_cons h
    have hc : c ≠ '\\' := by
      rintro rfl
      cases rest with
      | nil => exact hsingle rfl rfl
      | cons c' rest => exact hescape c' rest rfl rfl
    rw [findClose_cons (.inl hc) (fun rest' heq => hhole (heq ▸ ⟨[], rest', rfl⟩)) hquotes,
      ih hrest hhole.tail]
    rfl

/-! ## Lines -/

def unlines : List (List Char) → List Char
  | [] => []
  | [line] => line
  | line :: lines => line ++ '\n' :: unlines lines

variable {lines : List (List Char)}

theorem unlines_cons (line : List Char) (h : lines ≠ []) :
    unlines (line :: lines) = line ++ '\n' :: unlines lines := by
  cases lines with
  | nil => exact absurd rfl h
  | cons next lines => rfl

theorem splitLines_ne_nil (text : List Char) : splitLines text ≠ [] := by
  cases text with
  | nil => exact cons_ne_nil _ _
  | cons c rest =>
    unfold splitLines
    split
    · exact cons_ne_nil _ _
    · split <;> exact cons_ne_nil _ _

theorem unlines_splitLines (text : List Char) : unlines (splitLines text) = text := by
  induction text with
  | nil => rfl
  | cons c rest ih =>
    unfold splitLines
    split
    · next hc =>
        rw [unlines_cons _ (splitLines_ne_nil rest), ih, hc]
        rfl
    · split
      · next hnil => exact absurd hnil (splitLines_ne_nil rest)
      · next line lines hlines =>
          rw [hlines] at ih
          rw [← ih]
          cases lines <;> rfl

/-- A line that can stand in a body: one line, without a hole. -/
structure IsLine (line : List Char) : Prop where
  noNewline : '\n' ∉ line
  noHole : NoHole line

theorem newline_notMem_splitLines (h : line ∈ splitLines text) : '\n' ∉ line := by
  induction text generalizing line with
  | nil =>
    cases mem_singleton.mp h
    exact not_mem_nil
  | cons c rest ih =>
    unfold splitLines at h
    split at h
    · rcases mem_cons.mp h with rfl | h
      · exact not_mem_nil
      · exact ih h
    · next hc =>
        split at h
        · next hnil => exact absurd hnil (splitLines_ne_nil rest)
        · next first lines hlines =>
            rcases mem_cons.mp h with rfl | h
            · intro hmem
              rcases mem_cons.mp hmem with heq | hmem
              · exact hc heq.symm
              · exact ih (hlines ▸ mem_cons_self) hmem
            · exact ih (hlines ▸ mem_cons_of_mem _ h)

theorem noHole_of_mem_lines (h : NoHole (unlines lines)) (hline : line ∈ lines) : NoHole line := by
  induction lines with
  | nil => cases hline
  | cons first rest ih =>
    cases rest with
    | nil =>
      cases mem_singleton.mp hline
      exact h
    | cons next rest =>
      rw [unlines_cons first (cons_ne_nil _ _)] at h
      rcases mem_cons.mp hline with rfl | hline
      · exact h.left
      · exact ih h.right.tail hline

theorem isLine_of_mem_splitLines (h : NoHole text) :
    ∀ line ∈ splitLines text, IsLine line := fun _ hline =>
  ⟨newline_notMem_splitLines hline,
    noHole_of_mem_lines (by rwa [unlines_splitLines]) hline⟩

/-! ## The scanner with holes, by lines -/

/-- One line of the other scanner; `carried` is a line behind an escaped newline. -/
def holeLine (margin offset : Nat) (carried : Bool) (line : List Char) :
    List Char × List LexError :=
  if carried then (line, [])
  else
    let rest := line.drop (min margin (indentOf line))
    (rest,
      if indentOf line < margin ∧ rest ≠ [] then
        [.multilineStringInsufficientIndent (Span.point offset)]
      else [])

def holeLines (margin : Nat) : Nat → Bool → List (List Char) → List Char × List LexError
  | _, _, [] => ([], [])
  | offset, carried, [line] => holeLine margin offset carried line
  | offset, carried, line :: lines =>
    let (text, errors) := holeLine margin offset carried line
    let (text', errors') := holeLines margin (offset + byteLen line + 1) (endsEscaped line) lines
    (text ++ '\n' :: text', errors ++ errors')

section

variable (scanHoleExpr : Nat → List Char → List (RawToken × Span) × List LexError)
  (margin openStart : Nat)

theorem scanText_nil (pos : Nat) (lineStart : Bool) (buf : List Char) (textStart : Nat) :
    scanText scanHoleExpr margin openStart pos lineStart buf textStart [] =
      (flushText buf textStart pos, []) := by
  rw [scanText]

theorem scanText_escape (pos : Nat) (buf : List Char) (textStart : Nat) (c : Char)
    (rest : List Char) :
    scanText scanHoleExpr margin openStart pos false buf textStart ('\\' :: c :: rest) =
      scanText scanHoleExpr margin openStart (pos + 1 + c.utf8Size) false (buf ++ ['\\', c])
        textStart rest := by
  rw [scanText]

theorem scanText_char (pos : Nat) (buf : List Char) (textStart : Nat) {c : Char}
    {rest : List Char} (hc : c ≠ '\\' ∨ rest = []) (hnewline : c ≠ '\n')
    (hhole : ∀ rest', c :: rest ≠ '$' :: '{' :: rest') :
    scanText scanHoleExpr margin openStart pos false buf textStart (c :: rest) =
      scanText scanHoleExpr margin openStart (pos + c.utf8Size) false (buf ++ [c]) textStart
        rest := by
  rw [scanText]
  · rintro rest' rfl rfl
    exact hhole rest' rfl
  · rintro c' rest' rfl rfl
    rcases hc with hc | hc
    · exact hc rfl
    · cases hc
  · exact hnewline

theorem scanText_lineStart (pos : Nat) (buf : List Char) (textStart : Nat) (h : text ≠ []) :
    scanText scanHoleExpr margin openStart pos true buf textStart text =
      ((scanText scanHoleExpr margin openStart (pos + min margin (indentOf text)) false buf
          textStart (text.drop (min margin (indentOf text)))).1,
        (if min margin (indentOf text) < margin ∧ text.drop (min margin (indentOf text)) ≠ [] ∧
            (text.drop (min margin (indentOf text))).head? ≠ some '\n' then
          [.multilineStringInsufficientIndent (Span.point pos)]
        else []) ++
        (scanText scanHoleExpr margin openStart (pos + min margin (indentOf text)) false buf
          textStart (text.drop (min margin (indentOf text)))).2) := by
  cases text with
  | nil => exact absurd rfl h
  | cons c rest =>
    rw [scanText]
    exact h

theorem IsLine.tail (h : IsLine (c :: line)) : IsLine line :=
  ⟨fun hmem => h.noNewline (mem_cons_of_mem _ hmem), h.noHole.tail⟩

theorem IsLine.drop (h : IsLine line) (n : Nat) : IsLine (line.drop n) :=
  ⟨fun hmem => h.noNewline (mem_of_mem_drop hmem),
    fun hin => h.noHole (hin.trans (drop_suffix n line).isInfix)⟩

theorem IsLine.head_ne (h : IsLine (c :: line)) : c ≠ '\n' :=
  fun heq => h.noNewline (heq ▸ mem_cons_self)

/-- The `\` of an escape is taken with the character behind it. -/
theorem not_backslash (hsingle : c = '\\' → rest = [] → False)
    (hescape : ∀ c' rest', c = '\\' → rest = c' :: rest' → False) : c ≠ '\\' := by
  intro hc
  cases rest with
  | nil => exact hsingle hc rfl
  | cons c' rest => exact hescape c' rest hc rfl

theorem scanText_lastLine (h : IsLine line) (pos : Nat) (buf : List Char) (textStart : Nat) :
    scanText scanHoleExpr margin openStart pos false buf textStart line =
      (flushText (buf ++ line) textStart (pos + byteLen line), []) := by
  induction line using endsEscaped.induct generalizing pos buf with
  | case1 =>
    rw [scanText_nil, append_nil]
    rfl
  | case2 =>
    rw [scanText_char (c := '\\') _ _ _ _ _ _ (.inr rfl) nofun nofun, scanText_nil]
    rfl
  | case3 c rest ih =>
    rw [scanText_escape, ih h.tail.tail, append_assoc, byteLen_cons, byteLen_cons,
      Nat.add_assoc, Nat.add_assoc]
    rfl
  | case4 c rest hsingle hescape ih =>
    rw [scanText_char _ _ _ _ _ _ (.inl (not_backslash hsingle hescape)) h.head_ne
      (fun rest' heq => h.noHole (heq ▸ ⟨[], rest', rfl⟩)), ih h.tail, append_assoc,
      byteLen_cons, Nat.add_assoc]
    rfl

/-- A line and the newline behind it, which may be escaped. -/
theorem scanText_line (h : IsLine line) (pos : Nat) (buf : List Char) (textStart : Nat)
    (rest : List Char) :
    scanText scanHoleExpr margin openStart pos false buf textStart (line ++ '\n' :: rest) =
      scanText scanHoleExpr margin openStart (pos + byteLen line + 1) (!endsEscaped line)
        (buf ++ line ++ ['\n']) textStart rest := by
  induction line using endsEscaped.induct generalizing pos buf with
  | case1 =>
    rw [nil_append, append_nil]
    conv_lhs => rw [scanText]
    rfl
  | case2 =>
    show scanText scanHoleExpr margin openStart pos false buf textStart ('\\' :: '\n' :: rest) = _
    rw [scanText_escape, append_assoc]
    rfl
  | case3 c line ih =>
    show scanText scanHoleExpr margin openStart pos false buf textStart
      ('\\' :: c :: (line ++ '\n' :: rest)) = _
    have hpos : pos + 1 + c.utf8Size + byteLen line + 1 =
        pos + ('\\'.utf8Size + (c.utf8Size + byteLen line)) + 1 := by
      show _ = pos + (1 + (c.utf8Size + byteLen line)) + 1
      omega
    have hbuf : buf ++ ['\\', c] ++ line = buf ++ '\\' :: c :: line :=
      append_assoc buf ['\\', c] line
    rw [scanText_escape, ih h.tail.tail, endsEscaped_escape, byteLen_cons, byteLen_cons, hpos,
      hbuf]
  | case4 c line hsingle hescape ih =>
    have hc := not_backslash hsingle hescape
    have hopen : ∀ rest', c :: (line ++ '\n' :: rest) ≠ '$' :: '{' :: rest' := by
      intro rest' heq
      obtain ⟨rfl, htail⟩ := cons.inj heq
      cases line with
      | nil => exact absurd (cons.inj htail).1 (by decide)
      | cons c' line => exact h.noHole.head (cons.inj htail).1
    rw [cons_append, scanText_char _ _ _ _ _ _ (.inl hc) h.head_ne hopen, ih h.tail,
      endsEscaped_cons hc, byteLen_cons, append_assoc buf, Nat.add_assoc pos]
    rfl

/-! ### The margin -/

theorem indentOf_le (line : List Char) : indentOf line ≤ line.length :=
  (takeWhile_sublist _).length_le

theorem indentOf_cons_space (line : List Char) : indentOf (' ' :: line) = indentOf line + 1 := rfl

theorem indentOf_cons (hc : c ≠ ' ') (line : List Char) : indentOf (c :: line) = 0 := by
  unfold indentOf
  rw [takeWhile_cons_of_neg]
  · rfl
  · simp [isSpace, hc]

theorem indentOf_append_newline (rest : List Char) :
    indentOf (line ++ '\n' :: rest) = indentOf line := by
  induction line with
  | nil => rfl
  | cons c line ih =>
    rw [cons_append]
    by_cases hc : c = ' '
    · rw [hc, indentOf_cons_space, indentOf_cons_space, ih]
    · rw [indentOf_cons hc, indentOf_cons hc]

/-- The spaces at the start of a line: bytes of their own, and no escapes. -/
theorem drop_indent {n : Nat} (hn : n ≤ indentOf line) :
    n + byteLen (line.drop n) = byteLen line ∧ endsEscaped (line.drop n) = endsEscaped line := by
  induction line generalizing n with
  | nil =>
    cases Nat.le_zero.mp hn
    exact ⟨Nat.zero_add _, rfl⟩
  | cons c line ih =>
    cases n with
    | zero => exact ⟨Nat.zero_add _, rfl⟩
    | succ n =>
      by_cases hc : c = ' '
      · subst hc
        rw [indentOf_cons_space] at hn
        obtain ⟨hbytes, hends⟩ := ih (Nat.le_of_succ_le_succ hn)
        rw [drop_succ_cons, hends, endsEscaped_cons (by decide), byteLen_cons, ← hbytes]
        refine ⟨?_, rfl⟩
        show n + 1 + byteLen (line.drop n) = 1 + (n + byteLen (line.drop n))
        omega
      · rw [indentOf_cons hc] at hn
        cases hn

theorem holeLine_errors (pos : Nat) (h : IsLine line)
    (hrest : rest = line ∨ ∃ text, rest = line ++ '\n' :: text) :
    (if min margin (indentOf line) < margin ∧ rest.drop (min margin (indentOf line)) ≠ [] ∧
        (rest.drop (min margin (indentOf line))).head? ≠ some '\n' then
      [LexError.multilineStringInsufficientIndent (Span.point pos)]
    else []) = (holeLine margin pos false line).2 := by
  have hle : min margin (indentOf line) ≤ line.length :=
    (Nat.min_le_right _ _).trans (indentOf_le line)
  have hcond : (rest.drop (min margin (indentOf line)) ≠ [] ∧
      (rest.drop (min margin (indentOf line))).head? ≠ some '\n') ↔
        line.drop (min margin (indentOf line)) ≠ [] := by
    have hhead : (line.drop (min margin (indentOf line))).head? ≠ some '\n' := fun heq =>
      (h.drop _).noNewline (mem_of_mem_head? heq)
    rcases hrest with rfl | ⟨text, rfl⟩
    · exact and_iff_left hhead
    · rw [drop_append_of_le_length hle]
      cases hdrop : line.drop (min margin (indentOf line)) with
      | nil => simp
      | cons c line' =>
        rw [hdrop] at hhead
        exact ⟨fun _ => cons_ne_nil _ _, fun _ => ⟨cons_ne_nil _ _, hhead⟩⟩
  have hlt : min margin (indentOf line) < margin ↔ indentOf line < margin := by omega
  show _ = if indentOf line < margin ∧ line.drop (min margin (indentOf line)) ≠ [] then
    [LexError.multilineStringInsufficientIndent (Span.point pos)] else []
  simp only [hcond, hlt]

theorem scanText_startLast (h : IsLine line) (pos : Nat) (carried : Bool) (buf : List Char)
    (textStart : Nat) :
    scanText scanHoleExpr margin openStart pos (!carried) buf textStart line =
      (flushText (buf ++ (holeLine margin pos carried line).1) textStart (pos + byteLen line),
        (holeLine margin pos carried line).2) := by
  cases carried with
  | true => exact scanText_lastLine scanHoleExpr margin openStart h pos buf textStart
  | false =>
    by_cases hnil : line = []
    · subst hnil
      show scanText scanHoleExpr margin openStart pos true buf textStart [] = _
      rw [scanText_nil]
      simp [holeLine, byteLen]
    · show scanText scanHoleExpr margin openStart pos true buf textStart line = _
      have hbytes := (drop_indent (Nat.min_le_right margin (indentOf line))).1
      rw [scanText_lineStart _ _ _ _ _ _ hnil, holeLine_errors margin pos h (.inl rfl),
        scanText_lastLine _ _ _ (h.drop _), Nat.add_assoc, hbytes, append_nil]
      rfl

theorem scanText_startLine (h : IsLine line) (pos : Nat) (carried : Bool) (buf : List Char)
    (textStart : Nat) (rest : List Char) :
    scanText scanHoleExpr margin openStart pos (!carried) buf textStart (line ++ '\n' :: rest) =
      ((scanText scanHoleExpr margin openStart (pos + byteLen line + 1) (!endsEscaped line)
          (buf ++ (holeLine margin pos carried line).1 ++ ['\n']) textStart rest).1,
        (holeLine margin pos carried line).2 ++
          (scanText scanHoleExpr margin openStart (pos + byteLen line + 1) (!endsEscaped line)
            (buf ++ (holeLine margin pos carried line).1 ++ ['\n']) textStart rest).2) := by
  cases carried with
  | true => exact scanText_line scanHoleExpr margin openStart h pos buf textStart rest
  | false =>
    show scanText scanHoleExpr margin openStart pos true buf textStart (line ++ '\n' :: rest) = _
    have hle : min margin (indentOf line) ≤ line.length :=
      (Nat.min_le_right _ _).trans (indentOf_le line)
    obtain ⟨hbytes, hends⟩ := drop_indent (Nat.min_le_right margin (indentOf line))
    rw [scanText_lineStart _ _ _ _ _ _ (by simp), indentOf_append_newline,
      holeLine_errors margin pos h (.inr ⟨rest, rfl⟩), drop_append_of_le_length hle,
      scanText_line _ _ _ (h.drop _), hends, Nat.add_assoc pos, hbytes]
    rfl

theorem scanText_lines (hne : lines ≠ []) (h : ∀ line ∈ lines, IsLine line) (pos : Nat)
    (carried : Bool) (buf : List Char) (textStart : Nat) :
    scanText scanHoleExpr margin openStart pos (!carried) buf textStart (unlines lines) =
      (flushText (buf ++ (holeLines margin pos carried lines).1) textStart
          (pos + byteLen (unlines lines)),
        (holeLines margin pos carried lines).2) := by
  induction lines generalizing pos carried buf with
  | nil => exact absurd rfl hne
  | cons line lines ih =>
    have hline := h line mem_cons_self
    cases lines with
    | nil => exact scanText_startLast scanHoleExpr margin openStart hline pos carried buf textStart
    | cons next lines =>
      rw [unlines_cons line (cons_ne_nil _ _), scanText_startLine _ _ _ hline,
        ih (cons_ne_nil _ _) (fun l hl => h l (mem_cons_of_mem _ hl)),
        byteLen_append, byteLen_cons]
      have hstop : pos + byteLen line + 1 + byteLen (unlines (next :: lines)) =
          pos + (byteLen line + ('\n'.utf8Size + byteLen (unlines (next :: lines)))) := by
        show _ = pos + (byteLen line + (1 + byteLen (unlines (next :: lines))))
        omega
      rw [hstop, append_assoc, append_assoc]
      rfl

end

end Ridge.Lexer
