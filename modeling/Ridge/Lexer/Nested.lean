import Mathlib.Data.List.TakeWhile
import Ridge.Lexer.Layout

/-!
# ridge-lexer — the layout pass only adds layout

Grouping the tokens into lines keeps them, in order; a line is written as its tokens after the
layout it opens with. A walk over the output that counts open blocks is always at the height of the
stack, so no dedent comes without its indent and all are closed at the end.
-/

namespace Ridge.Lexer

open List

variable {toks : List (Token × Span)}

/-- What the pass may add. -/
def isLayout : Token → Bool
  | .newline | .indent | .dedent | .eof => true
  | _ => false

/-- The stream the pass is run on: the scanner has physical newlines only. -/
structure RawStream where
  toks : List (Token × Span)
  raw : ∀ tok ∈ toks, tok.1 ≠ .indent ∧ tok.1 ≠ .dedent ∧ tok.1 ≠ .eof

def lineTokens (lines : List LogicalLine) : List (Token × Span) := lines.flatMap LogicalLine.toks

@[simp] theorem lineTokens_nil : lineTokens [] = [] := rfl

@[simp] theorem lineTokens_cons (line : LogicalLine) (lines : List LogicalLine) :
    lineTokens (line :: lines) = line.toks ++ lineTokens lines := rfl

@[simp] theorem lineTokens_append (lines lines' : List LogicalLine) :
    lineTokens (lines ++ lines') = lineTokens lines ++ lineTokens lines' :=
  flatMap_append

/-! ## Grouping into lines -/

def withoutNewlines (toks : List (Token × Span)) : List (Token × Span) :=
  toks.filter fun tok => tok.1 ≠ .newline

theorem lineTokens_physicalLines (lineStart : Nat) (current toks : List (Token × Span)) :
    lineTokens (physicalLines lineStart current toks) = current ++ withoutNewlines toks := by
  induction toks generalizing lineStart current with
  | nil => simp [physicalLines, withoutNewlines]
  | cons tok rest ih =>
    obtain ⟨t, span⟩ := tok
    by_cases ht : t = .newline
    · subst ht
      simp [physicalLines, ih, withoutNewlines]
    · rw [physicalLines, ih, withoutNewlines, withoutNewlines, filter_cons_of_pos (by simpa)]
      · simp
      · intro span' h
        exact ht (congrArg Prod.fst h)

theorem lineTokens_extendPredecessor {merged out : List LogicalLine}
    (h : extendPredecessor toks merged = some out) :
    lineTokens out.reverse = lineTokens merged.reverse ++ toks := by
  induction merged generalizing out with
  | nil => cases h
  | cons line older ih =>
    unfold extendPredecessor at h
    split at h
    · next hblank =>
        obtain ⟨out', hout', rfl⟩ := Option.map_eq_some_iff.mp h
        simp [ih hout', hblank]
    · cases h
      simp

theorem lineTokens_mergeLine (merged : List LogicalLine) (line : LogicalLine) :
    lineTokens (mergeLine merged line).reverse = lineTokens merged.reverse ++ line.toks := by
  have hpush : lineTokens (line :: merged).reverse = lineTokens merged.reverse ++ line.toks := by
    simp
  unfold mergeLine
  split
  · exact hpush
  · split
    · cases hext : extendPredecessor line.toks merged with
      | none => exact hpush
      | some out => exact lineTokens_extendPredecessor hext
    · exact hpush

theorem lineTokens_foldl_mergeLine (lines merged : List LogicalLine) :
    lineTokens (lines.foldl mergeLine merged).reverse =
      lineTokens merged.reverse ++ lineTokens lines := by
  induction lines generalizing merged with
  | nil => simp
  | cons line lines ih => simp [ih, lineTokens_mergeLine]

theorem lineTokens_collectLogicalLines (toks : List (Token × Span)) :
    lineTokens (collectLogicalLines toks) = withoutNewlines toks := by
  unfold collectLogicalLines
  rw [lineTokens_foldl_mergeLine, lineTokens_physicalLines]
  rfl

/-! ## Walking the output -/

/-- The number of open blocks after some tokens, `none` at a dedent with no block open. -/
def walk (opened : Nat) : List (Token × Span) → Option Nat
  | [] => some opened
  | (.indent, _) :: rest => walk (opened + 1) rest
  | (.dedent, _) :: rest =>
    match opened with
    | 0 => none
    | opened + 1 => walk opened rest
  | _ :: rest => walk opened rest

def countKind (kind : Token) (toks : List (Token × Span)) : Nat :=
  toks.countP fun tok => tok.1 = kind

theorem walk_append (opened : Nat) (toks toks' : List (Token × Span)) :
    walk opened (toks ++ toks') = (walk opened toks).bind fun opened => walk opened toks' := by
  induction toks generalizing opened with
  | nil => rfl
  | cons tok rest ih =>
    obtain ⟨t, span⟩ := tok
    cases t <;> first
      | exact ih _
      | cases opened with
        | zero => rfl
        | succ opened => exact ih _

theorem walk_counts {opened opened' : Nat} (h : walk opened toks = some opened') :
    opened + countKind .indent toks = opened' + countKind .dedent toks := by
  induction toks generalizing opened with
  | nil => cases h; rfl
  | cons tok rest ih =>
    obtain ⟨t, span⟩ := tok
    unfold countKind at ih ⊢
    rw [countP_cons, countP_cons]
    cases t
    case indent =>
      have hrest := ih h
      simp only [decide_true, if_true, decide_false, reduceCtorEq, Bool.false_eq_true, if_false]
      omega
    case dedent =>
      cases opened with
      | zero => cases h
      | succ opened =>
        have hrest := ih h
        simp only [decide_true, if_true, decide_false, reduceCtorEq, Bool.false_eq_true,
          if_false]
        omega
    all_goals
      have hrest := ih h
      simp only [decide_false, reduceCtorEq, Bool.false_eq_true, if_false]
      omega

theorem walk_of_no_blocks (opened : Nat) (h : ∀ tok ∈ toks, tok.1 ≠ .indent ∧ tok.1 ≠ .dedent) :
    walk opened toks = some opened := by
  induction toks with
  | nil => rfl
  | cons tok rest ih =>
    obtain ⟨t, span⟩ := tok
    have hrest := ih fun tok htok => h tok (mem_cons_of_mem _ htok)
    have htok := h _ mem_cons_self
    cases t
    case indent => exact absurd rfl htok.1
    case dedent => exact absurd rfl htok.2
    all_goals exact hrest

theorem walk_dedents (here : Span) (closed : List Nat) (opened : Nat) :
    walk (closed.length + opened) (closed.map fun _ => (Token.dedent, here)) = some opened := by
  induction closed with
  | nil => simp [walk]
  | cons col closed ih =>
    rw [length_cons, Nat.add_right_comm]
    exact ih

/-! ## One line -/

theorem trackBrackets_stack (lineStart : Nat) (st : LayoutState) (toks : List (Token × Span)) :
    (trackBrackets lineStart st toks).stack = st.stack := by
  unfold trackBrackets
  induction toks generalizing st with
  | nil => rfl
  | cons tok rest ih =>
    rw [foldl_cons, ih]
    unfold trackBracket
    split
    · rfl
    · split <;> rfl

section

variable (st : LayoutState)

variable (line : LogicalLine)

theorem outsideBrackets_walk (here : Span) :
    walk st.stack.length (outsideBrackets st line here).layout =
      some (outsideBrackets st line here).state.stack.length := by
  unfold outsideBrackets
  split
  · rfl
  · split
    · split <;> rfl
    · split
      · rfl
      · -- The columns that are closed and those that stay make up the stack.
        have hsplit : st.stack.length = (st.stack.takeWhile (line.col < ·)).length +
            (st.stack.dropWhile (line.col < ·)).length := by
          rw [← length_append, takeWhile_append_dropWhile]
        show walk st.stack.length (_ ++ _) = some (st.stack.dropWhile (line.col < ·)).length
        rw [walk_append, hsplit, walk_dedents]
        rfl

theorem insideBrackets_walk (here : Span) :
    walk st.stack.length (insideBrackets st line here).layout =
      some (insideBrackets st line here).state.stack.length := by
  unfold insideBrackets
  repeat' split
  all_goals rfl

theorem outsideBrackets_layout (here : Span) :
    ∀ tok ∈ (outsideBrackets st line here).layout, isLayout tok.1 = true ∧ tok.1 ≠ .eof := by
  unfold outsideBrackets
  intro tok htok
  split at htok
  · cases htok
  · split at htok
    · split at htok
      · cases htok
      · cases mem_singleton.mp htok
        exact ⟨rfl, nofun⟩
    · split at htok
      · cases mem_singleton.mp htok
        exact ⟨rfl, nofun⟩
      · rcases mem_append.mp htok with hclosed | hline
        · obtain ⟨_, -, rfl⟩ := mem_map.mp hclosed
          exact ⟨rfl, nofun⟩
        · cases mem_singleton.mp hline
          exact ⟨rfl, nofun⟩

theorem insideBrackets_layout (here : Span) :
    ∀ tok ∈ (insideBrackets st line here).layout, isLayout tok.1 = true ∧ tok.1 ≠ .eof := by
  unfold insideBrackets
  repeat' split
  all_goals simp [isLayout]

/-- A line is written as its tokens after layout that takes the walk to the new stack. -/
theorem layoutLine_spec (first : Token × Span) :
    ∃ layout, (layoutLine st line first).2.1 = layout ++ line.toks ∧
      (∀ tok ∈ layout, isLayout tok.1 = true ∧ tok.1 ≠ .eof) ∧
      walk st.stack.length layout = some (layoutLine st line first).1.stack.length := by
  unfold layoutLine
  simp only [trackBrackets_stack]
  split
  · exact ⟨_, rfl, outsideBrackets_layout st line _, outsideBrackets_walk st line _⟩
  · exact ⟨_, rfl, insideBrackets_layout st line _, insideBrackets_walk st line _⟩

end

/-! ## The pass -/

def erase (toks : List (Token × Span)) : List (Token × Span) :=
  toks.filter fun tok => !isLayout tok.1

theorem erase_append (toks toks' : List (Token × Span)) :
    erase (toks ++ toks') = erase toks ++ erase toks' :=
  filter_append ..

theorem erase_layout {layout : List (Token × Span)} (h : ∀ tok ∈ layout, isLayout tok.1 = true) :
    erase layout = [] :=
  filter_eq_nil_iff.mpr fun tok htok => by simp [h tok htok]

/-- What a run of the lines writes: the tokens of the lines, with the walk closing every block, and
one `eof` after everything else. -/
structure Wrote (toks : List (Token × Span)) (opened : Nat) (out : List (Token × Span)) : Prop where
  erased : erase out = erase toks
  walks : walk opened out = some 0
  ends : ∃ pre eofSpan, out = pre ++ [(.eof, eofSpan)] ∧ ∀ tok ∈ pre, tok.1 ≠ .eof

theorem layoutLines_wrote (eofSpan : Span) (st : LayoutState) {lines : List LogicalLine}
    (hraw : ∀ tok ∈ lineTokens lines, tok.1 ≠ .indent ∧ tok.1 ≠ .dedent ∧ tok.1 ≠ .eof) :
    Wrote (lineTokens lines) st.stack.length (layoutLines eofSpan st lines).1 := by
  induction lines generalizing st with
  | nil =>
    refine ⟨?_, ?_, _, _, rfl, by simp⟩
    · show erase (_ ++ _) = _
      rw [erase_append, erase_layout (by simp [isLayout])]
      rfl
    · show walk _ (_ ++ _) = _
      rw [walk_append, show st.stack.length = st.stack.length + 0 from rfl, walk_dedents]
      rfl
  | cons line rest ih =>
    rw [lineTokens_cons] at hraw ⊢
    have hline := fun tok htok => hraw tok (mem_append_left _ htok)
    have hrest := fun tok htok => hraw tok (mem_append_right _ htok)
    unfold layoutLines
    split
    · next hblank =>
        rw [hblank]
        exact ih st hrest
    · next first others htoks =>
        obtain ⟨layout, hout, hlayout, hwalk⟩ := layoutLine_spec st line first
        have hw := ih (layoutLine st line first).1 hrest
        show Wrote _ _ ((layoutLine st line first).2.1 ++ _)
        rw [hout]
        refine ⟨?_, ?_, ?_⟩
        · rw [erase_append, erase_append, erase_append, hw.erased,
            erase_layout fun tok htok => (hlayout tok htok).1]
          rfl
        · rw [walk_append, walk_append, hwalk]
          show (walk _ line.toks).bind _ = _
          rw [walk_of_no_blocks _ fun tok htok => ⟨(hline tok htok).1, (hline tok htok).2.1⟩]
          exact hw.walks
        · obtain ⟨pre, eofSpan', hend, hpre⟩ := hw.ends
          refine ⟨layout ++ line.toks ++ pre, eofSpan', ?_, fun tok htok => ?_⟩
          · rw [hend, append_assoc (layout ++ line.toks)]
          · rcases mem_append.mp htok with htok | htok
            · rcases mem_append.mp htok with htok | htok
              · exact (hlayout tok htok).2
              · exact (hline tok htok).2.2
            · exact hpre tok htok

theorem erase_withoutNewlines (toks : List (Token × Span)) :
    erase (withoutNewlines toks) = erase toks := by
  unfold erase withoutNewlines
  rw [filter_filter]
  refine filter_congr fun tok _ => ?_
  obtain ⟨t, span⟩ := tok
  cases t <;> rfl

theorem erase_raw (stream : RawStream) : erase stream.toks = withoutNewlines stream.toks := by
  unfold erase withoutNewlines
  refine filter_congr fun tok htok => ?_
  have hraw := stream.raw tok htok
  obtain ⟨t, span⟩ := tok
  cases t
  case indent => exact absurd rfl hraw.1
  case dedent => exact absurd rfl hraw.2.1
  case eof => exact absurd rfl hraw.2.2
  all_goals rfl

/-- The layout pass adds layout and nothing else, and what it adds is well nested. -/
theorem process_nested (stream : RawStream) :
    erase (process stream.toks).1 = withoutNewlines stream.toks ∧
      (∀ pre, pre <+: (process stream.toks).1 → countKind .dedent pre ≤ countKind .indent pre) ∧
      countKind .indent (process stream.toks).1 = countKind .dedent (process stream.toks).1 ∧
      ∃ before eofSpan, (process stream.toks).1 = before ++ [(.eof, eofSpan)] ∧
        ∀ tok ∈ before, tok.1 ≠ .eof := by
  have hraw : ∀ tok ∈ lineTokens (collectLogicalLines stream.toks),
      tok.1 ≠ .indent ∧ tok.1 ≠ .dedent ∧ tok.1 ≠ .eof := by
    intro tok htok
    rw [lineTokens_collectLogicalLines] at htok
    exact stream.raw tok (mem_filter.mp htok).1
  have hwrote : Wrote (lineTokens (collectLogicalLines stream.toks)) 0 (process stream.toks).1 :=
    layoutLines_wrote _ .start hraw
  refine ⟨?_, fun pre hpre => ?_, ?_, hwrote.ends⟩
  · rw [hwrote.erased, lineTokens_collectLogicalLines, erase_withoutNewlines, erase_raw]
  · obtain ⟨post, hpost⟩ := hpre
    have hwalks := hwrote.walks
    rw [← hpost, walk_append] at hwalks
    obtain ⟨mid, hmid, -⟩ := Option.bind_eq_some_iff.mp hwalks
    have hcounts := walk_counts hmid
    omega
  · have hcounts := walk_counts hwrote.walks
    omega

end Ridge.Lexer
