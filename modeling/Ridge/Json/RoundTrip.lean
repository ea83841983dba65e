import Ridge.Json.Value

/-!
# JSON — what the encoder writes, and how it reads back

By induction on the value: what is written at the front of a text reads as the value exactly when
no text in it has a control character, and then reads in no other way. The encoder escapes quotes
and backslashes only, so this is where the grammar and the encoder part.
-/

namespace Ridge

open List

open Json (Term Blank Chars Number Stops Value Elements Members fromMembers blankChar)

variable {F : Type}

/-! ## Texts -/

/-- What one character is written as. -/
def escapedChar (c : Char) : List Char :=
  if c = '\\' then ['\\', '\\'] else if c = '"' then ['\\', '"'] else [c]

theorem jsonEscaped_cons (c : Char) (t : List Char) :
    jsonEscaped (c :: t) = escapedChar c ++ jsonEscaped t := by
  rw [jsonEscaped, jsonEscaped, binaryReplace, binaryReplace, binaryReplace, flatMap_cons,
    flatMap_append, escapedChar]
  congr 1
  by_cases hslash : c = '\\'
  · rw [if_pos hslash, if_pos hslash]
    rfl
  · rw [if_neg hslash, if_neg hslash, flatMap_singleton]

variable {t : List Char}

/-- A text without control characters reads back. -/
theorem chars_escaped (h : CleanText t) (r : List Char) :
    Chars (jsonEscaped t ++ '"' :: r) t r := by
  induction t with
  | nil => exact .close
  | cons c t ih =>
    have hrest := ih fun c hc => h c (List.mem_cons_of_mem _ hc)
    rw [jsonEscaped_cons, escapedChar, List.append_assoc]
    by_cases hslash : c = '\\'
    · rw [if_pos hslash, hslash]
      exact .escape rfl hrest
    · rw [if_neg hslash]
      by_cases hquote : c = '"'
      · rw [if_pos hquote, hquote]
        exact .escape rfl hrest
      · rw [if_neg hquote]
        exact .plain (h c mem_cons_self) hquote hslash hrest

/-- Whatever reads a written text finds it clean. -/
theorem clean_of_chars {t s r r' : List Char} (h : Chars (jsonEscaped t ++ '"' :: r) s r') :
    CleanText t ∧ s = t ∧ r' = r := by
  induction t generalizing s with
  | nil =>
    rw [show jsonEscaped [] ++ '"' :: r = '"' :: r from rfl] at h
    cases h with
    | close => exact ⟨nofun, rfl, rfl⟩
    | plain _ hquote => exact absurd rfl hquote
  | cons c t ih =>
    rw [jsonEscaped_cons, escapedChar, List.append_assoc] at h
    -- The escape of the first character, and the rest of the text.
    have hcons : ∀ {s'}, 32 ≤ c.toNat → Chars (jsonEscaped t ++ '"' :: r) s' r' →
        CleanText (c :: t) ∧ c :: s' = c :: t ∧ r' = r := by
      intro s' hc hrest
      obtain ⟨hclean, hs, hr⟩ := ih hrest
      refine ⟨fun x hx => ?_, by rw [hs], hr⟩
      rcases mem_cons.mp hx with rfl | hx
      · exact hc
      · exact hclean x hx
    by_cases hslash : c = '\\'
    · subst hslash
      rw [if_pos rfl] at h
      cases h with
      | plain _ _ hne => exact absurd rfl hne
      | escape he hrest =>
        cases he
        exact hcons (by decide) hrest
    · rw [if_neg hslash] at h
      by_cases hquote : c = '"'
      · subst hquote
        rw [if_pos rfl] at h
        cases h with
        | plain _ _ hne => exact absurd rfl hne
        | escape he hrest =>
          cases he
          exact hcons (by decide) hrest
      · rw [if_neg hquote, List.singleton_append] at h
        generalize jsonEscaped t ++ '"' :: r = rest at h hcons
        cases h with
        | close => exact absurd rfl hquote
        | plain hc _ _ hrest => exact hcons hc hrest
        | escape | unicode | surrogates => exact absurd rfl hslash

/-! ## Numbers -/

theorem toDigits_head {n : Nat} (h : 0 < n) : (Nat.toDigits 10 n).head? ≠ some '0' := by
  induction n using Nat.strong_induction_on with
  | _ n ih =>
    rw [Nat.toDigits_eq_if (by decide)]
    by_cases hn : n < 10
    · rw [if_pos hn]
      intro hhead
      have hzero := Nat.digitChar_eq_zero.mp (Option.some.inj hhead)
      omega
    · rw [if_neg hn, head?_append_of_ne_nil _ Nat.toDigits_ne_nil]
      exact ih (n / 10) (by omega) (by omega)

theorem intPart_toDigits (n : Nat) : Json.IntPart (Nat.toDigits 10 n) := by
  refine ⟨⟨Nat.toDigits_ne_nil, fun c hc => ?_⟩, fun hhead => ?_⟩
  · exact Nat.isDigit_of_mem_toDigits (by decide) (by decide) hc
  · by_cases hn : n = 0
    · rw [hn]
      exact Nat.toDigits_zero 10
    · exact absurd hhead (toDigits_head (Nat.pos_of_ne_zero hn))

theorem number_integer (read : List Char → F) (n : Int) :
    Number read (integerToBinary n) (.int n) := by
  have hnumber : Number read _ _ := Number.int (decide (n < 0)) (intPart_toDigits n.natAbs)
  have hvalue : Json.signedInt (decide (n < 0)) (Nat.toDigits 10 n.natAbs) = n := by
    rw [Json.signedInt, Nat.ofDigitChars_ten_toDigits]
    by_cases hn : n < 0
    · rw [if_pos (decide_eq_true hn)]
      omega
    · rw [if_neg fun h => hn (of_decide_eq_true h)]
      omega
  rw [hvalue] at hnumber
  exact hnumber

theorem number_float (T : FloatText F) (x : F) : Number T.read (T.print x) (.float x) := by
  obtain ⟨neg, d, f, e, hd, hf, hne, he, hprint⟩ := T.printed x
  have hparts : f ++ e ≠ [] := fun h => hne (append_eq_nil_iff.mp h).1
  have hnumber : Number T.read _ _ := Number.float neg hd hf he hparts
  rw [← hprint, T.read_print] at hnumber
  exact hnumber

variable {read : List Char → F} {v : Term F}

/-- A value that starts with neither a sign nor a digit is no number. -/
theorem not_number {t r : List Char} {c : Char} {x : List Char} (h : Number read t v)
    (heq : t ++ r = c :: x) (hminus : c ≠ '-') (hdigit : c.isDigit = false) : False := by
  obtain ⟨c', s, ht, hhead⟩ := h.head
  rw [ht, cons_append] at heq
  rw [(cons.inj heq).1] at hhead
  rcases hhead with h | h
  · exact hminus h
  · exact nomatch hdigit.symm.trans h

variable {r r' : List Char}

theorem value_number {v w : Term F} (hv : Number read t v) (hr : Stops r)
    (h : Value read (t ++ r) w r') : w = v ∧ r' = r := by
  generalize htext : t ++ r = text at h
  cases h with
  | number hw hr' =>
    obtain ⟨rfl, rfl⟩ := Json.numberChars_unique hv.numberChars hw.numberChars hr hr' htext
    exact ⟨hw.unique hv, rfl⟩
  | null | true | false | text | nil | list
  | empty | map => exact (not_number hv htext (by decide) rfl).elim

/-!
## JSON — lists and objects

A text reads as a term under a condition if, before whatever may follow, it reads exactly when the
condition holds, and then as that term only. Lists and objects of such texts are such texts again:
the encoder puts no blank between them, and the closing brackets start no value.
-/

open Json (OpensValue)

variable {α : Type}

structure WrittenAs (read : List Char → F) (t : List Char) (w : Term F) (clean : Prop) : Prop where
  opens : ∃ c s, t = c :: s ∧ OpensValue c
  reads : clean → ∀ r, Stops r → Value read (t ++ r) w r
  only : ∀ r, Stops r → ∀ w' r', Value read (t ++ r) w' r' → clean ∧ w' = w ∧ r' = r

variable {t : List Char}

variable {w : Term F}

theorem WrittenAs.of_iff {clean clean' : Prop} (h : WrittenAs read t w clean)
    (hiff : clean ↔ clean') : WrittenAs read t w clean' :=
  propext hiff ▸ h

theorem stops_cons {c : Char} {r : List Char} (h : Json.numberChar c = false) : Stops (c :: r) := by
  intro x hx
  cases hx
  exact h

/-! ## Joined texts -/

variable (h sep : List Char)

theorem joinBinaries_cons (t : List (List Char)) :
    joinBinaries (h :: t) sep = h ++ t.flatMap fun b => sep ++ b := by
  show t.foldl (fun acc b => acc ++ (sep ++ b)) h = _
  induction t generalizing h with
  | nil => rw [flatMap_nil, append_nil]; rfl
  | cons b t ih => rw [foldl_cons, ih, flatMap_cons, append_assoc]

theorem joinBinaries_one : joinBinaries [h] sep = h := rfl

theorem joinBinaries_more (h b sep : List Char) (t : List (List Char)) :
    joinBinaries (h :: b :: t) sep = h ++ (sep ++ joinBinaries (b :: t) sep) := by
  rw [joinBinaries_cons, joinBinaries_cons, flatMap_cons, append_assoc]

theorem joinBinaries_front (t : List (List Char)) (r : List Char) :
    ∃ r', joinBinaries (h :: t) sep ++ r = h ++ r' :=
  ⟨_, by rw [joinBinaries_cons, append_assoc]⟩

/-! ## Literals, numbers and texts -/

theorem writtenAs_null (read : List Char → F) :
    WrittenAs read ['n', 'u', 'l', 'l'] .null True where
  opens := ⟨'n', _, rfl, by decide, by decide, by decide⟩
  reads _ r _ := .null
  only r _ w' r' h := by
    generalize htext : ['n', 'u', 'l', 'l'] ++ r = text at h
    cases h with
    | null =>
      cases htext
      exact ⟨trivial, rfl, rfl⟩
    | number hn => exact (not_number hn htext.symm (by decide) rfl).elim
    | _ => exact nomatch (cons.inj htext).1

theorem writtenAs_bool (T : FloatText F) (b : Bool) :
    WrittenAs T.read (jsonEncode T (.bool b)) (.bool b) True := by
  cases b with
  | true =>
    refine ⟨⟨'t', _, rfl, by decide, by decide, by decide⟩, fun _ r _ => .true,
      fun r _ w' r' h => ?_⟩
    generalize htext : jsonEncode T (.bool true) ++ r = text at h
    cases h with
    | true =>
      cases htext
      exact ⟨trivial, rfl, rfl⟩
    | number hn => exact (not_number hn htext.symm (by decide) rfl).elim
    | _ => exact nomatch (cons.inj htext).1
  | false =>
    refine ⟨⟨'f', _, rfl, by decide, by decide, by decide⟩, fun _ r _ => .false,
      fun r _ w' r' h => ?_⟩
    generalize htext : jsonEncode T (.bool false) ++ r = text at h
    cases h with
    | false =>
      cases htext
      exact ⟨trivial, rfl, rfl⟩
    | number hn => exact (not_number hn htext.symm (by decide) rfl).elim
    | _ => exact nomatch (cons.inj htext).1

theorem writtenAs_number (h : Number read t w) :
    WrittenAs read t w True where
  opens := h.opens
  reads _ _ hstop := .number h hstop
  only _ hstop _ _ hvalue := ⟨trivial, value_number h hstop hvalue⟩

theorem jsonEncodeText_append (t r : List Char) :
    jsonEncodeText t ++ r = '"' :: (jsonEscaped t ++ '"' :: r) := by
  rw [jsonEncodeText, cons_append, append_assoc, singleton_append]

theorem writtenAs_text (read : List Char → F) (t : List Char) :
    WrittenAs read (jsonEncodeText t) (.text t) (CleanText t) where
  opens := ⟨'"', _, rfl, by decide, by decide, by decide⟩
  reads hclean r _ := by
    rw [jsonEncodeText_append]
    exact .text (chars_escaped hclean r)
  only r _ w' r' h := by
    rw [jsonEncodeText_append] at h
    generalize htext : '"' :: (jsonEscaped t ++ '"' :: r) = text at h
    cases h with
    | text hchars =>
      rw [← (List.cons.inj htext).2] at hchars
      obtain ⟨hclean, rfl, rfl⟩ := clean_of_chars hchars
      exact ⟨hclean, rfl, rfl⟩
    | number hn => exact (not_number hn htext.symm (by decide) rfl).elim
    | null | true | false | nil | list | empty | map => exact nomatch (List.cons.inj htext).1

/-! ## Lists -/

section Lists

variable {read : List Char → F}

/-- An element of a list or an object, and the comma or bracket after it: the encoder put no blank
on either side. -/
theorem WrittenAs.element {clean : Prop} (h : WrittenAs read t w clean) {x y : Char}
    {b b' u rest r : List Char} (hx : blankChar x = false) (hstop : Json.numberChar x = false)
    (htext : t ++ x :: rest = b ++ u) (hb : Blank b) (hvalue : Value read u v (b' ++ y :: r))
    (hb' : Blank b') : clean ∧ v = w ∧ y = x ∧ r = rest := by
  obtain ⟨c, s, ht, hopens⟩ := h.opens
  have hnil : b = [] := hb.eq_nil (htext.symm.trans (by rw [ht]; rfl)) hopens.1
  rw [hnil, List.nil_append] at htext
  rw [← htext] at hvalue
  obtain ⟨hclean, hv, hrest⟩ := h.only _ (stops_cons hstop) _ _ hvalue
  have hnil' : b' = [] := hb'.eq_nil hrest hx
  rw [hnil'] at hrest
  exact ⟨hclean, hv, (List.cons.inj hrest).1, (List.cons.inj hrest).2⟩

variable {enc : α → List Char} {den : α → Term F} {clean : α → Prop}

variable {items : List α}

theorem elements_joined {a : α} (h : ∀ x ∈ a :: items, WrittenAs read (enc x) (den x) (clean x))
    (hclean : ∀ x ∈ a :: items, clean x) (r : List Char) :
    Elements read (joinBinaries ((a :: items).map enc) [','] ++ ']' :: r)
      ((a :: items).map den) r := by
  induction items generalizing a with
  | nil =>
    have hvalue := (h a List.mem_cons_self).reads (hclean a List.mem_cons_self) (']' :: r)
      (stops_cons rfl)
    exact .single hvalue
  | cons a' items ih =>
    have hrest := ih (fun x hx => h x (List.mem_cons_of_mem _ hx))
      fun x hx => hclean x (List.mem_cons_of_mem _ hx)
    have hvalue := (h a List.mem_cons_self).reads (hclean a List.mem_cons_self)
      (',' :: (joinBinaries ((a' :: items).map enc) [','] ++ ']' :: r)) (stops_cons rfl)
    rw [List.map_cons, List.map_cons, joinBinaries_more, List.append_assoc, List.append_assoc]
    exact .cons hvalue hrest

theorem elements_only {a : α} (h : ∀ x ∈ a :: items, WrittenAs read (enc x) (den x) (clean x))
    {ws : List (Term F)}
    (helements : Elements read (joinBinaries ((a :: items).map enc) [','] ++ ']' :: r) ws r') :
    (∀ x ∈ a :: items, clean x) ∧ ws = (a :: items).map den ∧ r' = r := by
  induction items generalizing a ws with
  | nil =>
    rw [List.map_singleton, joinBinaries_one] at helements
    generalize htext : enc a ++ ']' :: r = text at helements
    have ha := h a List.mem_cons_self
    cases helements with
    | last hb hvalue hb' =>
      obtain ⟨hclean, rfl, -, rfl⟩ := ha.element rfl rfl htext hb hvalue hb'
      exact ⟨List.forall_mem_singleton.mpr hclean, rfl, rfl⟩
    | more hb hvalue hb' =>
      obtain ⟨-, -, hcomma, -⟩ := ha.element rfl rfl htext hb hvalue hb'
      exact nomatch hcomma
  | cons a' items ih =>
    rw [List.map_cons, List.map_cons, joinBinaries_more, List.append_assoc, List.append_assoc,
      ← List.map_cons] at helements
    generalize htext : enc a ++ ([','] ++ (joinBinaries ((a' :: items).map enc) [','] ++ ']' :: r))
      = text at helements
    have ha := h a List.mem_cons_self
    cases helements with
    | last hb hvalue hb' =>
      obtain ⟨-, -, hcomma, -⟩ := ha.element rfl rfl htext hb hvalue hb'
      exact nomatch hcomma
    | more hb hvalue hb' hmore =>
      obtain ⟨hclean, rfl, -, rfl⟩ := ha.element rfl rfl htext hb hvalue hb'
      obtain ⟨hcleans, rfl, rfl⟩ := ih (fun x hx => h x (List.mem_cons_of_mem _ hx)) hmore
      exact ⟨List.forall_mem_cons.mpr ⟨hclean, hcleans⟩, rfl, rfl⟩

/-- A list of texts that read as terms reads as the list of the terms. -/
theorem writtenAs_list (h : ∀ x ∈ items, WrittenAs read (enc x) (den x) (clean x)) :
    WrittenAs read ('[' :: (joinBinaries (items.map enc) [','] ++ [']'])) (.list (items.map den))
      (∀ x ∈ items, clean x) where
  opens := ⟨'[', _, rfl, by decide, by decide, by decide⟩
  reads hclean r _ := by
    rw [List.cons_append, List.append_assoc, List.singleton_append]
    cases items with
    | nil => exact .nil (b := []) Blank.nil
    | cons a items => exact .list (elements_joined h hclean r)
  only r _ w' r' hvalue := by
    rw [List.cons_append, List.append_assoc, List.singleton_append] at hvalue
    generalize htext : '[' :: (joinBinaries (items.map enc) [','] ++ ']' :: r) = text at hvalue
    cases hvalue with
    | nil hb =>
      cases items with
      | nil =>
        have hclose := (List.cons.inj htext).2
        have hnil := hb.eq_nil hclose.symm rfl
        rw [hnil] at hclose
        exact ⟨nofun, rfl, (List.cons.inj hclose).2.symm⟩
      | cons a items =>
        -- The bracket would stand where the first element does.
        obtain ⟨c, s, henc, hblank, hclose, -⟩ := (h a List.mem_cons_self).opens
        have hfront := (List.cons.inj htext).2
        obtain ⟨r'', hjoin⟩ := joinBinaries_front (enc a) [','] (items.map enc) (']' :: r)
        rw [List.map_cons, hjoin, henc] at hfront
        have hnil := hb.eq_nil hfront.symm hblank
        rw [hnil] at hfront
        exact absurd (List.cons.inj hfront).1 hclose
    | list helements =>
      rw [← (List.cons.inj htext).2] at helements
      cases items with
      | nil =>
        exact helements.not_closed.elim
      | cons a items =>
        obtain ⟨hclean, rfl, rfl⟩ := elements_only h helements
        exact ⟨hclean, rfl, rfl⟩
    | number hn => exact (not_number hn htext.symm (by decide) rfl).elim
    | null | true | false | text | empty | map => exact nomatch (List.cons.inj htext).1

end Lists

/-! ## Objects -/

section Objects

variable {read : List Char → F} {enc : α → List Char} {den : α → Term F} {clean : α → Prop}

/-- A name and its value, as `json_encode_object` writes them. -/
def writtenMember (enc : α → List Char) (e : List Char × α) : List Char :=
  jsonEncodeText e.1 ++ ':' :: enc e.2

theorem writtenMember_append (e : List Char × α) (r : List Char) :
    writtenMember enc e ++ r = '"' :: (jsonEscaped e.1 ++ '"' :: ':' :: (enc e.2 ++ r)) := by
  rw [writtenMember, List.append_assoc, jsonEncodeText_append]
  rfl

variable {e : List Char × α} {pairs : List (List Char × α)}

theorem members_joined (h : ∀ x ∈ e :: pairs, WrittenAs read (enc x.2) (den x.2) (clean x.2))
    (hclean : ∀ x ∈ e :: pairs, CleanText x.1 ∧ clean x.2) (r : List Char) :
    Members read (joinBinaries ((e :: pairs).map (writtenMember enc)) [','] ++ '\x7d' :: r)
      ((e :: pairs).map fun x => (x.1, den x.2)) r := by
  induction pairs generalizing e with
  | nil =>
    have hvalue := (h e List.mem_cons_self).reads (hclean e List.mem_cons_self).2 ('\x7d' :: r)
      (stops_cons rfl)
    rw [List.map_singleton, joinBinaries_one, writtenMember_append]
    exact .single (chars_escaped (hclean e List.mem_cons_self).1 _) hvalue
  | cons e' pairs ih =>
    have hrest := ih (fun x hx => h x (List.mem_cons_of_mem _ hx))
      fun x hx => hclean x (List.mem_cons_of_mem _ hx)
    have hvalue := (h e List.mem_cons_self).reads (hclean e List.mem_cons_self).2
      (',' :: (joinBinaries ((e' :: pairs).map (writtenMember enc)) [','] ++ '\x7d' :: r))
      (stops_cons rfl)
    rw [List.map_cons, List.map_cons, joinBinaries_more, List.append_assoc, List.append_assoc,
      writtenMember_append]
    exact .cons (chars_escaped (hclean e List.mem_cons_self).1 _) hvalue hrest

/-- A member of an object, and the comma or brace after it. -/
theorem member_only (h : WrittenAs read (enc e.2) (den e.2) (clean e.2)) {x y : Char}
    {b t k b₁ b₂ t' b' rest r : List Char} (hx : blankChar x = false)
    (hstop : Json.numberChar x = false) (htext : writtenMember enc e ++ x :: rest = b ++ '"' :: t)
    (hb : Blank b) (hk : Chars t k (b₁ ++ ':' :: (b₂ ++ t'))) (hb₁ : Blank b₁) (hb₂ : Blank b₂)
    (hvalue : Value read t' v (b' ++ y :: r)) (hb' : Blank b') :
    (CleanText e.1 ∧ clean e.2) ∧ (k, v) = (e.1, den e.2) ∧ y = x ∧ r = rest := by
  rw [writtenMember_append] at htext
  have hnil : b = [] := hb.eq_nil htext.symm (by decide)
  rw [hnil] at htext
  rw [← (cons.inj htext).2] at hk
  obtain ⟨hname, rfl, hcolon⟩ := clean_of_chars hk
  have hnil₁ : b₁ = [] := hb₁.eq_nil hcolon (by decide)
  rw [hnil₁] at hcolon
  obtain ⟨hclean, rfl, hsep, hrest⟩ :=
    h.element hx hstop (cons.inj hcolon).2.symm hb₂ hvalue hb'
  exact ⟨⟨hname, hclean⟩, rfl, hsep, hrest⟩

theorem members_only (h : ∀ x ∈ e :: pairs, WrittenAs read (enc x.2) (den x.2) (clean x.2))
    {ws : List (List Char × Term F)}

    (hmembers : Members read (joinBinaries ((e :: pairs).map (writtenMember enc)) [','] ++ '\x7d' :: r) ws r') :
    (∀ x ∈ e :: pairs, CleanText x.1 ∧ clean x.2) ∧
      ws = (e :: pairs).map (fun x => (x.1, den x.2)) ∧ r' = r := by
  induction pairs generalizing e ws with
  | nil =>
    rw [map_singleton, joinBinaries_one] at hmembers
    generalize htext : writtenMember enc e ++ '\x7d' :: r = text at hmembers
    have he := h e mem_cons_self
    cases hmembers with
    | last hb hk hb₁ hb₂ hvalue hb' =>
      obtain ⟨hclean, hkv, -, rfl⟩ := member_only he rfl rfl htext hb hk hb₁ hb₂ hvalue hb'
      exact ⟨forall_mem_singleton.mpr hclean, by rw [hkv]; rfl, rfl⟩
    | more hb hk hb₁ hb₂ hvalue hb' =>
      obtain ⟨-, -, hcomma, -⟩ := member_only he rfl rfl htext hb hk hb₁ hb₂ hvalue hb'
      exact nomatch hcomma
  | cons e' pairs ih =>
    rw [map_cons, map_cons, joinBinaries_more, append_assoc, append_assoc,
      ← map_cons] at hmembers
    generalize htext : writtenMember enc e
      ++ ([','] ++ (joinBinaries ((e' :: pairs).map (writtenMember enc)) [','] ++ '\x7d' :: r))
      = text at hmembers
    have he := h e mem_cons_self
    cases hmembers with
    | last hb hk hb₁ hb₂ hvalue hb' =>
      obtain ⟨-, -, hcomma, -⟩ := member_only he rfl rfl htext hb hk hb₁ hb₂ hvalue hb'
      exact nomatch hcomma
    | more hb hk hb₁ hb₂ hvalue hb' hmore =>
      obtain ⟨hclean, hkv, -, rfl⟩ := member_only he rfl rfl htext hb hk hb₁ hb₂ hvalue hb'
      obtain ⟨hcleans, rfl, rfl⟩ := ih (fun x hx => h x (mem_cons_of_mem _ hx)) hmore
      exact ⟨forall_mem_cons.mpr ⟨hclean, hcleans⟩, by rw [hkv]; rfl, rfl⟩

/-- An object of texts that read as terms reads as the map of the terms. -/
theorem writtenAs_object (h : ∀ x ∈ pairs, WrittenAs read (enc x.2) (den x.2) (clean x.2)) :
    WrittenAs read (jsonEncodeObject (pairs.map fun x => (x.1, enc x.2)))
      (.map (fromMembers (pairs.map fun x => (x.1, den x.2))))
      (∀ x ∈ pairs, CleanText x.1 ∧ clean x.2) where
  opens := ⟨'\x7b', _, rfl, by decide, by decide, by decide⟩
  reads hclean r _ := by
    rw [jsonEncodeObject, map_map, cons_append, append_assoc, singleton_append]
    cases pairs with
    | nil => exact .empty (b := []) Blank.nil
    | cons e pairs => exact .map (members_joined h hclean r)
  only r _ w' r' hvalue := by
    rw [jsonEncodeObject, map_map, cons_append, append_assoc, singleton_append,
      show (fun e : List Char × List Char => jsonEncodeText e.1 ++ ':' :: e.2)
        ∘ (fun x : List Char × α => (x.1, enc x.2)) = writtenMember enc from rfl] at hvalue
    generalize htext : '\x7b' :: (joinBinaries (pairs.map (writtenMember enc)) [','] ++ '\x7d' :: r)
      = text at hvalue
    cases hvalue with
    | empty hb =>
      have hfront := (cons.inj htext).2
      cases pairs with
      | nil =>
        rw [hb.eq_nil hfront.symm rfl] at hfront
        exact ⟨nofun, rfl, (cons.inj hfront).2.symm⟩
      | cons e pairs =>
        -- The brace would stand where the first name does.
        obtain ⟨r'', hjoin⟩ := joinBinaries_front (writtenMember enc e) [',']
          (pairs.map (writtenMember enc)) ('\x7d' :: r)
        rw [map_cons, hjoin, writtenMember_append] at hfront
        rw [hb.eq_nil hfront.symm (by decide)] at hfront
        exact nomatch (cons.inj hfront).1
    | map hmembers =>
      rw [← (cons.inj htext).2] at hmembers
      cases pairs with
      | nil => exact hmembers.not_closed.elim
      | cons e pairs =>
        obtain ⟨hclean, rfl, rfl⟩ := members_only h hmembers
        exact ⟨hclean, rfl, rfl⟩
    | number hn => exact (not_number hn htext.symm (by decide) rfl).elim
    | null | true | false | text | nil | list => exact nomatch (cons.inj htext).1

end Objects

end Ridge

/-!
# JSON — when a value comes back

A value is read back from what the encoder writes for it if and only if no text in it has a control
character: the encoder escapes quotes and backslashes, and nothing else.
-/

namespace Ridge

open List KeyedList

open Json (Term Blank Stops Value fromMembers)

variable {F : Type}

/-! ## Recursion over values -/

/-- What holds of a value if it holds of its items and members holds of every value. -/
theorem JsonValue.byParts {P : JsonValue F → Prop} (null : P .null) (bool : ∀ b, P (.bool b))
    (int : ∀ n, P (.int n)) (float : ∀ x, P (.float x)) (text : ∀ t, P (.text t))
    (list : ∀ items, (∀ v ∈ items, P v) → P (.list items))
    (object : ∀ m, (∀ e ∈ m, P e.2) → P (.object m))
    (objectFields : ∀ fields, (∀ e ∈ fields, P e.2) → P (.objectFields fields))
    (v : JsonValue F) : P v := by
  refine JsonValue.rec (motive_1 := P) (motive_2 := fun items => ∀ v ∈ items, P v)
    (motive_3 := fun pairs => ∀ e ∈ pairs, P e.2) (motive_4 := fun e => P e.2)
    null bool int float text list object objectFields ?_ ?_ ?_ ?_ ?_ v
  · exact nofun
  · exact fun _ _ hv hitems => forall_mem_cons.mpr ⟨hv, hitems⟩
  · exact nofun
  · exact fun _ _ he hpairs => forall_mem_cons.mpr ⟨he, hpairs⟩
  · exact fun _ _ hv => hv

theorem jsonEncodeItems_eq (T : FloatText F) (items : List (JsonValue F)) :
    jsonEncodeItems T items = items.map (jsonEncode T) := by
  induction items with
  | nil => rfl
  | cons v items ih => rw [jsonEncodeItems, ih, map_cons]

theorem jsonEncodePairs_eq (T : FloatText F) (pairs : List (List Char × JsonValue F)) :
    jsonEncodePairs T pairs = pairs.map fun e => (e.1, jsonEncode T e.2) := by
  induction pairs with
  | nil => rfl
  | cons e pairs ih => rw [jsonEncodePairs, ih, map_cons]

theorem erlangToJsonItems_eq (items : List (Term F)) :
    erlangToJsonItems items = items.map erlangToJsonValue := by
  induction items with
  | nil => rfl
  | cons v items ih => rw [erlangToJsonItems, ih, map_cons]

theorem erlangToJsonPairs_eq (members : List (List Char × Term F)) :
    erlangToJsonPairs members = members.map fun e => (e.1, erlangToJsonValue e.2) := by
  induction members with
  | nil => rfl
  | cons e members ih => rw [erlangToJsonPairs, ih, map_cons]

namespace JsonValue

theorem denotesItems_eq (items : List (JsonValue F)) : denotesItems items = items.map denotes := by
  induction items with
  | nil => rfl
  | cons v items ih => rw [denotesItems, ih, map_cons]

theorem denotesPairs_eq (pairs : List (List Char × JsonValue F)) :
    denotesPairs pairs = pairs.map fun e => (e.1, denotes e.2) := by
  induction pairs with
  | nil => rfl
  | cons e pairs ih => rw [denotesPairs, ih, map_cons]

theorem cleanItems_iff (items : List (JsonValue F)) : CleanItems items ↔ ∀ v ∈ items, Clean v := by
  induction items with
  | nil => exact iff_of_true trivial nofun
  | cons v items ih => rw [CleanItems, ih, forall_mem_cons]

theorem cleanPairs_iff (pairs : List (List Char × JsonValue F)) :
    CleanPairs pairs ↔ ∀ e ∈ pairs, CleanText e.1 ∧ Clean e.2 := by
  induction pairs with
  | nil => exact iff_of_true trivial nofun
  | cons e pairs ih => rw [CleanPairs, ih, forall_mem_cons, and_assoc]

/-- Of a repeated name only the last value is written. -/
theorem cleanFields_iff (fields : List (List Char × JsonValue F)) :
    CleanFields fields ↔ ∀ e ∈ lastFields fields, CleanText e.1 ∧ Clean e.2 := by
  have hlast : CleanFields fields ↔
      ∀ k v, KeyedList.lastOf k fields = some v → CleanText k ∧ Clean v := by
    induction fields with
    | nil => exact iff_of_true trivial nofun
    | cons e fields ih =>
      rw [CleanFields, ih]
      constructor
      · rintro ⟨hname, hvalue, hrest⟩ k v hkv
        rw [lastOf_cons] at hkv
        cases hfound : KeyedList.lastOf k fields with
        | some v' =>
          rw [hfound] at hkv
          cases hkv
          exact hrest k _ hfound
        | none =>
          rw [hfound, Option.none_or] at hkv
          by_cases hk : k = e.1
          · rw [if_pos hk] at hkv
            cases hkv
            rw [hk] at hfound ⊢
            exact ⟨hname, hvalue.resolve_left (lastOf_eq_none_iff.mp hfound)⟩
          · rw [if_neg hk] at hkv
            exact nomatch hkv
      · intro h
        have hrest : ∀ k v, KeyedList.lastOf k fields = some v → CleanText k ∧ Clean v :=
          fun k v hkv => h k v (by rw [lastOf_cons, hkv]; rfl)
        cases hfound : KeyedList.lastOf e.1 fields with
        | some v' =>
          have hkeep : e.1 ∈ fields.map Prod.fst :=
            mem_map.mpr ⟨_, mem_of_lastOf hfound, rfl⟩
          exact ⟨(hrest _ _ hfound).1, .inl hkeep, hrest⟩
        | none =>
          have hhead := h e.1 e.2 (by rw [lastOf_cons, hfound, if_pos rfl]; rfl)
          exact ⟨hhead.1, .inr hhead.2, hrest⟩
  rw [hlast]
  exact ⟨fun h e he => h _ _ (mem_lastFields.mp he),
    fun h k v hkv => h (k, v) (mem_lastFields.mpr hkv)⟩

/-- What the decoder makes of a term denotes the term. -/
theorem denotes_erlangToJsonValue (v : JsonValue F) :
    (erlangToJsonValue v.denotes).denotes = v.denotes := by
  -- An object was read as a map, whose members keep their values.
  have hmap : ∀ pairs : List (List Char × JsonValue F),
      (∀ e ∈ pairs, (erlangToJsonValue e.2.denotes).denotes = e.2.denotes) →
      (erlangToJsonValue (.map (fromMembers (denotesPairs pairs)))).denotes
        = .map (fromMembers (denotesPairs pairs)) := by
    intro pairs ih
    rw [erlangToJsonValue, denotes, erlangToJsonPairs_eq, denotesPairs_eq, map_map,
      denotesPairs_eq]
    refine congrArg Term.map ?_
    have hkeep : (fromMembers (pairs.map fun e => (e.1, denotes e.2))).map
        ((fun e => (e.1, denotes e.2)) ∘ fun e => (e.1, erlangToJsonValue e.2))
        = fromMembers (pairs.map fun e => (e.1, denotes e.2)) := by
      refine (map_congr_left fun e he => ?_).trans (map_id _)
      obtain ⟨e', he', rfl⟩ := mem_map.mp (mem_of_mem_normalise he)
      exact Prod.ext rfl (ih e' he')
    rw [hkeep]
    exact fromMembers_congr fun k => lastOf_normalise k _
  induction v using JsonValue.byParts with
  | null => rfl
  | bool => rfl
  | int => rfl
  | float => rfl
  | text => rfl
  | list items ih =>
    rw [denotes, denotesItems_eq, erlangToJsonValue, erlangToJsonItems_eq, denotes,
      denotesItems_eq, map_map, map_map]
    exact congrArg Term.list (map_congr_left ih)
  | object m ih => exact hmap m ih
  | objectFields fields ih => exact hmap fields ih

end JsonValue

/-! ## Encoding and reading -/

/-- Members in an order and a choice that keep the last of each name. -/
theorem fromMembers_denotes {l l' : List (List Char × JsonValue F)}
    (h : fromMembers l' = fromMembers l) :
    fromMembers (l'.map fun e => (e.1, e.2.denotes))
      = fromMembers (JsonValue.denotesPairs l) := by
  rw [JsonValue.denotesPairs_eq, fromMembers, normalise_map, fromMembers,
    normalise_map]
  exact congrArg _ h

/-- What is written for a value reads as the value, if no text in it has a control character. -/
theorem writtenAs_jsonEncode (T : FloatText F) (v : JsonValue F) :
    WrittenAs T.read (jsonEncode T v) v.denotes v.Clean := by
  have hobject : ∀ l l' : List (List Char × JsonValue F), fromMembers l' = fromMembers l →
      (∀ e ∈ l', WrittenAs T.read (jsonEncode T e.2) e.2.denotes e.2.Clean) →
      WrittenAs T.read (jsonEncodeObject (l'.map fun e => (e.1, jsonEncode T e.2)))
        (.map (fromMembers (JsonValue.denotesPairs l)))
        (∀ e ∈ l', CleanText e.1 ∧ e.2.Clean) := by
    intro l l' hsame ih
    rw [← fromMembers_denotes hsame]
    exact writtenAs_object ih
  induction v using JsonValue.byParts with
  | null => exact writtenAs_null T.read
  | bool b => exact writtenAs_bool T b
  | int n => exact writtenAs_number (number_integer T.read n)
  | float x => exact writtenAs_number (number_float T x)
  | text t => exact writtenAs_text T.read t
  | list items ih =>
    rw [jsonEncode, jsonEncodeItems_eq, JsonValue.denotes, JsonValue.denotesItems_eq]
    exact (writtenAs_list ih).of_iff (JsonValue.cleanItems_iff items).symm
  | object m ih =>
    rw [jsonEncode, jsonEncodePairs_eq, sort_map]
    have hmem : ∀ e, e ∈ KeyedList.sort m ↔ e ∈ m :=
      fun e => (perm_insertionSort _ m).mem_iff
    refine (hobject m _ (fromMembers_sort m) fun e he => ih e ((hmem e).mp he)).of_iff ?_
    refine Iff.trans ?_ (JsonValue.cleanPairs_iff m).symm
    exact forall_congr' fun e => imp_congr_left (hmem e)
  | objectFields fields ih =>
    rw [jsonEncode, jsonEncodePairs_eq, lastFields_map]
    refine (hobject fields _ (fromMembers_lastFields fields) fun e he => ih e ?_).of_iff
      (JsonValue.cleanFields_iff fields).symm
    exact mem_of_lastOf (mem_lastFields.mp he)

/-- No blank is written, so the document is the value. -/
theorem document_iff (T : FloatText F) (v : JsonValue F) (w : Term F) :
    Json.Document T.read (jsonEncode T v) w ↔ v.Clean ∧ w = v.denotes := by
  have hreads := writtenAs_jsonEncode T v
  have hstop : Stops [] := nofun
  constructor
  · intro h
    generalize htext : jsonEncode T v = text at h
    cases h with
    | @mk b t _ b' hb hvalue hb' =>
      obtain ⟨c, s, hopen, hopens⟩ := hreads.opens
      rw [hb.eq_nil (htext.symm.trans hopen) hopens.1, nil_append] at htext
      rw [← htext, ← append_nil (jsonEncode T v)] at hvalue
      obtain ⟨hclean, hw, -⟩ := hreads.only [] hstop _ _ hvalue
      exact ⟨hclean, hw⟩
  · rintro ⟨hclean, rfl⟩
    have hvalue := hreads.reads hclean [] hstop
    rw [append_nil] at hvalue
    exact .mk (b := []) Blank.nil hvalue Blank.nil

/-- A value is written as JSON, decodes, and decodes to nothing but an equal value, exactly when no
text in it has a control character. -/
theorem json_round_trip_iff (T : FloatText F) (v : JsonValue F) :
    ((∃ w, Json.Document T.read (jsonEncode T v) w) ∧
      (∃ v', JsonDecodes T (jsonEncode T v) v') ∧
      ∀ v', JsonDecodes T (jsonEncode T v) v' → v'.denotes = v.denotes) ↔ v.Clean := by
  constructor
  · rintro ⟨⟨w, hdoc⟩, -⟩
    exact ((document_iff T v w).mp hdoc).1
  · intro hclean
    have hdoc := (document_iff T v v.denotes).mpr ⟨hclean, rfl⟩
    refine ⟨⟨_, hdoc⟩, ⟨_, _, hdoc, rfl⟩, ?_⟩
    rintro v' ⟨w, hw, rfl⟩
    rw [((document_iff T v w).mp hw).2]
    exact JsonValue.denotes_erlangToJsonValue v

/-- A line break is written as it stands, and no JSON text holds one inside a string. -/
theorem json_round_trip_line_break :
    ¬ ∀ (F : Type) (T : FloatText F) (v : JsonValue F),
      (∃ w, Json.Document T.read (jsonEncode T v) w) ∧
      (∃ v', JsonDecodes T (jsonEncode T v) v') ∧
      ∀ v', JsonDecodes T (jsonEncode T v) v' → v'.denotes = v.denotes := by
  intro h
  have hone : Json.Digits ['1'] := ⟨nofun, fun c hc => by rw [mem_singleton.mp hc]; rfl⟩
  have hzero : Json.Digits ['0'] := ⟨nofun, fun c hc => by rw [mem_singleton.mp hc]; rfl⟩
  -- One float, printed as `1.0`.
  let T : FloatText Unit :=
    { print := fun _ => ['1', '.', '0']
      read := fun _ => ()
      printed := fun _ => ⟨false, ['1'], ['.', '0'], [], ⟨hone, nofun⟩, .some hzero, nofun, .none, rfl⟩
      read_print := fun _ => rfl }
  obtain ⟨w, hdoc⟩ := (h Unit T (.text ['\n'])).1
  exact absurd (((document_iff T _ w).mp hdoc).1 '\n' mem_cons_self) (by decide)

end Ridge
