import Mathlib.Data.Char
import Ridge.Lib.KeyedList

/-!
# Lib — the JSON grammar

RFC 8259 as a relation: `Value t v r` says that a JSON value stands at the front of `t`, denotes `v`
and leaves `r`. A number ends where no character of a number follows. The value of an object keeps
the last member of each name. What a floating numeral denotes is the reader's business.
-/

namespace Ridge.Json

open List

inductive Term (F : Type) where
  | null
  | bool (b : Bool)
  | int (n : Int)
  | float (x : F)
  | text (t : List Char)
  | list (items : List (Term F))
  | map (members : List (List Char × Term F))

/-! ## Blanks and strings -/

def blankChar (c : Char) : Bool := c ∈ [' ', '\t', '\n', '\r']

def Blank (t : List Char) : Prop := ∀ c ∈ t, blankChar c = true

/-- What follows the backslash of a two-character escape, and what the escape denotes. -/
def escapeChar : Char → Option Char
  | '"' => some '"'
  | '\\' => some '\\'
  | '/' => some '/'
  | 'b' => some (Char.ofNat 8)
  | 'f' => some (Char.ofNat 12)
  | 'n' => some '\n'
  | 'r' => some '\r'
  | 't' => some '\t'
  | _ => none

def hexValue (c : Char) : Option Nat :=
  if '0' ≤ c ∧ c ≤ '9' then some (c.toNat - 48)
  else if 'a' ≤ c ∧ c ≤ 'f' then some (c.toNat - 87)
  else if 'A' ≤ c ∧ c ≤ 'F' then some (c.toNat - 55)
  else none

def hexQuad (a b c d : Char) : Option Nat :=
  match hexValue a, hexValue b, hexValue c, hexValue d with
  | some a, some b, some c, some d => some (((a * 16 + b) * 16 + c) * 16 + d)
  | _, _, _, _ => none

/-- The characters of a string up to its closing quote. Control characters must be escaped. -/
inductive Chars : List Char → List Char → List Char → Prop
  | close {r} : Chars ('"' :: r) [] r
  | plain {c t s r} (h : 32 ≤ c.toNat) (hquote : c ≠ '"') (hslash : c ≠ '\\') (ht : Chars t s r) :
      Chars (c :: t) (c :: s) r
  | escape {e c t s r} (h : escapeChar e = some c) (ht : Chars t s r) :
      Chars ('\\' :: e :: t) (c :: s) r
  | unicode {a b c d n t s r} (h : hexQuad a b c d = some n) (hn : n < 0xD800 ∨ 0xDFFF < n)
      (ht : Chars t s r) : Chars ('\\' :: 'u' :: a :: b :: c :: d :: t) (Char.ofNat n :: s) r
  | surrogates {a b c d a' b' c' d' hi lo t s r} (h : hexQuad a b c d = some hi)
      (h' : hexQuad a' b' c' d' = some lo) (hhi : 0xD800 ≤ hi ∧ hi < 0xDC00)
      (hlo : 0xDC00 ≤ lo ∧ lo ≤ 0xDFFF) (ht : Chars t s r) :
      Chars ('\\' :: 'u' :: a :: b :: c :: d :: '\\' :: 'u' :: a' :: b' :: c' :: d' :: t)
        (Char.ofNat (0x10000 + (hi - 0xD800) * 0x400 + (lo - 0xDC00)) :: s) r

/-! ## Numbers -/

def Digits (d : List Char) : Prop := d ≠ [] ∧ ∀ c ∈ d, c.isDigit = true

/-- No leading zero. -/
def IntPart (d : List Char) : Prop := Digits d ∧ (d.head? = some '0' → d = ['0'])

inductive FracPart : List Char → Prop
  | none : FracPart []
  | some {d} (h : Digits d) : FracPart ('.' :: d)

inductive ExpPart : List Char → Prop
  | none : ExpPart []
  | some {e s d} (he : e = 'e' ∨ e = 'E') (hs : s = [] ∨ s = ['+'] ∨ s = ['-']) (h : Digits d) :
      ExpPart (e :: (s ++ d))

def signed (neg : Bool) (d : List Char) : List Char := if neg then '-' :: d else d

def signedInt (neg : Bool) (d : List Char) : Int :=
  if neg then -(Nat.ofDigitChars 10 d 0 : Int) else Nat.ofDigitChars 10 d 0

/-- A numeral without fraction and exponent is an integer. -/
inductive Number {F : Type} (read : List Char → F) : List Char → Term F → Prop
  | int {d} (neg : Bool) (h : IntPart d) : Number read (signed neg d) (.int (signedInt neg d))
  | float {d f e} (neg : Bool) (h : IntPart d) (hf : FracPart f) (he : ExpPart e)
      (hne : f ++ e ≠ []) :
      Number read (signed neg (d ++ (f ++ e))) (.float (read (signed neg (d ++ (f ++ e)))))

def numberChar (c : Char) : Bool := c.isDigit || c ∈ ['-', '+', '.', 'e', 'E']

/-- No character of a number follows. -/
def Stops (r : List Char) : Prop := ∀ c ∈ r.head?, numberChar c = false

/-! ## Values -/

/-- The members of an object: the last one of each name. -/
def fromMembers {α : Type} (members : List (List Char × α)) : List (List Char × α) :=
  KeyedList.normalise members

mutual

inductive Value {F : Type} (read : List Char → F) : List Char → Term F → List Char → Prop
  | null {r} : Value read ('n' :: 'u' :: 'l' :: 'l' :: r) .null r
  | true {r} : Value read ('t' :: 'r' :: 'u' :: 'e' :: r) (.bool true) r
  | false {r} : Value read ('f' :: 'a' :: 'l' :: 's' :: 'e' :: r) (.bool false) r
  | text {t s r} (h : Chars t s r) : Value read ('"' :: t) (.text s) r
  | number {t v r} (h : Number read t v) (hstop : Stops r) : Value read (t ++ r) v r
  | nil {b r} (h : Blank b) : Value read ('[' :: (b ++ ']' :: r)) (.list []) r
  | list {t items r} (h : Elements read t items r) : Value read ('[' :: t) (.list items) r
  | empty {b r} (h : Blank b) : Value read ('\x7b' :: (b ++ '\x7d' :: r)) (.map []) r
  | map {t members r} (h : Members read t members r) :
      Value read ('\x7b' :: t) (.map (fromMembers members)) r

/-- The elements of an array, with its closing bracket. -/
inductive Elements {F : Type} (read : List Char → F) :
    List Char → List (Term F) → List Char → Prop
  | last {b t v b' r} (hb : Blank b) (h : Value read t v (b' ++ ']' :: r)) (hb' : Blank b') :
      Elements read (b ++ t) [v] r
  | more {b t v b' t' items r} (hb : Blank b) (h : Value read t v (b' ++ ',' :: t'))
      (hb' : Blank b') (hrest : Elements read t' items r) :
      Elements read (b ++ t) (v :: items) r

/-- The members of an object, with its closing brace. -/
inductive Members {F : Type} (read : List Char → F) :
    List Char → List (List Char × Term F) → List Char → Prop
  | last {b t k b₁ b₂ t' v b' r} (hb : Blank b) (hk : Chars t k (b₁ ++ ':' :: (b₂ ++ t')))
      (hb₁ : Blank b₁) (hb₂ : Blank b₂) (h : Value read t' v (b' ++ '\x7d' :: r)) (hb' : Blank b') :
      Members read (b ++ '"' :: t) [(k, v)] r
  | more {b t k b₁ b₂ t' v b' t'' members r} (hb : Blank b)
      (hk : Chars t k (b₁ ++ ':' :: (b₂ ++ t'))) (hb₁ : Blank b₁) (hb₂ : Blank b₂)
      (h : Value read t' v (b' ++ ',' :: t'')) (hb' : Blank b')
      (hrest : Members read t'' members r) : Members read (b ++ '"' :: t) ((k, v) :: members) r

end

/-- A JSON text and what it denotes. -/
inductive Document {F : Type} (read : List Char → F) : List Char → Term F → Prop
  | mk {b t v b'} (hb : Blank b) (h : Value read t v b') (hb' : Blank b') :
      Document read (b ++ t) v

/-! ## Blanks are not read into -/

theorem Blank.nil : Blank [] := nofun

variable {c : Char}

theorem Blank.eq_nil {b t x : List Char} (hb : Blank b) (h : b ++ t = c :: x)
    (hc : blankChar c = false) : b = [] := by
  cases b with
  | nil => rfl
  | cons a b =>
    have hac : a = c := (List.cons.inj h).1
    have hblank := hb a List.mem_cons_self
    rw [hac, hc] at hblank
    cases hblank

section

variable {F : Type} {read : List Char → F} {t t' r : List Char} {v : Term F}

/-- An array without blanks. -/
theorem Elements.single (h : Value read t v (']' :: r)) : Elements read t [v] r :=
  @Elements.last F read [] t v [] r Blank.nil h Blank.nil

theorem Elements.cons {items : List (Term F)} (h : Value read t v (',' :: t'))
    (hrest : Elements read t' items r) : Elements read t (v :: items) r :=
  @Elements.more F read [] t v [] t' items r Blank.nil h Blank.nil hrest

variable {k u : List Char}

/-- An object without blanks. -/
theorem Members.single (hk : Chars t k (':' :: u)) (h : Value read u v ('\x7d' :: r)) :
    Members read ('"' :: t) [(k, v)] r :=
  @Members.last F read [] t k [] [] u v [] r Blank.nil hk Blank.nil Blank.nil h Blank.nil

theorem Members.cons {members : List (List Char × Term F)} (hk : Chars t k (':' :: u))
    (h : Value read u v (',' :: t')) (hrest : Members read t' members r) :
    Members read ('"' :: t) ((k, v) :: members) r :=
  @Members.more F read [] t k [] [] u v [] t' members r Blank.nil hk Blank.nil Blank.nil h
    Blank.nil hrest

end

/-! ## Numbers are read to their end -/

theorem numberChar_of_digit (h : c.isDigit = true) : numberChar c = true := by
  rw [numberChar, h, Bool.true_or]

variable {d : List Char}

theorem Digits.numberChars (h : Digits d) : ∀ c ∈ d, numberChar c = true :=
  fun c hc => numberChar_of_digit (h.2 c hc)

theorem FracPart.numberChars {f : List Char} (h : FracPart f) : ∀ c ∈ f, numberChar c = true := by
  cases h with
  | none => exact nofun
  | some h =>
    intro c hc
    rcases List.mem_cons.mp hc with rfl | hc
    · rfl
    · exact h.numberChars c hc

theorem ExpPart.numberChars {e : List Char} (h : ExpPart e) : ∀ c ∈ e, numberChar c = true := by
  cases h with
  | none => exact nofun
  | some he hs h =>
    intro c hc
    rcases List.mem_cons.mp hc with rfl | hc
    · rcases he with rfl | rfl <;> rfl
    · rcases List.mem_append.mp hc with hc | hc
      · rcases hs with rfl | rfl | rfl
        · cases hc
        · rw [List.mem_singleton.mp hc]
          rfl
        · rw [List.mem_singleton.mp hc]
          rfl
      · exact h.numberChars c hc

theorem signed_numberChars (neg : Bool) (h : ∀ c ∈ d, numberChar c = true) :
    ∀ c ∈ signed neg d, numberChar c = true := by
  cases neg with
  | false => exact h
  | true =>
    intro c hc
    rcases List.mem_cons.mp hc with rfl | hc
    · rfl
    · exact h c hc

theorem Number.numberChars {F : Type} {read : List Char → F} {t : List Char} {v : Term F}
    (h : Number read t v) : ∀ c ∈ t, numberChar c = true := by
  cases h with
  | int neg h => exact signed_numberChars neg h.1.numberChars
  | float neg h hf he =>
    refine signed_numberChars neg fun c hc => ?_
    rcases List.mem_append.mp hc with hc | hc
    · exact h.1.numberChars c hc
    · exact (List.mem_append.mp hc).elim (hf.numberChars c) (he.numberChars c)

theorem numberChars_unique {t t' r r' : List Char} (ht : ∀ c ∈ t, numberChar c = true)
    (ht' : ∀ c ∈ t', numberChar c = true) (hr : Stops r) (hr' : Stops r') (h : t ++ r = t' ++ r') :
    t = t' ∧ r = r' := by
  induction t generalizing t' with
  | nil =>
    cases t' with
    | nil => exact ⟨rfl, h⟩
    | cons c t' =>
      rw [List.nil_append] at h
      have hstop := hr c (by rw [h]; rfl)
      exact nomatch hstop.symm.trans (ht' c List.mem_cons_self)
  | cons c t ih =>
    cases t' with
    | nil =>
      rw [List.nil_append] at h
      have hstop := hr' c (by rw [← h]; rfl)
      exact nomatch hstop.symm.trans (ht c List.mem_cons_self)
    | cons c' t' =>
      obtain ⟨hc, hrest⟩ := List.cons.inj h
      obtain ⟨htail, hr⟩ := ih (fun c hc => ht c (List.mem_cons_of_mem _ hc))
        (fun c hc => ht' c (List.mem_cons_of_mem _ hc)) hrest
      rw [hc, htail]
      exact ⟨rfl, hr⟩

theorem Number.head {F : Type} {read : List Char → F} {t : List Char} {v : Term F}
    (h : Number read t v) : ∃ c s, t = c :: s ∧ (c = '-' ∨ c.isDigit = true) := by
  have hsigned : ∀ (neg : Bool) (d rest : List Char), IntPart d →
      ∃ c s, signed neg (d ++ rest) = c :: s ∧ (c = '-' ∨ c.isDigit = true) := by
    intro neg d rest hd
    cases neg with
    | true => exact ⟨'-', d ++ rest, rfl, .inl rfl⟩
    | false =>
      cases d with
      | nil => exact absurd rfl hd.1.1
      | cons c d => exact ⟨c, d ++ rest, rfl, .inr (hd.1.2 c List.mem_cons_self)⟩
  cases h with
  | int neg h =>
    have hs := hsigned neg _ [] h
    rwa [List.append_nil] at hs
  | float neg h => exact hsigned neg _ _ h

/-- A character a value can start with is neither a blank nor a closing bracket. -/
def OpensValue (c : Char) : Prop := blankChar c = false ∧ c ≠ ']' ∧ c ≠ '\x7d'

theorem opensValue_of_digit (h : c.isDigit = true) : OpensValue c := by
  refine ⟨?_, ?_, ?_⟩
  · cases hblank : blankChar c with
    | false => rfl
    | true =>
      have hmem : c ∈ [' ', '\t', '\n', '\r'] := by simpa [blankChar] using hblank
      simp only [List.mem_cons, List.not_mem_nil, or_false] at hmem
      rcases hmem with rfl | rfl | rfl | rfl <;> cases h
  · rintro rfl
    cases h
  · rintro rfl
    cases h

theorem Number.opens {F : Type} {read : List Char → F} {t : List Char} {v : Term F}
    (h : Number read t v) : ∃ c s, t = c :: s ∧ OpensValue c := by
  obtain ⟨c, s, ht, hhead⟩ := h.head
  refine ⟨c, s, ht, ?_⟩
  rcases hhead with rfl | hdigit
  · exact ⟨by decide, by decide, by decide⟩
  · exact opensValue_of_digit hdigit

theorem Value.head {F : Type} {read : List Char → F} {t r : List Char} {v : Term F}
    (h : Value read t v r) : ∃ c s, t = c :: s ∧ OpensValue c := by
  cases h with
  | number h =>
    obtain ⟨c, s, rfl, hopens⟩ := h.opens
    exact ⟨c, s ++ r, rfl, hopens⟩
  | _ => exact ⟨_, _, rfl, by decide, by decide, by decide⟩

/-- An array with elements does not close at once. -/
theorem Elements.not_closed {F : Type} {read : List Char → F} {x r : List Char}
    {items : List (Term F)} (h : Elements read (']' :: x) items r) : False := by
  generalize htext : ']' :: x = text at h
  have hclosed : ∀ {b t v r}, ']' :: x = b ++ t → Blank b → Value read t v r → False := by
    intro b t v r htext hb hvalue
    rw [hb.eq_nil htext.symm rfl, List.nil_append] at htext
    obtain ⟨c, s, ht, -, hopens, -⟩ := hvalue.head
    rw [ht] at htext
    exact hopens (List.cons.inj htext).1.symm
  cases h with
  | last hb hvalue | more hb hvalue => exact hclosed htext hb hvalue

/-- An object with members does not close at once. -/
theorem Members.not_closed {F : Type} {read : List Char → F} {x r : List Char}
    {members : List (List Char × Term F)} (h : Members read ('\x7d' :: x) members r) : False := by
  generalize htext : '\x7d' :: x = text at h
  have hclosed : ∀ {b t}, '\x7d' :: x = b ++ '"' :: t → Blank b → False := by
    intro b t htext hb
    rw [hb.eq_nil htext.symm rfl] at htext
    exact nomatch (cons.inj htext).1
  cases h with
  | last hb | more hb => exact hclosed htext hb

theorem isDigit_ne_minus (h : c.isDigit = true) : c ≠ '-' := by
  rintro rfl
  cases h

/-- The sign is read off the numeral. -/
theorem signed_inj {neg neg' : Bool} {d d' : List Char} (h : signed neg d = signed neg' d')
    (hd : ∀ c ∈ d.head?, c ≠ '-') (hd₂ : ∀ c ∈ d'.head?, c ≠ '-') : neg = neg' ∧ d = d' := by
  cases neg <;> cases neg'
  · exact ⟨rfl, h⟩
  · have hminus : d = '-' :: d' := h
    exact absurd rfl (hd '-' (by rw [hminus]; rfl))
  · have hminus : '-' :: d = d' := h
    exact absurd rfl (hd₂ '-' (by rw [← hminus]; rfl))
  · exact ⟨rfl, (cons.inj h).2⟩

theorem IntPart.head_ne_minus (h : IntPart d) (rest : List Char) :
    ∀ c ∈ (d ++ rest).head?, c ≠ '-' := by
  cases d with
  | nil => exact absurd rfl h.1.1
  | cons a d =>
    intro c hc
    cases hc
    exact isDigit_ne_minus (h.1.2 a mem_cons_self)

/-- A fraction or an exponent starts with no digit. -/
theorem notDigit_of_parts {f e : List Char} (hf : FracPart f) (he : ExpPart e) (hne : f ++ e ≠ []) :
    ∃ c ∈ f ++ e, c.isDigit = false := by
  cases hf with
  | some h => exact ⟨'.', mem_cons_self, rfl⟩
  | none =>
    cases he with
    | none => exact absurd rfl hne
    | some he =>
      refine ⟨_, mem_cons_self, ?_⟩
      rcases he with rfl | rfl <;> rfl

theorem Number.unique {F : Type} {read : List Char → F} {t : List Char} {v w : Term F}
    (hv : Number read t v) (hw : Number read t w) : v = w := by
  -- An integer's digits cannot be those of a numeral with a fraction or an exponent.
  have hmixed : ∀ {neg neg' : Bool} {d d' f e : List Char}, IntPart d → IntPart d' → FracPart f →
      ExpPart e → f ++ e ≠ [] → signed neg d = signed neg' (d' ++ (f ++ e)) → False := by
    intro neg neg' d d' f e hd hd' hf he hne heq
    have hhead := hd.head_ne_minus []
    rw [append_nil] at hhead
    obtain ⟨-, hdd⟩ := signed_inj heq hhead (hd'.head_ne_minus _)
    obtain ⟨c, hc, hnot⟩ := notDigit_of_parts hf he hne
    have hdigit := hd.1.2 c (hdd ▸ mem_append_right d' hc)
    exact nomatch hnot.symm.trans hdigit
  generalize ht : t = t' at hw
  cases hv with
  | int neg h =>
    cases hw with
    | int neg' h' =>
      have hhead := h.head_ne_minus []
      have hhead' := h'.head_ne_minus []
      rw [append_nil] at hhead hhead'
      obtain ⟨rfl, rfl⟩ := signed_inj ht hhead hhead'
      rfl
    | float neg' h' hf he hne => exact (hmixed h h' hf he hne ht).elim
  | float neg h hf he hne =>
    cases hw with
    | int neg' h' => exact (hmixed h' h hf he hne ht.symm).elim
    | float neg' h' hf' he' hne' => rw [ht]

end Ridge.Json
