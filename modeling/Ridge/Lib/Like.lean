import Mathlib.Data.List.Infix

/-!
# Lib — LIKE

`LikeRules escape fold like` is what SQL says of `LIKE`, one character of the pattern at a time:
`%` stands for any run, `_` for any one character, a character behind the escape for itself, and
any other character for itself. Dialects differ in their escape and in which characters they hold
to be the same, those that `fold` takes to one.
-/

namespace Ridge

open List

/-- The subject begins with the character `c`, up to `fold`, and `rest` is true of what follows. -/
def OneOf (fold : Char → Char) (c : Char) (rest : List Char → Prop) (s : List Char) : Prop :=
  ∃ d t, s = d :: t ∧ fold d = fold c ∧ rest t

structure LikeRules (escape : Option Char) (fold : Char → Char)
    (like : List Char → List Char → Bool) : Prop where
  nil : ∀ s, like s [] = true ↔ s = []
  run : ∀ s p, like s ('%' :: p) = true ↔ ∃ t, t <:+ s ∧ like t p = true
  one : ∀ s p, like s ('_' :: p) = true ↔ ∃ d t, s = d :: t ∧ like t p = true
  escaped : ∀ e ∈ escape, ∀ c s p,
    like s (e :: c :: p) = true ↔ OneOf fold c (fun t => like t p = true) s
  literal : ∀ c, c ≠ '%' → c ≠ '_' → c ∉ escape → ∀ s p,
    like s (c :: p) = true ↔ OneOf fold c (fun t => like t p = true) s

/-- The three places a needle is looked for in. -/
inductive LikeMode where
  | contains | startsWith | endsWith
  deriving DecidableEq

/-- The pattern around a quoted needle. -/
def LikeMode.wrap : LikeMode → List Char → List Char
  | .contains, p => '%' :: (p ++ ['%'])
  | .startsWith, p => p ++ ['%']
  | .endsWith, p => '%' :: p

def LikeMode.Means : LikeMode → (needle s : List Char) → Prop
  | .contains, needle, s => needle <:+: s
  | .startsWith, needle, s => needle <+: s
  | .endsWith, needle, s => needle <:+ s

theorem LikeMode.means_self (mode : LikeMode) (s : List Char) : mode.Means s s := by
  cases mode with
  | contains => exact infix_refl s
  | startsWith => exact prefix_refl s
  | endsWith => exact suffix_refl s

theorem LikeMode.Means.eq_of_length {mode : LikeMode} {needle s : List Char}
    (h : mode.Means needle s) (hlen : needle.length = s.length) : needle = s := by
  cases mode with
  | contains => exact List.IsInfix.eq_of_length h hlen
  | startsWith => exact List.IsPrefix.eq_of_length h hlen
  | endsWith => exact List.IsSuffix.eq_of_length h hlen

section

variable {escape : Option Char} {fold : Char → Char} {like : List Char → List Char → Bool}
  {quote : Char → List Char} {needle s : List Char}

/-- Written by `quote`, the character stands for itself. -/
def StandsForItself (fold : Char → Char) (like : List Char → List Char → Bool)
    (quote : Char → List Char) (c : Char) : Prop :=
  ∀ s p, like s (quote c ++ p) = true ↔ OneOf fold c (fun t => like t p = true) s

variable {p : List Char}

/-- A quoted needle takes its own characters off the subject. -/
theorem like_quoted (h : ∀ c ∈ needle, StandsForItself fold like quote c) :
    like s (needle.flatMap quote ++ p) = true ↔
      ∃ u t, s = u ++ t ∧ u.map fold = needle.map fold ∧ like t p = true := by
  induction needle generalizing s with
  | nil =>
    refine ⟨fun hp => ⟨[], s, rfl, rfl, hp⟩, ?_⟩
    rintro ⟨u, t, rfl, hu, hp⟩
    rw [map_nil, map_eq_nil_iff] at hu
    rw [hu]
    exact hp
  | cons c needle ih =>
    have hrest := fun t => ih (s := t) fun d hd => h d (mem_cons_of_mem c hd)
    rw [flatMap_cons, append_assoc, h c mem_cons_self]
    constructor
    · rintro ⟨d, t, rfl, hd, ht⟩
      obtain ⟨u, t, rfl, hu, hp⟩ := (hrest t).mp ht
      exact ⟨d :: u, t, rfl, by rw [map_cons, map_cons, hd, hu], hp⟩
    · rintro ⟨u, t, rfl, hu, hp⟩
      obtain ⟨d, u, rfl, hd, hu⟩ := map_eq_cons_iff.mp hu
      exact ⟨d, u ++ t, rfl, hd, (hrest _).mpr ⟨u, t, rfl, hu, hp⟩⟩

theorem LikeRules.run_nil (h : LikeRules escape fold like) (s : List Char) : like s ['%'] = true :=
  (h.run s []).mpr ⟨[], nil_suffix, (h.nil []).mpr rfl⟩

/-- A wrapped needle matches where a text that folds to the same stands. -/
theorem LikeRules.wrapped (h : LikeRules escape fold like)
    (hquote : ∀ c ∈ needle, StandsForItself fold like quote c) (mode : LikeMode) :
    like s (mode.wrap (needle.flatMap quote)) = true ↔
      ∃ u, u.map fold = needle.map fold ∧ mode.Means u s := by
  have hstart : ∀ t, like t (needle.flatMap quote ++ ['%']) = true ↔
      ∃ u, u.map fold = needle.map fold ∧ u <+: t := fun t => by
    rw [like_quoted hquote]
    refine ⟨fun ⟨u, v, ht, hu, _⟩ => ⟨u, hu, v, ht.symm⟩, fun ⟨u, hu, v, ht⟩ => ?_⟩
    exact ⟨u, v, ht.symm, hu, h.run_nil v⟩
  have hwhole : ∀ t, like t (needle.flatMap quote) = true ↔ t.map fold = needle.map fold :=
    fun t => by
      rw [← append_nil (needle.flatMap quote), like_quoted hquote]
      refine ⟨fun ⟨u, v, ht, hu, hv⟩ => ?_, fun hu => ?_⟩
      · rw [ht, (h.nil v).mp hv, append_nil, hu]
      · exact ⟨t, [], (append_nil t).symm, hu, (h.nil []).mpr rfl⟩
  cases mode with
  | startsWith => exact hstart s
  | endsWith =>
    refine (h.run s _).trans ⟨fun ⟨t, hs, ht⟩ => ?_, fun ⟨u, hu, hs⟩ => ?_⟩
    · exact ⟨t, (hwhole t).mp ht, hs⟩
    · exact ⟨u, hs, (hwhole u).mpr hu⟩
  | contains =>
    refine (h.run s _).trans ⟨fun ⟨t, hs, ht⟩ => ?_, fun ⟨u, hu, hs⟩ => ?_⟩
    · obtain ⟨u, hu, hpre⟩ := (hstart t).mp ht
      exact ⟨u, hu, hpre.isInfix.trans hs.isInfix⟩
    · obtain ⟨t, hpre, hsuf⟩ := infix_iff_prefix_suffix.mp hs
      exact ⟨t, hsuf, (hstart t).mpr ⟨u, hu, hpre⟩⟩

/-- Without an escape each `b` of the pattern needs one of the subject. -/
theorem LikeRules.count_le (h : LikeRules none fold like) {b : Char} (hrun : b ≠ '%')
    (hone : b ≠ '_') (hb : ∀ d, fold d = fold b → d = b) (hp : like s p = true) :
    p.count b ≤ s.count b := by
  induction p generalizing s with
  | nil => exact Nat.zero_le _
  | cons c p ih =>
    by_cases hc : c = '%'
    · subst hc
      obtain ⟨t, hsuf, ht⟩ := (h.run s p).mp hp
      rw [List.count_cons_of_ne (Ne.symm hrun)]
      exact (ih ht).trans (hsuf.sublist.count_le b)
    by_cases hc' : c = '_'
    · subst hc'
      obtain ⟨d, t, rfl, ht⟩ := (h.one s p).mp hp
      rw [List.count_cons_of_ne (Ne.symm hone)]
      exact (ih ht).trans (count_le_count_cons)
    obtain ⟨d, t, rfl, hd, ht⟩ := (h.literal c hc hc' (by simp) s p).mp hp
    have hrest := ih ht
    by_cases hcb : c = b
    · subst hcb
      rw [hb d hd, List.count_cons_self, List.count_cons_self]
      exact Nat.succ_le_succ hrest
    · rw [List.count_cons_of_ne hcb]
      exact hrest.trans count_le_count_cons

end

end Ridge
