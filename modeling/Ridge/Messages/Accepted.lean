import Ridge.Messages.Emit

/-!
# Accepted message sites

What the checker did at a site it reported nothing about: what it knew of the receiver, which
handler it picked, which arguments it compared with which parameters, and what it left in the tables
the lowering reads.
-/

namespace Ridge.Messages

open Run Reports List

variable {found : Option (TyConId × Actor)} {nonActor : Ty → MessageError} {c : Option CheckedSite}

variable {A : Actors} {n : Nat} {inferExpr : Expr → MessageM Ty} {span : Span} {s s' s₁ : Sites}

/-! ## What a site leaves for the lowering -/

/-- Two states say the same about the site. -/
def SameSite (span : Span) (s s' : Sites) : Prop :=
  (span ∈ s'.nullary ↔ span ∈ s.nullary) ∧ s'.counts.lookup span = s.counts.lookup span

theorem SameSite.refl (span : Span) (s : Sites) : SameSite span s s := ⟨Iff.rfl, rfl⟩

theorem SameSite.trans (h : SameSite span s s₁) (h' : SameSite span s₁ s') : SameSite span s s' :=
  ⟨h'.1.trans h.1, h'.2.trans h.2⟩

/-- A computation that says nothing about the site. -/
def Leaves {α : Type} (span : Span) (m : MessageM α) : Prop :=
  ∀ s a s', Accepts m s a s' → SameSite span s s'

/-- The expressions of a site are inferred without touching it: no other site has its span. -/
def Apart (inferExpr : Expr → MessageM Ty) (span : Span) : Prop :=
  ∀ e, Leaves span (inferExpr e)

section
variable {α β : Type}

theorem leaves_bind {m : MessageM α} {f : α → MessageM β} (hm : Leaves span m)
    (hf : ∀ a, Leaves span (f a)) : Leaves span (m >>= f) := by
  intro s b s' h
  obtain ⟨a, s₁, h₁, h₂⟩ := accepts_bind.mp h
  exact (hm s a s₁ h₁).trans (hf a s₁ b s' h₂)

theorem leaves_pure (a : α) : Leaves span (pure a : MessageM α) := by
  intro s b s' h
  rw [(accepts_pure.mp h).2]
  exact SameSite.refl span s

end

/-- `t` and `u` were made equal. -/
def Unified (A : Actors) (n : Nat) (t u : Ty) : Prop :=
  ∃ σ σ' es, unify A.workspace n t u σ = some (.ok (), σ', es)

theorem unifyOr_accepted {t u : Ty} {e : TypeError → MessageError} {b : Bool}
    (h : Accepts (unifyOr A n t u e) s b s') : b = true ∧ Unified A n t u ∧ SameSite span s s' := by
  unfold Accepts unifyOr at h
  cases hunify : unify A.workspace n t u s.tables with
  | none =>
    rw [hunify] at h
    cases h
  | some r =>
    obtain ⟨outcome, σ', es⟩ := r
    rw [hunify] at h
    cases outcome with
    | ok =>
      cases h
      exact ⟨rfl, ⟨_, _, _, hunify⟩, Iff.rfl, rfl⟩
    | error => cases h

theorem leaves_unifyOr (t u : Ty) (e : TypeError → MessageError) :
    Leaves span (unifyOr A n t u e) := fun _ _ _ h => (unifyOr_accepted h).2.2

/-! ## Arguments -/

/-- The argument at a position was compared with its parameter. -/
def ArgRight (A : Actors) (n : Nat) (checks : List CheckedArg) (k : Nat) (declared : Ty) : Prop :=
  ∃ c ∈ checks, c.position = k ∧ c.declared = declared ∧ Unified A n c.found declared

section

variable (hapart : Apart inferExpr span)
include hapart

variable {checks : List CheckedArg}

theorem inferArgs_accepted {pairs : List (Expr × Ty)} {i : Nat}
    (h : Accepts (inferArgs A n inferExpr pairs i) s checks s') :
    (∀ k p, pairs[k]? = some p → ArgRight A n checks (i + k) p.2) ∧ SameSite span s s' := by
  induction pairs generalizing i s checks with
  | nil =>
    obtain ⟨rfl, rfl⟩ := accepts_pure.mp h
    exact ⟨fun k p hp => (by cases hp), SameSite.refl span s'⟩
  | cons pair rest ih =>
    obtain ⟨arg, param⟩ := pair
    obtain ⟨t, s₁, hinfer, h⟩ := accepts_bind.mp h
    obtain ⟨b, s₂, hunify, h⟩ := accepts_bind.mp h
    obtain ⟨checks', s₃, hrest, h⟩ := accepts_bind.mp h
    obtain ⟨rfl, rfl⟩ := accepts_pure.mp h
    obtain ⟨-, hunified, hsame₂⟩ : _ ∧ _ ∧ SameSite span s₁ s₂ := unifyOr_accepted hunify
    obtain ⟨hargs, hsame₃⟩ := ih hrest
    refine ⟨fun k p hp => ?_, ((hapart arg s t s₁ hinfer).trans hsame₂).trans hsame₃⟩
    cases k with
    | zero =>
      cases hp
      exact ⟨_, mem_cons_self, rfl, rfl, hunified⟩
    | succ k =>
      obtain ⟨c, hc, hposition, hright⟩ := hargs k p hp
      exact ⟨c, mem_cons_of_mem _ hc, by omega, hright⟩

/-- The lone `()` of a handler without parameters, or one argument for each parameter. -/
theorem checkHandlerArgs_accepted {actor : String} {h : Handler} {args : List Expr}
    (haccepted : Accepts (checkHandlerArgs A n inferExpr span actor h args) s checks s') :
    (span ∈ s'.nullary ↔ h.params = [] ∧ isMarker args = true) ∧
      s'.counts.lookup span = some h.params.length ∧
      (h.params = [] ∧ isMarker args = true ∨
        args.length = h.params.length ∧
          ∀ k p, h.params[k]? = some p → ArgRight A n checks k p.2) := by
  unfold checkHandlerArgs at haccepted
  obtain ⟨_, s₁, hmark, hrest⟩ := accepts_bind.mp haccepted
  have hs₁ := accepts_modify.mp hmark
  have hcount : s₁.counts.lookup span = some h.params.length := by
    rw [hs₁]
    exact lookup_cons_self
  have hunmarked : span ∉ s₁.nullary := by
    rw [hs₁]
    simp
  by_cases hnullary : (h.params.isEmpty && isMarker args) = true
  · -- the marker: the site is entered again, and the literal inferred for its type alone
    rw [if_pos hnullary] at hrest
    rw [Bool.and_eq_true, List.isEmpty_iff] at hnullary
    obtain ⟨_, s₂, hmodify, hrest⟩ := accepts_bind.mp hrest
    obtain ⟨t, s₃, hinfer, hrest⟩ := accepts_bind.mp hrest
    obtain ⟨rfl, rfl⟩ := accepts_pure.mp hrest
    have hs₂ := accepts_modify.mp hmodify
    have hsame := hapart _ _ _ _ hinfer
    have hmarked : span ∈ s₂.nullary := by
      rw [hs₂]
      exact mem_cons_self
    refine ⟨iff_of_true (hsame.1.mpr hmarked) hnullary, ?_, .inl hnullary⟩
    rw [hsame.2, hs₂]
    exact hcount
  · rw [if_neg hnullary] at hrest
    have hnot : ¬ (h.params = [] ∧ isMarker args = true) := by
      rwa [Bool.and_eq_true, List.isEmpty_iff] at hnullary
    by_cases hlen : args.length ≠ h.params.length
    · rw [if_pos hlen] at hrest
      exact absurd hrest not_accepts_record_bind
    · rw [if_neg hlen] at hrest
      rw [not_not] at hlen
      obtain ⟨hargs, hsame⟩ := inferArgs_accepted hapart hrest
      refine ⟨iff_of_false (fun hmem => hunmarked (hsame.1.mp hmem)) hnot, hsame.2.trans hcount,
        .inr ⟨hlen, fun k p hp => ?_⟩⟩
      obtain ⟨hk, -⟩ := List.getElem?_eq_some_iff.mp hp
      have hka : k < args.length := by omega
      have hzip : (args.zip (h.params.map Prod.snd))[k]? = some (args[k], p.2) := by
        rw [getElem?_zip_eq_some]
        refine ⟨getElem?_eq_getElem _, ?_⟩
        rw [getElem?_map, hp]
        rfl
      have := hargs k _ hzip
      rwa [Nat.zero_add] at this

/-! ## Types of sites -/

theorem leaves_checkAskTimeout (ms : Expr) : Leaves span (checkAskTimeout A n inferExpr ms) := by
  refine leaves_bind (hapart ms) fun t => leaves_bind (leaves_unifyOr _ _ _) fun isInt => ?_
  cases isInt with
  | false => exact leaves_pure ()
  | true =>
    cases negativeIntLiteral ms with
    | none => exact leaves_pure ()
    | some literal =>
      intro s u s' h
      exact absurd h not_accepts_record

theorem leaves_checkTimeout (timeout : Option AskTimeout) :
    Leaves span (checkTimeout A n inferExpr timeout) :=
  match timeout with
  | none | some .never => leaves_pure ()
  | some (.millis ms) => leaves_checkAskTimeout hapart ms

end

def ReplyTy (A : Actors) (h : Handler) (ty : Ty) : Prop :=
  ∃ e, A.askError = some e ∧ ty = .con A.result [A.reply h, .con e []]

variable {ty : Ty}

theorem askResultType_accepted {h : Handler} (haccepted : Accepts (askResultType A h) s ty s') :
    ReplyTy A h ty ∧ s' = s := by
  unfold askResultType at haccepted
  cases herror : A.askError with
  | none =>
    rw [herror] at haccepted
    exact absurd haccepted not_accepts_record_bind
  | some id =>
    rw [herror] at haccepted
    obtain ⟨rfl, rfl⟩ := accepts_pure.mp haccepted
    exact ⟨⟨id, herror, rfl⟩, rfl⟩

theorem freshTy_accepted (h : Accepts freshTy s ty s') :
    ty = .var s.tables.freshTyvid.1 ∧ SameSite span s s' := by
  cases h
  exact ⟨rfl, Iff.rfl, rfl⟩

/-! ## The receiver -/

theorem innerActor_accepted {args : List Ty} (h : Accepts (innerActor A n args) s found s') :
    s' = s ∧ ∀ id decl, found = some (id, decl) → A.actor id = some decl := by
  cases args with
  | nil =>
    obtain ⟨rfl, rfl⟩ := accepts_pure.mp h
    exact ⟨rfl, nofun⟩
  | cons inner rest =>
    obtain ⟨t, s₁, hshallow, h⟩ := accepts_bind.mp h
    obtain ⟨rfl, rfl⟩ := accepts_pure.mp h
    refine ⟨(accepts_read.mp hshallow).2, fun id decl hfound => ?_⟩
    cases t with
    | con head args =>
      obtain ⟨decl', hdecl, hpair⟩ := Option.map_eq_some_iff.mp hfound
      cases hpair
      exact hdecl
    | var | rigid | fn | tuple | record | aliased | error => cases hfound

/-- What a receiver resolves to is an actor, and resolving it changes nothing. -/
theorem resolveActorType_accepted {t : Ty} (h : Accepts (resolveActorType A n t) s found s') :
    s' = s ∧ ∀ id decl, found = some (id, decl) → A.actor id = some decl := by
  obtain ⟨u, s₁, hshallow, h⟩ := accepts_bind.mp h
  obtain rfl := (accepts_read.mp hshallow).2
  have hnone : found = none ∧ s' = s₁ →
      s' = s₁ ∧ ∀ id decl, found = some (id, decl) → A.actor id = some decl := by
    rintro ⟨rfl, rfl⟩
    exact ⟨rfl, nofun⟩
  cases u with
  | con head args =>
    unfold resolveActorCon actorOf at h
    dsimp only at h
    cases hactor : A.actor head with
    | some decl =>
      rw [hactor] at h
      obtain ⟨rfl, rfl⟩ := accepts_pure.mp h
      refine ⟨rfl, fun id decl hfound => ?_⟩
      cases hfound
      exact hactor
    | none =>
      rw [hactor] at h
      dsimp only [Option.map_none] at h
      by_cases hbuiltin : A.isBuiltin head = true
      · rw [if_pos hbuiltin] at h
        exact innerActor_accepted h
      · rw [if_neg hbuiltin] at h
        exact hnone (accepts_pure.mp h)
  | var | rigid | fn | tuple | record | aliased | error => exact hnone (accepts_pure.mp h)

/-! ## Sites -/

/-- The site was checked against the first handler of its name. -/
structure Known (A : Actors) (n : Nat) (inferExpr : Expr → MessageM Ty) (span : Span)
    (message : Option (String × List Expr)) (typed : Handler → MessageM Ty) (s : Sites) (ty : Ty)
    (c : Option CheckedSite) (s' : Sites) (id : TyConId) (decl : Actor) (name : String)
    (args : List Expr) (h : Handler) (i : Nat) (checks : List CheckedArg) (s₂ : Sites) : Prop where
  actor : A.actor id = some decl
  message : message = some (name, args)
  found : decl.find name = some (h, i)
  checked : c = some ⟨id, i, checks⟩
  args : Accepts (checkHandlerArgs A n inferExpr span decl.name h args) s checks s₂
  typed : Accepts (typed h) s₂ ty s'

variable {message : Option (String × List Expr)} {typed : Handler → MessageM Ty}

theorem inferResolved_accepted {receiver : Ty}
    (hfound : ∀ id decl, found = some (id, decl) → A.actor id = some decl)
    (h : Accepts (inferResolved A n inferExpr span receiver message nonActor typed found) s (ty, c) s') :
    ∃ id decl name args h i checks s₂,
      Known A n inferExpr span message typed s ty c s' id decl name args h i checks s₂ := by
  cases found with
  | none => exact absurd h not_accepts_record_bind
  | some p =>
    obtain ⟨id, decl⟩ := p
    cases message with
    | none => exact absurd h not_accepts_record_bind
    | some m =>
      obtain ⟨name, args⟩ := m
      unfold inferResolved inferKnown at h
      dsimp only at h
      cases hfind : decl.find name with
      | none =>
        rw [hfind] at h
        exact absurd h not_accepts_record_bind
      | some p =>
        obtain ⟨hdl, i⟩ := p
        rw [hfind] at h
        obtain ⟨checks, s₂, hchecks, h⟩ := accepts_bind.mp h
        obtain ⟨t, s₃, htyped, h⟩ := accepts_bind.mp h
        obtain ⟨hpair, rfl⟩ := accepts_pure.mp h
        cases hpair
        exact ⟨id, decl, name, args, hdl, i, checks, s₂, hfound id decl rfl, rfl, hfind, rfl,
          hchecks, htyped⟩

variable {handle : Expr} {absorbed : MessageM Ty}

/-- A site whose receiver is unknown is passed over; any other is checked against a handler. -/
theorem inferMessage_accepted

    (h : Accepts (inferMessage A n inferExpr span handle message absorbed nonActor typed) s (ty, c) s') :
    ∃ t s₁ u, Accepts (inferExpr handle) s t s₁ ∧
      s₁.tables.deepResolve A.workspace n t = some u ∧
      (isUnknown u = true ∧ c = none ∧ Accepts absorbed s₁ ty s' ∨
        isUnknown u = false ∧ ∃ id decl name args h i checks s₂,
          Known A n inferExpr span message typed s₁ ty c s' id decl name args h i checks s₂) := by
  obtain ⟨t, s₁, hinfer, hafter⟩ := accepts_bind.mp h
  obtain ⟨u, s₂, hdeep, hrest⟩ := accepts_bind.mp hafter
  obtain ⟨hu, rfl⟩ := accepts_read.mp hdeep
  refine ⟨t, s₂, u, hinfer, hu, ?_⟩
  by_cases hunknown : isUnknown u = true
  · rw [if_pos hunknown] at hrest
    obtain ⟨t', s₃, habsorbed, hpure⟩ := accepts_bind.mp hrest
    obtain ⟨hpair, rfl⟩ := accepts_pure.mp hpure
    cases hpair
    exact .inl ⟨hunknown, rfl, habsorbed⟩
  · rw [if_neg hunknown] at hrest
    obtain ⟨found, s₃, hresolve, hsite⟩ := accepts_bind.mp hrest
    obtain ⟨rfl, hfound⟩ := resolveActorType_accepted hresolve
    exact .inr ⟨Bool.eq_false_iff.mpr hunknown, inferResolved_accepted hfound hsite⟩

/-- What the checker did at a site: it was passed over, or checked against the first handler of its
name, with a reply of that handler. -/
inductive Outcome (A : Actors) (n : Nat) (inferExpr : Expr → MessageM Ty) (site : Site)
    (s₁ : Sites) (u ty : Ty) (s' : Sites) : Option CheckedSite → Prop
  | absorbed (hunknown : isUnknown u = true) (hsame : SameSite site.span s₁ s')
    (htyped : site.asks = true → ty = .var s₁.tables.freshTyvid.1) :
    Outcome A n inferExpr site s₁ u ty s' none
  | known (hknown : isUnknown u = false) {id : TyConId} {decl : Actor} {name : String}
    {args : List Expr} {h : Handler} {i : Nat} {checks : List CheckedArg} {s₂ : Sites}
    (hactor : A.actor id = some decl) (hmessage : site.checkedParts = some (name, args))
    (hfind : decl.find name = some (h, i))
    (hargs : Accepts (checkHandlerArgs A n inferExpr site.span decl.name h args) s₁ checks s₂)
    (hsame : SameSite site.span s₂ s') (htyped : site.asks = true → ReplyTy A h ty) :
    Outcome A n inferExpr site s₁ u ty s' (some ⟨id, i, checks⟩)

/-- The common part of the four sites. -/
theorem inferMessage_outcome (site : Site)
    (h : Accepts (inferMessage A n inferExpr site.span handle site.checkedParts absorbed nonActor typed) s (ty, c) s')
    (habsorbed : ∀ s t s', Accepts absorbed s t s' → SameSite site.span s s' ∧ (site.asks = true → t = .var s.tables.freshTyvid.1))

    (htyped : ∀ h s t s', Accepts (typed h) s t s' → SameSite site.span s s' ∧ (site.asks = true → ReplyTy A h t)) :
    ∃ t s₁ u, Accepts (inferExpr handle) s t s₁ ∧
      s₁.tables.deepResolve A.workspace n t = some u ∧
      Outcome A n inferExpr site s₁ u ty s' c := by
  obtain ⟨t, s₁, u, hinfer, hdeep, hcase⟩ := inferMessage_accepted h
  refine ⟨t, s₁, u, hinfer, hdeep, ?_⟩
  rcases hcase with ⟨hunknown, rfl, hpassed⟩ |
    ⟨hknown, id, decl, name, args, hdl, i, checks, s₂, hsite⟩
  · obtain ⟨hsame, hty⟩ := habsorbed _ _ _ hpassed
    exact .absorbed hunknown hsame hty
  · obtain ⟨hsame, hty⟩ := htyped hdl _ _ _ hsite.typed
    rw [hsite.checked]
    exact .known hknown hsite.actor hsite.message hsite.found hsite.args hsame hty

theorem infer_outcome {site : Site} (hapart : Apart inferExpr site.span)
    (h : Accepts (site.infer A n inferExpr) s (ty, c) s') :
    ∃ t s₁ u, Accepts (site.receiver inferExpr) s t s₁ ∧
      s₁.tables.deepResolve A.workspace n t = some u ∧
      Outcome A n inferExpr site s₁ u ty s' c := by
  have hfresh : ∀ s t s', Accepts freshTy s t s' →
      SameSite site.span s s' ∧ (site.asks = true → t = .var s.tables.freshTyvid.1) := by
    intro s t s' h
    obtain ⟨hty, hsame⟩ := freshTy_accepted h
    exact ⟨hsame, fun _ => hty⟩
  have hreply : ∀ (h : Handler) {s t s'}, Accepts (askResultType A h) s t s' →
      SameSite site.span s s' ∧ (site.asks = true → ReplyTy A h t) := by
    intro hdl s t s' h
    obtain ⟨hty, rfl⟩ := askResultType_accepted h
    exact ⟨SameSite.refl _ _, fun _ => hty⟩
  cases site with
  | send handle message span =>
    refine inferMessage_outcome (.send handle message span) h ?_ ?_
    · intro s t s' h
      exact ⟨leaves_pure _ s t s' h, nofun⟩
    · intro hdl s t s' h
      exact ⟨leaves_pure _ s t s' h, nofun⟩
  | ask handle message args timeout span =>
    refine inferMessage_outcome (.ask handle message args timeout span) h hfresh ?_
    intro hdl s t s' h
    obtain ⟨⟨⟩, s₁, htimeout, hresult⟩ := accepts_bind.mp h
    obtain ⟨hsame, hty⟩ := hreply hdl hresult
    exact ⟨(leaves_checkTimeout hapart timeout _ _ _ htimeout).trans hsame, hty⟩
  | tryAsk callee handle message ms span =>
    obtain ⟨t₀, s₀, hcallee, hsite⟩ := accepts_bind.mp h
    obtain ⟨t, s₁, u, hinfer, hdeep, hout⟩ :=
      inferMessage_outcome (.tryAsk callee handle message ms span) hsite hfresh (by
        intro hdl s t s' h
        obtain ⟨⟨⟩, s₁, htimeout, hresult⟩ := accepts_bind.mp h
        obtain ⟨hsame, hty⟩ := hreply hdl hresult
        exact ⟨(leaves_checkAskTimeout hapart ms _ _ _ htimeout).trans hsame, hty⟩)
    exact ⟨t, s₁, u, accepts_bind.mpr ⟨t₀, s₀, hcallee, hinfer⟩, hdeep, hout⟩
  | actorSend callee handle message span =>
    obtain ⟨t₀, s₀, hcallee, hsite⟩ := accepts_bind.mp h
    obtain ⟨t, s₁, u, hinfer, hdeep, hout⟩ :=
      inferMessage_outcome (.actorSend callee handle message span) hsite (by
        intro s t s' h
        exact ⟨(freshTy_accepted h).2, nofun⟩) (by
        intro hdl s t s' h
        refine ⟨?_, nofun⟩
        cases herror : A.sendError with
        | none =>
          rw [herror] at h
          exact absurd h not_accepts_record_bind
        | some id =>
          rw [herror] at h
          exact leaves_pure _ _ _ _ h)
    exact ⟨t, s₁, u, accepts_bind.mpr ⟨t₀, s₀, hcallee, hinfer⟩, hdeep, hout⟩

end Ridge.Messages
