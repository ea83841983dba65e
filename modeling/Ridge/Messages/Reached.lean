import Ridge.Messages.Accepted
import Ridge.Unify.Assignment

/-!
# Messages reach the handler they were checked against

The result of this part: which accepted message sites send a tuple that exactly the clause of the
handler they were checked against takes, each parameter its argument, and read a reply of the type
they were given.
-/

namespace Ridge.Messages

open Run Reports List

/-- What is known of a site once its module is inferred. -/
structure Final where
  tables : InferCtx
  nullary : List Span
  counts : List (Span × Nat)
  /-- The exported type of the receiver. -/
  exported : Ty

/-- The two types are one, whatever their variables stand for. -/
def SameAt (W : Workspace) (σ : InferCtx) (t u : Ty) : Prop :=
  ∀ ρ, Sat W ρ σ → interp W ρ t = interp W ρ u

section
variable (A : Actors) (n : Nat) (inferExpr : Expr → MessageM Ty) (f : Final) (site : Site)

def Final.receiver : Option TyConId := receiverActor A (unalias f.exported)

/-- What `collect` reports at the site. -/
def Final.error : Option MessageError :=
  match site.parts with
  | some (name, args) =>
    collectError (arity A f.counts site.span f.exported name) f.exported name args
  | none => none

/-- The sites without payload, with the marker `collect` adds. -/
def Final.markers : List Span :=
  match site.parts with
  | some (name, args) =>
    if collectMarker (arity A f.counts site.span f.exported name) args then
      site.span :: f.nullary
    else f.nullary
  | none => f.nullary

/-- The unit of the site is no payload. -/
def Final.drops : Bool := dropUnit A (f.markers A site) f.exported site

/-- The message the site sends, at the values of its arguments. -/
def Final.message {V : Type} (vals : List V) : Message V :=
  buildMessageTuple A (f.markers A site) f.exported site vals

def RepliesAs (ty : Ty) (h : Handler) : Prop :=
  ∃ e, A.askError = some e ∧ SameAt A.workspace f.tables ty (.con A.result [h.body, .con e []])

/-- The site reaches the handler `h`, the `i`th of the actor `id`. -/
structure ReachesHandler (ty : Ty) (c : Option CheckedSite) (id : TyConId) (decl : Actor) (i : Nat)
    (h : Handler) : Prop where
  receives : f.receiver A = some id
  declares : A.actor id = some decl
  handler : decl.handlers[i]? = some h
  named : site.parts.map Prod.fst = some h.name
  /-- It is the handler the site was checked against. -/
  against : ∀ c', c = some c' → c'.actor = id ∧ c'.handler = i
  /-- Each parameter was compared with the argument at its position. -/
  typed : ∀ k p, h.params[k]? = some p → ∃ c', c = some c' ∧ ArgRight A n c'.args k p.2
  /-- Its clause takes the message, and each parameter reads its argument. -/
  taken : ∀ (V : Type) (state : V) (vals : List V), vals.length = site.lowered.2.length →
    ∃ env, dispatch state (f.message A site vals) decl.handlers 0 = some (i, env) ∧
      ∀ (k : Nat) (p : String × Ty), h.params[k]? = some p →
        k < vals.length ∧ env.lookup (nameToErlVar p.1) = vals[k]?
  replies : site.asks = true → RepliesAs A f ty h

def Reaches (ty : Ty) (c : Option CheckedSite) : Prop :=
  ∃ id decl i h, ReachesHandler A n f site ty c id decl i h

/-- A site with a receiver of known type delivers: the handler of its name tells its parameters
apart, the unit of a real parameter is not taken for a marker, and the declared reply type is that
of the body. -/
def KnownDelivers (decl : Actor) : Prop :=
  ∃ h i, decl.find site.lowered.1 = some (h, i) ∧ h.Distinct ∧
    (h.params ≠ [] → isMarker site.lowered.2 = true →
      declaresNullary A f.exported site.lowered.1 = false) ∧
    (site.asks = true → SameAt A.workspace f.tables (A.reply h) h.body)

/-- A site whose receiver was of no known type delivers: it has no payload, the actor declares a
handler of its name without parameters, and the type the ask came to have is that of the reply. -/
def UnknownDelivers (decl : Actor) (ty : Ty) : Prop :=
  site.parts.map Prod.fst = some site.lowered.1 ∧
    (site.lowered.2 = [] ∨ f.drops A site = true) ∧
    ∃ h i, decl.findOf site.lowered.1 0 = some (h, i) ∧ (site.asks = true → RepliesAs A f ty h)

/-- When a site delivers: its receiver is an actor or the handle of one, and it was known to be when
the site was checked, or there was nothing to check. -/
def Delivers (s : Sites) : Prop :=
  ∃ t s₁ u id decl, Accepts (site.receiver inferExpr) s t s₁ ∧
    s₁.tables.deepResolve A.workspace n t = some u ∧
    f.receiver A = some id ∧ A.actor id = some decl ∧
    if isUnknown u then UnknownDelivers A f site decl (.var s₁.tables.freshTyvid.1)
    else KnownDelivers A f site decl

/-- Nothing that comes after the site changes what it left, and the actor it was checked against is
the one its receiver is exported as, if it is an actor there. -/
structure Settled (s' : Sites) (c : Option CheckedSite) : Prop where
  nullary : site.span ∈ f.nullary ↔ site.span ∈ s'.nullary
  counts : f.counts.lookup site.span = s'.counts.lookup site.span
  sameActor : ∀ c', c = some c' → ∀ id, f.receiver A = some id → (A.actor id).isSome →
    id = c'.actor

end

section
variable {A : Actors} {n : Nat} {inferExpr : Expr → MessageM Ty} {f : Final} {site : Site}
  {s s' s₁ : Sites} {u ty : Ty} {c : Option CheckedSite} {id : TyConId} {decl : Actor}

/-! ## The message -/

variable {name : String} {args : List Expr}

/-- What the checker reads as the message is the message, for the lowering too. -/
theorem Site.lowered_of_checked (h : site.checkedParts = some (name, args)) :
    site.parts = some (name, args) ∧ site.lowered = (name, args) := by
  have hshape : ∀ m, extractHandlerCall m = some (name, args) →
      peelParens m = m ∧ unfoldSendMessage m = (name, args) := by
    intro m hm
    unfold extractHandlerCall at hm
    split at hm
    · cases hm
      exact ⟨rfl, rfl⟩
    · cases hm
      exact ⟨rfl, rfl⟩
    · cases hm
  cases site with
  | send handle m span =>
    obtain ⟨hpeel, hunfold⟩ := hshape m h
    refine ⟨?_, hunfold⟩
    show extractHandlerCall (peelParens m) = some (name, args)
    rw [hpeel]
    exact h
  | ask handle m margs timeout span =>
    cases h
    exact ⟨rfl, rfl⟩
  | tryAsk callee handle m ms span | actorSend callee handle m span => exact ⟨h, (hshape _ h).2⟩

variable {V : Type}

theorem Final.message_tag (vals : List V) :
    (f.message A site vals).tag = site.lowered.1 := rfl

theorem Final.message_args (vals : List V) :
    (f.message A site vals).args = if f.drops A site = true then [] else vals := rfl

/-- The unit of a site that was checked against a handler is dropped exactly where the handler takes
nothing, or the exported type of the receiver has another one that does. -/
theorem Final.drops_iff {k : Nat} (hparts : site.parts = some (name, args))
    (hlowered : site.lowered = (name, args))
    (hnullary : site.span ∈ f.nullary ↔ k = 0 ∧ isMarker args = true)
    (hcount : f.counts.lookup site.span = some k) :
    f.drops A site = true ↔
      isMarker args = true ∧ (k = 0 ∨ declaresNullary A f.exported name = true) := by
  have harity : arity A f.counts site.span f.exported name = some k := by
    unfold arity
    rw [hcount]
    rfl
  have hmarkers : site.span ∈ f.markers A site ↔ k = 0 ∧ isMarker args = true := by
    unfold Final.markers
    rw [hparts]
    dsimp only
    rw [harity]
    unfold collectMarker
    by_cases hk : (decide (some k = some 0) && isMarker args) = true
    · rw [if_pos hk]
      rw [Bool.and_eq_true, decide_eq_true_eq, Option.some.injEq] at hk
      exact iff_of_true mem_cons_self hk
    · rw [if_neg hk]
      exact hnullary
  unfold Final.drops dropUnit isNullaryMessageSite
  rw [hlowered, Bool.and_eq_true, Bool.or_eq_true, contains_iff_mem, hmarkers]
  tauto

/-- The message goes to the first handler of its name that takes what was not dropped. -/
theorem Final.dispatched {state : V} {vals : List V} {i : Nat} {env : List (String × V)}
    (hlen : vals.length = site.lowered.2.length) :
    dispatch state (f.message A site vals) decl.handlers 0 = some (i, env) ↔
      ∃ h, decl.findOf site.lowered.1
          (if f.drops A site = true then 0 else site.lowered.2.length) = some (h, i) ∧
        env = h.env state (if f.drops A site = true then [] else vals) := by
  rw [show dispatch state _ decl.handlers 0 = (decl.findOf _ _).map _ from
    dispatch_zipIdx state _ decl.handlers 0, f.message_tag, f.message_args, Option.map_eq_some_iff]
  have hcount : (if f.drops A site = true then ([] : List V) else vals).length
      = if f.drops A site = true then 0 else site.lowered.2.length := by
    split
    · rfl
    · exact hlen
  rw [hcount]
  constructor
  · rintro ⟨⟨h, i'⟩, hfind, hpair⟩
    cases hpair
    exact ⟨h, hfind, rfl⟩
  · rintro ⟨h, hfind, rfl⟩
    exact ⟨(h, i), hfind, rfl⟩

/-! ## Replies -/

variable {h : Handler}

/-- An ask of a handler's declared reply is answered by it exactly where the body has that type. -/
theorem repliesAs_iff (hty : ReplyTy A h ty) :
    RepliesAs A f ty h ↔ SameAt A.workspace f.tables (A.reply h) h.body := by
  obtain ⟨e, herror, rfl⟩ := hty
  have hcon : ∀ ρ (t : Ty), interp A.workspace ρ (.con A.result [t, .con e []])
      = .con A.result [interp A.workspace ρ t, interp A.workspace ρ (.con e [])] := fun ρ t => by
    rw [interp, Workspace.project_of_not_mem _ A.result_plain, interpAll_eq_map]
    rfl
  constructor
  · rintro ⟨e', herror', hsame⟩ ρ hρ
    have := hsame ρ hρ
    rw [herror] at herror'
    cases herror'
    rw [hcon, hcon] at this
    injection this with _ hargs
    exact (cons.inj hargs).1
  · intro hsame
    refine ⟨e, herror, fun ρ hρ => ?_⟩
    rw [hcon, hcon, hsame ρ hρ]

/-! ## Sites whose receiver was unknown -/

theorem reaches_absorbed_iff (hty : site.asks = true → ty = .var s₁.tables.freshTyvid.1) :
    Reaches A n f site ty none ↔ ∃ id decl, f.receiver A = some id ∧ A.actor id = some decl ∧
      UnknownDelivers A f site decl (.var s₁.tables.freshTyvid.1) := by
  constructor
  · rintro ⟨id, decl, i, h, hreach⟩
    refine ⟨id, decl, hreach.receives, hreach.declares, ?_⟩
    -- No argument was compared, so there is no parameter.
    have hparams : h.params = [] := by
      cases hp : h.params with
      | nil => rfl
      | cons p ps =>
        obtain ⟨c', hc', -⟩ := hreach.typed 0 p (by rw [hp]; rfl)
        cases hc'
    obtain ⟨env, hdispatch, -⟩ := hreach.taken Unit () (replicate site.lowered.2.length ())
      length_replicate
    obtain ⟨h', hfind, -⟩ := (f.dispatched length_replicate).mp hdispatch
    obtain ⟨hget, hname, hlen⟩ := Actor.findOf_spec hfind
    obtain rfl : h' = h := Option.some.inj (hget.symm.trans hreach.handler)
    rw [hparams, length_nil] at hlen
    refine ⟨hreach.named.trans (congrArg some hname), ?_, h', i, ?_, fun hasks => ?_⟩
    · by_cases hdrops : f.drops A site = true
      · exact .inr hdrops
      · rw [if_neg hdrops] at hlen
        exact .inl (length_eq_zero_iff.mp hlen.symm)
    · rwa [← hlen] at hfind
    · rw [← hty hasks]
      exact hreach.replies hasks
  · rintro ⟨id, decl, hreceives, hdecl, hnamed, hpayload, h, i, hfind, hreplies⟩
    obtain ⟨hget, hname, hlen⟩ := Actor.findOf_spec hfind
    have hparams : h.params = [] := length_eq_zero_iff.mp hlen
    refine ⟨id, decl, i, h, hreceives, hdecl, hget, by rw [hname]; exact hnamed, nofun, ?_, ?_,
      fun hasks => ?_⟩
    · intro k p hp
      rw [hparams] at hp
      cases hp
    · intro V state vals hvals
      have hcount : (if f.drops A site = true then 0 else site.lowered.2.length) = 0 := by
        split
        · rfl
        · next hdrops =>
          rw [hpayload.resolve_right hdrops]
          rfl
      refine ⟨_, (f.dispatched hvals).mpr ⟨h, by rw [hcount]; exact hfind, rfl⟩, ?_⟩
      intro k p hp
      rw [hparams] at hp
      cases hp
    · rw [hty hasks]
      exact hreplies hasks

/-! ## Sites that were checked -/

/-- What is left of a site that was checked against a handler. -/
structure Checked (A : Actors) (n : Nat) (f : Final) (site : Site) (ty : Ty) (id : TyConId)
    (decl : Actor) (h : Handler) (i : Nat) (checks : List CheckedArg) : Prop where
  actor : A.actor id = some decl
  parts : site.parts = some site.lowered
  found : decl.find site.lowered.1 = some (h, i)
  drops : f.drops A site = true ↔ isMarker site.lowered.2 = true ∧
    (h.params = [] ∨ declaresNullary A f.exported site.lowered.1 = true)
  args : h.params = [] ∧ isMarker site.lowered.2 = true ∨
    site.lowered.2.length = h.params.length ∧
      ∀ k p, h.params[k]? = some p → ArgRight A n checks k p.2
  replies : site.asks = true → ReplyTy A h ty

theorem checked_of_known (hapart : Apart inferExpr site.span) {i : Nat} {checks : List CheckedArg}
    {s₂ : Sites} (hactor : A.actor id = some decl)
    (hmessage : site.checkedParts = some (name, args)) (hfind : decl.find name = some (h, i))
    (hargs : Accepts (checkHandlerArgs A n inferExpr site.span decl.name h args) s₁ checks s₂)
    (hsame : SameSite site.span s₂ s') (htyped : site.asks = true → ReplyTy A h ty)
    (hsettled : Settled A f site s' c) : Checked A n f site ty id decl h i checks := by
  obtain ⟨hparts, hlowered⟩ := Site.lowered_of_checked hmessage
  obtain ⟨hnullary, hcount, hright⟩ := checkHandlerArgs_accepted hapart hargs
  have hnullary' : site.span ∈ f.nullary ↔ h.params.length = 0 ∧ isMarker args = true := by
    rw [hsettled.nullary, hsame.1, hnullary, length_eq_zero_iff]
  have hcount' : f.counts.lookup site.span = some h.params.length := by
    rw [hsettled.counts, hsame.2, hcount]
  have hdrops := Final.drops_iff (A := A) hparts hlowered hnullary' hcount'
  rw [length_eq_zero_iff] at hdrops
  refine ⟨hactor, hparts.trans (congrArg some hlowered.symm), ?_, ?_, ?_, htyped⟩
  · rw [hlowered]
    exact hfind
  · rw [hlowered]
    exact hdrops
  · rw [hlowered]
    exact hright

variable {h : Handler} {i : Nat} {checks : List CheckedArg}

section

variable (h₀ : Checked A n f site ty id decl h i checks)
include h₀

/-- A handler with parameters takes no message whose unit was dropped. -/
theorem Checked.kept (hparams : h.params ≠ []) :
    site.lowered.2.length = h.params.length ∧
      (f.drops A site = true ↔ isMarker site.lowered.2 = true ∧
        declaresNullary A f.exported site.lowered.1 = true) := by
  refine ⟨?_, ?_⟩
  · rcases h₀.args with hmarker | hargs
    · exact absurd hmarker.1 hparams
    · exact hargs.1
  · rw [h₀.drops]
    simp only [hparams, false_or]

theorem Checked.delivers (hreach : Reaches A n f site ty (some ⟨id, i, checks⟩)) :
    f.receiver A = some id ∧ KnownDelivers A f site decl := by
  obtain ⟨id', decl', i', h', hreach⟩ := hreach
  obtain ⟨hid, hi⟩ := hreach.against _ rfl
  obtain rfl : id = id' := hid
  obtain rfl : i = i' := hi
  obtain rfl : decl = decl' := Option.some.inj (h₀.actor.symm.trans hreach.declares)
  obtain ⟨hget, -⟩ := Actor.find_spec h₀.found
  obtain rfl : h = h' := Option.some.inj (hget.symm.trans hreach.handler)
  -- The clause takes the message, so nothing was dropped that the handler wants.
  have hkept : h.params ≠ [] → ¬ f.drops A site = true := by
    intro hparams hdrops
    obtain ⟨env, hdispatch, -⟩ := hreach.taken Unit () (replicate site.lowered.2.length ())
      length_replicate
    obtain ⟨h', hfind, -⟩ := (f.dispatched length_replicate).mp hdispatch
    obtain ⟨hget', -, hlen⟩ := Actor.findOf_spec hfind
    obtain rfl : h = h' := Option.some.inj (hget.symm.trans hget')
    rw [if_pos hdrops] at hlen
    exact hparams (length_eq_zero_iff.mp hlen)
  refine ⟨hreach.receives, h, i, h₀.found, ?_, ?_, ?_⟩
  · by_cases hparams : h.params = []
    · rw [Handler.Distinct, hparams]
      exact ⟨nodup_nil, nofun⟩
    · refine Handler.distinct_of_reads fun state vals hlen k p hp => ?_
      have hvals : vals.length = site.lowered.2.length := by
        rw [(h₀.kept hparams).1, hlen]
      obtain ⟨env, hdispatch, hreads⟩ := hreach.taken Nat state vals hvals
      obtain ⟨h', hfind, rfl⟩ := (f.dispatched hvals).mp hdispatch
      obtain ⟨hget', -, -⟩ := Actor.findOf_spec hfind
      obtain rfl : h = h' := Option.some.inj (hget.symm.trans hget')
      have hread := (hreads k p hp).2
      rwa [if_neg (hkept hparams)] at hread
  · intro hparams hmarker
    rw [← Bool.not_eq_true]
    exact fun hnullary => hkept hparams ((h₀.kept hparams).2.mpr ⟨hmarker, hnullary⟩)
  · exact fun hasks => (repliesAs_iff (h₀.replies hasks)).mp (hreach.replies hasks)

theorem Checked.reaches (hreceives : f.receiver A = some id)
    (hdelivers : KnownDelivers A f site decl) : Reaches A n f site ty (some ⟨id, i, checks⟩) := by
  obtain ⟨h', i', hfound, hdistinct, hmarker, hreply⟩ := hdelivers
  obtain ⟨rfl, rfl⟩ := Prod.mk.inj (Option.some.inj (h₀.found.symm.trans hfound))
  obtain ⟨hget, hname⟩ := Actor.find_spec h₀.found
  have hkept : h.params ≠ [] → ¬ f.drops A site = true := by
    intro hparams hdrops
    obtain ⟨hunit, hnullary⟩ := (h₀.kept hparams).2.mp hdrops
    rw [hmarker hparams hunit] at hnullary
    cases hnullary
  have hcount : (if f.drops A site = true then 0 else site.lowered.2.length)
      = h.params.length := by
    by_cases hparams : h.params = []
    · rw [hparams, length_nil]
      split
      · rfl
      · next hdrops =>
        rcases h₀.args with hargs | hargs
        · exact absurd (h₀.drops.mpr ⟨hargs.2, .inl hparams⟩) hdrops
        · rw [hargs.1, hparams, length_nil]
    · rw [if_neg (hkept hparams), (h₀.kept hparams).1]
  refine ⟨id, decl, i, h, hreceives, h₀.actor, hget, ?_, ?_, ?_, ?_, ?_⟩
  · rw [h₀.parts, hname]
    rfl
  · intro c' hc'
    cases hc'
    exact ⟨rfl, rfl⟩
  · intro k p hp
    refine ⟨_, rfl, ?_⟩
    rcases h₀.args with hargs | hargs
    · rw [hargs.1] at hp
      cases hp
    · exact hargs.2 k p hp
  · intro V state vals hvals
    have hfind : decl.findOf site.lowered.1
        (if f.drops A site = true then 0 else site.lowered.2.length) = some (h, i) := by
      -- the first handler of a name is the first of that name and its number of parameters
      obtain ⟨hname, as, bs, hsplit, hbefore⟩ := find?_eq_some_iff_append.mp h₀.found
      rw [hcount, Actor.findOf, find?_eq_some_iff_append]
      refine ⟨decide_eq_true ⟨of_decide_eq_true hname, rfl⟩, as, bs, hsplit, fun a ha => ?_⟩
      have hnot := hbefore a ha
      rw [Bool.not_eq_true'] at hnot ⊢
      exact decide_eq_false fun h => of_decide_eq_false hnot h.1
    refine ⟨_, (f.dispatched hvals).mpr ⟨h, hfind, rfl⟩, fun k p hp => ?_⟩
    have hparams : h.params ≠ [] := by
      intro hnil
      rw [hnil] at hp
      cases hp
    have hlen : h.params.length = vals.length := by
      rw [hvals, (h₀.kept hparams).1]
    rw [if_neg (hkept hparams)]
    exact ⟨by rw [← hlen]; exact (List.getElem?_eq_some_iff.mp hp).1, hdistinct.reads state hlen hp⟩
  · exact fun hasks => (repliesAs_iff (h₀.replies hasks)).mpr (hreply hasks)

end

end

namespace Counter

def intTy : Ty := .con 26 []

/-- `on add (n: Int) -> Int = n`. -/
def add : Handler := ⟨"add", [("n", intTy)], some intTy, intTy⟩

/-- The actor is constructor 30, and `Handle` is 22. -/
def actors : Actors where
  workspace := .bare
  actor := fun id => if id = 30 then some ⟨"Counter", [add]⟩ else none
  isBuiltin := fun id => decide (id < 30)
  handle := 22
  result := 23
  unit := 24
  int := 26
  askError := some 31
  sendError := some 32
  handle_builtin := by decide
  builtin_not_actor := fun id hid => if_neg (by rintro rfl; cases hid)
  result_plain := by decide

def handleTy : Ty := .con 22 [.con 30 []]

/-- A handle `h`, a callback parameter `target`, and literals. -/
def judge : Expr → MessageM Ty
  | .ident ⟨"h", _⟩ => pure handleTy
  | .ident _ => pure (.var 0)
  | .literal (.intDec _ _) => pure intTy
  | _ => pure (.con 27 [])

def start : Sites where
  tables := .new
  nullary := []
  counts := []

theorem judge_apart (span : Span) : Apart judge span := by
  intro e s t s' h
  unfold judge at h
  split at h <;> exact leaves_pure _ _ _ _ h

/-- `h ?> add 3`. -/
def addThree : Site :=
  .ask (.ident ⟨"h", ⟨0, 1⟩⟩) ⟨"add", ⟨5, 8⟩⟩ [.literal (.intDec "3" ⟨9, 10⟩)] none ⟨0, 10⟩

/-- `target ! add "x"`. -/
def addText : Site :=
  .send (.ident ⟨"target", ⟨0, 6⟩⟩)
    (.call (.ident ⟨"add", ⟨9, 12⟩⟩) [.literal (.text "x" ⟨13, 16⟩)] ⟨9, 16⟩) ⟨0, 16⟩

/-- The state after `h ?> add 3`, with the handle exported. -/
def known : Final := ⟨.new, [], [(⟨0, 10⟩, 1)], handleTy⟩

/-- The state after `target ! add "x"`, where `target` has come to be a handle of the counter. -/
def later : Final := ⟨.new, [], [], handleTy⟩

def addThreeChecked : CheckedSite := ⟨30, 0, [⟨0, intTy, intTy⟩]⟩

theorem infers_addText :
    Accepts (addText.infer actors 3 judge) start (.con 24 [], none) start := rfl

theorem settled_known :
    Settled actors known addThree ⟨.new, [], [(⟨0, 10⟩, 1)]⟩ (some addThreeChecked) where
  nullary := Iff.rfl
  counts := rfl
  sameActor := fun _ hc id hid _ => by
    cases hc
    cases hid
    rfl

theorem settled_later : Settled actors later addText start none where
  nullary := Iff.rfl
  counts := rfl
  sameActor := nofun

end Counter

end Ridge.Messages
