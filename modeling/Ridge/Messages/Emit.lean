import Ridge.Messages.Site

/-!
# Message sites after the checker

The tuple a site sends (`ridge-lower/src/core.rs`, `ridge-codegen-erl/src/messaging.rs`), and the
clauses of the receiving actor that read it (`handler.rs`), with the variables of a clause
(`expr.rs`).
-/

namespace Ridge.Messages

open List

/-! ## The site -/

/-- The four ways to write a message. -/
inductive Site where
  | send (handle message : Expr) (span : Span)
  | ask (handle : Expr) (message : Ident) (args : List Expr) (timeout : Option AskTimeout)
    (span : Span)
  | tryAsk (callee handle message ms : Expr) (span : Span)
  | actorSend (callee handle message : Expr) (span : Span)

namespace Site

def span : Site → Span
  | .send _ _ s | .ask _ _ _ _ s | .tryAsk _ _ _ _ s | .actorSend _ _ _ s => s

/-- The site reads a reply. -/
def asks : Site → Bool
  | .ask .. | .tryAsk .. => true
  | _ => false

/-- `message_parts`: the handler and the arguments as the source has them. -/
def parts : Site → Option (String × List Expr)
  | .send _ m _ | .tryAsk _ _ m _ _ | .actorSend _ _ m _ => extractHandlerCall (peelParens m)
  | .ask _ m args _ _ => some (m.text, args)

/-- The message as the checker reads it. -/
def checkedParts : Site → Option (String × List Expr)
  | .send _ m _ => extractHandlerCall m
  | .tryAsk _ _ m _ _ | .actorSend _ _ m _ => extractHandlerCall (peelParens m)
  | .ask _ m args _ _ => some (m.text, args)

section
variable (A : Actors) (n : Nat) (inferExpr : Expr → MessageM Ty)

/-- The type of the receiver: the callee of a function form is inferred before it. -/
def receiver : Site → MessageM Ty
  | .send h _ _ | .ask h _ _ _ _ => inferExpr h
  | .tryAsk callee h _ _ _ | .actorSend callee h _ _ => do
    let _ ← inferExpr callee
    inferExpr h

/-- The arm of `infer_expr` for the site. -/
def infer : Site → MessageM (Ty × Option CheckedSite)
  | .send h m span => inferSend A n inferExpr h m span
  | .ask h m args timeout span => inferAsk A n inferExpr h m args timeout span
  | .tryAsk callee h m ms span => inferTryAsk A n inferExpr callee h m ms span
  | .actorSend callee h m span => inferActorSend A n inferExpr callee h m span

end

end Site

/-! ## Lowering -/

def unfoldSendMessage : Expr → String × List Expr
  | .ident id => (id.text, [])
  | .call (.ident id) args _ => (id.text, args)
  | _ => ("", [])

def Site.lowered : Site → String × List Expr
  | .send _ m _ => unfoldSendMessage m
  | .tryAsk _ _ m _ _ | .actorSend _ _ m _ => unfoldSendMessage (peelParens m)
  | .ask _ m args _ _ => (m.text, args)

section
variable (A : Actors)

/-- The actor an exported type names, with no alias looked through. -/
def exportedActor : Ty → Option TyConId
  | .con head args =>
    if head = A.handle then
      match args.head? with
      | some (.con actor _) => some actor
      | _ => none
    else some head
  | _ => none

/-- What `is_nullary_message_site` falls back on: the exported type of the receiver. -/
def declaresNullary (exported : Ty) (name : String) : Bool :=
  match (exportedActor A exported).bind A.actor with
  | some decl => decl.handlers.any fun h => h.name = name && h.params.isEmpty
  | none => false

def isNullaryMessageSite (nullary : List Span) (span : Span) (exported : Ty) (name : String) :
    Bool :=
  nullary.contains span || declaresNullary A exported name

/-- The lone `()` is dropped from the message. -/
def dropUnit (nullary : List Span) (exported : Ty) (site : Site) : Bool :=
  isMarker site.lowered.2 && isNullaryMessageSite A nullary site.span exported site.lowered.1

/-- A message tuple: the tag, and the values of the arguments. -/
structure Message (V : Type) where
  tag : String
  args : List V

/-- `build_message_tuple`, at the values of the arguments of the site. -/
def buildMessageTuple {V : Type} (nullary : List Span) (exported : Ty) (site : Site)
    (vals : List V) : Message V where
  tag := site.lowered.1
  args := if dropUnit A nullary exported site then [] else vals

end

/-! ## The clauses of an actor -/

def capitaliseFirst : List Char → List Char
  | [] => []
  | c :: cs => c.toUpper :: cs

def nameToErlVar (name : String) : String :=
  let noDollar := name.toList.map fun c => if c = '$' then 'D' else c
  let stripped := noDollar.dropWhile (· = '_')
  "V_" ++ String.ofList
    (((stripped.splitOn '_').filter fun seg => !seg.isEmpty).flatMap capitaliseFirst)

/-- The pattern of a clause: a tag, and a variable for each argument. -/
structure Pattern where
  tag : String
  vars : List String

def buildHandlerPattern (h : Handler) : Pattern where
  tag := h.name
  vars := h.params.map fun p => nameToErlVar p.1

def stateVar : String := "V_State"
def stateArgVar : String := "V_StateArg"

section
variable {V : Type}

/-- The bindings of a clause, if the message matches it. -/
def Pattern.bindings (p : Pattern) (m : Message V) : Option (List (String × V)) :=
  if m.tag = p.tag ∧ m.args.length = p.vars.length then some (p.vars.zip m.args) else none

/-- The variables the body of a handler starts with: the state of the actor under its own name, over
the bindings of the pattern, over the parameter of the callback. -/
def bodyEnv (state : V) (bindings : List (String × V)) : List (String × V) :=
  let env := bindings ++ [(stateArgVar, state)]
  (env.lookup stateArgVar).toList.map (fun v => (stateVar, v)) ++ env

/-- The first clause that matches, by its index, and what its body starts with. -/
def dispatch (state : V) (m : Message V) : List Handler → Nat → Option (Nat × List (String × V))
  | [], _ => none
  | h :: hs, i =>
    match (buildHandlerPattern h).bindings m with
    | some env => some (i, bodyEnv state env)
    | none => dispatch state m hs (i + 1)

/-- Two parameters of a clause are told apart, and none is hidden by the state. -/
def Handler.Distinct (h : Handler) : Prop :=
  (h.params.map fun p => nameToErlVar p.1).Nodup ∧ ∀ p ∈ h.params, nameToErlVar p.1 ≠ stateVar

theorem Pattern.bindings_eq (h : Handler) (m : Message V) :
    (buildHandlerPattern h).bindings m
      = if h.name = m.tag ∧ h.params.length = m.args.length then
          some ((h.params.map fun p => nameToErlVar p.1).zip m.args)
        else none := by
  unfold Pattern.bindings buildHandlerPattern
  rw [length_map]
  by_cases hm : h.name = m.tag ∧ h.params.length = m.args.length
  · rw [if_pos hm, if_pos ⟨hm.1.symm, hm.2.symm⟩]
  · rw [if_neg hm, if_neg fun hm' => hm ⟨hm'.1.symm, hm'.2.symm⟩]

/-- The first handler of the name and of the number of parameters, with its index. -/
def Actor.findOf (decl : Actor) (name : String) (k : Nat) : Option (Handler × Nat) :=
  decl.handlers.zipIdx.find? fun p => p.1.name = name ∧ p.1.params.length = k

/-- What the body of a handler starts with, at the arguments of a message. -/
def Handler.env (h : Handler) (state : V) (vals : List V) : List (String × V) :=
  bodyEnv state ((h.params.map fun p => nameToErlVar p.1).zip vals)

theorem dispatch_zipIdx (state : V) (m : Message V) (hs : List Handler) (i : Nat) :
    dispatch state m hs i
      = ((hs.zipIdx i).find? fun p => p.1.name = m.tag ∧ p.1.params.length = m.args.length).map
          fun p => (p.2, p.1.env state m.args) := by
  induction hs generalizing i with
  | nil => rfl
  | cons h hs ih =>
    unfold dispatch
    rw [Pattern.bindings_eq, zipIdx_cons, find?_cons]
    by_cases hm : h.name = m.tag ∧ h.params.length = m.args.length
    · rw [if_pos hm, decide_eq_true hm]
      rfl
    · rw [if_neg hm, decide_eq_false hm]
      exact ih (i + 1)

variable {h : Handler}

variable {name : String}

variable {decl : Actor}

theorem Actor.findOf_spec {k i : Nat} (hfind : decl.findOf name k = some (h, i)) :
    decl.handlers[i]? = some h ∧ h.name = name ∧ h.params.length = k := by
  have hmem := mem_of_find?_eq_some hfind
  have hp := find?_some hfind
  rw [mem_zipIdx_iff_getElem?] at hmem
  exact ⟨hmem, of_decide_eq_true hp⟩

theorem Actor.find_spec {i : Nat} (hfind : decl.find name = some (h, i)) :
    decl.handlers[i]? = some h ∧ h.name = name := by
  have hmem := mem_of_find?_eq_some hfind
  have hp := find?_some hfind
  rw [mem_zipIdx_iff_getElem?] at hmem
  exact ⟨hmem, of_decide_eq_true hp⟩

theorem bodyEnv_eq (state : V) (env : List (String × V)) :
    ∃ v, (stateArgVar, v) ∈ env ++ [(stateArgVar, state)] ∧
      bodyEnv state env = (stateVar, v) :: (env ++ [(stateArgVar, state)]) := by
  have hsome : ((env ++ [(stateArgVar, state)]).lookup stateArgVar).isSome := by
    rw [lookup_isSome_iff]
    exact ⟨(stateArgVar, state), by simp, by simp⟩
  obtain ⟨v, hv⟩ := Option.isSome_iff_exists.mp hsome
  refine ⟨v, KeyedList.mem_of_lookup hv, ?_⟩
  unfold bodyEnv
  simp only [hv]
  rfl

theorem lookup_zip_of_nodup {xs : List String} {ys : List V} (hnodup : xs.Nodup)
    (hlen : xs.length = ys.length) {k : Nat} {x : String} (hx : xs[k]? = some x) :
    (xs.zip ys).lookup x = ys[k]? := by
  induction xs generalizing ys k with
  | nil => cases hx
  | cons a xs ih =>
    cases ys with
    | nil => cases hlen
    | cons y ys =>
      rw [nodup_cons] at hnodup
      rw [zip_cons_cons, lookup_cons]
      cases k with
      | zero =>
        cases hx
        simp
      | succ k =>
        have hmem : x ∈ xs := mem_of_getElem? hx
        have hne : (x == a) = false := by
          rw [beq_eq_false_iff_ne]
          rintro rfl
          exact hnodup.1 hmem
        rw [hne]
        exact ih hnodup.2 (Nat.succ_inj.mp hlen) hx

/-- In a clause whose variables are told apart, each parameter reads its argument. -/
theorem Handler.Distinct.reads (hdistinct : h.Distinct) (state : V) {vals : List V}
    (hlen : h.params.length = vals.length) {k : Nat} {p : String × Ty}
    (hp : h.params[k]? = some p) : (h.env state vals).lookup (nameToErlVar p.1) = vals[k]? := by
  unfold Handler.env
  obtain ⟨v, -, henv⟩ := bodyEnv_eq state ((h.params.map fun q => nameToErlVar q.1).zip vals)
  have hne : (nameToErlVar p.1 == stateVar) = false :=
    beq_eq_false_iff_ne.mpr (hdistinct.2 p (mem_of_getElem? hp))
  have hx : (h.params.map fun q => nameToErlVar q.1)[k]? = some (nameToErlVar p.1) := by
    rw [getElem?_map, hp]
    rfl
  have hlen' : (h.params.map fun q => nameToErlVar q.1).length = vals.length := by
    rw [length_map, hlen]
  have hzip := lookup_zip_of_nodup hdistinct.1 hlen' hx
  have hk : k < vals.length := by
    have := (List.getElem?_eq_some_iff.mp hp).1
    omega
  rw [henv, lookup_cons, hne, lookup_append, hzip, getElem?_eq_getElem hk]
  rfl

/-- A clause in which each parameter reads its argument, whatever they are, tells its variables
apart. -/
theorem Handler.distinct_of_reads
    (hreads : ∀ (state : Nat) (vals : List Nat), h.params.length = vals.length →
      ∀ (k : Nat) (p : String × Ty), h.params[k]? = some p →
        (h.env state vals).lookup (nameToErlVar p.1) = vals[k]?) : h.Distinct := by
  unfold Handler.env at hreads
  -- The arguments are the positions, and the state is none of them.
  have hread := hreads h.params.length (List.range h.params.length) length_range.symm
  constructor
  · rw [nodup_iff_injective_getElem]
    rintro ⟨k, hk⟩ ⟨l, hl⟩ heq
    rw [length_map] at hk hl
    have hreadk := hread k _ (getElem?_eq_getElem hk)
    have hreadl := hread l _ (getElem?_eq_getElem hl)
    simp only [getElem_map] at heq
    rw [heq, hreadl, getElem?_range hk, getElem?_range hl] at hreadk
    exact Fin.ext (Option.some.inj hreadk).symm
  · intro p hp heq
    obtain ⟨k, hk, rfl⟩ := mem_iff_getElem.mp hp
    have hreadk := hread k _ (getElem?_eq_getElem hk)
    obtain ⟨v, hv, henv⟩ := bodyEnv_eq h.params.length
      ((h.params.map fun q => nameToErlVar q.1).zip (List.range h.params.length))
    rw [heq, henv, lookup_cons, beq_self_eq_true, getElem?_range hk] at hreadk
    obtain rfl : v = k := Option.some.inj hreadk
    rcases mem_append.mp hv with hzip | hstate
    · obtain ⟨l, hl, hpair⟩ := mem_iff_getElem.mp hzip
      rw [getElem_zip, getElem_range, getElem_map] at hpair
      obtain ⟨hvar, rfl⟩ := Prod.mk.inj hpair
      rw [heq] at hvar
      exact absurd hvar (by decide)
    · rw [mem_singleton] at hstate
      have := congrArg Prod.snd hstate
      simp only at this
      omega

end

end Ridge.Messages
