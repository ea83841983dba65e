import Ridge.Records.Obligations
import Ridge.Records.Updates

/-!
# No obligation is lost

What a run of the checker does to field obligations: each one that was left behind still stands, was
met, or went to a scheme whose every use leaves it behind again. The one step that can lose an
obligation is the release after an inner function, and only when no scheme carries what it lets go.
-/

namespace Ridge

open Run CheckM Ledger Relation List Option

variable {pass : Pass}

section
variable (P : Declarations) (n : Nat)

variable (J : List ObligationEvent)

/-- The two types were made equal, by a chain of accepted unifications. -/
def MadeEqual : Ty → Ty → Prop :=
  EqvGen fun t u => .unified t u ∈ J

/-- `r'` asks for what `r` asks for: the same field, of a type linked to its own. -/
def SameField (r r' : RecordRequirement) : Prop :=
  r'.accessModule = r.accessModule ∧ (r.field = none → r'.field = none) ∧
    ∀ k t, r.field = some (k, t) → ∃ t', r'.field = some (k, t') ∧ MadeEqual J t t'

/-- The receiver is a record whose field of that name has the type `declared`. -/
def MetBy (r : RecordRequirement) (receiver declared : Ty) : Prop :=
  ∃ k t fields, r.field = some (k, t) ∧ RecordTy P receiver ∧
    P.fieldsAt "" receiver = some fields ∧ fields.lookup k = some declared ∧ MadeEqual J declared t

/-- What an event says is so, in the journal it stands in. -/
def ObligationEvent.Holds : ObligationEvent → Prop
  | .became r r' => SameField J r r'
  | .met r receiver declared => MetBy P J r receiver declared
  | .unified t u => ∃ s s', Unified P n t u s s'
  | .carried r r' scheme =>
    r' ∈ scheme.recordFields ∧ ∃ s, resolveRequirement P n r s = some r'
  | .used scheme ρ => ∀ r ∈ scheme.recordFields, .remembered (r.mapTypes ρ.apply) ∈ J
  | _ => True

/-- Every event of the journal is so. -/
def AllHold : Prop := ∀ e ∈ J, e.Holds P n J

end

variable {P : Declarations} {n : Nat} {J K : List ObligationEvent} {s s' : Checker}
  {r r' : RecordRequirement}

/-! ## Growing journals -/

theorem MadeEqual.mono (h : ∀ e ∈ J, e ∈ K) {t u : Ty} (htu : MadeEqual J t u) : MadeEqual K t u := by
  induction htu with
  | rel t u hu => exact .rel t u (h _ hu)
  | refl t => exact .refl t
  | symm t u _ ih => exact .symm t u ih
  | trans t u w _ _ ih₁ ih₂ => exact .trans t u w ih₁ ih₂

theorem SameField.refl (J : List ObligationEvent) (r : RecordRequirement) : SameField J r r :=
  ⟨rfl, id, fun _ t h => ⟨t, h, .refl t⟩⟩

theorem SameField.mono (h : ∀ e ∈ J, e ∈ K) (hr : SameField J r r') : SameField K r r' := by
  refine ⟨hr.1, hr.2.1, fun k t hk => ?_⟩
  obtain ⟨t', ht', hlinked⟩ := hr.2.2 k t hk
  exact ⟨t', ht', hlinked.mono h⟩

theorem SameField.trans {r'' : RecordRequirement} (h₁ : SameField J r r')
    (h₂ : SameField J r' r'') : SameField J r r'' := by
  refine ⟨h₂.1.trans h₁.1, fun h => h₂.2.1 (h₁.2.1 h), fun k t hk => ?_⟩
  obtain ⟨t', ht', hl₁⟩ := h₁.2.2 k t hk
  obtain ⟨t'', ht'', hl₂⟩ := h₂.2.2 k t' ht'
  exact ⟨t'', ht'', .trans _ _ _ hl₁ hl₂⟩

theorem ObligationEvent.Holds.mono (h : ∀ e ∈ J, e ∈ K) {e : ObligationEvent}
    (he : e.Holds P n J) : e.Holds P n K := by
  cases e with
  | became r r' => exact SameField.mono h he
  | met r receiver declared =>
    obtain ⟨k, t, fields, hr, hreceiver, hfields, hlookup, hlinked⟩ := he
    exact ⟨k, t, fields, hr, hreceiver, hfields, hlookup, hlinked.mono h⟩
  | used scheme ρ => exact fun r hr => h _ (he r hr)
  | unified t u => exact he
  | carried r r' scheme => exact he
  | remembered | absorbed | asRecord | letGo => trivial

theorem AllHold.append (hJ : AllHold P n J) (hK : ∀ e ∈ K, e.Holds P n (J ++ K)) :
    AllHold P n (J ++ K) := by
  intro e he
  rcases mem_append.mp he with he' | he'
  · exact (hJ e he').mono fun e h => mem_append_left _ h
  · exact hK e he'

theorem SameField.of_leads (hJ : AllHold P n J) (h : Leads obligationLedger J r r') :
    SameField J r r' := by
  induction h with
  | refl => exact .refl J r
  | tail _ hstep ih =>
    obtain ⟨e, he, rfl⟩ := hstep
    exact ih.trans (hJ _ he)

/-! ## One obligation -/

theorem unifyOrReport_requirements {t u : Ty} {b : Bool}
    (h : unifyOrReport P n t u s = some (.ok b, s', [])) : s'.requirements = s.requirements := by
  obtain ⟨-, es, -, hs⟩ := unifyOrReport_accepted P n h
  rw [hs]

/-- How an accepted access to `field` came by the type `t`. -/
def Access.Finds (P : Declarations) (s s' : Checker) (field : String) (t : Ty) : Access → Prop
  | .posed r => s'.requirements = s.requirements ++ [r] ∧ r.field = some (field, t) ∧
      r.accessModule = s.currentModule
  | .absorbed => s'.requirements = s.requirements
  | .found base => s'.requirements = s.requirements ∧ ∃ fields, RecordTy P base ∧
      P.fieldsAt "" base = some fields ∧ fields.lookup field = some t

theorem inferFieldAccess_accepted {baseTy t : Ty} {field : String} {access : Access}
    (h : inferFieldAccess P n baseTy field s = some (.ok (t, access), s', [])) :
    access.Finds P s s' field t := by
  obtain ⟨base, s₁, hbase, h⟩ := bind_accepted.mp h
  obtain ⟨_, -, hr, hs, -⟩ := read_eq_some.mp hbase
  cases hr
  subst hs
  match base with
  | .var v =>
    obtain ⟨t', s₂, hfresh, h⟩ := bind_accepted.mp h
    obtain ⟨module, s₃, hmodule, h⟩ := bind_accepted.mp h
    obtain ⟨_, s₄, hremember, h⟩ := bind_accepted.mp h
    cases eq_of_pure_accepted h
    cases hfresh
    obtain ⟨_, ha, hr, hs, -⟩ := read_eq_some.mp hmodule
    cases hr
    cases ha
    subst hs
    cases hremember
    exact ⟨rfl, rfl, rfl⟩
  | .error =>
    cases eq_of_pure_accepted h
    rfl
  | .record fields tail =>
    dsimp only at h
    cases hlookup : fields.lookup field with
    | none =>
      rw [hlookup] at h
      exact absurd h not_report_bind_accepted
    | some t' =>
      rw [hlookup] at h
      cases eq_of_pure_accepted h
      exact ⟨rfl, fields, trivial, rfl, hlookup⟩
  | .con id args =>
    dsimp only at h
    cases hschema : P.recordSchema id with
    | none =>
      rw [hschema] at h
      exact absurd h not_report_bind_accepted
    | some schema =>
      rw [hschema] at h
      obtain ⟨module, s₂, hmodule, hrest⟩ := bind_accepted.mp h
      obtain ⟨_, -, hr, hs, -⟩ := read_eq_some.mp hmodule
      cases hr
      subst hs
      by_cases hopaque : opaqueFieldViolation P id module = true
      · rw [if_pos hopaque] at hrest
        exact absurd hrest not_report_bind_accepted
      · rw [if_neg hopaque] at hrest
        cases hfield : schema.fieldTy field with
        | none =>
          rw [hfield] at hrest
          exact absurd hrest not_report_bind_accepted
        | some t' =>
          rw [hfield] at hrest
          cases eq_of_pure_accepted hrest
          refine ⟨rfl, _, ?_, fieldsAt_of_record hschema "" args, ?_⟩
          · rw [RecordTy, hschema]
            rfl
          · rw [← fieldTy_eq_lookup, hfield]
            rfl
  | .fn _ _ _ | .tuple _ | .rigid _ _ | .aliased _ _ =>
    exact absurd h not_report_bind_accepted

/-- The check of an empty update keeps what stands. -/
theorem inferRecordWith_nil_requirements {inferExpr : Expr → CheckM Ty} {baseTy ty : Ty}
    {js : List Judged}
    (h : inferRecordWith P n inferExpr baseTy [] s = some (.ok (ty, js), s', [])) :
    ∀ r ∈ s.requirements, r ∈ s'.requirements := by
  obtain ⟨base, s₁, hbase, h⟩ := bind_accepted.mp h
  obtain ⟨_, -, hr, hs, -⟩ := read_eq_some.mp hbase
  cases hr
  subst hs
  match base with
  | .var v =>
    cases h
    exact fun r hr => mem_append_left _ hr
  | .error | .record fields tail =>
    cases h
    exact fun r hr => hr
  | .con id args =>
    dsimp only at h
    cases hschema : P.recordSchema id with
    | none =>
      rw [hschema] at h
      exact absurd h not_report_bind_accepted
    | some schema =>
      rw [hschema] at h
      obtain ⟨module, s₂, hmodule, hrest⟩ := bind_accepted.mp h
      obtain ⟨_, -, hr, hs, -⟩ := read_eq_some.mp hmodule
      cases hr
      subst hs
      by_cases hopaque : opaqueFieldViolation P id module = true
      · rw [if_pos hopaque] at hrest
        exact absurd hrest not_report_bind_accepted
      · rw [if_neg hopaque] at hrest
        cases hrest
        exact fun r hr => hr
  | .fn _ _ _ | .tuple _ | .rigid _ _ | .aliased _ _ =>
    exact absurd h not_report_bind_accepted

/-- What one step of a pass does: it accounts for the obligation it was given and for all that
stand, and what it says happened is so. -/
structure SiteStep (P : Declarations) (n : Nat) (J : List ObligationEvent) (r : RecordRequirement)
    (s : Checker) (K : List ObligationEvent) (s' : Checker) : Prop where
  balanced : Balanced obligationLedger (r :: s.requirements) K s'.requirements
  holds : ∀ e ∈ K, e.Holds P n (J ++ K)
  stands : ∀ x ∈ s.requirements, x ∈ s'.requirements

/-- A step whose events post nothing but what stands after it. -/
theorem balanced_of_step (hstands : ∀ x ∈ s.requirements, x ∈ s'.requirements)
    (hr : Accounted obligationLedger K s'.requirements r)
    (hposted : ∀ x, .remembered x ∈ K → x ∈ s'.requirements) :
    Balanced obligationLedger (r :: s.requirements) K s'.requirements := by
  rintro a (ha | ⟨e, he, rfl⟩)
  · rcases mem_cons.mp ha with rfl | ha
    · exact hr
    · exact .standing (hstands a ha)
  · exact .standing (hposted a he)

theorem meetSite_step {receiver : Ty} (hmodule : s.currentModule = r.accessModule)
    (h : meetSite P n r receiver s = some (.ok K, s', [])) : SiteStep P n J r s K s' := by
  unfold meetSite at h
  cases hfield : r.field with
  | none =>
    rw [hfield] at h
    obtain ⟨⟨ty, js⟩, s₁, hwith, h⟩ := bind_accepted.mp h
    obtain ⟨rfl, rfl⟩ := pure_accepted.mp h
    have hstands := inferRecordWith_nil_requirements hwith
    refine ⟨balanced_of_step hstands ?_ ?_, ?_, hstands⟩
    · exact .closed mem_cons_self (.inr (.inr (.inl rfl)))
    · intro x hx
      cases mem_singleton.mp hx
    · intro e he
      rw [mem_singleton.mp he]
      trivial
  | some f =>
    obtain ⟨name, expected⟩ := f
    rw [hfield] at h
    obtain ⟨⟨t, access⟩, s₁, haccess, h⟩ := bind_accepted.mp h
    obtain ⟨b, s₂, hunify, h⟩ := bind_accepted.mp h
    obtain ⟨rfl, rfl⟩ := pure_accepted.mp h
    have hreq := unifyOrReport_requirements hunify
    have hunified := (unifyOrReport_accepted P n hunify).2
    have hspec := inferFieldAccess_accepted haccess
    cases access with
    | posed r₁ =>
      obtain ⟨hr₁, hr₁field, hr₁module⟩ := hspec
      have hstands : ∀ x ∈ s.requirements, x ∈ s₂.requirements := by
        intro x hx
        rw [hreq, hr₁]
        exact mem_append_left _ hx
      have hnew : r₁ ∈ s₂.requirements := by
        rw [hreq, hr₁]
        exact mem_append_right _ (mem_singleton_self _)
      refine ⟨balanced_of_step hstands ?_ ?_, ?_, hstands⟩
      · exact .became (mem_cons_of_mem _ (mem_cons_of_mem _ mem_cons_self)) rfl
          (.standing hnew)
      · intro x hx
        simp only [mem_cons, not_mem_nil, or_false, reduceCtorEq, false_or,
          ObligationEvent.remembered.injEq] at hx
        rw [hx]
        exact hnew
      · intro e he
        rcases mem_cons.mp he with rfl | he
        · exact ⟨s₁, s₂, hunified⟩
        rcases mem_cons.mp he with rfl | he
        · trivial
        · rw [mem_singleton.mp he]
          refine ⟨hr₁module.trans hmodule, fun hnone => ?_, fun k u hk => ?_⟩
          · rw [hfield] at hnone
            cases hnone
          rw [hfield] at hk
          cases hk
          exact ⟨t, hr₁field, .symm _ _
            (.rel _ _ (mem_append_right _ mem_cons_self))⟩
    | absorbed =>
      have hstands : ∀ x ∈ s.requirements, x ∈ s₂.requirements := by
        intro x hx
        rw [hreq, hspec]
        exact hx
      refine ⟨balanced_of_step hstands ?_ ?_, ?_, hstands⟩
      · exact .closed (mem_cons_of_mem _ mem_cons_self) (.inr (.inl rfl))
      · intro x hx
        simp at hx
      · intro e he
        rcases mem_cons.mp he with rfl | he
        · exact ⟨s₁, s₂, hunified⟩
        · rw [mem_singleton.mp he]
          trivial
    | found base =>
      obtain ⟨hs₁, fields, hrecord, hfields, hlookup⟩ := hspec
      have hstands : ∀ x ∈ s.requirements, x ∈ s₂.requirements := by
        intro x hx
        rw [hreq, hs₁]
        exact hx
      refine ⟨balanced_of_step hstands ?_ ?_, ?_, hstands⟩
      · exact .closed (mem_cons_of_mem _ mem_cons_self) (.inl ⟨base, t, rfl⟩)
      · intro x hx
        simp at hx
      · intro e he
        rcases mem_cons.mp he with rfl | he
        · exact ⟨s₁, s₂, hunified⟩
        · rw [mem_singleton.mp he]
          exact ⟨name, expected, fields, hfield, hrecord, hfields, hlookup,
            .rel _ _ (mem_append_right _ mem_cons_self)⟩

/-! ## One pass -/

/-- What a pass remembers: the obligations it keeps stand, each under the field it asks for, whose
type is linked to the one the pass has for the key. -/
structure PassOk (J : List ObligationEvent) (pass : Pass) (s : Checker) : Prop where
  stands : ∀ k ∈ pass.kept, k.2 ∈ s.requirements
  named : ∀ k ∈ pass.kept, k.2.field.map Prod.fst = k.1.2
  typed : ∀ k ∈ pass.kept, ∀ name t, k.2.field = some (name, t) →
    ∃ previous, pass.fields.lookup k.1 = some previous ∧ MadeEqual J previous t

theorem PassOk.start (J : List ObligationEvent) (s : Checker) : PassOk J .start s :=
  ⟨by simp [Pass.start], by simp [Pass.start], by simp [Pass.start]⟩

/-- More of the journal, more obligations standing. -/
theorem PassOk.mono (h : PassOk J pass s) (hJ : ∀ e ∈ J, e ∈ K)
    (hs : ∀ x ∈ s.requirements, x ∈ s'.requirements) (b : Bool) :
    PassOk K { pass with progress := b } s' := by
  refine ⟨fun k hk => hs _ (h.stands k hk), h.named, fun k hk name t ht => ?_⟩
  obtain ⟨previous, hprevious, hlinked⟩ := h.typed k hk name t ht
  exact ⟨previous, hprevious, hlinked.mono hJ⟩

variable {key : SiteKey}

/-- What `equateSelection` leaves: the field asked for has a type in the pass, linked to the one
asked with; the types that were there stay. -/
theorem equateSelection_accepted {field : Option (String × Ty)} {fields : List (SiteKey × Ty)}
    (h : equateSelection P n pass key field s = some (.ok (fields, K), s', [])) :
    s'.requirements = s.requirements ∧
      (∀ e ∈ K, ∃ t u, e = .unified t u ∧ ∃ s₁ s₂, Unified P n t u s₁ s₂) ∧
      (∀ k previous, pass.fields.lookup k = some previous → fields.lookup k = some previous) ∧
      ∀ name t, field = some (name, t) →
        ∃ previous, fields.lookup key = some previous ∧ MadeEqual K previous t := by
  unfold equateSelection at h
  cases field with
  | none =>
    cases eq_of_pure_accepted h
    exact ⟨rfl, by simp, fun _ _ h => h, nofun⟩
  | some f =>
    obtain ⟨name, ty⟩ := f
    dsimp only at h
    cases hlookup : pass.fields.lookup key with
    | some previous =>
      rw [hlookup] at h
      obtain ⟨b, s₁, hunify, h⟩ := bind_accepted.mp h
      cases eq_of_pure_accepted h
      refine ⟨unifyOrReport_requirements hunify, fun e he => ?_, fun _ _ h => h, ?_⟩
      · exact ⟨previous, ty, mem_singleton.mp he, s, s',
          (unifyOrReport_accepted P n hunify).2⟩
      · rintro _ _ ⟨⟩
        exact ⟨previous, hlookup, .rel _ _ (mem_singleton_self _)⟩
    | none =>
      rw [hlookup] at h
      cases eq_of_pure_accepted h
      refine ⟨rfl, by simp, fun k previous hk => ?_, ?_⟩
      · have hne : k ≠ key := by
          intro hkey
          rw [hkey, hlookup] at hk
          cases hk
        rw [lookup_cons, beq_eq_false_iff_ne.mpr hne, hk]
      · rintro _ _ ⟨⟩
        exact ⟨ty, by rw [lookup_cons, beq_self_eq_true], .refl _⟩

/-- The obligation a pass already keeps for a key asks for the same field. -/
theorem Pass.visible_eq_some {module : Option Nat} (h : pass.visible key module = some r) :
    (key, r) ∈ pass.kept ∧ r.accessModule = module := by
  obtain ⟨k, hk, rfl⟩ := map_eq_some_iff.mp h
  have hmem := mem_of_find?_eq_some hk
  have hprop := find?_some hk
  simp only [decide_eq_true_eq] at hprop
  exact ⟨hprop.1 ▸ hmem, hprop.2⟩

variable {pass' : Pass}

theorem keepSite_step {v : TyVid} (hpass : PassOk J pass s)
    (h : keepSite P n r v pass s = some (.ok (pass', K), s', [])) :
    SiteStep P n J r s K s' ∧ PassOk (J ++ K) pass' s' := by
  obtain ⟨⟨fields, unified⟩, s₁, hequate, h⟩ := bind_accepted.mp h
  obtain ⟨hreq, hunified, hold, hnew⟩ := equateSelection_accepted hequate
  have hnoPost : ∀ x, ObligationEvent.remembered x ∉ unified := by
    intro x hx
    obtain ⟨t, u, heq, -⟩ := hunified _ hx
    cases heq
  have hholds : ∀ e ∈ unified, e.Holds P n (J ++ K) := by
    intro e he
    obtain ⟨t, u, rfl, hu⟩ := hunified e he
    exact hu
  dsimp only at h
  cases hvisible : pass.visible (v, r.field.map Prod.fst) r.accessModule with
  | some standing =>
    rw [hvisible] at h
    cases eq_of_pure_accepted h
    obtain ⟨hkept, hmodule⟩ := Pass.visible_eq_some hvisible
    have hstands : ∀ x ∈ s.requirements, x ∈ s'.requirements := fun x hx => hreq ▸ hx
    have hlast : ObligationEvent.became r standing ∈ unified ++ [.became r standing] :=
      mem_append_right _ (mem_singleton_self _)
    refine ⟨⟨balanced_of_step hstands ?_ ?_, ?_, hstands⟩, ?_⟩
    · exact .became hlast rfl (.standing (hstands _ (hpass.stands _ hkept)))
    · intro x hx
      rcases mem_append.mp hx with hx | hx
      · exact absurd hx (hnoPost x)
      · cases mem_singleton.mp hx
    · intro e he
      rcases mem_append.mp he with he' | he'
      · exact hholds e he'
      · rw [mem_singleton.mp he']
        -- both ask for the field of the key, and both types are linked to the pass's type for it
        have hname := hpass.named _ hkept
        refine ⟨hmodule, fun hnone => ?_, fun k t hk => ?_⟩
        · rw [hnone] at hname
          exact map_eq_none_iff.mp hname
        · rw [hk] at hname
          obtain ⟨⟨k', t'⟩, hfield, rfl⟩ := map_eq_some_iff.mp hname
          obtain ⟨previous, hprevious, hlinked⟩ := hpass.typed _ hkept _ t' hfield
          obtain ⟨previous', hprevious', hlinked'⟩ := hnew _ t hk
          have heq := hold _ _ hprevious
          dsimp only at heq
          rw [hprevious'] at heq
          cases heq
          refine ⟨t', hfield, .trans _ _ _ (.symm _ _ (hlinked'.mono ?_)) (hlinked.mono ?_)⟩
          · exact fun e he => mem_append_right _ (mem_append_left _ he)
          · exact fun e he => mem_append_left _ he
    · refine ⟨fun k hk => hstands _ (hpass.stands k hk), hpass.named, fun k hk name t ht => ?_⟩
      obtain ⟨previous, hprevious, hlinked⟩ := hpass.typed k hk name t ht
      exact ⟨previous, hold _ _ hprevious, hlinked.mono fun e he => mem_append_left _ he⟩
  | none =>
    rw [hvisible] at h
    obtain ⟨_, s₂, hremember, h⟩ := bind_accepted.mp h
    cases eq_of_pure_accepted h
    cases hremember
    generalize hr' : ({ r with receiver := .var v } : RecordRequirement) = r' at *
    have hfield : r'.field = r.field := by rw [← hr']
    have hstands : ∀ x ∈ s.requirements, x ∈ s₁.requirements ++ [r'] :=
      fun x hx => mem_append_left _ (hreq ▸ hx)
    have hnewStands : r' ∈ s₁.requirements ++ [r'] :=
      mem_append_right _ (mem_singleton_self _)
    have hlast : ObligationEvent.became r r' ∈ unified ++ [.became r r'] :=
      mem_append_right _ (mem_singleton_self _)
    refine ⟨⟨balanced_of_step hstands ?_ ?_, ?_, hstands⟩, ?_⟩
    · exact .became hlast rfl (.standing hnewStands)
    · intro x hx
      rcases mem_append.mp hx with hx | hx
      · exact absurd hx (hnoPost x)
      · cases mem_singleton.mp hx
    · intro e he
      rcases mem_append.mp he with he' | he'
      · exact hholds e he'
      · rw [mem_singleton.mp he']
        refine ⟨by rw [← hr'], fun hnone => hfield.trans hnone, fun k t hk => ?_⟩
        exact ⟨t, hfield.trans hk, .refl t⟩
    · refine ⟨fun k hk => ?_, fun k hk => ?_, fun k hk name t ht => ?_⟩
      · rcases mem_append.mp hk with hk | hk
        · exact hstands _ (hpass.stands k hk)
        · rw [mem_singleton.mp hk]
          exact hnewStands
      · rcases mem_append.mp hk with hk | hk
        · exact hpass.named k hk
        · rw [mem_singleton.mp hk, hfield]
      · rcases mem_append.mp hk with hk | hk
        · obtain ⟨previous, hprevious, hlinked⟩ := hpass.typed k hk name t ht
          exact ⟨previous, hold _ _ hprevious, hlinked.mono fun e he => mem_append_left _ he⟩
        · have hk := mem_singleton.mp hk
          subst hk
          obtain ⟨previous, hprevious, hlinked⟩ := hnew name t (hfield ▸ ht)
          exact ⟨previous, hprevious, hlinked.mono fun e he =>
            mem_append_right _ (mem_append_left _ he)⟩

/-- One obligation of a pass: kept under its receiver's variable, or met as its module would. -/
theorem solveSite_step (hpass : PassOk J pass s)
    (h : solveSite P n r pass s = some (.ok (pass', K), s', [])) :
    SiteStep P n J r s K s' ∧ PassOk (J ++ K) pass' s' := by
  obtain ⟨receiver, s₁, hshallow, h⟩ := bind_accepted.mp h
  obtain ⟨_, -, hr, hs, -⟩ := read_eq_some.mp hshallow
  cases hr
  subst hs
  match receiver with
  | .var v => exact keepSite_step hpass h
  | .error | .record _ _ | .con _ _ | .fn _ _ _ | .tuple _ | .rigid _ _ | .aliased _ _ =>
    obtain ⟨module, s₂, hmodule, h⟩ := bind_accepted.mp h
    obtain ⟨_, s₃, hset, h⟩ := bind_accepted.mp h
    obtain ⟨events, s₄, hmeet, h⟩ := bind_accepted.mp h
    obtain ⟨_, s₅, hreset, h⟩ := bind_accepted.mp h
    cases eq_of_pure_accepted h
    obtain ⟨_, -, hr, hs, -⟩ := read_eq_some.mp hmodule
    cases hr
    subst hs
    cases hset
    cases hreset
    have hstep := meetSite_step (J := J) rfl hmeet
    have hkept := hpass.mono (fun e he => mem_append_left K he) hstep.stands true
    -- setting the module leaves the obligations alone
    exact ⟨⟨hstep.balanced, hstep.holds, hstep.stands⟩, hkept.stands, hkept.named, hkept.typed⟩

/-- What a stretch of the solver does: it loses nothing, and what it says happened is so. -/
structure Solved (P : Declarations) (n : Nat) (J : List ObligationEvent)
    (before : List RecordRequirement) (K : List ObligationEvent) (after : List RecordRequirement) :
    Prop where
  balanced : Balanced obligationLedger before K after
  holds : ∀ e ∈ K, e.Holds P n (J ++ K)

/-- A pass accounts for all the obligations it goes through, and for those kept on the way. -/
theorem solveSites_solved {rs : List RecordRequirement} (hpass : PassOk J pass s)
    (h : solveSites P n rs pass s = some (.ok (pass', K), s', [])) :
    Solved P n J (rs ++ s.requirements) K s'.requirements := by
  induction rs generalizing pass s J K with
  | nil =>
    cases eq_of_pure_accepted h
    exact ⟨.refl _, nofun⟩
  | cons r rs ih =>
    obtain ⟨⟨pass₁, here⟩, s₁, hsite, h⟩ := bind_accepted.mp h
    obtain ⟨⟨pass₂, rest⟩, s₂, hrest, h⟩ := bind_accepted.mp h
    cases eq_of_pure_accepted h
    obtain ⟨hstep, hpass₁⟩ := solveSite_step hpass hsite
    have hlater := ih hpass₁ hrest
    refine ⟨?_, fun e he => ?_⟩
    · -- the obligations still to come stand apart while this one is solved
      have hhere := hstep.balanced.frame rs
      refine Balanced.trans ?_ hlater.balanced
      intro a ha
      apply hhere
      refine ha.imp (fun ha => ?_) fun ha => ha
      rcases mem_append.mp ha with ha | ha
      · rcases mem_cons.mp ha with rfl | ha
        · exact mem_append_right _ mem_cons_self
        · exact mem_append_left _ ha
      · exact mem_append_right _ (mem_cons_of_mem _ ha)
    · rcases mem_append.mp he with he | he
      · refine (hstep.holds e he).mono fun e he => ?_
        rw [← append_assoc]
        exact mem_append_left _ he
      · rw [← append_assoc]
        exact hlater.holds e he

/-- The passes of `solve`, however many it takes. -/
theorem solve_solved {k : Nat} (h : solve P n k s = some (.ok K, s', [])) :
    Solved P n J s.requirements K s'.requirements := by
  induction k generalizing s J K with
  | zero => cases h
  | succ k ih =>
    obtain ⟨pending, s₁, htake, hsites⟩ := bind_accepted.mp h
    obtain ⟨⟨pass, here⟩, s₂, hsites, hagain⟩ := bind_accepted.mp hsites
    cases htake
    have hpass := solveSites_solved (J := J) (.start J _) hsites
    rw [append_nil] at hpass
    dsimp only at hagain
    by_cases hprogress : pass.progress = true
    · rw [if_pos hprogress] at hagain
      obtain ⟨rest, s₃, hrest, hdone⟩ := bind_accepted.mp hagain
      obtain ⟨rfl, rfl⟩ := pure_accepted.mp hdone
      have hlater := ih (J := J ++ here) hrest
      refine ⟨hpass.balanced.trans hlater.balanced, fun e he => ?_⟩
      rw [← append_assoc]
      rcases mem_append.mp he with he | he
      · exact (hpass.holds e he).mono fun e he => mem_append_left _ he
      · exact hlater.holds e he
    · rw [if_neg hprogress] at hagain
      obtain ⟨rfl, rfl⟩ := pure_accepted.mp hagain
      exact hpass

end Ridge
