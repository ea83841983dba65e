import Ridge.Records.ObligationRuns

/-!
# Whole runs

The steps of the checker that touch field obligations, and what a run of them leaves: an obligation
that was remembered stands, was met, or is carried by a scheme, and a use of the scheme remembers
it anew.
-/

namespace Ridge

open Run CheckM Ledger List Option

section
variable (P : Declarations) (n : Nat)

/-- One step of the checker, as the obligations see it. -/
inductive CheckStep : Checker → List ObligationEvent → Checker → Prop where
  /-- All that leaves the obligations alone. -/
  | work {s s' : Checker} (h : s'.requirements = s.requirements) : CheckStep s [] s'
  /-- An access or an update whose receiver is a variable. -/
  | remember {s s' : Checker} {r : RecordRequirement}
    (h : remember r s = some (.ok (), s', [])) : CheckStep s [.remembered r] s'
  | solve {s s' : Checker} {J : List ObligationEvent} (k : Nat)
    (h : solve P n k s = some (.ok J, s', [])) : CheckStep s J s'
  | generalise {s : Checker} {ty : Ty} {envTy envCap envRow : List Nat} {scheme : Scheme}
    {exported : List (RecordRequirement × RecordRequirement)}
    (h : generaliseResolved P n ty envTy envCap envRow s = some (scheme, exported)) :
    CheckStep s (exported.map fun p => .carried p.1 p.2 scheme) s
  | use {s s' : Checker} {scheme : Scheme} {t : Ty} {ρ : Renaming}
    (h : instantiateWith scheme s = some (.ok (t, ρ), s', [])) :
    CheckStep s
      (.used scheme ρ :: scheme.recordFields.map fun r => .remembered (r.mapTypes ρ.apply)) s'
  | release {s : Checker} {kept gone : List RecordRequirement}
    (h : releaseGeneralised P n s = some (kept, gone)) :
    CheckStep s (gone.map .letGo) { s with requirements := kept }

/-- A run of the checker over one module, from no obligation at all. -/
inductive CheckRun : List ObligationEvent → Checker → Prop where
  | start {s : Checker} (h : s.requirements = []) : CheckRun [] s
  | step {s s' : Checker} {J K : List ObligationEvent} (hrun : CheckRun J s)
    (h : CheckStep P n s K s') : CheckRun (J ++ K) s'

/-- A scheme carries the obligation, or one that went on as it. -/
def CarriedIn (J : List ObligationEvent) (r : RecordRequirement) : Prop :=
  ∃ r₀ exported scheme, Leads obligationLedger J r₀ r ∧ .carried r₀ exported scheme ∈ J ∧
    exported ∈ scheme.recordFields

/-- What becomes of an obligation: the one it goes on as asks for the same field, and it stands, its
receiver was found to be a record with that field at the declared type, its receiver is the error
type, it asked for no field, or a scheme carries it. -/
def Settled (J : List ObligationEvent) (standing : List RecordRequirement)
    (r : RecordRequirement) : Prop :=
  ∃ r', Leads obligationLedger J r r' ∧ SameField J r r' ∧
    (r' ∈ standing ∨
      (∃ receiver declared, .met r' receiver declared ∈ J ∧ MetBy P J r' receiver declared) ∨
      .absorbed r' ∈ J ∨ .asRecord r' ∈ J ∨ CarriedIn J r')

end

variable {P : Declarations} {n : Nat} {J K : List ObligationEvent} {s s' : Checker}
  {r : RecordRequirement}

/-! ## Uses of a scheme -/

theorem freshPairs_requirements {α : Type} {fresh : CheckM α}
    (hfresh : ∀ {s s' : Checker} {a : α}, fresh s = some (.ok a, s', []) →
      s'.requirements = s.requirements) {vs : List Nat} {pairs : List (Nat × α)}
    (h : freshPairs fresh vs s = some (.ok pairs, s', [])) : s'.requirements = s.requirements := by
  induction vs generalizing s pairs with
  | nil =>
    obtain ⟨-, rfl⟩ := pure_accepted.mp h
    rfl
  | cons v vs ih =>
    obtain ⟨a, s₁, hone, h⟩ := bind_accepted.mp h
    obtain ⟨rest, s₂, hrest, h⟩ := bind_accepted.mp h
    obtain ⟨-, rfl⟩ := pure_accepted.mp h
    rw [ih hrest, hfresh hone]

theorem forEach_remember_requirements {f : RecordRequirement → RecordRequirement}
    {rs : List RecordRequirement} {u : Unit}
    (h : forEach (fun r => remember (f r)) rs s = some (.ok u, s', [])) :
    s'.requirements = s.requirements ++ rs.map f := by
  induction rs generalizing s with
  | nil =>
    obtain ⟨-, rfl⟩ := pure_accepted.mp h
    rw [map_nil, append_nil]
  | cons r rs ih =>
    obtain ⟨_, s₁, hr, hrest⟩ := bind_accepted.mp h
    rw [ih hrest]
    cases hr
    rw [map_cons, append_assoc]
    rfl

variable {scheme : Scheme}

variable {ρ : Renaming}

/-- A use of a scheme leaves the scheme's obligations behind, over its fresh variables. -/
theorem instantiateWith_requirements {t : Ty}
    (h : instantiateWith scheme s = some (.ok (t, ρ), s', [])) :
    s'.requirements = s.requirements ++ scheme.recordFields.map (·.mapTypes ρ.apply) := by
  obtain ⟨tys, s₁, htys, h⟩ := bind_accepted.mp h
  obtain ⟨caps, s₂, hcaps, h⟩ := bind_accepted.mp h
  obtain ⟨rows, s₃, hrows, h⟩ := bind_accepted.mp h
  obtain ⟨_, s₄, hremember, h⟩ := bind_accepted.mp h
  cases eq_of_pure_accepted h
  have hfresh : s₃.requirements = s.requirements := by
    rw [freshPairs_requirements (fun h => ?_) hrows, freshPairs_requirements (fun h => ?_) hcaps,
      freshPairs_requirements (fun h => ?_) htys]
    all_goals
      cases h
      rfl
  rw [forEach_remember_requirements hremember, hfresh]

/-! ## Export and release -/

theorem forall₂_of_mapM {α β : Type} {f : α → Option β} {l : List α} {m : List β}
    (h : l.mapM f = some m) : List.Forall₂ (fun a b => f a = some b) l m := by
  induction l generalizing m with
  | nil =>
    cases h
    exact .nil
  | cons a l ih =>
    rw [mapM_cons] at h
    obtain ⟨b, hb, h⟩ := bind_eq_some_iff.mp h
    obtain ⟨bs, hbs, h⟩ := bind_eq_some_iff.mp h
    cases h
    exact .cons hb (ih hbs)

variable {exported : List (RecordRequirement × RecordRequirement)}

/-- What is exported is a pending obligation, with its types resolved. -/
theorem forExport_mem {roots : List TyVid} (h : forExport P n roots s = some exported) :
    ∀ p ∈ exported, resolveRequirement P n p.1 s = some p.2 := by
  unfold forExport at h
  split at h
  · cases h
    nofun
  obtain ⟨connected, -, h⟩ := bind_eq_some_iff.mp h
  obtain ⟨pairs, hpairs, h⟩ := bind_eq_some_iff.mp h
  cases h
  intro p hp
  obtain ⟨r, -, hr⟩ := exists_left (forall₂_of_mapM hpairs) (mem_of_mem_filter hp)
  obtain ⟨r', hr', rfl⟩ := map_eq_some_iff.mp hr
  exact hr'

/-- A scheme has the exported form of every obligation it carries. -/
theorem generaliseResolved_carries {ty : Ty} {envTy envCap envRow : List Nat}
    (h : generaliseResolved P n ty envTy envCap envRow s = some (scheme, exported)) :
    ∀ p ∈ exported, p.2 ∈ scheme.recordFields ∧ resolveRequirement P n p.1 s = some p.2 := by
  obtain ⟨free, -, h⟩ := bind_eq_some_iff.mp h
  obtain ⟨exported', hexported, h⟩ := bind_eq_some_iff.mp h
  cases h
  exact fun p hp => ⟨mem_map_of_mem hp, forExport_mem hexported p hp⟩

/-- A release keeps an obligation or lets it go. -/
theorem releaseGeneralised_splits {kept gone : List RecordRequirement}
    (h : releaseGeneralised P n s = some (kept, gone)) :
    ∀ r ∈ s.requirements, r ∈ kept ∨ r ∈ gone := by
  unfold releaseGeneralised at h
  split at h
  · next hempty =>
    rw [List.isEmpty_iff.mp hempty]
    nofun
  obtain ⟨connected, -, h⟩ := bind_eq_some_iff.mp h
  obtain ⟨judged, hjudged, h⟩ := bind_eq_some_iff.mp h
  cases h
  intro r hr
  obtain ⟨⟨r', b⟩, hmem, hb⟩ := exists_right (forall₂_of_mapM hjudged) hr
  obtain ⟨vars, -, heq⟩ := bind_eq_some_iff.mp hb
  cases heq
  cases hrelated : vars.flatten.any (· ∈ connected.flatMap freeTyvids) with
  | true =>
    refine .inl (mem_map.mpr ⟨_, mem_filter.mpr ⟨hmem, ?_⟩, rfl⟩)
    exact hrelated
  | false =>
    refine .inr (mem_map.mpr ⟨_, mem_filter.mpr ⟨hmem, ?_⟩, rfl⟩)
    show (!_) = true
    rw [hrelated]
    rfl

/-! ## Steps and runs -/

/-- No step loses an obligation without saying so. -/
theorem CheckStep.solved (h : CheckStep P n s K s') :
    Solved P n J s.requirements K s'.requirements := by
  cases h with
  | work h =>
    rw [h]
    exact ⟨.refl _, nofun⟩
  | remember h =>
    cases h
    refine ⟨?_, fun e he => ?_⟩
    · rintro a (ha | ⟨e, he, hposted⟩)
      · exact .standing (mem_append_left _ ha)
      · rw [mem_singleton.mp he] at hposted
        cases hposted
        exact .standing (mem_append_right _ (mem_singleton_self _))
    · rw [mem_singleton.mp he]
      trivial
  | solve k h => exact solve_solved h
  | generalise h =>
    refine ⟨?_, fun e he => ?_⟩
    · rintro a (ha | ⟨e, he, hposted⟩)
      · exact .standing ha
      · obtain ⟨p, -, rfl⟩ := mem_map.mp he
        cases hposted
    · obtain ⟨p, hp, rfl⟩ := mem_map.mp he
      obtain ⟨hmem, hresolved⟩ := generaliseResolved_carries h p hp
      exact ⟨hmem, s, hresolved⟩
  | use h =>
    rw [instantiateWith_requirements h]
    refine ⟨?_, fun e he => ?_⟩
    · rintro a (ha | ⟨e, he, hposted⟩)
      · exact .standing (mem_append_left _ ha)
      · rcases mem_cons.mp he with rfl | he
        · cases hposted
        · obtain ⟨r, hr, rfl⟩ := mem_map.mp he
          cases hposted
          exact .standing (mem_append_right _ (mem_map_of_mem hr))
    · rcases mem_cons.mp he with rfl | he
      · exact fun r hr => mem_append_right _
          (mem_cons_of_mem _ (mem_map.mpr ⟨r, hr, rfl⟩))
      · obtain ⟨r, hr, rfl⟩ := mem_map.mp he
        trivial
  | release h =>
    refine ⟨?_, fun e he => ?_⟩
    · rintro a (ha | ⟨e, he, hposted⟩)
      · rcases releaseGeneralised_splits h a ha with hkept | hgone
        · exact .standing hkept
        · exact .closed (mem_map_of_mem hgone) (.inr (.inr (.inr rfl)))
      · obtain ⟨r, -, rfl⟩ := mem_map.mp he
        cases hposted
    · obtain ⟨r, -, rfl⟩ := mem_map.mp he
      trivial

/-- A whole run accounts for every obligation it remembered. -/
theorem CheckRun.solved (h : CheckRun P n J s) : Solved P n [] [] J s.requirements := by
  induction h with
  | start h =>
    rw [h]
    exact ⟨.refl _, nofun⟩
  | @step _ _ J _ _ hstep ih =>
    have hlater := hstep.solved (J := J)
    refine ⟨ih.balanced.trans hlater.balanced, ?_⟩
    exact AllHold.append ih.holds hlater.holds

/-- In a run whose releases let go only what a scheme carries, every obligation is settled. -/
theorem CheckRun.settled (h : CheckRun P n J s) (hgone : ∀ r, .letGo r ∈ J → CarriedIn J r)
    (hr : .remembered r ∈ J) : Settled P J s.requirements r := by
  have hsolved := h.solved
  obtain ⟨r', hleads, hend⟩ := hsolved.balanced r (.inr ⟨_, hr, rfl⟩)
  refine ⟨r', hleads, .of_leads hsolved.holds hleads, ?_⟩
  rcases hend with hstands | ⟨e, he, ⟨receiver, declared, rfl⟩ | rfl | rfl | rfl⟩
  · exact .inl hstands
  · exact .inr (.inl ⟨receiver, declared, he, hsolved.holds _ he⟩)
  · exact .inr (.inr (.inl he))
  · exact .inr (.inr (.inr (.inl he)))
  · exact .inr (.inr (.inr (.inr (hgone _ he))))

/-- A use of a scheme remembers every obligation the scheme carries. -/
theorem CheckRun.uses (h : CheckRun P n J s) (hused : .used scheme ρ ∈ J)
    (hr : r ∈ scheme.recordFields) : .remembered (r.mapTypes ρ.apply) ∈ J :=
  h.solved.holds _ hused r hr

end Ridge
