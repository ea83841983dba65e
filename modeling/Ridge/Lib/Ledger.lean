import Mathlib.Logic.Relation

/-!
# Ledgers

A run that keeps items standing and records what happens to them: an item is posted, goes on as
another one, or is closed. A stretch of a run is *balanced* when every item that stood at its start
or was posted in it goes on to one that stands at its end or was closed in it. Balanced stretches
compose, so a run of balanced steps loses no item.
-/

namespace Ridge.Ledger

open Relation List

variable {A ω : Type} {J : List ω} {after : List A}

/-- How the events of a run are read. -/
structure Reading (A ω : Type) where
  posted : ω → A → Prop
  became : ω → A → A → Prop
  closed : ω → A → Prop

variable (R : Reading A ω)

/-- In the journal `J`, the item `a` goes on as `b`, in some number of steps. -/
def Leads (J : List ω) : A → A → Prop := ReflTransGen fun a b => ∃ e ∈ J, R.became e a b

/-- The item goes on to one that stands, or that was closed. -/
def Accounted (J : List ω) (standing : List A) (a : A) : Prop :=
  ∃ b, Leads R J a b ∧ (b ∈ standing ∨ ∃ e ∈ J, R.closed e b)

/-- Nothing that stood or was posted is lost. -/
def Balanced (before : List A) (J : List ω) (after : List A) : Prop :=
  ∀ a, (a ∈ before ∨ ∃ e ∈ J, R.posted e a) → Accounted R J after a

variable {R}

variable {K : List ω}

theorem Leads.mono (h : ∀ e ∈ J, e ∈ K) {a b : A} (hab : Leads R J a b) : Leads R K a b := by
  induction hab with
  | refl => exact .refl
  | tail _ hstep ih =>
    obtain ⟨e, he, hbecame⟩ := hstep
    exact .tail ih ⟨e, h e he, hbecame⟩

variable {a : A}

theorem Accounted.standing (h : a ∈ after) : Accounted R J after a :=
  ⟨a, .refl, .inl h⟩

theorem Accounted.closed {e : ω} (he : e ∈ J) (h : R.closed e a) : Accounted R J after a :=
  ⟨a, .refl, .inr ⟨e, he, h⟩⟩

theorem Accounted.became {a b : A} {e : ω} (he : e ∈ J) (h : R.became e a b)
    (hb : Accounted R J after b) : Accounted R J after a := by
  obtain ⟨c, hc, hend⟩ := hb
  exact ⟨c, .head ⟨e, he, h⟩ hc, hend⟩

theorem Accounted.mono (h : ∀ e ∈ J, e ∈ K) (ha : Accounted R J after a) :
    Accounted R K after a := by
  obtain ⟨b, hb, hend⟩ := ha
  exact ⟨b, hb.mono h, hend.imp (fun h => h) fun ⟨e, he, hc⟩ => ⟨e, h e he, hc⟩⟩

/-- What is accounted for at the start of a balanced stretch is accounted for at its end. -/
theorem Accounted.trans {mid : List A} (ha : Accounted R J mid a) (hK : Balanced R mid K after) :
    Accounted R (J ++ K) after a := by
  obtain ⟨b, hb, hstands | ⟨e, he, hclosed⟩⟩ := ha
  · obtain ⟨c, hc, hend⟩ := hK b (.inl hstands)
    refine ⟨c, (hb.mono fun e he => mem_append_left _ he).trans
      (hc.mono fun e he => mem_append_right _ he), ?_⟩
    exact hend.imp (fun h => h) fun ⟨e, he, hc⟩ => ⟨e, mem_append_right _ he, hc⟩
  · exact ⟨b, hb.mono fun e he => mem_append_left _ he,
      .inr ⟨e, mem_append_left _ he, hclosed⟩⟩

theorem Balanced.refl (standing : List A) : Balanced R standing [] standing := by
  rintro a (h | ⟨e, he, -⟩)
  · exact .standing h
  · cases he

theorem Balanced.trans {before mid : List A} (hJ : Balanced R before J mid)
    (hK : Balanced R mid K after) : Balanced R before (J ++ K) after := by
  rintro a (h | ⟨e, he, hposted⟩)
  · exact (hJ a (.inl h)).trans hK
  · rcases mem_append.mp he with he | he
    · exact (hJ a (.inr ⟨e, he, hposted⟩)).trans hK
    · exact (hK a (.inr ⟨e, he, hposted⟩)).mono fun e he => mem_append_right _ he

/-- Items that stand apart from a stretch go on standing. -/
theorem Balanced.frame {before : List A} (h : Balanced R before J after) (apart : List A) :
    Balanced R (apart ++ before) J (apart ++ after) := by
  have hmore : ∀ a, Accounted R J after a → Accounted R J (apart ++ after) a :=
    fun a ⟨b, hb, hend⟩ => ⟨b, hb, hend.imp (fun h => mem_append_right _ h) fun h => h⟩
  rintro a (ha | hposted)
  · rcases mem_append.mp ha with ha | ha
    · exact .standing (mem_append_left _ ha)
    · exact hmore a (h a (.inl ha))
  · exact hmore a (h a (.inr hposted))

end Ridge.Ledger
