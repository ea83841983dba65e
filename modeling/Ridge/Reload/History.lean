import Ridge.Reload.Snapshot
import Mathlib.Data.List.Destutter

/-!
# The recorded history is a log of the shapes

Every build takes the snapshot of the build before. `Run` is a sequence of builds of one type or
actor, from the first on; the rest of each workspace is arbitrary. What the last snapshot records
are the builds that changed the shape (`introduced`), numbered by their `@version` or else by one
more than the number before (`numbered`).

Two things are left out of the log: an ordinal of 0, which the parser refuses and which only
running past the last ordinal can give, and an actor whose state hashes to 0, whose history is
dropped.
-/

namespace Ridge.Reload

open List

variable {v : Versioned} {src : Source} {srcs : List Source} {ws : WorkspaceSnapshot}
    {builds : List (Source × WorkspaceSnapshot)}

/-- The source of a build: a record with its `@version`, or an actor. -/
inductive Source where
  | record (declared : Option UInt32) (fields : List FieldSnap) (edges : List UInt32)
  | actor (state : List StateSnap) (handlers : Table (BitVec 16)) (edges : List UInt32)

namespace Source

def shape : Source → List FieldSnap
  | .record _ fields _ => fields
  | .actor state _ _ => stateShape state

def declared : Source → Option UInt32
  | .record declared _ _ => declared
  | .actor _ _ _ => none

def snapshot (fx : Hasher) (prev : Option WorkspaceSnapshot) (fqn name : String) :
    Source → SymbolSnapshot
  | .record declared fields edges => recordSnapshot fx prev fqn name declared fields edges
  | .actor state handlers edges => actorSnapshot fx prev fqn name state handlers edges

/-- The shape of an actor does not hash to the mark of a snapshot without history. -/
def Marked (fx : Hasher) : Source → Prop
  | .record _ _ _ => True
  | .actor state _ _ => shapeHash fx (stateShape state) ≠ 0

/-- The look-up of a type, or of an actor. -/
def lookup (h : VersionHistory) : Source → String → String → UInt32 → Option VersionEntry
  | .record _ _ _ => h.lookupRecord
  | .actor _ _ _ => h.lookupActor

end Source

theorem hash_versionedIdentity (fx : Hasher) (prev : Option Versioned) (declared : Option UInt32)
    (shape : List FieldSnap) :
    (versionedIdentity fx prev declared shape).hash = shapeHash fx shape := by
  unfold versionedIdentity
  split
  · split <;> rfl
  · rfl

theorem shape_versionedIdentity (fx : Hasher) (prev : Option Versioned)
    (declared : Option UInt32) (shape : List FieldSnap) :
    (versionedIdentity fx prev declared shape).shape = shape := by
  unfold versionedIdentity
  split
  · split <;> rfl
  · rfl

theorem Versioned.eta_shape {shape : List FieldSnap} (h : v.shape = shape) :
    (⟨v.version, v.hash, shape, v.history⟩ : Versioned) = v := by
  rw [← h]

theorem versioned_snapshot {fx : Hasher} (h : src.Marked fx) (prev : Option WorkspaceSnapshot)
    (fqn name : String) :
    (src.snapshot fx prev fqn name).versioned
      = some (versionedIdentity fx (prevVersioned prev fqn name) src.declared src.shape) := by
  have hshape := shape_versionedIdentity fx (prevVersioned prev fqn name) src.declared src.shape
  cases src with
  | record declared fields edges => exact congrArg some (Versioned.eta_shape hshape)
  | actor state handlers edges =>
    refine (if_pos ?_).trans (congrArg some (Versioned.eta_shape hshape))
    rw [hash_versionedIdentity]
    exact h

/-! ## Builds -/

/-- Builds of one symbol, each a source and the snapshot it gave on the snapshot before, and the
last snapshot. Before the first there is no version of the symbol. -/
inductive Run (fx : Hasher) (fqn name : String) :
    List (Source × WorkspaceSnapshot) → WorkspaceSnapshot → Prop
  | first {prev : Option WorkspaceSnapshot} {ws : WorkspaceSnapshot} {src : Source}
      (hprev : prevVersioned prev fqn name = none)
      (h : ws.symbol fqn name = some (src.snapshot fx prev fqn name)) :
      Run fx fqn name [(src, ws)] ws
  | next {builds : List (Source × WorkspaceSnapshot)} {prev ws : WorkspaceSnapshot}
      {src : Source} (run : Run fx fqn name builds prev)
      (h : ws.symbol fqn name = some (src.snapshot fx (some prev) fqn name)) :
      Run fx fqn name (builds ++ [(src, ws)]) ws

/-- The builds that change the shape, with the first. -/
def introduced (srcs : List Source) : List Source :=
  srcs.destutter fun a b => a.shape ≠ b.shape

/-- The ordinal of a build that changes the shape. -/
def ordinalAfter (prev : Option UInt32) (src : Source) : UInt32 :=
  src.declared.getD (prev.elim 1 (· + 1))

/-- The versions that such builds begin, after a version with ordinal `prev`. -/
def numbered (fx : Hasher) : Option UInt32 → List Source → List VersionEntry
  | _, [] => []
  | prev, src :: srcs =>
    let ordinal := ordinalAfter prev src
    { ordinal := ordinal, hash := shapeHash fx src.shape, shape := src.shape }
      :: numbered fx (some ordinal) srcs

/-- No ordinal is 0: none is declared, and no count runs past the last ordinal. -/
def InRange : Option UInt32 → List Source → Prop
  | _, [] => True
  | prev, src :: srcs =>
    ordinalAfter prev src ≠ 0 ∧ InRange (some (ordinalAfter prev src)) srcs

/-- Every `@version` that comes with a new shape is greater than the ordinal before. -/
def Rising : Option UInt32 → List Source → Prop
  | _, [] => True
  | prev, src :: srcs =>
    (∀ p n, prev = some p → src.declared = some n → p < n) ∧
      Rising (some (ordinalAfter prev src)) srcs

/-! ### One more build -/

/-- Appending an element leaves it out, or adds it, by the last element that was kept. -/
theorem destutter'_concat (src : Source) (l : List Source) (a : Source) :
    ∃ kept, (l.destutter' (fun a b => a.shape ≠ b.shape) a).getLast? = some kept ∧
      (∃ last, (a :: l).getLast? = some last ∧ kept.shape = last.shape) ∧
      (l ++ [src]).destutter' (fun a b => a.shape ≠ b.shape) a
        = if kept.shape = src.shape then l.destutter' (fun a b => a.shape ≠ b.shape) a
          else l.destutter' (fun a b => a.shape ≠ b.shape) a ++ [src] := by
  induction l generalizing a with
  | nil =>
    refine ⟨a, rfl, ⟨a, rfl, rfl⟩, ?_⟩
    rw [nil_append, destutter'_singleton]
    by_cases hsame : a.shape = src.shape <;> simp [hsame]
  | cons b l ih =>
    rw [cons_append, getLast?_cons_cons]
    by_cases hsame : a.shape = b.shape
    · -- `b` is passed over, and `a` stands for it
      rw [destutter'_cons_neg _ (not_not.mpr hsame),
        destutter'_cons_neg _ (not_not.mpr hsame)]
      obtain ⟨kept, hkept, ⟨last, hlast, hshape⟩, heq⟩ := ih a
      refine ⟨kept, hkept, ?_, heq⟩
      cases l with
      | nil =>
        cases hlast
        exact ⟨b, rfl, hshape.trans hsame⟩
      | cons c l => exact ⟨last, hlast, hshape⟩
    · rw [destutter'_cons_pos _ hsame, destutter'_cons_pos _ hsame]
      obtain ⟨kept, hkept, hlast, heq⟩ := ih b
      refine ⟨kept, ?_, hlast, ?_⟩
      · rw [getLast?_cons, hkept]
        rfl
      · rw [heq]
        split <;> rfl

/-- A build with the shape of the last one introduces nothing, any other one itself. -/
theorem introduced_concat {last : Source} (hlast : srcs.getLast? = some last) :
    introduced (srcs ++ [src])
      = if last.shape = src.shape then introduced srcs else introduced srcs ++ [src] := by
  cases srcs with
  | nil => cases hlast
  | cons a l =>
    obtain ⟨kept, -, ⟨last', hlast', hshape⟩, heq⟩ := destutter'_concat src l a
    obtain rfl : last' = last := Option.some.inj (hlast'.symm.trans hlast)
    rw [← hshape]
    exact heq

theorem numbered_concat (fx : Hasher) (src : Source) (srcs : List Source) (prev : Option UInt32) :
    numbered fx prev (srcs ++ [src]) = numbered fx prev srcs
      ++ numbered fx (((numbered fx prev srcs).getLast?.map VersionSnap.ordinal).or prev)
        [src] := by
  induction srcs generalizing prev with
  | nil => rfl
  | cons s srcs ih =>
    show _ :: numbered fx _ (srcs ++ [src]) = _
    rw [ih]
    congr 3
    show _ = ((_ :: numbered fx (some (ordinalAfter prev s)) srcs).getLast?.map _).or prev
    rw [getLast?_cons]
    cases (numbered fx (some (ordinalAfter prev s)) srcs).getLast? <;> rfl

/-- After a run the snapshot holds the log of its builds, the last version being the current, and
every build's version is in it. -/
structure Recorded (fx : Hasher) (fqn name : String) (builds : List (Source × WorkspaceSnapshot))
    (ws : WorkspaceSnapshot) (v : Versioned) : Prop where
  versioned : prevVersioned (some ws) fqn name = some v
  entries : v.entries = numbered fx none (introduced (builds.map Prod.fst))
  hash : v.hash = shapeHash fx v.shape
  last : ∃ src prev, builds.getLast? = some (src, ws) ∧ src.shape = v.shape ∧
    ws.symbol fqn name = some (src.snapshot fx prev fqn name)
  carried : ∀ b ∈ builds, ∀ u, prevVersioned (some b.2) fqn name = some u →
    ∃ e ∈ v.entries, e.ordinal = u.version ∧ e.shape = b.1.shape

namespace Recorded

variable {fx : Hasher} {fqn name : String}

/-- The version of the last build is the last entry. -/
theorem carries_current {u : Versioned} (hv : prevVersioned (some ws) fqn name = some v)
    (hshape : v.shape = src.shape) (hu : prevVersioned (some ws) fqn name = some u) :
    ∃ e ∈ v.entries, e.ordinal = u.version ∧ e.shape = src.shape := by
  obtain rfl : v = u := Option.some.inj (hv.symm.trans hu)
  exact ⟨_, mem_append_right _ (mem_singleton_self _), rfl, hshape⟩

theorem first {prev : Option WorkspaceSnapshot} (hmarked : src.Marked fx)
    (hprev : prevVersioned prev fqn name = none)
    (h : ws.symbol fqn name = some (src.snapshot fx prev fqn name)) :
    Recorded fx fqn name [(src, ws)] ws (versionedIdentity fx none src.declared src.shape) := by
  have hversioned : prevVersioned (some ws) fqn name
      = some (versionedIdentity fx none src.declared src.shape) := by
    show (ws.symbol fqn name).bind _ = _
    rw [h, ← hprev]
    exact versioned_snapshot hmarked prev fqn name
  refine ⟨hversioned, rfl, rfl, ⟨src, prev, rfl, rfl, h⟩, fun b hb u hu => ?_⟩
  obtain rfl := mem_singleton.mp hb
  exact carries_current hversioned rfl hu

/-- One more build keeps the entries, and adds one for a new shape. -/
theorem entries_next (hv : v.hash = shapeHash fx v.shape) (src : Source) :
    (versionedIdentity fx (some v) src.declared src.shape).entries
      = if v.shape = src.shape then v.entries
        else v.entries ++ numbered fx (some v.version) [src] := by
  by_cases hsame : v.shape = src.shape
  · -- the entry of the current version is written again, with the same hash
    rw [if_pos hsame, versionedIdentity, if_pos hsame]
    unfold Versioned.entries
    rw [hv, hsame]
  · rw [if_neg hsame, versionedIdentity, if_neg hsame]
    rfl

theorem next {prev : WorkspaceSnapshot} (hmarked : src.Marked fx)
    (hr : Recorded fx fqn name builds prev v)
    (h : ws.symbol fqn name = some (src.snapshot fx (some prev) fqn name)) :
    Recorded fx fqn name (builds ++ [(src, ws)]) ws
      (versionedIdentity fx (some v) src.declared src.shape) := by
  have hversioned : prevVersioned (some ws) fqn name
      = some (versionedIdentity fx (some v) src.declared src.shape) := by
    show (ws.symbol fqn name).bind _ = _
    rw [h, ← hr.versioned]
    exact versioned_snapshot hmarked (some prev) fqn name
  have hshape := shape_versionedIdentity fx (some v) src.declared src.shape
  obtain ⟨last, -, hlast, hlastshape, -⟩ := hr.last
  refine ⟨hversioned, ?_, ?_, ⟨src, some prev, getLast?_concat, hshape.symm, h⟩,
    fun b hb u hu => ?_⟩
  · have hsources : (builds.map Prod.fst).getLast? = some last := by
      rw [getLast?_map, hlast]
      rfl
    have hcurrent : v.entries.getLast? = some ⟨v.version, v.hash, v.shape⟩ :=
      getLast?_concat
    rw [entries_next hr.hash, map_append, map_singleton, introduced_concat hsources,
      hlastshape]
    split
    · exact hr.entries
    · rw [numbered_concat, ← hr.entries, hcurrent]
      rfl
  · rw [hash_versionedIdentity, shape_versionedIdentity]
  · rcases mem_append.mp hb with hb | hb
    · obtain ⟨e, he, hordinal, heshape⟩ := hr.carried b hb u hu
      refine ⟨e, ?_, hordinal, heshape⟩
      rw [entries_next hr.hash]
      split
      · exact he
      · exact mem_append_left _ he
    · obtain rfl := mem_singleton.mp hb
      exact carries_current hversioned hshape hu

end Recorded

theorem Run.recorded {fx : Hasher} {fqn name : String} (run : Run fx fqn name builds ws)
    (hmarked : ∀ b ∈ builds, b.1.Marked fx) : ∃ v, Recorded fx fqn name builds ws v := by
  induction run with
  | first hprev h => exact ⟨_, Recorded.first (hmarked _ (mem_singleton_self _)) hprev h⟩
  | next run h ih =>
    obtain ⟨v, hv⟩ := ih fun b hb => hmarked b (mem_append_left _ hb)
    exact ⟨_, hv.next (hmarked _ (mem_append_right _ (mem_singleton_self _))) h⟩

/-! ## The log -/

theorem shape_numbered (fx : Hasher) (prev : Option UInt32) (srcs : List Source) :
    (numbered fx prev srcs).map VersionSnap.shape = srcs.map Source.shape := by
  induction srcs generalizing prev with
  | nil => rfl
  | cons src srcs ih => exact congrArg (src.shape :: ·) (ih _)

variable {prev : Option UInt32} {e : VersionEntry}

theorem hash_numbered {fx : Hasher} (he : e ∈ numbered fx prev srcs) :
    e.hash = shapeHash fx e.shape := by
  induction srcs generalizing prev with
  | nil => cases he
  | cons src srcs ih =>
    rcases mem_cons.mp he with rfl | he
    · rfl
    · exact ih he

theorem ordinal_numbered {fx : Hasher} (h : InRange prev srcs) (he : e ∈ numbered fx prev srcs) :
    e.ordinal ≠ 0 := by
  induction srcs generalizing prev with
  | nil => cases he
  | cons src srcs ih =>
    rcases mem_cons.mp he with rfl | he
    · exact h.1
    · exact ih h.2 he

/-- The next ordinal is greater, when no smaller one is declared and the count goes on. -/
theorem lt_ordinalAfter {p : UInt32} (hrange : ordinalAfter (some p) src ≠ 0)
    (hrising : ∀ n, src.declared = some n → p < n) : p < ordinalAfter (some p) src := by
  unfold ordinalAfter at *
  cases hdeclared : src.declared with
  | some n => exact hrising n hdeclared
  | none =>
    rw [hdeclared] at hrange
    have hlt : p.toNat < 2 ^ 32 := p.toNat_lt
    have hne : (p + 1).toNat ≠ 0 := fun heq => hrange (UInt32.toNat_inj.mp heq)
    show p < p + 1
    rw [UInt32.lt_iff_toNat_lt]
    rw [UInt32.toNat_add] at hne ⊢
    change (p.toNat + 1) % 2 ^ 32 ≠ 0 at hne
    change p.toNat < (p.toNat + 1) % 2 ^ 32
    omega

theorem increasing_numbered {fx : Hasher} (hrange : InRange prev srcs)
    (hrising : Rising prev srcs) :
    (numbered fx prev srcs).Pairwise (fun a b => a.ordinal < b.ordinal) ∧
      ∀ p, prev = some p → ∀ e ∈ numbered fx prev srcs, p < e.ordinal := by
  induction srcs generalizing prev with
  | nil => exact ⟨List.Pairwise.nil, fun _ _ e he => absurd he not_mem_nil⟩
  | cons src srcs ih =>
    obtain ⟨hpairwise, habove⟩ := ih hrange.2 hrising.2
    refine ⟨pairwise_cons.mpr ⟨habove _ rfl, hpairwise⟩, ?_⟩
    rintro p rfl e he
    have hfirst := lt_ordinalAfter hrange.1 fun n => hrising.1 p n rfl
    rcases mem_cons.mp he with rfl | he
    · exact hfirst
    · exact UInt32.lt_trans hfirst (habove _ rfl e he)

theorem shape_introduced (srcs : List Source) :
    (introduced srcs).map Source.shape = (srcs.map Source.shape).destutter (· ≠ ·) :=
  map_destutter fun _ _ _ _ => Iff.rfl

/-! ### Look-ups -/

def LastAt (entries : List VersionEntry) (n : UInt32) (e : VersionEntry) : Prop :=
  ∃ before after, entries = before ++ e :: after ∧ e.ordinal = n ∧ ∀ e' ∈ after, e'.ordinal ≠ n

variable {entries : List VersionEntry}

theorem find_reverse_eq_some_iff {n : UInt32} :
    (entries.reverse.find? fun e => e.ordinal = n) = some e ↔ LastAt entries n e := by
  rw [find?_eq_some_iff_append]
  simp only [decide_eq_true_eq, Bool.not_eq_true', decide_eq_false_iff_not]
  constructor
  · rintro ⟨hordinal, before, after, heq, hbefore⟩
    refine ⟨after.reverse, before.reverse, ?_, hordinal,
      fun e' he' => hbefore e' (mem_reverse.mp he')⟩
    rw [← entries.reverse_reverse, heq]
    simp
  · rintro ⟨before, after, heq, hordinal, hafter⟩
    refine ⟨hordinal, after.reverse, before.reverse, ?_,
      fun e' he' => hafter e' (mem_reverse.mp he')⟩
    rw [heq]
    simp

/-- Where no ordinal is given twice, every entry is the last one for its ordinal. -/
theorem lastAt_of_mem (h : entries.Pairwise fun a b => a.ordinal < b.ordinal) (he : e ∈ entries) :
    LastAt entries e.ordinal e := by
  obtain ⟨before, after, rfl⟩ := append_of_mem he
  refine ⟨before, after, rfl, rfl, fun e' he' heq => ?_⟩
  have hlt := (pairwise_cons.mp (pairwise_append.mp h).2.1).1 e' he'
  exact absurd (heq ▸ hlt) (UInt32.lt_irrefl _)

/-- The part of the history that a source's look-ups go to has its version, if that is not 0. -/
theorem kind_snapshot {fx : Hasher} {fqn name : String} {prev : Option WorkspaceSnapshot}
    (hv : (src.snapshot fx prev fqn name).versioned = some v) (hzero : v.version ≠ 0)
    (ws : WorkspaceSnapshot) (n : UInt32) :
    ∃ kind, kind (src.snapshot fx prev fqn name) = some v ∧
      src.lookup (historyOf ws) fqn name n = lookupVersion (versionsOf kind ws) fqn name n := by
  cases src with
  | record declared fields edges =>
    obtain rfl := Option.some.inj hv
    exact ⟨SymbolSnapshot.record?, if_neg hzero, rfl⟩
  | actor state handlers edges =>
    have hversioned := Option.ite_none_right_eq_some.mp hv
    obtain rfl := Option.some.inj hversioned.2
    exact ⟨SymbolSnapshot.actor?, if_neg hzero, rfl⟩

/-- A look-up goes through the entries of the symbol. -/
theorem lookup_historyOf {fx : Hasher} {fqn name : String} {prev : Option WorkspaceSnapshot}
    (h : ws.symbol fqn name = some (src.snapshot fx prev fqn name))
    (hv : prevVersioned (some ws) fqn name = some v) (hzero : v.version ≠ 0) (n : UInt32) :
    src.lookup (historyOf ws) fqn name n
      = v.entries.reverse.find? fun e => e.ordinal = n := by
  change (ws.symbol fqn name).bind _ = _ at hv
  rw [h] at hv
  obtain ⟨kind, hkind, heq⟩ := kind_snapshot hv hzero ws n
  rw [heq]
  unfold lookupVersion
  rw [lookup_versionsOf, h]
  show ((kind _).map Versioned.entries).bind _ = _
  rw [hkind]
  rfl

/-- The entries are a faithful log of the builds, and `lookup` reads it. -/
structure FaithfulLog (fx : Hasher) (fqn name : String)
    (builds : List (Source × WorkspaceSnapshot)) (entries : List VersionEntry)
    (lookup : UInt32 → Option VersionEntry) : Prop where
  /-- They are the successive distinct shapes, with their hashes. -/
  shapes : entries.map VersionSnap.shape
    = (builds.map fun b => b.1.shape).destutter (· ≠ ·)
  hashes : ∀ e ∈ entries, e.hash = shapeHash fx e.shape
  /-- Each has the ordinal of the build that introduced it. -/
  numbers : entries = numbered fx none (introduced (builds.map Prod.fst))
  increasing : Rising none (introduced (builds.map Prod.fst)) →
    entries.Pairwise fun a b => a.ordinal < b.ordinal
  /-- An ordinal leads to the last shape that carried it. -/
  found : ∀ n e, lookup n = some e ↔ LastAt entries n e
  /-- An ordinal leads to the shape at any build at which the symbol carried it. -/
  carried : Rising none (introduced (builds.map Prod.fst)) →
    ∀ b ∈ builds, ∀ u, prevVersioned (some b.2) fqn name = some u →
      ∃ e, lookup u.version = some e ∧ e.shape = b.1.shape

/-- After any sequence of builds of a record, or of an actor whose state never hashes to 0, with
ordinals in range, the history and the current version are a faithful log of the builds. -/
theorem history_is_faithful {fx : Hasher} {fqn name : String}
    {builds : List (Source × WorkspaceSnapshot)} {ws : WorkspaceSnapshot}
    (run : Run fx fqn name builds ws) (hmarked : ∀ b ∈ builds, b.1.Marked fx)
    (hrange : InRange none (introduced (builds.map Prod.fst))) :
    ∃ last v, builds.getLast? = some (last, ws) ∧
      prevVersioned (some ws) fqn name = some v ∧
      FaithfulLog fx fqn name builds v.entries (last.lookup (historyOf ws) fqn name) := by
  obtain ⟨v, hr⟩ := run.recorded hmarked
  obtain ⟨last, prev, hlast, -, hsymbol⟩ := hr.last
  have hzero : v.version ≠ 0 := by
    have hcurrent : (⟨v.version, v.hash, v.shape⟩ : VersionEntry) ∈ v.entries :=
      mem_append_right _ (mem_singleton_self _)
    rw [hr.entries] at hcurrent
    exact ordinal_numbered hrange hcurrent
  have hfound : ∀ n e, last.lookup (historyOf ws) fqn name n = some e ↔ LastAt v.entries n e := by
    intro n e
    rw [lookup_historyOf hsymbol hr.versioned hzero n]
    exact find_reverse_eq_some_iff
  have hincreasing : Rising none (introduced (builds.map Prod.fst)) →
      v.entries.Pairwise fun a b => a.ordinal < b.ordinal := by
    intro hrising
    rw [hr.entries]
    exact (increasing_numbered hrange hrising).1
  refine ⟨last, v, hlast, hr.versioned, ?_, ?_, hr.entries, hincreasing, hfound, ?_⟩
  · rw [hr.entries, shape_numbered, shape_introduced, map_map]
    rfl
  · intro e he
    rw [hr.entries] at he
    exact hash_numbered he
  · intro hrising b hb u hu
    obtain ⟨e, he, hordinal, hshape⟩ := hr.carried b hb u hu
    exact ⟨e, (hfound _ _).mpr (hordinal ▸ lastAt_of_mem (hincreasing hrising) he), hshape⟩

def soleSymbol (fqn name : String) (s : SymbolSnapshot) : WorkspaceSnapshot where
  modules := ⟨[(fqn, { symbols := ⟨[(name, s)], List.pairwise_singleton _ _⟩, content_hash := 0 })],
    List.pairwise_singleton _ _⟩

theorem symbol_soleSymbol (fqn name : String) (s : SymbolSnapshot) :
    (soleSymbol fqn name s).symbol fqn name = some s := by
  unfold soleSymbol WorkspaceSnapshot.symbol Table.get
  simp

def build (fx : Hasher) (fqn name : String) (prev : Option WorkspaceSnapshot) (src : Source) :
    WorkspaceSnapshot :=
  soleSymbol fqn name (src.snapshot fx prev fqn name)

/-- Its builds, each on the one before. -/
def buildAll (fx : Hasher) (fqn name : String) : Option WorkspaceSnapshot → List Source →
    List (Source × WorkspaceSnapshot)
  | _, [] => []
  | prev, src :: srcs =>
    (src, build fx fqn name prev src)
      :: buildAll fx fqn name (some (build fx fqn name prev src)) srcs

def lastBuild (fx : Hasher) (fqn name : String) (ws : WorkspaceSnapshot) (srcs : List Source) :
    WorkspaceSnapshot :=
  srcs.foldl (fun ws src => build fx fqn name (some ws) src) ws

theorem Run.append {fx : Hasher} {fqn name : String} (run : Run fx fqn name builds ws)
    (srcs : List Source) :
    Run fx fqn name (builds ++ buildAll fx fqn name (some ws) srcs)
      (lastBuild fx fqn name ws srcs) := by
  induction srcs generalizing builds ws with
  | nil =>
    show Run fx fqn name (builds ++ []) ws
    rwa [append_nil]
  | cons src srcs ih =>
    have hnext : Run fx fqn name (builds ++ [(src, build fx fqn name (some ws) src)])
        (build fx fqn name (some ws) src) := run.next (symbol_soleSymbol fqn name _)
    have h := ih hnext
    rw [append_assoc] at h
    exact h

theorem run_buildAll (fx : Hasher) (fqn name : String) (src : Source) (srcs : List Source) :
    Run fx fqn name (buildAll fx fqn name none (src :: srcs))
      (lastBuild fx fqn name (build fx fqn name none src) srcs) :=
  (Run.first rfl (symbol_soleSymbol fqn name _)).append srcs

/-- A record built twice with one shape, and then, as version 5, with another one. -/
theorem rebuilt_is_faithful :
    let first := Source.record none [⟨"x", "Int"⟩] []
    let rest := [first, Source.record (some 5) [⟨"x", "Bool"⟩] []]
    let ws := lastBuild fxHasher "m" "T" (build fxHasher "m" "T" none first) rest
    let builds := buildAll fxHasher "m" "T" none (first :: rest)
    ∃ last v, builds.getLast? = some (last, ws) ∧ prevVersioned (some ws) "m" "T" = some v ∧
      FaithfulLog fxHasher "m" "T" builds v.entries (last.lookup (historyOf ws) "m" "T") := by
  intro first rest ws builds
  refine history_is_faithful (run_buildAll fxHasher "m" "T" first rest) ?_ ?_
  · intro b hb
    change b ∈ [(first, _), (first, _), (rest[1], _)] at hb
    simp only [mem_cons, not_mem_nil, or_false] at hb
    rcases hb with rfl | rfl | rfl <;> trivial
  · show InRange none [first, rest[1]]
    exact ⟨by decide, by decide, trivial⟩

/-- A `@version` may repeat an ordinal: the history then holds it twice, and a look-up at it no
longer finds the first shape that carried it. -/
theorem repeated_ordinal_breaks_the_history :
    ∃ builds ws v e, Run fxHasher "m" "T" builds ws ∧
      prevVersioned (some ws) "m" "T" = some v ∧ e ∈ v.history ∧
      ¬ v.history.Pairwise (fun a b => a.ordinal < b.ordinal) ∧
      ((historyOf ws).lookupRecord "m" "T" e.ordinal).map VersionSnap.shape ≠ some e.shape := by
  let srcs : List Source := [.record (some 1) [⟨"x", "Bool"⟩] [], .record none [⟨"x", "Text"⟩] []]
  refine ⟨_, _, _, _, run_buildAll fxHasher "m" "T" (.record none [⟨"x", "Int"⟩] []) srcs, rfl,
    mem_cons_self, ?_, ?_⟩
  · show ¬ List.Pairwise _ [_, _]
    intro h
    have hlt := (pairwise_cons.mp h).1 _ (mem_singleton_self _)
    exact absurd hlt (by decide)
  · decide

end Ridge.Reload
