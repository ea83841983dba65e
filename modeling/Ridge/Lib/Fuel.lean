import Mathlib.Order.Basic
import Mathlib.Data.List.Basic

/-!
# Fuel

A function that may run forever is written here with a fuel argument and an optional result.
`Converges f a` says that `f` answers `a` from some amount of fuel on: the program returns `a`.
The rules below push convergence through the combinators such functions are built from.
-/

namespace Ridge

open List

variable {α β : Type} {f : Nat → Option α}

/-- With enough fuel, `f` answers `a`. -/
def Converges (f : Nat → Option α) (a : α) : Prop := ∃ N, ∀ n, N ≤ n → f n = some a

/-- With enough fuel, `f` answers. -/
def Terminates (f : Nat → Option α) : Prop := ∃ a, Converges f a

namespace Converges

theorem const (a : α) : Converges (fun _ => some a) a := ⟨0, fun _ _ => rfl⟩

variable {g : Nat → Option α} {a : α}

/-- One unit of fuel spent on a call. -/
theorem step (hg : Converges g a) (h : ∀ n, f (n + 1) = g n) : Converges f a := by
  obtain ⟨N, hN⟩ := hg
  refine ⟨N + 1, fun n hn => ?_⟩
  obtain ⟨m, rfl⟩ : ∃ m, n = m + 1 := ⟨n - 1, by omega⟩
  rw [h, hN m (by omega)]

theorem bind {g : Nat → α → Option β} {b : β} (hf : Converges f a)
    (hg : Converges (fun n => g n a) b) : Converges (fun n => (f n).bind (g n)) b := by
  obtain ⟨N, hN⟩ := hf
  obtain ⟨M, hM⟩ := hg
  refine ⟨max N M, fun n hn => ?_⟩
  show (f n).bind (g n) = some b
  rw [hN n (by omega), Option.bind_some]
  exact hM n (by omega)

theorem map (hf : Converges f a) (g : α → β) : Converges (fun n => (f n).map g) (g a) := by
  obtain ⟨N, hN⟩ := hf
  refine ⟨N, fun n hn => ?_⟩
  show (f n).map g = some (g a)
  rw [hN n hn, Option.map_some]

theorem congr (hf : Converges f a) (h : ∀ n, g n = f n) : Converges g a := by
  obtain ⟨N, hN⟩ := hf
  exact ⟨N, fun n hn => by rw [h, hN n hn]⟩

/-- A computation that answers at all answers its limit, once its answers do not change. -/
theorem eq_of_eq {a b : α} (ha : Converges f a) (hb : Converges f b) : a = b := by
  obtain ⟨N, hN⟩ := ha
  obtain ⟨M, hM⟩ := hb
  have h := hN (max N M) (by omega)
  rw [hM _ (by omega)] at h
  exact (Option.some.inj h).symm

end Converges

/-! ## Lists -/

theorem terminates_mapM {f : Nat → α → Option β} :
    ∀ {l : List α}, (∀ a ∈ l, Terminates fun n => f n a) → Terminates fun n => l.mapM (f n)
  | [], _ => ⟨[], ⟨0, fun _ _ => rfl⟩⟩
  | a :: l, h => by
    obtain ⟨b, hb⟩ := h a mem_cons_self
    obtain ⟨bs, hbs⟩ := terminates_mapM (l := l) fun x hx => h x (mem_cons_of_mem a hx)
    refine ⟨b :: bs, (hb.bind (g := fun n b => (l.mapM (f n)).bind fun bs => some (b :: bs))
      (hbs.bind (.const _))).congr fun n => ?_⟩
    rw [mapM_cons]
    rfl

theorem terminates_anyM {f : Nat → α → Option Bool} :
    ∀ {l : List α}, (∀ a ∈ l, Terminates fun n => f n a) → Terminates fun n => l.anyM (f n)
  | [], _ => ⟨false, ⟨0, fun _ _ => rfl⟩⟩
  | a :: l, h => by
    obtain ⟨b, hb⟩ := h a mem_cons_self
    obtain ⟨bs, hbs⟩ := terminates_anyM (l := l) fun x hx => h x (mem_cons_of_mem a hx)
    refine ⟨if b then true else bs,
      (hb.bind (g := fun n b => if b then some true else l.anyM (f n)) ?_).congr fun n => ?_⟩
    · cases b with
      | true => exact .const true
      | false => exact hbs
    · rw [anyM_cons]
      show (f n a).bind _ = (f n a).bind _
      congr 1

theorem terminates_foldlM {f : Nat → β → α → Option β} :
    ∀ {l : List α} (b : β), (∀ b, ∀ a ∈ l, Terminates fun n => f n b a) →
      Terminates fun n => l.foldlM (f n) b
  | [], b, _ => ⟨b, ⟨0, fun _ _ => rfl⟩⟩
  | a :: l, b, h => by
    obtain ⟨c, hc⟩ := h b a mem_cons_self
    obtain ⟨d, hd⟩ :=
      terminates_foldlM (l := l) c fun b x hx => h b x (mem_cons_of_mem a hx)
    refine ⟨d, (hc.bind (g := fun n c => l.foldlM (f n) c) hd).congr fun n => ?_⟩
    rw [foldlM_cons]
    rfl

end Ridge
