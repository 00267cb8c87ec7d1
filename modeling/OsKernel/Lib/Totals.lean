import Mathlib.Algebra.BigOperators.Group.Finset.Piecewise
import Mathlib.Algebra.Order.BigOperators.Group.Finset
import Mathlib.Data.Fintype.Basic
import Mathlib.Logic.Function.Basic

/-!
# Totals over the agents

Every agent of a system is in some local state, and `total f` adds up what the local states
contribute. A step of one agent exchanges its contribution.

With these, a number that several agents change in pieces can be compared with what they are
in the middle of: each piece that is missing is the contribution of the agent that has still
to add it. As in `Lib/RefGraph.lean`, the equations are sums on both sides.
-/

set_option autoImplicit false

namespace OsKernel.Lib

variable {T σ : Type} [Fintype T] {f : σ → Nat} {x : T → σ}

def total (f : σ → Nat) (x : T → σ) : Nat := ∑ t, f (x t)

theorem le_total (t : T) : f (x t) ≤ total f x :=
  Finset.single_le_sum (f := fun t => f (x t)) (fun _ _ => Nat.zero_le _) (Finset.mem_univ t)

theorem total_eq_zero_iff : total f x = 0 ↔ ∀ t, f (x t) = 0 := by
  unfold total
  rw [Finset.sum_eq_zero_iff]
  exact ⟨fun h t => h t (Finset.mem_univ t), fun h t _ => h t⟩

/-- Only one agent contributes. -/
theorem total_single {t : T} (h : ∀ u, u ≠ t → f (x u) = 0) : total f x = f (x t) :=
  Finset.sum_eq_single t (fun u _ hu => h u hu) fun ht => absurd (Finset.mem_univ t) ht

/-- Agents that contribute one each, and each has a place of its own. -/
theorem total_le_card {α : Type} [DecidableEq α] {S : Finset α} (place : T → α)
    (hone : ∀ t, f (x t) ≤ 1) (hmem : ∀ t, 0 < f (x t) → place t ∈ S)
    (hinj : ∀ t u, 0 < f (x t) → 0 < f (x u) → place t = place u → t = u) :
    total f x ≤ S.card := by
  have hcard : total f x = (Finset.univ.filter fun t => 0 < f (x t)).card := by
    unfold total
    rw [Finset.card_filter]
    refine Finset.sum_congr rfl fun t _ => ?_
    have h1 := hone t
    split <;> omega
  rw [hcard]
  refine Finset.card_le_card_of_injOn place (fun t ht => ?_) fun t ht u hu heq => ?_
  · exact hmem t (Finset.mem_filter.mp ht).2
  · exact hinj t u (Finset.mem_filter.mp ht).2 (Finset.mem_filter.mp hu).2 heq

variable [DecidableEq T]

/-- Two agents contribute. -/
theorem add_le_total {t u : T} (h : u ≠ t) : f (x t) + f (x u) ≤ total f x := by
  unfold total
  rw [← Finset.add_sum_erase _ _ (Finset.mem_univ t)]
  have hu : u ∈ Finset.univ.erase t := Finset.mem_erase.mpr ⟨h, Finset.mem_univ u⟩
  exact Nat.add_le_add_left
    (Finset.single_le_sum (f := fun t => f (x t)) (fun _ _ => Nat.zero_le _) hu) _

/-- A step of one agent. -/
theorem total_update (t : T) (v : σ) :
    total f (Function.update x t v) + f (x t) = total f x + f v := by
  have hrest : ∑ u ∈ Finset.univ.erase t, f (Function.update x t v u) =
      ∑ u ∈ Finset.univ.erase t, f (x u) :=
    Finset.sum_congr rfl fun u hu => by rw [Function.update_of_ne (Finset.ne_of_mem_erase hu)]
  unfold total
  rw [← Finset.add_sum_erase _ _ (Finset.mem_univ t), ← Finset.add_sum_erase _ _ (Finset.mem_univ t),
    hrest, Function.update_self]
  omega

/-- An agent that contributes what it did before. -/
theorem total_keep {t : T} {v : σ} (h : f v = f (x t)) :
    total f (Function.update x t v) = total f x := by
  have hup := total_update (f := f) (x := x) t v
  omega

end OsKernel.Lib
