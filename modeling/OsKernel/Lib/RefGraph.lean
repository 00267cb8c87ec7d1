import Mathlib.Algebra.BigOperators.Group.Finset.Basic
import Mathlib.Algebra.BigOperators.Group.Finset.Piecewise
import Mathlib.Data.Finset.Card
import Mathlib.Algebra.Order.BigOperators.Group.Finset
import Mathlib.Order.Interval.Finset.Nat

/-!
# Counting references in a graph of arrays

Every node of the graph is an array of `n` optional references to other nodes; besides, a node
may be a root. `names` counts the places that refer to a node, each array slot and each root
once. This is the number a reference counter is supposed to hold, and the lemmas say how it
moves when a slot is overwritten and when a node joins or leaves.

The lemmas are equations without subtraction, a sum on each side, so `omega` can use them for
counts that go up and counts that go down. Nodes need not be reachable and cycles are allowed;
there is no statement here about garbage.
-/

set_option autoImplicit false

namespace OsKernel.Lib.RefGraph

variable {α : Type} [DecidableEq α]

/-- How many of the first `n` slots refer to `p`. -/
def hits (n : Nat) (e : Nat → Option α) (p : α) : Nat :=
  ((Finset.range n).filter fun i => e i = some p).card

/-- How many of the slots from `k` to `n` refer to `p`. -/
def hitsFrom (k n : Nat) (e : Nat → Option α) (p : α) : Nat :=
  ((Finset.Ico k n).filter fun i => e i = some p).card

theorem hits_eq_hitsFrom (n : Nat) (e : Nat → Option α) (p : α) :
    hits n e p = hitsFrom 0 n e p := by
  unfold hits hitsFrom
  rw [Finset.range_eq_Ico]

theorem hits_pos_iff {n : Nat} {e : Nat → Option α} {p : α} :
    0 < hits n e p ↔ ∃ i, i < n ∧ e i = some p := by
  unfold hits
  rw [Finset.card_pos]
  constructor
  · rintro ⟨i, hi⟩
    rw [Finset.mem_filter, Finset.mem_range] at hi
    exact ⟨i, hi⟩
  · rintro ⟨i, hi⟩
    exact ⟨i, by rw [Finset.mem_filter, Finset.mem_range]; exact hi⟩

theorem hits_congr {n : Nat} {e e' : Nat → Option α} (h : ∀ i, i < n → e' i = e i) (p : α) :
    hits n e' p = hits n e p := by
  unfold hits
  rw [Finset.filter_congr fun i hi => by rw [h i (Finset.mem_range.mp hi)]]

theorem hits_none {n : Nat} {e : Nat → Option α} (h : ∀ i, i < n → e i = none) (p : α) :
    hits n e p = 0 := by
  by_contra hne
  obtain ⟨i, hi, he⟩ := hits_pos_iff.mp (Nat.pos_of_ne_zero hne)
  rw [h i hi] at he
  exact absurd he (by simp)

theorem hitsFrom_self (n : Nat) (e : Nat → Option α) (p : α) : hitsFrom n n e p = 0 := by
  unfold hitsFrom
  rw [Finset.Ico_self, Finset.filter_empty, Finset.card_empty]

theorem hitsFrom_step {k n : Nat} (hk : k < n) (e : Nat → Option α) (p : α) :
    hitsFrom k n e p = hitsFrom (k + 1) n e p + if e k = some p then 1 else 0 := by
  have hset : Finset.Ico k n = insert k (Finset.Ico (k + 1) n) := by
    ext i
    rw [Finset.mem_insert, Finset.mem_Ico, Finset.mem_Ico]
    omega
  unfold hitsFrom
  rw [hset, Finset.filter_insert]
  split
  · rw [Finset.card_insert_of_notMem (by simp)]
  · rfl

/-- Overwriting a slot moves one reference. -/
theorem hits_update {n i : Nat} (hi : i < n) (e : Nat → Option α) (v : Option α) (p : α) :
    hits n (Function.update e i v) p + (if e i = some p then 1 else 0) =
      hits n e p + if v = some p then 1 else 0 := by
  have hsplit : ∀ f : Nat → Option α, hits n f p =
      (((Finset.range n).erase i).filter fun j => f j = some p).card +
        if f i = some p then 1 else 0 := by
    intro f
    unfold hits
    conv_lhs => rw [← Finset.insert_erase (Finset.mem_range.mpr hi)]
    rw [Finset.filter_insert]
    split
    · rw [Finset.card_insert_of_notMem (by simp)]
    · rfl
  have hrest : ((Finset.range n).erase i).filter (fun j => Function.update e i v j = some p) =
      ((Finset.range n).erase i).filter fun j => e j = some p :=
    Finset.filter_congr fun j hj => by
      rw [Function.update_of_ne (Finset.ne_of_mem_erase hj)]
  rw [hsplit (Function.update e i v), hsplit e, hrest, Function.update_self]
  omega

/-- The number of places that refer to `p`. -/
def names (n : Nat) (roots nodes : Finset α) (ref : α → Nat → Option α) (p : α) : Nat :=
  (if p ∈ roots then 1 else 0) + ∑ x ∈ nodes, hits n (ref x) p

variable {n : Nat} {roots nodes : Finset α} {ref ref' : α → Nat → Option α}

theorem names_congr (h : ∀ x ∈ nodes, ∀ i, i < n → ref' x i = ref x i) (p : α) :
    names n roots nodes ref' p = names n roots nodes ref p := by
  unfold names
  rw [Finset.sum_congr rfl fun x hx => hits_congr (h x hx) p]

/-- Fewer nodes, fewer references. -/
theorem names_mono {nodes' : Finset α} (h : nodes ⊆ nodes') (p : α) :
    names n roots nodes ref p ≤ names n roots nodes' ref p :=
  Nat.add_le_add_left (Finset.sum_le_sum_of_subset h) _

theorem names_pos_iff {p : α} : 0 < names n roots nodes ref p ↔
    p ∈ roots ∨ ∃ x ∈ nodes, ∃ i, i < n ∧ ref x i = some p := by
  unfold names
  constructor
  · intro h
    by_cases hp : p ∈ roots
    · exact Or.inl hp
    · rw [if_neg hp, Nat.zero_add] at h
      obtain ⟨x, hx, hpos⟩ := Finset.exists_ne_zero_of_sum_ne_zero (Nat.pos_iff_ne_zero.mp h)
      exact Or.inr ⟨x, hx, hits_pos_iff.mp (Nat.pos_of_ne_zero hpos)⟩
  · rintro (hp | ⟨x, hx, hi⟩)
    · rw [if_pos hp]
      omega
    · have h1 := hits_pos_iff.mpr hi
      have h2 := Finset.single_le_sum (f := fun x => hits n (ref x) p)
        (fun _ _ => Nat.zero_le _) hx
      omega

/-- Overwriting slot `i` of `x` moves one reference. -/
theorem names_set {x : α} {i : Nat} (hx : x ∈ nodes) (hi : i < n) (v : Option α)
    (hx' : ref' x i = v) (ho : ∀ j, j < n → j ≠ i → ref' x j = ref x j)
    (hn : ∀ y ∈ nodes, y ≠ x → ∀ j, j < n → ref' y j = ref y j) (p : α) :
    names n roots nodes ref' p + (if ref x i = some p then 1 else 0) =
      names n roots nodes ref p + if v = some p then 1 else 0 := by
  unfold names
  rw [← Finset.add_sum_erase _ _ hx, ← Finset.add_sum_erase _ _ hx]
  have hrest : ∑ y ∈ nodes.erase x, hits n (ref' y) p = ∑ y ∈ nodes.erase x, hits n (ref y) p :=
    Finset.sum_congr rfl fun y hy => hits_congr
      (hn y (Finset.mem_of_mem_erase hy) (Finset.ne_of_mem_erase hy)) p
  have hx2 : hits n (ref' x) p = hits n (Function.update (ref x) i v) p :=
    hits_congr (fun j hj => by
      by_cases hji : j = i
      · rw [hji, Function.update_self, hx']
      · rw [Function.update_of_ne hji, ho j hj hji]) p
  have hu := hits_update hi (ref x) v p
  rw [hrest, hx2]
  omega

/-- A node that joins brings its slots. -/
theorem names_insert {x : α} (hx : x ∉ nodes) (p : α) :
    names n roots (insert x nodes) ref p = names n roots nodes ref p + hits n (ref x) p := by
  unfold names
  rw [Finset.sum_insert hx]
  omega

/-- A node that leaves takes its slots. -/
theorem names_erase {x : α} (hx : x ∈ nodes) (p : α) :
    names n roots (nodes.erase x) ref p + hits n (ref x) p = names n roots nodes ref p := by
  unfold names
  rw [← Finset.add_sum_erase _ _ hx]
  omega

theorem names_insert_root {r : α} (hr : r ∉ roots) (p : α) :
    names n (insert r roots) nodes ref p =
      names n roots nodes ref p + if p = r then 1 else 0 := by
  unfold names
  by_cases hp : p = r
  · rw [if_pos hp, hp, if_pos (Finset.mem_insert_self r roots), if_neg hr]
    omega
  · simp [hp]

theorem names_erase_root {r : α} (hr : r ∈ roots) (p : α) :
    names n (roots.erase r) nodes ref p + (if p = r then 1 else 0) =
      names n roots nodes ref p := by
  unfold names
  by_cases hp : p = r
  · rw [if_pos hp, hp, if_pos hr, if_neg (Finset.notMem_erase r roots)]
    omega
  · simp [hp]

/-- What is named in one place only is not named in another. -/
theorem names_place {p : α} (h1 : names n roots nodes ref p = 1) {x y : α} {i j : Nat}
    (hx : x ∈ nodes) (hi : i < n) (hxi : ref x i = some p)
    (hy : y ∈ nodes) (hj : j < n) (hyj : ref y j = some p) : x = y ∧ i = j := by
  -- take the reference at `(x, i)` out; nothing is left to name `p`
  have hset := @names_set α _ n roots nodes ref
    (Function.update ref x (Function.update (ref x) i none)) x i hx hi none
    (by rw [Function.update_self, Function.update_self])
    (fun k _ hk => by rw [Function.update_self, Function.update_of_ne hk])
    (fun z _ hz k _ => by rw [Function.update_of_ne hz]) p
  rw [if_pos hxi, h1, if_neg (by simp)] at hset
  by_contra hne
  have hpos : 0 < names n roots nodes
      (Function.update ref x (Function.update (ref x) i none)) p := by
    refine names_pos_iff.mpr (Or.inr ⟨y, hy, j, hj, ?_⟩)
    by_cases hyx : y = x
    · have hji : j ≠ i := fun h => hne ⟨hyx.symm, h.symm⟩
      rw [hyx, Function.update_self, Function.update_of_ne hji, ← hyx]
      exact hyj
    · rw [Function.update_of_ne hyx]
      exact hyj
  omega

/- The counts are reasoned about by the lemmas above and never computed. -/
attribute [irreducible] hits hitsFrom

end OsKernel.Lib.RefGraph
