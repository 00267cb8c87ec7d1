import Mathlib.Algebra.GroupWithZero.Nat
import Mathlib.Data.List.Basic

/-!
# Doubly linked lists

Nodes with a next and a previous node each, and a node `nil` that ends a list. `Seg` is a
segment: its nodes in order, the node in front of it and the node behind it. A list is a
segment from `nil` to `nil`. The links of other nodes do not matter, so a segment is kept by
whatever leaves the links of its own nodes alone.

Links are functions, whatever holds them. Removing a node and putting one at the head change
links of at most two other nodes, and are stated by what the new links are at each node; a
program whose stores come to that has done it, in any order.
-/

set_option autoImplicit false

namespace OsKernel.Lib

variable {ν : Type}

/-- The nodes `l` from `h` on, behind `p`; `q` is the last of them and `r` follows. -/
def Seg (next prev : ν → ν) : ν → ν → List ν → ν → ν → Prop
  | p, h, [], q, r => h = r ∧ q = p
  | p, h, i :: l, q, r => h = i ∧ prev i = p ∧ Seg next prev i (next i) l q r

variable {next prev next' prev' : ν → ν} {p h q r : ν} {l l' : List ν} {i : ν}

theorem seg_append :
    Seg next prev p h (l ++ l') q r ↔
      ∃ q' r', Seg next prev p h l q' r' ∧ Seg next prev q' r' l' q r := by
  induction l generalizing p h with
  | nil =>
    refine ⟨fun hs => ⟨p, h, ⟨rfl, rfl⟩, hs⟩, ?_⟩
    rintro ⟨q', r', ⟨rfl, rfl⟩, hs⟩
    exact hs
  | cons i l ih =>
    show (h = i ∧ prev i = p ∧ Seg next prev i (next i) (l ++ l') q r) ↔ _
    rw [ih]
    constructor
    · rintro ⟨rfl, hp, q', r', hs, hs'⟩
      exact ⟨q', r', ⟨rfl, hp, hs⟩, hs'⟩
    · rintro ⟨q', r', ⟨rfl, hp, hs⟩, hs'⟩
      exact ⟨rfl, hp, q', r', hs, hs'⟩

theorem Seg.congr (hs : Seg next prev p h l q r)
    (heq : ∀ i ∈ l, next' i = next i ∧ prev' i = prev i) : Seg next' prev' p h l q r := by
  induction l generalizing p h with
  | nil => exact hs
  | cons i l ih =>
    obtain ⟨rfl, hp, hs⟩ := hs
    have hi := heq h List.mem_cons_self
    refine ⟨rfl, hi.2.trans hp, ?_⟩
    rw [hi.1]
    exact ih hs fun j hj => heq j (List.mem_cons_of_mem _ hj)

/-- The last node of a segment is one of its nodes, if there is any. -/
theorem Seg.last_mem (hs : Seg next prev p h l q r) : q = p ∧ l = [] ∧ h = r ∨ q ∈ l := by
  induction l generalizing p h with
  | nil => exact .inl ⟨hs.2, rfl, hs.1⟩
  | cons i l ih =>
    obtain ⟨rfl, -, hs⟩ := hs
    rcases ih hs with ⟨rfl, -, -⟩ | hq
    · exact .inr List.mem_cons_self
    · exact .inr (List.mem_cons_of_mem _ hq)

/-- The last node gets another successor. -/
theorem Seg.retarget {r' : ν} (hs : Seg next prev p h l q r) (hne : l ≠ []) (hnodup : l.Nodup)
    (hlast : next' q = r') (heq : ∀ i ∈ l, (i ≠ q → next' i = next i) ∧ prev' i = prev i) :
    Seg next' prev' p h l q r' := by
  induction l generalizing p h with
  | nil => exact absurd rfl hne
  | cons i l ih =>
    obtain ⟨rfl, hp, hs⟩ := hs
    have hi := heq h List.mem_cons_self
    refine ⟨rfl, hi.2.trans hp, ?_⟩
    cases l with
    | nil =>
      obtain ⟨-, rfl⟩ := hs
      exact ⟨hlast, rfl⟩
    | cons j l =>
      have hq : h ≠ q := by
        rintro rfl
        rcases hs.last_mem with ⟨-, hnil, -⟩ | hmem
        · cases hnil
        · exact (List.nodup_cons.mp hnodup).1 hmem
      rw [hi.1 hq]
      exact ih hs (List.cons_ne_nil j l) (List.nodup_cons.mp hnodup).2
        fun k hk => heq k (List.mem_cons_of_mem _ hk)

/-- The first node gets another predecessor. -/
theorem Seg.repoint {p' : ν} (hs : Seg next prev p h l q r) (hne : l ≠ []) (hnodup : l.Nodup)
    (hfirst : prev' h = p') (heq : ∀ i ∈ l, next' i = next i ∧ (i ≠ h → prev' i = prev i)) :
    Seg next' prev' p' h l q r := by
  cases l with
  | nil => exact absurd rfl hne
  | cons i l =>
    obtain ⟨rfl, -, hs⟩ := hs
    refine ⟨rfl, hfirst, ?_⟩
    rw [(heq h List.mem_cons_self).1]
    refine hs.congr fun j hj => ?_
    have hj' := heq j (List.mem_cons_of_mem _ hj)
    refine ⟨hj'.1, hj'.2 ?_⟩
    rintro rfl
    exact (List.nodup_cons.mp hnodup).1 hj

variable {nil : ν}

/-- A whole list. -/
def Linked (next prev : ν → ν) (nil head : ν) (l : List ν) : Prop :=
  l.Nodup ∧ nil ∉ l ∧ ∃ q, Seg next prev nil head l q nil

variable {head : ν}

theorem Linked.congr (hl : Linked next prev nil head l)
    (heq : ∀ i ∈ l, next' i = next i ∧ prev' i = prev i) : Linked next' prev' nil head l := by
  obtain ⟨hnodup, hnil, q, hs⟩ := hl
  exact ⟨hnodup, hnil, q, hs.congr heq⟩

/-- The head is `nil` exactly if nothing is in the list. -/
theorem Linked.head_eq_nil (hl : Linked next prev nil head l) : head = nil ↔ l = [] := by
  obtain ⟨-, hnil, q, hs⟩ := hl
  cases l with
  | nil => exact ⟨fun _ => rfl, fun _ => hs.1⟩
  | cons i l =>
    obtain ⟨rfl, -⟩ := hs
    refine ⟨fun h => ?_, fun h => by cases h⟩
    rw [h] at hnil
    exact absurd List.mem_cons_self hnil

theorem Linked.head_mem (hl : Linked next prev nil head l) (hne : head ≠ nil) : head ∈ l := by
  obtain ⟨-, -, q, hs⟩ := hl
  cases l with
  | nil => exact absurd hs.1 hne
  | cons i l => exact hs.1 ▸ List.mem_cons_self

/-- The list in front of a node and behind it. -/
theorem Linked.split (hl : Linked next prev nil head l) (hi : i ∈ l) :
    ∃ xs ys q, l = xs ++ i :: ys ∧ Seg next prev nil head xs (prev i) i ∧
      Seg next prev i (next i) ys q nil := by
  obtain ⟨-, -, q, hs⟩ := hl
  obtain ⟨xs, ys, rfl⟩ := List.append_of_mem hi
  obtain ⟨q', r', hxs, rfl, hp, hys⟩ := seg_append.mp hs
  exact ⟨xs, ys, q, rfl, hp ▸ hxs, hys⟩

/-- A neighbour of a node is a node of the list, or `nil`. -/
theorem Linked.neighbours (hl : Linked next prev nil head l) (hi : i ∈ l) :
    (prev i = nil ∨ prev i ∈ l) ∧ (next i = nil ∨ next i ∈ l) := by
  obtain ⟨xs, ys, q, rfl, hs, hs'⟩ := hl.split hi
  constructor
  · rcases hs.last_mem with ⟨hp, -, -⟩ | hmem
    · exact .inl hp
    · exact .inr (List.mem_append_left _ hmem)
  · cases ys with
    | nil => exact .inl hs'.1
    | cons j ys =>
      rw [hs'.1]
      exact .inr (List.mem_append_right _ (List.mem_cons_of_mem _ List.mem_cons_self))

variable [DecidableEq ν]

/-- A node taken out: its neighbours are linked with each other. -/
theorem Linked.remove {head' : ν} (hl : Linked next prev nil head l) (hi : i ∈ l)
    (hhead : head' = if prev i = nil then next i else head)
    (hnext : ∀ k ∈ l, k ≠ i → next' k = if k = prev i then next i else next k)
    (hprev : ∀ k ∈ l, k ≠ i → prev' k = if k = next i then prev i else prev k) :
    Linked next' prev' nil head' (l.erase i) := by
  -- the list is `xs`, then `i`, then `ys`: of `xs` only the last link changes, of `ys` only the
  -- first back link
  obtain ⟨xs, ys, q, rfl, hs, hs'⟩ := hl.split hi
  obtain ⟨hnodup, hnil, -⟩ := hl
  have hnd := List.nodup_append.mp hnodup
  have hndy := List.nodup_cons.mp hnd.2.1
  have hmem : ∀ k, k ∈ xs ++ ys ↔ k ∈ xs ++ i :: ys ∧ k ≠ i := by
    intro k
    simp only [List.mem_append, List.mem_cons]
    constructor
    · rintro (hk | hk)
      · exact ⟨.inl hk, hnd.2.2 k hk i List.mem_cons_self⟩
      · exact ⟨.inr (.inr hk), fun h => hndy.1 (h ▸ hk)⟩
    · rintro ⟨hk | rfl | hk, hne⟩
      · exact .inl hk
      · exact absurd rfl hne
      · exact .inr hk
  have hx : ∀ k ∈ xs, k ∈ xs ++ i :: ys ∧ k ≠ i := fun k hk =>
    (hmem k).mp (List.mem_append_left _ hk)
  have hy : ∀ k ∈ ys, k ∈ xs ++ i :: ys ∧ k ≠ i := fun k hk =>
    (hmem k).mp (List.mem_append_right _ hk)
  have hxy : ∀ k ∈ xs, ∀ j ∈ ys, k ≠ j := fun k hk j hj =>
    hnd.2.2 k hk j (List.mem_cons_of_mem _ hj)
  have hnilx : ∀ k ∈ xs ++ i :: ys, k ≠ nil := fun k hk h => hnil (h ▸ hk)
  have hnextin : next i = nil ∨ next i ∈ ys := by
    cases ys with
    | nil => exact .inl hs'.1
    | cons j ys => exact .inr (hs'.1 ▸ List.mem_cons_self)
  have hprevin : prev i = nil ∨ prev i ∈ xs := by
    rcases hs.last_mem with ⟨hp, -, -⟩ | hp
    · exact .inl hp
    · exact .inr hp
  -- up to `i`, the front now leads to what follows `i`
  have hfront : Seg next' prev' nil head' xs (prev i) (next i) := by
    have hkeep : ∀ k ∈ xs, prev' k = prev k := by
      intro k hk
      rw [hprev k (hx k hk).1 (hx k hk).2, if_neg]
      rintro rfl
      rcases hnextin with h | h
      · exact hnilx _ (hx _ hk).1 h
      · exact hxy _ hk _ h rfl
    cases hxs : xs with
    | nil =>
      subst hxs
      obtain ⟨-, hp⟩ := hs
      rw [if_pos hp] at hhead
      exact ⟨hhead, hp⟩
    | cons j xs' =>
      rw [← hxs]
      have hne : xs ≠ [] := by rw [hxs]; exact List.cons_ne_nil _ _
      have hp : prev i ∈ xs := by
        rcases hs.last_mem with ⟨-, h, -⟩ | h
        · exact absurd h hne
        · exact h
      rw [if_neg (hnilx _ (hx _ hp).1)] at hhead
      rw [hhead]
      refine hs.retarget hne hnd.1 ?_ fun k hk => ⟨fun hkp => ?_, hkeep k hk⟩
      · rw [hnext _ (hx _ hp).1 (hx _ hp).2, if_pos rfl]
      · rw [hnext k (hx k hk).1 (hx k hk).2, if_neg hkp]
  -- and the back leads back to what precedes it
  have hback : Seg next' prev' (prev i) (next i) ys (if ys = [] then prev i else q) nil := by
    have hkeep : ∀ k ∈ ys, next' k = next k := by
      intro k hk
      rw [hnext k (hy k hk).1 (hy k hk).2, if_neg]
      rintro rfl
      rcases hprevin with h | h
      · exact hnilx _ (hy _ hk).1 h
      · exact hxy _ h _ hk rfl
    by_cases hys : ys = []
    · subst hys
      exact ⟨hs'.1, if_pos rfl⟩
    · rw [if_neg hys]
      have hn : next i ∈ ys := by
        cases ys with
        | nil => exact absurd rfl hys
        | cons j ys => exact hs'.1 ▸ List.mem_cons_self
      refine hs'.repoint hys hndy.2 ?_ fun k hk => ⟨hkeep k hk, fun hkn => ?_⟩
      · rw [hprev _ (hy _ hn).1 (hy _ hn).2, if_pos rfl]
      · rw [hprev k (hy k hk).1 (hy k hk).2, if_neg hkn]
  have hout : (xs ++ i :: ys).erase i = xs ++ ys := by
    rw [List.erase_append_right _ fun h => hnd.2.2 i h i List.mem_cons_self rfl,
      List.erase_cons_head]
  rw [hout]
  refine ⟨?_, fun h => hnil ((hmem nil).mp h).1, _, seg_append.mpr ⟨_, _, hfront, hback⟩⟩
  exact List.nodup_append.mpr ⟨hnd.1, hndy.2, fun k hk j hj => hxy k hk j hj⟩

/-- A node put at the head. -/
theorem Linked.push (hl : Linked next prev nil head l) (hi : i ∉ l) (hnil : i ≠ nil)
    (hnext : next' i = head) (hprev : prev' i = nil)
    (hother : ∀ k ∈ l, next' k = next k ∧ prev' k = if k = head then i else prev k) :
    Linked next' prev' nil i (i :: l) := by
  obtain ⟨hnodup, hnl, q, hs⟩ := hl
  refine ⟨List.nodup_cons.mpr ⟨hi, hnodup⟩, fun h => ?_, if l = [] then i else q, rfl, hprev, ?_⟩
  · rcases List.mem_cons.mp h with h | h
    · exact hnil h.symm
    · exact hnl h
  · rw [hnext]
    by_cases hne : l = []
    · subst hne
      exact ⟨hs.1, if_pos rfl⟩
    · rw [if_neg hne]
      have hh : head ∈ l := by
        cases l with
        | nil => exact absurd rfl hne
        | cons j l => exact hs.1 ▸ List.mem_cons_self
      refine hs.repoint hne hnodup ?_ fun k hk => ⟨(hother k hk).1, fun hkh => ?_⟩
      · rw [(hother head hh).2, if_pos rfl]
      · rw [(hother k hk).2, if_neg hkh]

end OsKernel.Lib
