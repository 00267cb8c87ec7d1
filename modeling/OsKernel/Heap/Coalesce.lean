import Mathlib.Data.List.Perm.Basic
import OsKernel.Heap.Runs

/-!
# The order in which blocks are given back

Free blocks never touch, so the blocks in use determine the free ones, whichever way they were
merged.

No argument about orders is needed for it. Two heaps with the same blocks in use have the same
blocks (`Layout.eq_of_taken`), and the blocks in use after some have been given back do not
depend on the order. The list does, and so do the words left in payloads; the statement is
about the blocks.
-/

set_option autoImplicit false

namespace OsKernel.KernelHeap

open Lib Prog

variable {h h' : Heap} {blk blk' : Blocks} {links links' l l' : List Int}
variable {s t : State} {base bytes : Word} {len : Int}

/-- The blocks in use determine the blocks. -/
theorem Layout.eq_of_taken (L : Layout h blk) (L' : Layout h' blk') (hlen : h'.len = h.len)
    (htaken : ∀ i b, b.free = false → (blk i = some b ↔ blk' i = some b)) : blk = blk' := by
  refine Tiling.eq_of_apart L.tiling (hlen ▸ L'.tiling) L.apart L'.apart htaken ?_
  rintro ⟨n, f⟩ ⟨n', f'⟩ hf hf' hsize
  obtain rfl : f = true := hf
  obtain rfl : f' = true := hf'
  obtain rfl : n = n' := hsize
  rfl

/-- The blocks of `l` are given back in this order. -/
def State.frees (s : State) (l : List Int) : List Op := l.map fun i => .free (s.heap.pointer i)

/-- One block is given back. -/
theorem Good.free_step (g : Good base len s blk links) {i : Int} (hi : s.live i = true) :
    ∃ t blk' links', KernelHeap.step s (.free (s.heap.pointer i)) = some t ∧ Good base len t blk' links' ∧
      t.heap.base = s.heap.base ∧ t.live = Function.update s.live i false ∧
      ∀ j b, b.free = false → (blk' j = some b ↔ blk j = some b ∧ j ≠ i) := by
  obtain ⟨b, hb, -, h2, hend, hbig⟩ := g.block hi
  have hlen := g.len_eq
  have hne := pointer_ne g.inv.fits (i := i) (by omega) (by omega)
  have hidx := index_pointer g.inv.fits (i := i) (by omega) (by omega)
  obtain ⟨h', hr, blk', links', I, v⟩ := g.free_returns hi
  refine ⟨s.giveBack h' i, blk', links', ?_, g.free hi I v, v.base, rfl, v.taken⟩
  simp only [KernelHeap.step]
  rw [if_neg (not_or.mpr hne), hidx, if_pos ⟨hi, rfl⟩, hr]

/-- The blocks of a list are given back. -/
theorem Good.free_all (g : Good base len s blk links) (hl : ∀ i ∈ l, s.live i = true)
    (hnodup : l.Nodup) :
    ∃ t blk' links', runs KernelHeap.step s (s.frees l) = some t ∧ Good base len t blk' links' ∧
      ∀ j b, b.free = false → (blk' j = some b ↔ blk j = some b ∧ j ∉ l) := by
  induction l generalizing s blk links with
  | nil =>
    exact ⟨s, blk, links, rfl, g, fun j b _ => ⟨fun h => ⟨h, List.not_mem_nil⟩, fun h => h.1⟩⟩
  | cons i l ih =>
    obtain ⟨hni, hnodup⟩ := List.nodup_cons.mp hnodup
    obtain ⟨u, blk₁, links₁, hstep, g₁, hbase, hlive, htaken⟩ :=
      g.free_step (hl i List.mem_cons_self)
    have hl₁ : ∀ j ∈ l, u.live j = true := by
      intro j hj
      have hji : j ≠ i := by
        rintro rfl
        exact hni hj
      rw [hlive, Function.update_of_ne hji]
      exact hl j (List.mem_cons_of_mem _ hj)
    obtain ⟨t, blk', links', hr, g', htaken'⟩ := ih g₁ hl₁ hnodup
    have hfrees : s.frees l = u.frees l := by
      unfold State.frees Heap.pointer
      rw [hbase]
    refine ⟨t, blk', links', ?_, g', fun j b hb => ?_⟩
    · show runs KernelHeap.step s (.free (s.heap.pointer i) :: s.frees l) = some t
      rw [hfrees]
      exact runs_cons.mpr ⟨u, hstep, hr⟩
    · rw [htaken' j b hb, htaken j b hb, List.mem_cons, not_or, and_assoc]

/-- Once everything is given back, the heap is one free block between its two ends. -/
theorem Good.blocks_of_none (g : Good base len s blk links) (hnone : ∀ i, s.live i = false) :
    blk = initialBlocks len := by
  have hlen := g.len_eq
  have hroom := g.inv.room
  have I : Inv (initialHeap s.heap.base len s.heap.cells) (initialBlocks len) [2] :=
    initialHeap_inv (by omega) (hlen ▸ g.inv.fits)
  refine g.inv.eq_of_taken I.toLayout hlen.symm fun i b hb => ?_
  rw [initialBlocks_eq (by omega)]
  constructor
  · intro hi
    by_cases h0 : i = 0
    · subst h0
      have hfirst := g.inv.first
      rw [hi] at hfirst
      exact .inl ⟨rfl, Option.some.inj hfirst⟩
    · by_cases hl : i = len - 2
      · have hlast := g.inv.last
        rw [hlen, ← hl, hi] at hlast
        exact .inr (.inr ⟨hl, Option.some.inj hlast⟩)
      · have hlive := (g.live i).mpr ⟨b, hi, hb, h0, hl⟩
        rw [hnone i] at hlive
        cases hlive
  · rintro (⟨rfl, rfl⟩ | ⟨-, rfl⟩ | ⟨rfl, rfl⟩)
    · exact g.inv.first
    · cases hb
    · rw [← hlen]
      exact g.inv.last

/-- Blocks given back in any order leave the same blocks, and one free block if they were all that
was in use. -/
theorem free_any_order (hs : Reachable base bytes s) (hl : ∀ i ∈ l, s.live i = true)
    (hnodup : l.Nodup) (hperm : l.Perm l') :
    ∃ t t' blk links links', runs step s (s.frees l) = some t ∧
      runs step s (s.frees l') = some t' ∧ Inv t.heap blk links ∧ Inv t'.heap blk links' ∧
      ((∀ i, s.live i = true → i ∈ l) → ∀ i b, blk i = some b ↔
        (i = 0 ∧ b = ⟨2, false⟩) ∨ (i = 2 ∧ b = ⟨t.heap.len - 4, true⟩) ∨
          (i = t.heap.len - 2 ∧ b = ⟨2, false⟩)) := by
  obtain ⟨blk₀, links₀, g₀⟩ := hs.good
  obtain ⟨t, blk, links, hr, g, htaken⟩ := g₀.free_all hl hnodup
  obtain ⟨t', blk', links', hr', g', htaken'⟩ :=
    g₀.free_all (fun i hi => hl i (hperm.mem_iff.mpr hi)) (hperm.nodup_iff.mp hnodup)
  have heq : blk' = blk := by
    refine g'.inv.eq_of_taken g.inv.toLayout (g.len_eq.trans g'.len_eq.symm) fun i b hb => ?_
    rw [htaken i b hb, htaken' i b hb, hperm.mem_iff]
  refine ⟨t, t', blk, links, links', hr, hr', g.inv, heq ▸ g'.inv, fun hall i b => ?_⟩
  have hnone : ∀ i, t.live i = false := by
    intro j
    by_contra hj
    obtain ⟨c, hc, hcf, h0, hl⟩ := (g.live j).mp (by simpa using hj)
    obtain ⟨hc₀, hout⟩ := (htaken j c hcf).mp hc
    exact hout (hall j ((g₀.live j).mpr ⟨c, hc₀, hcf, h0, hl⟩))
  have hroom := g.inv.room
  rw [g.blocks_of_none hnone, ← g.len_eq]
  exact initialBlocks_eq hroom

/-- The lock and two blocks, given back in two orders. -/
theorem free_any_order_three : ∃ s, Reachable 0x1000#32 256#32 s ∧
    ∃ t t' blk links links', runs step s (s.frees [2, 6, 10]) = some t ∧
      runs step s (s.frees [10, 2, 6]) = some t' ∧ Inv t.heap blk links ∧ Inv t'.heap blk links' ∧
      ((∀ i, s.live i = true → i ∈ [2, 6, 10]) → ∀ i b, blk i = some b ↔
        (i = 0 ∧ b = ⟨2, false⟩) ∨ (i = 2 ∧ b = ⟨t.heap.len - 4, true⟩) ∨
          (i = t.heap.len - 2 ∧ b = ⟨2, false⟩)) := by
  obtain ⟨s, hs, hlive⟩ := reachable_of_eval [.malloc 8#32, .malloc 8#32]
    (fun s => s.live 2 && s.live 6 && s.live 10) (by decide +kernel)
  obtain ⟨h26, h10⟩ := Bool.and_eq_true_iff.mp hlive
  obtain ⟨h2, h6⟩ := Bool.and_eq_true_iff.mp h26
  refine ⟨s, hs, free_any_order hs (fun i hi => ?_) (by decide) (by decide)⟩
  simp only [List.mem_cons, List.not_mem_nil, or_false] at hi
  rcases hi with rfl | rfl | rfl
  · exact h2
  · exact h6
  · exact h10

end OsKernel.KernelHeap
