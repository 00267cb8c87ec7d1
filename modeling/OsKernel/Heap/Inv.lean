import OsKernel.Heap.Model
import OsKernel.Lib.Linked
import OsKernel.Lib.Tiling

/-!
# The blocks and the free list

What the array means: it is filled by blocks with equal first and last words, and the list
from `avail` on holds the free ones. The lemmas say what each of `remove`, `makeAvail` and
`makeTaken` does to the words of the array.

`Layout` is about the blocks and `Inv` adds the list. They are separate because `malloc` and
`free` go through states with one and without the other: a block is taken out of the list
before its words say that it is taken, and is merged before it is put back. Both are instances
of libraries: a tiling of a range (`Lib/Tiling.lean`), with no two free tiles side by side,
and a list linked through cells (`Lib/Linked.lean`).

The first and the last two words of the array are blocks that are never free. With them every
block that can be handed out has two neighbours, so `left` and `right` need no bounds test;
`free_inside` and what follows from it is how the proofs know.
-/

set_option autoImplicit false

namespace OsKernel.KernelHeap

open Lib Prog

/-! ## The words -/

namespace Heap

variable {h : Heap} {i v n : Int}

@[simp] theorem put_cells (x : Int) : (h.put i v).cells x = if x = i then v else h.cells x :=
  Function.update_apply ..

@[simp] theorem put_base : (h.put i v).base = h.base := rfl
@[simp] theorem put_len : (h.put i v).len = h.len := rfl
@[simp] theorem put_avail : (h.put i v).avail = h.avail := rfl

/-- The size behind a header that was just written. -/
theorem size_put (hn : 0 < n) : (h.put i n).size i = n ∧ (h.put i (-n)).size i = n := by
  simp only [size, put_cells, if_true]
  constructor
  · rw [if_neg (by omega)]
  · rw [if_pos (by omega)]
    omega

theorem makeTaken_cells (hn : 0 < n) (x : Int) :
    (h.makeTaken i n).cells x =
      if x = i + n - 1 then -n else if x = i then -n else h.cells x := by
  simp only [makeTaken, footerFromHeader, (size_put hn).2, put_cells]

@[simp] theorem makeTaken_base : (h.makeTaken i n).base = h.base := rfl
@[simp] theorem makeTaken_len : (h.makeTaken i n).len = h.len := rfl
@[simp] theorem makeTaken_avail : (h.makeTaken i n).avail = h.avail := rfl

theorem makeAvail_cells (hn : 0 < n) (x : Int) :
    (h.makeAvail i n).cells x =
      if h.avail ≠ 0 ∧ x = h.avail + 2 then i
      else if x = i + 2 then 0
      else if x = i + 1 then h.avail
      else if x = i + n - 1 then n
      else if x = i then n else h.cells x := by
  by_cases ha : h.avail = 0
  · simp [makeAvail, setNext, setPrev, footerFromHeader, (size_put hn).1, ha]
  · simp [makeAvail, setNext, setPrev, footerFromHeader, (size_put hn).1, ha]

@[simp] theorem makeAvail_base : (h.makeAvail i n).base = h.base := by
  by_cases ha : h.avail = 0
  · simp [makeAvail, setNext, setPrev, ha]
  · simp [makeAvail, setNext, setPrev, ha]

@[simp] theorem makeAvail_len : (h.makeAvail i n).len = h.len := by
  by_cases ha : h.avail = 0
  · simp [makeAvail, setNext, setPrev, ha]
  · simp [makeAvail, setNext, setPrev, ha]

@[simp] theorem makeAvail_avail : (h.makeAvail i n).avail = i := rfl

theorem remove_cells (x : Int) :
    (h.remove i).cells x =
      if h.next i ≠ 0 ∧ x = h.next i + 2 then h.prev i
      else if h.prev i ≠ 0 ∧ x = h.prev i + 1 then h.next i
      else h.cells x := by
  by_cases hp : h.prev i = 0
  · by_cases hn : h.next i = 0
    · simp [remove, hp, hn]
    · simp [remove, setPrev, hp, hn]
  · by_cases hn : h.next i = 0
    · simp [remove, setNext, hp, hn]
    · simp [remove, setNext, setPrev, hp, hn]

@[simp] theorem remove_base : (h.remove i).base = h.base := by
  simp only [remove]
  split <;> split <;> rfl

@[simp] theorem remove_len : (h.remove i).len = h.len := by
  simp only [remove]
  split <;> split <;> rfl

theorem remove_avail : (h.remove i).avail = if h.prev i = 0 then h.next i else h.avail := by
  simp only [remove]
  split <;> split <;> rfl

end Heap

/-! ## Blocks

`Layout` is about the tags at both ends of a block, `Inv` adds the list through the free ones.
They are apart because `makeAvail` and `remove` break the list for a moment and never the tags.

A payload is between the tags, so what a client writes there changes no block; `interior` is the
fact behind it, and `unique` says that there is only one way to read an array as blocks. -/

structure Block where
  size : Int
  free : Bool
  deriving DecidableEq

/-- What stands in the first and the last word. -/
def Block.tag (b : Block) : Int := if b.free then b.size else -b.size

theorem Block.tag_inj {b c : Block} (hb : 0 < b.size) (hc : 0 < c.size) (h : b.tag = c.tag) :
    b = c := by
  obtain ⟨m, f⟩ := b
  obtain ⟨m', f'⟩ := c
  unfold Block.tag at h
  cases f
  · cases f'
    · obtain rfl : m = m' := Int.neg_inj.mp h
      rfl
    · have h' : -m = m' := h
      dsimp only at hb hc
      omega
  · cases f'
    · have h' : m = -m' := h
      dsimp only at hb hc
      omega
    · obtain rfl : m = m' := h
      rfl

abbrev Blocks := Int → Option Block

/-- The blocks of the array, the first and the last of them two words that are never free. -/
structure Layout (h : Heap) (blk : Blocks) : Prop where
  tiling : Tiling Block.size 0 h.len blk
  tagged : ∀ {i b}, blk i = some b → h.cells i = b.tag ∧ h.cells (i + b.size - 1) = b.tag
  first : blk 0 = some ⟨2, false⟩
  last : blk (h.len - 2) = some ⟨2, false⟩
  big : ∀ {i b}, blk i = some b → i ≠ 0 → i ≠ h.len - 2 → 4 ≤ b.size
  apart : ∀ {i b c}, blk i = some b → b.free = true → blk (i + b.size) = some c → c.free = false
  fits : h.base.toNat + 4 * h.len ≤ 2 ^ 32
  room : 8 ≤ h.len

/-- The list holds the free blocks. -/
structure Inv (h : Heap) (blk : Blocks) (links : List Int) : Prop extends Layout h blk where
  linked : Linked h.next h.prev 0 h.avail links
  listed : ∀ i, i ∈ links ↔ ∃ b, blk i = some b ∧ b.free = true

namespace Layout

variable {h h' : Heap} {blk : Blocks} {i : Int} {b : Block}

theorem len_lt (L : Layout h blk) : h.len ≤ 2 ^ 30 := by
  have hfits := L.fits
  omega

theorem size_eq (L : Layout h blk) (hi : blk i = some b) : h.size i = b.size := by
  obtain ⟨-, -, hpos⟩ := L.tiling.inside hi
  have htag := (L.tagged hi).1
  unfold Heap.size
  rw [htag]
  unfold Block.tag
  cases b.free
  · simp only [Bool.false_eq_true, if_false]
    rw [if_pos (by omega)]
    omega
  · simp only [if_true]
    rw [if_neg (by omega)]

theorem isAvail_eq (L : Layout h blk) (hi : blk i = some b) : h.isAvail i = b.free := by
  obtain ⟨-, -, hpos⟩ := L.tiling.inside hi
  have htag := (L.tagged hi).1
  unfold Heap.isAvail
  rw [htag]
  unfold Block.tag
  cases b.free
  · exact decide_eq_false (by simp only [Bool.false_eq_true, if_false]; omega)
  · exact decide_eq_true (by simp only [if_true]; omega)

theorem isTaken_eq (L : Layout h blk) (hi : blk i = some b) : h.isTaken i = !b.free := by
  obtain ⟨-, -, hpos⟩ := L.tiling.inside hi
  have htag := (L.tagged hi).1
  unfold Heap.isTaken
  rw [htag]
  unfold Block.tag
  cases b.free
  · exact decide_eq_true (by simp only [Bool.false_eq_true, if_false]; omega)
  · exact decide_eq_false (by simp only [if_true]; omega)

/-- A free block is not one of the two at the ends. -/
theorem free_inside (L : Layout h blk) (hi : blk i = some b) (hfree : b.free = true) :
    2 ≤ i ∧ i + b.size ≤ h.len - 2 ∧ 4 ≤ b.size := by
  have h0 : i ≠ 0 := by
    rintro rfl
    rw [L.first] at hi
    cases hi
    cases hfree
  have hl : i ≠ h.len - 2 := by
    rintro rfl
    rw [L.last] at hi
    cases hi
    cases hfree
  obtain ⟨hlo, hhi, -⟩ := L.tiling.inside hi
  have hroom := L.room
  have hbig := L.big hi h0 hl
  have h2 : (2 : Int) ≤ i := by
    have hd := L.tiling.disjoint L.first hi (by omega)
    exact hd
  refine ⟨h2, ?_, hbig⟩
  by_cases hlt : i < h.len - 2
  · exact L.tiling.disjoint hi L.last hlt
  · omega

/-- A word in the middle of a block is no other block's first or last. -/
theorem interior (L : Layout h blk) (hi : blk i = some b) {x : Int} (hx : i < x)
    (hx' : x < i + b.size - 1) {j : Int} {c : Block} (hj : blk j = some c) :
    x ≠ j ∧ x ≠ j + c.size - 1 := by
  obtain ⟨-, -, hpos⟩ := L.tiling.inside hj
  constructor
  · rintro rfl
    have heq := L.tiling.unique hi hj (x := x) ⟨by omega, by omega⟩ ⟨by omega, by omega⟩
    omega
  · rintro rfl
    have heq := L.tiling.unique hi hj (x := j + c.size - 1) ⟨by omega, by omega⟩
      ⟨by omega, by omega⟩
    subst heq
    rw [hi] at hj
    cases hj
    omega

/-- What leaves the first and last words alone keeps the blocks. -/
theorem congr (L : Layout h blk) (hbase : h'.base = h.base) (hlen : h'.len = h.len)
    (hcells : ∀ {i b}, blk i = some b → h'.cells i = h.cells i ∧
      h'.cells (i + b.size - 1) = h.cells (i + b.size - 1)) : Layout h' blk where
  tiling := hlen ▸ L.tiling
  tagged hi := ⟨(hcells hi).1.trans (L.tagged hi).1, (hcells hi).2.trans (L.tagged hi).2⟩
  first := L.first
  last := hlen ▸ L.last
  big hi h0 hl := L.big hi h0 (hlen ▸ hl)
  apart := L.apart
  fits := by rw [hbase, hlen]; exact L.fits
  room := hlen ▸ L.room

/-- What an array holds determines its blocks. -/
theorem unique {blk' : Blocks} (L : Layout h blk) (L' : Layout h blk') (hi : blk i = some b) :
    blk' i = some b := by
  obtain ⟨n, hn⟩ := Int.eq_ofNat_of_zero_le (L.tiling.inside hi).1
  induction n using Nat.strongRecOn generalizing i b with
  | ind n ih =>
    obtain ⟨c, hc⟩ : ∃ c, blk' i = some c := by
      obtain ⟨-, hend, hpos⟩ := L.tiling.inside hi
      by_cases h0 : i = 0
      · exact ⟨_, h0 ▸ L'.first⟩
      · obtain ⟨j, d, hj, hjd⟩ := L.tiling.before hi (by omega)
        obtain ⟨hj0, -, hdpos⟩ := L.tiling.inside hj
        have hj' := ih j.toNat (by omega) hj (by omega)
        rw [← hjd]
        exact L'.tiling.after hj' (by omega)
    have htag : b.tag = c.tag := (L.tagged hi).1.symm.trans (L'.tagged hc).1
    rw [hc, Block.tag_inj (L.tiling.inside hi).2.2 (L'.tiling.inside hc).2.2 htag]

end Layout

end OsKernel.KernelHeap
