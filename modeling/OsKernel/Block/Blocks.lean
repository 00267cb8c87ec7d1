import Mathlib.Algebra.Order.Floor.Div
import OsKernel.Ext2.Node

/-!
# The number of blocks

`BlockIO::size_in_blocks` of `block_io.h`, and the blocks that `BlockIO::read` asks for. The
blocks in use are those that hold a byte of the device: a caller may ask for these, and `read`
asks for no other. There are `blockCount` of them. `size_in_blocks` multiplies that number by
the block size, and loses it when the sum it divides does not fit in a word.

What it ought to return is not taken from its name. `Counts` compares the number with what
`read` asks for: below it are the blocks that start inside of the device, and `read` asks for
none from it on. The comment in the header says the number of blocks, and the code returns a
number of bytes.
-/

set_option autoImplicit false

namespace OsKernel.Block

open Lib Prog

/-- `BlockIO::size_in_blocks`. -/
def Device.sizeInBlocks (d : Device) : Word :=
  (d.size + d.blockSize - 1) / d.blockSize * d.blockSize

namespace Device

/-- How many blocks hold a byte of the device. -/
def blockCount (d : Device) : Nat := d.size.toNat ⌈/⌉ d.blockSize.toNat

/-- `size_in_blocks` counts the blocks that reads use: every number below it is that of a block
that starts inside of the device, and `read` asks for no number from it on. -/
structure Counts (d : Device) : Prop where
  bound : ∀ b : Word, b < d.sizeInBlocks → b.toNat * d.blockSize.toNat < d.size.toNat
  covers : ∀ (offset desired buffer : Word) (s : Bus) (r : BitVec 64) (s' : Bus)
    (new : List Word), offset < d.size → d.read offset desired buffer s = .ok r s' →
    s'.blocks = new ++ s.blocks → ∀ number ∈ new, number < d.sizeInBlocks

end Device

variable {d : Device}

/-! ## The blocks in use -/

/-- The blocks below `blockCount` are those that start inside of the device. -/
theorem lt_blockCount_iff {b : Nat} :
    b < d.blockCount ↔ b * d.blockSize.toNat < d.size.toNat := by
  unfold Device.blockCount
  rw [← Nat.not_le, ceilDiv_le_iff_le_mul d.blockSize_pos, Nat.not_le, Nat.mul_comm]

/-- A `read` inside of the device asks for the one block that its offset falls on. -/
theorem read_blocks {offset desired buffer : Word} {s s' : Bus} {r : BitVec 64}
    {new : List Word} (h : offset < d.size) (hrun : d.read offset desired buffer s = .ok r s')
    (hnew : s'.blocks = new ++ s.blocks) : new = [offset / d.blockSize] := by
  have hle : ¬d.size < offset := Nat.not_lt.mpr (Nat.le_of_lt h)
  have hne : offset ≠ d.size := fun he => Nat.ne_of_lt h (congrArg BitVec.toNat he)
  rw [read_piece hle, if_neg hne, if_neg hne] at hrun
  cases hrun
  exact (List.append_cancel_right hnew).symm

/-- That block is in use. -/
theorem block_lt_blockCount {offset : Word} (h : offset < d.size) :
    (offset / d.blockSize).toNat < d.blockCount := by
  rw [lt_blockCount_iff, BitVec.toNat_udiv]
  exact Nat.lt_of_le_of_lt (Nat.div_mul_le_self ..) h

/-- Every block in use is that of some offset: its own start. -/
theorem block_of_start {b : Nat} (h : b < d.blockCount) :
    ∃ offset, offset < d.size ∧ (offset / d.blockSize).toNat = b := by
  rw [lt_blockCount_iff] at h
  have hfits : (BitVec.ofNat 32 (b * d.blockSize.toNat)).toNat = b * d.blockSize.toNat := by
    rw [BitVec.toNat_ofNat]
    exact Nat.mod_eq_of_lt (Nat.lt_trans h d.size.isLt)
  refine ⟨BitVec.ofNat 32 (b * d.blockSize.toNat), ?_, ?_⟩
  · rw [BitVec.lt_def, hfits]
    exact h
  · rw [BitVec.toNat_udiv, hfits]
    exact Nat.mul_div_cancel b d.blockSize_pos

/-- The numbers that `size_in_blocks` promises are the blocks in use only where it is their
number. -/
theorem counts_iff : d.Counts ↔ d.sizeInBlocks.toNat = d.blockCount := by
  constructor
  · intro h
    apply Nat.le_antisymm
    · -- the last number that it promises starts inside of the device
      by_contra hlt
      have hword := d.sizeInBlocks.isLt
      have hb : (BitVec.ofNat 32 d.blockCount).toNat = d.blockCount := by
        rw [BitVec.toNat_ofNat]
        exact Nat.mod_eq_of_lt (by omega)
      have hin := h.bound (BitVec.ofNat 32 d.blockCount) (by rw [BitVec.lt_def, hb]; omega)
      rw [hb, ← lt_blockCount_iff] at hin
      exact Nat.lt_irrefl _ hin
    · -- a read at the start of a block in use asks for it
      by_contra hlt
      obtain ⟨offset, hoff, hblock⟩ := block_of_start (Nat.not_le.mp hlt)
      have hle : ¬d.size < offset := Nat.not_lt.mpr (Nat.le_of_lt hoff)
      have hne : offset ≠ d.size := fun he => Nat.ne_of_lt hoff (congrArg BitVec.toNat he)
      have hrun : d.read offset 0 0 ⟨fun _ => 0, [], []⟩ = _ := read_piece hle
      have hlast := h.covers offset 0 0 _ _ _ [offset / d.blockSize] hoff hrun
        (by rw [if_neg hne]; rfl) _ (List.mem_singleton_self _)
      rw [BitVec.lt_def, hblock] at hlast
      exact Nat.lt_irrefl _ hlast
  · intro h
    constructor
    · intro b hb
      rw [BitVec.lt_def, h, lt_blockCount_iff] at hb
      exact hb
    · intro offset desired buffer s r s' new hoff hrun hnew number hmem
      rw [read_blocks hoff hrun hnew, List.mem_singleton] at hmem
      rw [hmem, BitVec.lt_def, h]
      exact block_lt_blockCount hoff

/-! ## What the code computes -/

/-- The word that is divided. -/
theorem sum_toNat : (d.size + d.blockSize - 1).toNat =
    (d.size.toNat + d.blockSize.toNat - 1) % 2 ^ 32 := by
  have hpos := d.blockSize_pos
  have hone : (1 : Word).toNat = 1 := rfl
  rw [BitVec.toNat_sub, BitVec.toNat_add, hone]
  omega

/-- Neither the division nor the product loses anything more. -/
theorem sizeInBlocks_toNat : d.sizeInBlocks.toNat =
    (d.size.toNat + d.blockSize.toNat - 1) % 2 ^ 32 / d.blockSize.toNat * d.blockSize.toNat := by
  unfold Device.sizeInBlocks
  rw [BitVec.toNat_mul, BitVec.toNat_udiv, sum_toNat]
  apply Nat.mod_eq_of_lt
  exact Nat.lt_of_le_of_lt (Nat.div_mul_le_self ..) (Nat.mod_lt _ (by decide))

/-- A sum that fits gives the blocks in use, in bytes. -/
theorem sizeInBlocks_fits (h : d.size.toNat + d.blockSize.toNat - 1 < 2 ^ 32) :
    d.sizeInBlocks.toNat = d.blockCount * d.blockSize.toNat := by
  unfold Device.blockCount
  rw [sizeInBlocks_toNat, Nat.mod_eq_of_lt h, Nat.ceilDiv_eq_add_pred_div]

/-- A sum that does not fit leaves no block. -/
theorem sizeInBlocks_wraps (h : ¬d.size.toNat + d.blockSize.toNat - 1 < 2 ^ 32) :
    d.sizeInBlocks.toNat = 0 := by
  have hsize := d.size.isLt
  have hblock := d.blockSize.isLt
  have hless : (d.size.toNat + d.blockSize.toNat - 1) % 2 ^ 32 < d.blockSize.toNat := by omega
  rw [sizeInBlocks_toNat, Nat.div_eq_of_lt hless, Nat.zero_mul]

theorem blockCount_eq_zero_iff : d.blockCount = 0 ↔ d.size = 0 := by
  rw [← Nat.le_zero, ← BitVec.toNat_inj]
  unfold Device.blockCount
  rw [ceilDiv_le_iff_le_mul d.blockSize_pos, Nat.mul_zero]
  exact Nat.le_zero

/-- `size_in_blocks` counts the blocks only where a block is one byte, or where there is none. -/
theorem sizeInBlocks_counts_iff : d.Counts ↔ d.blockSize = 1 ∨ d.size = 0 := by
  rw [counts_iff, ← blockCount_eq_zero_iff, ← BitVec.toNat_inj]
  have hone : (1 : Word).toNat = 1 := rfl
  rw [hone]
  by_cases hfits : d.size.toNat + d.blockSize.toNat - 1 < 2 ^ 32
  · rw [sizeInBlocks_fits hfits]
    exact mul_right_eq_self₀
  · -- a block of one byte leaves the sum at the size, which fits
    have hmany : d.blockSize.toNat ≠ 1 := by
      intro hbyte
      rw [hbyte, Nat.add_sub_cancel] at hfits
      exact hfits d.size.isLt
    rw [sizeInBlocks_wraps hfits, eq_comm, or_iff_right hmany]

/-- A file of three bytes in blocks of 1024 is one block and `size_in_blocks` says 1024. The sum of
the drive wraps: `size_in_blocks` says 0, and the first read asks for block 0. -/
theorem sizeInBlocks_counts_bytes :
    (∃ d : Device, d.size = 3 ∧ d.blockSize = 1024 ∧ 1023 < d.sizeInBlocks ∧ ¬d.Counts) ∧
      (Ext2.ide fun _ => 0).sizeInBlocks = 0 ∧ ¬(Ext2.ide fun _ => 0).Counts := by
  refine ⟨⟨⟨10, 1024, rfl, 3, fun _ => 0⟩, rfl, rfl, by decide, fun h => ?_⟩, by decide,
    fun h => ?_⟩
  · exact absurd (h.bound 1023 (by decide)) (by decide)
  · have hrun : (Ext2.ide fun _ => 0).read 0 512 0 ⟨fun _ => 0, [], []⟩ = _ := read_piece (by decide)
    have hblock := h.covers 0 512 0 _ _ _ [0] (by decide) hrun rfl 0 (List.mem_singleton_self _)
    exact absurd hblock (by decide)

end OsKernel.Block
