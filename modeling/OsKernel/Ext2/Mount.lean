import Mathlib.Logic.Basic
import OsKernel.Ext2.Node
import OsKernel.Lib.Memory

/-!
# Mounting

The constructor of `Ext2` and `Ext2::getInode`, of `ext2.cc`, over the bytes of the disk.
Every `read_all` is noted with its offset and its count. A division by zero ends the process.

The constructor computes the number of groups twice, from the inodes and from the blocks, and
asserts that they are the same; it does not look at the magic number or at the revision. What
an image should be like is `WellFormed`, a predicate on the superblock alone. So for each
superblock it can be said whether its images mount, whatever else is on the disk
(`image_mounts_iff`). The block that comes before the first group, on images with blocks of 1
KB, is what the second count forgets.

The other half is about `getInode`: a file system that was accepted, an inode number, and the
128 bytes that are read. That inodes are apart needs that the tables are (`Tables`), which is
a condition on the disk that the constructor does not check.

`new` for the table of descriptors is taken to succeed. On an image with more groups than the
heap has room for, it panics.
-/

set_option autoImplicit false

namespace OsKernel.Ext2.Mount

open Lib Prog Block

/-! ## The code -/

inductive Stop
  | divide
  /-- `block_group_count == ((block_count-1) / block_count_per_group) + 1` -/
  | groupCount
  /-- `block_group < block_group_count` -/
  | noGroup
  /-- `cnt >= 0` -/
  | notRead
  | device (e : Block.Stop)

/-- The offsets and the counts of the reads, the latest first. -/
abbrev Log := List (Word × Word)

abbrev Load := Prog Stop Log

/-- An `Ext2`. -/
structure Mounted where
  inodeCount : Word
  blockCount : Word
  blockSize : Word
  blockCountPerGroup : Word
  inodeCountPerGroup : Word
  blockGroupCount : Word
  /-- the `inode_table` of each group -/
  groupTable : List Word

/-- What `getInode` makes of an inode. -/
structure Inode where
  number : Word
  mode : BitVec 16
  size : Word
  linkCount : BitVec 16
  data : List Word
  deriving DecidableEq

def assert (e : Stop) (c : Prop) [Decidable c] : Load Unit :=
  if c then pure () else throw e

def divide (a b : Word) : Load Word :=
  if b = 0 then throw .divide else pure (a / b)

/-- `get_inode_size()` -/
def inodeSize : Word := 128

variable (content : Nat → Byte)

/-- `ide->read_all(offset, n, buffer)`, for a buffer of its own that holds `old`. -/
def readAll (offset n : Word) (old : Nat → Byte) : Load (BitVec 64 × (Nat → Byte)) := do
  modify fun l => (offset, n) :: l
  match (ide content).readAll (n.toNat + 1) offset n 0 ⟨fun a => old a.toNat, [], []⟩ with
  | .ok cnt bus => pure (cnt, fun i => bus.mem (BitVec.ofNat 32 i))
  | .error e _ => throw (.device e)

/-- The fields that `getInode` takes out of its buffer. -/
def extract (number : Word) (buffer : Nat → Byte) : Inode where
  number := number
  mode := le16 buffer 0
  size := le32 buffer 4
  linkCount := le16 buffer 26
  data := (List.range 15).map fun i => le32 buffer (40 + 4 * i)

/-- `Ext2::getInode`; `old` is what the new buffer holds. -/
def getInode (fs : Mounted) (inode : Word) (old : Nat → Byte) : Load Inode := do
  let blockGroup ← divide (inode - 1) fs.inodeCountPerGroup
  assert .noGroup (blockGroup < fs.blockGroupCount)
  let inodeTable := fs.groupTable.getD blockGroup.toNat 0
  let tableOffset := inodeTable * fs.blockSize
  let index := (inode - 1) % fs.inodeCountPerGroup
  let inodeOffset := tableOffset + index * inodeSize
  let (cnt, buffer) ← readAll content inodeOffset inodeSize old
  assert .notRead (cnt.slt 0 = false)
  pure (extract inode buffer)

/-- The constructor up to the group table; `old` is what the new buffer holds. A shift is by the low
five bits of its count. -/
def loadGroups (old : Nat → Byte) : Load Mounted := do
  -- the sector that the superblock begins with
  let buffer := fun i => content (2 * 512 + i)
  let inodeCount := le32 buffer 0
  let blockCount := le32 buffer 4
  let blockSize := 1024#32 <<< (le32 buffer 24 &&& 31#32)
  let blockCountPerGroup := le32 buffer 32
  let inodeCountPerGroup := le32 buffer 40
  let blockGroupCount := (← divide (inodeCount - 1) inodeCountPerGroup) + 1
  let other ← divide (blockCount - 1) blockCountPerGroup
  assert .groupCount (blockGroupCount = other + 1)
  let bgdtOffset := blockSize * (if blockSize = 1024 then 2 else 1)
  let bgdtSize := blockGroupCount * 32
  let (_, buffer) ← readAll content bgdtOffset bgdtSize old
  pure {
    inodeCount, blockCount, blockSize, blockCountPerGroup, inodeCountPerGroup, blockGroupCount
    groupTable := (List.range blockGroupCount.toNat).map fun i =>
      le32 buffer (32 * BitVec.ofNat 32 i + 8 : Word).toNat }

/-- The constructor: the file system and its root. -/
def mount (old old' : Nat → Byte) : Load (Mounted × Inode) := do
  let fs ← loadGroups content old
  let root ← getInode content fs 2 old'
  pure (fs, root)

/-! ## What is read -/

section Reads

variable {content} {offset n : Word} {old : Nat → Byte} {l : Log} {E : Stop → Log → Prop}

/-- How many bytes a read delivers. -/
def reach (offset n : Word) : Nat := min n.toNat (2 ^ 32 - 1 - offset.toNat)

theorem wp_assert {Q : Unit → Log → Prop} (e : Stop) (c : Prop) [Decidable c] :
    wp (assert e c) Q E l ↔ if c then Q () l else E e l := by
  unfold assert
  split <;> rfl

theorem wp_divide {Q : Word → Log → Prop} (a b : Word) :
    wp (divide a b) Q E l ↔ if b = 0 then E .divide l else Q (a / b) l := by
  unfold divide
  split <;> rfl

theorem wp_readAll {Q : BitVec 64 × (Nat → Byte) → Log → Prop}
    (h : ∀ b, (∀ i < reach offset n, b i = content (offset.toNat + i)) →
      (∀ i, reach offset n ≤ i → i < 2 ^ 32 → b i = old i) →
      Q (BitVec.ofNat 64 (reach offset n), b) ((offset, n) :: l)) :
    wp (readAll content offset n old) Q E l := by
  obtain ⟨cnt, blocks, stores, hrun, hcnt, -, -⟩ := readAll_got (d := ide content)
    (s := ⟨fun a => old a.toNat, [], []⟩) offset n 0 (Nat.lt_succ_self n.toNat)
  have hlt : reach offset n < 2 ^ 32 := available_lt (d := ide content) offset n
  have hsize : ¬(ide content).size < offset := by
    have hmax : (ide content).size.toNat = 2 ^ 32 - 1 := rfl
    rw [BitVec.lt_def]
    omega
  obtain rfl := hcnt hsize
  unfold readAll
  rw [wp_bind, wp_modify, hrun]
  refine h _ (fun i hi => ?_) fun i hi hi' => ?_
  · have hat := overlay_at (m := fun a => old a.toNat) (a := 0#32)
      (f := fun i => content (offset.toNat + i)) hi (Nat.le_of_lt hlt)
    rw [BitVec.zero_add] at hat
    exact hat
  · have hnat : (BitVec.ofNat 32 i).toNat = i := by
      rw [BitVec.toNat_ofNat]
      exact Nat.mod_eq_of_lt hi'
    have hoff := overlay_off (m := fun a => old a.toNat) (a := 0#32) (n := reach offset n)
      (f := fun i => content (offset.toNat + i)) (b := BitVec.ofNat 32 i) fun k hk heq => by
        have hk' := congrArg BitVec.toNat heq
        rw [BitVec.zero_add, hnat, BitVec.toNat_ofNat, Nat.mod_eq_of_lt (by omega)] at hk'
        omega
    rw [hnat] at hoff
    exact hoff

end Reads

/-! ## The superblock -/

/-- What the constructor takes out of the superblock. -/
structure Super where
  inodeCount : Word
  blockCount : Word
  logBlockSize : Word
  blockCountPerGroup : Word
  inodeCountPerGroup : Word

/-- The superblock of a disk, which begins at byte 1024. -/
def superblock : Super where
  inodeCount := le32 content 1024
  blockCount := le32 content 1028
  logBlockSize := le32 content 1048
  blockCountPerGroup := le32 content 1056
  inodeCountPerGroup := le32 content 1064

namespace Super

variable (sb : Super)

def blockSize : Nat := 1024 * 2 ^ sb.logBlockSize.toNat

def firstDataBlock : Nat := if sb.blockSize = 1024 then 1 else 0

/-- The blocks from the first data block on, in groups, the last of which may be smaller. -/
def groups : Nat :=
  (sb.blockCount.toNat - sb.firstDataBlock + sb.blockCountPerGroup.toNat - 1) /
    sb.blockCountPerGroup.toNat

/-- Where the block begins that follows the one that has byte 1024. -/
def tableOffset : Nat := (1024 / sb.blockSize + 1) * sb.blockSize

/-- The superblock of a revision 0 image. -/
structure WellFormed : Prop where
  blocks : sb.firstDataBlock < sb.blockCount.toNat
  perGroup : 0 < sb.blockCountPerGroup.toNat
  inodesPerGroup : 0 < sb.inodeCountPerGroup.toNat
  inodes : sb.inodeCount.toNat = sb.groups * sb.inodeCountPerGroup.toNat

/-- Whatever else is on the disk: the group count is right, and the descriptors, as many of them,
are read from the block behind the superblock. -/
def Mounts : Prop :=
  ∀ content old l, superblock content = sb → ∃ fs offset n,
    loadGroups content old l = .ok fs ((offset, n) :: l) ∧ offset.toNat = sb.tableOffset ∧
      n.toNat = 32 * sb.groups ∧ fs.blockGroupCount.toNat = sb.groups ∧
      fs.groupTable = (List.range sb.groups).map fun i =>
        le32 content (sb.tableOffset + 32 * i + 8)

/-! ## The group count -/

variable {sb}

theorem ceil_eq {m b : Nat} (hb : 0 < b) (hm : 0 < m) : (m + b - 1) / b = (m - 1) / b + 1 := by
  have h : m + b - 1 = m - 1 + b := by omega
  rw [h, Nat.add_div_right _ hb]

theorem WellFormed.groups_eq (w : sb.WellFormed) : sb.groups =
    (sb.blockCount.toNat - sb.firstDataBlock - 1) / sb.blockCountPerGroup.toNat + 1 :=
  ceil_eq w.perGroup (Nat.sub_pos_of_lt w.blocks)

/-- The count of groups from the inodes is the right one. -/
theorem WellFormed.inode_groups (w : sb.WellFormed) :
    (sb.inodeCount.toNat - 1) / sb.inodeCountPerGroup.toNat + 1 = sb.groups := by
  have hpos : 0 < sb.groups := by
    rw [w.groups_eq]
    exact Nat.succ_pos _
  have hle := Nat.le_mul_of_pos_left sb.inodeCountPerGroup.toNat hpos
  rw [← ceil_eq w.inodesPerGroup (by rw [w.inodes]; exact Nat.mul_pos hpos w.inodesPerGroup),
    w.inodes, Nat.add_sub_assoc w.inodesPerGroup, Nat.mul_comm, Nat.mul_add_div w.inodesPerGroup,
    Nat.div_eq_of_lt (Nat.sub_lt w.inodesPerGroup Nat.one_pos), Nat.add_zero]

/-- That from the blocks counts block 0, which is in no group if the blocks have 1 KB: it is wrong
if the groups are full. -/
theorem WellFormed.block_groups (w : sb.WellFormed) :
    (sb.blockCount.toNat - 1) / sb.blockCountPerGroup.toNat + 1 = sb.groups ↔
      (sb.blockSize ≠ 1024 ∨ ¬sb.blockCountPerGroup.toNat ∣ sb.blockCount.toNat - 1) := by
  have hblocks := w.blocks
  rw [w.groups_eq]
  unfold firstDataBlock at hblocks ⊢
  by_cases h1 : sb.blockSize = 1024
  · rw [if_pos h1] at hblocks ⊢
    obtain ⟨m, hm⟩ : ∃ m, sb.blockCount.toNat - 1 = m + 1 := ⟨sb.blockCount.toNat - 2, by omega⟩
    rw [hm, Nat.add_sub_cancel, Nat.succ_div]
    split
    · rename_i hdvd
      exact iff_of_false (by omega) (not_or.mpr ⟨not_not.mpr h1, not_not.mpr hdvd⟩)
    · rename_i hdvd
      exact iff_of_true rfl (.inr hdvd)
  · rw [if_neg h1, Nat.sub_zero]
    exact iff_of_true rfl (.inl h1)

/-- The block size as the constructor computes it. -/
def shifted (sb : Super) : Word := 1024#32 <<< (sb.logBlockSize &&& 31#32)

theorem shifted_toNat (h : sb.blockSize < 2 ^ 32) : sb.shifted.toNat = sb.blockSize := by
  unfold blockSize at h
  unfold shifted blockSize
  have horder : sb.logBlockSize.toNat < 32 := by
    refine Nat.lt_of_not_le fun hge => ?_
    have hpow : 2 ^ 32 ≤ 2 ^ sb.logBlockSize.toNat := Nat.pow_le_pow_right (by decide) hge
    omega
  have hlow : (sb.logBlockSize &&& 31#32).toNat = sb.logBlockSize.toNat := by
    have hmask : (31#32).toNat = 2 ^ 5 - 1 := by decide
    rw [BitVec.toNat_and, hmask, Nat.and_two_pow_sub_one_eq_mod]
    exact Nat.mod_eq_of_lt horder
  have hbase : (1024#32).toNat = 1024 := rfl
  rw [BitVec.shiftLeft_eq', BitVec.toNat_shiftLeft, hlow, hbase, Nat.shiftLeft_eq]
  exact Nat.mod_eq_of_lt h

/-- The offset of the table as the constructor computes it. -/
def bgdtOffset (sb : Super) : Word := sb.shifted * (if sb.shifted = 1024 then 2 else 1)

/-- The group count as the constructor computes it from the inodes. -/
def blockGroupCount (sb : Super) : Word := (sb.inodeCount - 1) / sb.inodeCountPerGroup + 1

end Super

section Load

variable {content} {old : Nat → Byte} {l : Log}

/-- What `loadGroups` makes of the superblock and of the bytes that it read. -/
def Super.mounted (sb : Super) (b : Nat → Byte) : Mounted where
  inodeCount := sb.inodeCount
  blockCount := sb.blockCount
  blockSize := sb.shifted
  blockCountPerGroup := sb.blockCountPerGroup
  inodeCountPerGroup := sb.inodeCountPerGroup
  blockGroupCount := sb.blockGroupCount
  groupTable := (List.range sb.blockGroupCount.toNat).map fun i =>
    le32 b (32 * BitVec.ofNat 32 i + 8 : Word).toNat

theorem wp_loadGroups {Q : Mounted → Log → Prop} {E : Stop → Log → Prop}
    (hdivide : (superblock content).inodeCountPerGroup = 0 ∨
      (superblock content).blockCountPerGroup = 0 → E .divide l)
    (hgroups : (superblock content).inodeCountPerGroup ≠ 0 →
      (superblock content).blockCountPerGroup ≠ 0 →
      ¬(superblock content).blockGroupCount = ((superblock content).blockCount - 1) /
        (superblock content).blockCountPerGroup + 1 → E .groupCount l)
    (h : (superblock content).inodeCountPerGroup ≠ 0 →
      (superblock content).blockCountPerGroup ≠ 0 →
      (superblock content).blockGroupCount = ((superblock content).blockCount - 1) /
        (superblock content).blockCountPerGroup + 1 →
      ∀ b offset n, offset = (superblock content).bgdtOffset →
        n = (superblock content).blockGroupCount * 32 →
        (∀ i < reach offset n, b i = content (offset.toNat + i)) →
        (∀ i, reach offset n ≤ i → i < 2 ^ 32 → b i = old i) →
        Q ((superblock content).mounted b) ((offset, n) :: l)) :
    wp (loadGroups content old) Q E l := by
  unfold loadGroups
  rw [wp_bind, wp_divide]
  split
  · rename_i hi
    exact hdivide (.inl hi)
  · rename_i hi
    rw [wp_bind, wp_divide]
    split
    · rename_i hb
      exact hdivide (.inr hb)
    · rename_i hb
      rw [wp_bind, wp_assert]
      split
      · rename_i hcount
        rw [wp_bind]
        refine wp_readAll fun b hin hout => ?_
        exact h hi hb hcount b _ _ rfl rfl hin hout
      · rename_i hcount
        exact hgroups hi hb hcount

end Load

/-! ## Every well-formed image

The property is about a superblock, and an image is any disk with that superblock. Both halves of
the condition are necessary: the one is the assertion about the groups, the other comes from the
offsets of the driver, which are words. -/

/-- A count of groups does not overflow. -/
theorem count_toNat {a b : Word} (ha : 0 < a.toNat) :
    ((a - 1) / b + 1).toNat = (a.toNat - 1) / b.toNat + 1 := by
  have hone : (1 : Word).toNat = 1 := rfl
  have hsub : (a - 1).toNat = a.toNat - 1 := BitVec.toNat_sub_of_le (by rw [BitVec.le_def]; omega)
  have hle := Nat.div_le_self (a.toNat - 1) b.toNat
  have hlt := a.isLt
  rw [BitVec.toNat_add, BitVec.toNat_udiv, hsub, hone]
  exact Nat.mod_eq_of_lt (by omega)

namespace Super

variable {sb : Super}

theorem blockSize_ge (sb : Super) : 1024 ≤ sb.blockSize :=
  Nat.le_mul_of_pos_right 1024 (Nat.two_pow_pos _)

theorem tableOffset_eq (sb : Super) :
    sb.tableOffset = sb.blockSize * if sb.blockSize = 1024 then 2 else 1 := by
  have hge := sb.blockSize_ge
  unfold tableOffset
  split
  · rename_i h1
    rw [h1]
  · rename_i h1
    rw [Nat.div_eq_of_lt (by omega), Nat.zero_add, Nat.one_mul, Nat.mul_one]

theorem WellFormed.groups_pos (w : sb.WellFormed) : 0 < sb.groups := by
  rw [w.groups_eq]
  exact Nat.succ_pos _

theorem WellFormed.blockGroupCount_toNat (w : sb.WellFormed) :
    sb.blockGroupCount.toNat = sb.groups := by
  unfold blockGroupCount
  rw [count_toNat (by rw [w.inodes]; exact Nat.mul_pos w.groups_pos w.inodesPerGroup)]
  exact w.inode_groups

/-- The assertion of the constructor. -/
theorem WellFormed.assertion (w : sb.WellFormed) :
    sb.blockGroupCount = (sb.blockCount - 1) / sb.blockCountPerGroup + 1 ↔
      (sb.blockSize ≠ 1024 ∨ ¬sb.blockCountPerGroup.toNat ∣ sb.blockCount.toNat - 1) := by
  have hblocks := w.blocks
  rw [← w.block_groups, ← BitVec.toNat_inj, w.blockGroupCount_toNat, count_toNat (by omega)]
  exact eq_comm

theorem bgdtOffset_toNat (h : sb.tableOffset < 2 ^ 32) : sb.bgdtOffset.toNat = sb.tableOffset := by
  have hge := sb.blockSize_ge
  have htable := sb.tableOffset_eq
  have hsize : sb.blockSize < 2 ^ 32 := by
    split at htable <;> omega
  have hshift := shifted_toNat hsize
  have h1024 : sb.shifted = 1024 ↔ sb.blockSize = 1024 := by
    rw [← BitVec.toNat_inj, hshift]
    rfl
  unfold bgdtOffset
  rw [htable] at h ⊢
  split at h
  · rename_i h1
    rw [if_pos (h1024.mpr h1), if_pos h1, BitVec.toNat_mul, hshift]
    exact Nat.mod_eq_of_lt h
  · rename_i h1
    rw [if_neg (mt h1024.mp h1), if_neg h1, BitVec.toNat_mul, hshift]
    exact Nat.mod_eq_of_lt h

/-- A disk with this superblock. -/
def image (sb : Super) (rest : Nat → Byte) (x : Nat) : Byte :=
  if x / 4 = 256 then byteOf sb.inodeCount (x % 4)
  else if x / 4 = 257 then byteOf sb.blockCount (x % 4)
  else if x / 4 = 262 then byteOf sb.logBlockSize (x % 4)
  else if x / 4 = 264 then byteOf sb.blockCountPerGroup (x % 4)
  else if x / 4 = 266 then byteOf sb.inodeCountPerGroup (x % 4)
  else rest x

theorem superblock_image (rest : Nat → Byte) : superblock (sb.image rest) = sb := by
  have hplace : ∀ {x i : Nat}, i < 4 → (4 * x + i) / 4 = x ∧ (4 * x + i) % 4 = i := by omega
  have hfield : ∀ {x : Nat} {v : Word},
      (∀ i < 4, sb.image rest (4 * x + i) = byteOf v ((4 * x + i) % 4)) →
        le32 (sb.image rest) (4 * x) = v :=
    fun h => le32_bytes fun i hi => (h i hi).trans (by rw [(hplace hi).2])
  have h1 := hfield (x := 256) (v := sb.inodeCount) fun i hi => by
    simp only [image, (hplace hi).1, if_true]
  have h2 := hfield (x := 257) (v := sb.blockCount) fun i hi => by
    simp only [image, (hplace hi).1, if_true]
    rfl
  have h3 := hfield (x := 262) (v := sb.logBlockSize) fun i hi => by
    simp only [image, (hplace hi).1, if_true]
    rfl
  have h4 := hfield (x := 264) (v := sb.blockCountPerGroup) fun i hi => by
    simp only [image, (hplace hi).1, if_true]
    rfl
  have h5 := hfield (x := 266) (v := sb.inodeCountPerGroup) fun i hi => by
    simp only [image, (hplace hi).1, if_true]
    rfl
  unfold superblock
  rw [h1, h2, h3, h4, h5]

theorem image_behind (rest : Nat → Byte) {x : Nat} (hx : 1068 ≤ x) : sb.image rest x = rest x := by
  unfold image
  rw [if_neg (by omega), if_neg (by omega), if_neg (by omega), if_neg (by omega),
    if_neg (by omega)]

/-- A descriptor's place in the buffer. -/
theorem descriptor_toNat {i : Nat} (h : 32 * i + 8 < 2 ^ 32) :
    (32 * BitVec.ofNat 32 i + 8 : Word).toNat = 32 * i + 8 := by
  bv_omega

/-- A table that does not go over 4 GB is read. -/
theorem WellFormed.mounts (w : sb.WellFormed)
    (hcount : sb.blockSize ≠ 1024 ∨ ¬sb.blockCountPerGroup.toNat ∣ sb.blockCount.toNat - 1)
    (htable : sb.tableOffset + 32 * sb.groups ≤ 2 ^ 32) : sb.Mounts := by
  intro content old l hsb
  subst hsb
  have hpos := w.groups_pos
  have hge := (superblock content).blockSize_ge
  have hoff : (superblock content).bgdtOffset.toNat = (superblock content).tableOffset :=
    bgdtOffset_toNat (by omega)
  have hgroups := w.blockGroupCount_toNat
  have hle : 1024 ≤ (superblock content).tableOffset := by
    rw [tableOffset_eq]
    split <;> omega
  have hsize : ((superblock content).blockGroupCount * 32).toNat =
      32 * (superblock content).groups := by
    have h32 : (32 : Word).toNat = 32 := rfl
    rw [BitVec.toNat_mul, hgroups, h32, Nat.mul_comm]
    exact Nat.mod_eq_of_lt (by omega)
  have hw : wp (loadGroups content old) (fun fs l' => ∃ offset n, l' = (offset, n) :: l ∧
      offset.toNat = (superblock content).tableOffset ∧ n.toNat = 32 * (superblock content).groups ∧
      fs.blockGroupCount.toNat = (superblock content).groups ∧
      fs.groupTable = (List.range (superblock content).groups).map fun i =>
        le32 content ((superblock content).tableOffset + 32 * i + 8)) (fun _ _ => False) l := by
    refine wp_loadGroups (fun h0 => ?_) (fun _ _ hne => hne (w.assertion.mpr hcount))
      fun _ _ _ b offset n ho hn hin _ => ?_
    · have hi := w.inodesPerGroup
      have hb := w.perGroup
      rcases h0 with h0 | h0
      · rw [h0] at hi
        exact absurd hi (Nat.lt_irrefl 0)
      · rw [h0] at hb
        exact absurd hb (Nat.lt_irrefl 0)
    · subst ho hn
      refine ⟨_, _, rfl, hoff, hsize, hgroups, ?_⟩
      unfold mounted
      rw [hgroups]
      refine List.map_congr_left fun i hi => ?_
      have hi := List.mem_range.mp hi
      rw [descriptor_toNat (by omega)]
      unfold reach at hin
      rw [hoff, hsize] at hin
      have hbytes : ∀ k < 4, b (32 * i + 8 + k) =
          content ((superblock content).tableOffset + 32 * i + 8 + k) := fun k hk =>
        (hin _ (by omega)).trans (congrArg content (by omega))
      unfold le32
      rw [hbytes 3 (by decide), hbytes 2 (by decide), hbytes 1 (by decide)]
      exact congrArg _ (hbytes 0 (by decide))
  obtain ⟨fs, l', hrun, offset, n, rfl, h⟩ := wp_returns hw
  exact ⟨fs, offset, n, hrun, h⟩

/-- Where the images mount, the count from the blocks is the right one. -/
theorem Mounts.count (h : sb.Mounts) (w : sb.WellFormed) :
    sb.blockSize ≠ 1024 ∨ ¬sb.blockCountPerGroup.toNat ∣ sb.blockCount.toNat - 1 := by
  obtain ⟨fs, offset, n, hrun, -⟩ :=
    h (sb.image fun _ => 0) (fun _ => 0) [] (superblock_image _)
  have hw : wp (loadGroups (sb.image fun _ => 0) fun _ => 0)
      (fun _ _ => sb.blockGroupCount = (sb.blockCount - 1) / sb.blockCountPerGroup + 1)
      (fun _ _ => True) [] := by
    refine wp_loadGroups (fun _ => trivial) (fun _ _ _ => trivial) fun _ _ hcount _ _ _ _ _ _ _ => ?_
    rw [superblock_image] at hcount
    exact hcount
  have hcount := wp_ok hw hrun
  exact w.assertion.mp hcount

/-- And the table does not go over 4 GB: the last descriptor would not be read. -/
theorem Mounts.table (h : sb.Mounts) (w : sb.WellFormed) :
    sb.tableOffset + 32 * sb.groups ≤ 2 ^ 32 := by
  have hpos := w.groups_pos
  refine Nat.le_of_not_lt fun hover => ?_
  -- a disk of ones behind 4 GB, and a buffer of zeros
  let rest : Nat → Byte := fun x => if 2 ^ 32 ≤ x then 1 else 0
  obtain ⟨fs, offset, n, hrun, ho, hn, -, htable⟩ :=
    h (sb.image rest) (fun _ => 0) [] (superblock_image _)
  have h32 : 32 ∣ sb.tableOffset := by
    rw [tableOffset_eq]
    exact Nat.dvd_mul_right_of_dvd (Nat.dvd_mul_right_of_dvd (by decide) _) _
  have hover' : 2 ^ 32 + 32 ≤ sb.tableOffset + 32 * sb.groups := by omega
  have hin : sb.groups - 1 < sb.groups := Nat.sub_lt hpos Nat.one_pos
  have hw : wp (loadGroups (sb.image rest) fun _ => 0)
      (fun fs l => l = [(offset, n)] → fs.groupTable[sb.groups - 1]? = some 0) (fun _ _ => True)
      [] := by
    refine wp_loadGroups (fun _ => trivial) (fun _ _ _ => trivial)
      fun _ _ _ b offset' n' _ _ _ hout hl => ?_
    obtain ⟨rfl, rfl⟩ : offset' = offset ∧ n' = n := by
      rw [List.cons.injEq, Prod.mk.injEq] at hl
      exact hl.1
    have hreach : reach offset' n' ≤ 32 * (sb.groups - 1) + 8 := by
      unfold reach
      omega
    have hzero : ∀ k < 4, b (32 * (sb.groups - 1) + 8 + k) = 0 := fun k hk =>
      hout _ (by omega) (by omega)
    unfold mounted
    rw [superblock_image, w.blockGroupCount_toNat, List.getElem?_map, List.getElem?_range hin]
    dsimp only [Option.map_some]
    rw [descriptor_toNat (by omega)]
    rw [le32_eq (g := fun _ => 0) hzero]
    exact congrArg some (by decide : le32 (fun _ => 0) 0 = 0)
  have hlast := wp_ok hw hrun rfl
  have hones : le32 (sb.image rest) (sb.tableOffset + 32 * (sb.groups - 1) + 8) ≠ 0 := by
    have hone : ∀ k < 4, sb.image rest (sb.tableOffset + 32 * (sb.groups - 1) + 8 + k) = 1 :=
      fun k _ => (image_behind rest (by omega)).trans (if_pos (by omega))
    rw [le32_eq (g := fun _ => 1) hone]
    exact (by decide : le32 (fun _ => 1) 0 ≠ 0)
  rw [htable, List.getElem?_map, List.getElem?_range hin] at hlast
  exact hones (Option.some.inj hlast)

end Super

/-- A well-formed image mounts unless its blocks have 1 KB and its groups are all full, as long as
its descriptors lie below 4 GB. -/
theorem image_mounts_iff {sb : Super} (w : sb.WellFormed) :
    sb.Mounts ↔
      (sb.blockSize ≠ 1024 ∨ ¬sb.blockCountPerGroup.toNat ∣ sb.blockCount.toNat - 1) ∧
        sb.tableOffset + 32 * sb.groups ≤ 2 ^ 32 :=
  ⟨fun h => ⟨h.count w, h.table w⟩, fun h => w.mounts h.1 h.2⟩

/-- An image of 16 MB in blocks of 4 KB. -/
def large : Super := ⟨1024, 4096, 2, 32768, 1024⟩

theorem large_wellFormed : large.WellFormed := ⟨by decide, by decide, by decide, by decide⟩

theorem image_mounts_iff_large : large.Mounts ↔
    (large.blockSize ≠ 1024 ∨ ¬large.blockCountPerGroup.toNat ∣ large.blockCount.toNat - 1) ∧
      large.tableOffset + 32 * large.groups ≤ 2 ^ 32 :=
  image_mounts_iff large_wellFormed

/-- One group of 8192 blocks of 1 KB, behind block 0. -/
def full : Super := ⟨2048, 8193, 0, 8192, 2048⟩

/-- It does not mount. -/
theorem full_group_refused : ¬∀ sb : Super, sb.WellFormed → sb.Mounts := by
  intro hall
  have w : full.WellFormed := ⟨by decide, by decide, by decide, by decide⟩
  exact absurd ((hall full w).count w) (by decide)

/-! ## Where an inode is

What the constructor has accepted is enough to find every inode: the number of its group, its
place there, and that the descriptor of the group has been read. That the tables of different
groups do not overlap is a property of the disk and is assumed of it. -/

section Inodes

variable {content} {fs : Mounted} {old : Nat → Byte} {l l' : Log} {diskSize : Nat} {i j : Word}

namespace Mounted

/-- The numbers that the inodes of the file system have. -/
def Numbered (fs : Mounted) (i : Word) : Prop := 1 ≤ i.toNat ∧ i.toNat ≤ fs.inodeCount.toNat

/-- The group of an inode, and its place among those of the group. -/
def group (fs : Mounted) (i : Word) : Nat := (i.toNat - 1) / fs.inodeCountPerGroup.toNat

def slot (fs : Mounted) (i : Word) : Nat := (i.toNat - 1) % fs.inodeCountPerGroup.toNat

/-- Where the inode table of a group begins. -/
def table (fs : Mounted) (g : Nat) : Nat :=
  (fs.groupTable.getD g 0).toNat * fs.blockSize.toNat

/-- Where ext2 has an inode. -/
def place (fs : Mounted) (i : Word) : Nat := fs.table (fs.group i) + fs.slot i * 128

/-- The inode tables are apart, on a disk of `diskSize` bytes. -/
structure Tables (fs : Mounted) (diskSize : Nat) : Prop where
  inside : ∀ g < fs.blockGroupCount.toNat,
    fs.table g + fs.inodeCountPerGroup.toNat * 128 ≤ diskSize
  apart : ∀ g < fs.blockGroupCount.toNat, ∀ h < fs.blockGroupCount.toNat, g ≠ h →
    fs.table g + fs.inodeCountPerGroup.toNat * 128 ≤ fs.table h ∨
      fs.table h + fs.inodeCountPerGroup.toNat * 128 ≤ fs.table g

/-- What the constructor has made sure of. -/
structure Accepted (fs : Mounted) : Prop where
  perGroup : 0 < fs.inodeCountPerGroup.toNat
  count : fs.blockGroupCount = (fs.inodeCount - 1) / fs.inodeCountPerGroup + 1

theorem accepted (h : loadGroups content old l = .ok fs l') : fs.Accepted := by
  have hw : wp (loadGroups content old) (fun fs _ => fs.Accepted) (fun _ _ => True) l := by
    refine wp_loadGroups (fun _ => trivial) (fun _ _ _ => trivial) fun hi _ _ _ _ _ _ _ _ _ =>
      ⟨Nat.pos_of_ne_zero fun h0 => hi (BitVec.toNat_inj.mp h0), rfl⟩
  exact wp_ok hw h

theorem Accepted.group_lt (a : fs.Accepted) (hi : fs.Numbered i) :
    fs.group i < fs.blockGroupCount.toNat := by
  obtain ⟨h1, hle⟩ := hi
  rw [a.count, count_toNat (by omega)]
  exact Nat.lt_succ_of_le (Nat.div_le_div_right (by omega))

theorem Accepted.slot_lt (a : fs.Accepted) (i : Word) : fs.slot i < fs.inodeCountPerGroup.toNat :=
  Nat.mod_lt _ a.perGroup

/-- An inode lies in the table of its group. -/
theorem Accepted.place_inside (a : fs.Accepted) (i : Word) : fs.table (fs.group i) ≤ fs.place i ∧
    fs.place i + 128 ≤ fs.table (fs.group i) + fs.inodeCountPerGroup.toNat * 128 := by
  have hslot := a.slot_lt i
  unfold place
  omega

/-- No two inodes share a byte. -/
theorem Accepted.place_injective (a : fs.Accepted) (ht : fs.Tables diskSize) (hi : fs.Numbered i)
    (hj : fs.Numbered j) (hoverlap : fs.place i < fs.place j + 128 ∧ fs.place j < fs.place i + 128) :
    i = j := by
  have hin := a.place_inside i
  have hjn := a.place_inside j
  have hgroup : fs.group i = fs.group j := by
    refine Decidable.byContradiction fun hne => ?_
    rcases ht.apart _ (a.group_lt hi) _ (a.group_lt hj) hne with h | h
    · omega
    · omega
  have hslot : fs.slot i = fs.slot j := by
    unfold place at hoverlap
    rw [hgroup] at hoverlap
    omega
  have hdi := Nat.div_add_mod (i.toNat - 1) fs.inodeCountPerGroup.toNat
  have hdj := Nat.div_add_mod (j.toNat - 1) fs.inodeCountPerGroup.toNat
  unfold group at hgroup
  unfold slot at hslot
  rw [hgroup, hslot, hdj] at hdi
  have h1 := hi.1
  have h1' := hj.1
  exact BitVec.toNat_inj.mp (by omega)

theorem extract_congr {number : Word} {b b' : Nat → Byte} (h : ∀ k < 128, b k = b' k) :
    extract number b = extract number b' := by
  unfold extract
  rw [le16_congr h (k := 0) (by decide), le32_congr h (k := 4) (by decide),
    le16_congr h (k := 26) (by decide)]
  congr 1
  refine List.map_congr_left fun k hk => ?_
  have hk := List.mem_range.mp hk
  exact le32_congr h (by omega)

theorem Accepted.wp_getInode (a : fs.Accepted) (ht : fs.Tables diskSize) (hsize : diskSize < 2 ^ 32)
    (hi : fs.Numbered i) :
    wp (getInode content fs i old) (fun node l' => ∃ offset, l' = (offset, 128) :: l ∧
      offset.toNat = fs.place i ∧ node = extract i fun k => content (fs.place i + k))
      (fun _ _ => False) l := by
  have hone : (1 : Word).toNat = 1 := rfl
  have hsub : (i - 1).toNat = i.toNat - 1 :=
    BitVec.toNat_sub_of_le (by rw [BitVec.le_def]; exact hi.1)
  have hgroup : ((i - 1) / fs.inodeCountPerGroup).toNat = fs.group i := by
    rw [BitVec.toNat_udiv, hsub]
    rfl
  have hslot : ((i - 1) % fs.inodeCountPerGroup).toNat = fs.slot i := by
    rw [BitVec.toNat_umod, hsub]
    rfl
  have hlt := a.group_lt hi
  have hinside := ht.inside _ hlt
  have hin := a.place_inside i
  have hslotlt := a.slot_lt i
  have hplace : (fs.groupTable.getD (fs.group i) 0 * fs.blockSize +
      (i - 1) % fs.inodeCountPerGroup * inodeSize).toNat = fs.place i := by
    have h128 : inodeSize.toNat = 128 := rfl
    unfold place table at *
    rw [BitVec.toNat_add, BitVec.toNat_mul, BitVec.toNat_mul, hslot, h128,
      Nat.mod_eq_of_lt (a := _ * fs.blockSize.toNat) (by omega),
      Nat.mod_eq_of_lt (a := _ * 128) (by omega)]
    exact Nat.mod_eq_of_lt (by omega)
  unfold getInode
  rw [wp_bind, wp_divide, if_neg fun h0 => by
    have hpos := a.perGroup
    rw [h0] at hpos
    exact absurd hpos (Nat.lt_irrefl 0)]
  rw [wp_bind, wp_assert, if_pos (by rw [BitVec.lt_def, hgroup]; exact hlt), wp_bind]
  refine wp_readAll fun b hb _ => ?_
  have hreach : reach (fs.groupTable.getD ((i - 1) / fs.inodeCountPerGroup).toNat 0 *
      fs.blockSize + (i - 1) % fs.inodeCountPerGroup * inodeSize) inodeSize = 128 := by
    have h128 : inodeSize.toNat = 128 := rfl
    unfold reach
    rw [hgroup, hplace, h128]
    omega
  rw [hreach] at hb ⊢
  rw [hgroup] at hb ⊢
  rw [hplace] at hb
  dsimp only
  rw [wp_bind, wp_assert, if_pos (count_not_negative (by decide)), wp_pure]
  exact ⟨_, rfl, hplace, extract_congr hb⟩

end Mounted

/-- On every file system that the constructor accepts, `getInode` reads the 128 bytes that ext2
assigns to an inode. They are in the table of its group, and no other inode has one of them. -/
theorem getInode_exact (hload : loadGroups content old l = .ok fs l') (hsize : diskSize < 2 ^ 32)
    (ht : fs.Tables diskSize) (hi : fs.Numbered i) (hj : fs.Numbered j) :
    fs.group i < fs.blockGroupCount.toNat ∧
      (∀ old l, ∃ offset, getInode content fs i old l =
          .ok (extract i fun k => content (fs.place i + k)) ((offset, 128) :: l) ∧
        offset.toNat = fs.place i) ∧
      fs.table (fs.group i) ≤ fs.place i ∧
      fs.place i + 128 ≤ fs.table (fs.group i) + fs.inodeCountPerGroup.toNat * 128 ∧
      (fs.place i < fs.place j + 128 ∧ fs.place j < fs.place i + 128 → i = j) := by
  have a := Mounted.accepted hload
  have hin := a.place_inside i
  refine ⟨a.group_lt hi, fun old l => ?_, hin.1, hin.2, a.place_injective ht hi hj⟩
  obtain ⟨node, l', hrun, offset, rfl, ho, rfl⟩ := wp_returns (x := getInode content fs i old) (s := l)
    (a.wp_getInode ht hsize hi)
  exact ⟨offset, hrun, ho⟩

end Inodes

/-- Two groups of 16 inodes, whose tables are in the blocks 5 and 8200. -/
def twoGroups : Nat → Byte :=
  Super.image ⟨32, 10000, 0, 8192, 16⟩ fun x =>
    if x = 2056 then 5 else if x = 2088 then 8 else if x = 2089 then 32 else 0

/-- The last inode of the first group, and the first of the second. -/
theorem getInode_exact_two : ∃ fs l', loadGroups twoGroups (fun _ => 0) [] = .ok fs l' ∧
    fs.group 16 < fs.blockGroupCount.toNat ∧
      (∀ old l, ∃ offset, getInode twoGroups fs 16 old l =
          .ok (extract 16 fun k => twoGroups (fs.place 16 + k)) ((offset, 128) :: l) ∧
        offset.toNat = fs.place 16) ∧
      fs.table (fs.group 16) ≤ fs.place 16 ∧
      fs.place 16 + 128 ≤ fs.table (fs.group 16) + fs.inodeCountPerGroup.toNat * 128 ∧
      (fs.place 16 < fs.place 17 + 128 ∧ fs.place 17 < fs.place 16 + 128 → (16 : Word) = 17) := by
  have heval : (match loadGroups twoGroups (fun _ => 0) [] with
      | .ok fs _ => decide (fs.inodeCount = 32 ∧ fs.inodeCountPerGroup = 16 ∧
        fs.blockGroupCount = 2 ∧ fs.table 0 = 5120 ∧ fs.table 1 = 8396800)
      | .error _ _ => false) = true := by
    decide +kernel
  cases hload : loadGroups twoGroups (fun _ => 0) [] with
  | error e l =>
    rw [hload] at heval
    cases heval
  | ok fs l' =>
    rw [hload] at heval
    obtain ⟨hinodes, hper, hgroups, h0, h1⟩ := of_decide_eq_true heval
    have htables : fs.Tables 10240000 := by
      have h2 : ((2 : Word).toNat = 2) ∧ (16 : Word).toNat = 16 := ⟨rfl, rfl⟩
      refine ⟨fun g hg => ?_, fun g hg h hh hne => ?_⟩
      · rw [hgroups, h2.1] at hg
        rw [hper, h2.2]
        obtain rfl | rfl : g = 0 ∨ g = 1 := by omega
        · rw [h0]
          decide
        · rw [h1]
          decide
      · rw [hgroups, h2.1] at hg hh
        rw [hper, h2.2]
        obtain ⟨rfl, rfl⟩ | ⟨rfl, rfl⟩ : g = 0 ∧ h = 1 ∨ g = 1 ∧ h = 0 := by omega
        · rw [h0, h1]
          decide
        · rw [h0, h1]
          decide
    refine ⟨fs, l', rfl, getInode_exact hload (by decide) htables ?_ ?_⟩
    · unfold Mounted.Numbered
      rw [hinodes]
      decide
    · unfold Mounted.Numbered
      rw [hinodes]
      decide

end OsKernel.Ext2.Mount
