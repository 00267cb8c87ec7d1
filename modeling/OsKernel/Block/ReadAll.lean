import OsKernel.Lib.Bytes
import OsKernel.Lib.Prog

/-!
# Block devices and files

`BlockIO::read` and `BlockIO::read_all` of `block_io.cc`. A device, or a file, is its bytes in
blocks of a power of two; `read_block` delivers the block it is asked for. The buffer is a
range of memory, and the heap block that `read` cuts a part of a block out of is not in it.

`Device` is what the class promises, and not one of its two implementations. What the drive
and a file of ext2 have to do with it is said where they are (`Ide`, `Ext2/Node.lean`). That
the block size is a power of two is a field, as the source computes with `&` and `%` as if it
were; the size is any word.

Sizes and offsets are 32-bit words and the count that is returned has 64 bits, negative for an
error. The four assertions of `read` are in the model, and are shown to hold. The loop has
fuel; `n` turns are enough, since each delivers a byte or is the last one
(`available_of_piece`), so the result says that it ends.

`Bus` notes the blocks that were asked for and the ranges that were stored to. With these the
contract says more than which bytes arrive: that nothing but the buffer is written, no byte
twice, and no block is fetched that holds none of the bytes.
-/

set_option autoImplicit false

namespace OsKernel.Block

open Lib Prog

abbrev Word := BitVec 32

/-- A `BlockIO`. -/
structure Device where
  order : Nat
  blockSize : Word
  blockSize_eq : blockSize.toNat = 2 ^ order
  /-- `size_in_bytes()` -/
  size : Word
  content : Nat → Byte

/-- Why a transfer did not return. -/
inductive Stop
  /-- a failed `ASSERT` -/
  | assertion
  /-- the loop has not ended yet -/
  | fuel
  deriving DecidableEq

structure Bus where
  mem : Bytes
  /-- the blocks read so far, the latest first -/
  blocks : List Word
  /-- the ranges stored to through a buffer, the latest first -/
  stores : List (Word × Nat)

abbrev Transfer := Prog Stop Bus

def assert (c : Prop) [Decidable c] : Transfer Unit :=
  if c then pure () else throw .assertion

/-- `K::min`. -/
def kmin (a b : Word) : Word := if a < b then a else b

/-- `n` bytes are stored from `dest` on. -/
def put (dest : Word) (src : Nat → Byte) (n : Nat) : Transfer Unit :=
  modify fun s => { s with mem := overlay s.mem dest n src, stores := (dest, n) :: s.stores }

/-- `memcpy` of `machine.S` counts down a signed number. -/
def memcpy (dest : Word) (src : Nat → Byte) (n : Word) : Transfer Unit :=
  put dest src (if n.msb then 0 else n.toNat)

namespace Device

/-- `read_block(number, temp)`, for a `temp` of its own. -/
def fetch (d : Device) (number : Word) : Transfer (Nat → Byte) := do
  modify fun s => { s with blocks := number :: s.blocks }
  pure fun i => d.content (number.toNat * d.blockSize.toNat + i)

/-- `read_block(number, buffer)`. -/
def readBlock (d : Device) (number buffer : Word) : Transfer Unit := do
  let block ← d.fetch number
  put buffer block d.blockSize.toNat

/-- `BlockIO::read`. -/
def read (d : Device) (offset desired buffer : Word) : Transfer (BitVec 64) := do
  let sz := d.size
  if sz < offset then pure (-1)
  else if offset = sz then pure 0
  else
    let n := kmin desired (sz - offset)
    let blockNumber := offset / d.blockSize
    let offsetInBlock := offset % d.blockSize
    let actual := kmin (d.blockSize - offsetInBlock) n
    assert (actual ≤ n)
    assert (offset + actual ≤ sz)
    if actual = d.blockSize then
      assert (offsetInBlock = 0)
      -- we can read in-place
      d.readBlock blockNumber buffer
      pure (actual.setWidth 64)
    else
      assert (offsetInBlock + actual ≤ d.blockSize)
      let temp ← d.fetch blockNumber
      memcpy buffer (fun i => temp (offsetInBlock.toNat + i)) actual
      pure (actual.setWidth 64)

/-- The loop of `BlockIO::read_all`, with `total_count`. -/
def readLoop (d : Device) : Nat → Word → Word → Word → BitVec 64 → Transfer (BitVec 64)
  | 0, _, _, _, _ => throw .fuel
  | fuel + 1, offset, n, buffer, total =>
    if 0 < n then do
      let cnt ← d.read offset n buffer
      if cnt.slt 0 then pure cnt
      else if cnt = 0 then pure total
      else
        readLoop d fuel ((offset.setWidth 64 + cnt).setWidth 32) ((n.setWidth 64 - cnt).setWidth 32)
          (buffer + cnt.setWidth 32) (total + cnt)
    else pure total

/-- `BlockIO::read_all`. -/
def readAll (d : Device) (fuel : Nat) (offset n buffer : Word) : Transfer (BitVec 64) :=
  d.readLoop fuel offset n buffer 0

end Device

/-! ## One piece

One call of `read` delivers what is left of the block, or less. The effect on memory is an
interval of the file, so that two pieces, one behind the other, are one longer interval
(`got_got`). -/

variable {d : Device} {s : Bus}

@[simp] theorem wp_assert {Q : Unit → Bus → Prop} {E : Stop → Bus → Prop} (c : Prop) [Decidable c] :
    wp (assert c) Q E s ↔ if c then Q () s else E .assertion s := by
  unfold assert
  split <;> rfl

theorem kmin_toNat (a b : Word) : (kmin a b).toNat = min a.toNat b.toNat := by
  unfold kmin
  split <;> (rename_i h; rw [BitVec.lt_def] at h; omega)

theorem Device.blockSize_pos (d : Device) : 0 < d.blockSize.toNat := by
  rw [d.blockSize_eq]
  exact Nat.two_pow_pos _

/-- A power of two below `2^32` is at most half of it. -/
theorem Device.blockSize_le (d : Device) : d.blockSize.toNat ≤ 2 ^ 31 := by
  have hlt := d.blockSize.isLt
  rw [d.blockSize_eq] at hlt ⊢
  have horder : d.order < 32 := (Nat.pow_lt_pow_iff_right (by decide)).mp hlt
  exact Nat.pow_le_pow_right (by decide) (Nat.le_of_lt_succ horder)

/-- How many bytes `read_all` delivers. -/
def Device.available (d : Device) (offset n : Word) : Nat :=
  min n.toNat (d.size.toNat - offset.toNat)

/-- How many bytes one `read` delivers. -/
def Device.piece (d : Device) (offset n : Word) : Nat :=
  min (d.blockSize.toNat - offset.toNat % d.blockSize.toNat) (d.available offset n)

/-- The bytes from `offset` on are in the buffer; blocks have been read and ranges stored to. -/
def Bus.got (s : Bus) (d : Device) (offset buffer : Word) (n : Nat) (blocks : List Word)
    (stores : List (Word × Nat)) : Bus where
  mem := overlay s.mem buffer n fun i => d.content (offset.toNat + i)
  blocks := blocks ++ s.blocks
  stores := stores ++ s.stores

theorem setWidth_toNat (w : Word) : w.setWidth 64 = BitVec.ofNat 64 w.toNat := by
  rw [BitVec.ofNat_toNat]

/-- Beyond the end. -/
theorem read_beyond {offset n buffer : Word} (h : d.size < offset) :
    d.read offset n buffer s = .ok (-1) s := by
  unfold Device.read
  rw [if_pos h]
  rfl

/-- The bytes of a block, from the one that `offset` falls on. -/
theorem Device.content_block (d : Device) (offset : Word) (i : Nat) :
    d.content ((offset / d.blockSize).toNat * d.blockSize.toNat +
      (offset.toNat % d.blockSize.toNat + i)) = d.content (offset.toNat + i) := by
  have hdiv := Nat.div_add_mod' offset.toNat d.blockSize.toNat
  rw [BitVec.toNat_udiv, ← Nat.add_assoc, hdiv]

/-- One `read` delivers the rest of the block, or less where the request or the file ends. -/
theorem wp_read {offset n buffer : Word} (h : ¬d.size < offset) :
    wp (d.read offset n buffer) (fun r s' => r = BitVec.ofNat 64 (d.piece offset n) ∧
      s' = s.got d offset buffer (d.piece offset n)
        (if offset = d.size then [] else [offset / d.blockSize])
        (if offset = d.size then [] else [(buffer, d.piece offset n)])) (fun _ _ => False) s := by
  have hle : offset.toNat ≤ d.size.toNat := Nat.not_lt.mp h
  have hpos := d.blockSize_pos
  have hhalf := d.blockSize_le
  unfold Device.read
  simp only
  rw [if_neg h]
  by_cases heq : offset = d.size
  · have hpiece : d.piece offset n = 0 := by
      unfold Device.piece Device.available
      rw [heq, Nat.sub_self]
      omega
    rw [if_pos heq, if_pos heq, if_pos heq, hpiece]
    unfold Bus.got
    rw [overlay_zero]
    exact ⟨rfl, rfl⟩
  rw [if_neg heq, if_neg heq, if_neg heq]
  have hmod := Nat.mod_lt offset.toNat hpos
  have hin : (offset % d.blockSize).toNat = offset.toNat % d.blockSize.toNat :=
    BitVec.toNat_umod ..
  have hactual : (kmin (d.blockSize - offset % d.blockSize) (kmin n (d.size - offset))).toNat =
      d.piece offset n := by
    rw [kmin_toNat, kmin_toNat, BitVec.toNat_sub_of_le (Nat.not_lt.mp h), BitVec.toNat_sub_of_le]
    · rw [hin]
      rfl
    · rw [BitVec.le_def, hin]
      exact Nat.le_of_lt hmod
  have hpn : d.piece offset n ≤ d.available offset n := Nat.min_le_right ..
  have hpb : d.piece offset n ≤ d.blockSize.toNat - offset.toNat % d.blockSize.toNat :=
    Nat.min_le_left ..
  have han : d.available offset n ≤ d.size.toNat - offset.toNat := Nat.min_le_right ..
  have h₁ : kmin (d.blockSize - offset % d.blockSize) (kmin n (d.size - offset)) ≤
      kmin n (d.size - offset) := by
    rw [BitVec.le_def, kmin_toNat (d.blockSize - _)]
    exact Nat.min_le_right ..
  -- the asserts and the branches look at the size of the piece and no more at how it came about
  generalize kmin (d.blockSize - offset % d.blockSize) (kmin n (d.size - offset)) = actual
    at hactual h₁ ⊢
  have hsz := d.size.isLt
  have hsum : (offset + actual).toNat = offset.toNat + d.piece offset n := by
    rw [BitVec.toNat_add, hactual, Nat.mod_eq_of_lt (by omega)]
  have h₂ : offset + actual ≤ d.size := by
    rw [BitVec.le_def, hsum]
    omega
  have hr : actual.setWidth 64 = BitVec.ofNat 64 (d.piece offset n) := by
    rw [setWidth_toNat, hactual]
  rw [wp_bind, wp_assert, if_pos h₁, wp_bind, wp_assert, if_pos h₂]
  -- a whole block goes straight to the buffer, a part of one through the `new` one
  by_cases hwhole : actual = d.blockSize
  · have hzero : offset.toNat % d.blockSize.toNat = 0 := by
      rw [← hactual, hwhole] at hpb
      omega
    have h₃ : offset % d.blockSize = 0 := BitVec.toNat_inj.mp (hin.trans hzero)
    rw [if_pos hwhole, wp_bind, wp_assert, if_pos h₃]
    refine ⟨hr, ?_⟩
    show Bus.mk _ _ _ = Bus.mk _ _ _
    rw [← hactual, hwhole]
    congr 1
    refine overlay_congr fun i _ => ?_
    rw [← d.content_block offset i, hzero, Nat.zero_add]
  · have h₃ : offset % d.blockSize + actual ≤ d.blockSize := by
      rw [BitVec.le_def, BitVec.toNat_add, hin, hactual, Nat.mod_eq_of_lt (by omega)]
      omega
    have hless : d.piece offset n < 2 ^ 31 := by
      have hne : d.piece offset n ≠ d.blockSize.toNat := fun he =>
        hwhole (BitVec.toNat_inj.mp (hactual.trans he))
      omega
    have hmsb : actual.msb = false := by
      rw [BitVec.msb_eq_decide, hactual]
      exact decide_eq_false (by omega)
    rw [if_neg hwhole, wp_bind, wp_assert, if_pos h₃]
    refine ⟨hr, ?_⟩
    show Bus.mk _ _ _ = Bus.mk _ _ _
    rw [hmsb, hactual]
    congr 1
    refine overlay_congr fun i _ => ?_
    rw [hin]
    exact d.content_block offset i

theorem read_piece {offset n buffer : Word} (h : ¬d.size < offset) :
    d.read offset n buffer s = .ok (BitVec.ofNat 64 (d.piece offset n))
      (s.got d offset buffer (d.piece offset n)
        (if offset = d.size then [] else [offset / d.blockSize])
        (if offset = d.size then [] else [(buffer, d.piece offset n)])) := by
  have hw : wp (d.read offset n buffer) _ _ s := wp_read h
  obtain ⟨r, s', hrun, rfl, rfl⟩ := wp_returns hw
  exact hrun

/-! ## The loop

The counter of `read_all` has 64 bits and its arguments have 32, and each turn converts between
them; `advance` and `retreat` do this once. The loop ends because a call of `read` delivers
something unless nothing is left, for which the block size must not be 0. -/

/-- A block that holds one of the first `n` bytes from `offset` on. -/
def Device.Holds (d : Device) (offset : Word) (n : Nat) (b : Word) : Prop :=
  ∃ i < n, b.toNat = (offset.toNat + i) / d.blockSize.toNat

theorem available_le (offset n : Word) : d.available offset n ≤ n.toNat := Nat.min_le_left ..

theorem available_lt (offset n : Word) : d.available offset n < 2 ^ 32 :=
  Nat.lt_of_le_of_lt (available_le offset n) n.isLt

theorem piece_le (offset n : Word) : d.piece offset n ≤ d.available offset n := Nat.min_le_right ..

theorem piece_lt (offset n : Word) : d.piece offset n < 2 ^ 32 :=
  Nat.lt_of_le_of_lt (piece_le offset n) (available_lt offset n)

/-- A `read` delivers something unless nothing is left. -/
theorem available_of_piece {offset n : Word} (h : d.piece offset n = 0) :
    d.available offset n = 0 := by
  have hmod := Nat.mod_lt offset.toNat d.blockSize_pos
  unfold Device.piece at h
  omega

/-- Advancing by what was delivered. -/
theorem advance (w : Word) (k : Nat) :
    (w.setWidth 64 + BitVec.ofNat 64 k).setWidth 32 = w + BitVec.ofNat 32 k := by
  refine BitVec.toNat_inj.mp ?_
  have hw := w.isLt
  simp only [BitVec.toNat_setWidth, BitVec.toNat_add, BitVec.toNat_ofNat]
  omega

theorem retreat (w : Word) (k : Nat) :
    (w.setWidth 64 - BitVec.ofNat 64 k).setWidth 32 = w - BitVec.ofNat 32 k := by
  refine BitVec.toNat_inj.mp ?_
  have hw := w.isLt
  simp only [BitVec.toNat_setWidth, BitVec.toNat_sub, BitVec.toNat_ofNat]
  omega

theorem narrow (k : Nat) : (BitVec.ofNat 64 k).setWidth 32 = BitVec.ofNat 32 k := by
  refine BitVec.toNat_inj.mp ?_
  simp only [BitVec.toNat_setWidth, BitVec.toNat_ofNat]
  omega

/-- The count of one `read` is not an error. -/
theorem count_not_negative {k : Nat} (hk : k < 2 ^ 32) : (BitVec.ofNat 64 k).slt 0 = false := by
  show (BitVec.ofNat 64 k).slt 0#64 = false
  rw [BitVec.slt_zero_eq_msb, BitVec.msb_eq_decide, BitVec.toNat_ofNat]
  exact decide_eq_false (by omega)

/-- Two transfers, one behind the other. -/
theorem got_got {offset buffer : Word} {n k : Nat} {bs bs' : List Word}
    {rs rs' : List (Word × Nat)} (h : offset.toNat + n < 2 ^ 32) (hk : n + k ≤ 2 ^ 32) :
    (s.got d offset buffer n bs rs).got d (offset + BitVec.ofNat 32 n)
      (buffer + BitVec.ofNat 32 n) k bs' rs' =
      s.got d offset buffer (n + k) (bs' ++ bs) (rs' ++ rs) := by
  unfold Bus.got
  rw [overlay_overlay hk, List.append_assoc, List.append_assoc]
  congr 1
  refine overlay_congr fun i _ => ?_
  have hsum : (offset + BitVec.ofNat 32 n).toNat = offset.toNat + n := by
    rw [BitVec.toNat_add, BitVec.toNat_ofNat, Nat.mod_eq_of_lt (by omega : n < 2 ^ 32),
      Nat.mod_eq_of_lt h]
  simp only [hsum]
  split
  · rfl
  · congr 1
    omega

/-- What is left after one piece, and where. -/
theorem available_rest {offset n : Word} (h : ¬d.size < offset) :
    (offset + BitVec.ofNat 32 (d.piece offset n)).toNat = offset.toNat + d.piece offset n ∧
    (n - BitVec.ofNat 32 (d.piece offset n)).toNat = n.toNat - d.piece offset n ∧
    d.available (offset + BitVec.ofNat 32 (d.piece offset n))
      (n - BitVec.ofNat 32 (d.piece offset n)) = d.available offset n - d.piece offset n ∧
    offset.toNat + d.available offset n ≤ d.size.toNat := by
  have hle : offset.toNat ≤ d.size.toNat := Nat.not_lt.mp h
  have hpa := piece_le (d := d) offset n
  have han := available_le (d := d) offset n
  have hsize : d.available offset n ≤ d.size.toNat - offset.toNat := Nat.min_le_right ..
  have hsz := d.size.isLt
  have hn := n.isLt
  have hoff : (offset + BitVec.ofNat 32 (d.piece offset n)).toNat =
      offset.toNat + d.piece offset n := by
    rw [BitVec.toNat_add, BitVec.toNat_ofNat]
    omega
  have hrest : (n - BitVec.ofNat 32 (d.piece offset n)).toNat = n.toNat - d.piece offset n := by
    rw [BitVec.toNat_sub, BitVec.toNat_ofNat]
    omega
  refine ⟨hoff, hrest, ?_, by omega⟩
  unfold Device.available at *
  rw [hoff, hrest]
  omega

/-- From an offset in the file the loop ends, and delivers what there is. -/
theorem readLoop_spec : ∀ (fuel : Nat) (offset n buffer : Word) (total : BitVec 64) (s : Bus),
    ¬d.size < offset → n.toNat < fuel → ∃ blocks stores,
      d.readLoop fuel offset n buffer total s =
        .ok (total + BitVec.ofNat 64 (d.available offset n))
          (s.got d offset buffer (d.available offset n) blocks stores) ∧
      (∀ b ∈ blocks, d.Holds offset (d.available offset n) b) ∧
      Covers stores buffer (d.available offset n) := by
  -- on the fuel; each turn delivers at least a byte, so `n` turns are enough
  intro fuel
  induction fuel with
  | zero => exact fun _ _ _ _ _ _ h => absurd h (Nat.not_lt_zero _)
  | succ fuel ih =>
    intro offset n buffer total s hoff hfuel
    unfold Device.readLoop
    by_cases hn : 0 < n
    case neg =>
      have hzero : d.available offset n = 0 := by
        have hle := available_le (d := d) offset n
        rw [BitVec.lt_def] at hn
        exact Nat.eq_zero_of_le_zero (Nat.le_trans hle (Nat.not_lt.mp hn))
      rw [if_neg hn, hzero]
      refine ⟨[], [], ?_, (fun b hb => by cases hb), covers_nil⟩
      unfold Bus.got
      rw [overlay_zero]
      exact congrArg (EStateM.Result.ok · _) (BitVec.add_zero total).symm
    case pos =>
      rw [if_pos hn]
      have hbind : ∀ f : BitVec 64 → Transfer (BitVec 64), (d.read offset n buffer >>= f) s =
          f (BitVec.ofNat 64 (d.piece offset n)) (s.got d offset buffer (d.piece offset n)
            (if offset = d.size then [] else [offset / d.blockSize])
            (if offset = d.size then [] else [(buffer, d.piece offset n)])) := by
        intro f
        show EStateM.bind _ _ s = _
        unfold EStateM.bind
        rw [read_piece hoff]
      rw [hbind, count_not_negative (piece_lt offset n), if_neg (by decide)]
      have hend : d.available offset n = 0 ↔ offset = d.size := by
        rw [BitVec.lt_def] at hn hoff
        rw [← BitVec.toNat_inj]
        unfold Device.available
        have hzero : (0 : Word).toNat = 0 := rfl
        omega
      by_cases hcnt : d.piece offset n = 0
      -- a read of 0 bytes ends the loop, and it is one behind the end of the file
      · have havail := available_of_piece hcnt
        rw [hcnt, havail, if_pos (hend.mp havail), if_pos (hend.mp havail)]
        refine ⟨[], [], ?_, (fun b hb => by cases hb), covers_nil⟩
        exact congrArg (EStateM.Result.ok · _) (BitVec.add_zero total).symm
      · have hle := piece_le (d := d) offset n
        have hne : offset ≠ d.size := fun h => by
          have h0 := hend.mpr h
          omega
        have hcnt' : ¬BitVec.ofNat 64 (d.piece offset n) = 0 := by
          rw [← BitVec.toNat_inj, BitVec.toNat_ofNat, Nat.mod_eq_of_lt]
          · exact hcnt
          · exact Nat.lt_trans (piece_lt offset n) (by decide)
        obtain ⟨hoff', hn', havail', hfits⟩ := available_rest (n := n) hoff
        have hsz := d.size.isLt
        have hlt := available_lt (d := d) offset n
        have han := available_le (d := d) offset n
        rw [if_neg hcnt', if_neg hne, if_neg hne, advance, retreat, narrow]
        obtain ⟨blocks, stores, hrun, hblocks, hstores⟩ := ih
          (offset + BitVec.ofNat 32 (d.piece offset n))
          (n - BitVec.ofNat 32 (d.piece offset n))
          (buffer + BitVec.ofNat 32 (d.piece offset n))
          (total + BitVec.ofNat 64 (d.piece offset n))
          (s.got d offset buffer (d.piece offset n) [offset / d.blockSize]
            [(buffer, d.piece offset n)])
          (by rw [BitVec.lt_def, hoff']; omega) (by rw [hn']; omega)
        rw [havail'] at hrun hblocks hstores
        rw [got_got (by omega) (by omega), BitVec.add_assoc, ← BitVec.ofNat_add,
          Nat.add_sub_cancel' hle] at hrun
        refine ⟨blocks ++ [offset / d.blockSize], stores ++ [(buffer, d.piece offset n)], hrun,
          fun b hb => ?_, ?_⟩
        case refine_2 =>
          have hcovers := hstores.append (covers_single (a := buffer) (n := d.piece offset n))
          rwa [Nat.add_sub_cancel' hle] at hcovers
        rcases List.mem_append.mp hb with hb | hb
        · obtain ⟨i, hi, hbi⟩ := hblocks b hb
          refine ⟨d.piece offset n + i, by omega, ?_⟩
          rw [hbi, hoff', Nat.add_assoc]
        · obtain rfl := List.mem_singleton.mp hb
          exact ⟨0, by omega, BitVec.toNat_udiv ..⟩

/-- Wherever it begins, `read_all` returns, and has stored exactly what is available. -/
theorem readAll_got {fuel : Nat} (offset n buffer : Word) (hfuel : n.toNat < fuel) :
    ∃ cnt blocks stores, d.readAll fuel offset n buffer s =
      .ok cnt (s.got d offset buffer (d.available offset n) blocks stores) ∧
      (¬d.size < offset → cnt = BitVec.ofNat 64 (d.available offset n)) ∧
      (d.size < offset → 0 < n → cnt = -1) ∧ Covers stores buffer (d.available offset n) := by
  by_cases hoff : d.size < offset
  · have hzero : d.available offset n = 0 := by
      rw [BitVec.lt_def] at hoff
      unfold Device.available
      omega
    obtain ⟨fuel, rfl⟩ : ∃ k, fuel = k + 1 := ⟨fuel - 1, by omega⟩
    have hsame : s.got d offset buffer 0 [] [] = s := by
      unfold Bus.got
      rw [overlay_zero]
      rfl
    unfold Device.readAll Device.readLoop
    by_cases hn : 0 < n
    · refine ⟨-1, [], [], ?_, fun h => absurd hoff h, fun _ _ => rfl, by rw [hzero]; exact covers_nil⟩
      rw [if_pos hn, hzero, hsame]
      show EStateM.bind _ _ s = _
      unfold EStateM.bind
      rw [read_beyond hoff]
      rfl
    · refine ⟨0, [], [], ?_, fun h => absurd hoff h, fun _ h => absurd h hn,
        by rw [hzero]; exact covers_nil⟩
      rw [if_neg hn, hzero, hsame]
      rfl
  · obtain ⟨blocks, stores, hrun, -, hstores⟩ := readLoop_spec fuel offset n buffer 0 s hoff
      hfuel
    exact ⟨_, blocks, stores, hrun, fun _ => BitVec.zero_add _, fun h => absurd h hoff, hstores⟩

/-- The contract of `block_io.h`. -/
theorem read_all_contract (d : Device) (offset n buffer : Word) (s : Bus) (hn : 0 < n)
    (fuel : Nat) (hfuel : n.toNat < fuel) :
    if d.size < offset then d.readAll fuel offset n buffer s = .ok (-1) s
    else ∃ s' : Bus,
      d.readAll fuel offset n buffer s =
        .ok (BitVec.ofNat 64 (min n.toNat (d.size.toNat - offset.toNat))) s' ∧
      (∀ i < min n.toNat (d.size.toNat - offset.toNat),
        s'.mem (buffer + BitVec.ofNat 32 i) = d.content (offset.toNat + i)) ∧
      (∀ a, (∀ i < min n.toNat (d.size.toNat - offset.toNat), a ≠ buffer + BitVec.ofNat 32 i) →
        s'.mem a = s.mem a) ∧
      (∃ stores, s'.stores = stores ++ s.stores ∧ ∀ a, Touches stores a ↔
        ∃ i < min n.toNat (d.size.toNat - offset.toNat), a = buffer + BitVec.ofNat 32 i) ∧
      ∃ blocks, s'.blocks = blocks ++ s.blocks ∧
        ∀ b ∈ blocks, ∃ i < min n.toNat (d.size.toNat - offset.toNat),
          b.toNat = (offset.toNat + i) / d.blockSize.toNat := by
  split
  · rename_i hoff
    obtain ⟨fuel, rfl⟩ : ∃ k, fuel = k + 1 := ⟨fuel - 1, by omega⟩
    unfold Device.readAll Device.readLoop
    rw [if_pos hn]
    show EStateM.bind _ _ s = _
    unfold EStateM.bind
    rw [read_beyond hoff]
    rfl
  · rename_i hoff
    obtain ⟨blocks, stores, hrun, hblocks, hstores⟩ := readLoop_spec fuel offset n buffer
      0 s hoff hfuel
    have hlt := available_lt (d := d) offset n
    refine ⟨_, hrun.trans (congrArg (EStateM.Result.ok · _) (BitVec.zero_add _)), fun i hi => ?_,
      fun a ha => ?_, ⟨stores, rfl, hstores⟩, blocks, rfl, hblocks⟩
    · exact overlay_at (f := fun i => d.content (offset.toNat + i)) hi (Nat.le_of_lt hlt)
    · exact overlay_off (f := fun i => d.content (offset.toNat + i)) ha

/-- Sectors of 512 bytes. -/
theorem sector_power : (512 : Word).toNat = 2 ^ 9 := rfl

/-- A file of two sectors, the second not full. -/
def sectors : Device where
  order := 9
  blockSize := 512
  blockSize_eq := sector_power
  size := 1000
  content i := BitVec.ofNat 8 i

/-- Too much is asked for, from the middle of the first sector on. -/
theorem read_all_contract_sectors : ∃ s' : Bus,
    sectors.readAll 1001 300 1000 0x80000000 ⟨fun _ => 0, [], []⟩ = .ok 700 s' ∧
    s'.mem 0x80000000 = 44 ∧ s'.mem 0x800002bc = 0 := by
  have h := read_all_contract sectors 300 1000 0x80000000 ⟨fun _ => 0, [], []⟩ (by decide) 1001
    (by decide)
  rw [if_neg (by decide)] at h
  obtain ⟨s', hrun, hin, hout, -⟩ := h
  refine ⟨s', hrun, hin 0 (by decide), hout _ fun i hi => ?_⟩
  have hi' : i < 700 := hi
  intro heq
  have hnat := congrArg BitVec.toNat heq
  rw [BitVec.toNat_add, BitVec.toNat_ofNat] at hnat
  have h₁ : (0x800002bc : Word).toNat = 0x800002bc := rfl
  have h₂ : (0x80000000 : Word).toNat = 0x80000000 := rfl
  omega

end OsKernel.Block
