import Mathlib.Tactic.IntervalCases
import OsKernel.Ide.Terms

/-!
# What a read delivers among others

On the terms of `Ide/Terms.lean`, a transfer brings the sector that was asked for, the loops
of `BlockIO` bring what they bring when a process is alone, a block of a file comes from the
disk or from a cache that is in order, and the system call delivers the bytes of its file.

The lemmas follow the code from the bottom: a poll, the registers, the words, a sector; then
`read` and the loop of `read_all`, over any way to fetch a block; then the disk and the way to
a block of a file. Each of them says what a task brings, from a world of which something is
known that holds whatever others do, up to a clash.

The loops are not followed a second time. `reads_read` and `reads_loop` have a run of
`Block/ReadAll.lean` on one side, of a device that nobody shares, and say that the task does
what that run does. So the arithmetic of offsets, and that the loop ends, come from there.

A sector number is four registers, of which the last has four bits (`sector_bits`). Below 2²⁸
nothing is lost.
-/

set_option autoImplicit false

namespace OsKernel.Ide

open Lib Prog Block

variable {P V : Type} [DecidableEq P] [DecidableEq V] {content : Nat → Byte} {files : V → File}
variable {w w' : World P V} {p q : P} {al : Prop} {C : World P V → Prop}

/-! ## A transfer

From the first register that is written to the last word that is taken, the drive belongs to one
process. The registers in between may be written in any order as far as the proof is concerned;
what counts is which sector they say when the command comes. -/

section Waiting

variable {K : World P V → Prop}
variable (hrely : ∀ {w w'}, K w → (terms content files p al).rely w w' → K w')

include hrely

theorem reads_status (hw : K w) : Reads content files p al (fun _ => K) (ask .status) w := by
  refine Task.Runs.request hw hrely fun w hw i r hr _ => ?_
  cases hr
  exact ⟨⟨fun q _ => Spares.refl q w, fun _ => id⟩, hw⟩

/-- A loop that waits for the drive. -/
theorem reads_poll (hw : K w) (mask : Byte) (set : Bool) :
    Reads content files p al (fun _ => K) (ask (.poll mask set)) w := by
  refine Task.Runs.request hw hrely fun w hw i r hr _ => ?_
  simp only [handle] at hr
  split at hr
  · cases hr
    exact ⟨⟨fun q _ => Spares.refl q w, fun _ => id⟩, hw⟩
  · cases hr

theorem reads_wait (hw : K w) : Reads content files p al (fun _ => K) waitForDrive w := by
  unfold waitForDrive
  apply Task.Runs.bind (reads_status hrely hw)
  intro status w hw
  apply Task.Runs.ite
  · exact fun _ => Or.inl rfl
  intro _
  apply Task.Runs.ite
  · exact fun _ => Or.inr rfl
  · exact fun _ => reads_poll hrely hw BSY false

end Waiting

/-- The first register that is written makes the drive that of `p`. -/
theorem reads_begin (hC : Stable content files p al C) (hw : C w) (hn : NoTransfer p al w) (reg : Nat)
    (v : Byte) : Reads content files p al
      (fun _ w => C w ∧ ∃ d : Drive, Transfers p (d.out reg v) w) (ask (.out reg v)) w := by
  refine Task.Runs.request (K := fun w => C w ∧ NoTransfer p al w) ⟨hw, hn⟩
    (fun h hr => ⟨hC.rely h.1 hr, h.2.stable hr⟩) fun w h i r hr hb => ?_
  obtain ⟨hw, hn⟩ := h
  cases hr
  have hnone : w.owner = none := by
    by_cases hal : al
    · exact hn.alone hal
    · by_contra hsome
      apply hb
      refine ⟨hal, ?_⟩
      simp [World.out, Option.isSome_iff_ne_none.mpr hsome, hn.owner]
  refine ⟨⟨fun q hq => ?_, fun _ hc => ?_⟩, hC.same hw ⟨rfl, rfl, rfl, rfl, rfl⟩, w.drive, rfl, rfl⟩
  · refine SameCaches.spares ⟨rfl, rfl, rfl, rfl, rfl⟩ ?_ ?_
    · rw [hnone]
      simp
    · intro he
      exact hq (Option.some.inj he).symm
  · simp [World.out, hc, hnone]

/-- The registers after it. -/
theorem reads_out (hC : Stable content files p al C) {d : Drive} (hw : C w) (ht : Transfers p d w)
    (reg : Nat) (v : Byte) : Reads content files p al
      (fun _ w => C w ∧ Transfers p (d.out reg v) w) (ask (.out reg v)) w := by
  refine Task.Runs.request (K := fun w => C w ∧ Transfers p d w) ⟨hw, ht⟩
    (fun h hr => ⟨hC.rely h.1 hr, h.2.stable hr⟩) fun w h i r hr hb => ?_
  obtain ⟨hw, ht⟩ := h
  cases hr
  refine ⟨⟨fun q hq => ?_, fun _ hc => ?_⟩, hC.same hw ⟨rfl, rfl, rfl, rfl, rfl⟩, rfl, ?_⟩
  · refine SameCaches.spares ⟨rfl, rfl, rfl, rfl, rfl⟩ (ht.other hq) ?_
    intro he
    exact hq (Option.some.inj he).symm
  · simp [World.out, hc, ht.owner]
  · exact congrArg (fun d => Drive.out d reg v) ht.drive

/-- Words `i` and up of a sector are still to be taken; behind the last one the transfer is over. -/
def Serving (p : P) (al : Prop) (sector : Word) (i : Nat) (w : World P V) : Prop :=
  if i = 128 then NoTransfer p al w
  else ∃ d : Drive, Transfers p d w ∧ d.serves = some (sector, i)

theorem reads_inl (hC : Stable content files p al C) {sector : Word} {i : Nat} (hi : i < 128)
    (hw : C w) (hs : Serving p al sector i w) : Reads content files p al
      (fun x w => x = le32 content (512 * sector.toNat + 4 * i) ∧ C w ∧
        Serving p al sector (i + 1) w) (ask .inl) w := by
  unfold Serving at hs
  rw [if_neg (Nat.ne_of_lt hi)] at hs
  obtain ⟨d, ht, hd⟩ := hs
  have hinl : d.inl content = (le32 content (512 * sector.toNat + 4 * i),
      { d with serves := if i + 1 = 128 then none else some (sector, i + 1) }) := by
    unfold Drive.inl
    rw [hd]
  refine Task.Runs.request (K := fun w => C w ∧ Transfers p d w) ⟨hw, ht⟩
    (fun h hr => ⟨hC.rely h.1 hr, h.2.stable hr⟩) fun w h _ r hr _ => ?_
  obtain ⟨hw, ht⟩ := h
  cases hr
  have hdrive : (w.inl content).drive = (w.drive.inl content).2 := rfl
  have howner : (w.inl content).owner =
      if (w.inl content).drive.serves.isNone then none else w.owner := rfl
  rw [ht.drive, hinl] at hdrive ⊢
  rw [hdrive] at howner
  refine ⟨⟨fun q hq => ?_, fun _ => id⟩, rfl, hC.same hw ⟨rfl, rfl, rfl, rfl, rfl⟩, ?_⟩
  · refine SameCaches.spares ⟨rfl, rfl, rfl, rfl, rfl⟩ (ht.other hq) ?_
    rw [howner]
    split
    · simp
    · exact ht.other hq
  · unfold Serving
    by_cases hlast : i + 1 = 128
    · rw [if_pos hlast]
      rw [if_pos hlast] at howner
      exact ⟨by rw [howner]; simp, fun _ => howner⟩
    · rw [if_neg hlast]
      rw [if_neg hlast] at hdrive howner
      exact ⟨_, ⟨howner.trans ht.owner, hdrive⟩, rfl⟩

/-- The words of a sector go into the buffer one after the other. -/
theorem reads_words (hC : Stable content files p al C) {sector : Word} :
    ∀ (left i : Nat) (ptr : Nat → Byte) {w : World P V}, i + left = 128 → C w →
      Serving p al sector i w → Reads content files p al
        (fun f w => (∀ j, f j = if 4 * i ≤ j ∧ j < 512 then content (512 * sector.toNat + j)
          else ptr j) ∧ C w ∧ NoTransfer p al w) (words left i ptr) w := by
  intro left
  induction left with
  | zero =>
    intro i ptr w hi hw hs
    have hend : i = 128 := hi
    unfold Serving at hs
    rw [if_pos hend] at hs
    refine ⟨fun j => ?_, hw, hs⟩
    rw [if_neg (by omega)]
  | succ left ih =>
    intro i ptr w hi hw hs
    unfold words
    apply Task.Runs.bind (reads_inl hC (by omega) hw hs)
    intro x w h
    obtain ⟨hx, hw, hs⟩ := h
    apply Task.Runs.mono (ih (i + 1) _ (by omega) hw hs)
    intro f w h
    refine ⟨fun j => ?_, h.2⟩
    rw [h.1 j]
    by_cases hrest : 4 * (i + 1) ≤ j ∧ j < 512
    · rw [if_pos hrest, if_pos (by omega)]
    by_cases hword : 4 * i ≤ j ∧ j < 4 * i + 4
    · rw [if_neg hrest, if_pos hword, if_pos (by omega), hx, byteOf_le32_add (by omega)]
      congr 1
      omega
    · rw [if_neg hrest, if_neg hword, if_neg (by omega)]

/-! ## The number of a sector -/

theorem sector_high {sector : Word} (h : sector.toNat < 2 ^ 28) {i : Nat} (hi : 28 ≤ i) :
    sector.getLsbD i = false := by
  apply Nat.testBit_lt_two_pow
  exact Nat.lt_of_lt_of_le h (Nat.pow_le_pow_right (by decide) hi)

/-- The registers hold the number of a sector. -/
theorem sector_bits (ch : Byte) {sector : Word} (h : sector.toNat < 2 ^ 28) (count : Byte)
    (serves : Option (Word × Nat)) :
    Drive.sector ⟨count, sector.setWidth 8, (sector >>> 8).setWidth 8, (sector >>> 16).setWidth 8,
      0xE0 ||| ch <<< 4 ||| ((sector >>> 24) &&& 0xf).setWidth 8, serves⟩ = sector := by
  have hhigh := @sector_high sector h
  unfold Drive.sector
  apply BitVec.eq_of_getLsbD_eq
  intro i hi
  by_cases hb : 28 ≤ i
  · rw [hhigh hb]
    interval_cases i <;> simp
  · have hb' : i < 28 := by omega
    clear hb h hhigh hi
    interval_cases i <;> simp

/-- `Ide::read_block` brings the sector. -/
theorem reads_sector (hC : Stable content files p al C) (ch : Byte) {sector : Word}
    (h : sector.toNat < 2 ^ 28) (buffer : Nat → Byte) (hw : C w) (hn : NoTransfer p al w) :
    Reads content files p al (fun f w => (∀ i < 512, f i = content (512 * sector.toNat + i)) ∧
      C w ∧ NoTransfer p al w) (readSector ch sector buffer) w := by
  unfold readSector
  apply Task.Runs.bind (reads_wait (K := fun w => C w ∧ NoTransfer p al w)
    (fun h hr => ⟨hC.rely h.1 hr, h.2.stable hr⟩) ⟨hw, hn⟩)
  intro _ w hw
  apply Task.Runs.bind (reads_begin hC hw.1 hw.2 2 1)
  intro _ w hw
  obtain ⟨hw, d, ht⟩ := hw
  apply Task.Runs.bind (reads_out hC hw ht 3 _)
  intro _ w hw
  apply Task.Runs.bind (reads_out hC hw.1 hw.2 4 _)
  intro _ w hw
  apply Task.Runs.bind (reads_out hC hw.1 hw.2 5 _)
  intro _ w hw
  apply Task.Runs.bind (reads_out hC hw.1 hw.2 6 _)
  intro _ w hw
  apply Task.Runs.bind (reads_out hC hw.1 hw.2 7 _)
  intro _ w hw
  obtain ⟨hw, ht⟩ := hw
  generalize hd : Drive.out _ 7 0x20 = d' at ht
  have hserves : d'.serves = some (sector, 0) := by
    rw [← hd]
    exact congrArg (fun s => some (s, 0)) (sector_bits ch h 1 d.serves)
  have hrely : ∀ {w w'}, C w ∧ Transfers p d' w → (terms content files p al).rely w w' →
      C w' ∧ Transfers p d' w' := fun h hr => ⟨hC.rely h.1 hr, h.2.stable hr⟩
  apply Task.Runs.bind (reads_wait hrely ⟨hw, ht⟩)
  intro _ w hw
  apply Task.Runs.bind (reads_poll hrely hw DRQ true)
  intro _ w hw
  apply Task.Runs.mono (reads_words hC 128 0 buffer rfl hw.1 ⟨d', hw.2, hserves⟩)
  intro f w hf
  refine ⟨fun i hi => ?_, hf.2⟩
  rw [hf.1 i, if_pos ⟨by omega, hi⟩]

/-! ## Blocks

`BlockIO` over a device of the model that nobody shares, and over one that processes share: the
second delivers what the first does, where fetching a block brings that block. `R m b w` says that
the bytes delivered so far make the memory `m`. -/

omit [DecidableEq V] in
theorem assert_bind {α : Type} {c : Prop} [Decidable c] (hc : c) (f : Unit → Thread V α) :
    assert c >>= f = f () := by
  unfold assert
  rw [if_pos hc]
  rfl

omit [DecidableEq P] [DecidableEq V] in
/-- A device that does not stop has passed its assertions. -/
theorem of_assert {c : Prop} [Decidable c] {α : Type} {f : Unit → Transfer α} {s : Bus}
    {Q : α → Bus → Prop} (h : wp (Block.assert c >>= f) Q (fun _ _ => False) s) :
    c ∧ wp (f ()) Q (fun _ _ => False) s := by
  rw [wp_bind, wp_assert] at h
  split at h
  · rename_i hc
    exact ⟨hc, h⟩
  · exact h.elim

omit [DecidableEq P] [DecidableEq V] in
/-- What is copied out of a block is in it. -/
theorem part_lt {d : Device} {offset n : Word} {i : Nat}
    (hi : i < if (kmin (d.blockSize - offset % d.blockSize) n).msb then 0
      else (kmin (d.blockSize - offset % d.blockSize) n).toNat) :
    (offset % d.blockSize).toNat + i < d.blockSize.toNat := by
  have hmod := Nat.mod_lt offset.toNat d.blockSize_pos
  have hin : (offset % d.blockSize).toNat = offset.toNat % d.blockSize.toNat := BitVec.toNat_umod ..
  have hrest : (d.blockSize - offset % d.blockSize).toNat =
      d.blockSize.toNat - (offset % d.blockSize).toNat := by
    apply BitVec.toNat_sub_of_le
    rw [BitVec.le_def, hin]
    exact Nat.le_of_lt hmod
  have hactual := kmin_toNat (d.blockSize - offset % d.blockSize) n
  split at hi <;> omega

section BlockIO

variable {β : Type} {d : Device} {R : Bytes → β → World P V → Prop}
variable {fetch : Word → Thread V (Nat → Byte)}
variable {deliver : Word → (Nat → Byte) → Nat → β → Thread V β}
variable (hfetch : ∀ {number m b w}, R m b w → number.toNat * d.blockSize.toNat < d.size.toNat →
  Reads content files p al (fun block w => (∀ i < d.blockSize.toNat,
    block i = d.content (number.toNat * d.blockSize.toNat + i)) ∧ R m b w) (fetch number) w)
variable (hdeliver : ∀ {pos src n m b w}, R m b w → Reads content files p al
  (fun b w => R (overlay m pos n src) b w) (deliver pos src n b) w)

include hfetch hdeliver

/-- `BlockIO::read`. -/
theorem reads_read {offset desired buffer : Word} {b : β} {s : Bus} {Q : BitVec 64 → Bus → Prop}
    (h : wp (d.read offset desired buffer) Q (fun _ _ => False) s) (hR : R s.mem b w) :
    Reads content files p al (fun r w => ∃ s', Q r.1 s' ∧ R s'.mem r.2 w)
      (read d.size d.blockSize fetch deliver offset desired buffer b) w := by
  unfold Device.read at h
  unfold read
  simp only at h ⊢
  by_cases hlt : d.size < offset
  · rw [if_pos hlt] at h ⊢
    exact ⟨s, h, hR⟩
  rw [if_neg hlt] at h ⊢
  by_cases heq : offset = d.size
  · rw [if_pos heq] at h ⊢
    exact ⟨s, h, hR⟩
  rw [if_neg heq] at h ⊢
  obtain ⟨h₁, h⟩ := of_assert h
  obtain ⟨h₂, h⟩ := of_assert h
  rw [assert_bind h₁, assert_bind h₂]
  -- the block is in use
  have hin : (offset / d.blockSize).toNat * d.blockSize.toNat < d.size.toNat := by
    rw [BitVec.toNat_udiv]
    apply Nat.lt_of_le_of_lt (Nat.div_mul_le_self ..)
    apply Nat.lt_of_le_of_ne (Nat.not_lt.mp hlt)
    exact fun he => heq (BitVec.toNat_inj.mp he)
  by_cases hwhole : kmin (d.blockSize - offset % d.blockSize) (kmin desired (d.size - offset)) =
      d.blockSize
  · rw [if_pos hwhole] at h ⊢
    obtain ⟨h₃, h⟩ := of_assert h
    rw [assert_bind h₃]
    apply Task.Runs.bind (hfetch hR hin)
    intro block w hblock
    apply Task.Runs.bind (hdeliver hblock.2)
    intro b w hb
    refine ⟨_, h, ?_⟩
    rwa [overlay_congr hblock.1] at hb
  · rw [if_neg hwhole] at h ⊢
    obtain ⟨h₃, h⟩ := of_assert h
    rw [assert_bind h₃]
    apply Task.Runs.bind (hfetch hR hin)
    intro block w hblock
    apply Task.Runs.bind (hdeliver hblock.2)
    intro b w hb
    refine ⟨_, h, ?_⟩
    rwa [overlay_congr fun i hi => hblock.1 _ (part_lt hi)] at hb

/-- The loop of `BlockIO::read_all`. -/
theorem reads_loop {Q : BitVec 64 → Bus → Prop} :
    ∀ (fuel : Nat) (offset n buffer : Word) (total : BitVec 64) {b : β} {s : Bus} {w : World P V},
      wp (d.readLoop fuel offset n buffer total) Q (fun _ _ => False) s → R s.mem b w →
      Reads content files p al (fun r w => ∃ s', Q r.1 s' ∧ R s'.mem r.2 w)
        (readAll d.size d.blockSize fetch deliver fuel offset n buffer total b) w := by
  intro fuel
  induction fuel with
  | zero => exact fun _ _ _ _ _ _ _ h => h.elim
  | succ fuel ih =>
    intro offset n buffer total b s w h hR
    unfold Device.readLoop at h
    unfold readAll
    by_cases hn : 0 < n
    · rw [if_pos hn] at h ⊢
      rw [wp_bind] at h
      apply Task.Runs.bind (reads_read (R := R) hfetch hdeliver h hR)
      intro r w hr
      obtain ⟨s', h, hR⟩ := hr
      by_cases hneg : r.1.slt 0
      · rw [if_pos hneg] at h ⊢
        exact ⟨s', h, hR⟩
      rw [if_neg hneg] at h ⊢
      by_cases hzero : r.1 = 0
      · rw [if_pos hzero] at h ⊢
        exact ⟨s', h, hR⟩
      rw [if_neg hzero] at h ⊢
      exact ih _ _ _ _ h hR
    · rw [if_neg hn] at h ⊢
      exact ⟨s, h, hR⟩

/-- `BlockIO::read_all` delivers what is available. -/
theorem reads_all (offset n buffer : Word) {m : Bytes} {b : β} (hR : R m b w) :
    Reads content files p al (fun r w =>
      (¬d.size < offset → r.1 = BitVec.ofNat 64 (d.available offset n)) ∧
      R (overlay m buffer (d.available offset n) fun i => d.content (offset.toNat + i)) r.2 w)
      (readAll d.size d.blockSize fetch deliver (n.toNat + 1) offset n buffer 0 b) w := by
  obtain ⟨cnt, blocks, stores, hrun, hcnt, -, -⟩ := readAll_got (d := d) (s := ⟨m, [], []⟩) offset n
    buffer (Nat.lt_succ_self n.toNat)
  have hw : wp (d.readLoop (n.toNat + 1) offset n buffer 0)
      (fun r s => r = cnt ∧ s.mem = overlay m buffer (d.available offset n)
        fun i => d.content (offset.toNat + i)) (fun _ _ => False) ⟨m, [], []⟩ := by
    unfold wp
    have hloop : d.readLoop (n.toNat + 1) offset n buffer 0 ⟨m, [], []⟩ = _ := hrun
    rw [hloop]
    exact ⟨rfl, rfl⟩
  apply Task.Runs.mono (reads_loop (R := R) hfetch hdeliver (n.toNat + 1) offset n buffer 0 hw hR)
  intro r w hr
  obtain ⟨s', ⟨hr, hmem⟩, hR⟩ := hr
  rw [hmem] at hR
  exact ⟨fun hle => hr.trans (hcnt hle), hR⟩

end BlockIO

/-! ## The disk -/

section Disk

variable {β : Type} {R : Bytes → β → World P V → Prop}
variable {deliver : Word → (Nat → Byte) → Nat → β → Thread V β}

/-- `ide->read_all`. -/
theorem reads_ide (hR : ∀ m b, Stable content files p al (R m b))
    (hdeliver : ∀ {pos src n m b w}, R m b w ∧ NoTransfer p al w → Reads content files p al
      (fun b w => R (overlay m pos n src) b w ∧ NoTransfer p al w) (deliver pos src n b) w)
    (ch : Byte) (offset n : Word) {m : Bytes} {b : β} (hw : R m b w) (hn : NoTransfer p al w) :
    Reads content files p al (fun r w =>
      R (overlay m 0 ((Ext2.ide content).available offset n) fun i => content (offset.toNat + i))
        r.2 w ∧ NoTransfer p al w) (ideReadAll deliver ch offset n b) w := by
  have hsize : (Ext2.ide content).size.toNat = 2 ^ 32 - 1 := rfl
  have hsector : (Ext2.ide content).blockSize.toNat = 512 := rfl
  have hfetch : ∀ {number m b w}, R m b w ∧ NoTransfer p al w →
      number.toNat * (Ext2.ide content).blockSize.toNat < (Ext2.ide content).size.toNat →
      Reads content files p al (fun block w => (∀ i < (Ext2.ide content).blockSize.toNat,
        block i = content (number.toNat * (Ext2.ide content).blockSize.toNat + i)) ∧
        R m b w ∧ NoTransfer p al w) (readSector ch number fun _ => 0) w := by
    intro number m b w hw hin
    rw [hsize, hsector] at hin
    apply Task.Runs.mono (reads_sector (hR m b) ch (by omega) _ hw.1 hw.2)
    intro block w h
    refine ⟨fun i hi => ?_, h.2⟩
    rw [h.1 i hi, hsector, Nat.mul_comm]
  exact Task.Runs.mono (reads_all (d := Ext2.ide content)
    (R := fun m b w => R m b w ∧ NoTransfer p al w) hfetch hdeliver offset n 0 ⟨hw, hn⟩)
    fun r w hr => hr.2

end Disk

theorem reads_word (hC : Stable content files p al C) (ch : Byte) (offset : Word) (hw : C w)
    (hn : NoTransfer p al w) : Reads content files p al
      (fun r w => r = wordOn content offset ∧ C w ∧ NoTransfer p al w) (readWord ch offset) w := by
  unfold readWord
  apply Task.Runs.bind (reads_ide (R := fun m b w => b = m ∧ C w) ?_ ?_ ch offset 4 ⟨rfl, hw⟩ hn)
  · intro r w h
    obtain ⟨⟨hr, hw⟩, hn⟩ := h
    refine ⟨?_, hw, hn⟩
    rw [hr]
    rfl
  · exact fun m b => ⟨fun h hr => ⟨h.1, hC.rely h.2 hr⟩, fun h hs => ⟨h.1, hC.same h.2 hs⟩⟩
  · intro pos src n m b w h
    exact ⟨⟨congrArg (fun b => overlay b pos n src) h.1.1, h.1.2⟩, h.2⟩

/-- `Node::read_block` finds the block. -/
theorem reads_find (hC : Stable content files p al C) (ch : Byte) {f : File} {number x : Word}
    (h : placeOf content f number = some x) (hw : C w) (hn : NoTransfer p al w) :
    Reads content files p al (fun r w => r = x ∧ C w ∧ NoTransfer p al w) (findBlock ch f number)
      w := by
  unfold placeOf at h
  unfold findBlock
  simp only at h ⊢
  by_cases hdirect : number < 12
  · rw [if_pos hdirect] at h ⊢
    exact ⟨Option.some.inj h, hw, hn⟩
  rw [if_neg hdirect] at h ⊢
  by_cases hsingle : number - 12 < f.blockSize / 4
  · rw [if_pos hsingle] at h ⊢
    apply Task.Runs.bind (reads_word hC ch _ hw hn)
    intro offset w ho
    rw [ho.1]
    exact ⟨Option.some.inj h, ho.2⟩
  rw [if_neg hsingle] at h ⊢
  by_cases hdouble : number - 12 - f.blockSize / 4 < f.blockSize / 4 * (f.blockSize / 4)
  · rw [if_pos hdouble] at h ⊢
    apply Task.Runs.bind (reads_word hC ch _ hw hn)
    intro offset w ho
    rw [ho.1]
    apply Task.Runs.bind (reads_word hC ch _ ho.2.1 ho.2.2)
    intro offset w ho
    rw [ho.1]
    exact ⟨Option.some.inj h, ho.2⟩
  rw [if_neg hdouble] at h ⊢
  by_cases hzero : f.blockSize / 4 * (f.blockSize / 4) = 0
  · rw [if_pos hzero] at h
    cases h
  rw [if_neg hzero] at h ⊢
  apply Task.Runs.bind (reads_word hC ch _ hw hn)
  intro offset w ho
  rw [ho.1]
  apply Task.Runs.bind (reads_word hC ch _ ho.2.1 ho.2.2)
  intro offset w ho
  rw [ho.1]
  apply Task.Runs.bind (reads_word hC ch _ ho.2.1 ho.2.2)
  intro offset w ho
  rw [ho.1]
  exact ⟨Option.some.inj h, ho.2⟩

end OsKernel.Ide
