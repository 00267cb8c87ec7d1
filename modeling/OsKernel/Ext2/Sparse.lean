import OsKernel.Ext2.BlockMap

/-!
# Files with holes

A pointer that is 0 stands for blocks of zeros. `read_block` takes it for the number of block
0, like any other one, so a file reads as zeros in its holes only if block 0 of the disk is
nothing but zeros.

The way of the code through the image is that of `Ext2/BlockMap.lean` (`route`, `chase`); what
is new is that it goes on in block 0 where a pointer is missing. If that is zeros, whatever is
looked up there is 0 again, and the block that comes is block 0.

For the other direction there are two families of images, since there are two ways to fail.
`countdown` leads the code to the hole and shows block 0. With `pitted` the code misses a hole
that is there, because of the places that are not scaled, and ends at a block that is not
zeros. On a file system of 1 KB blocks, block 0 has the boot sector in it.
-/

set_option autoImplicit false

namespace OsKernel.Ext2

open Lib Prog Block

variable {content block0 : Nat → Byte} {bs w number buffer : Word} {k imageSize size i : Nat}
variable {data : Nat → Word} {fresh : Nat → Byte} {mem : Bytes} {s : State}
variable {E : Stop → State → Prop}

/-- A pointer on the path is 0; the blocks before it are in an image of `imageSize` bytes. -/
def Hole (content : Nat → Byte) (blockSize imageSize : Nat) : Nat → List Nat → Prop
  | b, [] => b = 0
  | b, j :: js => b = 0 ∨ ((0 < b ∧ (b + 1) * blockSize ≤ imageSize) ∧
      Hole content blockSize imageSize (entry content blockSize b j) js)

/-- Block `n` of the file is a hole, on an image smaller than 4 GB. -/
def Sparse (content : Nat → Byte) (blockSize : Nat) (data : Nat → Word) (n : Nat) : Prop :=
  ∃ imageSize, imageSize < 2 ^ 32 ∧
    Hole content blockSize imageSize (data (path (blockSize / 4) n).1).toNat
      (path (blockSize / 4) n).2

/-- A node with an empty cache fills the buffer with zeros. -/
def Zeroed (content : Nat → Byte) (data : Nat → Word) (fresh : Nat → Byte) (buffer : Word)
    (mem : Bytes) (bs number : Word) : Prop :=
  ∃ node, readBlock content fresh number buffer (start bs data mem) =
    .ok () ⟨node, overlay mem buffer bs.toNat fun _ => 0⟩

/-- On every image with this block 0, and for every file and buffer, block `number` reads as zeros if
it is a hole. -/
def ReadsZeros (bs number : Word) (block0 : Nat → Byte) : Prop :=
  ∀ content data fresh buffer mem, (∀ i < bs.toNat, content i = block0 i) →
    Sparse content bs.toNat data number.toNat → Zeroed content data fresh buffer mem bs number

theorem hole_zero : ∀ {js : List Nat}, Hole content size imageSize 0 js
  | [] => rfl
  | _ :: _ => .inl rfl

/-! ## A block 0 of zeros -/

theorem block_zero_le (bs : Word) : ((0 : Word).toNat + 1) * bs.toNat ≤ bs.toNat :=
  Nat.le_of_eq (Nat.one_mul _)

/-- Whatever is looked up in block 0 is 0. -/
theorem wp_chase_nothing (hzero : ∀ i < bs.toNat, content i = 0) :
    ∀ {ys : List Word}, (∀ y ∈ ys, y.toNat + 4 ≤ bs.toNat) →
      wp (chase content bs 0 ys) (fun w' s' => s' = s ∧ w' = 0) E s := by
  intro ys
  induction ys with
  | nil => exact fun _ => ⟨rfl, rfl⟩
  | cons y ys ih =>
    intro hys
    have hy := hys y List.mem_cons_self
    have hlt := bs.isLt
    have hword : le32 content ((0 : Word).toNat * bs.toNat + y.toNat) = 0 := by
      have h0 : (0 : Word).toNat = 0 := rfl
      rw [h0, Nat.zero_mul, Nat.zero_add]
      unfold le32
      rw [hzero _ (by omega), hzero _ (by omega), hzero _ (by omega), hzero _ (by omega)]
      rfl
    unfold chase
    rw [wp_bind]
    refine wp_readWord_block (block_zero_le bs) hlt rfl hy ?_
    rw [hword]
    exact ih fun y' hy' => hys y' (List.mem_cons_of_mem _ hy')

/-- At places 0 a hole is found, and what follows it is looked up in block 0. -/
theorem wp_chase_hole (z : Sizes bs k) (himage : imageSize < 2 ^ 32)
    (hzero : ∀ i < bs.toNat, content i = 0) :
    ∀ {js : List Nat} {ys : List Word} {w : Word}, ys.map BitVec.toNat = js → (∀ d ∈ js, d = 0) →
      Hole content bs.toNat imageSize w.toNat js →
      wp (chase content bs w ys) (fun w' s' => s' = s ∧ w' = 0) E s := by
  have hsize := z.size
  have hpos : 0 < 2 ^ k := Nat.two_pow_pos k
  intro js
  induction js with
  | nil =>
    intro ys w hys _ hhole
    obtain rfl := List.map_eq_nil_iff.mp hys
    exact ⟨rfl, BitVec.toNat_inj.mp hhole⟩
  | cons j js ih =>
    intro ys w hys hj hhole
    obtain ⟨y, ys', rfl, rfl, hys'⟩ := List.map_eq_cons_iff.mp hys
    have hy : y.toNat = 0 := hj _ List.mem_cons_self
    rcases hhole with h0 | ⟨hon, hrest⟩
    · obtain rfl : w = 0 := BitVec.toNat_inj.mp h0
      refine wp_chase_nothing hzero fun y' hy' => ?_
      have h0 := hj y'.toNat (hys ▸ List.mem_map_of_mem hy')
      omega
    · rw [hy] at hrest
      unfold chase
      rw [wp_bind]
      refine wp_readWord_block hon.2 himage hy (by omega) ?_
      exact ih hys' (fun d hd => hj d (List.mem_cons_of_mem _ hd)) hrest

/-- Holes read as zeros where block 0 is zeros, at the places that the code takes. -/
theorem Sizes.zeroed (z : Sizes bs k) (hne : number ≠ 0xffffffff)
    (hlimit : number.toNat < 12 + 256 * 2 ^ k + (256 * 2 ^ k) ^ 2 + (256 * 2 ^ k) ^ 3)
    (hsmall : 12 + 256 * 2 ^ k ≤ number.toNat → k ≤ 7)
    (hplaces : ∀ d ∈ (path (256 * 2 ^ k) number.toNat).2.tail, d = 0)
    (hzero : ∀ i < bs.toNat, content i = 0) (hsparse : Sparse content bs.toNat data number.toNat) :
    wp (readBlock content fresh number buffer)
      (fun _ s' => s'.mem = overlay mem buffer bs.toNat fun _ => 0) (fun _ _ => False)
      (start bs data mem) := by
  obtain ⟨imageSize, himage, hhole⟩ := hsparse
  obtain ⟨ys, hys, hway⟩ := z.way hne hlimit hsmall
  have hsize := z.size
  have hpos : 0 < 2 ^ k := Nat.two_pow_pos k
  have hfound : wp (chase content bs (data (path (256 * 2 ^ k) number.toNat).1) ys)
      (fun w' s' => s' = begun bs data mem fresh number ∧ w' = 0) (fun _ _ => False)
      (begun bs data mem fresh number) := by
    rw [z.quarter.2] at hhole
    generalize path (256 * 2 ^ k) number.toNat = way at hys hplaces hhole ⊢
    obtain ⟨root, js⟩ := way
    cases js with
    | nil =>
      obtain rfl : ys = [] := hys
      exact ⟨rfl, BitVec.toNat_inj.mp hhole⟩
    | cons j js =>
      obtain ⟨y, ys', rfl, hy, hys', hlt⟩ := hys
      have hj : j < 256 * 2 ^ k := hlt j List.mem_cons_self
      rcases hhole with h0 | ⟨hon, hrest⟩
      · have h0' : data root = 0 := BitVec.toNat_inj.mp h0
        rw [h0']
        refine wp_chase_nothing hzero fun y' hy' => ?_
        rcases List.mem_cons.mp hy' with rfl | hy'
        · omega
        · have hz : y'.toNat = 0 := hplaces _ (hys' ▸ List.mem_map_of_mem hy')
          omega
      · unfold chase
        rw [wp_bind]
        refine wp_readWord_block hon.2 himage hy (by omega) ?_
        exact wp_chase_hole z himage hzero hys' hplaces hrest
  rw [hway]
  refine wp_seq hfound fun w s' hs => ?_
  obtain ⟨rfl, rfl⟩ := hs
  refine wp_mono (z.wp_deliver (block_zero_le bs) bs.isLt)
    (fun _ s' h => ?_) fun _ _ h => h
  rw [h]
  refine overlay_congr fun i hi => ?_
  have h0 : (0 : Word).toNat = 0 := rfl
  rw [h0, Nat.zero_mul, Nat.zero_add]
  exact hzero i hi

/-! ## Images with a hole that does not read as zeros

The first block of these images is arbitrary, since the condition is about it, and must be shown
necessary: for any byte of it that is not 0, an image on which a hole delivers that byte
(`countdown`). The other images have a hole that the code does not find, and block 0 filled with
zeros does not help there (`pitted`). -/

/-- An image with this block 0, whose other blocks are given by `f`. -/
def based (block0 : Nat → Byte) (size : Nat) (f : Nat → Nat → Byte) (x : Nat) : Byte :=
  if x < size then block0 x else f (x / size) (x % size)

variable {f : Nat → Nat → Byte}

theorem based_low (hi : i < size) : based block0 size f i = block0 i := if_pos hi

theorem based_at {b o : Nat} (ho : o < size) (hb : b ≠ 0) :
    based block0 size f (b * size + o) = f b o := by
  obtain ⟨hdiv, hmod⟩ := in_block (b := b) ho
  have hle : size ≤ b * size := Nat.le_mul_of_pos_left _ (Nat.pos_of_ne_zero hb)
  unfold based
  rw [if_neg (by omega), hdiv, hmod]

/-- A word of which only the first byte is not 0. -/
theorem based_word {b o : Nat} (ho : o + 3 < size) (hb : b ≠ 0) (h₁ : f b (o + 1) = 0)
    (h₂ : f b (o + 2) = 0) (h₃ : f b (o + 3) = 0) :
    (le32 (based block0 size f) (b * size + o)).toNat = (f b o).toNat := by
  rw [le32_single, based_at (by omega) hb]
  · rw [Nat.add_assoc, based_at (by omega) hb, h₁]
  · rw [Nat.add_assoc, based_at (by omega) hb, h₂]
  · rw [Nat.add_assoc, based_at (by omega) hb, h₃]

/-- A byte of the buffer that is not 0. -/
theorem not_zeroed (hi : i < bs.toNat) (hbs : bs.toNat ≤ 2 ^ 32)
    (hw : wp (readBlock content fresh number buffer)
      (fun _ s' => s'.mem (buffer + BitVec.ofNat 32 i) ≠ 0) (fun _ _ => True) (start bs data mem)) :
    ¬Zeroed content data fresh buffer mem bs number := by
  rintro ⟨node, hr⟩
  have hne := wp_ok hw hr
  have hat : overlay mem buffer bs.toNat (fun _ => 0) (buffer + BitVec.ofNat 32 i) = 0 :=
    overlay_at hi hbs
  exact hne hat

/-- The places are entries, each read as a whole. -/
theorem Sizes.places (z : Sizes bs k) {js : List Nat} {ys : List Word}
    (hys : Scaled (256 * 2 ^ k) js ys) (hplaces : ∀ d ∈ js.tail, d = 0) :
    ys.length = js.length ∧ (∀ y ∈ ys, y.toNat % 4 = 0 ∧ y.toNat + 4 ≤ bs.toNat) ∧
      ∀ d ∈ js, 4 * d + 4 ≤ bs.toNat := by
  have hsize := z.size
  have hpos : 0 < 2 ^ k := Nat.two_pow_pos k
  cases js with
  | nil =>
    obtain rfl : ys = [] := hys
    exact ⟨rfl, fun _ hy => (List.not_mem_nil hy).elim, fun _ hd => (List.not_mem_nil hd).elim⟩
  | cons j js =>
    obtain ⟨y, ys', rfl, hy, rfl, hlt⟩ := hys
    have hj := hlt j List.mem_cons_self
    refine ⟨by simp, fun y' hy' => ?_, fun d hd => ?_⟩
    · rcases List.mem_cons.mp hy' with rfl | hy'
      · omega
      · have h0 : y'.toNat = 0 := hplaces _ (List.mem_map_of_mem hy')
        omega
    · have hd' := hlt d hd
      omega

/-- The entries of block `b` are `b - 1`. -/
def countdown (b o : Nat) : Byte := if o % 4 = 0 then BitVec.ofNat 8 (b - 1) else 0

theorem countdown_word {b o : Nat} (ho : o + 3 < size) (hb : b ≠ 0) (hb' : b ≤ 4) (h4 : o % 4 = 0) :
    (le32 (based block0 size countdown) (b * size + o)).toNat = b - 1 := by
  rw [based_word ho hb (if_neg (by omega)) (if_neg (by omega)) (if_neg (by omega))]
  unfold countdown
  rw [if_pos h4, BitVec.toNat_ofNat]
  omega

theorem countdown_hole : ∀ {js : List Nat}, (∀ d ∈ js, 4 * d + 4 ≤ size) → js.length ≤ 4 →
    (js.length + 1) * size ≤ imageSize →
    Hole (based block0 size countdown) size imageSize js.length js := by
  intro js
  induction js with
  | nil => exact fun _ _ _ => rfl
  | cons j js ih =>
    intro hj hlength himage
    have hlength' : js.length + 1 ≤ 4 := hlength
    have hj0 := hj j List.mem_cons_self
    have hentry : entry (based block0 size countdown) size (js.length + 1) j = js.length := by
      unfold entry
      rw [countdown_word (by omega) (by omega) hlength' (by omega), Nat.add_sub_cancel]
    refine .inr ⟨⟨Nat.succ_pos _, himage⟩, ?_⟩
    rw [List.length_cons, hentry]
    refine ih (fun d hd => hj d (List.mem_cons_of_mem _ hd)) (by omega) ?_
    exact Nat.le_trans (Nat.mul_le_mul_right _ (Nat.le_succ _)) himage

/-- The code finds the hole behind the last block. -/
theorem wp_chase_countdown : ∀ {ys : List Word} {w : Word},
    (∀ y ∈ ys, y.toNat % 4 = 0 ∧ y.toNat + 4 ≤ bs.toNat) → w.toNat = ys.length → ys.length ≤ 4 →
    (ys.length + 1) * bs.toNat < 2 ^ 32 →
    wp (chase (based block0 bs.toNat countdown) bs w ys) (fun w' s' => s' = s ∧ w' = 0) E s := by
  intro ys
  induction ys with
  | nil => exact fun _ hw _ _ => ⟨rfl, BitVec.toNat_inj.mp hw⟩
  | cons y ys ih =>
    intro w hys hw hlength himage
    have hlength' : ys.length + 1 ≤ 4 := hlength
    have hw' : w.toNat = ys.length + 1 := hw
    obtain ⟨h4, hin⟩ := hys y List.mem_cons_self
    have hword : (le32 (based block0 bs.toNat countdown) (w.toNat * bs.toNat + y.toNat)).toNat =
        w.toNat - 1 := countdown_word (by omega) (by omega) (by omega) h4
    unfold chase
    rw [wp_bind]
    refine wp_readWord_block (Nat.le_of_eq (by rw [hw])) himage rfl hin ?_
    refine ih (fun y' hy' => hys y' (List.mem_cons_of_mem _ hy')) (by omega) (by omega) ?_
    exact Nat.lt_of_le_of_lt (Nat.mul_le_mul_right _ (Nat.le_succ _)) himage

/-- A byte of block 0 that is not 0 is delivered for a hole. -/
theorem Sizes.zero_of_reads (z : Sizes bs k) (hne : number ≠ 0xffffffff)
    (hlimit : number.toNat < 12 + 256 * 2 ^ k + (256 * 2 ^ k) ^ 2 + (256 * 2 ^ k) ^ 3)
    (hsmall : 12 + 256 * 2 ^ k ≤ number.toNat → k ≤ 7)
    (hplaces : ∀ d ∈ (path (256 * 2 ^ k) number.toNat).2.tail, d = 0)
    (hreads : ReadsZeros bs number block0) : ∀ i < bs.toNat, block0 i = 0 := by
  intro i hi
  by_contra hbyte
  have hpow := z.pow_le
  have hsize := z.size
  have hthree := path_length (256 * 2 ^ k) number.toNat
  have himage : ((path (256 * 2 ^ k) number.toNat).2.length + 1) * bs.toNat < 2 ^ 32 := by
    by_cases hlt : number.toNat < 12 + 256 * 2 ^ k
    · have htail := congrArg List.length (path_tail hlt)
      rw [List.length_tail, List.length_nil] at htail
      refine Nat.lt_of_le_of_lt (Nat.mul_le_mul_right _ (by omega : _ ≤ 2)) (by omega)
    · have hpow' : 2 ^ k ≤ 2 ^ 7 := Nat.pow_le_pow_right (by decide) (hsmall (Nat.not_lt.mp hlt))
      refine Nat.lt_of_le_of_lt (Nat.mul_le_mul_right _ (by omega : _ ≤ 4)) (by omega)
  obtain ⟨ys, hys, hway⟩ := z.way hne hlimit hsmall
  obtain ⟨hlength, hys', hjs⟩ := z.places hys hplaces
  generalize hpath : path (256 * 2 ^ k) number.toNat = way at *
  obtain ⟨root, js⟩ := way
  simp only at *
  have hroot : (BitVec.ofNat 32 js.length).toNat = js.length := by
    rw [BitVec.toNat_ofNat]
    omega
  have hnot : ¬Zeroed (based block0 bs.toNat countdown) (fun _ => BitVec.ofNat 32 js.length)
      (fun _ => 0) 0 (fun _ => 0) bs number := by
    refine not_zeroed hi (Nat.le_of_lt bs.isLt) ?_
    rw [hway]
    refine wp_seq (wp_chase_countdown hys' (by rw [hroot, hlength]) (by omega)
      (by rw [hlength]; exact himage)) fun w s' hs => ?_
    obtain ⟨rfl, rfl⟩ := hs
    refine wp_mono (z.wp_deliver (block_zero_le bs) bs.isLt) (fun _ s' h => ?_) fun _ _ h => h
    rw [h, overlay_at hi (Nat.le_of_lt bs.isLt)]
    have h0 : (0 : Word).toNat = 0 := rfl
    rw [h0, Nat.zero_mul, Nat.zero_add, based_low hi]
    exact hbyte
  refine hnot (hreads _ _ _ _ _ (fun i hi => based_low hi)
    ⟨(js.length + 1) * bs.toNat, himage, ?_⟩)
  rw [z.quarter.2, hpath, hroot]
  exact countdown_hole hjs (by omega) (Nat.le_refl _)

/-- The entries of block 1 are 2; block 2 and block 3 have one byte that is not 0, and the others are
filled with 7. -/
def pitted (r₂ r₃ : Nat) : Nat → Nat → Byte
  | 1, o => if o % 4 = 0 then 2 else 0
  | 2, o => if o = r₂ then 3 else 0
  | 3, o => if o = r₃ then 4 else 0
  | _, _ => 7

section Pitted

variable {r r₂ r₃ q b : Nat} {v : Byte}

/-- A block of which only byte `r` is not 0: what the code takes for entry `r`, and entry `r`. -/
theorem based_pit (hf : ∀ o, f b o = if o = r then v else 0) (hb : b ≠ 0) (h : 4 * r + 3 < size) :
    (le32 (based block0 size f) (b * size + r)).toNat = v.toNat ∧
      (r ≠ 0 → entry (based block0 size f) size b r = 0) := by
  constructor
  · rw [based_word (by omega) hb, hf, if_pos rfl] <;> rw [hf, if_neg (by omega)]
  · intro hr
    unfold entry
    rw [based_word h hb, hf, if_neg (by omega)]
    · rfl
    all_goals rw [hf, if_neg (by omega)]

/-- The right way ends at a hole, and the code's way at a block in which a byte is not 0. -/
structure Passes (bs : Word) (js : List Nat) (ys : List Word) (content : Nat → Byte) (b i : Nat) :
    Prop where
  hole : Hole content bs.toNat (5 * bs.toNat) 1 js
  chase : ∀ s, wp (chase content bs 1 ys) (fun w s' => s' = s ∧ w.toNat = b) (fun _ _ => True) s
  block : b < 5
  inside : i < bs.toNat
  byte : content (b * bs.toNat + i) ≠ 0

/-- The words of the image with pits. -/
structure Pits (size q r₂ r₃ : Nat) (content : Nat → Byte) : Prop where
  first : (le32 content (1 * size + 4 * q)).toNat = 2
  second : (le32 content (2 * size + r₂)).toNat = 3
  third : (le32 content (3 * size + r₃)).toNat = 4
  second_hole : r₂ ≠ 0 → entry content size 2 r₂ = 0
  third_hole : r₃ ≠ 0 → entry content size 3 r₃ = 0
  byte₂ : content (3 * size + r₃) ≠ 0
  byte₃ : content (4 * size + 0) ≠ 0

theorem pits (hq : 4 * q + 3 < size) (h₂ : 4 * r₂ + 3 < size) (h₃ : 4 * r₃ + 3 < size) :
    Pits size q r₂ r₃ (based block0 size (pitted r₂ r₃)) := by
  obtain ⟨hsecond, hhole₂⟩ := @based_pit block0 size (pitted r₂ r₃) r₂ 2 3 (fun _ => rfl)
    (by decide) h₂
  obtain ⟨hthird, hhole₃⟩ := @based_pit block0 size (pitted r₂ r₃) r₃ 3 4 (fun _ => rfl)
    (by decide) h₃
  have hlast : based block0 size (pitted r₂ r₃) (4 * size + 0) = 7 :=
    based_at (by omega) (by decide)
  refine ⟨?_, hsecond, hthird, hhole₂, hhole₃, ?_, ?_⟩
  · have hval : pitted r₂ r₃ 1 (4 * q) = 2 := if_pos (by omega)
    rw [based_word hq (by decide) (if_neg (by omega)) (if_neg (by omega)) (if_neg (by omega)), hval]
    rfl
  · have hval : pitted r₂ r₃ 3 r₃ = 4 := if_pos rfl
    rw [based_at (by omega) (by decide), hval]
    decide
  · rw [hlast]
    decide

/-- Two index blocks: the hole is in the second one. -/
theorem Pits.passes_two (P : Pits bs.toNat q r 0 content) (z : Sizes bs k) (hk : k ≤ 7)
    {y y' : Word} (hy : y.toNat = 4 * q) (hy' : y'.toNat = r) (hq : q < 256 * 2 ^ k)
    (hr : r < 256 * 2 ^ k) (hr0 : r ≠ 0) : Passes bs [q, r] [y, y'] content 3 0 := by
  have hpow : 2 ^ k ≤ 2 ^ 7 := Nat.pow_le_pow_right (by decide) hk
  have hsize := z.size
  have himage : 5 * bs.toNat < 2 ^ 32 := by omega
  have hfirst : entry content bs.toNat 1 q = 2 := P.first
  refine ⟨.inr ⟨by omega, ?_⟩, fun s => ?_, by decide, by omega, P.byte₂⟩
  · rw [hfirst]
    exact .inr ⟨by omega, P.second_hole hr0⟩
  · unfold Ext2.chase Ext2.chase Ext2.chase
    rw [wp_bind]
    refine wp_readWord_block (Nat.mul_le_mul_right _ (by decide)) himage hy (by omega) ?_
    have hw := P.first
    have hone : (1 : Word).toNat = 1 := rfl
    rw [hone]
    generalize le32 content (1 * bs.toNat + 4 * q) = w at hw ⊢
    rw [wp_bind]
    refine wp_readWord_block (Nat.mul_le_mul_right _ (by omega)) himage hy' (by omega) ⟨rfl, ?_⟩
    rw [hw]
    exact P.second

/-- Three index blocks: the hole is in the second or in the third one. -/
theorem Pits.passes_three (P : Pits bs.toNat q r₂ r₃ content) (z : Sizes bs k) (hk : k ≤ 7)
    {y y₂ y₃ : Word} (hy : y.toNat = 4 * q) (hy₂ : y₂.toNat = r₂) (hy₃ : y₃.toNat = r₃)
    (hq : q < 256 * 2 ^ k) (hr₂ : r₂ < 256 * 2 ^ k) (hr₃ : r₃ < 256 * 2 ^ k)
    (hr0 : r₂ ≠ 0 ∨ r₃ ≠ 0) : Passes bs [q, r₂, r₃] [y, y₂, y₃] content 4 0 := by
  have hpow : 2 ^ k ≤ 2 ^ 7 := Nat.pow_le_pow_right (by decide) hk
  have hsize := z.size
  have himage : 5 * bs.toNat < 2 ^ 32 := by omega
  have hfirst : entry content bs.toNat 1 q = 2 := P.first
  refine ⟨.inr ⟨by omega, ?_⟩, fun s => ?_, by decide, by omega, P.byte₃⟩
  · rw [hfirst]
    refine .inr ⟨by omega, ?_⟩
    by_cases h0 : r₂ = 0
    · subst h0
      have hsecond : entry content bs.toNat 2 0 = 3 := P.second
      rw [hsecond]
      exact .inr ⟨by omega, P.third_hole (hr0.resolve_left fun h => h rfl)⟩
    · rw [P.second_hole h0]
      exact .inl rfl
  · unfold Ext2.chase Ext2.chase Ext2.chase Ext2.chase
    rw [wp_bind]
    refine wp_readWord_block (Nat.mul_le_mul_right _ (by decide)) himage hy (by omega) ?_
    have hw := P.first
    have hone : (1 : Word).toNat = 1 := rfl
    rw [hone]
    generalize le32 content (1 * bs.toNat + 4 * q) = w at hw ⊢
    rw [wp_bind]
    refine wp_readWord_block (Nat.mul_le_mul_right _ (by omega)) himage hy₂ (by omega) ?_
    have hw₂ := P.second
    rw [hw]
    generalize le32 content (2 * bs.toNat + r₂) = w₂ at hw₂ ⊢
    rw [wp_bind]
    refine wp_readWord_block (Nat.mul_le_mul_right _ (by omega)) himage hy₃ (by omega) ⟨rfl, ?_⟩
    rw [hw₂]
    exact P.third

theorem Sizes.passes (z : Sizes bs k) (hk : k ≤ 7) {js : List Nat} {ys : List Word}
    (hys : Scaled (256 * 2 ^ k) js ys) (hlength : js.length ≤ 3)
    (hdigit : ∃ d ∈ js.tail, d ≠ 0) (block0 : Nat → Byte) :
    ∃ r₂ r₃ b, Passes bs js ys (based block0 bs.toNat (pitted r₂ r₃)) b 0 := by
  have hsize := z.size
  have hpos : 0 < 2 ^ k := Nat.two_pow_pos k
  match js, hys, hlength, hdigit with
  | [], _, _, hdigit =>
    obtain ⟨d, hd, -⟩ := hdigit
    cases hd
  | [_], _, _, hdigit =>
    obtain ⟨d, hd, -⟩ := hdigit
    cases hd
  | [q, r], hys, _, hdigit =>
    obtain ⟨y, ys', rfl, hy, hys', hlt⟩ := hys
    obtain ⟨y', ys'', rfl, hy', hys''⟩ := List.map_eq_cons_iff.mp hys'
    obtain rfl := List.map_eq_nil_iff.mp hys''
    obtain ⟨d, hd, hd0⟩ := hdigit
    rw [List.mem_singleton.mp hd] at hd0
    have hq := hlt q List.mem_cons_self
    have hr := hlt r (List.mem_cons_of_mem _ List.mem_cons_self)
    exact ⟨r, 0, _, (pits (by omega) (by omega) (by omega)).passes_two z hk hy hy' hq hr hd0⟩
  | [q, r₂, r₃], hys, _, hdigit =>
    obtain ⟨y, ys', rfl, hy, hys', hlt⟩ := hys
    obtain ⟨y₂, ys₂, rfl, hy₂, hys₂⟩ := List.map_eq_cons_iff.mp hys'
    obtain ⟨y₃, ys₃, rfl, hy₃, hys₃⟩ := List.map_eq_cons_iff.mp hys₂
    obtain rfl := List.map_eq_nil_iff.mp hys₃
    have hq := hlt q List.mem_cons_self
    have hr₂ := hlt r₂ (List.mem_cons_of_mem _ List.mem_cons_self)
    have hr₃ := hlt r₃ (List.mem_cons_of_mem _ (List.mem_cons_of_mem _ List.mem_cons_self))
    refine ⟨r₂, r₃, _, (pits (by omega) (by omega) (by omega)).passes_three z hk hy hy₂ hy₃ hq hr₂
      hr₃ ?_⟩
    obtain ⟨d, hd, hd0⟩ := hdigit
    rcases List.mem_cons.mp hd with rfl | hd
    · exact .inl hd0
    · rw [List.mem_singleton.mp hd] at hd0
      exact .inr hd0
  | _ :: _ :: _ :: _ :: _, _, hlength, _ => exact absurd hlength (by simp)

/-- A hole behind places that are not 0 is missed. -/
theorem Sizes.hole_passed (z : Sizes bs k) (hk : k ≤ 7) (hne : number ≠ 0xffffffff)
    (hlimit : number.toNat < 12 + 256 * 2 ^ k + (256 * 2 ^ k) ^ 2 + (256 * 2 ^ k) ^ 3)
    (hdigit : ∃ d ∈ (path (256 * 2 ^ k) number.toNat).2.tail, d ≠ 0) :
    ¬ReadsZeros bs number block0 := by
  intro hreads
  have hpow : 2 ^ k ≤ 2 ^ 7 := Nat.pow_le_pow_right (by decide) hk
  have hsize := z.size
  obtain ⟨ys, hys, hway⟩ := z.way hne hlimit fun _ => hk
  obtain ⟨r₂, r₃, b, P⟩ := z.passes hk hys (path_length _ _) hdigit block0
  have hblock := P.block
  have hpos : 0 < 2 ^ k := Nat.two_pow_pos k
  have hnot : ¬Zeroed (based block0 bs.toNat (pitted r₂ r₃)) (fun _ => 1) (fun _ => 0) 0
      (fun _ => 0) bs number := by
    refine not_zeroed P.inside (Nat.le_of_lt bs.isLt) ((hway ..).mpr ?_)
    refine wp_seq (P.chase _) fun w s' hs => ?_
    obtain ⟨rfl, rfl⟩ := hs
    refine wp_mono (z.wp_deliver (Nat.mul_le_mul_right _ (by omega : _ ≤ 5))
      (by omega : 5 * bs.toNat < 2 ^ 32)) (fun _ s' h => ?_) fun _ _ h => h
    rw [h, overlay_at P.inside (Nat.le_of_lt bs.isLt)]
    exact P.byte
  refine hnot (hreads _ _ _ _ _ (fun i hi => based_low hi) ⟨5 * bs.toNat, by omega, ?_⟩)
  rw [z.quarter.2]
  exact P.hole

end Pitted

/-- No block of the file but holes, and block 0 as given. -/
theorem ReadsZeros.apply (h : ReadsZeros bs number block0) :
    Zeroed (based block0 bs.toNat fun _ _ => 0) (fun _ => 0) (fun _ => 0) 0 (fun _ => 0) bs number :=
  h _ _ _ _ _ (fun _ hi => based_low hi) ⟨0, by decide, hole_zero⟩

/-- Holes read as zeros if block 0 is zeros, for the blocks of the file that are found; and in general
only then. -/
theorem sparse_reads_zeros {bs : Word} {k : Nat} (z : Sizes bs k) {number : Word}
    (hlimit : number.toNat < 12 + bs.toNat / 4 + (bs.toNat / 4) ^ 2 + (bs.toNat / 4) ^ 3)
    (block0 : Nat → Byte) :
    ReadsZeros bs number block0 ↔ (∀ i < bs.toNat, block0 i = 0) ∧ number ≠ 0xffffffff ∧
      (12 + bs.toNat / 4 ≤ number.toNat → k ≤ 7) ∧
      ∀ d ∈ (path (bs.toNat / 4) number.toNat).2.tail, d = 0 := by
  rw [z.quarter.2] at hlimit ⊢
  constructor
  · intro hreads
    obtain ⟨node, hr⟩ := hreads.apply
    have hne : number ≠ 0xffffffff := by
      intro h
      have hnull : wp (readBlock (based block0 bs.toNat fun _ _ => 0) (fun _ => 0) number 0)
          (fun _ _ => False) (fun _ _ => True) (start bs (fun _ => 0) fun _ => 0) :=
        (wp_readBlock_null h).mpr trivial
      exact wp_ok hnull hr
    have hsmall : 12 + 256 * 2 ^ k ≤ number.toNat → k ≤ 7 := by
      intro h
      by_contra hk
      exact wp_ok (z.divides hne h hk) hr
    have hplaces : ∀ d ∈ (path (256 * 2 ^ k) number.toNat).2.tail, d = 0 := by
      intro d hd
      by_contra hd0
      have hk : k ≤ 7 := by
        refine hsmall ?_
        by_contra hlt
        rw [path_tail (Nat.not_le.mp hlt)] at hd
        cases hd
      exact z.hole_passed hk hne hlimit ⟨d, hd, hd0⟩ hreads
    exact ⟨z.zero_of_reads hne hlimit hsmall hplaces hreads, hne, hsmall, hplaces⟩
  · rintro ⟨hzero, hne, hsmall, hplaces⟩ content data fresh buffer mem hblock0 hsparse
    have hcontent : ∀ i < bs.toNat, content i = 0 := fun i hi => (hblock0 i hi).trans (hzero i hi)
    have hzeroed : wp (readBlock content fresh number buffer) _ _ (start bs data mem) :=
      z.zeroed hne hlimit hsmall hplaces hcontent hsparse
    obtain ⟨_, s', hr, hs⟩ := wp_returns hzeroed
    exact ⟨s'.node, by rw [hr, ← hs]⟩

/-- Entry 0 of block 1 is 2, block 2 is filled with zeros, and block 3 with 7. -/
def pierced (x : Nat) : Byte := if x = 1024 then 2 else if x / 1024 = 3 then 7 else 0

/-- Block 268 of a file whose `data` are all 1 is a hole in the second index block. -/
theorem sparse_reads_zeros_indirect :
    Sparse pierced 1024 (fun _ => 1) 268 ∧
    Zeroed pierced (fun _ => 1) (fun _ => 0) 0 (fun _ => 0) 1024#32 268#32 := by
  have h₁ : entry pierced 1024 1 0 = 2 := by decide
  have h₂ : entry pierced 1024 2 0 = 0 := by decide
  have hsparse : Sparse pierced 1024 (fun _ => 1) 268 := by
    refine ⟨4 * 1024, by decide, ?_⟩
    show Hole _ 1024 _ 1 [0, 0]
    refine .inr ⟨by decide, ?_⟩
    rw [h₁]
    refine .inr ⟨by decide, ?_⟩
    rw [h₂]
    exact hole_zero
  have hreads : ReadsZeros 1024#32 268#32 fun _ => 0 :=
    (sparse_reads_zeros ⟨by decide, rfl⟩ (k := 0) (by decide) _).mpr
      ⟨fun _ _ => rfl, by decide, fun _ => by decide, by decide⟩
  refine ⟨hsparse, hreads _ _ _ _ _ (fun i hi => ?_) hsparse⟩
  have hi' : i < 1024 := hi
  have hne : i ≠ 1024 := Nat.ne_of_lt hi'
  have hblock : i / 1024 ≠ 3 := by omega
  rw [pierced, if_neg hne, if_neg hblock]

/-- Block 5 of a file that has no blocks, on a disk with blocks of 1024 bytes that starts with a
byte which is not 0. -/
theorem hole_reads_block_zero :
    Sparse (fun x => if x = 0 then 0xeb else 0) 1024 (fun _ => 0) 5 ∧
    ¬Zeroed (fun x => if x = 0 then 0xeb else 0) (fun _ => 0) (fun _ => 0) 0 (fun _ => 0) 1024#32
      5#32 := by
  refine ⟨⟨0, by decide, hole_zero⟩, ?_⟩
  have z : Sizes 1024#32 0 := ⟨by decide, rfl⟩
  obtain ⟨ys, hys, hway⟩ := @Sizes.way 1024#32 5#32 0 z (by decide) (by decide) (by decide)
  have hpath : path (256 * 2 ^ 0) (5#32 : Word).toNat = (5, []) := by decide
  rw [hpath] at hys hway
  obtain rfl : ys = [] := hys
  refine not_zeroed (i := 0) (by decide) (by decide) ((hway ..).mpr ?_)
  refine wp_mono (z.wp_deliver (block_zero_le _) (BitVec.isLt _)) (fun _ s' h => ?_) fun _ _ h => h
  rw [h, overlay_at (by decide) (by decide)]
  decide

end OsKernel.Ext2
