import Mathlib.Tactic.ByContra
import OsKernel.Ext2.Node

/-!
# Which blocks are found

The places in the second and the third index block are not scaled by the size of an entry. A
block is found if those places are all 0, and no others are in general: there are images on
which a wrong block is delivered.

The first half follows the code once. `route` is which entry of `data` it starts at and which
places it looks at, computed from the number alone; `wp_readBlock_route` says that it looks
there and nowhere else. Then the places are compared with those of the path (`Scaled`): the
first is right, the later ones are a fourth of what they should be, and so right if they are
0.

The second half is the converse, and needs an image for every block that is not found. One
family is enough (`crooked`): block 1 is the first index block, blocks 2 and 5 come behind it,
and the right way ends at block 3 while all the wrong ones end elsewhere. The block sizes are
1 KB and more, and the number may be any word: for the largest ones the square of the number
of entries wraps to 0, and the code divides by it.

Nothing is assumed about memory but that the buffer is there. That `new` for the cache
succeeds is assumed: it panics otherwise.
-/

set_option autoImplicit false

namespace OsKernel.Ext2

open Lib Prog Block

/-- A block size, and the entries of an index block. -/
structure Sizes (bs : Word) (k : Nat) : Prop where
  order : k ≤ 20
  size : bs.toNat = 1024 * 2 ^ k

namespace Sizes

variable {bs : Word} {k : Nat}

theorem quarter (z : Sizes bs k) : (bs / 4).toNat = 256 * 2 ^ k ∧ bs.toNat / 4 = 256 * 2 ^ k := by
  have hfour : (4#32 : Word).toNat = 4 := rfl
  have hsize := z.size
  rw [BitVec.toNat_udiv]
  show bs.toNat / 4 = _ ∧ _
  omega

theorem pow_le (z : Sizes bs k) : 2 ^ k ≤ 2 ^ 20 := Nat.pow_le_pow_right (by decide) z.order

/-- The square of the number of entries fits a word, or is 0 in one. -/
theorem square (z : Sizes bs k) :
    (bs / 4 * (bs / 4)).toNat = if k ≤ 7 then (256 * 2 ^ k) ^ 2 else 0 := by
  have hsq : (256 * 2 ^ k) * (256 * 2 ^ k) = 2 ^ (16 + 2 * k) := by
    rw [show (256 : Nat) = 2 ^ 8 from rfl, ← Nat.pow_add, ← Nat.pow_add]
    congr 1
    omega
  rw [BitVec.toNat_mul, z.quarter.1, hsq, Nat.pow_two, hsq]
  split
  · exact Nat.mod_eq_of_lt (Nat.pow_lt_pow_right (by decide) (by omega))
  · exact Nat.mod_eq_zero_of_dvd (Nat.pow_dvd_pow 2 (by omega))

end Sizes

section Found

variable {content : Nat → Byte} {bs w offset number buffer : Word} {k imageSize r : Nat} {s : State}
variable {E : Stop → State → Prop} {data : Nat → Word} {fresh : Nat → Byte} {mem : Bytes}

/-- A block of the image does not wrap around. -/
theorem block_offset (hw : (w.toNat + 1) * bs.toNat ≤ imageSize)
    (himage : imageSize < 2 ^ 32) : (w * bs).toNat = w.toNat * bs.toNat ∧
      w.toNat * bs.toNat + bs.toNat < 2 ^ 32 := by
  rw [Nat.add_one_mul] at hw
  have hlt : w.toNat * bs.toNat + bs.toNat < 2 ^ 32 := by omega
  refine ⟨?_, hlt⟩
  rw [BitVec.toNat_mul]
  exact Nat.mod_eq_of_lt (by omega)

/-- A word of a block. -/
theorem wp_readWord_block {Q : Word → State → Prop}
    (hw : (w.toNat + 1) * bs.toNat ≤ imageSize) (himage : imageSize < 2 ^ 32)
    (hr : offset.toNat = r) (hin : r + 4 ≤ bs.toNat)
    (h : Q (le32 content (w.toNat * bs.toNat + r)) s) :
    wp (readWord content (w * bs + offset)) Q E s := by
  obtain ⟨hblock, hlt⟩ := block_offset hw himage
  refine Ext2.wp_readWord ?_ (by omega) h
  rw [BitVec.toNat_add, hblock, hr]
  exact Nat.mod_eq_of_lt (by omega)

/-- A block of the image goes to the buffer. -/
theorem Sizes.wp_deliver (z : Sizes bs k) (hw : (w.toNat + 1) * bs.toNat ≤ imageSize)
    (himage : imageSize < 2 ^ 32) :
    wp (deliver content (w * bs) buffer) (fun _ s' => s'.mem = overlay mem buffer bs.toNat fun i =>
      content (w.toNat * bs.toNat + i)) E (begun bs data mem fresh number) := by
  obtain ⟨hblock, hlt⟩ := block_offset hw himage
  have hpow := z.pow_le
  have hsize := z.size
  refine Ext2.wp_deliver hblock (by show bs.toNat < _; omega) fun cache node hcache => ?_
  refine overlay_congr fun i hi => ?_
  have hi' : i < bs.toNat := hi
  exact hcache i (by omega) hi

/-! ## The way to a block

`read_block` has four branches, one for each depth of index blocks. All are the same thing: begin
at an entry of `data` and read a word of each index block on the way. `route` gives the places
that the code takes, `path` those that ext2 means, and `Scaled` is how they differ: the code
multiplies the first place by four and no other. -/

/-- The index blocks followed from `offset` on, each at the given place. -/
def chase (content : Nat → Byte) (bs : Word) : Word → List Word → Prog Stop State Word
  | offset, [] => pure offset
  | offset, y :: ys => do
    let offset ← readWord content (offset * bs + y)
    chase content bs offset ys

/-- The places in the index blocks that the code takes: only the first one is scaled. -/
def Scaled (p : Nat) : List Nat → List Word → Prop
  | [], ys => ys = []
  | j :: js, ys => ∃ y ys', ys = y :: ys' ∧ y.toNat = 4 * j ∧ ys'.map BitVec.toNat = js ∧
      ∀ d ∈ j :: js, d < p

section Places

variable {m y : Word} {j : Nat}

/-- A place is below the number of entries, so four times it does not wrap around. -/
theorem Sizes.scale (z : Sizes bs k) (hy : y.toNat = j) (hj : j < 256 * 2 ^ k) :
    (y * 4).toNat = 4 * j := by
  have hpow := z.pow_le
  have hfour : (4 : Word).toNat = 4 := rfl
  rw [BitVec.toNat_mul, hy, hfour]
  omega

theorem Sizes.scaled_one (z : Sizes bs k) (hm : m.toNat < 256 * 2 ^ k) :
    Scaled (256 * 2 ^ k) [m.toNat] [m * 4] := by
  refine ⟨_, _, rfl, z.scale rfl hm, rfl, fun d hd => ?_⟩
  rw [List.mem_singleton.mp hd]
  exact hm

theorem Sizes.scaled_two (z : Sizes bs k) (hm : m.toNat < (256 * 2 ^ k) ^ 2) :
    Scaled (256 * 2 ^ k) [m.toNat / (256 * 2 ^ k), m.toNat % (256 * 2 ^ k)]
      [m / (bs / 4) * 4, m % (bs / 4)] := by
  have hquarter := z.quarter.1
  have hpos : 0 < 2 ^ k := Nat.two_pow_pos k
  have hdiv : m.toNat / (256 * 2 ^ k) < 256 * 2 ^ k := by
    rw [Nat.pow_two] at hm
    exact Nat.div_lt_of_lt_mul hm
  have hmod : m.toNat % (256 * 2 ^ k) < 256 * 2 ^ k := Nat.mod_lt _ (by omega)
  refine ⟨_, _, rfl, z.scale (by rw [BitVec.toNat_udiv, hquarter]) hdiv, ?_, fun d hd => ?_⟩
  · rw [List.map_cons, List.map_nil, BitVec.toNat_umod, hquarter]
  · rcases List.mem_cons.mp hd with rfl | hd
    · exact hdiv
    · rw [List.mem_singleton.mp hd]
      exact hmod

theorem Sizes.scaled_three (z : Sizes bs k) (hk : k ≤ 7) (hm : m.toNat < (256 * 2 ^ k) ^ 3) :
    Scaled (256 * 2 ^ k) [m.toNat / (256 * 2 ^ k) ^ 2,
        m.toNat % (256 * 2 ^ k) ^ 2 / (256 * 2 ^ k), m.toNat % (256 * 2 ^ k)]
      [m / (bs / 4 * (bs / 4)) * 4, m % (bs / 4 * (bs / 4)) / (bs / 4), m % (bs / 4)] := by
  have hquarter := z.quarter.1
  have hsquare := z.square
  rw [if_pos hk] at hsquare
  have hpos : 0 < 2 ^ k := Nat.two_pow_pos k
  have hdiv : m.toNat / (256 * 2 ^ k) ^ 2 < 256 * 2 ^ k := by
    rw [Nat.pow_succ] at hm
    exact Nat.div_lt_of_lt_mul hm
  have hdiv' : m.toNat % (256 * 2 ^ k) ^ 2 / (256 * 2 ^ k) < 256 * 2 ^ k := by
    refine Nat.div_lt_of_lt_mul ?_
    rw [← Nat.pow_two]
    exact Nat.mod_lt _ (Nat.pow_pos (by omega))
  have hmod : m.toNat % (256 * 2 ^ k) < 256 * 2 ^ k := Nat.mod_lt _ (by omega)
  refine ⟨_, _, rfl, z.scale (by rw [BitVec.toNat_udiv, hsquare]) hdiv, ?_, fun d hd => ?_⟩
  · rw [List.map_cons, List.map_cons, List.map_nil, BitVec.toNat_udiv, BitVec.toNat_umod,
      BitVec.toNat_umod, hsquare, hquarter]
  · rcases List.mem_cons.mp hd with rfl | hd
    · exact hdiv
    · rcases List.mem_cons.mp hd with rfl | hd
      · exact hdiv'
      · rw [List.mem_singleton.mp hd]
        exact hmod

end Places

/-- The entry of `data` that the code begins at, and the places in the index blocks that it takes;
none where it divides by 0. -/
def route (bs number : Word) : Option (Nat × List Word) :=
  if number < 12 then some (number.toNat, [])
  else
    let number := number - 12
    let pc1 := bs / 4
    if number < pc1 then some (12, [number * 4])
    else
      let number := number - pc1
      let pc2 := pc1 * pc1
      if number < pc2 then some (13, [number / pc1 * 4, number % pc1])
      else
        let number := number - pc2
        if pc2 = 0 then none
        else some (14, [number / pc2 * 4, number % pc2 / pc1, number % pc1])

/-- The code takes the path of the block. -/
theorem Sizes.route (z : Sizes bs k)
    (hlimit : number.toNat < 12 + 256 * 2 ^ k + (256 * 2 ^ k) ^ 2 + (256 * 2 ^ k) ^ 3)
    (hsmall : 12 + 256 * 2 ^ k ≤ number.toNat → k ≤ 7) :
    ∃ ys, Scaled (256 * 2 ^ k) (path (256 * 2 ^ k) number.toNat).2 ys ∧
      route bs number = some ((path (256 * 2 ^ k) number.toNat).1, ys) := by
  have hquarter := z.quarter.1
  have hpos : 0 < 2 ^ k := Nat.two_pow_pos k
  unfold path Ext2.route
  -- the number is made smaller at each level, and no subtraction wraps
  by_cases h₁ : number.toNat < 12
  · have h₁' : number < 12 := h₁
    rw [if_pos h₁, if_pos h₁']
    exact ⟨[], rfl, rfl⟩
  have h₁' : ¬number < 12 := h₁
  have hsub : (number - 12).toNat = number.toNat - 12 :=
    BitVec.toNat_sub_of_le (Nat.not_lt.mp h₁)
  rw [if_neg h₁, if_neg h₁', ← hsub]
  by_cases h₂ : (number - 12).toNat < 256 * 2 ^ k
  · have h₂' : number - 12 < bs / 4 := by
      rw [BitVec.lt_def, hquarter]
      exact h₂
    rw [if_pos h₂]
    exact ⟨_, z.scaled_one h₂, if_pos h₂'⟩
  have h₂' : ¬number - 12 < bs / 4 := by
    rw [BitVec.lt_def, hquarter]
    exact h₂
  have hsub' : (number - 12 - bs / 4).toNat = (number - 12).toNat - 256 * 2 ^ k := by
    rw [BitVec.toNat_sub_of_le (Nat.not_lt.mp h₂'), hquarter]
  have hk : k ≤ 7 := hsmall (by omega)
  have hsquare := z.square
  rw [if_pos hk] at hsquare
  dsimp only
  rw [if_neg h₂, if_neg h₂', ← hsub']
  by_cases h₃ : (number - 12 - bs / 4).toNat < (256 * 2 ^ k) ^ 2
  · have h₃' : number - 12 - bs / 4 < bs / 4 * (bs / 4) := by
      rw [BitVec.lt_def, hsquare]
      exact h₃
    rw [if_pos h₃]
    exact ⟨_, z.scaled_two h₃, if_pos h₃'⟩
  have h₃' : ¬number - 12 - bs / 4 < bs / 4 * (bs / 4) := by
    rw [BitVec.lt_def, hsquare]
    exact h₃
  have hsub'' : (number - 12 - bs / 4 - bs / 4 * (bs / 4)).toNat =
      (number - 12 - bs / 4).toNat - (256 * 2 ^ k) ^ 2 := by
    rw [BitVec.toNat_sub_of_le (Nat.not_lt.mp h₃'), hsquare]
  have hnonzero : ¬bs / 4 * (bs / 4) = 0 := by
    intro h0
    have hzero : (bs / 4 * (bs / 4)).toNat = 0 := by rw [h0]; rfl
    rw [hsquare] at hzero
    have hsqpos : 0 < (256 * 2 ^ k) ^ 2 := Nat.pow_pos (by omega)
    omega
  have hlast : (number - 12 - bs / 4 - bs / 4 * (bs / 4)).toNat < (256 * 2 ^ k) ^ 3 := by omega
  rw [if_neg h₃, if_neg h₃', if_neg hnonzero, ← hsub'']
  exact ⟨_, z.scaled_three hk hlast, rfl⟩

/-- `read_block` follows the route, and delivers the block at its end. -/
theorem wp_readBlock_route (hne : number ≠ 0xffffffff) {way : Nat × List Word}
    (hroute : route bs number = some way) {Q : Unit → State → Prop} :
    wp (readBlock content fresh number buffer) Q E (start bs data mem) ↔
      wp (chase content bs (data way.1) way.2 >>= fun offset =>
        deliver content (offset * bs) buffer) Q E (begun bs data mem fresh number) := by
  rw [wp_readBlock hne]
  unfold route at hroute
  dsimp only at hroute ⊢
  split at hroute
  · rename_i h₁
    obtain rfl := Option.some.inj hroute
    rw [if_pos h₁]
    rfl
  rename_i h₁
  rw [if_neg h₁]
  split at hroute
  · rename_i h₂
    obtain rfl := Option.some.inj hroute
    rw [if_pos h₂]
    simp only [chase, wp_bind, wp_pure]
  rename_i h₂
  rw [if_neg h₂]
  split at hroute
  · rename_i h₃
    obtain rfl := Option.some.inj hroute
    rw [if_pos h₃]
    simp only [chase, wp_bind, wp_pure]
  rename_i h₃
  rw [if_neg h₃]
  split at hroute
  · cases hroute
  rename_i hnonzero
  obtain rfl := Option.some.inj hroute
  rw [if_neg hnonzero]
  simp only [chase, wp_bind, wp_pure]

/-- `read_block` follows the path of the block, at the places that the code takes. -/
theorem Sizes.way (z : Sizes bs k) (hne : number ≠ 0xffffffff)
    (hlimit : number.toNat < 12 + 256 * 2 ^ k + (256 * 2 ^ k) ^ 2 + (256 * 2 ^ k) ^ 3)
    (hsmall : 12 + 256 * 2 ^ k ≤ number.toNat → k ≤ 7) :
    ∃ ys, Scaled (256 * 2 ^ k) (path (256 * 2 ^ k) number.toNat).2 ys ∧
      ∀ content data fresh buffer mem Q E,
        wp (readBlock content fresh number buffer) Q E (start bs data mem) ↔
          wp (chase content bs (data (path (256 * 2 ^ k) number.toNat).1) ys >>= fun offset =>
            deliver content (offset * bs) buffer) Q E (begun bs data mem fresh number) := by
  obtain ⟨ys, hys, hroute⟩ := z.route hlimit hsmall
  exact ⟨ys, hys, fun _ _ _ _ _ _ _ => wp_readBlock_route hne hroute⟩

/-! ## Blocks that are found -/

/-- Entries 0 are read where they are. -/
theorem Sizes.wp_chase_zero (z : Sizes bs k) (himage : imageSize < 2 ^ 32) :
    ∀ {js : List Nat} {ys : List Word} {w : Word}, ys.map BitVec.toNat = js → (∀ d ∈ js, d = 0) →
      OnImage content bs.toNat imageSize w.toNat js →
      wp (chase content bs w ys) (fun w' s' => s' = s ∧
        w'.toNat = walk content bs.toNat w.toNat js ∧ (w'.toNat + 1) * bs.toNat ≤ imageSize) E s := by
  intro js
  induction js with
  | nil =>
    intro ys w hys _ hon
    obtain rfl := List.map_eq_nil_iff.mp hys
    exact ⟨rfl, rfl, hon.2⟩
  | cons j js ih =>
    intro ys w hys hzero hon
    obtain ⟨y, ys', rfl, rfl, hys'⟩ := List.map_eq_cons_iff.mp hys
    have hy : y.toNat = 0 := hzero _ List.mem_cons_self
    have hsize := z.size
    have hpos : 0 < 2 ^ k := Nat.two_pow_pos k
    rw [hy] at hon ⊢
    unfold chase
    rw [wp_bind]
    refine wp_readWord_block hon.1.2 himage hy (by omega) ?_
    exact ih hys' (fun d hd => hzero d (List.mem_cons_of_mem _ hd)) hon.2

/-- Every block that is reached by zeros is found. -/
theorem Sizes.found (z : Sizes bs k) (hne : number ≠ 0xffffffff)
    (hlimit : number.toNat < 12 + 256 * 2 ^ k + (256 * 2 ^ k) ^ 2 + (256 * 2 ^ k) ^ 3)
    (hsmall : 12 + 256 * 2 ^ k ≤ number.toNat → k ≤ 7)
    (hzero : ∀ d ∈ (path (256 * 2 ^ k) number.toNat).2.tail, d = 0)
    (hwell : WellFormed content bs.toNat data number.toNat) :
    wp (readBlock content fresh number buffer) (fun _ s' => s'.mem = overlay mem buffer bs.toNat
        fun i => content (assigned content bs.toNat data number.toNat * bs.toNat + i))
      (fun _ _ => False) (start bs data mem) := by
  obtain ⟨imageSize, himage, hon⟩ := hwell
  obtain ⟨ys, hys, hway⟩ := z.way hne hlimit hsmall
  have hfound : wp (chase content bs (data (path (256 * 2 ^ k) number.toNat).1) ys)
      (fun w' s' => s' = begun bs data mem fresh number ∧
        w'.toNat = assigned content bs.toNat data number.toNat ∧
        (w'.toNat + 1) * bs.toNat ≤ imageSize) (fun _ _ => False)
      (begun bs data mem fresh number) := by
    unfold assigned
    rw [z.quarter.2] at hon ⊢
    generalize path (256 * 2 ^ k) number.toNat = way at hys hzero hon ⊢
    obtain ⟨root, js⟩ := way
    cases js with
    | nil =>
      obtain rfl : ys = [] := hys
      exact ⟨rfl, rfl, hon.2⟩
    | cons j js =>
      obtain ⟨y, ys', rfl, hy, hys', hlt⟩ := hys
      have hj : j < 256 * 2 ^ k := hlt j List.mem_cons_self
      have hsize := z.size
      unfold chase
      rw [wp_bind]
      refine wp_readWord_block hon.1.2 himage hy (by omega) ?_
      exact z.wp_chase_zero himage hys' hzero hon.2
  rw [hway]
  refine wp_seq hfound fun w s' hs => ?_
  obtain ⟨rfl, hw, hin⟩ := hs
  rw [← hw]
  exact z.wp_deliver hin himage

end Found

/-! ## Images on which a wrong block is delivered

For each block that is not found, an image is needed on which the code delivers other bytes. There
is one family of them, `crooked`, with the places at which the right way and the code's way part
as parameters. What the code takes for a block number there is a word that straddles two entries,
so a multiple of four, whatever its value; and no block with such a number is filled like the one
that was asked for.

Two kinds of blocks are missed for other reasons: the number that an empty cache has for a tag,
and those for which the code divides by 0. -/

/-- A node with an empty cache copies the block that ext2 assigns to block `number`. -/
def Copied (content : Nat → Byte) (data : Nat → Word) (fresh : Nat → Byte) (buffer : Word)
    (mem : Bytes) (bs number : Word) : Prop :=
  ∃ node, readBlock content fresh number buffer (start bs data mem) = .ok () ⟨node,
    overlay mem buffer bs.toNat fun i =>
      content (assigned content bs.toNat data number.toNat * bs.toNat + i)⟩

/-- On every image, and for every file and buffer, block `number` is copied. -/
def Copies (bs number : Word) : Prop :=
  ∀ content data fresh buffer mem, WellFormed content bs.toNat data number.toNat →
    Copied content data fresh buffer mem bs number

theorem path_length (p n : Nat) : (path p n).2.length ≤ 3 := by
  unfold path
  split
  · exact Nat.zero_le _
  · split
    · exact Nat.le_add_left 1 2
    · split
      · exact Nat.le_add_left 2 1
      · exact Nat.le_refl 3

/-- A block that is not reached through two index blocks. -/
theorem path_tail {p n : Nat} (h : n < 12 + p) : (path p n).2.tail = [] := by
  unfold path
  split
  · rfl
  · rw [if_pos (by omega)]
    rfl

section Missed

variable {bs number : Word} {k : Nat}

/-- A word whose other bytes are 0. -/
theorem le32_single {b : Nat → Byte} {x : Nat} (h₁ : b (x + 1) = 0) (h₂ : b (x + 2) = 0)
    (h₃ : b (x + 3) = 0) : (le32 b x).toNat = (b x).toNat := by
  have hzero : (0#8 ++ 0#8 ++ 0#8 : BitVec 24) = 0#24 := by decide
  have hle : le32 b x = (0#24 ++ b x : BitVec 32) := by
    unfold le32
    rw [h₁, h₂, h₃, ← hzero]
    rfl
  rw [hle, BitVec.toNat_append]
  simp

/-- The low byte of a word decides what is left by a division by four. -/
theorem le32_mod (b : Nat → Byte) (x : Nat) : (le32 b x).toNat % 4 = (b x).toNat % 4 := by
  have hlow := (b x).isLt
  unfold le32
  rw [BitVec.toNat_append, ← Nat.shiftLeft_add_eq_or_of_lt hlow, Nat.shiftLeft_eq]
  omega

/-- Every entry is 1. -/
def ones (x : Nat) : Byte := if x % 4 = 0 then 1 else 0

theorem ones_entry (h : bs.toNat % 4 = 0) (b j : Nat) : entry ones bs.toNat b j = 1 := by
  have hfour : (b * bs.toNat + 4 * j) % 4 = 0 := by
    have hmul := Nat.mul_mod b bs.toNat 4
    rw [h, Nat.mul_zero, Nat.zero_mod] at hmul
    omega
  unfold entry
  rw [le32_single]
  · unfold ones
    rw [if_pos hfour]
    rfl
  · exact if_neg (by omega)
  · exact if_neg (by omega)
  · exact if_neg (by omega)

theorem ones_onImage (h : bs.toNat % 4 = 0) : ∀ js, OnImage ones bs.toNat (2 * bs.toNat) 1 js := by
  intro js
  induction js with
  | nil => exact ⟨by decide, Nat.le_refl _⟩
  | cons j js ih =>
    refine ⟨⟨by decide, Nat.le_refl _⟩, ?_⟩
    rw [ones_entry h]
    exact ih

theorem Sizes.ones_wellFormed (z : Sizes bs k) (n : Nat) :
    WellFormed ones bs.toNat (fun _ => 1) n := by
  have hpow := z.pow_le
  have hsize := z.size
  refine ⟨2 * bs.toNat, by omega, ones_onImage (by omega) _⟩

theorem Sizes.missed_null (z : Sizes bs k) (h : number = 0xffffffff) : ¬Copies bs number := by
  intro hc
  obtain ⟨node, hr⟩ := hc ones (fun _ => 1) (fun _ => 0) 0 (fun _ => 0) (z.ones_wellFormed _)
  have hw : wp (readBlock ones (fun _ => 0) number 0) (fun _ _ => False) (fun _ _ => True)
      (start bs (fun _ => 1) fun _ => 0) := (wp_readBlock_null h).mpr trivial
  exact wp_ok hw hr

/-- The square of the number of entries is 0. -/
theorem Sizes.divides (z : Sizes bs k) (hne : number ≠ 0xffffffff)
    (h : 12 + 256 * 2 ^ k ≤ number.toNat) (hk : ¬k ≤ 7) {content : Nat → Byte} {data : Nat → Word}
    {fresh : Nat → Byte} {buffer : Word} {mem : Bytes} :
    wp (readBlock content fresh number buffer) (fun _ _ => False) (fun _ _ => True)
      (start bs data mem) := by
  have htwelve : (12 : Word).toNat = 12 := rfl
  have hzero : bs / 4 * (bs / 4) = 0 := by
    have hsquare := z.square
    rw [if_neg hk] at hsquare
    exact BitVec.toNat_inj.mp hsquare
  have h₁ : ¬number < 12 := by
    rw [BitVec.lt_def]
    omega
  have h₂ : ¬number - 12 < bs / 4 := by
    rw [BitVec.lt_def, BitVec.toNat_sub_of_le (Nat.not_lt.mp h₁), z.quarter.1]
    omega
  rw [wp_readBlock hne, if_neg h₁, if_neg h₂, if_neg, if_pos hzero]
  · trivial
  · rw [hzero]
    exact Nat.not_lt_zero _

theorem Sizes.missed_divide (z : Sizes bs k) (hne : number ≠ 0xffffffff)
    (h : 12 + 256 * 2 ^ k ≤ number.toNat) (hk : ¬k ≤ 7) : ¬Copies bs number := by
  intro hc
  obtain ⟨node, hr⟩ := hc ones (fun _ => 1) (fun _ => 0) 0 (fun _ => 0) (z.ones_wellFormed _)
  exact wp_ok (z.divides hne h hk) hr

/-- The entries of block 1 are `next`; one entry of block 2 is 5, one of block 5 is 3, and their other
entries are 4. Block 3 is filled with 7. -/
def crooked (size : Nat) (next : Byte) (r₂ r₃ x : Nat) : Byte :=
  if x / size = 3 then 7
  else if x % size % 4 ≠ 0 then 0
  else if x / size = 1 then next
  else if x / size = 2 then if x % size / 4 = r₂ then 5 else 4
  else if x / size = 5 then if x % size / 4 = r₃ then 3 else 4
  else 0

variable {size r₂ r₃ : Nat} {next : Byte}

/-- The block of a byte, and its place there. -/
theorem in_block {b o : Nat} (ho : o < size) :
    (b * size + o) / size = b ∧ (b * size + o) % size = o := by
  rw [Nat.mul_comm, Nat.mul_add_mod, Nat.mod_eq_of_lt ho,
    Nat.mul_add_div (Nat.zero_lt_of_lt ho), Nat.div_eq_of_lt ho]
  exact ⟨Nat.add_zero b, rfl⟩

/-- A byte of a block. -/
theorem crooked_at {b o : Nat} (ho : o < size) : crooked size next r₂ r₃ (b * size + o) =
    if b = 3 then 7
    else if o % 4 ≠ 0 then 0
    else if b = 1 then next
    else if b = 2 then if o / 4 = r₂ then 5 else 4
    else if b = 5 then if o / 4 = r₃ then 3 else 4
    else 0 := by
  obtain ⟨hdiv, hmod⟩ := in_block (b := b) ho
  unfold crooked
  rw [hdiv, hmod]

/-- A byte of a block that is neither 3 nor an index block. -/
theorem crooked_far {b o : Nat} (ho : o < size) (hb : b % 4 = 0) :
    crooked size next r₂ r₃ (b * size + o) = 0 := by
  rw [crooked_at ho, if_neg (by omega), if_neg (by omega : ¬b = 1), if_neg (by omega : ¬b = 2)]
  split
  · rfl
  · exact if_neg (by omega)

/-- An entry of an index block. -/
theorem crooked_entry {b j : Nat} (hj : 4 * j + 4 ≤ size) (hb : b ≠ 3) :
    entry (crooked size next r₂ r₃) size b j = (if b = 1 then next
      else if b = 2 then if j = r₂ then 5 else 4
      else if b = 5 then if j = r₃ then 3 else 4
      else 0 : Byte).toNat := by
  have hdiv : 4 * j / 4 = j := Nat.mul_div_cancel_left j (by decide)
  unfold entry
  rw [le32_single]
  · rw [crooked_at (by omega), if_neg hb, if_neg (by omega), hdiv]
  · rw [Nat.add_assoc, crooked_at (by omega), if_neg hb, if_pos (by omega)]
  · rw [Nat.add_assoc, crooked_at (by omega), if_neg hb, if_pos (by omega)]
  · rw [Nat.add_assoc, crooked_at (by omega), if_neg hb, if_pos (by omega)]

/-- A word that is not where an entry is taken for. -/
theorem crooked_misread {b r : Nat} (hr : r < size) (h0 : r ≠ 0)
    (hb : b % 4 = 0 ∨ (b = 2 ∧ r = r₂) ∨ (b = 5 ∧ r = r₃)) :
    (le32 (crooked size next r₂ r₃) (b * size + r)).toNat % 4 = 0 := by
  rw [le32_mod]
  have hne : r / 4 ≠ r := by omega
  rcases hb with hb | ⟨rfl, rfl⟩ | ⟨rfl, rfl⟩
  · rw [crooked_far hr hb]
    rfl
  · rw [crooked_at hr, if_neg (by decide), if_neg hne]
    split
    · rfl
    · rw [if_neg (by decide), if_pos rfl]
      rfl
  · rw [crooked_at hr, if_neg (by decide), if_neg hne]
    split
    · rfl
    · rw [if_neg (by decide), if_neg (by decide), if_pos rfl]
      rfl

/-- A block whose number is a multiple of four, whatever is cut off of it. -/
theorem Sizes.wild (z : Sizes bs k) (hk : k ≤ 7) {w : Word} (hw : w.toNat % 4 = 0) :
    ∃ b, b % 4 = 0 ∧ (w * bs).toNat = b * bs.toNat ∧ b * bs.toNat + bs.toNat ≤ 2 ^ 32 := by
  have hsplit : 2 ^ 32 = bs.toNat * (4 * 2 ^ (20 - k)) := by
    have hpow : 2 ^ k * 2 ^ (20 - k) = 2 ^ 20 := by
      rw [← Nat.pow_add]
      congr 1
      omega
    rw [z.size]
    calc (2 : Nat) ^ 32 = 1024 * 4 * 2 ^ 20 := by decide
      _ = 1024 * 4 * (2 ^ k * 2 ^ (20 - k)) := by rw [hpow]
      _ = 1024 * 2 ^ k * (4 * 2 ^ (20 - k)) := by ac_rfl
  refine ⟨w.toNat % (4 * 2 ^ (20 - k)), ?_, ?_, ?_⟩
  · rw [Nat.mod_mul_right_mod]
    exact hw
  · rw [BitVec.toNat_mul, hsplit, Nat.mul_comm w.toNat, Nat.mul_mod_mul_left, Nat.mul_comm]
  · have hlt : w.toNat % (4 * 2 ^ (20 - k)) < 4 * 2 ^ (20 - k) :=
      Nat.mod_lt _ (Nat.mul_pos (by decide) (Nat.two_pow_pos _))
    rw [hsplit, ← Nat.add_one_mul, Nat.mul_comm bs.toNat]
    exact Nat.mul_le_mul_right _ hlt

variable {content : Nat → Byte} {w offset buffer : Word} {s : State} {E : Stop → State → Prop}
variable {data : Nat → Word} {fresh : Nat → Byte} {mem : Bytes}

/-- A block that is none of the file's goes to the buffer. -/
theorem Sizes.wild_deliver (z : Sizes bs k) (hk : k ≤ 7) (hw : w.toNat % 4 = 0) :
    wp (deliver (crooked bs.toNat next r₂ r₃) (w * bs) buffer) (fun _ s' => s'.mem buffer = 0) E
      (begun bs data mem fresh number) := by
  obtain ⟨b, hb, hoffset, hend⟩ := z.wild hk hw
  have hpow := z.pow_le
  have hsize := z.size
  have hpos : 0 < 2 ^ k := Nat.two_pow_pos k
  refine Ext2.wp_deliver hoffset (by show bs.toNat < _; omega) fun cache node hcache => ?_
  have hzero : cache 0 = 0 := by
    rw [hcache 0 (by omega) (by show 0 < bs.toNat; omega)]
    exact crooked_far (by omega) hb
  have hat := overlay_at (m := mem) (a := buffer) (n := bs.toNat) (f := cache) (i := 0) (by omega)
    (by omega)
  have hbuffer : buffer + BitVec.ofNat 32 0 = buffer := BitVec.add_zero _
  rw [hbuffer] at hat
  exact hat.trans hzero

/-- A word of a block that is none of the file's. -/
theorem Sizes.wild_readWord {Q : Word → State → Prop} (z : Sizes bs k) (hk : k ≤ 7)
    (hw : w.toNat % 4 = 0) {r : Nat} (hr : offset.toNat = r) (hin : r < 256 * 2 ^ k)
    (h : ∀ w' : Word, w'.toNat % 4 = 0 → Q w' s) :
    wp (readWord (crooked bs.toNat next r₂ r₃) (w * bs + offset)) Q E s := by
  obtain ⟨b, hb, hoffset, hend⟩ := z.wild hk hw
  have hsize := z.size
  have hpos : 0 < 2 ^ k := Nat.two_pow_pos k
  refine Ext2.wp_readWord (x := b * bs.toNat + r) ?_ (by omega) (h _ ?_)
  · rw [BitVec.toNat_add, hoffset, hr]
    exact Nat.mod_eq_of_lt (by omega)
  · rw [le32_mod, crooked_far (by omega) hb]
    rfl

/-- The entries on the way to block 3. -/
theorem crooked_chain (h : 4 * r₂ + 4 ≤ size) (h' : 4 * r₃ + 4 ≤ size) :
    entry (crooked size next r₂ r₃) size 2 r₂ = 5 ∧ entry (crooked size next r₂ r₃) size 5 r₃ = 3 := by
  constructor
  · rw [crooked_entry h (by decide), if_neg (by decide), if_pos rfl, if_pos rfl]
    rfl
  · rw [crooked_entry h' (by decide), if_neg (by decide), if_neg (by decide), if_pos rfl,
      if_pos rfl]
    rfl

/-- Block 3 is asked for, and another block comes. -/
theorem Sizes.not_copied (z : Sizes bs k)
    (hassigned : assigned (crooked bs.toNat next r₂ r₃) bs.toNat (fun _ => 1) number.toNat = 3)
    (hw : wp (readBlock (crooked bs.toNat next r₂ r₃) (fun _ => 0) number 0)
      (fun _ s' => s'.mem 0 = 0) (fun _ _ => True) (start bs (fun _ => 1) fun _ => 0)) :
    ¬Copied (crooked bs.toNat next r₂ r₃) (fun _ => 1) (fun _ => 0) 0 (fun _ => 0) bs number := by
  rintro ⟨node, hr⟩
  have hzero := wp_ok hw hr
  dsimp only at hzero
  have hpow := z.pow_le
  have hsize := z.size
  have hpos : 0 < 2 ^ k := Nat.two_pow_pos k
  have hat := overlay_at (m := fun _ => 0) (a := (0 : Word)) (n := bs.toNat)
    (f := fun i => crooked bs.toNat next r₂ r₃ (3 * bs.toNat + i)) (i := 0) (by omega) (by omega)
  rw [hassigned] at hzero
  have hseven : crooked bs.toNat next r₂ r₃ (3 * bs.toNat + 0) = 7 := by
    rw [crooked_at (by omega), if_pos rfl]
  have hsame := hat.symm.trans hzero
  rw [hseven] at hsame
  exact absurd hsame (by decide)

/-- The right way ends at block 3, and the code's way does not. -/
structure Detour (bs : Word) (js : List Nat) (ys : List Word) (content : Nat → Byte) : Prop where
  onImage : OnImage content bs.toNat (6 * bs.toNat) 1 js
  walk : walk content bs.toNat 1 js = 3
  chase : ∀ s, wp (chase content bs 1 ys) (fun w s' => s' = s ∧ w.toNat % 4 = 0) (fun _ _ => True) s

theorem Sizes.detour_two (z : Sizes bs k) (hk : k ≤ 7) {q r : Nat} {y y' : Word}
    (hy : y.toNat = 4 * q) (hy' : y'.toNat = r) (hq : q < 256 * 2 ^ k) (hr : r < 256 * 2 ^ k)
    (hr0 : r ≠ 0) : Detour bs [q, r] [y, y'] (crooked bs.toNat 5 0 r) := by
  have hpow : 2 ^ k ≤ 2 ^ 7 := Nat.pow_le_pow_right (by decide) hk
  have hsize := z.size
  have himage : 6 * bs.toNat < 2 ^ 32 := by omega
  have h₁ : entry (crooked bs.toNat 5 0 r) bs.toNat 1 q = 5 :=
    (crooked_entry (by omega) (by decide)).trans rfl
  have hchain : entry (crooked bs.toNat 5 0 r) bs.toNat 2 0 = 5 ∧
      entry (crooked bs.toNat 5 0 r) bs.toNat 5 r = 3 := crooked_chain (by omega) (by omega)
  have h₂ := hchain.2
  refine ⟨?_, ?_, fun s => ?_⟩
  · unfold OnImage OnImage OnImage
    rw [h₁, h₂]
    omega
  · unfold Ext2.walk Ext2.walk Ext2.walk
    rw [h₁, h₂]
  · unfold Ext2.chase Ext2.chase Ext2.chase
    rw [wp_bind]
    refine wp_readWord_block (Nat.mul_le_mul_right _ (by decide)) himage hy (by omega) ?_
    have hw : (le32 (crooked bs.toNat 5 0 r) ((1 : Word).toNat * bs.toNat + 4 * q)).toNat = 5 := h₁
    generalize le32 (crooked bs.toNat 5 0 r) ((1 : Word).toNat * bs.toNat + 4 * q) = w at hw ⊢
    rw [wp_bind]
    refine wp_readWord_block (Nat.mul_le_mul_right _ (by omega)) himage hy' (by omega) ⟨rfl, ?_⟩
    rw [hw]
    exact crooked_misread (by omega) hr0 (.inr (.inr ⟨rfl, rfl⟩))

theorem Sizes.detour_three (z : Sizes bs k) (hk : k ≤ 7) {q r₂ r₃ : Nat} {y y₂ y₃ : Word}
    (hy : y.toNat = 4 * q) (hy₂ : y₂.toNat = r₂) (hy₃ : y₃.toNat = r₃) (hq : q < 256 * 2 ^ k)
    (hr₂ : r₂ < 256 * 2 ^ k) (hr₃ : r₃ < 256 * 2 ^ k) (hr0 : r₂ ≠ 0 ∨ r₃ ≠ 0) :
    Detour bs [q, r₂, r₃] [y, y₂, y₃] (crooked bs.toNat 2 r₂ r₃) := by
  have hpow : 2 ^ k ≤ 2 ^ 7 := Nat.pow_le_pow_right (by decide) hk
  have hsize := z.size
  have himage : 6 * bs.toNat < 2 ^ 32 := by omega
  have h₁ : entry (crooked bs.toNat 2 r₂ r₃) bs.toNat 1 q = 2 :=
    (crooked_entry (by omega) (by decide)).trans rfl
  have hchain : entry (crooked bs.toNat 2 r₂ r₃) bs.toNat 2 r₂ = 5 ∧
      entry (crooked bs.toNat 2 r₂ r₃) bs.toNat 5 r₃ = 3 := crooked_chain (by omega) (by omega)
  obtain ⟨h₂, h₃⟩ := hchain
  refine ⟨?_, ?_, fun s => ?_⟩
  · unfold OnImage OnImage OnImage OnImage
    rw [h₁, h₂, h₃]
    omega
  · unfold Ext2.walk Ext2.walk Ext2.walk Ext2.walk
    rw [h₁, h₂, h₃]
  · unfold Ext2.chase Ext2.chase Ext2.chase Ext2.chase
    rw [wp_bind]
    refine wp_readWord_block (Nat.mul_le_mul_right _ (by decide)) himage hy (by omega) ?_
    have hw : (le32 (crooked bs.toNat 2 r₂ r₃) ((1 : Word).toNat * bs.toNat + 4 * q)).toNat = 2 :=
      h₁
    generalize le32 (crooked bs.toNat 2 r₂ r₃) ((1 : Word).toNat * bs.toNat + 4 * q) = w at hw ⊢
    rw [wp_bind]
    refine wp_readWord_block (Nat.mul_le_mul_right _ (by omega)) himage hy₂ (by omega) ?_
    rw [hw, wp_bind]
    by_cases h0 : r₂ = 0
    · -- the third place is wrong
      have hw₂ : (le32 (crooked bs.toNat 2 r₂ r₃) (2 * bs.toNat + r₂)).toNat = 5 := by
        subst h0
        exact h₂
      generalize le32 (crooked bs.toNat 2 r₂ r₃) (2 * bs.toNat + r₂) = w₂ at hw₂ ⊢
      refine wp_readWord_block (Nat.mul_le_mul_right _ (by omega)) himage hy₃ (by omega) ⟨rfl, ?_⟩
      rw [hw₂]
      exact crooked_misread (by omega) (hr0.resolve_left fun h => h h0) (.inr (.inr ⟨rfl, rfl⟩))
    · have hwild : (le32 (crooked bs.toNat 2 r₂ r₃) (2 * bs.toNat + r₂)).toNat % 4 = 0 :=
        crooked_misread (by omega) h0 (.inr (.inl ⟨rfl, rfl⟩))
      exact z.wild_readWord hk hwild hy₃ hr₃ fun w' hw' => ⟨rfl, hw'⟩

theorem Sizes.detour (z : Sizes bs k) (hk : k ≤ 7) {js : List Nat} {ys : List Word}
    (hys : Scaled (256 * 2 ^ k) js ys) (hlength : js.length ≤ 3)
    (hdigit : ∃ d ∈ js.tail, d ≠ 0) :
    ∃ next r₂ r₃, Detour bs js ys (crooked bs.toNat next r₂ r₃) := by
  match js, hys, hlength, hdigit with
  | [], _, _, hdigit =>
    obtain ⟨d, hd, -⟩ := hdigit
    cases hd
  | [_], _, _, hdigit =>
    obtain ⟨d, hd, -⟩ := hdigit
    cases hd
  | [q, r], hys, _, hdigit =>
    obtain ⟨y, ys', rfl, hy, hys', hlt⟩ := hys
    obtain ⟨y', ys'', rfl, hy', hys''⟩ := List.map_eq_cons_iff.mp hys'
    obtain rfl := List.map_eq_nil_iff.mp hys''
    obtain ⟨d, hd, hd0⟩ := hdigit
    rw [List.mem_singleton.mp hd] at hd0
    exact ⟨_, _, _, z.detour_two hk hy hy' (hlt q List.mem_cons_self)
      (hlt r (List.mem_cons_of_mem _ List.mem_cons_self)) hd0⟩
  | [q, r₂, r₃], hys, _, hdigit =>
    obtain ⟨y, ys', rfl, hy, hys', hlt⟩ := hys
    obtain ⟨y₂, ys'', rfl, hy₂, hys''⟩ := List.map_eq_cons_iff.mp hys'
    obtain ⟨y₃, ys''', rfl, hy₃, hys'''⟩ := List.map_eq_cons_iff.mp hys''
    obtain rfl := List.map_eq_nil_iff.mp hys'''
    refine ⟨_, _, _, z.detour_three hk hy hy₂ hy₃ (hlt q List.mem_cons_self)
      (hlt r₂ (List.mem_cons_of_mem _ List.mem_cons_self))
      (hlt r₃ (List.mem_cons_of_mem _ (List.mem_cons_of_mem _ List.mem_cons_self))) ?_⟩
    obtain ⟨d, hd, hd0⟩ := hdigit
    rcases List.mem_cons.mp hd with rfl | hd
    · exact .inl hd0
    · rw [List.mem_singleton.mp hd] at hd0
      exact .inr hd0
  | _ :: _ :: _ :: _ :: _, _, hlength, _ => exact absurd hlength (by simp)

theorem Sizes.missed_digit (z : Sizes bs k) (hk : k ≤ 7) (hne : number ≠ 0xffffffff)
    (hlimit : number.toNat < 12 + 256 * 2 ^ k + (256 * 2 ^ k) ^ 2 + (256 * 2 ^ k) ^ 3)
    (hdigit : ∃ d ∈ (path (256 * 2 ^ k) number.toNat).2.tail, d ≠ 0) : ¬Copies bs number := by
  obtain ⟨ys, hys, hway⟩ := z.way hne hlimit fun _ => hk
  have hpow : 2 ^ k ≤ 2 ^ 7 := Nat.pow_le_pow_right (by decide) hk
  have hsize := z.size
  obtain ⟨next, r₂, r₃, D⟩ := z.detour hk hys (path_length _ _) hdigit
  rw [← z.quarter.2] at D
  have hnot : ¬Copied (crooked bs.toNat next r₂ r₃) (fun _ => 1) (fun _ => 0) 0 (fun _ => 0) bs
      number := by
    refine z.not_copied D.walk ((hway ..).mpr (wp_seq (D.chase _) fun w s' hs => ?_))
    obtain ⟨rfl, hw⟩ := hs
    exact z.wild_deliver hk hw
  exact fun hc => hnot (hc _ _ _ _ _ ⟨6 * bs.toNat, by omega, D.onImage⟩)

/-- Blocks that are reached through entries 0 of the second and the third index block are found, and
no others in general. -/
theorem read_block_follows_map {bs : Word} {k : Nat} (z : Sizes bs k) {number : Word}
    (hlimit : number.toNat < 12 + bs.toNat / 4 + (bs.toNat / 4) ^ 2 + (bs.toNat / 4) ^ 3) :
    Copies bs number ↔ number ≠ 0xffffffff ∧ (12 + bs.toNat / 4 ≤ number.toNat → k ≤ 7) ∧
      ∀ d ∈ (path (bs.toNat / 4) number.toNat).2.tail, d = 0 := by
  rw [z.quarter.2] at hlimit ⊢
  constructor
  · intro hc
    have hne : number ≠ 0xffffffff := fun h => z.missed_null h hc
    have hsmall : 12 + 256 * 2 ^ k ≤ number.toNat → k ≤ 7 := fun h => by
      by_contra hk
      exact z.missed_divide hne h hk hc
    refine ⟨hne, hsmall, fun d hd => ?_⟩
    by_contra hd0
    have hk : k ≤ 7 := by
      refine hsmall ?_
      by_contra hlt
      rw [path_tail (Nat.not_le.mp hlt)] at hd
      cases hd
    exact z.missed_digit hk hne hlimit ⟨d, hd, hd0⟩ hc
  · rintro ⟨hne, hsmall, hzero⟩ content data fresh buffer mem hwell
    have hfound : wp (readBlock content fresh number buffer) _ _ (start bs data mem) :=
      z.found hne hlimit hsmall hzero hwell
    obtain ⟨_, s', hr, hs⟩ := wp_returns hfound
    exact ⟨s'.node, by rw [hr, ← hs]⟩

/-- Block 268 of a file with blocks of 1024 bytes: entry 0 of block 1 is 5, and entry 0 of block 5
is 3. -/
theorem read_block_follows_map_indirect :
    assigned (crooked 1024 5 0 0) 1024 (fun _ => 1) 268 = 3 ∧
    Copied (crooked 1024 5 0 0) (fun _ => 1) (fun _ => 0) 0 (fun _ => 0) 1024#32 268#32 := by
  have hpath : path (1024 / 4) 268 = (13, [0, 0]) := by decide
  have h₁ : entry (crooked 1024 5 0 0) 1024 1 0 = 5 := by decide
  have h₂ : entry (crooked 1024 5 0 0) 1024 5 0 = 3 := by decide
  have hcopies : Copies 1024#32 268#32 :=
    (read_block_follows_map ⟨by decide, rfl⟩ (k := 0) (by decide)).mpr
      ⟨by decide, fun _ => by decide, by decide⟩
  refine ⟨?_, hcopies _ _ _ _ _ ⟨6 * 1024, by decide, ?_⟩⟩
  · unfold assigned
    rw [hpath]
    show entry (crooked 1024 5 0 0) 1024 (entry (crooked 1024 5 0 0) 1024 1 0) 0 = 3
    rw [h₁, h₂]
  · show OnImage _ 1024 _ 1 [0, 0]
    refine ⟨by decide, ?_⟩
    rw [h₁]
    refine ⟨by decide, ?_⟩
    rw [h₂]
    exact ⟨by decide, by decide⟩

/-- Block 269 of a file with blocks of 1024 bytes: entry 0 of block 1 is 5, and entry 1 of block 5 is 3.
Block 3 is filled with 7. -/
theorem doubly_indirect_missed :
    WellFormed (crooked 1024 5 0 1) 1024 (fun _ => 1) 269 ∧
    assigned (crooked 1024 5 0 1) 1024 (fun _ => 1) 269 = 3 ∧
    ¬Copied (crooked 1024 5 0 1) (fun _ => 1) (fun _ => 0) 0 (fun _ => 0) 1024#32 269#32 := by
  have z : Sizes 1024#32 0 := ⟨by decide, rfl⟩
  obtain ⟨ys, hys, hway⟩ := @Sizes.way 1024#32 269#32 0 z (by decide) (by decide)
    (by decide)
  have hpath : path (256 * 2 ^ 0) (269#32 : Word).toNat = (13, [0, 1]) := by decide
  rw [hpath] at hys hway
  obtain ⟨y, ys', rfl, hy, hys', -⟩ := hys
  obtain ⟨y', ys'', rfl, hy', hys''⟩ := List.map_eq_cons_iff.mp hys'
  obtain rfl := List.map_eq_nil_iff.mp hys''
  have D : Detour 1024#32 [0, 1] [y, y'] (crooked 1024 5 0 1) :=
    z.detour_two (by decide) hy hy' (by decide) (by decide) (by decide)
  refine ⟨⟨6 * 1024, by decide, D.onImage⟩, D.walk, ?_⟩
  refine z.not_copied D.walk ((hway ..).mpr (wp_seq (D.chase _) fun w s' hs => ?_))
  obtain ⟨rfl, hw⟩ := hs
  exact z.wild_deliver (by decide) hw

end Missed

end OsKernel.Ext2
