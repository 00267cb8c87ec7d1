import OsKernel.Lib.Words
import Mathlib.Tactic.IntervalCases

/-!
# Page-directory and page-table entries

An entry is a frame address with flag bits below it. The kernel tests and builds entries with
`&`, `|` and `^` on whole words; this file reads those operations bit by bit, so that later
proofs speak of `present e`, `writable e` and `frame e`.

Two of the bits are the kernel's own. `G` (bit 9) marks an entry of the kernel and `NG` (bit
10) one of a process; both are among the bits that the processor leaves to software, and `G`
is not the bit with which a processor marks a global page. They are not each other's negation:
the directory entry of a table that has pages of both carries both. `priv`, which is present
and `NG`, is the predicate that everything else is built on, because such an entry is a
reference and no other one is.

The flags are combined in three ways only (`kFlags`, `uFlags`, and the low bits of an entry
that is already there), so the lemmas about putting entries together are about an aligned
frame and a word `l` with `Low l`. Words are not taken apart any further than that, and no
later file has to know where in an entry a flag is.
-/

set_option autoImplicit false

namespace OsKernel.Vmm

open Lib

namespace Flag

def P : Word := 0x1#32
def RW : Word := 0x2#32
def US : Word := 0x4#32
def G : Word := 0x200#32
def NG : Word := 0x400#32
def MASK : Word := 0xfffff000#32

end Flag

/-- The flags of every kernel entry: `G | RW | P`. -/
def kFlags : Word := Flag.G ||| Flag.RW ||| Flag.P

/-- The flags of a freshly mapped user page: `NG | RW | US | P`. -/
def uFlags : Word := Flag.P ||| (Flag.NG ||| Flag.RW) ||| Flag.US

def frame (e : Word) : Word := e &&& Flag.MASK
def present (e : Word) : Bool := e.getLsbD 0
def writable (e : Word) : Bool := e.getLsbD 1
def user (e : Word) : Bool := e.getLsbD 2
def global (e : Word) : Bool := e.getLsbD 9
def nonGlobal (e : Word) : Bool := e.getLsbD 10

/-- A private entry: present and not global, so that it holds a reference to its frame. -/
def priv (e : Word) : Bool := present e && nonGlobal e

/-! ## The kernel's tests -/

/-- A test of one bit. -/
private theorem and_bit_eq_zero {e m : Word} {k : Nat} (hk : k < 32)
    (hm : ∀ i, i < 32 → (m.getLsbD i = true ↔ i = k)) :
    e &&& m = 0#32 ↔ e.getLsbD k = false := by
  rw [and_eq_zero_iff]
  constructor
  · exact fun h => h k hk ((hm k hk).mpr rfl)
  · intro h i hi hmi
    rw [(hm i hi).mp hmi]
    exact h

theorem and_P {e : Word} : e &&& Flag.P = 0#32 ↔ present e = false :=
  and_bit_eq_zero (by decide) (by decide)

theorem and_RW {e : Word} : e &&& Flag.RW = 0#32 ↔ writable e = false :=
  and_bit_eq_zero (by decide) (by decide)

theorem and_G {e : Word} : e &&& Flag.G = 0#32 ↔ global e = false :=
  and_bit_eq_zero (by decide) (by decide)

theorem and_NG {e : Word} : e &&& Flag.NG = 0#32 ↔ nonGlobal e = false :=
  and_bit_eq_zero (by decide) (by decide)

theorem and_NG_P {e : Word} :
    e &&& (Flag.NG ||| Flag.P) = Flag.NG ||| Flag.P ↔ priv e = true := by
  have hm : ∀ i, i < 32 → ((Flag.NG ||| Flag.P).getLsbD i = true ↔ i = 0 ∨ i = 10) := by decide
  rw [and_eq_mask_iff]
  unfold priv present nonGlobal
  rw [Bool.and_eq_true]
  constructor
  · exact fun h => ⟨h 0 (by decide) (by decide), h 10 (by decide) (by decide)⟩
  · rintro ⟨h0, h10⟩ i hi hmi
    obtain rfl | rfl := (hm i hi).mp hmi
    · exact h0
    · exact h10

theorem and_NG_RW_P {e : Word} :
    e &&& (Flag.NG ||| Flag.RW ||| Flag.P) = Flag.NG ||| Flag.RW ||| Flag.P ↔
      priv e = true ∧ writable e = true := by
  have hm : ∀ i, i < 32 →
      ((Flag.NG ||| Flag.RW ||| Flag.P).getLsbD i = true ↔ i = 0 ∨ i = 1 ∨ i = 10) := by decide
  rw [and_eq_mask_iff]
  unfold priv present nonGlobal writable
  rw [Bool.and_eq_true]
  constructor
  · exact fun h => ⟨⟨h 0 (by decide) (by decide), h 10 (by decide) (by decide)⟩,
      h 1 (by decide) (by decide)⟩
  · rintro ⟨⟨h0, h10⟩, h1⟩ i hi hmi
    obtain rfl | rfl | rfl := (hm i hi).mp hmi
    · exact h0
    · exact h1
    · exact h10

/-- `(e & (NG | RW | P)) == (RW | P)`: present, writable and not private. -/
theorem and_eq_RW_P {e : Word} :
    e &&& (Flag.NG ||| Flag.RW ||| Flag.P) = Flag.RW ||| Flag.P ↔
      present e = true ∧ writable e = true ∧ nonGlobal e = false := by
  have hm : ∀ i, i < 32 →
      ((Flag.NG ||| Flag.RW ||| Flag.P).getLsbD i = true ↔ i = 0 ∨ i = 1 ∨ i = 10) := by decide
  have hr : ∀ i, i < 32 → ((Flag.RW ||| Flag.P).getLsbD i = true ↔ i = 0 ∨ i = 1) := by decide
  have hm0 : (Flag.NG ||| Flag.RW ||| Flag.P).getLsbD 0 = true := by decide
  have hm1 : (Flag.NG ||| Flag.RW ||| Flag.P).getLsbD 1 = true := by decide
  have hm10 : (Flag.NG ||| Flag.RW ||| Flag.P).getLsbD 10 = true := by decide
  have hr0 : (Flag.RW ||| Flag.P).getLsbD 0 = true := by decide
  have hr1 : (Flag.RW ||| Flag.P).getLsbD 1 = true := by decide
  have hr10 : (Flag.RW ||| Flag.P).getLsbD 10 = false := by decide
  constructor
  · intro h
    have hb : ∀ i, (e &&& (Flag.NG ||| Flag.RW ||| Flag.P)).getLsbD i =
        (Flag.RW ||| Flag.P).getLsbD i := fun i => by rw [h]
    have h0 := hb 0
    have h1 := hb 1
    have h10 := hb 10
    rw [BitVec.getLsbD_and, hm0, hr0, Bool.and_true] at h0
    rw [BitVec.getLsbD_and, hm1, hr1, Bool.and_true] at h1
    rw [BitVec.getLsbD_and, hm10, hr10, Bool.and_true] at h10
    exact ⟨h0, h1, h10⟩
  · rintro ⟨h0, h1, h10⟩
    unfold present at h0
    unfold writable at h1
    unfold nonGlobal at h10
    refine BitVec.eq_of_getLsbD_eq fun i hi => ?_
    rw [BitVec.getLsbD_and]
    by_cases hi0 : i = 0
    · rw [hi0, h0, hm0, hr0]; rfl
    by_cases hi1 : i = 1
    · rw [hi1, h1, hm1, hr1]; rfl
    by_cases hi10 : i = 10
    · rw [hi10, h10, hm10, hr10]; rfl
    have hf : (Flag.NG ||| Flag.RW ||| Flag.P).getLsbD i = false := by
      rw [← Bool.not_eq_true, hm i hi]
      omega
    have hf' : (Flag.RW ||| Flag.P).getLsbD i = false := by
      rw [← Bool.not_eq_true, hr i hi]
      omega
    rw [hf, hf', Bool.and_false]

theorem and_uFlags {e : Word} : e &&& uFlags = uFlags ↔
    present e = true ∧ writable e = true ∧ user e = true ∧ nonGlobal e = true := by
  have hm : ∀ i, i < 32 → (uFlags.getLsbD i = true ↔ i = 0 ∨ i = 1 ∨ i = 2 ∨ i = 10) := by decide
  rw [and_eq_mask_iff]
  constructor
  · exact fun h => ⟨h 0 (by decide) (by decide), h 1 (by decide) (by decide),
      h 2 (by decide) (by decide), h 10 (by decide) (by decide)⟩
  · rintro ⟨h0, h1, h2, h10⟩ i hi hmi
    obtain rfl | rfl | rfl | rfl := (hm i hi).mp hmi
    · exact h0
    · exact h1
    · exact h2
    · exact h10

theorem and_kFlags {e : Word} : e &&& kFlags = kFlags ↔
    present e = true ∧ writable e = true ∧ global e = true := by
  have hm : ∀ i, i < 32 → (kFlags.getLsbD i = true ↔ i = 0 ∨ i = 1 ∨ i = 9) := by decide
  rw [and_eq_mask_iff]
  constructor
  · exact fun h => ⟨h 0 (by decide) (by decide), h 1 (by decide) (by decide),
      h 9 (by decide) (by decide)⟩
  · rintro ⟨h0, h1, h9⟩ i hi hmi
    obtain rfl | rfl | rfl := (hm i hi).mp hmi
    · exact h0
    · exact h1
    · exact h9

/-! ## Entries put together: an aligned frame and low bits -/

/-- The low bits of an entry, as `e & 0xfff` takes them. -/
def lowBits (e : Word) : Word := e &&& 0xfff#32

theorem getLsbD_lowBits (e : Word) {i : Nat} (hi : i < 12) :
    (lowBits e).getLsbD i = e.getLsbD i := by
  have hone : ∀ k, k < 12 → (0xfff#32).getLsbD k = true := by decide
  unfold lowBits
  rw [BitVec.getLsbD_and, hone i hi, Bool.and_true]

theorem lowBits_mask (e : Word) : lowBits e &&& Flag.MASK = 0#32 := by
  have h : (0xfff#32 &&& Flag.MASK) = 0#32 := by decide
  unfold lowBits
  rw [BitVec.and_assoc, h, BitVec.and_zero]

/-- Low bits only. -/
def Low (l : Word) : Prop := l &&& Flag.MASK = 0#32

theorem low_lowBits (e : Word) : Low (lowBits e) := lowBits_mask e

theorem low_uFlags : Low uFlags := by unfold Low; decide

theorem low_kFlags : Low kFlags := by unfold Low; decide

theorem Low.or {a b : Word} (ha : Low a) (hb : Low b) : Low (a ||| b) := by
  unfold Low at ha hb ⊢
  rw [BitVec.and_or_distrib_right, ha, hb, BitVec.or_self]

section mk

variable {f l : Word} (hf : Aligned f)

theorem frame_mk (hf : Aligned f) (hl : Low l) : frame (f ||| l) = f := hf.or_high hl

include hf

theorem present_mk : present (f ||| l) = present l := hf.getLsbD_or (by decide)
theorem writable_mk : writable (f ||| l) = writable l := hf.getLsbD_or (by decide)
theorem user_mk : user (f ||| l) = user l := hf.getLsbD_or (by decide)
theorem global_mk : global (f ||| l) = global l := hf.getLsbD_or (by decide)
theorem nonGlobal_mk : nonGlobal (f ||| l) = nonGlobal l := hf.getLsbD_or (by decide)

theorem priv_mk : priv (f ||| l) = priv l := by
  unfold priv
  rw [present_mk hf, nonGlobal_mk hf]

end mk

@[simp] theorem present_or (a b : Word) : present (a ||| b) = (present a || present b) :=
  BitVec.getLsbD_or
@[simp] theorem writable_or (a b : Word) : writable (a ||| b) = (writable a || writable b) :=
  BitVec.getLsbD_or
@[simp] theorem user_or (a b : Word) : user (a ||| b) = (user a || user b) := BitVec.getLsbD_or
@[simp] theorem global_or (a b : Word) : global (a ||| b) = (global a || global b) :=
  BitVec.getLsbD_or
@[simp] theorem nonGlobal_or (a b : Word) : nonGlobal (a ||| b) = (nonGlobal a || nonGlobal b) :=
  BitVec.getLsbD_or

@[simp] theorem present_lowBits (e : Word) : present (lowBits e) = present e :=
  getLsbD_lowBits e (by decide)
@[simp] theorem writable_lowBits (e : Word) : writable (lowBits e) = writable e :=
  getLsbD_lowBits e (by decide)
@[simp] theorem user_lowBits (e : Word) : user (lowBits e) = user e :=
  getLsbD_lowBits e (by decide)
@[simp] theorem global_lowBits (e : Word) : global (lowBits e) = global e :=
  getLsbD_lowBits e (by decide)
@[simp] theorem nonGlobal_lowBits (e : Word) : nonGlobal (lowBits e) = nonGlobal e :=
  getLsbD_lowBits e (by decide)

@[simp] theorem priv_lowBits (e : Word) : priv (lowBits e) = priv e := by
  unfold priv
  rw [present_lowBits, nonGlobal_lowBits]

@[simp] theorem present_uFlags : present uFlags = true := by decide
@[simp] theorem writable_uFlags : writable uFlags = true := by decide
@[simp] theorem user_uFlags : user uFlags = true := by decide
@[simp] theorem global_uFlags : global uFlags = false := by decide
@[simp] theorem nonGlobal_uFlags : nonGlobal uFlags = true := by decide
@[simp] theorem present_kFlags : present kFlags = true := by decide
@[simp] theorem writable_kFlags : writable kFlags = true := by decide
@[simp] theorem user_kFlags : user kFlags = false := by decide
@[simp] theorem global_kFlags : global kFlags = true := by decide
@[simp] theorem nonGlobal_kFlags : nonGlobal kFlags = false := by decide

@[simp] theorem present_zero : present 0#32 = false := by decide
@[simp] theorem priv_zero : priv 0#32 = false := by decide
@[simp] theorem writable_zero : writable 0#32 = false := by decide

theorem present_of_priv {e : Word} (h : priv e = true) : present e = true := by
  unfold priv at h
  exact (Bool.and_eq_true _ _ ▸ h).1

theorem nonGlobal_of_priv {e : Word} (h : priv e = true) : nonGlobal e = true := by
  unfold priv at h
  exact (Bool.and_eq_true _ _ ▸ h).2

/-! ## `^= RW` and `|= RW` -/

/-- `e & ~RW`: what the toggle makes of a writable entry. -/
def protect (e : Word) : Word := e ^^^ Flag.RW

private theorem getLsbD_RW {i : Nat} (hi : i < 32) : Flag.RW.getLsbD i = decide (i = 1) := by
  have : ∀ k, k < 32 → Flag.RW.getLsbD k = decide (k = 1) := by decide
  exact this i hi

theorem getLsbD_protect (e : Word) {i : Nat} (hi : i < 32) (h1 : i ≠ 1) :
    (protect e).getLsbD i = e.getLsbD i := by
  unfold protect
  rw [BitVec.getLsbD_xor, getLsbD_RW hi, decide_eq_false h1, Bool.xor_false]

@[simp] theorem writable_protect (e : Word) : writable (protect e) = !writable e := by
  unfold protect writable
  rw [BitVec.getLsbD_xor, getLsbD_RW (by decide)]
  simp

@[simp] theorem present_protect (e : Word) : present (protect e) = present e :=
  getLsbD_protect e (by decide) (by decide)
@[simp] theorem user_protect (e : Word) : user (protect e) = user e :=
  getLsbD_protect e (by decide) (by decide)
@[simp] theorem global_protect (e : Word) : global (protect e) = global e :=
  getLsbD_protect e (by decide) (by decide)
@[simp] theorem nonGlobal_protect (e : Word) : nonGlobal (protect e) = nonGlobal e :=
  getLsbD_protect e (by decide) (by decide)
@[simp] theorem priv_protect (e : Word) : priv (protect e) = priv e := by
  unfold priv
  rw [present_protect, nonGlobal_protect]

@[simp] theorem frame_protect (e : Word) : frame (protect e) = frame e := by
  refine BitVec.eq_of_getLsbD_eq fun i hi => ?_
  unfold frame
  rw [BitVec.getLsbD_and, BitVec.getLsbD_and]
  by_cases h1 : i = 1
  · have hm : Flag.MASK.getLsbD 1 = false := by decide
    rw [h1, hm, Bool.and_false, Bool.and_false]
  · rw [getLsbD_protect e hi h1]

/-- Setting the bit again undoes the toggle of a writable entry. -/
theorem protect_or_RW {e : Word} (h : writable e = true) : protect e ||| Flag.RW = e := by
  refine BitVec.eq_of_getLsbD_eq fun i hi => ?_
  rw [BitVec.getLsbD_or, getLsbD_RW hi]
  by_cases h1 : i = 1
  · rw [h1]
    unfold writable at h
    rw [h, decide_eq_true rfl, Bool.or_true]
  · rw [getLsbD_protect e hi h1, decide_eq_false h1, Bool.or_false]

theorem or_RW {e : Word} (h : writable e = true) : e ||| Flag.RW = e := by
  refine BitVec.eq_of_getLsbD_eq fun i hi => ?_
  rw [BitVec.getLsbD_or, getLsbD_RW hi]
  by_cases h1 : i = 1
  · rw [h1]
    unfold writable at h
    rw [h, Bool.true_or]
  · rw [decide_eq_false h1, Bool.or_false]

end OsKernel.Vmm
