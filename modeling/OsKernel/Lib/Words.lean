import Mathlib.Algebra.GroupWithZero.Nat
import Mathlib.Logic.Function.Basic

/-!
# 32-bit words: page-aligned addresses, flag bits, and the fields inside a word

Four small kits over `BitVec 32`, with no program in sight.

* A page-aligned address and the twelve bits below it: `w &&& 0xfff` and `w &&& 0xfffff000` are
  the remainder and the rest of a division by 4096, and a word put together from an aligned
  address and low bits comes apart again.
* Flag tests: `w &&& m = m` says that every bit of `m` is set in `w`.
* `strictly`: a word that an evaluation in the kernel finds once, and not at each of its uses.
* `field`/`put`: the `n` bits at `pos`. Memory made of words is read and written in halves
  through them (`rd16`, `wr16`), little-endian.
-/

set_option autoImplicit false

namespace OsKernel.Lib

/-- A machine word. -/
abbrev Word := BitVec 32

/-! ## Evaluation -/

/-- `k w`. Whether `w` is 0 has to be found before, and what is passed on is then a numeral. -/
def strictly {n : Nat} {α : Type} (w : BitVec n) (k : BitVec n → α) : α :=
  match w.toNat with
  | 0 => k 0
  | i + 1 => k (BitVec.ofNat n (i + 1))

theorem strictly_eq {n : Nat} {α : Type} (w : BitVec n) (k : BitVec n → α) :
    strictly w k = k w := by
  have hw : BitVec.ofNat n w.toNat = w := by rw [BitVec.ofNat_toNat, BitVec.setWidth_eq]
  unfold strictly
  split
  · rename_i h
    rw [h] at hw
    exact congrArg k hw
  · rename_i i h
    rw [h] at hw
    exact congrArg k hw

/-! ## Pages -/

/-- The low twelve bits are clear. -/
def Aligned (w : Word) : Prop := w.toNat % 4096 = 0

instance (w : Word) : Decidable (Aligned w) := inferInstanceAs (Decidable (_ = _))

theorem toNat_and_low (w : Word) : (w &&& 0xfff#32).toNat = w.toNat % 4096 := by
  have h : (0xfff#32).toNat = 2 ^ 12 - 1 := by decide
  rw [BitVec.toNat_and, h, Nat.and_two_pow_sub_one_eq_mod]

theorem and_low_eq_zero_iff {w : Word} : w &&& 0xfff#32 = 0#32 ↔ Aligned w := by
  rw [← BitVec.toNat_inj, toNat_and_low]
  rfl

/-- A word comes apart into what two complementary masks leave of it. -/
theorem mask_add_mask {hi lo : Word} (hcover : hi ||| lo = BitVec.allOnes 32)
    (hdisj : hi &&& lo = 0#32) (w : Word) : (w &&& hi).toNat + (w &&& lo).toNat = w.toNat := by
  have hz : w &&& hi &&& (w &&& lo) = 0#32 := by
    rw [BitVec.and_assoc, ← BitVec.and_assoc hi, BitVec.and_comm hi, BitVec.and_assoc,
      ← BitVec.and_assoc w w, BitVec.and_self, hdisj, BitVec.and_zero]
  have hsum : (w &&& hi) + (w &&& lo) = w := by
    rw [BitVec.add_eq_or_of_and_eq_zero _ _ hz, ← BitVec.and_or_distrib_left, hcover,
      BitVec.and_allOnes]
  have h := congrArg BitVec.toNat hsum
  have hle : (w &&& hi).toNat ≤ w.toNat := by
    rw [BitVec.toNat_and]
    exact Nat.and_le_left
  have hle' : (w &&& lo).toNat ≤ w.toNat := by
    rw [BitVec.toNat_and]
    exact Nat.and_le_left
  have hw := w.isLt
  rw [BitVec.toNat_add] at h
  omega

theorem toNat_and_high (w : Word) : (w &&& 0xfffff000#32).toNat = w.toNat / 4096 * 4096 := by
  have h := mask_add_mask (by decide : 0xfffff000#32 ||| 0xfff#32 = BitVec.allOnes 32) (by decide) w
  rw [toNat_and_low] at h
  omega

/-- The address of the 4 MB region a word points into. -/
theorem toNat_and_region (w : Word) : (w &&& 0xffc00000#32).toNat = w.toNat / 2 ^ 22 * 2 ^ 22 := by
  have h := mask_add_mask (by decide : 0xffc00000#32 ||| 0x3fffff#32 = BitVec.allOnes 32) (by decide) w
  have hlo : (0x3fffff#32).toNat = 2 ^ 22 - 1 := by decide
  rw [BitVec.toNat_and w 0x3fffff#32, hlo, Nat.and_two_pow_sub_one_eq_mod] at h
  omega

/-- An aligned address is unchanged by the frame mask. -/
theorem Aligned.high {w : Word} (h : Aligned w) : w &&& 0xfffff000#32 = w := by
  unfold Aligned at h
  rw [← BitVec.toNat_inj, toNat_and_high]
  omega

theorem Aligned.getLsbD {w : Word} (h : Aligned w) {i : Nat} (hi : i < 12) :
    w.getLsbD i = false := by
  have hz := and_low_eq_zero_iff.mpr h
  have hb := congrArg (BitVec.getLsbD · i) hz
  have hone : ∀ k, k < 12 → (0xfff#32).getLsbD k = true := by decide
  simpa [BitVec.getLsbD_and, hone i hi] using hb

/-- The frame of `f ||| l` is `f`, when `f` is aligned and `l` has only low bits. -/
theorem Aligned.or_high {f l : Word} (h : Aligned f) (hl : l &&& 0xfffff000#32 = 0#32) :
    (f ||| l) &&& 0xfffff000#32 = f := by
  rw [BitVec.and_or_distrib_right, h.high, hl, BitVec.or_zero]

/-- The low bits of `f ||| l` are those of `l`. -/
theorem Aligned.getLsbD_or {f l : Word} (h : Aligned f) {i : Nat} (hi : i < 12) :
    (f ||| l).getLsbD i = l.getLsbD i := by
  rw [BitVec.getLsbD_or, h.getLsbD hi, Bool.false_or]

/-! ## Flags -/

/-- `w & m = m` is: every bit of `m` is a bit of `w`. -/
theorem and_eq_mask_iff {w m : Word} :
    w &&& m = m ↔ ∀ i, i < 32 → m.getLsbD i = true → w.getLsbD i = true := by
  constructor
  · intro h i _ hm
    have := congrArg (BitVec.getLsbD · i) h
    simpa [BitVec.getLsbD_and, hm] using this
  · intro h
    refine BitVec.eq_of_getLsbD_eq fun i hi => ?_
    rw [BitVec.getLsbD_and]
    cases hm : m.getLsbD i with
    | false => simp
    | true => simp [h i hi hm]

/-- `w & m = 0` is: no bit of `m` is a bit of `w`. -/
theorem and_eq_zero_iff {w m : Word} :
    w &&& m = 0#32 ↔ ∀ i, i < 32 → m.getLsbD i = true → w.getLsbD i = false := by
  constructor
  · intro h i _ hm
    have := congrArg (BitVec.getLsbD · i) h
    simpa [BitVec.getLsbD_and, hm] using this
  · intro h
    refine BitVec.eq_of_getLsbD_eq fun i hi => ?_
    rw [BitVec.getLsbD_and]
    cases hm : m.getLsbD i with
    | false => simp
    | true => simp [h i hi hm]

/-! ## Fields -/

/-- The `n` bits of `w` from bit `pos` on. -/
def field (w : Word) (pos n : Nat) : BitVec n := w.extractLsb' pos n

/-- `w` with the `n` bits from `pos` on replaced by `v`. -/
def put {n : Nat} (w : Word) (pos : Nat) (v : BitVec n) : Word :=
  (w &&& ~~~(((BitVec.allOnes n).setWidth 32) <<< pos)) ||| (v.setWidth 32 <<< pos)

theorem getLsbD_put {n : Nat} (w : Word) (pos : Nat) (v : BitVec n) {i : Nat} (hi : i < 32) :
    (put w pos v).getLsbD i =
      if pos ≤ i ∧ i < pos + n then v.getLsbD (i - pos) else w.getLsbD i := by
  unfold put
  simp only [BitVec.getLsbD_or, BitVec.getLsbD_and, BitVec.getLsbD_not, BitVec.getLsbD_shiftLeft,
    BitVec.getLsbD_setWidth, BitVec.getLsbD_allOnes, hi, decide_true, Bool.true_and]
  by_cases hp : pos ≤ i
  · have h1 : i - pos < 32 := by omega
    have h2 : ¬ i < pos := by omega
    by_cases hn : i < pos + n
    · have h3 : i - pos < n := by omega
      simp [hp, hn, h1, h2, h3]
    · have h3 : ¬ i - pos < n := by omega
      have h4 : v.getLsbD (i - pos) = false := BitVec.getLsbD_of_ge _ _ (by omega)
      simp [hn, h1, h2, h3, h4]
  · have h2 : i < pos := by omega
    simp [hp, h2]

theorem field_put_same {n : Nat} (w : Word) {pos : Nat} (v : BitVec n) (h : pos + n ≤ 32) :
    field (put w pos v) pos n = v := by
  refine BitVec.eq_of_getLsbD_eq fun i hi => ?_
  unfold field
  rw [BitVec.getLsbD_extractLsb', getLsbD_put w pos v (by omega)]
  have h1 : pos ≤ pos + i ∧ pos + i < pos + n := by omega
  simp [h1, hi]

theorem field_put_other {n k : Nat} (w : Word) {pos pos' : Nat} (v : BitVec n)
    (h' : pos' + k ≤ 32) (hd : pos + n ≤ pos' ∨ pos' + k ≤ pos) :
    field (put w pos v) pos' k = field w pos' k := by
  refine BitVec.eq_of_getLsbD_eq fun i hi => ?_
  unfold field
  rw [BitVec.getLsbD_extractLsb', BitVec.getLsbD_extractLsb', getLsbD_put w pos v (by omega)]
  have h1 : ¬ (pos ≤ pos' + i ∧ pos' + i < pos + n) := by omega
  simp [h1]

/-! ## Memory read in halves -/

/-- `((uint16_t*) m)[r]`. -/
def rd16 (m : Nat → Word) (r : Nat) : BitVec 16 := field (m (r / 2)) (16 * (r % 2)) 16

/-- `((uint16_t*) m)[r] = v`. -/
def wr16 (m : Nat → Word) (r : Nat) (v : BitVec 16) : Nat → Word :=
  Function.update m (r / 2) (put (m (r / 2)) (16 * (r % 2)) v)

theorem rd16_wr16 (m : Nat → Word) (r r' : Nat) (v : BitVec 16) :
    rd16 (wr16 m r v) r' = if r' = r then v else rd16 m r' := by
  unfold rd16 wr16
  by_cases hw : r' / 2 = r / 2
  · rw [hw, Function.update_self]
    by_cases he : r' = r
    · subst he
      rw [if_pos rfl]
      exact field_put_same _ _ (by omega)
    · rw [if_neg he]
      exact field_put_other _ _ (by omega) (by omega)
  · rw [Function.update_of_ne hw, if_neg (by rintro rfl; exact hw rfl)]

@[simp] theorem rd16_zero (r : Nat) : rd16 (fun _ => 0#32) r = 0#16 := by
  simp [rd16, field]

end OsKernel.Lib
