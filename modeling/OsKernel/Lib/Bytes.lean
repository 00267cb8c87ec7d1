import Mathlib.Algebra.GroupWithZero.Nat

/-!
# Memory as bytes

A memory of `2^32` bytes, and the memory after some consecutive bytes of it were written.
Addresses wrap around, so a range of at most `2^32` bytes never meets itself.

`overlay` is the only way to write. A copy, a sector that arrives, a word and a string are all
one, and what is written by two of them, one behind the other, is again one. So a program that
writes a buffer in pieces is compared with one `overlay` of the whole, and bytes outside of a
buffer are one lemma. Words are read little-endian.

For what was accessed rather than what is there, a list of ranges: `Touches` and `Covers`.
-/

set_option autoImplicit false

namespace OsKernel.Lib

abbrev Byte := BitVec 8

/-- A memory with 32-bit addresses. -/
abbrev Bytes := BitVec 32 → Byte

/-- The memory with the `n` bytes from `a` on replaced by `f 0`, `f 1` and so on. -/
def overlay (m : Bytes) (a : BitVec 32) (n : Nat) (f : Nat → Byte) : Bytes :=
  fun b => if (b - a).toNat < n then f (b - a).toNat else m b

variable {m : Bytes} {a : BitVec 32} {n k : Nat} {f g : Nat → Byte}

@[simp] theorem overlay_zero : overlay m a 0 f = m := by
  funext b
  unfold overlay
  rw [if_neg (Nat.not_lt_zero _)]

theorem toNat_sub_self_add {i : Nat} (hi : i < 2 ^ 32) :
    (a + BitVec.ofNat 32 i - a).toNat = i := by
  rw [BitVec.add_comm, BitVec.add_sub_cancel, BitVec.toNat_ofNat, Nat.mod_eq_of_lt hi]

/-- A byte that was written. -/
theorem overlay_at {i : Nat} (hi : i < n) (hn : n ≤ 2 ^ 32) :
    overlay m a n f (a + BitVec.ofNat 32 i) = f i := by
  unfold overlay
  rw [toNat_sub_self_add (Nat.lt_of_lt_of_le hi hn), if_pos hi]

/-- A byte that was not. -/
theorem overlay_off {b : BitVec 32} (h : ∀ i < n, b ≠ a + BitVec.ofNat 32 i) :
    overlay m a n f b = m b := by
  unfold overlay
  refine if_neg fun hlt => h _ hlt ?_
  rw [BitVec.ofNat_toNat, BitVec.setWidth_eq, BitVec.add_comm, BitVec.sub_add_cancel]

theorem overlay_congr (h : ∀ i < n, f i = g i) : overlay m a n f = overlay m a n g := by
  funext b
  unfold overlay
  split
  · rename_i hlt
    exact h _ hlt
  · rfl

/-- How far an address is from the end of a range that it is not in. -/
theorem toNat_sub_add {b : BitVec 32} (hn : n < 2 ^ 32) :
    (b - (a + BitVec.ofNat 32 n)).toNat =
      if (b - a).toNat < n then (b - a).toNat + 2 ^ 32 - n else (b - a).toNat - n := by
  have hb : b - (a + BitVec.ofNat 32 n) = b - a - BitVec.ofNat 32 n := by
    rw [BitVec.sub_eq_add_neg, BitVec.neg_add, BitVec.sub_eq_add_neg (-a), ← BitVec.add_assoc,
      ← BitVec.sub_eq_add_neg, ← BitVec.sub_eq_add_neg]
  have hlt := (b - a).isLt
  rw [hb, BitVec.toNat_sub, BitVec.toNat_ofNat, Nat.mod_eq_of_lt hn]
  split <;> omega

/-- Two ranges written one behind the other. -/
theorem overlay_overlay (h : n + k ≤ 2 ^ 32) :
    overlay (overlay m a n f) (a + BitVec.ofNat 32 n) k g =
      overlay m a (n + k) fun i => if i < n then f i else g (i - n) := by
  funext b
  by_cases hk : k = 0
  · subst hk
    rw [overlay_zero]
    refine congrFun (overlay_congr fun i hi => ?_) b
    rw [if_pos hi]
  have hn : n < 2 ^ 32 := by omega
  have hb := toNat_sub_add (a := a) (b := b) hn
  have hlt := (b - a).isLt
  unfold overlay
  by_cases hin : (b - a).toNat < n
  · rw [if_pos hin] at hb
    rw [hb, if_neg (by omega), if_pos hin, if_pos (by omega)]
    exact (if_pos hin).symm
  · rw [if_neg hin] at hb
    rw [hb, if_neg hin]
    by_cases hin' : (b - a).toNat < n + k
    · rw [if_pos (by omega), if_pos hin']
      exact (if_neg hin).symm
    · rw [if_neg (by omega), if_neg hin']

/-! ## Words in bytes -/

/-- A little-endian half-word. -/
def le16 (b : Nat → Byte) (i : Nat) : BitVec 16 := b (i + 1) ++ b i

/-- A little-endian word. -/
def le32 (b : Nat → Byte) (i : Nat) : BitVec 32 := b (i + 3) ++ b (i + 2) ++ b (i + 1) ++ b i

theorem le16_congr {b b' : Nat → Byte} {n k : Nat} (h : ∀ i < n, b i = b' i) (hk : k + 1 < n) :
    le16 b k = le16 b' k := by
  unfold le16
  rw [h k (by omega), h (k + 1) hk]

theorem le32_congr {b b' : Nat → Byte} {n k : Nat} (h : ∀ i < n, b i = b' i) (hk : k + 3 < n) :
    le32 b k = le32 b' k := by
  unfold le32
  rw [h k (by omega), h (k + 1) (by omega), h (k + 2) (by omega), h (k + 3) hk]

/-! ## Ranges -/

/-- The address lies in one of the ranges, each an address and a length. -/
def Touches (l : List (BitVec 32 × Nat)) (x : BitVec 32) : Prop :=
  ∃ p ∈ l, ∃ i < p.2, x = p.1 + BitVec.ofNat 32 i

/-- The ranges make up the `n` bytes from `a` on. -/
def Covers (l : List (BitVec 32 × Nat)) (a : BitVec 32) (n : Nat) : Prop :=
  ∀ x, Touches l x ↔ ∃ i < n, x = a + BitVec.ofNat 32 i

variable {l l' : List (BitVec 32 × Nat)} {x : BitVec 32}

instance (l : List (BitVec 32 × Nat)) (x : BitVec 32) : Decidable (Touches l x) :=
  inferInstanceAs (Decidable (∃ p ∈ l, ∃ i < p.2, x = p.1 + BitVec.ofNat 32 i))

theorem touches_nil : ¬Touches [] x := by
  rintro ⟨p, hp, -⟩
  cases hp

theorem touches_cons {p : BitVec 32 × Nat} :
    Touches (p :: l) x ↔ (∃ i < p.2, x = p.1 + BitVec.ofNat 32 i) ∨ Touches l x := by
  simp only [Touches, List.mem_cons, exists_eq_or_imp]

theorem touches_append : Touches (l ++ l') x ↔ Touches l x ∨ Touches l' x := by
  simp only [Touches, List.mem_append, or_and_right, exists_or]

theorem covers_nil : Covers [] a 0 := by
  intro x
  simp [Touches]

theorem covers_single : Covers [(a, n)] a n := by
  intro x
  simp [Touches]

/-- Two ranges, one behind the other. -/
theorem Covers.append (h : Covers l' (a + BitVec.ofNat 32 n) k) (h' : Covers l a n) :
    Covers (l' ++ l) a (n + k) := by
  intro x
  rw [touches_append, h x, h' x]
  constructor
  · rintro (⟨i, hi, rfl⟩ | ⟨i, hi, rfl⟩)
    · exact ⟨n + i, by omega, by rw [BitVec.add_assoc, ← BitVec.ofNat_add]⟩
    · exact ⟨i, by omega, rfl⟩
  · rintro ⟨i, hi, rfl⟩
    by_cases hin : i < n
    · exact .inr ⟨i, hin, rfl⟩
    · refine .inl ⟨i - n, by omega, ?_⟩
      rw [BitVec.add_assoc, ← BitVec.ofNat_add, Nat.add_sub_cancel' (Nat.not_lt.mp hin)]

end OsKernel.Lib
