import Mathlib.Data.Nat.Digits.Lemmas

/-!
# Numerals

The digits of a number in the order in which they are written, and the number that is read
from digits on the left to digits on the right. `Nat.digits` has the last digit first and no
digit for 0; a numeral has one.

Reading goes with a number that has been read before (`readFrom`), as loops do that read
digits. Digits are numbers; characters are for whoever writes them.
-/

set_option autoImplicit false

namespace OsKernel.Lib

/-- The number that is read in base `b` when `m` has been read before. -/
def readFrom (b : Nat) : Nat → List Nat → Nat
  | m, [] => m
  | m, d :: ds => readFrom b (b * m + d) ds

/-- The digits of `n`. -/
def numeral (b n : Nat) : List Nat := if n = 0 then [0] else (Nat.digits b n).reverse

variable {b m n k : Nat} {l l' : List Nat}

theorem readFrom_append : readFrom b m (l ++ l') = readFrom b (readFrom b m l) l' := by
  induction l generalizing m with
  | nil => rfl
  | cons d ds ih => exact ih

theorem readFrom_zeros : readFrom b 0 (List.replicate k 0 ++ l) = readFrom b 0 l := by
  induction k with
  | zero => rfl
  | succ k ih => exact ih

/-- Reading on makes a number no smaller. -/
theorem le_readFrom (hb : 0 < b) : m ≤ readFrom b m l := by
  induction l generalizing m with
  | nil => exact Nat.le_refl m
  | cons d ds ih =>
    have hm : m ≤ b * m := Nat.le_mul_of_pos_left m hb
    exact Nat.le_trans (by omega) ih

theorem readFrom_reverse : readFrom b 0 l.reverse = Nat.ofDigits b l := by
  induction l with
  | nil => rfl
  | cons d ds ih =>
    rw [List.reverse_cons, readFrom_append, ih, Nat.ofDigits_cons]
    exact Nat.add_comm _ _

/-- A numeral is read as the number it was made from. -/
theorem readFrom_numeral : readFrom b 0 (numeral b n) = n := by
  unfold numeral
  split
  · rename_i h
    rw [h]
    rfl
  · rw [readFrom_reverse, Nat.ofDigits_digits]

theorem numeral_ne_nil : numeral b n ≠ [] := by
  unfold numeral
  split
  · simp
  · rename_i h
    simpa [Nat.digits_ne_nil_iff_ne_zero] using h

theorem numeral_lt (hb : 1 < b) : ∀ d ∈ numeral b n, d < b := by
  intro d hd
  unfold numeral at hd
  split at hd
  · obtain rfl := List.mem_singleton.mp hd
    omega
  · exact Nat.digits_lt_base hb (List.mem_reverse.mp hd)

/-- Only the numeral of 0 starts with 0. -/
theorem numeral_head (hn : 0 < n) : ∃ d ds, numeral b n = d :: ds ∧ d ≠ 0 := by
  have hne : Nat.digits b n ≠ [] := Nat.digits_ne_nil_iff_ne_zero.mpr (Nat.ne_of_gt hn)
  have hrev : (Nat.digits b n).reverse ≠ [] := by simpa using hne
  refine ⟨(Nat.digits b n).reverse.head hrev, (Nat.digits b n).reverse.tail, ?_, ?_⟩
  · unfold numeral
    rw [if_neg (Nat.ne_of_gt hn), List.cons_head_tail]
  · rw [List.head_reverse]
    exact Nat.getLast_digit_ne_zero b (Nat.ne_of_gt hn)

theorem numeral_length_le (hb : 1 < b) (hk : 0 < k) (hn : n < b ^ k) :
    (numeral b n).length ≤ k := by
  unfold numeral
  split
  · exact hk
  · rw [List.length_reverse]
    exact (Nat.digits_length_le_iff hb n).mpr hn

/-- A numeral, but for its last digit. -/
theorem numeral_step (hb : 1 < b) :
    numeral b n = (if n / b = 0 then [] else numeral b (n / b)) ++ [n % b] := by
  by_cases hn : n = 0
  · subst hn
    simp [numeral]
  · have hdigits := Nat.digits_def' hb (Nat.pos_of_ne_zero hn)
    by_cases hq : n / b = 0
    · unfold numeral
      rw [if_neg hn, if_pos hq, hdigits, hq]
      simp
    · unfold numeral
      rw [if_neg hn, if_neg hq, if_neg hq, hdigits]
      simp

end OsKernel.Lib
