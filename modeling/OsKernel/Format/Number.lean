import OsKernel.Format.Model
import OsKernel.Lib.Numerals

/-!
# Numbers and strings, padded

What `fmtint` and `fmtstr` put out, as text. A number has a sign, zeros and digits, and spaces
on one of its sides; a precision counts digits. In a string it counts all that is put out, the
spaces too.

`numberText` and `stringText` are lists put together from lists, with `max` and subtraction in
natural numbers and without a loop. Each is proved equal to what its function puts out, for
every width and precision that is one of an `int`. The digits come from `Lib/Numerals.lean`;
`convert`, which has room for 20 of them, is never filled by a word in base 8 or above.

The second sentence about strings is the code's behaviour, and not what a precision means in
C.
-/

set_option autoImplicit false

namespace OsKernel.Format

open Lib

/-! ## `int` -/

theorem int_eq {n : Int} (h : -2 ^ 31 ≤ n) (h' : n < 2 ^ 31) : int n = n := by
  unfold int
  rw [Int.bmod_eq_iff (by decide)]
  omega

@[simp] theorem int_int_add (n m : Int) : int (int n + m) = int (n + m) := Int.bmod_add_bmod

/-! ## The sink -/

variable {s : Sink} {l l' : List Byte}

@[simp] theorem outAll_nil : s.outAll [] = s := rfl

@[simp] theorem outAll_append : s.outAll (l ++ l') = (s.outAll l).outAll l' := by
  induction l generalizing s with
  | nil => rfl
  | cons c cs ih => exact ih

theorem pad_eq (n : Int) (c : Byte) : s.pad n c = s.outAll (List.replicate n.toNat c) := rfl

/-- As long as the count fits, it is one of the bytes put out. -/
theorem outAll_eq (h : 0 ≤ s.currlen) (hlen : s.currlen + l.length < 2 ^ 31) :
    s.outAll l = ⟨s.out ++ l, s.currlen + l.length⟩ := by
  induction l generalizing s with
  | nil => simp
  | cons c cs ih =>
    have hlen' : s.currlen + ((cs.length : Int) + 1) < 2 ^ 31 := by simpa using hlen
    have hnext : int (s.currlen + 1) = s.currlen + 1 := int_eq (by omega) (by omega)
    have hout : s.outAll (c :: cs) = (s.outch c).outAll cs := rfl
    have hch : s.outch c = ⟨s.out ++ [c], s.currlen + 1⟩ := by
      unfold Sink.outch
      rw [hnext]
    rw [hout, hch, ih (by show 0 ≤ s.currlen + 1; omega) (by show s.currlen + 1 + _ < _; omega)]
    simp
    omega

@[simp] theorem outWhile_nil {max cnt : Int} : s.outWhile max [] cnt = (cnt, s) := rfl

/-- A loop that stops at `max` bytes. -/
theorem outWhile_eq {max cnt : Int} (h : 0 ≤ cnt) (hmax : max < 2 ^ 31) :
    s.outWhile max l cnt =
      (if cnt < max then min (cnt + l.length) max else cnt, s.outAll (l.take (max - cnt).toNat)) := by
  induction l generalizing s cnt with
  | nil =>
    show (cnt, s) = _
    simp only [List.take_nil, outAll_nil, List.length_nil]
    split
    · congr 1
      omega
    · rfl
  | cons c cs ih =>
    unfold Sink.outWhile
    by_cases hlt : cnt < max
    · have hint : int (cnt + 1) = cnt + 1 := int_eq (by omega) (by omega)
      have hsucc : (max - cnt).toNat = (max - (cnt + 1)).toNat + 1 := by omega
      have hout : s.outAll ((c :: cs).take (max - cnt).toNat) =
          (s.outch c).outAll (cs.take (max - (cnt + 1)).toNat) := by
        rw [hsucc]
        rfl
      rw [if_pos hlt, if_pos hlt, hint, ih (by omega), hout]
      congr 1
      rw [List.length_cons]
      push_cast
      split <;> omega
    · have hzero : (max - cnt).toNat = 0 := by omega
      rw [if_neg hlt, if_neg hlt, hzero]
      rfl

/-! ## Numbers -/

/-- The digits of a number. -/
def numeralText (caps : Bool) (base n : Nat) : List Byte := (numeral base n).map (digit caps)

/-- A number with its sign in a field of width `w`, with at least `p` digits. -/
def numberText (flags : Flags) (w p base : Nat) (value : Word) : List Byte :=
  let sign := (signOf flags value).1.toList
  let digits := numeralText flags.up base (signOf flags value).2
  let room := w - max p digits.length - sign.length
  let zeros := if flags.zero then max (p - digits.length) room else p - digits.length
  let spaces := List.replicate (if flags.zero then 0 else room) (chr ' ')
  let body := sign ++ List.replicate zeros (chr '0') ++ digits
  if flags.minus then body ++ spaces else spaces ++ body

/-- `convert` holds the digits, the last one first. -/
theorem convert_eq {caps : Bool} {base room n : Nat} (hb : 1 < base) (h : n < base ^ (room + 1)) :
    convert caps base (room + 1) n = (numeralText caps base n).reverse := by
  induction room generalizing n with
  | zero =>
    have hq : n / base = 0 := Nat.div_eq_of_lt (by simpa using h)
    unfold convert numeralText
    rw [numeral_step hb, if_pos hq, if_pos hq]
    simp
  | succ room ih =>
    unfold convert numeralText
    rw [numeral_step hb]
    by_cases hq : n / base = 0
    · rw [if_pos hq, if_pos hq]
      simp
    · have hlt : n / base < base ^ (room + 1) := by
        rw [Nat.div_lt_iff_lt_mul (by omega)]
        simpa [Nat.pow_succ] using h
      rw [if_neg hq, if_neg hq, ih hlt]
      simp [numeralText]

theorem numeralText_length_pos (caps : Bool) (base n : Nat) :
    0 < (numeralText caps base n).length := by
  unfold numeralText
  rw [List.length_map]
  exact List.length_pos_iff.mpr numeral_ne_nil

/-- A word has at most eleven digits. -/
theorem numeralText_length_le (caps : Bool) {base n : Nat} (hb : 8 ≤ base) (hn : n < 2 ^ 32) :
    (numeralText caps base n).length ≤ 11 := by
  have hpow : 8 ^ 11 ≤ base ^ 11 := Nat.pow_le_pow_left hb 11
  unfold numeralText
  rw [List.length_map]
  exact numeral_length_le (by omega) (by decide) (by omega)

theorem signOf_lt (flags : Flags) (value : Word) : (signOf flags value).2 < 2 ^ 32 := by
  unfold signOf
  repeat' split
  all_goals exact BitVec.isLt _

/-- All digits of a word go into `convert`. -/
theorem convert_word (flags : Flags) {base n : Nat} (hb : 8 ≤ base) (hn : n < 2 ^ 32) :
    ((convert flags.up base 20 n).take 19).reverse = numeralText flags.up base n := by
  have hlen := numeralText_length_le flags.up hb hn
  have hpow : 8 ^ (19 + 1) ≤ base ^ (19 + 1) := Nat.pow_le_pow_left hb _
  have hfits : n < base ^ (19 + 1) := Nat.lt_of_lt_of_le (by omega) hpow
  rw [convert_eq (by omega) hfits, List.take_of_length_le (by simp; omega),
    List.reverse_reverse]

theorem sign_length (o : Option Byte) : ((if o.isSome then 1 else 0 : Int)) = o.toList.length := by
  cases o <;> rfl

/-- `fmtint` puts out the number in its field. -/
theorem fmtint_eq {flags : Flags} {base : Nat} {value : Word} {wide prec : Int} (hb : 8 ≤ base)
    (hw : 0 ≤ wide) (hw' : wide < 2 ^ 31) (hp : prec < 2 ^ 31) :
    fmtint s value base wide prec flags =
      s.outAll (numberText flags wide.toNat prec.toNat base value) := by
  have hlt := signOf_lt flags value
  have hconv := convert_word flags hb hlt
  have hpos := numeralText_length_pos flags.up base (signOf flags value).2
  have hle := numeralText_length_le flags.up hb hlt
  have hsign := sign_length (signOf flags value).1
  have hshort : (signOf flags value).1.toList.length ≤ 1 := by
    cases (signOf flags value).1 <;> simp
  have hplaces : ((convert flags.up base 20 (signOf flags value).2).take 19).length =
      (numeralText flags.up base (signOf flags value).2).length := by
    rw [← hconv, List.length_reverse]
  unfold fmtint numberText
  simp only
  rw [hconv, hsign, hplaces]
  generalize numeralText flags.up base (signOf flags value).2 = digits at hpos hle ⊢
  generalize (signOf flags value).1.toList = sign at hshort ⊢
  have hprec : (if prec < 0 then 0 else prec) = ((prec.toNat : Nat) : Int) := by
    split <;> omega
  have hwide : wide = ((wide.toNat : Nat) : Int) := by omega
  have hp' : prec.toNat < 2 ^ 31 := by omega
  have hw'' : wide.toNat < 2 ^ 31 := by omega
  rw [hprec, hwide, Int.toNat_natCast]
  generalize prec.toNat = p at hp' ⊢
  generalize wide.toNat = w at hw'' ⊢
  have hmax : (if (p : Int) ≥ digits.length then (p : Int) else digits.length) =
      ((max p digits.length : Nat) : Int) := by
    split <;> omega
  -- no difference of two of these leaves the range of an `int`
  rw [hmax, int_eq (by omega) (by omega), int_eq (by omega) (by omega)]
  have hzeros : (if (p : Int) - digits.length < 0 then 0 else (p : Int) - digits.length) =
      ((p - digits.length : Nat) : Int) := by
    split <;> omega
  have hroom : (if (w : Int) - (max p digits.length : Nat) - (sign.length : Nat) < 0 then 0
      else (w : Int) - (max p digits.length : Nat) - (sign.length : Nat)) =
      ((w - max p digits.length - sign.length : Nat) : Int) := by
    split <;> omega
  rw [hzeros, hroom]
  generalize w - max p digits.length - sign.length = room
  generalize p - digits.length = zeros
  have hmore : (if (zeros : Int) ≥ room then (zeros : Int) else room) =
      ((max zeros room : Nat) : Int) := by
    split <;> omega
  rw [hmore]
  have hcount : ((max zeros room : Nat) : Int).toNat = max zeros room := Int.toNat_natCast _
  cases flags.zero <;> cases flags.minus <;> simp [pad_eq, hcount, -Nat.cast_max]

/-! ## Strings -/

/-- A string in a field of width `w`; of that, `max` bytes. -/
def stringText (flags : Flags) (w max : Nat) (text : List Byte) : List Byte :=
  let spaces := List.replicate (w - text.length) (chr ' ')
  (if flags.minus then text ++ spaces else spaces ++ text).take max

/-- Two loops that count together put out what one does. -/
theorem outWhile_outWhile {max cnt : Int} (h : 0 ≤ cnt) (hmax : max < 2 ^ 31) :
    (s.outWhile max l cnt).2.outWhile max l' (s.outWhile max l cnt).1 =
      s.outWhile max (l ++ l') cnt := by
  induction l generalizing s cnt with
  | nil => rfl
  | cons c cs ih =>
    by_cases hlt : cnt < max
    · have hint : int (cnt + 1) = cnt + 1 := int_eq (by omega) (by omega)
      have hstep : ∀ x : List Byte, s.outWhile max (c :: x) cnt =
          (s.outch c).outWhile max x (cnt + 1) := fun x => by
        rw [Sink.outWhile, if_pos hlt, hint]
      rw [List.cons_append, hstep, hstep, ih (by omega)]
    · have hstop : ∀ x : List Byte, s.outWhile max x cnt = (cnt, s) := fun x => by
        cases x with
        | nil => rfl
        | cons y ys => rw [Sink.outWhile, if_neg hlt]
      rw [hstop, hstop, hstop]

/-- `fmtstr` puts out the string in its field. -/
theorem fmtstr_eq {mem : Bytes} {value : Word} {flags : Flags} {min max : Int} (text : List Byte)
    (htext : (if value = 0 then null else stringAt mem (2 ^ 32) value) = text)
    (hlen : text.length < 2 ^ 31) (hmin : 0 ≤ min) (hmin' : min < 2 ^ 31) (hmax : max < 2 ^ 31) :
    fmtstr s mem value flags min max = s.outAll (stringText flags min.toNat max.toNat text) := by
  have hpad : int (min - text.length) = min - text.length := int_eq (by omega) (by omega)
  have hspaces : (if min - (text.length : Int) < 0 then 0 else min - (text.length : Int)) =
      ((min.toNat - text.length : Nat) : Int) := by
    split <;> omega
  unfold fmtstr stringText
  simp only
  rw [htext, hpad, hspaces]
  generalize min.toNat - text.length = n
  cases flags.minus with
  | true =>
    simp only [if_true, Int.toNat_neg_natCast, List.replicate_zero, Int.neg_neg, Int.toNat_natCast,
      outWhile_nil]
    rw [outWhile_outWhile (by omega) hmax, outWhile_eq (by omega) hmax]
    simp
  | false =>
    simp only [Bool.false_eq_true, if_false, Int.toNat_neg_natCast, List.replicate_zero,
      Int.toNat_natCast, outWhile_nil]
    rw [outWhile_outWhile (by omega) hmax, outWhile_eq (by omega) hmax]
    simp

end OsKernel.Format
