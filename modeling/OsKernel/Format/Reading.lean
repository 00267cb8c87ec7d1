import OsKernel.Format.Text

/-!
# Numbers read back

`atoi` of the user library, which reads what `dopr` puts out for a number, and `iota` of the
program `memory`, which writes ten digits for `atoi` to read in the program that it executes.

A number that is put out is read as the word that it was made from, for all 2³² of them:
signed numbers have a sign, which `atoi` understands, and its arithmetic wraps around as it
has to for the smallest one. `Tight` and `Decimal` say for which directives. A plus sign,
spaces on the left, or another base are not read.

`iota` is given with its stores, one after the other, into a buffer anywhere in memory, and
what is read is read out of that memory.
-/

set_option autoImplicit false

namespace OsKernel.Format

open Lib

/-- The loop of `atoi`. -/
def atoiLoop : List Byte → Word → Word
  | [], val => val
  | c :: cs, val => atoiLoop cs (val * 10#32 + (c.signExtend 32 - 48#32))

/-- `atoi`, of the bytes of a string. -/
def atoi : List Byte → Word
  | [] => 0#32
  | c :: cs => if c = chr '-' then atoiLoop cs 0#32 * -1#32 else atoiLoop (c :: cs) 0#32 * 1#32

/-- `buf[i] = v`. -/
def setChar (mem : Bytes) (buf : Word) (i : Nat) (v : Byte) : Bytes :=
  overlay mem (buf + BitVec.ofNat 32 i) 1 fun _ => v

/-- `'0' + ((n / p) % 10)`. -/
def place (n : Word) (p : Nat) : Byte := BitVec.ofNat 8 (48 + n.toNat / p % 10)

/-- `iota`. -/
def iota (mem : Bytes) (n buf : Word) : Bytes :=
  let mem := setChar mem buf 10 0
  let mem := setChar mem buf 9 (place n 1)
  let mem := setChar mem buf 8 (place n 10)
  let mem := setChar mem buf 7 (place n 100)
  let mem := setChar mem buf 6 (place n 1000)
  let mem := setChar mem buf 5 (place n 10000)
  let mem := setChar mem buf 4 (place n 100000)
  let mem := setChar mem buf 3 (place n 1000000)
  let mem := setChar mem buf 2 (place n 10000000)
  let mem := setChar mem buf 1 (place n 100000000)
  setChar mem buf 0 (place n 1000000000)

/-! ## Digits -/

theorem digit_caps {d : Nat} (caps : Bool) (hd : d < 10) : digit caps d = digit false d := by
  unfold digit
  rw [if_pos hd, if_pos hd]

/-- The word that a digit stands for. -/
theorem digit_word {k : Nat} (hk : k < 10) :
    (digit false k).signExtend 32 - 48#32 = BitVec.ofNat 32 k ∧ digit false k ≠ chr '-' := by
  have hall : ∀ k : Fin 10, (digit false k).signExtend 32 - 48#32 = BitVec.ofNat 32 k ∧
      digit false k ≠ chr '-' := by decide
  exact hall ⟨k, hk⟩

theorem atoiLoop_digits {ks : List Nat} {m : Nat} (hks : ∀ k ∈ ks, k < 10) :
    atoiLoop (ks.map (digit false)) (BitVec.ofNat 32 m) = BitVec.ofNat 32 (readFrom 10 m ks) := by
  induction ks generalizing m with
  | nil => rfl
  | cons k ks ih =>
    have hword := (digit_word (hks k List.mem_cons_self)).1
    have hstep : BitVec.ofNat 32 m * 10#32 + BitVec.ofNat 32 k = BitVec.ofNat 32 (10 * m + k) := by
      rw [Nat.mul_comm, BitVec.ofNat_add, BitVec.ofNat_mul]
    rw [List.map_cons, atoiLoop, hword, hstep]
    exact ih fun k' hk' => hks k' (List.mem_cons_of_mem _ hk')

/-- Digits are read as their number. -/
theorem atoi_digits {ks : List Nat} (hne : ks ≠ []) (hks : ∀ k ∈ ks, k < 10) :
    atoi (ks.map (digit false)) = BitVec.ofNat 32 (readFrom 10 0 ks) := by
  obtain ⟨k, tl, rfl⟩ := List.exists_cons_of_ne_nil hne
  have hminus := (digit_word (hks k List.mem_cons_self)).2
  have hloop := atoiLoop_digits (m := 0) hks
  rw [List.map_cons] at hloop ⊢
  rw [atoi, if_neg hminus, hloop, BitVec.mul_one]

theorem atoi_minus {ks : List Nat} (hks : ∀ k ∈ ks, k < 10) :
    atoi (chr '-' :: ks.map (digit false)) = -BitVec.ofNat 32 (readFrom 10 0 ks) := by
  have hloop := atoiLoop_digits (m := 0) hks
  have hneg : ∀ x : Word, x * -1#32 = -x := fun x => by
    rw [BitVec.mul_neg, BitVec.mul_one]
  rw [atoi, if_pos rfl, hloop, hneg]

/-! ## What `dopr` puts out

`atoi` takes every byte for a digit but a minus in front: a space or a plus would be counted as
one. So the directives that it can read back are those that put out neither, with any number of
zeros. -/

/-- A number without spaces and without a plus. -/
structure Tight (flags : Flags) (w : Nat) : Prop where
  field : flags.zero = true ∨ w = 0
  sign : flags.unsigned = true ∨ flags.plus = false ∧ flags.space = false

theorem numberText_tight {flags : Flags} {w p : Nat} {v : Word} (h : Tight flags w) :
    ∃ z, numberText flags w p 10 v = (signOf flags v).1.toList ++
      (List.replicate z 0 ++ numeral 10 (signOf flags v).2).map (digit false) := by
  have hdigits : numeralText flags.up 10 (signOf flags v).2 =
      (numeral 10 (signOf flags v).2).map (digit false) :=
    List.map_congr_left fun d hd => digit_caps _ (numeral_lt (by decide) d hd)
  have hzero : chr '0' = digit false 0 := by decide
  unfold numberText
  rw [hdigits, hzero]
  rcases h.field with hz | rfl
  · refine ⟨max (p - ((numeral 10 (signOf flags v).2).map (digit false)).length)
      (w - max p ((numeral 10 (signOf flags v).2).map (digit false)).length -
        (signOf flags v).1.toList.length), ?_⟩
    simp only [hz, if_true, List.replicate_zero, List.append_nil, List.nil_append, ite_self,
      List.map_append, List.map_replicate, List.append_assoc]
  · refine ⟨p - ((numeral 10 (signOf flags v).2).map (digit false)).length, ?_⟩
    simp only [Nat.zero_sub, Nat.max_zero, ite_self, List.replicate_zero,
      List.append_nil, List.nil_append, List.map_append, List.map_replicate, List.append_assoc]

/-- `atoi` reads the number that was put out. -/
theorem atoi_numberText {flags : Flags} {w p : Nat} {v : Word} (h : Tight flags w) :
    atoi (numberText flags w p 10 v) = v := by
  obtain ⟨z, htext⟩ := numberText_tight (p := p) (v := v) h
  have hks : ∀ k ∈ List.replicate z 0 ++ numeral 10 (signOf flags v).2, k < 10 := by
    intro k hk
    rcases List.mem_append.mp hk with hz | hd
    · rw [List.eq_of_mem_replicate hz]
      decide
    · exact numeral_lt (by decide) k hd
  have hne : List.replicate z 0 ++ numeral 10 (signOf flags v).2 ≠ [] := by
    simp [numeral_ne_nil]
  have hread : readFrom 10 0 (List.replicate z 0 ++ numeral 10 (signOf flags v).2) =
      (signOf flags v).2 := by
    rw [readFrom_zeros, readFrom_numeral]
  have hplain : (signOf flags v) = (none, v.toNat) ∨ (signOf flags v) = (some (chr '-'), (-v).toNat) := by
    unfold signOf
    rcases h.sign with hu | ⟨hplus, hspace⟩
    · exact Or.inl (if_pos hu)
    · rw [hplus, hspace]
      split
      · exact Or.inl rfl
      · split
        · exact Or.inr rfl
        · exact Or.inl rfl
  rw [htext]
  rcases hplain with hs | hs
  · rw [hs] at hread hks hne ⊢
    rw [Option.toList_none, List.nil_append, atoi_digits hne hks, hread, BitVec.ofNat_toNat,
      BitVec.setWidth_eq]
  · rw [hs] at hread hks ⊢
    rw [Option.toList_some, List.singleton_append, atoi_minus hks, hread, BitVec.ofNat_toNat, BitVec.setWidth_eq, BitVec.neg_neg]

/-- A directive for a decimal number that `atoi` can read. -/
structure Decimal (x : Directive) : Prop where
  wellFormed : x.WellFormed
  kind : x.kind = .d ∨ x.kind = .i ∨ x.kind = .u
  width : ∃ n, x.width = .count n ∧ x.allFlags.zero = true ∨ x.width = .absent
  prec : x.prec ≠ .star
  sign : x.kind = .u ∨ x.allFlags.plus = false ∧ x.allFlags.space = false

theorem Decimal.says {x : Directive} (h : Decimal x) (va : Nat → Word) (maxlen : Int) (mem : Bytes) :
    ∃ flags w p, Tight flags w ∧
      x.say va maxlen ⟨0, mem, []⟩ = ⟨1, mem, numberText flags w p 10 (va 0)⟩ := by
  have hwidth : ∃ w : Nat, (x.allFlags.zero = true ∨ w = 0) ∧ x.width.take va 0 0 = ((w : Int), 0) := by
    obtain ⟨n, ⟨hn, hz⟩ | hn⟩ := h.width
    · exact ⟨n, Or.inl hz, by rw [hn]; rfl⟩
    · exact ⟨0, Or.inr rfl, by rw [hn]; rfl⟩
  obtain ⟨w, hfield, htake⟩ := hwidth
  have harg : x.arg va ⟨0, mem, []⟩ = 0 := by
    unfold Directive.arg
    show (x.prec.take va (-1) (x.width.take va 0 0).2).2 = 0
    rw [htake]
    cases hp : x.prec with
    | absent => rfl
    | count n => rfl
    | star => exact absurd hp h.prec
  have hwide : (x.wide va ⟨0, mem, []⟩).toNat = w := by
    unfold Directive.wide
    show ((x.width.take va 0 0).1).toNat = w
    rw [htake]
    rfl
  have hsay : ∀ flags, x.sayNumber va flags 10 ⟨0, mem, []⟩ = ⟨1, mem,
      numberText flags w (x.digits va ⟨0, mem, []⟩).toNat 10 (va 0)⟩ := by
    intro flags
    unfold Directive.sayNumber
    rw [harg, hwide]
    rfl
  unfold Directive.say
  rcases h.kind with hk | hk | hk
  · rw [hk]
    rcases h.sign with hu | hs
    · rw [hk] at hu
      cases hu
    · exact ⟨x.allFlags, w, _, ⟨hfield, Or.inr hs⟩, hsay _⟩
  · rw [hk]
    rcases h.sign with hu | hs
    · rw [hk] at hu
      cases hu
    · exact ⟨x.allFlags, w, _, ⟨hfield, Or.inr hs⟩, hsay _⟩
  · rw [hk]
    exact ⟨{ x.allFlags with unsigned := true }, w, _, ⟨hfield, Or.inl rfl⟩, hsay _⟩

/-- A decimal number that `dopr` puts out is read by `atoi` as the argument it was made from. -/
theorem print_read {fmt : Nat → Byte} {va : Nat → Word} {maxlen : Int} {mem : Bytes}
    {x : Directive} (hx : Decimal x) (htext : Literal fmt [.conv x]) (hpos : 0 < maxlen)
    (hmax : maxlen < 2 ^ 31) (hlen : (x.say va maxlen ⟨0, mem, []⟩).out.length < 2 ^ 31) :
    ∃ k, ∀ fuel ≥ k, ∃ d, dopr fmt va maxlen fuel mem [] = .ok d ∧ atoi d.sink.out = va 0 := by
  have hfine : x.Fine va ⟨0, mem, []⟩ := by
    refine ⟨?_, fun hk => ?_⟩
    · unfold Directive.wide
      obtain ⟨n, ⟨hn, -⟩ | hn⟩ := hx.width
      · rw [hn]
        exact Int.natCast_nonneg n
      · rw [hn]
        exact Int.le_refl 0
    · have hkind := hx.kind
      rw [hk] at hkind
      exact absurd hkind (by decide)
  have hps : ∀ p ∈ [Piece.conv x], p.WellFormed := by
    intro p hp
    obtain rfl := List.mem_singleton.mp hp
    exact hx.wellFormed
  have hf : Fine va maxlen [.conv x] ⟨0, mem, []⟩ := fun _ => ⟨hfine, hlen, trivial⟩
  obtain ⟨k, d, hloop, -, -, hd⟩ := pieces_reach (htext.stands mem []) hps hf hmax
  have hsay : say va maxlen [.conv x] ⟨0, mem, []⟩ = x.say va maxlen ⟨0, mem, []⟩ := if_pos hpos
  obtain ⟨flags, w, p, htight, hout⟩ := hx.says va maxlen mem
  refine ⟨k, fun fuel hfuel => ⟨d, ?_, ?_⟩⟩
  · rw [← Nat.sub_add_cancel hfuel]
    exact hloop _
  rw [hd, hsay, hout]
  exact atoi_numberText htight

/-- `"%08d"`, with a negative number. -/
theorem print_read_negative : ∃ k, ∀ fuel ≥ k, ∃ d,
    dopr (fun i => (textOf [.conv ⟨[.zero], .count 8, .absent, .plain, .d⟩]).getD i 0)
      (fun _ => 0xfffffffe#32) 1000 fuel (fun _ => 0) [] = .ok d ∧
    atoi d.sink.out = 0xfffffffe#32 := by
  refine print_read (x := ⟨[.zero], .count 8, .absent, .plain, .d⟩)
    ⟨⟨fun n h => by cases h; decide, fun n h => by cases h⟩, Or.inl rfl, ⟨8, Or.inl ⟨rfl, rfl⟩⟩,
      by simp, Or.inr ⟨rfl, rfl⟩⟩ (fun i _ => rfl) (by decide) (by decide) (by decide)

/-! ## What `iota` writes -/

theorem stringAt_eq {mem : Bytes} {l : List Byte} {a : Word} {fuel : Nat}
    (hl : ∀ (i : Nat) (h : i < l.length), mem (a + BitVec.ofNat 32 i) = l.get ⟨i, h⟩)
    (hne : ∀ b ∈ l, b ≠ 0) (hnul : mem (a + BitVec.ofNat 32 l.length) = 0)
    (hfuel : l.length < fuel) : stringAt mem fuel a = l := by
  induction l generalizing a fuel with
  | nil =>
    obtain ⟨k, rfl⟩ : ∃ k, fuel = k + 1 := ⟨fuel - 1, by simp at hfuel; omega⟩
    have hz : mem a = 0 := by simpa using hnul
    rw [stringAt, if_pos hz]
  | cons b bs ih =>
    obtain ⟨k, rfl⟩ : ∃ k, fuel = k + 1 := ⟨fuel - 1, by simp at hfuel; omega⟩
    have hb : mem a = b := by simpa using hl 0 (Nat.succ_pos _)
    have hb0 : mem a ≠ 0 := hb ▸ hne b List.mem_cons_self
    have hshift : ∀ i, a + 1 + BitVec.ofNat 32 i = a + BitVec.ofNat 32 (i + 1) := by
      intro i
      rw [BitVec.add_assoc, Nat.add_comm i 1, BitVec.ofNat_add]
      rfl
    rw [stringAt, if_neg hb0, hb, ih]
    · intro i h
      rw [hshift]
      exact hl (i + 1) (Nat.succ_lt_succ h)
    · exact fun c hc => hne c (List.mem_cons_of_mem _ hc)
    · rw [hshift]
      exact hnul
    · simpa using hfuel

theorem setChar_at {mem : Bytes} {buf : Word} {v : Byte} {i j : Nat} (hi : i < 2 ^ 32)
    (hj : j < 2 ^ 32) : setChar mem buf j v (buf + BitVec.ofNat 32 i) =
      if i = j then v else mem (buf + BitVec.ofNat 32 i) := by
  have heq : buf + BitVec.ofNat 32 i = buf + BitVec.ofNat 32 j ↔ i = j := by
    rw [BitVec.add_right_inj, ← BitVec.toNat_inj, BitVec.toNat_ofNat, BitVec.toNat_ofNat]
    omega
  unfold setChar
  rw [overlay_one, Function.update_apply]
  exact if_congr heq rfl rfl

/-- The ten digits of a word, with zeros before them. -/
def tenDigits (n : Nat) : List Nat :=
  [n / 1000000000 % 10, n / 100000000 % 10, n / 10000000 % 10, n / 1000000 % 10, n / 100000 % 10,
    n / 10000 % 10, n / 1000 % 10, n / 100 % 10, n / 10 % 10, n / 1 % 10]

theorem tenDigits_lt {n : Nat} : ∀ k ∈ tenDigits n, k < 10 := by
  intro k hk
  simp only [tenDigits, List.mem_cons, List.not_mem_nil, or_false] at hk
  omega

/-- Reading the last `k` digits completes what is before them. -/
theorem readFrom_places (n k : Nat) :
    readFrom 10 (n / 10 ^ k) ((List.range k).reverse.map fun i => n / 10 ^ i % 10) = n := by
  induction k with
  | zero => exact Nat.div_one n
  | succ k ih =>
    have hstep : 10 * (n / 10 ^ (k + 1)) + n / 10 ^ k % 10 = n / 10 ^ k := by
      rw [Nat.pow_succ, ← Nat.div_div_eq_div_mul]
      exact Nat.div_add_mod _ _
    rw [List.range_succ, List.reverse_append, List.reverse_singleton, List.singleton_append,
      List.map_cons, readFrom, hstep]
    exact ih

theorem readFrom_tenDigits {n : Nat} (hn : n < 2 ^ 32) : readFrom 10 0 (tenDigits n) = n := by
  have hzero : n / 10 ^ 10 = 0 := Nat.div_eq_of_lt (by omega)
  have hread := readFrom_places n 10
  rw [hzero] at hread
  exact hread

/-- What `iota` stores: digits, and the 0 behind them. -/
theorem iota_at (mem : Bytes) (n buf : Word) {i : Nat} (hi : i ≤ 10) :
    iota mem n buf (buf + BitVec.ofNat 32 i) =
      ((tenDigits n.toNat).map (digit false) ++ [0]).getD i 0 := by
  have hplace : ∀ p, place n p = digit false (n.toNat / p % 10) := by
    intro p
    unfold place digit
    rw [if_pos (Nat.mod_lt _ (by decide)), Nat.add_comm]
  unfold iota
  simp only [setChar_at (Nat.lt_of_le_of_lt hi (by decide)), Nat.reduceLT, Nat.reducePow, hplace]
  unfold tenDigits
  interval_cases i <;> rfl

/-- `atoi` reads what `iota` wrote, in any memory. -/
theorem iota_read (mem : Bytes) (n buf : Word) :
    atoi (stringAt (iota mem n buf) (2 ^ 32) buf) = n := by
  have hlen : ((tenDigits n.toNat).map (digit false)).length = 10 := rfl
  have hstring : stringAt (iota mem n buf) (2 ^ 32) buf = (tenDigits n.toNat).map (digit false) := by
    refine stringAt_eq (fun i h => ?_) (fun b hb => ?_) ?_ (by rw [hlen]; decide)
    · rw [iota_at mem n buf (by omega)]
      simp [List.getElem?_append_left h, List.getElem?_eq_getElem h]
    · obtain ⟨k, hk, rfl⟩ := List.mem_map.mp hb
      exact (digit_byte (tenDigits_lt k hk)).2.2.1
    · rw [iota_at mem n buf (by omega)]
      rfl
  rw [hstring, atoi_digits (by simp [tenDigits]) tenDigits_lt, readFrom_tenDigits n.isLt,
    BitVec.ofNat_toNat, BitVec.setWidth_eq]

end OsKernel.Format
