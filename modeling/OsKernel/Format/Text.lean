import OsKernel.Format.Number

/-!
# What a format says

A format as what it is made of: bytes that stand for themselves, and directives with flags, a
width, a precision, a size and a kind. Each has its text, and says what it adds to the output.
`dopr` goes over the text one byte at a time, in seven stages; it puts out what the format
says, up to the directive with which the output reaches `maxlen`.

`Piece` and `say` are the specification. A piece is a value of an inductive type, so a format
that is not well formed in the sense of the grammar cannot be written down; `say` is a fold
over the pieces that has no stages and no bytes of the format. Arguments are words, strings
are in memory, and a directive may store the count of the output (`%n`), so what a piece says
depends on what came before it.

The proof goes by stages. `Reaches` is some turns of the loop, and there is a lemma for each
stage that says which turns take it across its part of the text. They are put together for one
directive (`conv_reaches`), for one piece, and for the whole format.

## Where it holds

`Fine` is a condition on what is reached: a width given as an argument is not negative, and
lengths are those of an `int`. The source does not turn a negative width into the flag for the
left side, as the standard does. The sizes are none, `h`, `l`, and `L`; a format with `ll` is
no text of pieces. Nor is one with a floating-point directive.
-/

set_option autoImplicit false

namespace OsKernel.Format

open Lib

/-! ## Formats -/

inductive FlagChar
  | minus | plus | space | num | zero

/-- A width or a precision. -/
inductive Amount
  | absent
  | count (n : Nat)
  /-- `*`: the next argument -/
  | star

inductive Kind
  | d | i | o | u | X | x | c | s | p | n | percent
  deriving DecidableEq

structure Directive where
  flags : List FlagChar
  width : Amount
  prec : Amount
  size : Size
  kind : Kind

inductive Piece
  | char (c : Byte)
  | conv (x : Directive)

def FlagChar.char : FlagChar → Byte
  | minus => chr '-'
  | plus => chr '+'
  | space => chr ' '
  | num => chr '#'
  | zero => chr '0'

def Size.text : Size → List Byte
  | plain => []
  | short => [chr 'h']
  | long => [chr 'l']
  | ldouble => [chr 'L']

def Kind.char : Kind → Byte
  | d => chr 'd'
  | i => chr 'i'
  | o => chr 'o'
  | u => chr 'u'
  | X => chr 'X'
  | x => chr 'x'
  | c => chr 'c'
  | s => chr 's'
  | p => chr 'p'
  | n => chr 'n'
  | percent => chr '%'

def Amount.text : Amount → List Byte
  | absent => []
  | count n => numeralText false 10 n
  | star => [chr '*']

/-- A precision begins with a dot. -/
def precText : Amount → List Byte
  | .absent => []
  | a => chr '.' :: a.text

def Directive.text (x : Directive) : List Byte :=
  chr '%' :: (x.flags.map FlagChar.char ++
    (x.width.text ++ (precText x.prec ++ (x.size.text ++ [x.kind.char]))))

def Piece.text : Piece → List Byte
  | char c => [c]
  | conv x => x.text

def textOf : List Piece → List Byte
  | [] => []
  | p :: ps => p.text ++ textOf ps

/-- A width does not begin with 0, which is a flag; all numbers are those of an `int`. -/
structure Directive.WellFormed (x : Directive) : Prop where
  width : ∀ n, x.width = .count n → 0 < n ∧ n < 2 ^ 31
  prec : ∀ n, x.prec = .count n → n < 2 ^ 31

def Piece.WellFormed : Piece → Prop
  | char c => c ≠ 0 ∧ c ≠ chr '%'
  | conv x => x.WellFormed

/-! ## What they say -/

/-- The arguments used, the memory, and the output. -/
structure Said where
  args : Nat
  mem : Bytes
  out : List Byte

section

variable (va : Nat → Word) (maxlen : Int)

def FlagChar.set (f : Flags) : FlagChar → Flags
  | minus => { f with minus := true }
  | plus => { f with plus := true }
  | space => { f with space := true }
  | num => { f with num := true }
  | zero => { f with zero := true }

/-- The amount, and the arguments used. -/
def Amount.take (a : Amount) (default : Int) (k : Nat) : Int × Nat :=
  match a with
  | absent => (default, k)
  | count n => (n, k)
  | star => ((va k).toInt, k + 1)

def Directive.allFlags (x : Directive) : Flags := x.flags.foldl FlagChar.set Flags.none

def Directive.wide (x : Directive) (s : Said) : Int := (x.width.take va 0 s.args).1

def Directive.digits (x : Directive) (s : Said) : Int :=
  (x.prec.take va (-1) (x.width.take va 0 s.args).2).1

/-- The place of the argument that is converted. -/
def Directive.arg (x : Directive) (s : Said) : Nat :=
  (x.prec.take va (-1) (x.width.take va 0 s.args).2).2

/-- The string that an argument points to. -/
def textAt (mem : Bytes) (value : Word) : List Byte :=
  if value = 0 then null else stringAt mem (2 ^ 32) value

/-- The output grows, and so many arguments are used. -/
def Said.add (s : Said) (args : Nat) (l : List Byte) : Said :=
  { s with args := args, out := s.out ++ l }

/-- A number. -/
def Directive.sayNumber (x : Directive) (flags : Flags) (base : Nat) (s : Said) : Said :=
  s.add (x.arg va s + 1)
    (numberText flags (x.wide va s).toNat (x.digits va s).toNat base (va (x.arg va s)))

def Directive.say (x : Directive) (s : Said) : Said :=
  let flags := x.allFlags
  let value := va (x.arg va s)
  match x.kind with
  | .d | .i => x.sayNumber va flags 10 s
  | .o => x.sayNumber va { flags with unsigned := true } 8 s
  | .u => x.sayNumber va { flags with unsigned := true } 10 s
  | .X => x.sayNumber va { flags with up := true, unsigned := true } 16 s
  | .x => x.sayNumber va { flags with unsigned := true } 16 s
  | .p => x.sayNumber va flags 16 s
  | .c => s.add (x.arg va s + 1) [value.setWidth 8]
  | .s =>
    let limit := if x.digits va s < 0 then maxlen else x.digits va s
    s.add (x.arg va s + 1)
      (stringText flags (x.wide va s).toNat limit.toNat (textAt s.mem value))
  | .n =>
    { s with
      args := x.arg va s + 1
      mem := overlay s.mem value (if x.size = .short then 2 else 4)
        (byteOf (BitVec.ofInt 32 s.out.length)) }
  | .percent => s.add (x.arg va s) [chr '%']

def Piece.say (s : Said) : Piece → Said
  | char c => s.add s.args [c]
  | conv x => x.say va maxlen s

/-- What a format says; once `maxlen` bytes are out, nothing more. -/
def say : List Piece → Said → Said
  | [], s => s
  | p :: ps, s => if (s.out.length : Int) < maxlen then say ps (p.say va maxlen s) else s

/-- A width given as an argument is not negative, and the length of a string is that of an `int`. -/
structure Directive.Fine (x : Directive) (s : Said) : Prop where
  wide : 0 ≤ x.wide va s
  string : x.kind = .s → (textAt s.mem (va (x.arg va s))).length < 2 ^ 31

def Piece.Fine (s : Said) : Piece → Prop
  | char _ => True
  | conv x => x.Fine va s

/-- Every directive that is reached is fine, and the count of the output stays that of an `int`. -/
def Fine : List Piece → Said → Prop
  | [], _ => True
  | p :: ps, s => (s.out.length : Int) < maxlen →
    p.Fine va s ∧ (p.say va maxlen s).out.length < 2 ^ 31 ∧ Fine ps (p.say va maxlen s)

end

/-! ## The loop -/

variable {fmt : Nat → Byte} {va : Nat → Word} {maxlen : Int}

/-- Some turns of the loop lead from one to the other. -/
def Reaches (fmt : Nat → Byte) (va : Nat → Word) (maxlen : Int) (d d' : Dopr) : Prop :=
  ∃ k, ∀ n, Dopr.loop fmt va maxlen (n + k) d = Dopr.loop fmt va maxlen n d'

theorem Reaches.refl (d : Dopr) : Reaches fmt va maxlen d d := ⟨0, fun _ => rfl⟩

theorem Reaches.trans {d d' d'' : Dopr} (h : Reaches fmt va maxlen d d')
    (h' : Reaches fmt va maxlen d' d'') : Reaches fmt va maxlen d d'' := by
  obtain ⟨k, hk⟩ := h
  obtain ⟨k', hk'⟩ := h'
  refine ⟨k' + k, fun n => ?_⟩
  rw [← Nat.add_assoc, hk, hk']

/-- The loop goes on. -/
structure Going (maxlen : Int) (d : Dopr) : Prop where
  stage : d.stage ≠ .done
  ch : d.ch ≠ 0
  count : d.sink.currlen < maxlen

theorem reaches_work {d d' : Dopr} (h : Going maxlen d) (hwork : d.work fmt va maxlen = .ok d') :
    Reaches fmt va maxlen d d' := by
  have hgo : ¬(d.ch = 0 ∨ d.sink.currlen ≥ maxlen) := by
    intro hor
    cases hor with
    | inl hz => exact h.ch hz
    | inr hle => exact absurd h.count (by omega)
  refine ⟨1, fun n => ?_⟩
  have hturn : d.turn fmt va maxlen = .ok d' := by
    unfold Dopr.turn
    rw [if_neg hgo, hwork]
  rw [Dopr.loop, if_neg h.stage, hturn]
  rfl

/-- `l` is what follows in the format: its first byte has been read. -/
def At (fmt : Nat → Byte) (n : Nat) (c : Byte) : List Byte → Prop
  | [] => False
  | c' :: l => c = c' ∧ ∀ (i : Nat) (h : i < l.length), fmt (n + i) = l.get ⟨i, h⟩

theorem At.head {n : Nat} {c c' : Byte} {l : List Byte} (h : At fmt n c (c' :: l)) : c = c' := h.1

theorem At.next {n : Nat} {c c' c'' : Byte} {l : List Byte} (h : At fmt n c (c' :: c'' :: l)) :
    At fmt (n + 1) (fmt n) (c'' :: l) := by
  refine ⟨h.2 0 (Nat.succ_pos _), fun i hi => ?_⟩
  have hat := h.2 (i + 1) (Nat.succ_lt_succ hi)
  rw [Nat.add_assoc, Nat.add_comm 1 i]
  exact hat

/-! ## The stages

`dopr` reads a directive in seven stages, and one stage hands a byte that it does not want over to
the next. The lemmas follow the text of a directive through the stages; each needs to know that
the byte behind its part does not belong to it, which is what `Plain` and the lemmas about heads
are for. -/

section Stages

variable {d : Dopr} {c : Byte} {tl : List Byte}

theorem setFlag_char (f : Flags) (x : FlagChar) : setFlag f x.char = some (x.set f) := by
  cases x <;> rfl

theorem FlagChar.char_ne_zero (x : FlagChar) : x.char ≠ 0 := by cases x <;> decide

variable (va maxlen) in
/-- All flags are read. -/
theorem flags_reaches {xs : List FlagChar} (h : d.stage = .flags)
    (hat : At fmt d.format d.ch (xs.map FlagChar.char ++ c :: tl))
    (hc : c ≠ 0) (hflag : ∀ f, setFlag f c = none) (hcount : d.sink.currlen < maxlen) :
    ∃ n, At fmt n c (c :: tl) ∧ Reaches fmt va maxlen d
      { d with format := n, ch := c, stage := .min, flags := xs.foldl FlagChar.set d.flags } := by
  induction xs generalizing d with
  | nil =>
    have hch : d.ch = c := hat.head
    refine ⟨d.format, hch ▸ hat, reaches_work ⟨by rw [h]; decide, hch ▸ hc, hcount⟩ ?_⟩
    simp only [Dopr.work, h, hch, hflag, List.foldl_nil]
  | cons x xs ih =>
    have hch : d.ch = x.char := hat.head
    have hstep : Reaches fmt va maxlen d ({ d with flags := x.set d.flags }.next fmt) := by
      refine reaches_work ⟨by rw [h]; decide, hch ▸ x.char_ne_zero, hcount⟩ ?_
      simp only [Dopr.work, h, hch, setFlag_char]
    have hnext : At fmt (d.format + 1) (fmt d.format) (xs.map FlagChar.char ++ c :: tl) := by
      cases xs with
      | nil => exact hat.next
      | cons y ys => exact hat.next
    obtain ⟨n, hn, hreach⟩ := ih (d := { d with flags := x.set d.flags }.next fmt) h hnext hcount
    exact ⟨n, hn, hstep.trans hreach⟩

/-- What a digit is, as a byte. -/
theorem digit_byte {k : Nat} (hk : k < 10) : isdigit (digit false k) = true ∧
    charToInt (digit false k) = k ∧ digit false k ≠ 0 ∧ (0 < k → ∀ f, setFlag f (digit false k) = none) := by
  have hall : ∀ k : Fin 10, isdigit (digit false k) = true ∧ charToInt (digit false k) = k.val ∧
      digit false k ≠ 0 ∧ (0 < k.val → digit false k ≠ chr '-' ∧ digit false k ≠ chr '+' ∧
        digit false k ≠ chr ' ' ∧ digit false k ≠ chr '#' ∧ digit false k ≠ chr '0') := by decide
  obtain ⟨hd, hv, hz, hf⟩ := hall ⟨k, hk⟩
  refine ⟨hd, hv, hz, fun hpos f => ?_⟩
  obtain ⟨h₁, h₂, h₃, h₄, h₅⟩ := hf hpos
  unfold setFlag
  rw [if_neg h₁, if_neg h₂, if_neg h₃, if_neg h₄, if_neg h₅]

variable (va maxlen) in
/-- What has been read of a number grows by one digit after the other. -/
theorem digits_reach {f : Int → Nat → Byte → Dopr} {ks : List Nat} {m n : Nat} {c₀ : Byte}
    (hstep : ∀ (m n k : Nat), k < 10 → 10 * m + k < 2 ^ 31 → Reaches fmt va maxlen
      (f m n (digit false k)) (f ((10 * m + k : Nat) : Int) (n + 1) (fmt n)))
    (hks : ∀ k ∈ ks, k < 10) (hlt : readFrom 10 m ks < 2 ^ 31)
    (hat : At fmt n c₀ (ks.map (digit false) ++ c :: tl)) :
    ∃ n', At fmt n' c (c :: tl) ∧
      Reaches fmt va maxlen (f m n c₀) (f (readFrom 10 m ks : Nat) n' c) := by
  induction ks generalizing m n c₀ with
  | nil =>
    have hc : c₀ = c := hat.head
    exact ⟨n, hc ▸ hat, hc ▸ Reaches.refl _⟩
  | cons k ks ih =>
    have hk : k < 10 := hks k List.mem_cons_self
    have hc : c₀ = digit false k := hat.head
    have hm : 10 * m + k < 2 ^ 31 := Nat.lt_of_le_of_lt (le_readFrom (by decide)) hlt
    have hnext : At fmt (n + 1) (fmt n) (ks.map (digit false) ++ c :: tl) := by
      cases ks with
      | nil => exact hat.next
      | cons y ys => exact hat.next
    obtain ⟨n', hn, hreach⟩ := ih (fun k' hk' => hks k' (List.mem_cons_of_mem _ hk')) hlt hnext
    rw [hc]
    exact ⟨n', hn, (hstep m n k hk hm).trans hreach⟩

/-- `10*m + d` of an `int`. -/
theorem int_digit {m k : Nat} (hk : k < 10) (h : 10 * m + k < 2 ^ 31) :
    int (int (10 * (m : Int)) + charToInt (digit false k)) = ((10 * m + k : Nat) : Int) := by
  rw [(digit_byte hk).2.1, int_int_add, int_eq (by omega) (by omega)]
  push_cast
  rfl

/-- One digit of a width. -/
theorem width_digit (h : d.stage = .min) (hcount : d.sink.currlen < maxlen) (m n k : Nat)
    (hk : k < 10) (hm : 10 * m + k < 2 ^ 31) : Reaches fmt va maxlen
      { d with min := (m : Int), format := n, ch := digit false k }
      { d with min := ((10 * m + k : Nat) : Int), format := n + 1, ch := fmt n } := by
  refine reaches_work ⟨?_, (digit_byte hk).2.2.1, hcount⟩ ?_
  · show d.stage ≠ .done
    rw [h]
    decide
  · simp only [Dopr.work, h, (digit_byte hk).1, if_true, int_digit hk hm]
    rfl

/-- One digit of a precision, which has begun. -/
theorem prec_digit (h : d.stage = .max) (hcount : d.sink.currlen < maxlen) (m n k : Nat)
    (hk : k < 10) (hm : 10 * m + k < 2 ^ 31) : Reaches fmt va maxlen
      { d with max := (m : Int), format := n, ch := digit false k }
      { d with max := ((10 * m + k : Nat) : Int), format := n + 1, ch := fmt n } := by
  have hneg : ¬(m : Int) < 0 := by omega
  refine reaches_work ⟨?_, (digit_byte hk).2.2.1, hcount⟩ ?_
  · show d.stage ≠ .done
    rw [h]
    decide
  · simp only [Dopr.work, h, (digit_byte hk).1, if_true, if_neg hneg, int_digit hk hm]
    rfl

/-- A byte that no flag, no number and no `*` goes on with. -/
structure Plain (c : Byte) : Prop where
  ne_zero : c ≠ 0
  flag : ∀ f, setFlag f c = none
  digit : isdigit c = false
  star : c ≠ chr '*'

theorem setFlag_none {c : Byte} (h : c ≠ chr '-' ∧ c ≠ chr '+' ∧ c ≠ chr ' ' ∧ c ≠ chr '#' ∧
    c ≠ chr '0') (f : Flags) : setFlag f c = none := by
  obtain ⟨h₁, h₂, h₃, h₄, h₅⟩ := h
  unfold setFlag
  rw [if_neg h₁, if_neg h₂, if_neg h₃, if_neg h₄, if_neg h₅]

theorem kind_plain (k : Kind) : Plain k.char ∧ k.char ≠ chr '.' ∧ setSize k.char = none := by
  cases k <;> exact ⟨⟨by decide, setFlag_none (by decide), by decide, by decide⟩, by decide, rfl⟩

theorem plain_dot : Plain (chr '.') :=
  ⟨by decide, setFlag_none (by decide), by decide, by decide⟩

/-- What the size and the kind begin with. -/
theorem size_head (z : Size) (k : Kind) (tl : List Byte) :
    ∃ c l, z.text ++ (k.char :: tl) = c :: l ∧ Plain c ∧ c ≠ chr '.' := by
  cases z with
  | plain => exact ⟨_, _, rfl, (kind_plain k).1, (kind_plain k).2.1⟩
  | short | long | ldouble =>
    exact ⟨_, _, rfl, ⟨by decide, setFlag_none (by decide), by decide, by decide⟩, by decide⟩

theorem prec_head (a : Amount) {c : Byte} {l : List Byte} (h : Plain c) :
    ∃ c' l', precText a ++ (c :: l) = c' :: l' ∧ Plain c' := by
  cases a with
  | absent => exact ⟨_, _, rfl, h⟩
  | count n => exact ⟨_, _, rfl, plain_dot⟩
  | star => exact ⟨_, _, rfl, plain_dot⟩

theorem width_head {a : Amount} {c : Byte} {l : List Byte} (h : Plain c)
    (ha : ∀ n, a = .count n → 0 < n) :
    ∃ c' l', a.text ++ (c :: l) = c' :: l' ∧ c' ≠ 0 ∧ ∀ f, setFlag f c' = none := by
  cases a with
  | absent => exact ⟨_, _, rfl, h.ne_zero, h.flag⟩
  | star => exact ⟨_, _, rfl, by decide, setFlag_none (by decide)⟩
  | count n =>
    obtain ⟨k, ks, hnum, hk⟩ := numeral_head (b := 10) (ha n rfl)
    have hlt : k < 10 := numeral_lt (by decide) k (by rw [hnum]; exact List.mem_cons_self)
    have hbyte := digit_byte hlt
    refine ⟨digit false k, ks.map (digit false) ++ c :: l, ?_, hbyte.2.2.1,
      hbyte.2.2.2 (Nat.pos_of_ne_zero hk)⟩
    show numeralText false 10 n ++ c :: l = _
    unfold numeralText
    rw [hnum]
    rfl

variable (va maxlen) in
theorem width_reaches {a : Amount} (h : d.stage = .min) (hmin : d.min = 0)
    (ha : ∀ n, a = .count n → n < 2 ^ 31) (hat : At fmt d.format d.ch (a.text ++ c :: tl))
    (hc : Plain c) (hcount : d.sink.currlen < maxlen) :
    ∃ n, At fmt n c (c :: tl) ∧ Reaches fmt va maxlen d
      { d with format := n, ch := c, stage := .dot, min := (a.take va 0 d.args).1
               args := (a.take va 0 d.args).2 } := by
  -- the byte behind the width ends it
  have hlast : ∀ d : Dopr, d.stage = .min → d.ch = c → d.sink.currlen < maxlen →
      Reaches fmt va maxlen d { d with stage := .dot } := by
    intro d h hch hcount
    refine reaches_work ⟨by rw [h]; decide, by rw [hch]; exact hc.ne_zero, hcount⟩ ?_
    simp only [Dopr.work, h, hch, hc.digit, Bool.false_eq_true, if_false, hc.star]
  cases a with
  | absent =>
    have hch : d.ch = c := hat.head
    refine ⟨d.format, hch ▸ hat, ?_⟩
    have hlast' := hlast d h hch hcount
    rw [hch, hmin] at hlast'
    exact hlast'
  | count n =>
    have hread : readFrom 10 0 (numeral 10 n) = n := readFrom_numeral
    obtain ⟨n', hn, hreach⟩ := digits_reach va maxlen
      (f := fun v k b => { d with min := v, format := k, ch := b }) (m := 0)
      (width_digit h hcount) (numeral_lt (by decide)) (by rw [hread]; exact ha n rfl) hat
    rw [hread] at hreach
    rw [Nat.cast_zero, ← hmin] at hreach
    exact ⟨n', hn, hreach.trans (hlast { d with min := (n : Int), format := n', ch := c } h rfl hcount)⟩
  | star =>
    have hch : d.ch = chr '*' := hat.head
    refine ⟨d.format + 1, ?_, reaches_work ⟨by rw [h]; decide, by rw [hch]; decide, hcount⟩ ?_⟩
    · have hnext : At fmt (d.format + 1) (fmt d.format) (c :: tl) := At.next hat
      exact hnext.head ▸ hnext
    · have hnext : At fmt (d.format + 1) (fmt d.format) (c :: tl) := At.next hat
      have hdigit : isdigit (chr '*') = false := by decide
      simp only [Dopr.work, h, hch, hdigit, Bool.false_eq_true, if_false, if_true, Dopr.next,
        hnext.head]
      rfl

variable (va maxlen) in
theorem prec_reaches {a : Amount} (h : d.stage = .dot) (hmax : d.max = -1)
    (ha : ∀ n, a = .count n → n < 2 ^ 31) (hat : At fmt d.format d.ch (precText a ++ c :: tl))
    (hc : Plain c) (hdot : c ≠ chr '.') (hcount : d.sink.currlen < maxlen) :
    ∃ n, At fmt n c (c :: tl) ∧ Reaches fmt va maxlen d
      { d with format := n, ch := c, stage := .mod, max := (a.take va (-1) d.args).1
               args := (a.take va (-1) d.args).2 } := by
  have hbegin : d.ch = chr '.' → Reaches fmt va maxlen d
      { d with stage := .max, format := d.format + 1, ch := fmt d.format } := by
    intro hch
    refine reaches_work ⟨by rw [h]; decide, by rw [hch]; decide, hcount⟩ ?_
    simp only [Dopr.work, h, hch, if_true]
    rfl
  have hlast : ∀ d : Dopr, d.stage = .max → d.ch = c → d.sink.currlen < maxlen →
      Reaches fmt va maxlen d { d with stage := .mod } := by
    intro d h hch hcount
    refine reaches_work ⟨by rw [h]; decide, by rw [hch]; exact hc.ne_zero, hcount⟩ ?_
    simp only [Dopr.work, h, hch, hc.digit, Bool.false_eq_true, if_false, hc.star]
  cases a with
  | absent =>
    have hch : d.ch = c := hat.head
    refine ⟨d.format, hch ▸ hat, reaches_work
      ⟨by rw [h]; decide, by rw [hch]; exact hc.ne_zero, hcount⟩ ?_⟩
    simp only [Dopr.work, h, hch, if_neg hdot, ← hmax]
    rfl
  | count n =>
    have hch : d.ch = chr '.' := hat.head
    obtain ⟨k, ks, hnum⟩ := List.exists_cons_of_ne_nil (numeral_ne_nil (b := 10) (n := n))
    have hks : ∀ j ∈ k :: ks, j < 10 := by
      rw [← hnum]
      exact numeral_lt (by decide)
    have hk : k < 10 := hks k List.mem_cons_self
    have hread : readFrom 10 (10 * 0 + k) ks = n := by
      rw [← readFrom_numeral (b := 10) (n := n), hnum]
      rfl
    have hm : 10 * 0 + k < 2 ^ 31 := by omega
    have hnext : At fmt (d.format + 1) (fmt d.format)
        (digit false k :: (ks.map (digit false) ++ c :: tl)) := by
      have htext : precText (.count n) ++ c :: tl =
          chr '.' :: digit false k :: (ks.map (digit false) ++ c :: tl) := by
        show chr '.' :: (numeralText false 10 n ++ c :: tl) = _
        unfold numeralText
        rw [hnum]
        rfl
      rw [htext] at hat
      exact hat.next
    -- the first digit finds a precision of -1
    have hfirst : Reaches fmt va maxlen
        { d with stage := .max, format := d.format + 1, ch := fmt d.format }
        { d with stage := .max, max := ((10 * 0 + k : Nat) : Int), format := d.format + 1 + 1
                 ch := fmt (d.format + 1) } := by
      refine reaches_work ⟨(by decide : Stage.max ≠ .done), ?_, hcount⟩ ?_
      · show fmt d.format ≠ 0
        rw [hnext.head]
        exact (digit_byte hk).2.2.1
      · have hint := int_digit hk hm
        simp only [Dopr.work, hnext.head, (digit_byte hk).1, if_true, hmax]
        rw [if_pos (by decide)]
        rw [Nat.cast_zero] at hint
        rw [hint]
        rfl
    have hmore : At fmt (d.format + 1 + 1) (fmt (d.format + 1)) (ks.map (digit false) ++ c :: tl) := by
      cases ks with
      | nil => exact hnext.next
      | cons y ys => exact hnext.next
    obtain ⟨n', hn, hreach⟩ := digits_reach va maxlen
      (f := fun v k b => { d with stage := .max, max := v, format := k, ch := b })
      (m := 10 * 0 + k) (prec_digit (d := { d with stage := .max }) rfl hcount)
      (fun j hj => hks j (List.mem_cons_of_mem _ hj)) (by rw [hread]; exact ha n rfl) hmore
    rw [hread] at hreach
    exact ⟨n', hn, ((hbegin hch).trans hfirst).trans (hreach.trans (hlast _ rfl rfl hcount))⟩
  | star =>
    have hch : d.ch = chr '.' := hat.head
    have hnext : At fmt (d.format + 1) (fmt d.format) (chr '*' :: c :: tl) := At.next hat
    have hnext' : At fmt (d.format + 1 + 1) (fmt (d.format + 1)) (c :: tl) := At.next hnext
    refine ⟨d.format + 1 + 1, hnext'.head ▸ hnext', (hbegin hch).trans
      (reaches_work ⟨(by decide : Stage.max ≠ .done), ?_, hcount⟩ ?_)⟩
    · show fmt d.format ≠ 0
      rw [hnext.head]
      decide
    · have hdigit : isdigit (chr '*') = false := by decide
      simp only [Dopr.work, hnext.head, hdigit, Bool.false_eq_true, if_false, if_true, Dopr.next,
        hnext'.head]
      rfl

variable (va maxlen) in
theorem size_reaches {z : Size} {k : Kind} (h : d.stage = .mod) (hsize : d.cflags = .plain)
    (hat : At fmt d.format d.ch (z.text ++ k.char :: tl)) (hcount : d.sink.currlen < maxlen) :
    ∃ n, At fmt n k.char (k.char :: tl) ∧ Reaches fmt va maxlen d
      { d with format := n, ch := k.char, stage := .conv, cflags := z } := by
  cases z with
  | plain =>
    have hch : d.ch = k.char := hat.head
    refine ⟨d.format, hch ▸ hat, reaches_work
      ⟨by rw [h]; decide, by rw [hch]; exact (kind_plain k).1.ne_zero, hcount⟩ ?_⟩
    simp only [Dopr.work, h, hch, (kind_plain k).2.2, ← hsize]
  | short | long | ldouble =>
    have hch := hat.head
    have hnext := At.next hat
    refine ⟨d.format + 1, hnext.head ▸ hnext, reaches_work
      ⟨by rw [h]; decide, by rw [hch]; decide, hcount⟩ ?_⟩
    simp only [Dopr.work, h, hch, Dopr.next, hnext.head]
    rfl

end Stages

/-! ## Pieces

A format is a list of pieces, bytes and directives. `Stands` is the state between two of them, and
each piece leads from there to there. The limit is looked at between the stages too, but nothing
is put out before the conversion, so a directive is carried out as a whole or not begun. -/

/-- Between two pieces: `l` is left of the format, and `s` has been said. -/
structure Stands (fmt : Nat → Byte) (out : List Byte) (d : Dopr) (l : List Byte) (s : Said) :
    Prop where
  here : At fmt d.format d.ch l
  stage : d.stage = .default
  flags : d.flags = Flags.none
  cflags : d.cflags = .plain
  min : d.min = 0
  max : d.max = -1
  args : d.args = s.args
  mem : d.mem = s.mem
  sink : d.sink = ⟨out ++ s.out, s.out.length⟩

section Pieces

variable {d : Dopr} {s : Said} {out l : List Byte}

/-- The output after some bytes more. -/
theorem sink_outAll {sink : Sink} (h : sink = ⟨out ++ s.out, s.out.length⟩) {k : Nat} {t : List Byte}
    (hlt : (s.add k t).out.length < 2 ^ 31) :
    sink.outAll t = ⟨out ++ (s.add k t).out, (s.add k t).out.length⟩ := by
  have hlen : (s.add k t).out.length = s.out.length + t.length := List.length_append
  have happ : (s.add k t).out = s.out ++ t := rfl
  rw [h, outAll_eq (by show (0 : Int) ≤ s.out.length; omega) (by show (s.out.length : Int) + _ < _; omega),
    hlen, happ, ← List.append_assoc]
  push_cast
  rfl

theorem char_reaches {c : Byte} (h : Stands fmt out d (c :: l) s) (hl : l ≠ []) (hc : c ≠ 0)
    (hpercent : c ≠ chr '%') (hcount : (s.out.length : Int) < maxlen)
    (hlt : (s.add s.args [c]).out.length < 2 ^ 31) :
    ∃ d', Reaches fmt va maxlen d d' ∧ Stands fmt out d' l (s.add s.args [c]) := by
  obtain ⟨c', tl, rfl⟩ := List.exists_cons_of_ne_nil hl
  have hch : d.ch = c := h.here.head
  refine ⟨{ d with sink := d.sink.outch c }.next fmt, reaches_work
    ⟨by rw [h.stage]; decide, by rw [hch]; exact hc, by rw [h.sink]; exact hcount⟩ ?_,
    ⟨h.here.next, h.stage, h.flags, h.cflags, h.min, h.max, h.args, h.mem,
      sink_outAll (t := [c]) h.sink hlt⟩⟩
  simp only [Dopr.work, h.stage, hch, if_neg hpercent]

/-- Before the conversion of a directive. -/
structure Converts (va : Nat → Word) (out : List Byte) (d : Dopr) (x : Directive) (s : Said) :
    Prop where
  ch : d.ch = x.kind.char
  flags : d.flags = x.allFlags
  cflags : d.cflags = x.size
  min : d.min = x.wide va s
  max : d.max = x.digits va s
  args : d.args = x.arg va s
  mem : d.mem = s.mem
  sink : d.sink = ⟨out ++ s.out, s.out.length⟩

variable {x : Directive}

/-- The width and the precision are those of an `int`. -/
theorem toInt_take_lt {a : Amount} {k : Nat} {default : Int} (h : default < 2 ^ 31)
    (ha : ∀ n, a = .count n → n < 2 ^ 31) : (a.take va default k).1 < 2 ^ 31 := by
  cases a with
  | absent => exact h
  | count n =>
    have hn := ha n rfl
    show (n : Int) < 2 ^ 31
    omega
  | star => exact BitVec.toInt_lt

theorem number_sink (hx : x.WellFormed) (h : Converts va out d x s) (hw : 0 ≤ x.wide va s)
    (flags : Flags) {base : Nat} (hb : 8 ≤ base)
    (hlt : (x.sayNumber va flags base s).out.length < 2 ^ 31) :
    (d.number va base flags).sink =
      ⟨out ++ (x.sayNumber va flags base s).out, (x.sayNumber va flags base s).out.length⟩ := by
  have hwide : x.wide va s < 2 ^ 31 := toInt_take_lt (by decide) fun n hn => (hx.width n hn).2
  have hdigits : x.digits va s < 2 ^ 31 := toInt_take_lt (by decide) hx.prec
  show fmtint d.sink (va d.args) base d.min d.max flags = _
  rw [h.min, h.max, h.args, fmtint_eq hb hw hwide hdigits]
  exact sink_outAll h.sink hlt

variable (fmt maxlen) in
/-- The conversion says what the directive does. -/
theorem conv_says (hx : x.WellFormed) (h : Converts va out d x s) (hf : x.Fine va s)
    (hmax : maxlen < 2 ^ 31) (hlt : (x.say va maxlen s).out.length < 2 ^ 31) :
    ∃ e, d.conv fmt va maxlen = .ok e ∧ e.format = d.format ∧ e.args = (x.say va maxlen s).args ∧
      e.mem = (x.say va maxlen s).mem ∧
      e.sink = ⟨out ++ (x.say va maxlen s).out, (x.say va maxlen s).out.length⟩ := by
  have hch := h.ch
  have hnum := fun flags (base : Nat) (hb : 8 ≤ base) => number_sink hx h hf.wide flags hb
  have hargs : d.args + 1 = x.arg va s + 1 := by rw [h.args]
  unfold Directive.say at hlt ⊢
  -- the numbers differ in the base and in the flags that the conversion sets, and in nothing else
  cases hk : x.kind with
  | d | i =>
    rw [hk] at hch hlt
    refine ⟨d.number va 10 d.flags, ?_, rfl, hargs, h.mem, ?_⟩
    · unfold Dopr.conv
      rw [hch]
      rfl
    · rw [h.flags]
      exact hnum _ _ (by decide) hlt
  | o =>
    rw [hk] at hch hlt
    refine ⟨d.number va 8 { d.flags with unsigned := true }, ?_, rfl, hargs, h.mem, ?_⟩
    · unfold Dopr.conv
      rw [hch]
      rfl
    · rw [h.flags]
      exact hnum _ _ (by decide) hlt
  | u =>
    rw [hk] at hch hlt
    refine ⟨d.number va 10 { d.flags with unsigned := true }, ?_, rfl, hargs, h.mem, ?_⟩
    · unfold Dopr.conv
      rw [hch]
      rfl
    · rw [h.flags]
      exact hnum _ _ (by decide) hlt
  | X =>
    rw [hk] at hch hlt
    refine ⟨d.number va 16 { d.flags with up := true, unsigned := true }, ?_, rfl, hargs, h.mem, ?_⟩
    · unfold Dopr.conv
      rw [hch]
      rfl
    · rw [h.flags]
      exact hnum _ _ (by decide) hlt
  | x =>
    rw [hk] at hch hlt
    refine ⟨d.number va 16 { d.flags with unsigned := true }, ?_, rfl, hargs, h.mem, ?_⟩
    · unfold Dopr.conv
      rw [hch]
      rfl
    · rw [h.flags]
      exact hnum _ _ (by decide) hlt
  | p =>
    rw [hk] at hch hlt
    refine ⟨d.number va 16 d.flags, ?_, rfl, hargs, h.mem, ?_⟩
    · unfold Dopr.conv
      rw [hch]
      rfl
    · rw [h.flags]
      exact hnum _ _ (by decide) hlt
  | c =>
    rw [hk] at hch hlt
    refine ⟨{ d with args := d.args + 1, sink := d.sink.outch ((va d.args).setWidth 8) }, ?_, rfl,
      hargs, h.mem, ?_⟩
    · unfold Dopr.conv
      rw [hch]
      rfl
    · rw [h.args]
      exact sink_outAll (t := [(va (x.arg va s)).setWidth 8]) h.sink hlt
  | s =>
    rw [hk] at hch hlt
    -- `fmtstr` compares lengths as signed numbers
    have hwide : x.wide va s < 2 ^ 31 := toInt_take_lt (by decide) fun n hn => (hx.width n hn).2
    have hdigits : x.digits va s < 2 ^ 31 := toInt_take_lt (by decide) hx.prec
    have hlimit : (if x.digits va s < 0 then maxlen else x.digits va s) < 2 ^ 31 := by
      split
      · exact hmax
      · exact hdigits
    refine ⟨{ d with
      args := d.args + 1
      max := if d.max < 0 then maxlen else d.max
      sink := fmtstr d.sink d.mem (va d.args) d.flags d.min (if d.max < 0 then maxlen else d.max) },
      ?_, rfl, hargs, h.mem, ?_⟩
    · unfold Dopr.conv
      rw [hch]
      rfl
    · show fmtstr _ _ _ _ _ _ = _
      rw [h.min, h.max, h.args, h.flags, h.mem,
        fmtstr_eq (textAt s.mem (va (x.arg va s))) rfl (hf.string hk) hf.wide hwide hlimit]
      exact sink_outAll h.sink hlt
  | n =>
    rw [hk] at hch hlt
    refine ⟨d.storeCount va, ?_, rfl, hargs, ?_, h.sink⟩
    · unfold Dopr.conv
      rw [hch]
      rfl
    · show overlay d.mem _ _ _ = overlay s.mem _ _ _
      rw [h.mem, h.args, h.cflags, h.sink]
  | percent =>
    rw [hk] at hch hlt
    refine ⟨{ d with sink := d.sink.outch d.ch }, ?_, rfl, h.args, h.mem, ?_⟩
    · unfold Dopr.conv
      rw [hch]
      rfl
    · rw [hch]
      exact sink_outAll (t := [chr '%']) h.sink hlt

/-- The stages of a directive, one behind the other. -/
theorem conv_reaches (h : Stands fmt out d (x.text ++ l) s) (hl : l ≠ []) (hx : x.WellFormed)
    (hf : x.Fine va s) (hmax : maxlen < 2 ^ 31) (hcount : (s.out.length : Int) < maxlen)
    (hlt : (x.say va maxlen s).out.length < 2 ^ 31) :
    ∃ d', Reaches fmt va maxlen d d' ∧ Stands fmt out d' l (x.say va maxlen s) := by
  obtain ⟨c', tl, rfl⟩ := List.exists_cons_of_ne_nil hl
  have hcount' : d.sink.currlen < maxlen := by
    rw [h.sink]
    exact hcount
  -- from the back: each stage ends at the first character that is not its own
  obtain ⟨c₁, l₁, hsize, hplain₁, hdot⟩ := size_head x.size x.kind (c' :: tl)
  obtain ⟨c₂, l₂, hprec, hplain₂⟩ := prec_head x.prec (l := l₁) hplain₁
  obtain ⟨c₃, l₃, hwidth, hne, hflag⟩ := width_head (l := l₂) hplain₂ fun n hn => (hx.width n hn).1
  have htext : x.text ++ c' :: tl =
      chr '%' :: (x.flags.map FlagChar.char ++ c₃ :: l₃) := by
    unfold Directive.text
    simp [← hsize, ← hprec, ← hwidth]
  have hat := h.here
  rw [htext] at hat
  have hch : d.ch = chr '%' := hat.head
  have hat₁ : At fmt (d.format + 1) (fmt d.format) (x.flags.map FlagChar.char ++ c₃ :: l₃) := by
    cases hfl : x.flags with
    | nil =>
      rw [hfl] at hat
      exact hat.next
    | cons y ys =>
      rw [hfl] at hat
      exact hat.next
  -- and from the front: the stages one after the other, each from where the last one stopped
  have hbegin : Reaches fmt va maxlen d ({ d with stage := .flags }.next fmt) := by
    refine reaches_work ⟨by rw [h.stage]; decide, by rw [hch]; decide, hcount'⟩ ?_
    simp only [Dopr.work, h.stage, hch, if_true]
  obtain ⟨n₂, hat₂, hreach₂⟩ := flags_reaches va maxlen
    (d := { d with stage := .flags }.next fmt) rfl hat₁ hne hflag hcount'
  rw [← hwidth] at hat₂
  obtain ⟨n₃, hat₃, hreach₃⟩ := width_reaches va maxlen
    (d := { ({ d with stage := .flags }.next fmt) with
      format := n₂, ch := c₃, stage := .min, flags := x.flags.foldl FlagChar.set d.flags })
    rfl h.min (fun n hn => (hx.width n hn).2) hat₂ hplain₂ hcount'
  rw [← hprec] at hat₃
  obtain ⟨n₄, hat₄, hreach₄⟩ := prec_reaches va maxlen
    (d := { ({ d with stage := .flags }.next fmt) with
      format := n₃, ch := c₂, stage := .dot, flags := x.flags.foldl FlagChar.set d.flags
      min := (x.width.take va 0 d.args).1, args := (x.width.take va 0 d.args).2 })
    rfl h.max hx.prec hat₃ hplain₁ hdot hcount'
  rw [← hsize] at hat₄
  obtain ⟨n₅, hat₅, hreach₅⟩ := size_reaches va maxlen
    (d := { ({ d with stage := .flags }.next fmt) with
      format := n₄, ch := c₁, stage := .mod, flags := x.flags.foldl FlagChar.set d.flags
      min := (x.width.take va 0 d.args).1
      max := (x.prec.take va (-1) (x.width.take va 0 d.args).2).1
      args := (x.prec.take va (-1) (x.width.take va 0 d.args).2).2 })
    rfl h.cflags hat₄ hcount'
  have hflags : x.flags.foldl FlagChar.set d.flags = x.allFlags := by
    rw [h.flags]
    rfl
  have hargs := h.args
  obtain ⟨e, hconv, hformat, heargs, hemem, hesink⟩ := conv_says fmt maxlen
    (d := { ({ d with stage := .flags }.next fmt) with
      format := n₅, ch := x.kind.char, stage := .conv, flags := x.flags.foldl FlagChar.set d.flags
      cflags := x.size
      min := (x.width.take va 0 d.args).1
      max := (x.prec.take va (-1) (x.width.take va 0 d.args).2).1
      args := (x.prec.take va (-1) (x.width.take va 0 d.args).2).2 })
    hx ⟨rfl, hflags, rfl, by rw [hargs]; rfl, by rw [hargs]; rfl, by rw [hargs]; rfl, h.mem, h.sink⟩
    hf hmax hlt
  refine ⟨{ e.next fmt with
    stage := .default, flags := .none, cflags := .plain, min := 0, max := -1 },
    (((hbegin.trans hreach₂).trans hreach₃).trans hreach₄).trans (hreach₅.trans
      (reaches_work ⟨(by decide : Stage.conv ≠ .done), (kind_plain x.kind).1.ne_zero, hcount'⟩ ?_)),
    ⟨?_, rfl, rfl, rfl, rfl, rfl, heargs, hemem, hesink⟩⟩
  · show (Dopr.conv fmt va maxlen _ >>= _) = _
    rw [hconv]
    rfl
  · show At fmt (e.format + 1) (fmt e.format) (c' :: tl)
    rw [hformat]
    exact At.next hat₅

/-- One piece says what it does, and the next is at hand. -/
theorem piece_reaches {p : Piece} (h : Stands fmt out d (p.text ++ l) s) (hl : l ≠ [])
    (hp : p.WellFormed) (hf : p.Fine va s) (hmax : maxlen < 2 ^ 31)
    (hcount : (s.out.length : Int) < maxlen) (hlt : (p.say va maxlen s).out.length < 2 ^ 31) :
    ∃ d', Reaches fmt va maxlen d d' ∧ Stands fmt out d' l (p.say va maxlen s) := by
  cases p with
  | char c => exact char_reaches h hl hp.1 hp.2 hcount hlt
  | conv x => exact conv_reaches h hl hp hf hmax hcount hlt

/-- The two ways in which the loop ends. -/
theorem loop_ends (h : d.stage ≠ .done) (hend : d.ch = 0 ∨ d.sink.currlen ≥ maxlen) (n : Nat) :
    Dopr.loop fmt va maxlen (n + 2) d = .ok { d with stage := .done } := by
  have hlast : Dopr.loop fmt va maxlen (n + 1) { d with stage := .done } =
      .ok { d with stage := .done } := by
    rw [Dopr.loop, if_pos rfl]
  have hturn : d.turn fmt va maxlen = .ok { d with stage := .done } := by
    unfold Dopr.turn
    rw [if_pos hend]
  rw [Dopr.loop, if_neg h, hturn]
  exact hlast

/-- The loop ends with everything said. -/
theorem pieces_reach {ps : List Piece} (h : Stands fmt out d (textOf ps ++ [0]) s)
    (hps : ∀ p ∈ ps, p.WellFormed) (hf : Fine va maxlen ps s) (hmax : maxlen < 2 ^ 31) :
    ∃ k d', (∀ n, Dopr.loop fmt va maxlen (n + k) d = .ok d') ∧
      d'.args = (say va maxlen ps s).args ∧ d'.mem = (say va maxlen ps s).mem ∧
      d'.sink.out = out ++ (say va maxlen ps s).out := by
  have hstage : ∀ {d : Dopr} {l s}, Stands fmt out d l s → d.stage ≠ .done := by
    intro d l s h
    rw [h.stage]
    decide
  induction ps generalizing d s with
  | nil => exact ⟨2, { d with stage := .done }, loop_ends (hstage h) (Or.inl h.here.head), h.args,
      h.mem, congrArg Sink.out h.sink⟩
  | cons p ps ih =>
    by_cases hcount : (s.out.length : Int) < maxlen
    · obtain ⟨hpf, hlt, hrest⟩ := hf hcount
      have hne : textOf ps ++ [0] ≠ [] := by simp
      have htext : textOf (p :: ps) ++ [0] = p.text ++ (textOf ps ++ [0]) := List.append_assoc ..
      rw [htext] at h
      obtain ⟨d', ⟨k', hk'⟩, hstands⟩ :=
        piece_reaches h hne (hps p List.mem_cons_self) hpf hmax hcount hlt
      obtain ⟨k, d'', hloop, hend⟩ := ih hstands (fun q hq => hps q (List.mem_cons_of_mem _ hq)) hrest
      have hsay : say va maxlen (p :: ps) s = say va maxlen ps (p.say va maxlen s) := if_pos hcount
      refine ⟨k + k', d'', fun n => ?_, ?_⟩
      · rw [← Nat.add_assoc, hk', hloop]
      · rw [hsay]
        exact hend
    · -- the output is long enough: the loop stops before the piece
      have hsay : say va maxlen (p :: ps) s = s := if_neg hcount
      have hfull : d.sink.currlen ≥ maxlen := by
        rw [h.sink]
        exact Int.not_lt.mp hcount
      rw [hsay]
      exact ⟨2, { d with stage := .done }, loop_ends (hstage h) (Or.inr hfull), h.args, h.mem,
        congrArg Sink.out h.sink⟩

end Pieces

/-! ## The whole format -/

/-- A literal: the text of a format, and its end. -/
def Literal (fmt : Nat → Byte) (ps : List Piece) : Prop :=
  ∀ i ≤ (textOf ps).length, fmt i = (textOf ps).getD i 0

theorem Literal.at_start {ps : List Piece} (h : Literal fmt ps) :
    At fmt 1 (fmt 0) (textOf ps ++ [0]) := by
  have hget : ∀ i (hi : i < (textOf ps ++ [0]).length), fmt i = (textOf ps ++ [0]).get ⟨i, hi⟩ := by
    intro i hi
    have hle : i ≤ (textOf ps).length := by simpa [Nat.lt_succ_iff] using hi
    rw [h i hle, List.get_eq_getElem, List.getElem_append]
    split
    · rename_i hlt
      simp [List.getElem?_eq_getElem hlt]
    · rename_i hge
      simp [List.getElem?_eq_none (Nat.not_lt.mp hge)]
  cases htext : textOf ps ++ [0] with
  | nil => simp at htext
  | cons c tl =>
    rw [htext] at hget
    refine ⟨hget 0 (Nat.succ_pos _), fun i hi => ?_⟩
    rw [Nat.add_comm]
    exact hget (i + 1) (Nat.succ_lt_succ hi)

theorem Literal.stands {ps : List Piece} (h : Literal fmt ps) (mem : Bytes) (out : List Byte) :
    Stands fmt out (Dopr.start fmt mem out) (textOf ps ++ [0]) ⟨0, mem, []⟩ :=
  ⟨h.at_start, rfl, rfl, rfl, rfl, rfl, rfl, rfl, by simp [Dopr.start]⟩

/-- `dopr` puts out what the format says, and takes its arguments. -/
theorem dopr_says {ps : List Piece} {mem : Bytes} (out : List Byte) (hps : ∀ p ∈ ps, p.WellFormed)
    (htext : Literal fmt ps) (hmax : maxlen < 2 ^ 31) (hf : Fine va maxlen ps ⟨0, mem, []⟩) :
    ∃ k, ∀ fuel ≥ k, ∃ d, dopr fmt va maxlen fuel mem out = .ok d ∧
      d.sink.out = out ++ (say va maxlen ps ⟨0, mem, []⟩).out ∧
      d.args = (say va maxlen ps ⟨0, mem, []⟩).args ∧
      d.mem = (say va maxlen ps ⟨0, mem, []⟩).mem := by
  obtain ⟨k, d, hloop, hargs, hmem, hout⟩ := pieces_reach (htext.stands mem out) hps hf hmax
  refine ⟨k, fun fuel hfuel => ⟨d, ?_, hout, hargs, hmem⟩⟩
  rw [← Nat.sub_add_cancel hfuel]
  exact hloop _

/-- `"%s=%5d"`, cut off after six bytes. -/
def assignment : List Piece :=
  [.conv ⟨[], .absent, .absent, .plain, .s⟩, .char (chr '='),
    .conv ⟨[], .count 5, .absent, .plain, .d⟩]

theorem dopr_says_assignment : ∃ k, ∀ fuel ≥ k, ∃ d,
    dopr (fun i => (textOf assignment).getD i 0) (fun _ => 0#32) 6 fuel (fun _ => 0) [] = .ok d ∧
      d.sink.out = null := by
  have hps : ∀ p ∈ assignment, p.WellFormed := by
    intro p hp
    simp only [assignment, List.mem_cons, List.not_mem_nil, or_false] at hp
    rcases hp with rfl | rfl | rfl
    · exact ⟨fun _ h => (by cases h), fun _ h => (by cases h)⟩
    · exact ⟨by decide, by decide⟩
    · exact ⟨fun _ h => (by cases h; decide), fun _ h => (by cases h)⟩
  have hsaid : (Piece.say (fun _ => 0#32) 6 ⟨0, fun _ => 0, []⟩
      (.conv ⟨[], .absent, .absent, .plain, .s⟩)).out = null := by decide
  have hf : Fine (fun _ => 0#32) 6 assignment ⟨0, fun _ => 0, []⟩ := by
    refine fun _ => ⟨⟨Int.le_refl 0, fun _ => by decide⟩, by rw [hsaid]; decide, fun hlt => ?_⟩
    rw [hsaid] at hlt
    exact absurd hlt (by decide)
  have hout : (say (fun _ => 0#32) 6 assignment ⟨0, fun _ => 0, []⟩).out = null := by decide
  obtain ⟨k, hk⟩ := dopr_says [] hps (fun i _ => rfl) (by decide) hf
  refine ⟨k, fun fuel hfuel => ?_⟩
  obtain ⟨d, hrun, hd, -, -⟩ := hk fuel hfuel
  exact ⟨d, hrun, hd.trans hout⟩

end OsKernel.Format
