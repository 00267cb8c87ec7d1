import Mathlib.Algebra.Order.Group.Int
import OsKernel.Lib.Memory

/-!
# Formatted output

`dopr` and the functions under it, which the kernel's `snprintf.cc` and the user library's
`printf.c` share line by line: they differ in where a byte goes, `buffer.put(c)` or
`putchar(c)`. The format is a string literal in every call, so its bytes are a function of
their own; the arguments are the words of the `va_list`. An `int` and a `long` are both of 32
bits.

`%f` calculates with floating-point numbers. There the model stops.

## How the loop is cut

`dopr` is a loop around a `switch` over seven stages, and most cases set a stage and fall back
to the loop. `Dopr` is all that its variables hold, `work` is the `switch`, and `turn` one
iteration, with the test of `maxlen` in front. Cutting it this way keeps what is peculiar to
it: a byte that is neither flag nor digit is looked at again by a later stage, and the output
is measured between turns only, so one directive can go far over the limit.

Arithmetic is that of `int` where the source has `int` (`int n` brings a result into range),
and of unsigned words where it has those. The counters `padlen` and `zpadlen` are `int`s that
loops count down; `pad` is such a loop.

## What it does not do

* `fmtfp`, which `%f` calls. A format is followed up to a `%f` that is reached and no further.
  The other floating-point conversions only take their argument in the source, and do so here.
* The state of the sink behind `put`: bytes are appended to a list. `dopr_outch` is given
  `maxlen` and does not look at it, so nothing here depends on how much room there is.
* The size `ll`. The source has none; a second `l` is taken for a conversion, of an unknown
  kind.
-/

set_option autoImplicit false

namespace OsKernel.Format

open Lib

abbrev Word := BitVec 32

/-- Why `dopr` did not return. -/
inductive Stop
  /-- `%f` -/
  | floating
  /-- the loop has not ended yet -/
  | fuel
  deriving DecidableEq

/-- `DP_S_*`. -/
inductive Stage
  | default | flags | min | dot | max | mod | conv | done
  deriving DecidableEq

/-- The bits `DP_F_*`. -/
structure Flags where
  minus : Bool
  plus : Bool
  space : Bool
  num : Bool
  zero : Bool
  up : Bool
  unsigned : Bool
  deriving DecidableEq

def Flags.none : Flags := ⟨false, false, false, false, false, false, false⟩

/-- `cflags`: 0 and `DP_C_*`. -/
inductive Size
  | plain | short | long | ldouble
  deriving DecidableEq

/-- A byte of the source's text. -/
abbrev chr (c : Char) : Byte := BitVec.ofNat 8 c.toNat

/-- What an `int` holds after an operation with this result. -/
def int (n : Int) : Int := n.bmod (2 ^ 32)

/-- `K::isdigit`. -/
def isdigit (c : Byte) : Bool := 48 ≤ c.toNat && c.toNat ≤ 57

/-- `char_to_int`. -/
def charToInt (c : Byte) : Int := c.toNat - 48

/-- What has been put out, and `currlen`. -/
structure Sink where
  out : List Byte
  currlen : Int

/-- `dopr_outch`. -/
def Sink.outch (s : Sink) (c : Byte) : Sink := ⟨s.out ++ [c], int (s.currlen + 1)⟩

/-- A loop that puts out one byte after the other. -/
def Sink.outAll (s : Sink) : List Byte → Sink
  | [] => s
  | c :: cs => (s.outch c).outAll cs

/-- As often as a counter of this value goes down to 0. -/
def Sink.pad (s : Sink) (n : Int) (c : Byte) : Sink := s.outAll (List.replicate n.toNat c)

/-! ## `fmtint` -/

/-- `"0123456789ABCDEF"[d]` or `"0123456789abcdef"[d]`. -/
def digit (caps : Bool) (d : Nat) : Byte :=
  BitVec.ofNat 8 (d + if d < 10 then 48 else if caps then 55 else 87)

/-- What the loop of `fmtint` stores in `convert`, with so many places left. -/
def convert (caps : Bool) (base : Nat) : Nat → Nat → List Byte
  | 0, _ => []
  | room + 1, uvalue =>
    digit caps (uvalue % base) ::
      if uvalue / base = 0 then [] else convert caps base room (uvalue / base)

/-- `signvalue`, and `uvalue`. -/
def signOf (flags : Flags) (value : Word) : Option Byte × Nat :=
  if flags.unsigned then (none, value.toNat)
  else if value.slt 0 then (some (chr '-'), (-value).toNat)
  else if flags.plus then (some (chr '+'), value.toNat)
  else if flags.space then (some (chr ' '), value.toNat)
  else (none, value.toNat)

/-- `fmtint`. -/
def fmtint (s : Sink) (value : Word) (base : Nat) (min max : Int) (flags : Flags) : Sink :=
  let max := if max < 0 then 0 else max
  let (sign, uvalue) := signOf flags value
  -- the last place is for the 0
  let places := (convert flags.up base 20 uvalue).take 19
  let place : Int := places.length
  let zpadlen := int (max - place)
  let wide := if max ≥ place then max else place
  let spadlen := int (min - wide - if sign.isSome then 1 else 0)
  let zpadlen := if zpadlen < 0 then 0 else zpadlen
  let spadlen := if spadlen < 0 then 0 else spadlen
  let (zpadlen, spadlen) :=
    if flags.zero then (if zpadlen ≥ spadlen then zpadlen else spadlen, 0) else (zpadlen, spadlen)
  let spadlen := if flags.minus then -spadlen else spadlen
  let s := s.pad spadlen (chr ' ')
  let s := s.outAll sign.toList
  let s := s.pad zpadlen (chr '0')
  let s := s.outAll places.reverse
  s.pad (-spadlen) (chr ' ')

/-! ## `fmtstr` -/

/-- The bytes of the string at `a`. -/
def stringAt (mem : Bytes) : Nat → Word → List Byte
  | 0, _ => []
  | n + 1, a => if mem a = 0 then [] else mem a :: stringAt mem n (a + 1)

/-- `"<NULL>"`. -/
def null : List Byte := [chr '<', chr 'N', chr 'U', chr 'L', chr 'L', chr '>']

/-- A loop that puts out one byte after the other while `cnt < max`. -/
def Sink.outWhile (max : Int) : List Byte → Int → Sink → Int × Sink
  | [], cnt, s => (cnt, s)
  | c :: cs, cnt, s =>
    if cnt < max then Sink.outWhile max cs (int (cnt + 1)) (s.outch c) else (cnt, s)

/-- `fmtstr`. -/
def fmtstr (s : Sink) (mem : Bytes) (value : Word) (flags : Flags) (min max : Int) : Sink :=
  let value := if value = 0 then null else stringAt mem (2 ^ 32) value
  let padlen := int (min - value.length)
  let padlen := if padlen < 0 then 0 else padlen
  let padlen := if flags.minus then -padlen else padlen
  let (cnt, s) := s.outWhile max (List.replicate padlen.toNat (chr ' ')) 0
  let (cnt, s) := s.outWhile max value cnt
  (s.outWhile max (List.replicate (-padlen).toNat (chr ' ')) cnt).2

/-! ## `dopr` -/

/-- What the loop of `dopr` works on. -/
structure Dopr where
  /-- the bytes of the format read so far -/
  format : Nat
  /-- the words of the `va_list` taken so far -/
  args : Nat
  ch : Byte
  stage : Stage
  flags : Flags
  cflags : Size
  min : Int
  max : Int
  mem : Bytes
  sink : Sink

section

variable (fmt : Nat → Byte) (va : Nat → Word) (maxlen : Int)

/-- `ch = *format++`. -/
def Dopr.next (d : Dopr) : Dopr := { d with ch := fmt d.format, format := d.format + 1 }

/-- The stages `DP_S_FLAGS` looks at one character of. -/
def setFlag (f : Flags) (ch : Byte) : Option Flags :=
  if ch = chr '-' then some { f with minus := true }
  else if ch = chr '+' then some { f with plus := true }
  else if ch = chr ' ' then some { f with space := true }
  else if ch = chr '#' then some { f with num := true }
  else if ch = chr '0' then some { f with zero := true }
  else none

def setSize (ch : Byte) : Option Size :=
  if ch = chr 'h' then some .short
  else if ch = chr 'l' then some .long
  else if ch = chr 'L' then some .ldouble
  else none

/-- A conversion through `fmtint`; a `short`, an `int` and a `long` are one word each. -/
def Dopr.number (d : Dopr) (base : Nat) (flags : Flags) : Dopr :=
  { d with
    args := d.args + 1
    flags := flags
    sink := fmtint d.sink (va d.args) base d.min d.max flags }

/-- The words that a `double` or a `long double` takes. -/
def Dopr.skipFloat (d : Dopr) : Dopr :=
  { d with args := d.args + if d.cflags = .ldouble then 3 else 2 }

/-- `*num = currlen`. -/
def Dopr.storeCount (d : Dopr) : Dopr :=
  { d with
    args := d.args + 1
    mem := overlay d.mem (va d.args) (if d.cflags = .short then 2 else 4)
      (byteOf (BitVec.ofInt 32 d.sink.currlen)) }

/-- The cases of `DP_S_CONV`. -/
def Dopr.conv (d : Dopr) : Except Stop Dopr :=
  if d.ch = chr 'd' ∨ d.ch = chr 'i' then .ok (d.number va 10 d.flags)
  else if d.ch = chr 'o' then .ok (d.number va 8 { d.flags with unsigned := true })
  else if d.ch = chr 'u' then .ok (d.number va 10 { d.flags with unsigned := true })
  else if d.ch = chr 'X' then .ok (d.number va 16 { d.flags with up := true, unsigned := true })
  else if d.ch = chr 'x' then .ok (d.number va 16 { d.flags with unsigned := true })
  else if d.ch = chr 'f' then .error .floating
  else if d.ch = chr 'E' ∨ d.ch = chr 'e' ∨ d.ch = chr 'G' ∨ d.ch = chr 'g' then .ok d.skipFloat
  else if d.ch = chr 'c' then
    .ok { d with args := d.args + 1, sink := d.sink.outch ((va d.args).setWidth 8) }
  else if d.ch = chr 's' then
    let max := if d.max < 0 then maxlen else d.max
    .ok { d with args := d.args + 1, max := max
                 sink := fmtstr d.sink d.mem (va d.args) d.flags d.min max }
  else if d.ch = chr 'p' then .ok (d.number va 16 d.flags)
  else if d.ch = chr 'n' then .ok (d.storeCount va)
  else if d.ch = chr '%' then .ok { d with sink := d.sink.outch d.ch }
  -- "not supported yet, treat as next char"
  else if d.ch = chr 'w' then .ok (d.next fmt)
  else .ok d

/-- The case of the loop's `switch` for each stage. -/
def Dopr.work (d : Dopr) : Except Stop Dopr :=
  match d.stage with
  | .default =>
    .ok ((if d.ch = chr '%' then { d with stage := .flags }
      else { d with sink := d.sink.outch d.ch }).next fmt)
  | .flags =>
    match setFlag d.flags d.ch with
    | some flags => .ok ({ d with flags := flags }.next fmt)
    | none => .ok { d with stage := .min }
  | .min =>
    if isdigit d.ch then
      .ok ({ d with min := int (int (10 * d.min) + charToInt d.ch) }.next fmt)
    else if d.ch = chr '*' then
      .ok ({ d with min := (va d.args).toInt, args := d.args + 1, stage := .dot }.next fmt)
    else .ok { d with stage := .dot }
  | .dot =>
    if d.ch = chr '.' then .ok ({ d with stage := .max }.next fmt)
    else .ok { d with stage := .mod }
  | .max =>
    if isdigit d.ch then
      let max := if d.max < 0 then 0 else d.max
      .ok ({ d with max := int (int (10 * max) + charToInt d.ch) }.next fmt)
    else if d.ch = chr '*' then
      .ok ({ d with max := (va d.args).toInt, args := d.args + 1, stage := .mod }.next fmt)
    else .ok { d with stage := .mod }
  | .mod =>
    match setSize d.ch with
    | some size => .ok ({ d with cflags := size, stage := .conv }.next fmt)
    | none => .ok { d with stage := .conv }
  | .conv => do
    let d ← d.conv fmt va maxlen
    .ok { d.next fmt with stage := .default, flags := .none, cflags := .plain, min := 0, max := -1 }
  | .done => .ok d

/-- One turn of the loop. -/
def Dopr.turn (d : Dopr) : Except Stop Dopr :=
  if d.ch = 0 ∨ d.sink.currlen ≥ maxlen then .ok { d with stage := .done }
  else d.work fmt va maxlen

/-- The loop of `dopr`. -/
def Dopr.loop : Nat → Dopr → Except Stop Dopr
  | 0, _ => .error .fuel
  | fuel + 1, d =>
    if d.stage = .done then .ok d
    else do Dopr.loop fuel (← d.turn fmt va maxlen)

/-- `dopr` before its loop. -/
def Dopr.start (mem : Bytes) (out : List Byte) : Dopr where
  format := 1
  args := 0
  ch := fmt 0
  stage := .default
  flags := .none
  cflags := .plain
  min := 0
  max := -1
  mem := mem
  sink := ⟨out, 0⟩

/-- `dopr`. -/
def dopr (fuel : Nat) (mem : Bytes) (out : List Byte) : Except Stop Dopr :=
  Dopr.loop fmt va maxlen fuel (Dopr.start fmt mem out)

end

end OsKernel.Format
