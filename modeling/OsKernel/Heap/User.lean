import OsKernel.Heap.Model
import OsKernel.Lib.Words

/-!
# The heap of user programs

`heap.c` of the user library. The array, its blocks and its list are those of the kernel's
heap; `malloc` takes the first block that is large enough and answers null where there is
none, `free` returns from a block that is not taken, and there is `realloc`. `sanity` returns
what it is given in every case and is left out.

The array is in the program's own memory: `realloc` of the pointer that `malloc` gives for a
request of no bytes looks at the word in front of the array, which can be anything.

## What is shared and what is not

`Heap`, the functions on blocks and `remove`, `makeAvail` and `makeTaken` are taken from
`Heap/Model.lean`, as the two files have the same text there. The operations are this file's
own. `free_eq` (`Heap/Realloc.lean`) connects the two `free`s, and the invariant is the same
one, so the proofs about blocks are not repeated.

`realloc` copies bytes, so words have to be read as bytes here; `byte` and `putByte` do that,
with the lowest byte first. `memcpy` counts with a signed number, as in the source, and copies
nothing if it is told a length of 2³¹ or more.

A program has one thread, so there is no lock. In the runs a program gives back what it holds
and writes there. A `realloc` that would write behind the new block is no step; when that
happens is said by `Overruns`, and the results have it in their conditions.
-/

set_option autoImplicit false

namespace OsKernel.UserHeap

open Lib hiding Word
open Prog
open KernelHeap hiding Stop State Op step malloc free heapInit

/-- The words of `array`. -/
def INTS : Int := 0x100000

inductive Stop
  /-- the search has not ended yet -/
  | fuel
  deriving DecidableEq

/-- The search of `malloc`: the first block that is large enough, or 0. -/
def search (h : Heap) (ints : Int) : Nat → Int → Except Stop Int
  | 0, _ => .error .fuel
  | fuel + 1, p =>
    if p = 0 then .ok 0
    else if ints ≤ h.size p then .ok p
    else search h ints fuel (h.next p)

/-- What `malloc` does to the block that it takes. -/
def take (h : Heap) (p ints : Int) : Heap :=
  let sz := h.size p
  let h := h.remove p
  let extra := sz - ints
  if extra ≥ 4 then (h.makeTaken p ints).makeAvail (p + ints) extra
  else h.makeTaken p sz

def malloc (bytes : Word) : Prog Stop Heap Word := do
  let h ← get
  if bytes = 0 then pure h.base
  else
    match search h (ints bytes) (h.len.toNat + 1) h.avail with
    | .error e => throw e
    | .ok p =>
      if p = 0 then pure 0
      else do
        set (take h p (ints bytes))
        pure (h.pointer p)

def free (p : Word) : Prog Stop Heap Unit := do
  let h ← get
  if p = 0 then pure ()
  else if p = h.base then pure ()
  else
    let idx := h.index p
    if !h.isTaken idx then pure ()
    else
      let sz := h.size idx
      let leftIndex := h.left idx
      let rightIndex := h.right idx
      let (h, idx, sz) :=
        if h.isAvail leftIndex then
          (h.remove leftIndex, leftIndex, sz + (h.remove leftIndex).size leftIndex)
        else (h, idx, sz)
      let (h, sz) :=
        if h.isAvail rightIndex then
          (h.remove rightIndex, sz + (h.remove rightIndex).size rightIndex)
        else (h, sz)
      set (h.makeAvail idx sz)

/-! ## Bytes -/

/-- The byte at `array + o`. -/
def byte (h : Heap) (o : Nat) : BitVec 8 :=
  field (BitVec.ofInt 32 (h.cells (o / 4 : Nat))) (8 * (o % 4)) 8

/-- The array once `array + o` has been written. -/
def putByte (h : Heap) (o : Nat) (v : BitVec 8) : Heap :=
  h.put (o / 4 : Nat) (put (BitVec.ofInt 32 (h.cells (o / 4 : Nat))) (8 * (o % 4)) v).toInt

/-- How far an address is from the start of the array. -/
def offset (h : Heap) (a : Word) : Nat := (a - h.base).toNat

/-- The byte at an address. -/
def load (h : Heap) (a : Word) : BitVec 8 := byte h (offset h a)

/-- The loop of `memcpy`: the first byte, and on to the next. -/
def copyBytes : Nat → Word → Word → Heap → Heap
  | 0, _, _, h => h
  | n + 1, dest, src, h =>
    copyBytes n (dest + 1#32) (src + 1#32) (putByte h (offset h dest) (load h src))

/-- `memcpy`, which counts with a signed number. -/
def memcpy (dest src n : Word) : Prog Stop Heap Unit :=
  modify (copyBytes n.toInt.toNat dest src)

/-- The bytes that `realloc` copies; the comparison is one of unsigned numbers. -/
def count (h : Heap) (p newSize : Word) : Word :=
  let sz := BitVec.ofInt 32 (h.size (h.index p) * 4)
  if newSize > sz then sz else newSize

def realloc (p newSize : Word) : Prog Stop Heap Word := do
  if p = 0 then malloc newSize
  else if newSize = 0 then do
    free p
    pure 0
  else do
    let h ← get
    let idx := h.index p
    if !h.isTaken idx then pure 0
    else do
      -- `sz` is read here, before `malloc`
      let m := count h p newSize
      let newPtr ← malloc newSize
      if newPtr ≠ 0 then memcpy newPtr p m else pure ()
      free p
      pure newPtr

/-- `heap_init`, over whatever the array and the word in front of it hold. -/
def heapInit (base : Word) (cells : Int → Int) : Heap :=
  let h : Heap := { base := base, cells := cells, len := INTS, avail := 0 }
  let h := h.makeTaken 0 2
  let h := h.makeAvail 2 (INTS - 4)
  h.makeTaken (INTS - 2) 2

/-! ## Runs -/

structure State where
  heap : Heap
  /-- the blocks handed out and not given back -/
  live : Int → Bool

inductive Op
  | malloc (bytes : Word)
  | free (p : Word)
  | realloc (p newSize : Word)
  /-- the holder of block `i` writes the byte `o` of the array, which is in its payload -/
  | write (i : Int) (o : Nat) (v : BitVec 8)
  /-- the program writes the word in front of the array -/
  | front (v : Word)

namespace State

/-- The pointer is one that `malloc` or `realloc` gave and that was not given back: that of a block,
or the one of a request for no bytes. -/
def Allocated (s : State) (p : Word) : Prop :=
  p = s.heap.base ∨ s.live (s.heap.index p) = true ∧ p = s.heap.pointer (s.heap.index p)

instance (s : State) (p : Word) : Decidable (s.Allocated p) :=
  inferInstanceAs (Decidable (_ ∨ _ ∧ _))

/-- `q` is handed out. -/
def handOut (s : State) (h : Heap) (q : Word) : State where
  heap := h
  live := if q = 0 ∨ q = h.base then s.live else Function.update s.live (h.index q) true

/-- `p` is given back. -/
def giveBack (s : State) (h : Heap) (p : Word) : State where
  heap := h
  live := if p = 0 ∨ p = h.base then s.live else Function.update s.live (h.index p) false

end State

/-- The words of the block that `malloc(bytes)` takes, if it finds one. -/
def granted (h : Heap) (bytes : Word) : Option Int :=
  match search h (ints bytes) (h.len.toNat + 1) h.avail with
  | .error _ => none
  | .ok p =>
    if p = 0 then none
    else some (if h.size p - ints bytes ≥ 4 then ints bytes else h.size p)

/-- `realloc` would copy more than the payload of the new block has room for. -/
def Overruns (h : Heap) (p newSize : Word) : Prop :=
  p ≠ 0 ∧ newSize ≠ 0 ∧ h.isTaken (h.index p) = true ∧
    (granted h newSize).any (fun k => 4 * (k - 2) < (count h p newSize).toInt) = true

instance (h : Heap) (p newSize : Word) : Decidable (Overruns h p newSize) :=
  inferInstanceAs (Decidable (_ ∧ _))

/-- A program gives back only what it holds, and writes only there. A `realloc` that writes behind
the new block is no step: what the heap is then depends on what was behind it. -/
def step (s : State) : Op → Option State
  | .malloc bytes =>
    match malloc bytes s.heap with
    | .ok q h => some (s.handOut h q)
    | .error _ _ => none
  | .free p =>
    if p = 0 ∨ s.Allocated p then
      match free p s.heap with
      | .ok _ h => some (s.giveBack h p)
      | .error _ _ => none
    else none
  | .realloc p newSize =>
    if p = 0 ∨ s.Allocated p ∧ ¬Overruns s.heap p newSize then
      match realloc p newSize s.heap with
      | .ok q h => some ((s.giveBack h p).handOut h q)
      | .error _ _ => none
    else none
  | .write i o v =>
    if s.live i = true ∧ i < (o / 4 : Nat) ∧ ((o / 4 : Nat) : Int) < s.heap.footerFromHeader i then
      some { s with heap := putByte s.heap o v }
    else none
  | .front v => some { s with heap := s.heap.put (-1) v.toInt }

/-- The state after `heap_init`. -/
def State.init (base : Word) (cells : Int → Int) : State where
  heap := heapInit base cells
  live _ := false

end OsKernel.UserHeap
