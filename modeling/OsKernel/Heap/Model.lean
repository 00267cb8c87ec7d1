import Mathlib.Algebra.Group.Int.Defs
import Mathlib.Logic.Function.Basic
import OsKernel.Lib.Prog
import OsKernel.Lib.Runs

/-!
# The kernel heap

`heap.cc`. The heap is an array of words. A block has its size, in words, in its first and its
last word, negative while it is taken; the blocks that are not taken are in a list that runs
through their second and third words.

The words of the array are integers: the numbers that the heap itself computes stay between
`-2^30` and `2^30`. `sanity` checks nothing, as `safe` is 0, and is left out. The lock is held
around everything that `malloc` and `free` do, so they are taken in one step.

The array is a function on all integers, with a length beside it. The code has no bounds
checks, and an index that goes astray reads a word that belongs to somebody else; here it
reads a cell outside of the length, of which nothing is known. So a proof about the code has
to say where it reads.

Pointers are 32-bit words and indices are integers, and the two conversions are the source's:
`pointer` for `&array[i + 1]`, and `index` with its unsigned division. `ints`, too, is
computed in 32 bits, where adding 3 to the size may wrap.

## What a run is

A `State` has the heap and, besides, what its clients have: the blocks that were handed out
and not given back. `free` is a step for a pointer that `malloc` has returned, for null and
for the pointer that a request of no bytes gets; `write` is one for a word of a payload that
its holder has. `freed` is kept for one question only, whether a second `free` of the same
block is noticed (`Heap/Runs.lean`).

The lock is itself a block, allocated by `heapInit`. Its bytes are one more payload, and what
is in them is not modelled. `free` of that block is a step here, since the heap cannot tell it
from others, but not one of the kernel's: nobody gives the lock back, and if one did the code
would go on using it. The results are for these runs, too, and say nothing about the code
there.
-/

set_option autoImplicit false

namespace OsKernel.KernelHeap

open Lib Prog

abbrev Word := BitVec 32

/-- Why an operation did not return. -/
inductive Stop
  /-- "block is not available in malloc" -/
  | notAvailable
  /-- "freeing free block" -/
  | freeingFree
  /-- "out of memory" -/
  | outOfMemory
  /-- the search has not ended yet -/
  | fuel
  deriving DecidableEq

structure Heap where
  /-- where `array` is -/
  base : Word
  cells : Int → Int
  len : Int
  avail : Int

namespace Heap

def size (h : Heap) (i : Int) : Int := if h.cells i < 0 then -h.cells i else h.cells i

def headerFromFooter (h : Heap) (i : Int) : Int := i - h.size i + 1

def footerFromHeader (h : Heap) (i : Int) : Int := i + h.size i - 1

def left (h : Heap) (i : Int) : Int := h.headerFromFooter (i - 1)

def right (h : Heap) (i : Int) : Int := i + h.size i

def next (h : Heap) (i : Int) : Int := h.cells (i + 1)

def prev (h : Heap) (i : Int) : Int := h.cells (i + 2)

/-- `array[i] = v`. -/
def put (h : Heap) (i v : Int) : Heap := { h with cells := Function.update h.cells i v }

def setNext (h : Heap) (i x : Int) : Heap := h.put (i + 1) x

def setPrev (h : Heap) (i x : Int) : Heap := h.put (i + 2) x

def remove (h : Heap) (i : Int) : Heap :=
  let prevIndex := h.prev i
  let nextIndex := h.next i
  let h' :=
    if prevIndex = 0 then { h with avail := nextIndex }  -- at head
    else h.setNext prevIndex nextIndex  -- in the middle
  if nextIndex ≠ 0 then h'.setPrev nextIndex prevIndex else h'

def makeAvail (h : Heap) (i ints : Int) : Heap :=
  let h := h.put i ints
  let h := h.put (h.footerFromHeader i) ints
  let h := h.setNext i h.avail
  let h := h.setPrev i 0
  let h := if h.avail ≠ 0 then h.setPrev h.avail i else h
  { h with avail := i }

def makeTaken (h : Heap) (i ints : Int) : Heap :=
  let h := h.put i (-ints)
  h.put (h.footerFromHeader i) (-ints)

def isAvail (h : Heap) (i : Int) : Bool := 0 < h.cells i

def isTaken (h : Heap) (i : Int) : Bool := h.cells i < 0

/-- The search of `malloc`: the best of the first 20 blocks that are large enough. -/
def search (h : Heap) (ints : Int) : Nat → Int → Nat → Int → Int → Except Stop (Int × Int)
  | 0, _, _, _, _ => .error .fuel
  | fuel + 1, p, countDown, mx, it =>
    if p = 0 then .ok (mx, it)
    else if h.isAvail p then
      let sz := h.size p
      if ints ≤ sz then
        let found := if sz < mx then (sz, p) else (mx, it)
        if countDown - 1 = 0 then .ok found
        else h.search ints fuel (h.next p) (countDown - 1) found.1 found.2
      else h.search ints fuel (h.next p) countDown mx it
    else .error .notAvailable

/-- `&array[i + 1]`. -/
def pointer (h : Heap) (i : Int) : Word := h.base + 4#32 * BitVec.ofInt 32 (i + 1)

/-- The header of the block that a pointer points into. -/
def index (h : Heap) (p : Word) : Int := (((p - h.base) / 4#32).toNat : Int) - 1

end Heap

/-- The words that `malloc` takes for a request. -/
def ints (bytes : Word) : Int :=
  let n : Int := ((bytes + 3#32) / 4#32 + 2#32).toNat
  if n < 4 then 4 else n

def malloc (bytes : Word) : Prog Stop Heap Word := do
  let h ← get
  if bytes = 0 then pure h.base
  else
    match h.search (ints bytes) (h.len.toNat + 1) h.avail 20 0x7fffffff 0 with
    | .error e => throw e
    | .ok (mx, it) =>
      if it ≠ 0 then do
        let h := h.remove it
        let extra := mx - ints bytes
        if extra ≥ 4 then
          set ((h.makeTaken it (ints bytes)).makeAvail (it + ints bytes) extra)
        else set (h.makeTaken it mx)
        pure (h.pointer it)
      else pure 0

def free (p : Word) : Prog Stop Heap Unit := do
  let h ← get
  if p = 0 then pure ()
  else if p = h.base then pure ()
  else
    let idx := h.index p
    if !h.isTaken idx then throw .freeingFree
    else
      let sz := h.size idx
      let leftIndex := h.left idx
      let rightIndex := h.right idx
      let (h, idx, sz) :=
        if h.isAvail leftIndex then
          (h.remove leftIndex, leftIndex, sz + (h.remove leftIndex).size leftIndex)
        else (h, idx, sz)
      let (h, sz) :=
        if h.isAvail rightIndex then
          (h.remove rightIndex, sz + (h.remove rightIndex).size rightIndex)
        else (h, sz)
      set (h.makeAvail idx sz)

/-- `operator new`. -/
def new (bytes : Word) : Prog Stop Heap Word := do
  let p ← malloc bytes
  if p = 0 then throw .outOfMemory
  pure p

/-- `heapInit`, over whatever memory holds; `lockBytes` is `sizeof(BlockingLock)`. -/
def heapInit (base bytes lockBytes : Word) (cells : Int → Int) : Except Stop (Word × Heap) :=
  let len : Int := (bytes / 4#32).toNat
  let h : Heap := { base := base, cells := cells, len := len, avail := 0 }
  let h := h.makeTaken 0 2
  let h := h.makeAvail 2 (len - 4)
  let h := h.makeTaken (len - 2) 2
  match new lockBytes h with
  | .ok p h => .ok (p, h)
  | .error e _ => .error e

/-! ## Runs -/

/-- A block that was given back. -/
structure Freed where
  size : Int
  /-- its left neighbour was in use when it was given back, and no block handed out since has its
  header word -/
  kept : Bool

structure State where
  heap : Heap
  /-- the blocks handed out and not given back -/
  live : Int → Bool
  /-- the blocks given back, and with no payload word in a block handed out since -/
  freed : Int → Option Freed

inductive Op
  | malloc (bytes : Word)
  | free (p : Word)
  /-- the holder of block `i` writes the word `x` of its payload -/
  | write (i x v : Int)

/-- A block given back, after the block of `k` words at `i` was handed out. -/
def Freed.after (f : Freed) (idx i k : Int) : Option Freed :=
  if i + 1 < idx + f.size - 1 ∧ idx + 1 < i + k - 1 then none
  else some { f with kept := f.kept && !(decide (i ≤ idx ∧ idx < i + k)) }

namespace State

/-- `malloc` has returned `p`. -/
def handOut (s : State) (h : Heap) (p : Word) : State :=
  if p = 0 ∨ p = h.base then { s with heap := h }
  else
    let i := h.index p
    { heap := h
      live := Function.update s.live i true
      freed := fun idx => (s.freed idx).bind fun f => f.after idx i (h.size i) }

/-- `free` has taken the block `i` back. -/
def giveBack (s : State) (h : Heap) (i : Int) : State where
  heap := h
  live := Function.update s.live i false
  freed := Function.update s.freed i
    (some ⟨s.heap.size i, s.heap.isTaken (s.heap.left i)⟩)

end State

def step (s : State) : Op → Option State
  | .malloc bytes =>
    match malloc bytes s.heap with
    | .ok p h => some (s.handOut h p)
    | .error _ _ => none
  | .free p =>
    if p = 0 ∨ p = s.heap.base then
      match free p s.heap with
      | .ok _ h => some { s with heap := h }
      | .error _ _ => none
    else if s.live (s.heap.index p) = true ∧ p = s.heap.pointer (s.heap.index p) then
      match free p s.heap with
      | .ok _ h => some (s.giveBack h (s.heap.index p))
      | .error _ _ => none
    else none
  | .write i x v =>
    if s.live i = true ∧ i < x ∧ x < s.heap.footerFromHeader i then
      some { s with heap := s.heap.put x v }
    else none

/-- The state after `heapInit`, which holds its lock. The lock's block is handed out like any other;
a run in which it is freed is none of the code's, as nobody gives the lock back. -/
def State.init (p : Word) (h : Heap) : State where
  heap := h
  live := Function.update (fun _ => false) (h.index p) true
  freed _ := none

end OsKernel.KernelHeap
