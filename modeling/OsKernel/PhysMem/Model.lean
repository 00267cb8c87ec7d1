import OsKernel.Machine

/-!
# `physmem.h` and `physmem.cc`: frames and their reference counts

The frame allocator is a free list threaded through the free frames, with a bump pointer
behind it. Reference counts are kept in two levels: `refs[i]` packs the address of a table of
2048 16-bit counters with the number of non-zero counters in it, and the tables themselves are
frames of the same allocator.

Each function here is one of the source, in the source's order of loads and stores. The locks
are not modelled in this file: an operation runs from start to end. `incref` is written as the
section under `reflock` and the counting after it, and `decref` as its two halves, `subRef` up
to the test of the new count and `release` after the callback, because the callback runs
between them and may call `decref` again.

## Where this goes

The allocator and the counts are treated at four levels.

* `PhysMem/Frames.lean` and `PhysMem/Foreign.lean` are about the list alone: a frame is handed
  out and given back, and nothing is counted.
* `PhysMem/Ledger.lean`, `Inv`, `Spec` and `Account` are about whole calls one after the
  other, and lead to the rules that `vmm.cc` is proved with.
* `PhysMem/Counter.lean` has runs of such calls, with the callbacks of `decref` nested in
  them.
* `PhysMem/Calls.lean` and the files after it have the calls cut at every access that another
  core can get in before, with any number of cores.

A counter of 65535 would wrap at the next `incref`. The code does not test for it. Here it is
a `Stop`, so that a result which says that a call returns also says that no counter was full;
in `PhysMem/Calls.lean` it wraps as in the source.
-/

set_option autoImplicit false

namespace OsKernel.PhysMem

open Lib K

def FRAME_SIZE : Word := 0x1000#32

def offset (pa : Word) : Word := pa &&& 0xfff#32

theorem offset_eq_zero {pa : Word} (h : Aligned pa) : offset pa = 0#32 := and_low_eq_zero_iff.mpr h

/-- The slot of frame `p` among all frames: `(p - start) >> 12`. -/
def index (start p : Word) : Word := (p - start) >>> 12

/-- Which word of `refs` accounts for `p`. -/
def ridx (start p : Word) : Nat := (index start p >>> 11).toNat

/-- Which counter of that table is `p`'s. -/
def rofs (start p : Word) : Nat := (index start p &&& 0x7ff#32).toNat

def unsafeAllocFrame : K Word := do
  let s ← get
  let p ← if s.firstFree ≠ 0#32 then do
      set { s with firstFree := s.mem s.firstFree 0 }
      pure s.firstFree
    else do
      if s.avail = s.limit then throw .noFrames
      set { s with avail := s.avail + FRAME_SIZE }
      pure s.avail
  assert (offset p = 0#32)
  bzero p
  return p

def deallocFrame (p : Word) : K Unit := do
  assert (offset p = 0#32)
  -- a frame outside [start, limit) is reported on the console and linked all the same
  modify fun s => { s with
    mem := Function.update s.mem p (Function.update (s.mem p) 0 s.firstFree)
    firstFree := p }

def setRefs (i : Nat) (v : Word) : K Unit :=
  modify fun s => { s with refs := Function.update s.refs i v }

/-- `__atomic_fetch_add(&rtb[i], 1)`. -/
def fetchAdd16 (rtb : Word) (i : Nat) : K (BitVec 16) := do
  let old := rd16 ((← get).mem rtb) i
  if old = 0xffff#16 then throw .refOverflow
  modify fun s => { s with mem := Function.update s.mem rtb (wr16 (s.mem rtb) i (old + 1#16)) }
  return old

/-- `__atomic_sub_fetch(&rtb[i], 1)`. -/
def subFetch16 (rtb : Word) (i : Nat) : K (BitVec 16) := do
  let val := rd16 ((← get).mem rtb) i - 1#16
  modify fun s => { s with mem := Function.update s.mem rtb (wr16 (s.mem rtb) i val) }
  return val

/-- The section of `incref` under `reflock`: a chunk that counts no frame gets a new table. -/
def ensureTable (p : Word) : K Unit := do
  let s ← get
  let c := ridx s.start p
  if s.refs c &&& 0xfff#32 = 0#32 then
    let t ← unsafeAllocFrame
    setRefs c t

/-- `incref` after the section: the counter, and the population when the counter was zero. -/
def countRef (p : Word) : K Unit := do
  let s ← get
  let c := ridx s.start p
  let rtb := s.refs c &&& 0xfffff000#32
  let old ← fetchAdd16 rtb (rofs s.start p)
  if old = 0#16 then
    setRefs c ((← get).refs c + 1#32)

def incref (p : Word) : K Unit := do
  assert (offset p = 0#32)
  ensureTable p
  countRef p

/-- `decref` up to the test of the new count: was that the last reference? -/
def subRef (p : Word) : K Bool := do
  assert (offset p = 0#32)
  let s ← get
  let rent := s.refs (ridx s.start p)
  assert (rent &&& 0xfff#32 ≠ 0#32)
  let rtb := rent &&& 0xfffff000#32
  let val ← subFetch16 rtb (rofs s.start p)
  return val = 0#16

/-- `decref` after the callback: the frame goes back, and its table too when it was the last. -/
def release (p : Word) : K Unit := do
  deallocFrame p
  let s ← get
  let c := ridx s.start p
  let rent := s.refs c - 1#32
  setRefs c rent
  if rent &&& 0xfff#32 = 0#32 then
    deallocFrame (rent &&& 0xfffff000#32)

def decref (p : Word) (f : Word → K Unit) : K Unit := do
  if ← subRef p then
    f p
    release p

def allocFrame : K Word := do
  let p ← unsafeAllocFrame
  incref p
  return p

/-- The reference count of `p`, as the two levels hold it. -/
def refCount (s : Machine) (p : Word) : Nat :=
  let rent := s.refs (ridx s.start p)
  if rent &&& 0xfff#32 = 0#32 then 0
  else (rd16 (s.mem (rent &&& 0xfffff000#32)) (rofs s.start p)).toNat

/-- `PhysMem::init`, without the trap registration. `refs` is a zeroed array of the kernel heap. -/
def init (start size : Word) : K Unit := do
  assert (offset start = 0#32)
  assert (offset size = 0#32)
  modify fun s => { s with
    start := start, avail := start, limit := start + size, firstFree := 0#32,
    refs := fun _ => 0#32 }

end OsKernel.PhysMem
