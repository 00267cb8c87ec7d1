import OsKernel.PhysMem.Model
import OsKernel.Vmm.Entry

/-!
# `vmm.cc`: page directories, page tables and the page-fault handler

Each function is the source's, loop for loop and branch for branch, over the machine of
`Machine.lean`. A page table is the address of a frame; entry `i` is its word `i`. Nothing is
said here of what the tables mean: an entry is a word, and a directory is a frame that the
code happens to treat as one. The abstract side is `Vmm/Space.lean`.

* `map` and `map_copy` begin with the same lines, which are `ownTable` here. So what is proved
  about them is proved once, up to the point where they part.
* `SYS::exit(-1)` does not return: it is a `Stop` that keeps the state, so that what the
  handler has allocated by then stays allocated. A failed `ASSERT` and a panic are other
  `Stop`s. Which of them can occur is a result, not an assumption.
* `clear_pt` reads `discard` before anything has set it, if the table has no entry of the
  kernel. What the stack slot holds is an argument, and the results are about every value.
* `decref` takes the destructor as a function, as in the source, and calls it.

## What it does not do

Locks: a function runs from start to end and nobody else is in the middle of another one.
`PhysMem::lock` makes this true of the allocator's own calls. For the page tables there is no
lock, and none is needed where a process is run by one thread at a time; what becomes of the
counts when decrefs and increfs overlap is in `PhysMem/Concurrent.lean`.

Of `kConfig` there are the three fields that this file reads; the parsing of the ACPI tables
that fill them in is in `Acpi`. Of `Process` there is the page directory. The processor's
part, the walk through the tables and the translation buffer, comes later (`Vmm/System.lean`,
`Vmm/Access.lean`, `Vmm/Cores.lean`), except that CR3 and the buffer are fields of the
machine, since the code loads the one and flushes the other.
-/

set_option autoImplicit false

namespace OsKernel.Vmm

open Lib Lib.Prog K PhysMem

def PAGES_PER_TABLE : Nat := 1024

def pdi (va : Word) : Nat := (va >>> 22).toNat
def pti (va : Word) : Nat := (va >>> 12 &&& 0x3ff#32).toNat

theorem pdi_lt (va : Word) : pdi va < 1024 := by
  have h := va.isLt
  unfold pdi
  rw [BitVec.toNat_ushiftRight, Nat.shiftRight_eq_div_pow]
  omega

theorem pti_lt (va : Word) : pti va < 1024 := by
  have hm : (0x3ff#32).toNat = 2 ^ 10 - 1 := by decide
  unfold pti
  rw [BitVec.toNat_and, hm, Nat.and_two_pow_sub_one_eq_mod]
  omega

def destroyPg (_ : Word) : K Unit := pure ()

def destroyPt (p : Word) : K Unit :=
  forI PAGES_PER_TABLE fun i => do
    let pte ← load p i
    if pte &&& (Flag.NG ||| Flag.P) = Flag.NG ||| Flag.P then
      decref (pte &&& Flag.MASK) destroyPg

def destroyPd (p : Word) : K Unit := do
  assert (p ≠ (← getCR3))
  forI PAGES_PER_TABLE fun i => do
    let pde ← load p i
    if pde &&& (Flag.NG ||| Flag.P) = Flag.NG ||| Flag.P then
      decref (pde &&& Flag.MASK) destroyPt
  decref p destroyPg

/-- `discard` is uninitialised in the source until the first global entry: the argument is what its
stack slot holds. -/
def clearPt (discard : Bool) (pt : Word) : K Unit := do
  let discard ← foldI PAGES_PER_TABLE discard fun i discard => do
    let pte ← load pt i
    if pte &&& Flag.P = 0#32 then
      return discard
    else if pte &&& Flag.NG = 0#32 then
      return false
    else do
      decref (pte &&& Flag.MASK) destroyPg
      store pt i 0#32
      return discard
  assert (discard = false)

def clearPd (discard : Nat → Bool) (pd : Word) : K Unit := do
  forI PAGES_PER_TABLE fun i => do
    let pde ← load pd i
    if pde &&& Flag.P = 0#32 then
      return
    else if pde &&& Flag.NG = 0#32 then
      return
    else if pde &&& Flag.G = 0#32 then do
      decref (pde &&& Flag.MASK) destroyPt
      store pd i 0#32
    else
      clearPt (discard i) (pde &&& Flag.MASK)
  setCR3 (← getCR3)

def copyKpd : K Word := do
  let pd ← allocFrame
  memcpy pd (← get).kpd
  return pd

def copyPg (pg : Word) : K Word := do
  let newPg ← allocFrame
  memcpy newPg pg
  return newPg

def copyPt (pt : Word) : K Word := do
  let newPt ← allocFrame
  forI PAGES_PER_TABLE fun i => do
    let pte ← load pt i
    -- no entry
    if pte &&& Flag.P = 0#32 then
      return
    -- global entry
    else if pte &&& Flag.G ≠ 0#32 then do
      assert (pte &&& Flag.NG = 0#32)
      store newPt i pte
    -- read-only entry
    else if pte &&& Flag.RW = 0#32 then do
      store newPt i pte
      incref (pte &&& Flag.MASK)
    -- non-global, read-write page
    else do
      let newPg ← copyPg (pte &&& Flag.MASK)
      store newPt i (newPg ||| (pte &&& 0xfff#32))
  return newPt

def copyPd (pd : Word) : K Word := do
  let newPd ← allocFrame
  forI PAGES_PER_TABLE fun i => do
    let pde ← load pd i
    -- no entry
    if pde &&& Flag.P = 0#32 then
      return
    -- global page table
    else if pde &&& Flag.NG = 0#32 then
      store newPd i pde
    -- read-only page table
    else if pde &&& Flag.RW = 0#32 then do
      store newPd i pde
      incref (pde &&& Flag.MASK)
    -- non-global, read-write page table
    else do
      let newPt ← copyPt (pde &&& Flag.MASK)
      store newPd i (newPt ||| (pde &&& 0xfff#32))
  return newPd

/-- The common beginning of `map` and `map_copy`: give `pd` a table for `va` whose directory
entry has all of `flags`, and return that entry. -/
def ownTable (pd va flags : Word) : K Word := do
  let pde ← load pd (pdi va)
  assert (flags &&& 1#32 ≠ 0#32)
  if pde &&& 1#32 = 0#32 then do
    let pt ← allocFrame
    store pd (pdi va) (pt ||| flags)
  else if pde &&& flags ≠ flags then do
    let pt ← copyPt (pde &&& Flag.MASK)
    store pd (pdi va) (pt ||| (pde &&& 0xfff#32) ||| flags)
    if pde &&& Flag.NG ≠ 0#32 then
      decref (pde &&& Flag.MASK) destroyPt
  load pd (pdi va)

def map (pd va pa flags : Word) : K Unit := do
  let pde ← ownTable pd va flags
  store (pde &&& Flag.MASK) (pti va) (pa ||| flags)

def mapCopy (pd va pa flags : Word) : K Unit := do
  let pde ← ownTable pd va flags
  let pt := pde &&& Flag.MASK
  let pte ← load pt (pti va)
  if pte &&& Flag.P ≠ 0#32 then do
    if pte &&& Flag.RW ≠ 0#32 then
      throw (.exit (-1))
    memcpy pa (pte &&& Flag.MASK)
    decref (pte &&& Flag.MASK) destroyPg
  store pt (pti va) (pa ||| flags)

def writeProtect (pd : Word) : K Unit :=
  let pFlag := Flag.NG ||| Flag.RW ||| Flag.P
  forI PAGES_PER_TABLE fun pdi => do
    if (← load pd pdi) &&& pFlag = pFlag then do
      store pd pdi ((← load pd pdi) ^^^ Flag.RW)
      let pt := (← load pd pdi) &&& Flag.MASK
      forI PAGES_PER_TABLE fun pti => do
        if (← load pt pti) &&& pFlag = pFlag then do
          store pt pti ((← load pt pti) ^^^ Flag.RW)
          invlpg (BitVec.ofNat 32 pdi <<< 22 ||| BitVec.ofNat 32 pti <<< 12)
        else if (← load pt pti) &&& pFlag = Flag.RW ||| Flag.P then
          store pd pdi ((← load pd pdi) ||| Flag.RW)

/-! ## Starting the kernel -/

/-- The fields of `kConfig` that the memory manager reads. -/
structure Config where
  memSize : Word
  localAPIC : Word
  ioAPIC : Word
  deriving DecidableEq, Repr

/-- The frames begin after the kernel's heap: `HEAP_START + HEAP_SIZE`. -/
def VMM_FRAMES : Word := 0x600000#32

/-- The kernel's own entry for page `pti` of slot `pdi`. -/
def identity (pdi pti : Nat) : Word :=
  BitVec.ofNat 32 pdi <<< 22 ||| BitVec.ofNat 32 pti <<< 12 ||| kFlags

def globalInit (kConfig : Config) : K Unit := do
  let kpd ← unsafeAllocFrame
  modify fun s => { s with kpd := kpd }
  forI (kConfig.memSize >>> 22).toNat fun pdi => do
    let pt ← unsafeAllocFrame
    forI PAGES_PER_TABLE fun pti =>
      store pt pti (identity pdi pti)
    store kpd pdi (pt ||| kFlags)
  let pt ← load kpd 0
  store (pt &&& Flag.MASK) 0 0#32
  let va := kConfig.memSize &&& 0xffc00000#32
  if va < kConfig.memSize then do
    let pt ← unsafeAllocFrame
    store kpd (va >>> 22).toNat (pt ||| kFlags)
    -- `for (; va < memSize; va += PAGE_BYTES)`
    forI ((kConfig.memSize.toNat - va.toNat + 4095) / 4096) fun k =>
      map kpd (va + BitVec.ofNat 32 (4096 * k)) (va + BitVec.ofNat 32 (4096 * k)) kFlags
  map kpd kConfig.localAPIC kConfig.localAPIC kFlags
  map kpd kConfig.ioAPIC kConfig.ioAPIC kFlags

/-- `per_core_init`: paging is on from here, under the kernel's directory. -/
def perCoreInit : K Unit := do
  assert ((← get).kpd ≠ 0#32)
  setCR3 (← get).kpd

/-- What `kernelInit` does with frames and page tables, on the first core. -/
def boot (kConfig : Config) : K Unit := do
  PhysMem.init VMM_FRAMES (kConfig.memSize - VMM_FRAMES)
  globalInit kConfig
  perCoreInit

/-- `vmm_pageFault(va, saveState)`, with `error_code = saveState[8]`. -/
def pageFault (va error_code : Word) : K Unit := do
  if va = 0#32 then
    throw (.exit (-1))
  if error_code &&& 0x7#32 = 0x5#32 then
    throw (.exit (-1))
  let flags := Flag.P ||| (Flag.NG ||| Flag.RW)
  if va < 0x80000000#32 then
    throw (.exit (-1))
  let flags := flags ||| Flag.US
  if error_code &&& 0x3#32 = 0x3#32 then do
    let pa ← allocFrame
    mapCopy (← getCR3) (va &&& Flag.MASK) pa flags
    invlpg va
  else if error_code &&& 0x1#32 = 0x1#32 then
    throw (.exit (-1))
  else do
    let pa ← allocFrame
    map (← getCR3) (va &&& Flag.MASK) pa flags

/-! ## `process.h` and `process.cc`: the page directory's life -/

/-- `Process::Process`: a new process gets a copy of the kernel's directory. -/
def newProcess : K Word := copyKpd

/-- `Process::clone`. -/
def clone (cr3 : Word) : K Word := do
  assert (cr3 = (← getCR3))
  writeProtect cr3
  copyPd cr3

/-- `Process::reset`. -/
def reset (discard : Nat → Bool) (cr3 : Word) : K Unit := clearPd discard cr3

/-- `Process::~Process`. -/
def destroy (cr3 : Word) : K Unit := do
  assert (cr3 ≠ (← get).kpd)
  destroyPd cr3

end OsKernel.Vmm
