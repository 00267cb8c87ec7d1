import OsKernel.Lib.Prog
import OsKernel.Lib.Words

/-!
# The machine the kernel runs on

Physical memory, the few registers the memory manager touches, and the global variables of
`physmem.cc` and `vmm.cc`.

Memory is kept by frame: `mem p i` is the `i`-th 32-bit word of the 4096-byte frame whose base
address is `p`. Everything the memory manager stores lies in frames and is reached through an
aligned base and an index below 1024, so this is the same memory as a flat one; 16-bit
counters and bytes are read out of the words (`Lib/Words.lean`). One frame holds whatever was
last written to it: the same words serve as a page directory, a page table, a user page, a
table of reference counts or a link of the free list, and that these uses never collide is
proved, not built in.

`Stop` lists the ways an operation ends without returning. The state at that moment is kept.

An access is one of physical memory. That is right for the kernel's own: the frames lie in the
identity map, so the address of a frame is where the kernel finds it, before paging is on and
after. What goes through other translations is stated over `Machine.walk` (`Vmm/System.lean`)
and `access` (`Vmm/Access.lean`).

Only `physmem.cc` and `vmm.cc` run on this machine, and what is built on them. The heap, the
threads and the file system have states of their own, since none of them touches a frame.
-/

set_option autoImplicit false

namespace OsKernel

open Lib

/-- Why an operation did not return. -/
inductive Stop
  /-- `Debug::panic("no more frames")`. -/
  | noFrames
  /-- A failed `ASSERT`. -/
  | assertion
  /-- A reference count of 65535 would be incremented: the model ends where the 16-bit counter
      would wrap. -/
  | refOverflow
  /-- `SYS::exit(status)`: the thread stops for good. -/
  | exit (status : Int)
  deriving DecidableEq, Repr

/-- A cached translation: page, frame, and whether writes go through. -/
structure TlbEntry where
  page : Word
  frame : Word
  rw : Bool
  deriving DecidableEq, Repr

structure Machine where
  mem : Word → Nat → Word
  /-- `PhysMem::firstFree`; the next pointer of a free frame is its word 0. -/
  firstFree : Word
  avail : Word
  limit : Word
  start : Word
  /-- `PhysMem::refs`, one word for each 8 MB chunk of frames. -/
  refs : Nat → Word
  /-- `VMM::kpd`. -/
  kpd : Word
  cr3 : Word
  tlb : List TlbEntry

/-- The machine after word `i` of frame `p` was overwritten. -/
abbrev Machine.put (s : Machine) (p : Word) (i : Nat) (v : Word) : Machine :=
  { s with mem := Function.update s.mem p (Function.update (s.mem p) i v) }

/-- The kernel's memory-management code. -/
abbrev K := Prog Stop Machine

namespace K

/-- `ASSERT(c)`. -/
def assert (c : Prop) [Decidable c] : K Unit :=
  if c then pure () else throw .assertion

/-- `((uint32_t*) p)[i]`. -/
def load (p : Word) (i : Nat) : K Word := do
  return (← get).mem p i

/-- `((uint32_t*) p)[i] = v`. -/
def store (p : Word) (i : Nat) (v : Word) : K Unit :=
  modify fun s => s.put p i v

/-- `bzero(p, PAGE_BYTES)`. -/
def bzero (p : Word) : K Unit :=
  modify fun s => { s with mem := Function.update s.mem p fun _ => 0#32 }

/-- `memcpy(dst, src, PAGE_BYTES)`. -/
def memcpy (dst src : Word) : K Unit :=
  modify fun s => { s with mem := Function.update s.mem dst (s.mem src) }

def getCR3 : K Word := do
  return (← get).cr3

/-- Loading CR3 empties the TLB: global pages are not enabled (`setPGE` is commented out). -/
def setCR3 (pd : Word) : K Unit :=
  modify fun s => { s with cr3 := pd, tlb := [] }

def invlpg (va : Word) : K Unit :=
  modify fun s => { s with tlb := s.tlb.filter fun e => e.page ≠ va &&& 0xfffff000#32 }

section wp

open Prog

variable {α : Type} {E : Stop → Machine → Prop} {s : Machine}

@[simp] theorem wp_assert {Q : Unit → Machine → Prop} (c : Prop) [Decidable c] :
    wp (assert c) Q E s ↔ if c then Q () s else E .assertion s := by
  unfold assert
  split <;> rfl

@[simp] theorem wp_load {Q : Word → Machine → Prop} (p : Word) (i : Nat) :
    wp (load p i) Q E s ↔ Q (s.mem p i) s := Iff.rfl

@[simp] theorem wp_store {Q : Unit → Machine → Prop} (p : Word) (i : Nat) (v : Word) :
    wp (store p i v) Q E s ↔ Q () (s.put p i v) := Iff.rfl

@[simp] theorem wp_bzero {Q : Unit → Machine → Prop} (p : Word) :
    wp (bzero p) Q E s ↔ Q () { s with mem := Function.update s.mem p fun _ => 0#32 } := Iff.rfl

@[simp] theorem wp_memcpy {Q : Unit → Machine → Prop} (dst src : Word) :
    wp (memcpy dst src) Q E s ↔ Q () { s with mem := Function.update s.mem dst (s.mem src) } :=
  Iff.rfl

@[simp] theorem wp_getCR3 {Q : Word → Machine → Prop} : wp getCR3 Q E s ↔ Q s.cr3 s := Iff.rfl

@[simp] theorem wp_setCR3 {Q : Unit → Machine → Prop} (pd : Word) :
    wp (setCR3 pd) Q E s ↔ Q () { s with cr3 := pd, tlb := [] } := Iff.rfl

@[simp] theorem wp_invlpg {Q : Unit → Machine → Prop} (va : Word) :
    wp (invlpg va) Q E s ↔
      Q () { s with tlb := s.tlb.filter fun e => e.page ≠ va &&& 0xfffff000#32 } := Iff.rfl

end wp

end K

end OsKernel
