import OsKernel.Elf.Stack
import OsKernel.Vmm.Cow

/-!
# Starting a program over the page tables

`SYS::exec` once more, over the machine. The kernel reaches the arguments and the new address
space through the page tables of the process, and takes a page fault where they refuse. In
`Elf/Arguments.lean` the same code has one flat memory, in which a new address space is zeros;
here it is `clear_pd`, and a page comes with the first access to it.

The memory below the frames is the kernel's own. It has the heap in it, and lies beside the
machine's.

## Why there are two memories

`Machine` keeps memory by frame, and in words, since page tables are words and frames are what
is handed out and counted. It begins at the first frame. The kernel's code, its data and its
heap lie below, are mapped by every directory and are never handed out, so nothing that the
memory manager does can touch them; what `exec` keeps there is the buffer with the arguments.
So `World` has that memory as bytes, and an address below `VMM_FRAMES` is looked up there,
once the access has been let through.

An access is one of a byte. `access` (of `Vmm/Access.lean`) does what the processor does: it
walks through the tables of CR3, takes the page fault if they refuse, with the handler of
`vmm.cc` run to its end, and tries once more. At an address of the process the second try goes
through; where it does not the model stops (`again`). A word is four accesses, the lowest byte
first; each can fault on its own, as a word need not be aligned.

## What is left as it is in the flat versions

The file. `ELF::load` reads through `BlockIO`, and that a read delivers the bytes of the file
has nothing to do with pages: `toUser` lets the transfer run on a memory of its own and stores
the ranges that it has written, in their order. The headers are read into locals of the kernel
(`inKernel`).

The heap is a parameter. `new` is a function from sizes to addresses; what is asked of it is
that a block lies in the kernel's own memory, which is what `malloc` promises
(`Heap/Runs.lean`).
-/

set_option autoImplicit false

namespace OsKernel.Elf.Paged

open Lib Prog
open Vmm (access wordOf frame VMM_FRAMES)
open Block (Device)

/-! ## The code

`exec` once more, with the bytes it touches where they are: in pages, and behind page faults. The
functions are those of `Elf/Arguments.lean` and `Elf/Load.lean` over this memory; the loads and
stores at the bottom are what differs, and may run the page-fault handler in the middle of a loop.
-/

/-- How `exec` ends, other than by returning. -/
inductive End
  | stop (e : OsKernel.Stop)
  | leave (l : Leave)
  /-- an access is refused a second time -/
  | again

structure World where
  machine : Machine
  /-- the kernel's own memory -/
  kernel : Bytes

abbrev Run := Prog End World

def onMachine {α : Type} (x : K α) : Run α := fun w =>
  match x w.machine with
  | .ok a s => .ok a { w with machine := s }
  | .error e s => .error (.stop e) { w with machine := s }

/-- What is read into objects of the kernel. -/
def inKernel {α : Type} (x : Exec α) : Run α := fun w =>
  match x ⟨⟨fun _ => 0, [], []⟩, .empty, .empty, .empty⟩ with
  | .ok a _ => .ok a w
  | .error l _ => .error (.leave l) w

/-- A word with another byte `i`. -/
def withByte (w : Word) (i : Nat) (v : Byte) : Word := le32 (Function.update (byteOf w) i v) 0

/-- The byte that the processor finds at `va`. -/
def byteAt (s : Machine) (va : Word) : Byte :=
  byteOf (s.mem (frame (s.walk s.cr3 va)) (wordOf va)) (va.toNat % 4)

def setByte (s : Machine) (va : Word) (v : Byte) : Machine :=
  let p := frame (s.walk s.cr3 va)
  s.put p (wordOf va) (withByte (s.mem p (wordOf va)) (va.toNat % 4) v)

def loadByte (user : Bool) (va : Word) : Run Byte := do
  if ← onMachine (access va user false) then
    let w ← get
    pure (if va < VMM_FRAMES then w.kernel va else byteAt w.machine va)
  else throw .again

def storeByte (va : Word) (v : Byte) : Run Unit := do
  if ← onMachine (access va false true) then
    modify fun w =>
      if va < VMM_FRAMES then { w with kernel := overlay w.kernel va 1 fun _ => v }
      else { w with machine := setByte w.machine va v }
  else throw .again

def loadWord (a : Word) : Run Word := do
  let b₀ ← loadByte false a
  let b₁ ← loadByte false (a + 1#32)
  let b₂ ← loadByte false (a + 2#32)
  let b₃ ← loadByte false (a + 3#32)
  pure (b₃ ++ b₂ ++ b₁ ++ b₀)

/-- The bytes of a word, stored one by one. -/
def storeBytes (store : Word → Byte → Run Unit) (a v : Word) : Run Unit :=
  forI 4 fun i => store (a + BitVec.ofNat 32 i) (byteOf v i)

/-- A store through the buffer. -/
def storeIn (u : Buffer) (a : Word) (v : Byte) : Run Unit :=
  if u.Has a then storeByte a v else throw (.leave .overrun)

def loadIn (u : Buffer) (a : Word) : Run Byte :=
  if u.Has a then loadByte false a else throw (.leave .overrun)

/-- `memcpy` of `machine.S`. -/
def memcpy (load : Word → Run Byte) (store : Word → Byte → Run Unit) (dest src n : Word) :
    Run Unit :=
  forI (Sys.zeros n) fun i => do
    let v ← load (src + BitVec.ofNat 32 i)
    store (dest + BitVec.ofNat 32 i) v

/-- The loop of `K::strlen`, with `n`. -/
def strlenLoop : Nat → Word → Word → Run Word
  | 0, _, _ => throw (.leave .fuel)
  | fuel + 1, str, n => do
    let c ← loadByte false str
    if c ≠ 0 then strlenLoop fuel (str + 1#32) (n + 1#32) else pure n

/-- `K::strlen` -/
def strlen (str : Word) : Run Word := strlenLoop (2 ^ 32) str 0

/-- The loop of `SYS::exec`, with `argc` and `sz`. -/
def measureLoop (argv : Word) : Nat → Word → Word → Run (Word × Word)
  | 0, _, _ => throw (.leave .fuel)
  | fuel + 1, argc, sz => do
    let str ← loadWord (argv + 4#32 * argc)
    if str ≠ 0 then do
      let len ← strlen str
      measureLoop argv fuel (argc + 1#32) (sz + (len + 1#32))
    else pure (argc, sz)

/-- `SYS::exec(pcb, file, argv)`, up to the call of `exec`. -/
def measure (argv : Word) : Run (Word × Word) := measureLoop argv (2 ^ 32) 0 0

/-- One argument goes to the buffer, at `string`. -/
def gatherOne (u : Buffer) (argv : Word) (i : Nat) (string : Word) : Run Word := do
  let str ← loadWord (argv + 4#32 * BitVec.ofNat 32 i)
  let len := (← strlen str) + 1#32
  memcpy (loadByte false) (storeIn u) string str len
  storeBytes (storeIn u) (u.start + 4#32 * BitVec.ofNat 32 i) (string - u.start)
  pure (string + len)

/-- The arguments go to the buffer. -/
def gather (u : Buffer) (argv argc : Word) : Run Unit := do
  let offset := (argc + 1#32) * 4#32
  let _ ← foldI argc.toNat (u.start + offset) (gatherOne u argv)
  storeBytes (storeIn u) (u.start + 4#32 * argc) 0

/-- The ranges that a transfer has stored to, the latest first, go to the process. -/
def storeRanges (m : Bytes) : List (Word × Nat) → Run Unit
  | [] => pure ()
  | r :: rs => do
    storeRanges m rs
    forI r.2 fun i => storeByte (r.1 + BitVec.ofNat 32 i) (m (r.1 + BitVec.ofNat 32 i))

/-- A transfer whose buffer is at an address of the process. -/
def toUser {α : Type} (x : Block.Transfer α) : Run α := fun w =>
  -- the transfer stores to a memory of its own, which says what goes where
  match x ⟨fun _ => 0, [], []⟩ with
  | .ok a bus => (do storeRanges bus.mem bus.stores; pure a : Run α) w
  | .error .assertion _ => .error (.leave .assertion) w
  | .error .fuel _ => .error (.leave .fuel) w

/-- The body of the loop of `ELF::load`; `PT_LOAD` is 1. -/
def loadOne (d : Device) (eh : Header) (i : Nat) : Run Unit := do
  let b ← inKernel (readThing d (eh.phent i) 32)
  let phent := ProgramHeader.of b
  if phent.type ≠ 1 then pure ()
  else do
    let _cnt ← toUser (d.readAll (phent.filesize.toNat + 1) phent.offset phent.filesize phent.vaddr)
    toUser (bzero (phent.vaddr + phent.filesize) (phent.memsize - phent.filesize))

/-- `ELF::load`. -/
def load (d : Device) (eh : Header) : Run Word := do
  forI eh.phentnum.toNat (loadOne d eh)
  pure eh.entry

/-- `((uint32_t*) esp)[i] += esp` -/
def relocateAt (esp : Word) (i : Nat) : Run Unit := do
  let v ← loadWord (esp + 4#32 * BitVec.ofNat 32 i)
  storeBytes storeByte (esp + 4#32 * BitVec.ofNat 32 i) (v + esp)

/-- The buffer goes to the stack, and two words below it. -/
def push (g : Sys.Config) (u : Buffer) (argc : Word) : Run Word := do
  let esp := Sys.argBlock g u.size
  memcpy (loadIn u) storeByte esp u.start u.size
  forI argc.toNat (relocateAt esp)
  storeBytes storeByte (esp - 8#32) argc
  storeBytes storeByte (esp - 4#32) esp
  pure (esp - 8#32)

/-- `SYS::exec(pcb, file, argv)`, where `pd` is the directory of the process and `new` is where
`new char[..]` finds memory. -/
def exec (g : Sys.Config) (new : Word → Option Word) (pd : Word) (discard : Nat → Bool)
    (argv : Word) (d : Device) : Run Word := do
  let (argc, sz) ← measure argv
  match ← inKernel (readHeader d) with
  | none => pure Sys.failed
  | some eh =>
    match new (Buffer.make 0 argc sz).size with
    | none => throw (.leave .outOfMemory)
    | some start =>
      let u := Buffer.make start argc sz
      gather u argv argc
      onMachine (do K.assert (pd = (← K.getCR3)); Vmm.reset discard pd)
      let entry ← load d eh
      let esp ← push g u argc
      throw (.leave (.user entry esp))

end OsKernel.Elf.Paged
