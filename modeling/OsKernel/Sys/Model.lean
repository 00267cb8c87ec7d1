import OsKernel.Lib.Prog
import OsKernel.Lib.Runs
import OsKernel.Sys.Descriptor

/-!
# System calls

`sys.cc`, with `process.cc` and the descriptor objects. A handler runs on the kernel stack of
its thread and mostly returns; it can also leave that stack for good, by `stop()`, by
`switchToUser`, or because a page fault on a user address ends the process in the middle of
it. Leaving is an error of the program monad, so no destructor runs after it, as in the
kernel.

* `take` and `release` are the constructor and destructor of a `Shared` on the kernel stack,
  and `holding` is a local or a temporary. A handle that is moved into a table is released
  from the stack.
* `touch` is an access of the kernel through a user address, `store` one that writes.
  `vmm_pageFault` either supplies a page or ends the process: `Call.refused` says which.
* User memory, the file system and the program file are what the call finds: they are fields
  of `Call`. Descriptor tables, file offsets and exit statuses are state.

## Why it is cut here

The results over this model are about what a call does to the tables, to the offsets and to
the handles, and about which addresses it stores to. For these it does not matter what the
bytes of user memory are, only that any bytes may be there: a process may have stored whatever
it likes between two calls. So what a call reads from user memory (its arguments, the length
of a string, `argv`) comes with the call, and a theorem for all calls is one for all memories.
The runs here are more than those of the kernel, as nothing ties what two calls find to each
other, and every result is about all of them.

The same holds for the disk. What `Ext2::open` comes to is a list of the nodes that it assigns
to its two variables on the way, since each assignment takes a handle and gives one back;
which path leads where is in `Ext2/Open.lean`, and what the bytes of a file are in `Ide`.
`exec` is here with the addresses that it accesses; the bytes, the loops over the arguments
and the page tables are in `Elf`, and `Elf/Versions.lean` says how the four versions hang
together.

## What it does not do

A call is one step. In the kernel it can sleep in the middle, and others run; but the tables
of a process are touched by its own thread alone, an exit status is set once, and an offset is
fetched and stored by calls that can meet. `Sys/Offset.lean` has `read` in pieces, for that
reason and no other. A call that has to sleep (`wait` for a child that has not exited) is no
step until it does not have to. Whether a `down` lets its caller through is for
`Threads/Semaphore.lean`; here it has.

The heap never fails: `new` panics where there is no memory, and that call does not come back.
-/

set_option autoImplicit false

namespace OsKernel.Sys

open Lib

/-! ## State

All that the handlers read and write of the processes and of what these share. Objects are
numbers: a descriptor in a table is the number of an object that other tables may have as well,
which is how a child shares the cursor of its parent. `held` has the handles on kernel stacks, of
all calls together. -/

/-- What a `Shared` on the kernel stack points to. `none` is the object `empty` of the class. -/
inductive Obj
  | pcb (p : Nat)
  | fs
  | node (n : Nat)
  | fd (o : Option Nat)
  | pd (o : Option Nat)
  | sd (o : Option Nat)
  deriving DecidableEq

/-- The subclasses of `FD`. -/
inductive File
  | stdIn
  | stdOut
  | stdErr
  | file (node : Nat) (offset : Word)
  deriving DecidableEq

/-- The thread of a process. -/
inductive Life
  | unborn
  | running
  /-- in `stop()`; its TCB waits to be deleted -/
  | stopped
  | deleted
  deriving DecidableEq

structure Process where
  fdt : Table
  pdt : Table
  sdt : Table
  cd : Nat
  life : Life

structure Kernel where
  procs : Nat → Process
  files : Nat → File
  /-- the process whose `exit_status` a `ProcessDescriptor` holds -/
  child : Nat → Nat
  /-- `exit_status`, once it is set -/
  status : Nat → Option Word
  /-- objects and processes from here on are unused -/
  next : Nat
  /-- the handles that live on kernel stacks -/
  held : Obj → Nat
  /-- the addresses stored to by system calls for the user -/
  stores : List Word

/-- `PCB::ref_count`: the handle of the TCB, and those on kernel stacks. -/
def Kernel.refCount (k : Kernel) (p : Nat) : Nat :=
  (match (k.procs p).life with
    | .running | .stopped => 1
    | .unborn | .deleted => 0) + k.held (.pcb p)

/-- A `PT_LOAD` segment. -/
structure Segment where
  vaddr : Word
  filesize : Word
  memsize : Word

/-- What `ELF::read_header` and the program headers of a file say. -/
structure Image where
  entry : Word
  segments : List Segment

/-- An assignment of `Ext2::open` to one of its two nodes. -/
inductive Assign
  | cd (n : Nat)
  | file (n : Nat)

/-- A system call and what it finds. -/
structure Call where
  num : Word
  /-- `getargs(stack)` -/
  argp : Word
  args : Nat → Word
  /-- the page fault handler ends the process at this address -/
  refused : Word → Bool
  strlen : Word → Nat
  /-- the pointers before the null one that ends `argv` -/
  argv : List Word
  /-- the nodes that the search of `Ext2::open` comes through -/
  search : List Assign
  /-- `Ext2::open` returns `file` -/
  found : Bool
  /-- `none` if `read_header` turns the file down -/
  image : Nat → Option Image
  size : Nat → Word

structure Config where
  localAPIC : Word
  ioAPIC : Word

/-- How a call left the kernel stack, other than by returning. -/
inductive Leave
  | exit
  | killed
  | user (entry esp : Word)
  | shutdown
  /-- not left: it sleeps -/
  | waits
  deriving DecidableEq

abbrev Kern := Prog Leave Kernel

/-! ## Handles

A handle on the kernel stack is counted in `held` from where it is made to where its scope ends.
`holding` is such a scope; where the body leaves by `stop()`, the release behind it is not
reached, as no destructor runs in the source. -/

def take (o : Obj) : Kern Unit :=
  modify fun k => { k with held := Function.update k.held o (k.held o + 1) }

def release (o : Obj) : Kern Unit :=
  modify fun k => { k with held := Function.update k.held o (k.held o - 1) }

/-- `{ Shared<..> v{o}; body }`. -/
def holding {α : Type} (o : Obj) (body : Kern α) : Kern α := do
  take o
  let r ← body
  release o
  pure r

/-! ## Processes

`stop()` does not come back to its caller, and the TCB of a stopped thread goes with an event of
its own. The page fault handler ends a process as `exit(-1)` does. -/

def Kernel.setProc (k : Kernel) (p : Nat) (proc : Process) : Kernel :=
  { k with procs := Function.update k.procs p proc }

def process (p : Nat) : Kern Process := do
  let k ← get
  pure (k.procs p)

def setProcess (p : Nat) (proc : Process) : Kern Unit :=
  modify fun k => k.setProc p proc

/-- `exit_status->set(v)`. -/
def setStatus (p : Nat) (v : Word) : Kern Unit :=
  modify fun k => { k with status := Function.update k.status p (some v) }

/-- `stop()`. -/
def stop {α : Type} (p : Nat) (l : Leave) : Kern α := do
  let proc ← process p
  setProcess p { proc with life := .stopped }
  throw l

/-- `SYS::exit(-1)`, as the page fault handler calls it. -/
def kill {α : Type} (p : Nat) : Kern α := do
  take (.pcb p)
  setStatus p failed
  release (.pcb p)
  stop p .killed

/-- The number of an object that is not in use. -/
def fresh : Kern Nat := do
  let k ← get
  set { k with next := k.next + 1 }
  pure k.next

/-! ## User memory

The calls do not see bytes. What they need is which addresses a call touches, in which order, and
whether one of them is `refused`: an access to it ends in the page fault handler, and the process
with it. Stores are noted, since some theorems are about where a call may write. -/

def touch (c : Call) (p : Nat) (a : Word) : Kern Unit :=
  if c.refused a then kill p else pure ()

def store (c : Call) (p : Nat) (a : Word) : Kern Unit := do
  touch c p a
  modify fun k => { k with stores := a :: k.stores }

/-- The `n` addresses from `a` on. -/
def span (a : Word) (n : Nat) : List Word := (List.range n).map fun i => a + BitVec.ofNat 32 i

theorem mem_span {a b : Word} {n : Nat} :
    b ∈ span a n ↔ ∃ i < n, a + BitVec.ofNat 32 i = b := by
  simp [span]

/- A range of addresses is reasoned about by its members. -/
attribute [irreducible] span

def touchAll (c : Call) (p : Nat) : List Word → Kern Unit
  | [] => pure ()
  | a :: as => do
    touch c p a
    touchAll c p as

def storeAll (c : Call) (p : Nat) : List Word → Kern Unit
  | [] => pure ()
  | a :: as => do
    store c p a
    storeAll c p as

/-- The bytes of `args[i]`. -/
def argBytes (c : Call) (i : Nat) : List Word := span (c.argp + BitVec.ofNat 32 (4 * i)) 4

def arg (c : Call) (p : Nat) (i : Nat) : Kern Word := do
  touchAll c p (argBytes c i)
  pure (c.args i)

/-- The bytes of a string and its end. -/
def strBytes (c : Call) (a : Word) : List Word := span a (c.strlen a + 1)

/-! ## Descriptor objects

`none` is the object `empty` of a class, whose calls fail. It is what a table holds where nothing
is open, so that `get_fd` and its siblings give an object for every number. -/

def file (o : Nat) : Kern File := do
  let k ← get
  pure (k.files o)

def setFile (o : Nat) (f : File) : Kern Unit :=
  modify fun k => { k with files := Function.update k.files o f }

/-- `new ProcessDescriptor{q->exit_status}`. -/
def setChild (o q : Nat) : Kern Unit :=
  modify fun k => { k with child := Function.update k.child o q }

/-- `FD::write`. -/
def fdWrite (c : Call) (p : Nat) (o : Option Nat) (buffer len : Word) : Kern Word :=
  match o with
  | none => pure failed
  | some o => do
    match ← file o with
    | .stdOut | .stdErr =>
      touchAll c p (span buffer (if len.msb then 0 else len.toNat))
      pure len
    | .stdIn | .file _ _ => pure failed

/-- `FD::len`. -/
def fdLen (c : Call) (o : Option Nat) : Kern Word :=
  match o with
  | none => pure failed
  | some o => do
    match ← file o with
    | .file node _ => pure (c.size node)
    | .stdIn | .stdOut | .stdErr => pure failed

/-- How much `read_all(offset, len, ..)` delivers. -/
def delivered (size offset len : Word) : Nat := min len.toNat (size.toNat - offset.toNat)

/-- `FD::read`. -/
def fdRead (c : Call) (p : Nat) (o : Option Nat) (buffer len : Word) : Kern Word :=
  match o with
  | none => pure failed
  | some o => do
    match ← file o with
    | .file node offset =>
      if c.size node < offset then pure failed
      else
        let cnt := delivered (c.size node) offset len
        storeAll c p (span buffer cnt)
        setFile o (.file node (offset + BitVec.ofNat 32 cnt))
        pure (BitVec.ofNat 32 cnt)
    | .stdIn | .stdOut | .stdErr => pure failed

/-- `FD::seek`. -/
def fdSeek (o : Option Nat) (offset : Word) : Kern Word :=
  match o with
  | none => pure failed
  | some o => do
    match ← file o with
    | .file node _ =>
      setFile o (.file node offset)
      pure offset
    | .stdIn | .stdOut | .stdErr => pure failed

/-- `SD::up`, and `SD::down` once the semaphore lets it through. -/
def sdUpDown (o : Option Nat) : Kern Word :=
  pure (if o.isNone then failed else 0#32)

/-- `PD::wait`. -/
def pdWait (c : Call) (p : Nat) (o : Option Nat) (status : Word) : Kern Word :=
  match o with
  | none => pure failed
  | some o => do
    let k ← get
    match k.status (k.child o) with
    | none => throw .waits
    | some _ =>
      storeAll c p (span status 4)
      pure 0#32

/-! ## `Process`

The three `set_` functions ask for a slot first and make the object only where there is one. The
table is read again behind `make`, as in the source, where the lambda runs between the search and
the store. -/

/-- `set_fd(fun)`. -/
def setFd (p : Nat) (make : Kern Nat) : Kern Word := do
  let proc ← process p
  match proc.fdt.free with
  | none => pure failed
  | some i =>
    let o ← make
    let proc ← process p
    setProcess p { proc with fdt := proc.fdt.put i (some o) }
    release (.fd (some o))
    pure (name typeFd i)

/-- `set_pd(fun)`. -/
def setPd (p : Nat) (make : Kern Nat) : Kern Word := do
  let proc ← process p
  match proc.pdt.free with
  | none => pure failed
  | some i =>
    let o ← make
    let proc ← process p
    setProcess p { proc with pdt := proc.pdt.put i (some o) }
    release (.pd (some o))
    pure (name typePd i)

/-- `set_sd(fun)`. -/
def setSd (p : Nat) (make : Kern Nat) : Kern Word := do
  let proc ← process p
  match proc.sdt.free with
  | none => pure failed
  | some i =>
    let o ← make
    let proc ← process p
    setProcess p { proc with sdt := proc.sdt.put i (some o) }
    release (.sd (some o))
    pure (name typeSd i)

/-- One case of `Process::close`: the table without the slot, if it is in use. -/
def Table.close (t : Table) (des : Word) : Option Table :=
  if h : (des &&& numMask).toNat < 10 then
    if t ⟨_, h⟩ = none then none else some (t.put ⟨_, h⟩ none)
  else none

/-- `Process::close`. -/
def Process.close (proc : Process) (des : Word) : Option Process :=
  if des &&& typeMask = typeFd then (proc.fdt.close des).map fun t => { proc with fdt := t }
  else if des &&& typeMask = typePd then (proc.pdt.close des).map fun t => { proc with pdt := t }
  else if des &&& typeMask = typeSd then (proc.sdt.close des).map fun t => { proc with sdt := t }
  else none

/-- `Process::wait`. -/
def Process.wait (c : Call) (p : Nat) (des status : Word) : Kern Word := do
  if des &&& typeMask ≠ typePd then pure failed
  else if h : (des &&& numMask).toNat < 10 then
    let proc ← process p
    let r ← pdWait c p (proc.pdt ⟨_, h⟩) status
    if r = failed then pure failed
    else
      let proc ← process p
      setProcess p { proc with pdt := proc.pdt.put ⟨_, h⟩ none }
      pure 0#32
  else pure failed

/-- `Process::reset`, as far as the tables go. -/
def Process.reset (proc : Process) : Process := { proc with sdt := Table.empty }

/-- `Process::clone`: the copy constructor. -/
def Process.clone (proc : Process) : Process := { proc with pdt := Table.empty, life := .running }

/-! ## Files

The search of a path makes and gives back handles on nodes. Which nodes it comes by is read off
the disk, and so is data of the call here; the model in `Ext2` is about which they are. -/

/-- `v = getInode(..)`: the variable gives back what it held. -/
def assign (old : Option Nat) (new : Nat) : Kern Unit := do
  take (.node new)
  match old with
  | none => pure ()
  | some n => release (.node n)

/-- The search of `Ext2::open`, with its variables `cd` and `file`. -/
def walk : List Assign → Nat → Option Nat → Kern (Nat × Option Nat)
  | [], cd, file => pure (cd, file)
  | .cd n :: rest, cd, file => do
    assign (some cd) n
    walk rest n file
  | .file n :: rest, cd, file => do
    assign file n
    walk rest cd (some n)

def releaseNode : Option Nat → Kern Unit
  | none => pure ()
  | some n => release (.node n)

/-- `Ext2::open(dir, name)`. The caller gets a handle on the node returned. -/
def openFile (c : Call) (p : Nat) (dir : Nat) (path : Word) : Kern (Option Nat) :=
  holding (.node dir) do
    take (.node dir)
    touchAll c p (strBytes c path)
    touchAll c p (strBytes c path)
    let (cd, file) ← walk c.search dir none
    release (.node cd)
    if c.found then pure file
    else
      releaseNode file
      pure none

/-! ## The handlers

The functions of the system call table, each under its name. What they read of user memory is
given with the call; what is modelled of memory is whether an access is refused, which ends the
process on the spot with everything that the kernel has allocated up to there. -/

/-- `check_range`. -/
def checkRange (g : Config) (start size : Word) : Bool :=
  let lower := start
  let upper := start + size
  lower ≤ upper && 0x80000000#32 ≤ lower &&
    (upper ≤ g.localAPIC || g.localAPIC + 4096#32 ≤ lower) &&
    (upper ≤ g.ioAPIC || g.ioAPIC + 4096#32 ≤ lower)

def exit (c : Call) (p : Nat) : Kern Word := do
  let status ← arg c p 0
  setStatus p status
  release (.pcb p)
  stop p .exit

def write (g : Config) (c : Call) (p : Nat) : Kern Word := do
  let buffer ← arg c p 1
  let len ← arg c p 2
  if !checkRange g buffer len then pure failed
  else
    let des ← arg c p 0
    let proc ← process p
    let o := proc.fdt.get typeFd des
    holding (.fd o) (fdWrite c p o buffer len)

/-- The lambda of `fork`: the child, its thread, and the descriptor of the child. -/
def forkChild (p : Nat) : Kern Nat := do
  let proc ← process p
  let q ← fresh
  setProcess q proc.clone
  take (.pcb q)
  let o ← fresh
  setChild o q
  take (.pd (some o))
  release (.pcb q)
  pure o

def fork (p : Nat) : Kern Word := holding (.pcb p) (setPd p (forkChild p))

def sem (c : Call) (p : Nat) : Kern Word :=
  setSd p do
    let _count ← arg c p 0
    let o ← fresh
    take (.sd (some o))
    pure o

def up (c : Call) (p : Nat) : Kern Word := do
  let des ← arg c p 0
  let proc ← process p
  let o := proc.sdt.get typeSd des
  holding (.sd o) (sdUpDown o)

def down (c : Call) (p : Nat) : Kern Word := do
  let des ← arg c p 0
  let proc ← process p
  let o := proc.sdt.get typeSd des
  holding (.sd o) (sdUpDown o)

def close (c : Call) (p : Nat) : Kern Word := do
  let des ← arg c p 0
  let proc ← process p
  match proc.close des with
  | none => pure failed
  | some proc =>
    setProcess p proc
    pure 0#32

def shutdown (p : Nat) : Kern Word := do
  release (.pcb p)
  stop p .shutdown

def wait (c : Call) (p : Nat) : Kern Word := do
  let des ← arg c p 0
  let status ← arg c p 1
  Process.wait c p des status

/-- The bytes of `argv` and of the strings it points to, read by the outer `exec`. -/
def argvBytes (c : Call) : List Word :=
  (List.range (c.argv.length + 1)).flatMap (fun i => argBytes c (i + 1)) ++
    c.argv.flatMap (strBytes c)

/-- `bzero` counts down a signed number. -/
def zeros (n : Word) : Nat := if n.msb then 0 else n.toNat

/-- The bytes that `ELF::load` stores. -/
def Segment.bytes (s : Segment) (delivered : Nat) : List Word :=
  span s.vaddr delivered ++ span (s.vaddr + s.filesize) (zeros (s.memsize - s.filesize))

/-- The start of the argument block. -/
def argBlock (g : Config) (sz : Word) : Word :=
  let userStack := if g.localAPIC < g.ioAPIC then g.localAPIC else g.ioAPIC
  ((userStack - sz - 8#32) &&& 0xfffffff0#32) + 8#32

/-- The size of the argument block: the pointers, the null one, and the strings. -/
def argSize (c : Call) : Nat := 4 * (c.argv.length + 1) + (c.argv.map fun a => c.strlen a + 1).sum

/-- `exec(pcb, file, argv)`. -/
def exec (g : Config) (c : Call) (p : Nat) (file : Nat) : Kern Word := do
  touchAll c p (argvBytes c)
  match ← holding (.node file) (pure (c.image file)) with
  | none => pure failed
  | some image =>
    touchAll c p (c.argv.flatMap (strBytes c))
    let proc ← process p
    setProcess p proc.reset
    holding (.node file) do
      storeAll c p (image.segments.flatMap fun s => s.bytes s.filesize.toNat)
    let esp := argBlock g (BitVec.ofNat 32 (argSize c))
    storeAll c p (span esp (argSize c))
    storeAll c p (span (esp - 8#32) 8)
    release (.pcb p)
    release (.node file)
    throw (.user image.entry (esp - 8#32))

def execl (g : Config) (c : Call) (p : Nat) : Kern Word := do
  let proc ← process p
  holding .fs do
    let path ← arg c p 0
    match ← openFile c p proc.cd path with
    | none => pure failed
    | some file =>
      let r ← exec g c p file
      release (.node file)
      pure r

def open_ (c : Call) (p : Nat) : Kern Word := do
  let proc ← process p
  holding .fs do
    let path ← arg c p 0
    match ← openFile c p proc.cd path with
    | none => pure failed
    | some node =>
      let r ← holding (.node node) (setFd p do
        let o ← fresh
        holding (.node node) (setFile o (.file node 0#32))
        take (.fd (some o))
        pure o)
      release (.node node)
      pure r

def len (c : Call) (p : Nat) : Kern Word := do
  let des ← arg c p 0
  let proc ← process p
  let o := proc.fdt.get typeFd des
  holding (.fd o) (fdLen c o)

def read (g : Config) (c : Call) (p : Nat) : Kern Word := do
  let buffer ← arg c p 1
  let len ← arg c p 2
  if !checkRange g buffer len then pure failed
  else
    let des ← arg c p 0
    let proc ← process p
    let o := proc.fdt.get typeFd des
    holding (.fd o) (fdRead c p o buffer len)

def seek (c : Call) (p : Nat) : Kern Word := do
  let des ← arg c p 0
  let offset ← arg c p 1
  let proc ← process p
  let o := proc.fdt.get typeFd des
  holding (.fd o) (fdSeek o offset)

/-- `syscall_table[num]`. -/
def handler (g : Config) (c : Call) (p : Nat) : Nat → Kern Word
  | 0 => exit c p
  | 1 => write g c p
  | 2 => fork p
  | 3 => sem c p
  | 4 => up c p
  | 5 => down c p
  | 6 => close c p
  | 7 => shutdown p
  | 8 => wait c p
  | 9 => execl g c p
  | 10 => open_ c p
  | 11 => len c p
  | 12 => read g c p
  | 13 => seek c p
  | _ => pure failed

/-- `sysHandler`. -/
def sysHandler (g : Config) (c : Call) (p : Nat) : Kern Word :=
  if 14#32 ≤ c.num then pure failed
  else holding (.pcb p) (handler g c p c.num.toNat)

/-! ## Runs -/

inductive Event
  | call (p : Nat) (c : Call)
  /-- `delete_zombies` deletes the TCB -/
  | reap (p : Nat)

/-- The first process, as `kernelMain` makes it. -/
def Kernel.init (root : Nat) : Kernel where
  procs p :=
    { fdt := if p = 0 then fun i => if i.val < 3 then some i.val else none else Table.empty
      pdt := Table.empty
      sdt := Table.empty
      cd := root
      life := if p = 0 then .running else .unborn }
  files o := if o = 0 then .stdIn else if o = 1 then .stdOut else .stdErr
  child _ := 0
  status _ := none
  next := 3
  held _ := 0
  stores := []

/-- One system call of a process, or the end of a TCB. A call that has to sleep is taken once it
does not. -/
def step (g : Config) (k : Kernel) : Event → Option Kernel
  | .call p c =>
    if (k.procs p).life = .running then
      match sysHandler g c p k with
      | .ok _ k' => some k'
      | .error .waits _ => none
      | .error _ k' => some k'
    else none
  | .reap p =>
    if (k.procs p).life = .stopped then some (k.setProc p { k.procs p with life := .deleted })
    else none

end OsKernel.Sys
