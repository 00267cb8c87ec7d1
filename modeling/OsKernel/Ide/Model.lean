import Mathlib.Data.Finset.Erase
import Mathlib.Data.Finset.Insert
import OsKernel.Ext2.Node
import OsKernel.Lib.Memory
import OsKernel.Lib.Runs
import OsKernel.Lib.Task

/-!
# The drive, and files read from it

`ide.cc`, one port access at a time, and what reads files through it: `BlockIO::read_all` over
an `Ide` and over a `Node`, `Node::read_block` with its cache, and the `read` of a file
descriptor. Processes share the drive's registers and the caches, and no lock protects them:
between any two accesses of one process others may run.

The drive holds what was last stored in its registers, and serves the words of the sector that
its last command named. Which process is in the middle of a transfer, which is filling a cache
and which are copying out of one is written down beside it, and whether one came in the way of
another.

## Why the code is written a second time

`Block/ReadAll.lean` and `Ext2/Node.lean` have the same functions as programs over one memory,
run from start to end. Here a function is a `Task` (`Lib/Task.lean`): it asks for one access
after the other, and the answer comes when the process is let go on. So a call that is going
on is a value, with what it has left to do, and a state has one for each process in the
kernel. That the two versions bring the same bytes is proved in `Ide/Reads.lean`; the loops of
`BlockIO` are compared with those of `Block/ReadAll.lean` and not proved about again.

What is one step is what nothing can divide in the source: an access to a port; the comparison
with `cache_num`; making the cache; a copy of bytes into it, or out of it. The last two are
loops of the code, but their order among others does not matter to what is proved: they are
steps of a process that has already come in somebody's way, or in nobody's.

## What is written down beside it

`owner`, `filler`, `readers` and `clash` are no part of the machine. The code does not know
them, and no answer depends on them. A clash is that a process writes to the drive in the
middle of another one's transfer, looks at a cache that another one is filling, or begins to
fill one that another one is copying out of. The results have it as their condition, and
`Ide/Interleaved.lean` shows what happens without the condition.

## What it does not do

The status of the drive is an input of each step, so the drive may be busy for as long as it
likes, show errors, or contradict itself. Its words are those of the sector it was asked for.
It is polled, as in the source, whose code for writing is commented out. Buffers of a
process's own are values of its task.
-/

set_option autoImplicit false

namespace OsKernel.Ide

open Lib Block

abbrev Word := BitVec 32

/-- Why a read did not return. -/
inductive Stop
  /-- `ERR` or `DF` -/
  | driveError
  /-- not `DRDY` -/
  | notReady
  /-- a copy out of the cache where there is none -/
  | nullPointer
  | divide
  | assertion
  /-- the loop has not ended yet -/
  | fuel
  deriving DecidableEq

/-! ## The drive

Seen from the bus: registers, and a command that loads a sector into the words behind `inl`. A
command given while words are still to be taken replaces them, which is what two processes can do
to each other. What the status register says is not here but an input of each step. -/

def ERR : Byte := 0x01
def DRQ : Byte := 0x08
def DF : Byte := 0x20
def DRDY : Byte := 0x40
def BSY : Byte := 0x80

/-- The registers from `base + 2` on, and the words of a sector that are still to be taken. -/
structure Drive where
  count : Byte
  low : Byte
  mid : Byte
  high : Byte
  dev : Byte
  /-- a sector, and how many of its words were taken -/
  serves : Option (Word × Nat)

/-- The sector that the registers name. -/
def Drive.sector (d : Drive) : Word :=
  d.low.setWidth 32 ||| d.mid.setWidth 32 <<< 8 ||| d.high.setWidth 32 <<< 16 |||
    (d.dev &&& 0x0f).setWidth 32 <<< 24

/-- `outb(base + reg, v)`. -/
def Drive.out (d : Drive) (reg : Nat) (v : Byte) : Drive :=
  match reg with
  | 2 => { d with count := v }
  | 3 => { d with low := v }
  | 4 => { d with mid := v }
  | 5 => { d with high := v }
  | 6 => { d with dev := v }
  | 7 => if v = 0x20 then { d with serves := some (d.sector, 0) } else d
  | _ => d

/-- `inl(base)`. -/
def Drive.inl (content : Nat → Byte) (d : Drive) : Word × Drive :=
  match d.serves with
  | none => (0, d)
  | some (sector, i) => (le32 content (512 * sector.toNat + 4 * i),
      { d with serves := if i + 1 = 128 then none else some (sector, i + 1) })

/-! ## Files

The code of a `read`, down to single port accesses. It is a tree of requests and not a function of
the state, because a process is stopped between any two of them and others run. The functions have
the names and the order of the source, and what is local to a call stays inside the tree. -/

/-- What does not change of a `Node`. -/
structure File where
  order : Nat
  /-- `memcpy` counts down a signed number -/
  order_le : order ≤ 30
  blockSize : Word
  blockSize_eq : blockSize.toNat = 2 ^ order
  data : Nat → Word
  size : Word

/-- What a task asks for. -/
inductive Request (V : Type)
  /-- `getStatus(drive)` -/
  | status
  /-- a loop that yields while the bits of `mask` are not (`set`) or are (`¬set`) all clear -/
  | poll (mask : Byte) (set : Bool)
  | out (reg : Nat) (v : Byte)
  | inl
  /-- `number == cache_num` -/
  | look (v : V) (number : Word)
  /-- `if (!cache) cache = new char[block_size]`, and `cache_num = number` -/
  | make (v : V) (number : Word)
  /-- bytes go into the cache -/
  | put (v : V) (pos : Word) (src : Nat → Byte) (n : Nat)
  /-- `memcpy(buffer, cache, block_size)` -/
  | take (v : V)

inductive Look
  | hit
  | null
  | miss

def Answer {V : Type} : Request V → Type
  | .status => Byte
  | .poll .. => Unit
  | .out .. => Unit
  | .inl => Word
  | .look .. => Look
  | .make .. => Unit
  | .put .. => Unit
  | .take _ => Bytes

abbrev Thread (V : Type) (α : Type) := Task (Request V) Answer Stop α

section Programs

variable {V : Type}

def ask (q : Request V) : Thread V (Answer q) := Task.request q

def stop {α : Type} (e : Stop) : Thread V α := .stop e

def assert (c : Prop) [Decidable c] : Thread V Unit := if c then pure () else stop .assertion

/-- `waitForDrive`. -/
def waitForDrive : Thread V Unit := do
  let status : Byte ← ask .status
  if status &&& (ERR ||| DF) ≠ 0 then stop .driveError
  else if status &&& DRDY = 0 then stop .notReady
  else ask (.poll BSY false)

/-- `ptr[i] = inl(base)`. -/
def words : Nat → Nat → (Nat → Byte) → Thread V (Nat → Byte)
  | 0, _, ptr => pure ptr
  | left + 1, i, ptr => do
    let w ← ask .inl
    words left (i + 1) fun j => if 4 * i ≤ j ∧ j < 4 * i + 4 then byteOf w (j - 4 * i) else ptr j

/-- `Ide::read_block`. -/
def readSector (ch : Byte) (sector : Word) (buffer : Nat → Byte) : Thread V (Nat → Byte) := do
  waitForDrive
  ask (.out 2 1)
  ask (.out 3 (sector.setWidth 8))
  ask (.out 4 ((sector >>> 8).setWidth 8))
  ask (.out 5 ((sector >>> 16).setWidth 8))
  ask (.out 6 (0xE0 ||| ch <<< 4 ||| ((sector >>> 24) &&& 0xf).setWidth 8))
  ask (.out 7 0x20)
  waitForDrive
  ask (.poll DRQ true)
  words 128 0 buffer

/-! `BlockIO`, for any way to fetch a block and any place to deliver bytes to. -/

section BlockIO

variable {β : Type} (size blockSize : Word) (fetch : Word → Thread V (Nat → Byte))
variable (deliver : Word → (Nat → Byte) → Nat → β → Thread V β)

/-- `BlockIO::read`. -/
def read (offset desired buffer : Word) (b : β) : Thread V (BitVec 64 × β) :=
  if size < offset then pure (-1, b)
  else if offset = size then pure (0, b)
  else do
    let n := kmin desired (size - offset)
    let blockNumber := offset / blockSize
    let offsetInBlock := offset % blockSize
    let actual := kmin (blockSize - offsetInBlock) n
    assert (actual ≤ n)
    assert (offset + actual ≤ size)
    if actual = blockSize then do
      assert (offsetInBlock = 0)
      -- we can read in-place
      let block ← fetch blockNumber
      let b ← deliver buffer block blockSize.toNat b
      pure (actual.setWidth 64, b)
    else do
      assert (offsetInBlock + actual ≤ blockSize)
      let temp ← fetch blockNumber
      let b ← deliver buffer (fun i => temp (offsetInBlock.toNat + i))
        (if actual.msb then 0 else actual.toNat) b
      pure (actual.setWidth 64, b)

/-- `BlockIO::read_all`, with `total_count`. -/
def readAll : Nat → Word → Word → Word → BitVec 64 → β → Thread V (BitVec 64 × β)
  | 0, _, _, _, _, _ => stop .fuel
  | fuel + 1, offset, n, buffer, total, b =>
    if 0 < n then do
      let r ← read size blockSize fetch deliver offset n buffer b
      if r.1.slt 0 then pure r
      else if r.1 = 0 then pure (total, r.2)
      else
        readAll fuel ((offset.setWidth 64 + r.1).setWidth 32) ((n.setWidth 64 - r.1).setWidth 32)
          (buffer + r.1.setWidth 32) (total + r.1) r.2
    else pure (total, b)

end BlockIO

/-- A place that only the process knows. -/
def deliverOwn (pos : Word) (src : Nat → Byte) (n : Nat) (b : Bytes) : Thread V Bytes :=
  pure (overlay b pos n src)

/-- The cache of a node. -/
def deliverCache (v : V) (pos : Word) (src : Nat → Byte) (n : Nat) (_ : Unit) : Thread V Unit :=
  ask (.put v pos src n)

/-- `size_in_bytes()` of an `Ide`. -/
def ideSize : Word := 0xffffffff

/-- `ide->read_all(offset, n, buffer)`; each sector goes through a buffer of its own. -/
def ideReadAll {β : Type} (deliver : Word → (Nat → Byte) → Nat → β → Thread V β) (ch : Byte)
    (offset n : Word) (b : β) : Thread V (BitVec 64 × β) :=
  readAll ideSize 512 (fun sector => readSector ch sector fun _ => 0) deliver (n.toNat + 1) offset n
    0 0 b

/-- `ide->read_all(offset, sizeof(uint32_t), (char*) &offset)`. -/
def readWord (ch : Byte) (offset : Word) : Thread V Word := do
  let r ← ideReadAll deliverOwn ch offset 4 fun a => byteOf offset a.toNat
  pure (le32 (fun i => r.2 (BitVec.ofNat 32 i)) 0)

/-- The four ways of `Node::read_block` to a block: where its bytes begin on the disk. -/
def findBlock (ch : Byte) (f : File) (number : Word) : Thread V Word :=
  let bs := f.blockSize
  if number < 12 then pure (f.data number.toNat * bs)
  else
    let number := number - 12
    let pc1 := bs / 4
    if number < pc1 then do
      let offset ← readWord ch (f.data 12 * bs + number * 4)
      pure (offset * bs)
    else
      let number := number - pc1
      let pc2 := pc1 * pc1
      if number < pc2 then do
        let offset ← readWord ch (f.data 13 * bs + number / pc1 * 4)
        let offset ← readWord ch (offset * bs + number % pc1)
        pure (offset * bs)
      else
        let number := number - pc2
        if pc2 = 0 then stop .divide
        else do
          let offset ← readWord ch (f.data 14 * bs + number / pc2 * 4)
          let offset ← readWord ch (offset * bs + number % pc2 / pc1)
          let offset ← readWord ch (offset * bs + number % pc1)
          pure (offset * bs)

/-- `Node::read_block`. -/
def nodeReadBlock (ch : Byte) (f : File) (v : V) (number : Word) : Thread V (Nat → Byte) := do
  match ← ask (.look v number) with
  | .hit => do
    let cache ← ask (.take v)
    pure fun i => cache (BitVec.ofNat 32 i)
  | .null => stop .nullPointer
  | .miss => do
    ask (.make v number)
    let offset ← findBlock ch f number
    let _ ← ideReadAll (deliverCache v) ch offset f.blockSize ()
    let cache ← ask (.take v)
    pure fun i => cache (BitVec.ofNat 32 i)

/-- `FileDescriptor::read`, from this offset, into the memory of a process. -/
def fdRead (ch : Byte) (f : File) (v : V) (offset len buffer : Word) (mem : Bytes) :
    Thread V (Word × Bytes) :=
  if f.size < offset then pure (-1, mem)
  else do
    let r ← readAll f.size f.blockSize (nodeReadBlock ch f v) deliverOwn (len.toNat + 1) offset len
      buffer 0 mem
    pure (r.1.setWidth 32, r.2)

end Programs

/-! ## Processes

What the processes share is the drive and the caches of the nodes; `World` has these and, for
each, who is in the middle of using it. The second is not in the code. It is written by the steps
and read by none, and is there so that a run can be asked whether a process came in another's way
(`clash`). -/

/-- What processes share. `owner` has begun to give the drive a command and not yet taken all its
words; `filler` found that a cache does not hold its block and has not yet copied out of it;
`readers` found that it does. `clash` says that the drive was written to, or a cache looked at, in
between. -/
structure World (P V : Type) where
  drive : Drive
  owner : Option P
  cache : V → Bytes
  /-- `cache != nullptr` -/
  has : V → Bool
  /-- `cache_num` -/
  num : V → Word
  filler : V → Option P
  readers : V → Finset P
  clash : Bool

section System

variable {P V : Type} [DecidableEq P] [DecidableEq V] (content : Nat → Byte)

namespace World

variable (w : World P V) (p : P) (v : V)

/-- A register of the drive is written. -/
def out (reg : Nat) (x : Byte) : World P V :=
  { w with
    drive := w.drive.out reg x
    owner := some p
    clash := w.clash || (w.owner.isSome && decide (w.owner ≠ some p)) }

/-- A word is taken. -/
def inl : World P V :=
  { w with
    drive := (w.drive.inl content).2
    owner := if (w.drive.inl content).2.serves.isNone then none else w.owner }

/-- A cache holds the block. -/
def hit : World P V :=
  { w with
    readers := Function.update w.readers v (insert p (w.readers v))
    clash := w.clash || (w.filler v).isSome }

/-- A cache does not. -/
def miss : World P V :=
  { w with
    filler := Function.update w.filler v (some p)
    clash := w.clash || (w.filler v).isSome || decide (w.readers v ≠ ∅) }

def make (number : Word) : World P V :=
  { w with
    has := Function.update w.has v true
    num := Function.update w.num v number }

def put (pos : Word) (src : Nat → Byte) (n : Nat) : World P V :=
  { w with cache := Function.update w.cache v (overlay (w.cache v) pos n src) }

/-- The block has been copied out. -/
def leave : World P V :=
  { w with
    filler := Function.update w.filler v (if w.filler v = some p then none else w.filler v)
    readers := Function.update w.readers v ((w.readers v).erase p) }

end World

/-- What a process is answered, by a drive of this status; none while it has to wait. -/
def handle (p : P) (status : Byte) : (q : Request V) → World P V → Option (Answer q × World P V)
  | .status, w => some (status, w)
  | .poll mask set, w => if decide (status &&& mask ≠ 0) = set then some ((), w) else none
  | .out reg x, w => some ((), w.out p reg x)
  | .inl, w => some ((w.drive.inl content).1, w.inl content)
  | .look v number, w =>
    if number = w.num v then some (if w.has v then .hit else .null, w.hit p v)
    else some (.miss, w.miss p v)
  | .make v number, w => some ((), w.make v number)
  | .put v pos src n, w => some ((), w.put v pos src n)
  | .take v, w => some (w.cache v, w.leave p v)

/-- A `read` system call that passed its check. -/
structure Call (V : Type) where
  node : V
  offset : Word
  len : Word
  buffer : Word
  mem : Bytes

/-- What it leaves. -/
abbrev Result := Word × Bytes

structure State (P V : Type) where
  world : World P V
  /-- the call of each process that is in the kernel, and what is left of it -/
  at' : P → Option (Call V × Thread V Result)
  /-- the calls that have returned, the latest first -/
  returned : List (Call V × Result)

inductive Act (P V : Type)
  /-- a process calls `read` -/
  | call (p : P) (c : Call V)
  /-- a process goes on, and the drive shows this status -/
  | go (p : P) (status : Byte)

variable (ch : Byte) (files : V → File)

def Call.task (c : Call V) : Thread V Result :=
  fdRead ch (files c.node) c.node c.offset c.len c.buffer c.mem

/-- What is left of a call; a call with nothing left returns. -/
def State.leave (s : State P V) (p : P) (c : Call V) : Thread V Result → State P V
  | .ret a => { s with at' := Function.update s.at' p none, returned := (c, a) :: s.returned }
  | x => { s with at' := Function.update s.at' p (some (c, x)) }

def step (s : State P V) : Act P V → Option (State P V)
  | .call p c =>
    match s.at' p with
    | none => some (s.leave p c (c.task ch files))
    | some _ => none
  | .go p status =>
    match s.at' p with
    | none => none
    | some (c, x) =>
      (x.step (handle content p) status s.world).map fun r =>
        { s with world := r.2 }.leave p c r.1

/-- Nothing has been read yet. -/
def State.init (d : Drive) (cache : V → Bytes) : State P V where
  world :=
    { drive := d, owner := none, cache := cache, has := fun _ => false
      num := fun _ => 0xffffffff, filler := fun _ => none, readers := fun _ => ∅, clash := false }
  at' _ := none
  returned := []

end System

end OsKernel.Ide
