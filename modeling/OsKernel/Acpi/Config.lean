import Mathlib.Tactic.ByContra
import OsKernel.Lib.Bytes
import OsKernel.Lib.Prog

/-!
# The machine's configuration

`configInit` of `config.cc`: how much memory there is, from what the boot loader left in
`memInfo`, and which processors and interrupt controllers, from the tables of the firmware.
The tables are read where they lie in memory, and what is read is noted down; the kernel's own
`Config` is apart from them.

Memory may hold anything. The code looks for the root pointer in two ranges and compares eight
characters; from there on it believes what it finds: addresses, lengths and counts. It
computes no checksum, so neither does the model. A pointer that leads nowhere in particular is
followed all the same, since at that time paging is not on and every address can be read.

The loop over the entries of the processor table steps before it looks, and can go on for
ever, so it has fuel. A store behind the array of processors stops the run (`.behindArray`);
what it would overwrite is not modelled.
-/

set_option autoImplicit false

namespace OsKernel.Acpi

open Lib Prog

abbrev Word := BitVec 32

/-- Why `configInit` did not return. -/
inductive Stop
  /-- a failed `ASSERT` -/
  | assertion
  /-- a store behind `apicInfo` -/
  | behindArray
  /-- the loop has not ended yet -/
  | fuel
  deriving DecidableEq

structure MemInfo where
  ax : BitVec 16
  bx : BitVec 16
  cx : BitVec 16
  dx : BitVec 16

structure ApicInfo where
  processorId : Byte
  apicId : Byte
  flags : Word
  deriving DecidableEq

def MAX_PROCS : Nat := 16

structure Config where
  memSize : Word
  nOtherProcs : Word
  totalProcs : Word
  localAPIC : Word
  madtFlags : Word
  ioAPIC : Word
  apicInfo : Vector ApicInfo MAX_PROCS
  oemid : Vector Byte 7

structure Probe where
  config : Config
  /-- the ranges read so far, the latest first -/
  reads : List (Word × Nat)

abbrev Probing := Prog Stop Probe

def SIZEOF_SDT : Nat := 36

def SIZEOF_MADT : Nat := 44

section Read

variable (mem : Bytes)

/-- The word in the four bytes from `a` on. -/
def wordAt (a : Word) : Word := le32 (fun i => mem (a + BitVec.ofNat 32 i)) 0

def read8 (a : Word) : Probing Byte := do
  modify fun s => { s with reads := (a, 1) :: s.reads }
  pure (mem a)

def read16 (a : Word) : Probing (BitVec 16) := do
  modify fun s => { s with reads := (a, 2) :: s.reads }
  pure (le16 (fun i => mem (a + BitVec.ofNat 32 i)) 0)

def read32 (a : Word) : Probing Word := do
  modify fun s => { s with reads := (a, 4) :: s.reads }
  pure (wordAt mem a)

/-! ## Finding the tables

The loops over the BIOS area and over the entries of the root table have their number of turns as
an argument, which the code knows before it enters them, so they end. No checksum is looked at, in
the source or here. -/

def iseq (a : Word) : List Byte → Probing Bool
  | [] => pure true
  | c :: cs => do
    let x ← read8 mem a
    if x ≠ c then pure false else iseq (a + 1) cs

/-- `"RSD PTR "` -/
def rsdSignature : List Byte := [0x52, 0x53, 0x44, 0x20, 0x50, 0x54, 0x52, 0x20]

/-- `"APIC"` -/
def apicSignature : List Byte := [0x41, 0x50, 0x49, 0x43]

/-- The loop of `findRSDInRange`, over at most so many addresses. -/
def rsdLoop (last : Word) : Nat → Word → Probing Word
  | 0, _ => pure 0
  | n + 1, i =>
    if i < last then do
      if ← iseq mem i rsdSignature then pure i else rsdLoop last n (i + 16)
    else pure 0

def findRSDInRange (start last : Word) : Probing Word :=
  rsdLoop mem last ((last - start).toNat / 16 + 1) start

def findRSD : Probing Word := do
  let it ← findRSDInRange mem 0x000e0000 0x00100000
  if it = 0 then do
    let segment ← read16 mem 0x40e
    let base := segment.setWidth 32 <<< 4
    findRSDInRange mem base (base + 1 <<< 10)
  else pure it

/-- The loop of `findSDT`, with `n` entries to go from the `i`-th on. -/
def sdtLoop (others : Word) (name : List Byte) : Nat → Nat → Probing Word
  | 0, _ => pure 0
  | n + 1, i => do
    let h ← read32 mem (others + BitVec.ofNat 32 (4 * i))
    if ← iseq mem h name then pure h else sdtLoop others name n (i + 1)

def findSDT (rsdp : Word) (name : List Byte) : Probing Word := do
  let rsdt ← read32 mem (rsdp + 16)
  let others := rsdt + BitVec.ofNat 32 SIZEOF_SDT
  let length ← read32 mem (rsdt + 4)
  let entries := (length - BitVec.ofNat 32 SIZEOF_SDT) / 4
  sdtLoop mem others name entries.toNat 0

def memAbove1M (memInfo : MemInfo) : Probing Word :=
  if memInfo.cx = 15 * 1024 ∨ memInfo.dx = 0 then
    pure ((memInfo.ax ||| memInfo.cx).setWidth 32 <<< 10 +
      (memInfo.bx ||| memInfo.dx).setWidth 32 <<< 16)
  else throw .assertion

/-! ## The processor table

`entryLoop` is the one loop whose number of turns is not known beforehand. It has fuel, and the
results about it say for which tables some fuel is enough. -/

/-- `&config->apicInfo[config->nOtherProcs ++]`, and the stores through it. -/
def record (apic : Word) : Probing Unit := do
  let n := (← get).config.nOtherProcs
  modify fun s => { s with config := { s.config with nOtherProcs := n + 1 } }
  let processorId ← read8 mem (apic + 2)
  if n.toNat < MAX_PROCS then do
    let apicId ← read8 mem (apic + 3)
    let flags ← read32 mem (apic + 4)
    modify fun s => { s with config := { s.config with
      apicInfo := s.config.apicInfo.setIfInBounds n.toNat ⟨processorId, apicId, flags⟩ } }
  else throw .behindArray

/-- The body of the loop, behind the step to the next entry. -/
def examine (entryPtr : Word) : Probing Unit := do
  let type ← read8 mem entryPtr
  if type = 0 then do
    let processorId ← read8 mem (entryPtr + 2)
    if processorId = 0 then pure () else record mem entryPtr
  else if type = 1 then do
    let address ← read32 mem (entryPtr + 4)
    modify fun s => { s with config := { s.config with ioAPIC := address } }
  else pure ()

/-- `while (bytesForEntries > 0)`: the entry is left behind before the body looks at one. -/
def entryLoop : Nat → Word → Word → Probing Unit
  | 0, _, _ => throw .fuel
  | fuel + 1, entryPtr, bytesForEntries =>
    if 0 < bytesForEntries.toInt then do
      let len ← read8 mem (entryPtr + 1)
      examine mem (entryPtr + len.setWidth 32)
      entryLoop fuel (entryPtr + len.setWidth 32) (bytesForEntries - len.setWidth 32)
    else pure ()

/-- `configInit` from where the table is found on. -/
def readTable (fuel : Nat) (madt : Word) : Probing Unit := do
  let localAddress ← read32 mem (madt + 36)
  modify fun s => { s with config := { s.config with localAPIC := localAddress } }
  let flags ← read32 mem (madt + 40)
  modify fun s => { s with config := { s.config with madtFlags := flags } }
  let length ← read32 mem (madt + 4)
  let bytesForEntries := length - BitVec.ofNat 32 SIZEOF_MADT
  modify fun s => { s with config := { s.config with nOtherProcs := 0 } }
  entryLoop mem fuel (madt + BitVec.ofNat 32 SIZEOF_MADT) bytesForEntries
  modify fun s => { s with config := { s.config with totalProcs := s.config.nOtherProcs + 1 } }

/-- `config->oemid[i] = c` -/
def setOemid (i : Nat) (c : Byte) : Probing Unit :=
  modify fun s => { s with config := { s.config with oemid := s.config.oemid.setIfInBounds i c } }

/-- The loop over `rsdp->OEMID`, with `n` characters to go from the `i`-th on. -/
def oemidLoop (rsdp : Word) : Nat → Nat → Probing Unit
  | 0, _ => pure ()
  | n + 1, i => do
    let c ← read8 mem (rsdp + 9 + BitVec.ofNat 32 i)
    setOemid i c
    oemidLoop rsdp n (i + 1)

/-- `configInit` up to where the table is found. -/
def findTable (memInfo : MemInfo) : Probing Word := do
  let above ← memAbove1M memInfo
  modify fun s => { s with config := { s.config with memSize := above + 1 <<< 20 } }
  let rsdp ← findRSD mem
  if rsdp ≠ 0 then do
    oemidLoop mem rsdp 6 0
    setOemid 6 0
  findSDT mem rsdp apicSignature

def configInit (memInfo : MemInfo) (fuel : Nat) : Probing Unit := do
  let madt ← findTable mem memInfo
  readTable mem fuel madt

end Read

end OsKernel.Acpi
