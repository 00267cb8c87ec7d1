import OsKernel.Sys.Buffers

/-!
# The ELF loader

`ELF::read_header` and `ELF::load` of `elf.cc`, down to the bytes of the file. A file is a
`Block.Device`; nothing is assumed of its bytes. The headers are read into locals of the
kernel, the segments into the memory of the process. At an address that the page fault handler
refuses, the process ends.

What the loader stores is what a file from anywhere says it should, so the model keeps every
place where that could go wrong: a read that comes back short fails the `ASSERT`, sizes are
words, and the zeros behind a segment are counted as `bzero` of `machine.S` counts them,
downwards in a signed number. Only the fields of the two headers that the code looks at are
there.

`wp_loadOne` is one turn of the loop and says exactly when it comes to its end, what memory it
leaves and which addresses it has stored to. That the addresses are kept beside the memory (in
`Bus.stores`) is because the results about the loader are about where it stores, also where it
stores what was there. `wp_load` of `Elf/Exec.lean` is the loop.

A process that is ended in the middle of a transfer is let through to the end of the transfer
in this model. Nobody looks at its memory afterwards; what is said of such a run is which
addresses it may have touched, and that set is a larger one then.

Memory is flat here. What a page is, and whether there is a frame for it, is `Elf/Paged.lean`.
-/

set_option autoImplicit false

namespace OsKernel.Elf

open Lib Prog
open Sys (Table Config)
open Block (Device)

/-- How `exec` is left, other than by returning. -/
inductive Leave
  /-- a failed `ASSERT` -/
  | assertion
  /-- `Debug::panic("out of memory")` -/
  | outOfMemory
  /-- the arguments do not fit in the buffer that was made for them -/
  | overrun
  /-- the page fault handler has ended the process -/
  | killed
  /-- a loop has not ended yet -/
  | fuel
  | user (entry esp : Word)
  deriving DecidableEq

structure State where
  /-- the memory, and what was done to it -/
  bus : Block.Bus
  fdt : Table
  pdt : Table
  sdt : Table

abbrev Exec := Prog Leave State

/-! ## Reading a file -/

/-- `file->read(offset, thing)`, for a local `thing` of `n` bytes. -/
def readThing (d : Device) (offset n : Word) : Exec (Nat → Byte) :=
  match d.readAll (n.toNat + 1) offset n 0 ⟨fun _ => 0, [], []⟩ with
  | .ok cnt bus =>
    if cnt = n.setWidth 64 then pure fun i => bus.mem (BitVec.ofNat 32 i) else throw .assertion
  | .error .assertion _ => throw .assertion
  | .error .fuel _ => throw .fuel

/-- The fields of `ELF::Header` that are used. -/
structure Header where
  /-- `ident[0]` to `ident[3]` -/
  magic : Word
  /-- `ident[4]` -/
  cls : Byte
  /-- `ident[5]` -/
  endian : Byte
  /-- `ident[7]` -/
  abi : Byte
  type : BitVec 16
  machine : BitVec 16
  entry : Word
  phoff : Word
  phentsize : BitVec 16
  phentnum : BitVec 16
  deriving DecidableEq

def Header.of (b : Nat → Byte) : Header where
  magic := le32 b 0
  cls := b 4
  endian := b 5
  abi := b 7
  type := le16 b 16
  machine := le16 b 18
  entry := le32 b 24
  phoff := le32 b 28
  phentsize := le16 b 42
  phentnum := le16 b 44

/-- The fields of `ELF::ProgramHeader` that are used. -/
structure ProgramHeader where
  type : Word
  offset : Word
  vaddr : Word
  filesize : Word
  memsize : Word
  deriving DecidableEq

def ProgramHeader.of (b : Nat → Byte) : ProgramHeader where
  type := le32 b 0
  offset := le32 b 4
  vaddr := le32 b 8
  filesize := le32 b 16
  memsize := le32 b 20

/-- `ELF::read_header`. -/
def readHeader (d : Device) : Exec (Option Header) :=
  if d.size < 52 then pure none
  else do
    let b ← readThing d 0 52
    let eh := Header.of b
    if eh.magic ≠ 0x464c457f then pure none
    else if eh.cls ≠ 1 then pure none
    else if eh.endian ≠ 1 then pure none
    else if eh.abi ≠ 0 then pure none
    else if eh.type ≠ 2 then pure none
    else if eh.machine ≠ 3 then pure none
    else if eh.entry < 0x80000000 then pure none
    else pure (some eh)

/-! ## Loading -/

/-- A transfer whose buffer is at a user address. It is let through to its end before the process
is ended, as nobody looks at the memory of a process that has ended. -/
def toUser {α : Type} (refused : Word → Bool) (x : Block.Transfer α) : Exec α := fun s =>
  match x { s.bus with stores := [] } with
  | .ok a bus =>
    let s' := { s with bus := { bus with stores := bus.stores ++ s.bus.stores } }
    if ∃ p ∈ bus.stores, ∃ i < p.2, refused (p.1 + BitVec.ofNat 32 i) = true then
      .error .killed s'
    else .ok a s'
  | .error .assertion bus => .error .assertion { s with bus := bus }
  | .error .fuel bus => .error .fuel { s with bus := bus }

/-- `bzero` of `machine.S`. -/
def bzero (dest n : Word) : Block.Transfer Unit := Block.put dest (fun _ => 0) (Sys.zeros n)

/-- Where the `i`-th program header is in the file. -/
def Header.phent (eh : Header) (i : Nat) : Word :=
  eh.phoff + BitVec.ofNat 32 i * eh.phentsize.setWidth 32

/-- The body of the loop of `ELF::load`; `PT_LOAD` is 1. -/
def loadOne (refused : Word → Bool) (d : Device) (eh : Header) (i : Nat) : Exec Unit := do
  let b ← readThing d (eh.phent i) 32
  let phent := ProgramHeader.of b
  if phent.type ≠ 1 then pure ()
  else do
    let _cnt ← toUser refused
      (d.readAll (phent.filesize.toNat + 1) phent.offset phent.filesize phent.vaddr)
    toUser refused (bzero (phent.vaddr + phent.filesize) (phent.memsize - phent.filesize))

/-- `ELF::load`. -/
def load (refused : Word → Bool) (d : Device) (eh : Header) : Exec Word := do
  forI eh.phentnum.toNat (loadOne refused d eh)
  pure eh.entry

/-! ## What the file says -/

/-- The header, from the bytes of the file. -/
def header (d : Device) : Header := .of d.content

/-- What `read_header` asks of a file. -/
structure Accepted (d : Device) : Prop where
  size : 52 ≤ d.size.toNat
  magic : (header d).magic = 0x464c457f
  cls : (header d).cls = 1
  endian : (header d).endian = 1
  abi : (header d).abi = 0
  type : (header d).type = 2
  machine : (header d).machine = 3
  entry : 0x80000000 ≤ (header d).entry

/-- The `i`-th program header, from the bytes of the file. -/
def programHeader (d : Device) (eh : Header) (i : Nat) : ProgramHeader :=
  .of fun k => d.content ((eh.phent i).toNat + k)

/-- The `i`-th program header lies within the file. -/
def Readable (d : Device) (eh : Header) (i : Nat) : Prop :=
  (eh.phent i).toNat + 32 ≤ d.size.toNat

/-- The file bytes that there are of a segment. -/
def fileBytes (d : Device) (ph : ProgramHeader) : Nat := d.available ph.offset ph.filesize

/-- The zeros behind the file bytes of a segment. -/
def zeroBytes (ph : ProgramHeader) : Nat := Sys.zeros (ph.memsize - ph.filesize)

/-- An address that the loading of a segment stores to. -/
def InSegment (d : Device) (ph : ProgramHeader) (x : Word) : Prop :=
  (∃ i < fileBytes d ph, x = ph.vaddr + BitVec.ofNat 32 i) ∨
    ∃ i < zeroBytes ph, x = ph.vaddr + ph.filesize + BitVec.ofNat 32 i

/-- A memory with a segment in it. -/
def segmentIn (d : Device) (ph : ProgramHeader) (m : Bytes) : Bytes :=
  overlay (overlay m ph.vaddr (fileBytes d ph) fun i => d.content (ph.offset.toNat + i))
    (ph.vaddr + ph.filesize) (zeroBytes ph) fun _ => 0

/-! ## The steps

One specification for each function of the loader. A short read fails an assertion and stops the
system, a refused store ends the process, and both can happen in the middle of a segment, so the
specification of a segment has three ways out. `StoredIn` and `EndedIn` say where stores have
gone. -/

variable {refused : Word → Bool} {d : Device} {eh : Header} {s : State} {offset n : Word}

/-- A short read fails the `ASSERT`. -/
theorem wp_readThing {Q : (Nat → Byte) → State → Prop} {E : Leave → State → Prop} (hn : 0 < n)
    (hok : offset.toNat + n.toNat ≤ d.size.toNat →
      ∀ b, (∀ i < n.toNat, b i = d.content (offset.toNat + i)) → Q b s)
    (hshort : ¬offset.toNat + n.toNat ≤ d.size.toNat → E .assertion s) :
    wp (readThing d offset n) Q E s := by
  obtain ⟨cnt, blocks, stores, hrun, hin, hbeyond, -⟩ := Block.readAll_got (d := d)
    (s := ⟨fun _ => 0, [], []⟩) offset n 0 (Nat.lt_succ_self n.toNat)
  have hlt := Block.available_lt (d := d) offset n
  rw [BitVec.lt_def] at hn
  have hzero : (0#32).toNat = 0 := rfl
  unfold readThing
  rw [hrun]
  simp only
  by_cases hfit : offset.toNat + n.toNat ≤ d.size.toNat
  · have havail : d.available offset n = n.toNat := by
      unfold Device.available
      omega
    have hcnt : cnt = n.setWidth 64 := by
      rw [hin (by rw [BitVec.lt_def]; omega), havail, Block.setWidth_toNat]
    rw [if_pos hcnt]
    refine hok hfit _ fun i hi => ?_
    have hat := overlay_at (m := fun _ => 0) (a := 0#32) (n := d.available offset n)
      (f := fun i => d.content (offset.toNat + i)) (i := i) (by omega) (Nat.le_of_lt hlt)
    rw [BitVec.zero_add] at hat
    exact hat
  · have hcnt : cnt ≠ n.setWidth 64 := by
      by_cases hoff : d.size < offset
      · rw [hbeyond hoff (by rw [BitVec.lt_def]; exact hn), Block.setWidth_toNat]
        intro heq
        have hnat := congrArg BitVec.toNat heq
        rw [BitVec.toNat_ofNat] at hnat
        have hmax : (-1 : BitVec 64).toNat = 2 ^ 64 - 1 := rfl
        have hn32 := n.isLt
        omega
      · rw [hin hoff, Block.setWidth_toNat]
        intro heq
        have hnat := congrArg BitVec.toNat heq
        rw [BitVec.toNat_ofNat, BitVec.toNat_ofNat] at hnat
        have hn32 := n.isLt
        have havail : d.available offset n < n.toNat := by
          rw [BitVec.lt_def] at hoff
          unfold Device.available
          omega
        omega
    rw [if_neg hcnt]
    exact hshort hfit

/-- The state after ranges were stored to. -/
def State.wrote (s : State) (m : Bytes) (blocks : List Word) (stores : List (Word × Nat)) : State :=
  { s with bus := ⟨m, blocks ++ s.bus.blocks, stores ++ s.bus.stores⟩ }

/-- Stores to the user go through, or end the process. -/
theorem wp_toUser {α : Type} {x : Block.Transfer α} {Q : α → State → Prop}
    {E : Leave → State → Prop} {a : α} {v : Word} {k : Nat} {m : Bytes} {blocks : List Word}
    {stores : List (Word × Nat)}
    (hx : x { s.bus with stores := [] } = .ok a ⟨m, blocks ++ s.bus.blocks, stores⟩)
    (hcovers : Covers stores v k)
    (hok : (∀ i < k, refused (v + BitVec.ofNat 32 i) = false) → Q a (s.wrote m blocks stores))
    (hkill : (∃ i < k, refused (v + BitVec.ofNat 32 i) = true) →
      E .killed (s.wrote m blocks stores)) :
    wp (toUser refused x) Q E s := by
  have hone : (∃ p ∈ stores, ∃ i < p.2, refused (p.1 + BitVec.ofNat 32 i) = true) ↔
      ∃ i < k, refused (v + BitVec.ofNat 32 i) = true := by
    constructor
    · rintro ⟨p, hp, i, hi, hr⟩
      obtain ⟨j, hj, heq⟩ := (hcovers _).mp ⟨p, hp, i, hi, rfl⟩
      exact ⟨j, hj, by rw [← heq]; exact hr⟩
    · rintro ⟨j, hj, hr⟩
      obtain ⟨p, hp, i, hi, heq⟩ := (hcovers _).mpr ⟨j, hj, rfl⟩
      exact ⟨p, hp, i, hi, by rw [← heq]; exact hr⟩
  unfold wp toUser
  rw [hx]
  simp only
  by_cases h : ∃ i < k, refused (v + BitVec.ofNat 32 i) = true
  · rw [if_pos (hone.mpr h)]
    exact hkill h
  · rw [if_neg fun h' => h (hone.mp h')]
    refine hok fun i hi => ?_
    exact Bool.eq_false_iff.mpr fun hr => h ⟨i, hi, hr⟩

/-- The file bytes of a segment. -/
theorem wp_toUser_readAll {Q : BitVec 64 → State → Prop} {E : Leave → State → Prop} {v : Word}
    (hok : ∀ cnt blocks stores, Covers stores v (d.available offset n) →
      (∀ i < d.available offset n, refused (v + BitVec.ofNat 32 i) = false) →
      Q cnt (s.wrote (overlay s.bus.mem v (d.available offset n) fun i =>
        d.content (offset.toNat + i)) blocks stores))
    (hkill : ∀ blocks stores, Covers stores v (d.available offset n) →
      (∃ i < d.available offset n, refused (v + BitVec.ofNat 32 i) = true) →
      E .killed (s.wrote (overlay s.bus.mem v (d.available offset n) fun i =>
        d.content (offset.toNat + i)) blocks stores)) :
    wp (toUser refused (d.readAll (n.toNat + 1) offset n v)) Q E s := by
  obtain ⟨cnt, blocks, stores, hrun, -, -, hcovers⟩ := Block.readAll_got (d := d)
    (s := { s.bus with stores := [] }) offset n v (Nat.lt_succ_self n.toNat)
  refine wp_toUser (hrun.trans ?_) hcovers (hok cnt blocks stores hcovers)
    (hkill blocks stores hcovers)
  unfold Block.Bus.got
  rw [List.append_nil]

/-- Bytes stored one behind the other. -/
theorem wp_toUser_put {Q : Unit → State → Prop} {E : Leave → State → Prop} {v : Word} {k : Nat}
    {f : Nat → Byte}
    (hok : (∀ i < k, refused (v + BitVec.ofNat 32 i) = false) →
      Q () (s.wrote (overlay s.bus.mem v k f) [] [(v, k)]))
    (hkill : (∃ i < k, refused (v + BitVec.ofNat 32 i) = true) →
      E .killed (s.wrote (overlay s.bus.mem v k f) [] [(v, k)])) :
    wp (toUser refused (Block.put v f k)) Q E s := by
  have hput : Block.put v f k { s.bus with stores := [] } =
      .ok () ⟨overlay s.bus.mem v k f, [] ++ s.bus.blocks, [(v, k)]⟩ := rfl
  exact wp_toUser hput covers_single hok hkill

theorem Header.of_congr {b b' : Nat → Byte} (h : ∀ i < 52, b i = b' i) :
    Header.of b = Header.of b' := by
  unfold Header.of
  rw [le32_congr h (by decide : 0 + 3 < 52), h 4 (by decide), h 5 (by decide), h 7 (by decide),
    le16_congr h (by decide : 16 + 1 < 52), le16_congr h (by decide : 18 + 1 < 52),
    le32_congr h (by decide : 24 + 3 < 52), le32_congr h (by decide : 28 + 3 < 52),
    le16_congr h (by decide : 42 + 1 < 52), le16_congr h (by decide : 44 + 1 < 52)]

theorem ProgramHeader.of_congr {b b' : Nat → Byte} (h : ∀ i < 32, b i = b' i) :
    ProgramHeader.of b = ProgramHeader.of b' := by
  unfold ProgramHeader.of
  rw [le32_congr h (by decide : 0 + 3 < 32), le32_congr h (by decide : 4 + 3 < 32),
    le32_congr h (by decide : 8 + 3 < 32), le32_congr h (by decide : 16 + 3 < 32),
    le32_congr h (by decide : 20 + 3 < 32)]

/-- `read_header` accepts what it asks for, and changes nothing. -/
theorem wp_readHeader :
    wp (readHeader d) (fun r s' => s' = s ∧ (∀ eh, r = some eh → eh = header d ∧ Accepted d) ∧
      (r = none → ¬Accepted d)) (fun _ _ => False) s := by
  have hno : ∀ {P : Prop}, ¬P → (Accepted d → P) → s = s ∧
      (∀ eh, none = some eh → eh = header d ∧ Accepted d) ∧
      ((none : Option Header) = none → ¬Accepted d) :=
    fun hp h => ⟨rfl, (fun _ he => by cases he), fun _ ha => hp (h ha)⟩
  have h52 : (52 : Word).toNat = 52 := rfl
  unfold readHeader
  by_cases hsize : d.size < 52
  · rw [if_pos hsize]
    rw [BitVec.lt_def, h52] at hsize
    exact hno (Nat.not_le.mpr hsize) Accepted.size
  rw [if_neg hsize, wp_bind]
  rw [BitVec.lt_def, h52] at hsize
  refine wp_readThing (by decide) (fun _ b hb => ?_) fun hshort => absurd ?_ hshort
  · have heh : Header.of b = header d := Header.of_congr fun i hi => by
      rw [hb i hi]
      exact congrArg d.content (Nat.zero_add i)
    simp only [heh]
    by_cases hmagic : (header d).magic = 0x464c457f
    case neg => rw [if_pos hmagic]; exact hno hmagic Accepted.magic
    by_cases hcls : (header d).cls = 1
    case neg => rw [if_neg (not_not.mpr hmagic), if_pos hcls]; exact hno hcls Accepted.cls
    rw [if_neg (not_not.mpr hmagic), if_neg (not_not.mpr hcls)]
    by_cases hendian : (header d).endian = 1
    case neg => rw [if_pos hendian]; exact hno hendian Accepted.endian
    by_cases habi : (header d).abi = 0
    case neg => rw [if_neg (not_not.mpr hendian), if_pos habi]; exact hno habi Accepted.abi
    rw [if_neg (not_not.mpr hendian), if_neg (not_not.mpr habi)]
    by_cases htype : (header d).type = 2
    case neg => rw [if_pos htype]; exact hno htype Accepted.type
    by_cases hmachine : (header d).machine = 3
    case neg => rw [if_neg (not_not.mpr htype), if_pos hmachine]; exact hno hmachine Accepted.machine
    rw [if_neg (not_not.mpr htype), if_neg (not_not.mpr hmachine)]
    by_cases hentry : (header d).entry < 0x80000000
    · rw [if_pos hentry]
      exact hno (BitVec.not_le.mpr hentry) Accepted.entry
    · rw [if_neg hentry]
      refine ⟨rfl, fun eh he => ⟨(Option.some.inj he).symm, ?_⟩, fun he => by cases he⟩
      exact ⟨Nat.not_lt.mp hsize, hmagic, hcls, hendian, habi, htype, hmachine,
        BitVec.not_lt.mp hentry⟩
  · show 0 + 52 ≤ d.size.toNat
    rw [Nat.zero_add]
    exact Nat.not_lt.mp hsize

/-- A segment has been stored, and no store of it was refused. -/
structure StoredIn (refused : Word → Bool) (d : Device) (ph : ProgramHeader) (s s' : State) :
    Prop where
  served : ∀ x, InSegment d ph x → refused x = false
  mem : s'.bus.mem = segmentIn d ph s.bus.mem
  stores : ∀ x, Touches s'.bus.stores x ↔ InSegment d ph x ∨ Touches s.bus.stores x
  tables : s'.fdt = s.fdt ∧ s'.pdt = s.pdt ∧ s'.sdt = s.sdt

/-- The process ended in the middle of a segment. -/
structure EndedIn (refused : Word → Bool) (d : Device) (ph : ProgramHeader) (s s' : State) :
    Prop where
  stores : ∀ x, Touches s'.bus.stores x → InSegment d ph x ∨ Touches s.bus.stores x
  hit : ∃ x, InSegment d ph x ∧ refused x = true ∧ Touches s'.bus.stores x

theorem touches_wrote {m : Bytes} {blocks : List Word} {stores : List (Word × Nat)} {v : Word}
    {k : Nat} (h : Covers stores v k) (x : Word) : Touches (s.wrote m blocks stores).bus.stores x ↔
      (∃ i < k, x = v + BitVec.ofNat 32 i) ∨ Touches s.bus.stores x := by
  rw [← h x]
  exact touches_append

/-- One turn of the loop. -/
theorem wp_loadOne (i : Nat) :
    wp (loadOne refused d eh i)
      (fun _ s' => Readable d eh i ∧
        if (programHeader d eh i).type = 1 then
          StoredIn refused d (programHeader d eh i) s s'
        else s' = s)
      (fun l s' => (l = .assertion ∧ ¬Readable d eh i ∧ s' = s) ∨
        (l = .killed ∧ Readable d eh i ∧ (programHeader d eh i).type = 1 ∧
          EndedIn refused d (programHeader d eh i) s s')) s := by
  unfold loadOne
  rw [wp_bind]
  refine wp_readThing (by decide) (fun hfit b hb => ?_) fun hshort => .inl ⟨rfl, hshort, rfl⟩
  have hph : ProgramHeader.of b = programHeader d eh i := ProgramHeader.of_congr hb
  simp only [hph]
  generalize hg : programHeader d eh i = ph
  by_cases htype : ph.type = 1
  case neg =>
    rw [if_pos htype]
    exact ⟨hfit, by rw [if_neg htype]⟩
  rw [if_neg (not_not.mpr htype), wp_bind]
  refine wp_toUser_readAll (fun cnt blocks stores hcovers hserved => ?_)
    fun blocks stores hcovers hkilled => ?_
  · refine wp_toUser_put (fun hzero => ?_) fun hkilled => ?_
    · refine ⟨hfit, ?_⟩
      rw [if_pos htype]
      refine ⟨fun x hx => ?_, rfl, fun x => ?_, rfl, rfl, rfl⟩
      · rcases hx with ⟨j, hj, rfl⟩ | ⟨j, hj, rfl⟩
        · exact hserved j hj
        · exact hzero j hj
      · rw [touches_wrote covers_single, touches_wrote hcovers, ← or_assoc]
        exact or_congr_left or_comm
    · refine .inr ⟨rfl, hfit, htype, fun x hx => ?_, ?_⟩
      · rw [touches_wrote covers_single, touches_wrote hcovers, ← or_assoc] at hx
        exact hx.imp_left Or.symm
      · obtain ⟨j, hj, hr⟩ := hkilled
        refine ⟨_, .inr ⟨j, hj, rfl⟩, hr, ?_⟩
        exact (touches_wrote covers_single _).mpr (.inl ⟨j, hj, rfl⟩)
  · refine .inr ⟨rfl, hfit, htype, fun x hx => ?_, ?_⟩
    · rw [touches_wrote hcovers] at hx
      exact hx.imp_left Or.inl
    · obtain ⟨j, hj, hr⟩ := hkilled
      exact ⟨_, .inl ⟨j, hj, rfl⟩, hr, (touches_wrote hcovers _).mpr (.inl ⟨j, hj, rfl⟩)⟩

end OsKernel.Elf
