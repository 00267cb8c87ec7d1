import OsKernel.Sys.Tables
import OsKernel.Elf.Stack

/-!
# The versions of `exec`

The same function of `sys.cc` stands in this development four times, each time with what one
group of results is about and without what they do not touch:

* `Sys.exec`, with the handles on processes and nodes and the tables, and with addresses where
  it has memory: which ones are accessed, and not what is there. The memory of a run with many
  processes and many calls would be in the way of the tables; it would also have to be shared,
  which is `Paged`'s business.
* `exec` of `Elf/Exec.lean`, with the bytes. The block of arguments is one list, made in one
  step, and `new` may fail. It is what a failing call leaves behind that is asked there, so it
  is over one process.
* `execAt` of `Elf/Arguments.lean`, with the loops that measure the arguments, gather them and
  push them, and a buffer that an access may leave. Where `new` puts the buffer is given.
* `Paged.exec` of `Elf/Paged.lean`, which is `execAt` over page tables and with frames that
  may run out.

That they are one function is for the theorems here and in `Elf/Mirrored.lean`. A call with
bytes that returns, is ended by the page fault handler or comes to the program does the same
in the version with handles, and leaves the same tables (`exec_in_sys`). `execAt` returns
where the version with bytes does; and where it comes to the program that one does, at the
same entry and stack pointer and, outside the argument block, with the same memory
(`execAt_in_exec`). What is in the block is the subject of `arguments_arrive`. From `execAt`
to the page tables it is the simulation of `Elf/Mirrored.lean`.

The other ways to stop are not compared. A kernel that panics, or writes behind its buffer, is
beyond `Sys.exec`, which goes on.
-/

set_option autoImplicit false

namespace OsKernel.Elf

open Lib Prog
open Sys (Config Call Kernel)
open Block (Device)

variable {g : Config} {c : Call} {room : Word → Bool} {d : Device} {s : State} {k : Kernel} {p n : Nat}

/-! ## With handles, and with bytes

The version of `Sys/Model.lean` has the handles and the ways out, and the one of `Elf/Exec.lean`
the bytes. They do the same: a call returns, or leaves, in one as in the other, and accesses the
same addresses. -/

/-- The segments that are loaded. -/
def segmentsOf (d : Device) : List Sys.Segment :=
  ((List.range (header d).phentnum.toNat).filter fun i =>
    (programHeader d (header d) i).type = 1).map fun i =>
      ⟨(programHeader d (header d) i).vaddr, (programHeader d (header d) i).filesize,
        (programHeader d (header d) i).memsize⟩

/-- What the version with handles is told of a file. -/
def imageOf (d : Device) : Option Sys.Image :=
  if Accepted d then some ⟨(header d).entry, segmentsOf d⟩ else none

/-- The ways to leave that the version with handles has as well. -/
def Leave.inSys : Leave → Option Sys.Leave
  | .user entry esp => some (.user entry esp)
  | .killed => some .killed
  | .assertion | .outOfMemory | .overrun | .fuel => none

/-- The tables are those of the process. -/
structure HasTables (s : State) (proc : Sys.Process) : Prop where
  fdt : s.fdt = proc.fdt
  pdt : s.pdt = proc.pdt
  sdt : s.sdt = proc.sdt

theorem served_iff {as : List Word} : AllServed c as ↔ ¬c.refusesOne as := by
  unfold AllServed Call.refusesOne
  simp

theorem mem_segmentsOf {x : Word} (hfile : ∀ i < (header d).phentnum.toNat,
    (programHeader d (header d) i).type = 1 →
      fileBytes d (programHeader d (header d) i) = (programHeader d (header d) i).filesize.toNat) :
    x ∈ (segmentsOf d).flatMap (fun s => s.bytes s.filesize.toNat) ↔
      ∃ i < (header d).phentnum.toNat, (programHeader d (header d) i).type = 1 ∧
        InSegment d (programHeader d (header d) i) x := by
  unfold segmentsOf
  simp only [List.mem_flatMap, List.mem_map, List.mem_filter, List.mem_range, decide_eq_true_eq]
  constructor
  · rintro ⟨_, ⟨i, ⟨hi, htype⟩, rfl⟩, hx⟩
    refine ⟨i, hi, htype, ?_⟩
    rcases List.mem_append.mp hx with hx | hx
    · obtain ⟨j, hj, rfl⟩ := Sys.mem_span.mp hx
      exact .inl ⟨j, by rwa [hfile i hi htype], rfl⟩
    · obtain ⟨j, hj, rfl⟩ := Sys.mem_span.mp hx
      exact .inr ⟨j, hj, rfl⟩
  · rintro ⟨i, hi, htype, hx⟩
    refine ⟨_, ⟨i, ⟨hi, htype⟩, rfl⟩, List.mem_append.mpr ?_⟩
    rcases hx with ⟨j, hj, rfl⟩ | ⟨j, hj, rfl⟩
    · exact .inl (Sys.mem_span.mpr ⟨j, by rwa [← hfile i hi htype], rfl⟩)
    · exact .inr (Sys.mem_span.mpr ⟨j, hj, rfl⟩)

theorem mem_arguments {esp x : Word} (hsize : Sys.argSize c < 2 ^ 31) :
    InArguments c esp (blockSize c) x ↔
      x ∈ Sys.span esp (Sys.argSize c) ∨ x ∈ Sys.span (esp - 8#32) 8 := by
  have hzeros : Sys.zeros (blockSize c) = Sys.argSize c := zeros_small hsize
  have hargc : 4 * c.argv.length ≤ Sys.argSize c := by
    unfold Sys.argSize
    omega
  unfold InArguments
  rw [hzeros, Sys.mem_span, Sys.mem_span]
  constructor
  · rintro (⟨i, hi, rfl⟩ | ⟨i, hi, rfl⟩ | ⟨i, hi, rfl⟩)
    · exact .inl ⟨i, hi, rfl⟩
    · exact .inl ⟨i, Nat.lt_of_lt_of_le hi hargc, rfl⟩
    · exact .inr ⟨i, hi, rfl⟩
  · rintro (⟨i, hi, rfl⟩ | ⟨i, hi, rfl⟩)
    · exact .inl ⟨i, hi, rfl⟩
    · exact .inr (.inr ⟨i, hi, rfl⟩)

/-- The two versions access the same addresses. -/
theorem mem_accessed {x : Word} (hsize : Sys.argSize c < 2 ^ 31)
    (hfile : ∀ i < (header d).phentnum.toNat, (programHeader d (header d) i).type = 1 →
      fileBytes d (programHeader d (header d) i) = (programHeader d (header d) i).filesize.toNat) :
    x ∈ Sys.Image.accessed ⟨(header d).entry, segmentsOf d⟩ g c ↔
      x ∈ c.argv.flatMap (Sys.strBytes c) ∨ Stored g c d x := by
  unfold Sys.Image.accessed Stored
  rw [List.mem_append, List.mem_append, List.mem_append, mem_segmentsOf hfile, mem_arguments hsize]
  exact Iff.rfl

/-- A call does in the version with handles what it does in the one with bytes. -/
theorem exec_in_sys (himage : c.image n = imageOf d) (hsize : Sys.argSize c < 2 ^ 31)
    (hfile : ∀ i < (header d).phentnum.toNat, (programHeader d (header d) i).type = 1 →
      fileBytes d (programHeader d (header d) i) = (programHeader d (header d) i).filesize.toNat)
    (ht : HasTables s (k.procs p)) :
    wp (exec g c room d)
      (fun r s' => ∃ k', Sys.exec g c p n k = .ok r k' ∧ HasTables s' (k'.procs p))
      (fun l s' => ∀ l', l.inSys = some l' → ∃ k', Sys.exec g c p n k = .error l' k' ∧
        (l' ≠ .killed → HasTables s' (k'.procs p))) s := by
  have hsys := Sys.exec_serves (g := g) (c := c) (p := p) (k := k) (n := n)
  unfold wp at hsys
  refine wp_mono wp_exec (fun r s' h => ?_) fun l s' h l' hl => ?_
  -- the file was turned down
  · obtain ⟨rfl, rfl, hargv, hno⟩ := h
    have hnone : c.image n = none := himage.trans (if_neg hno)
    cases hx : Sys.exec g c p n k with
    | ok r k' =>
      rw [hx] at hsys
      obtain ⟨rfl, -, -, hk⟩ := hsys
      exact ⟨k', rfl, by rwa [hk]⟩
    | error l k' =>
      rw [hx] at hsys
      rcases hsys with ⟨-, hrefused | ⟨_, himg, -⟩⟩ | ⟨_, himg, -⟩
      · exact absurd hrefused (served_iff.mp hargv)
      · cases hnone.symm.trans himg
      · cases hnone.symm.trans himg
  · rcases h with ⟨entry, esp, rfl, R, -⟩ | ⟨hno, hkill⟩
    · -- the program is reached
      cases hl
      have hsome : c.image n = some ⟨(header d).entry, segmentsOf d⟩ := himage.trans (if_pos R.accepted)
      have hserved : ¬c.refusesOne (Sys.Image.accessed ⟨(header d).entry, segmentsOf d⟩ g c) := by
        rintro ⟨x, hx, hr⟩
        rcases (mem_accessed hsize hfile).mp hx with hx | hx
        · rw [strings_served R.argv x hx] at hr
          cases hr
        · rw [R.served x hx] at hr
          cases hr
      cases hx : Sys.exec g c p n k with
      | ok r k' =>
        rw [hx] at hsys
        cases hsys.2.1.symm.trans hsome
      | error l k' =>
        rw [hx] at hsys
        rcases hsys with ⟨-, hrefused | ⟨_, himg, hrefused⟩⟩ | ⟨_, himg, rfl, hk, -⟩
        · exact absurd hrefused (served_iff.mp R.argv)
        · cases hsome.symm.trans himg
          exact absurd hrefused hserved
        · cases hsome.symm.trans himg
          have hentry := R.entry
          have hesp := R.esp
          subst hentry hesp
          refine ⟨k', rfl, fun _ => ?_⟩
          rw [hk, Function.update_self]
          exact ⟨R.tables.1.trans ht.fdt, R.tables.2.1.trans ht.pdt, R.tables.2.2⟩
    · -- an address is refused
      have hkilled : l = .killed ∧ l' = .killed := by
        cases l with
        | user entry esp => exact absurd rfl (hno entry esp)
        | killed => exact ⟨rfl, (Option.some.inj hl).symm⟩
        | _ => cases hl
      obtain ⟨rfl, rfl⟩ := hkilled
      cases hx : Sys.exec g c p n k with
      | ok r k' =>
        rw [hx] at hsys
        obtain ⟨-, hnone, hargv, -⟩ := hsys
        obtain ⟨hacc, -⟩ := hkill (served_iff.mpr hargv)
        cases hnone.symm.trans (himage.trans (if_pos hacc))
      | error l k' =>
        rw [hx] at hsys
        rcases hsys with ⟨rfl, -⟩ | ⟨_, himg, -, -, hargv, hserved⟩
        · exact ⟨k', rfl, fun h => absurd rfl h⟩
        · obtain ⟨hacc, -, hrefused⟩ := hkill (served_iff.mpr hargv)
          cases (himage.trans (if_pos hacc)).symm.trans himg
          obtain ⟨x, hx, hr⟩ := hrefused rfl
          exact absurd ⟨x, (mem_accessed hsize hfile).mpr (.inr hx), hr⟩ hserved

/-! ## With the loops over the arguments -/

variable {args : List (Word × Nat)} {m : Bytes}

/-- The call says of its arguments what is in the memory. -/
structure Tells (c : Call) (m : Bytes) (args : List (Word × Nat)) : Prop where
  passed : Passed c.refused m (c.argp + 4#32) args
  argv : c.argv = args.map Prod.fst
  strlen : ∀ p ∈ args, c.strlen p.1 = p.2

theorem Tells.argSize (h : Tells c m args) : Sys.argSize c = total args := by
  unfold Sys.argSize total place
  rw [h.argv, List.length_map, List.map_map, List.take_length]
  congr 2
  refine List.map_congr_left fun p hp => ?_
  exact congrArg (· + 1) (h.strlen p hp)

theorem Tells.served (h : Tells c m args) : AllServed c (Sys.argvBytes c) := by
  intro x hx
  rcases List.mem_append.mp hx with hx | hx
  · obtain ⟨i, hi, hx⟩ := List.mem_flatMap.mp hx
    obtain ⟨j, hj, rfl⟩ := Sys.mem_span.mp hx
    rw [List.mem_range, h.argv, List.length_map] at hi
    have hthrough := user_ok.mp (h.passed.readable i (Nat.le_of_lt_succ hi) j hj)
    rw [four_mul_ofNat] at hthrough
    have hat : c.argp + BitVec.ofNat 32 (4 * (i + 1)) = c.argp + 4#32 + BitVec.ofNat 32 (4 * i) := by
      rw [Nat.mul_add, Nat.add_comm, ← add_ofNat]
    rwa [hat]
  · obtain ⟨a, ha, hx⟩ := List.mem_flatMap.mp hx
    rw [h.argv] at ha
    obtain ⟨p, hp, rfl⟩ := List.mem_map.mp ha
    obtain ⟨j, hj, rfl⟩ := Sys.mem_span.mp hx
    rw [h.strlen p hp] at hj
    exact user_ok.mp (h.passed.served p hp j hj)

/-- A run with the loops is one with the block made in one step. -/
theorem execAt_in_exec {start : Word} (h : Tells c s.bus.mem args)
    (hsize : total args + 2 ^ 31 + 32 < (userStack g).toNat)
    (hkernel : start.toNat + total args ≤ 2 ^ 31)
    (P : Apart ⟨start, BitVec.ofNat 32 (total args)⟩ (c.argp + 4#32) args)
    (hroom : room (blockSize c) = true)
    (hsegments : ∀ i < (header d).phentnum.toNat, (programHeader d (header d) i).type = 1 →
      Complete d (programHeader d (header d) i) ∧ SegmentFree g d (programHeader d (header d) i)) :
    wp (execAt g c.refused start (c.argp + 4#32) d)
      (fun r s' => ∃ s₁, exec g c room d s = .ok r s₁ ∧ s₁.bus.mem = s'.bus.mem)
      (fun l s' => ∀ entry esp, l = .user entry esp →
        ∃ s₁, exec g c room d s = .error (.user entry esp) s₁ ∧
          ∀ x, ¬InBlock ⟨start, blockSize c⟩ esp x → ¬Buffer.Has ⟨start, blockSize c⟩ x →
            s'.bus.mem x = s₁.bus.mem x) s := by
  have hstack := (userStack g).isLt
  have hblock : blockSize c = BitVec.ofNat 32 (total args) := congrArg _ h.argSize
  have htotal : (BitVec.ofNat 32 (total args)).toNat = total args := by
    rw [BitVec.toNat_ofNat]
    omega
  have hsmall : Sys.argSize c < 2 ^ 31 := by
    rw [h.argSize]
    omega
  have hapart : ∀ i < (header d).phentnum.toNat, (programHeader d (header d) i).type = 1 →
      ∀ x, InSegment d (programHeader d (header d) i) x →
        ¬Buffer.Has ⟨start, BitVec.ofNat 32 (total args)⟩ x := by
    intro i hi htype x hx
    have hno := segmentFree_iff.mp (hsegments i hi htype).2 x hx
    refine not_has_high (by rwa [htotal]) ?_
    unfold Sys.Buffers.Protected at hno
    omega
  have hexec : wp (exec g c room d) (fun r s' => r = Sys.failed ∧ s' = s ∧
      AllServed c (Sys.argvBytes c) ∧ ¬Accepted d) (ExecLeaves g c room d s) s := wp_exec
  unfold wp at hexec
  refine wp_mono (wp_execAt h.passed hsize hkernel P hapart) (fun r s' hr => ?_)
    fun l s' hl entry esp hu => ?_
  · obtain ⟨rfl, hno, hmem⟩ := hr
    cases hx : exec g c room d s with
    | ok r s₁ =>
      rw [hx] at hexec
      obtain ⟨rfl, rfl, -⟩ := hexec
      exact ⟨_, rfl, hmem.symm⟩
    | error l s₁ =>
      rw [hx] at hexec
      rcases hexec with ⟨_, _, -, R, -⟩ | ⟨-, hacc⟩
      · exact absurd R.accepted hno
      · exact absurd (hacc h.served).1 hno
  · have B := hl.2 entry esp hu
    -- the block is the one that `InArguments` describes
    have hinside : ∀ x, InArguments c (stack g c) (blockSize c) x →
        InBlock ⟨start, BitVec.ofNat 32 (total args)⟩ esp x := by
      intro x hx
      have hat : stack g c = esp + BitVec.ofNat 32 8 := by
        unfold stack
        rw [hblock]
        exact B.placed.block
      rw [mem_arguments hsmall, hat, h.argSize] at hx
      rcases hx with hx | hx
      · obtain ⟨i, hi, rfl⟩ := Sys.mem_span.mp hx
        refine ⟨8 + i, ?_, (add_ofNat ..)⟩
        show 8 + i < 8 + (BitVec.ofNat 32 (total args)).toNat
        omega
      · obtain ⟨i, hi, rfl⟩ := Sys.mem_span.mp hx
        refine ⟨i, ?_, by rw [BitVec.add_sub_cancel]⟩
        show i < 8 + (BitVec.ofNat 32 (total args)).toNat
        omega
    have hcompletes : Completes g c room d :=
      ⟨hroom, by omega, fun i hi => (B.segments i hi).1, hsegments, fun i hi => (B.segments i hi).2,
        fun x hx => B.served x (hinside x hx)⟩
    cases hx : exec g c room d s with
    | ok r s₁ =>
      rw [hx] at hexec
      exact absurd B.accepted hexec.2.2.2
    | error l s₁ =>
      rw [hx] at hexec
      rcases hexec with ⟨entry', esp', rfl, R, -⟩ | ⟨-, hno⟩
      · have hesp : esp' = esp := by
          rw [R.esp]
          unfold stack
          rw [hblock, B.placed.block, BitVec.add_sub_cancel]
        have hentry : entry' = entry := R.entry.trans B.entry.symm
        subst hesp hentry
        rw [hblock]
        exact ⟨s₁, rfl, fun x hout hhas => (B.mem x hout hhas).trans
          (R.mem x fun hin => hout (hinside x hin)).symm⟩
      · exact absurd hcompletes (hno h.served).2.1

end OsKernel.Elf
