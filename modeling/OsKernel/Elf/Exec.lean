import OsKernel.Elf.Stores

/-!
# Starting a program

`SYS::execl` and `exec` of `sys.cc`, from a file that `Ext2::open` has found, down to the
bytes of the new address space. `Sys/Model.lean` has the same call with its handles and
without the bytes. The arguments of the call, what is in the old memory and where the page
fault handler ends the process are those of a `Sys.Call`; `room` says for which sizes `new
char[..]` finds memory.

`Process::reset` empties the address space and the semaphore table. From there on a call that
does not get to `switchToUser` has nothing to return to.

This version is about failures. What it asks is where a call can end, and what is left then;
so every way to end is there, each with its own `Leave`, and what is not about ending is as
plain as it can be. The argument block is made in one step, as a list of bytes, with the sizes
that `exec` computes. The loops that really make it are in `Elf/Arguments.lean`, where the
question is what the block has in it, and the memory of the process is a flat one.
`Elf/Versions.lean` connects the versions.

`Clean` is what a call should be: it has returned -1 and nothing has changed, or the program has
been started with all its segments in place. `Needs` is what it takes, as a list of conditions
on the call, on the file and on what the page fault handler lets through. `wp_exec` and
`wp_execl` go through the code once and say how each ends; the equivalence is then read off
them in both directions.

Once `read_header` has accepted the file there are five ways out that are neither. Before
`reset`, where one could still return: no memory for the block, and a block whose size has
wrapped. Behind it: a program header that the file does not have, and a segment or a stack at
an address that is refused. And a segment that the file has only a part of is loaded without
complaint; then a program is started, but not that of the file.
-/

set_option autoImplicit false

namespace OsKernel.Elf

open Lib Prog
open Sys (Config Call)
open Sys.Buffers (Protected)
open Block (Device)

/-! ## The pieces

`touchAll` tests all its addresses at once: the first that is refused ends the process, and
nothing is stored between the first and the last of them. What a file holds is asked of its
device, so that a program header can be missing and a segment can be short. -/

/-- Accesses through user addresses. -/
def touchAll (c : Call) (as : List Word) : Exec Unit :=
  if as.any c.refused = true then throw .killed else pure ()

/-- `new char[n]`. -/
def allocate (room : Word → Bool) (n : Word) : Exec Unit :=
  if room n = true then pure () else throw .outOfMemory

/-- Where the strings are in the block of the arguments, the first at `at`. -/
def offsets (c : Call) : Nat → List Word → List Word
  | _, [] => []
  | start, a :: as => BitVec.ofNat 32 start :: offsets c (start + c.strlen a + 1) as

/-- The strings, one behind the other, each with its end. -/
def strings (c : Call) (m : Bytes) : List Byte :=
  c.argv.flatMap fun a => (List.range (c.strlen a + 1)).map fun j => m (a + BitVec.ofNat 32 j)

/-- The block that `exec` puts together on the heap. -/
def argumentBlock (c : Call) (m : Bytes) : List Byte :=
  (offsets c (4 * (c.argv.length + 1)) c.argv ++ [0#32]).flatMap bytesOf ++ strings c m

/-- The size of the argument block, as `exec` computes it. -/
def blockSize (c : Call) : Word := BitVec.ofNat 32 (Sys.argSize c)

/-- The arguments are copied out of the old memory. -/
def copyArguments (c : Call) (room : Word → Bool) : Exec (List Byte) := do
  allocate room (blockSize c)
  touchAll c (c.argv.flatMap (Sys.strBytes c))
  if 2 ^ 32 ≤ Sys.argSize c then throw .overrun
  let s ← get
  pure (argumentBlock c s.bus.mem)

/-- A new address space: user memory reads as zero. -/
def fresh (g : Config) (m : Bytes) : Bytes :=
  fun a => if Protected g a.toNat then m a else 0

/-- `Process::reset`. -/
def reset (g : Config) : Exec Unit :=
  modify fun s => { s with bus := { s.bus with mem := fresh g s.bus.mem }, sdt := Sys.Table.empty }

/-- `*(uint32_t*) a = v`. -/
def poke (a v : Word) : Block.Transfer Unit := Block.put a (fun i => (bytesOf v).getD i 0) 4

/-- `((uint32_t*) esp)[i] += esp`. -/
def relocate (c : Call) (esp : Word) (i : Nat) : Exec Unit := do
  let s ← get
  let a := esp + BitVec.ofNat 32 (4 * i)
  toUser c.refused (poke a (le32 (fun k => s.bus.mem (a + BitVec.ofNat 32 k)) 0 + esp))

/-- `memcpy` and what follows it: the argument block goes to `esp`, two words below it. -/
def pushArguments (c : Call) (esp sz : Word) (block : List Byte) : Exec Unit := do
  toUser c.refused (Block.memcpy esp (fun i => block.getD i 0) sz)
  forI c.argv.length (relocate c esp)
  toUser c.refused (poke (esp - 8#32) (BitVec.ofNat 32 c.argv.length))
  toUser c.refused (poke (esp - 4#32) esp)

/-- `exec(pcb, file, argv)`. -/
def exec (g : Config) (c : Call) (room : Word → Bool) (d : Device) : Exec Word := do
  touchAll c (Sys.argvBytes c)
  match ← readHeader d with
  | none => pure Sys.failed
  | some eh =>
    let block ← copyArguments c room
    reset g
    let entry ← load c.refused d eh
    let esp := Sys.argBlock g (blockSize c)
    pushArguments c esp (blockSize c) block
    throw (.user entry (esp - 8#32))

/-- `SYS::execl`; `file` is what `Ext2::open` returns. -/
def execl (g : Config) (c : Call) (room : Word → Bool) (file : Option Device) : Exec Word := do
  touchAll c (Sys.argBytes c 0)
  touchAll c (Sys.strBytes c (c.args 0))
  match file with
  | none => pure Sys.failed
  | some d => exec g c room d

/-! ## Loading -/

variable {g : Config} {c : Call} {room : Word → Bool} {d : Device} {eh : Header} {s : State}
variable {refused : Word → Bool}

/-- The memory after the first `k` turns of the loop of `ELF::load`. -/
def loaded (d : Device) (eh : Header) : Nat → Bytes → Bytes
  | 0, m => m
  | k + 1, m =>
    if (programHeader d eh k).type = 1 then
      segmentIn d (programHeader d eh k) (loaded d eh k m)
    else loaded d eh k m

/-- No store of the `i`-th segment is refused. -/
def Served (refused : Word → Bool) (d : Device) (eh : Header) (i : Nat) : Prop :=
  (programHeader d eh i).type = 1 → ∀ x, InSegment d (programHeader d eh i) x → refused x = false

theorem not_served {i : Nat} : ¬Served refused d eh i ↔ (programHeader d eh i).type = 1 ∧
    ∃ x, InSegment d (programHeader d eh i) x ∧ refused x = true := by
  unfold Served
  push Not
  simp

/-- The tables are as they were. -/
def SameTables (s s' : State) : Prop := s'.fdt = s.fdt ∧ s'.pdt = s.pdt ∧ s'.sdt = s.sdt

theorem SameTables.trans {s₁ s₂ s₃ : State} (h : SameTables s₁ s₂) (h' : SameTables s₂ s₃) :
    SameTables s₁ s₃ := ⟨h'.1.trans h.1, h'.2.1.trans h.2.1, h'.2.2.trans h.2.2⟩

/-- `ELF::load` gets to its end exactly where it can read and store everything. -/
theorem wp_load :
    wp (load refused d eh)
      (fun entry s' => entry = eh.entry ∧
        (∀ i < eh.phentnum.toNat, Readable d eh i ∧ Served refused d eh i) ∧
        s'.bus.mem = loaded d eh eh.phentnum.toNat s.bus.mem ∧ SameTables s s')
      (fun l _ => (l = .assertion ∧ ∃ i < eh.phentnum.toNat, ¬Readable d eh i) ∨
        (l = .killed ∧ ∃ i < eh.phentnum.toNat, ¬Served refused d eh i)) s := by
  refine wp_seq (wp_forI (I := fun k s' => (∀ i < k, Readable d eh i ∧ Served refused d eh i) ∧
    s'.bus.mem = loaded d eh k s.bus.mem ∧ SameTables s s') (fun k hk s' hs' => ?_)
    ⟨fun i hi => absurd hi (Nat.not_lt_zero i), rfl, rfl, rfl, rfl⟩) fun _ s' hs' => ⟨rfl, hs'⟩
  obtain ⟨hall, hmem, htables⟩ := hs'
  refine wp_mono (wp_loadOne k) (fun _ s₂ h => ?_) fun l s₂ h => ?_
  · obtain ⟨hread, hst⟩ := h
    have hnext : Served refused d eh k → ∀ i < k + 1, Readable d eh i ∧ Served refused d eh i :=
      fun hserved i hi => (Nat.lt_or_eq_of_le (Nat.le_of_lt_succ hi)).elim (hall i) fun he =>
        he ▸ ⟨hread, hserved⟩
    by_cases htype : (programHeader d eh k).type = 1
    · rw [if_pos htype] at hst
      refine ⟨hnext fun _ => hst.served, ?_, htables.trans hst.tables⟩
      unfold loaded
      rw [if_pos htype, hst.mem, hmem]
    · rw [if_neg htype] at hst
      rw [hst]
      refine ⟨hnext fun h => absurd h htype, ?_, htables⟩
      unfold loaded
      rw [if_neg htype, hmem]
  · rcases h with ⟨rfl, hno, -⟩ | ⟨rfl, -, htype, hend⟩
    · exact .inl ⟨rfl, k, hk, hno⟩
    · refine .inr ⟨rfl, k, hk, fun h => ?_⟩
      obtain ⟨x, hx, hr, -⟩ := hend.hit
      rw [h htype x hx] at hr
      cases hr

/-! ## The argument block -/

/-- What `pushArguments` stores to. -/
def InArguments (c : Call) (esp sz x : Word) : Prop :=
  (∃ i < Sys.zeros sz, x = esp + BitVec.ofNat 32 i) ∨
  (∃ i < 4 * c.argv.length, x = esp + BitVec.ofNat 32 i) ∨
  ∃ i < 8, x = esp - 8#32 + BitVec.ofNat 32 i

/-- Stores within the argument block that were served, so far. -/
structure Pushed (c : Call) (esp sz : Word) (s s' : State) : Prop where
  mem : ∀ x, ¬InArguments c esp sz x → s'.bus.mem x = s.bus.mem x
  tables : SameTables s s'

/-- One more store of the argument block. -/
theorem wp_push {esp sz v : Word} {k : Nat} {f : Nat → Byte} {s' : State}
    {Q : Unit → State → Prop} {E : Leave → State → Prop} (hs : Pushed c esp sz s s')
    (hin : ∀ i < k, InArguments c esp sz (v + BitVec.ofNat 32 i))
    (hok : (∀ i < k, c.refused (v + BitVec.ofNat 32 i) = false) →
      ∀ s₂, Pushed c esp sz s s₂ → Q () s₂)
    (hkill : (∃ x, InArguments c esp sz x ∧ c.refused x = true) → ∀ s₂, E .killed s₂) :
    wp (toUser c.refused (Block.put v f k)) Q E s' := by
  refine wp_toUser_put (fun hserved => ?_) fun hhit => ?_
  · refine hok hserved _ ⟨fun x hx => ?_, hs.tables⟩
    rw [← hs.mem x hx]
    refine overlay_off fun i hi he => hx ?_
    rw [he]
    exact hin i hi
  · obtain ⟨i, hi, hr⟩ := hhit
    exact hkill ⟨_, hin i hi, hr⟩ _

/-- The word above another one. -/
theorem next_word (esp : Word) (k : Nat) :
    esp - 4#32 + BitVec.ofNat 32 k = esp - 8#32 + BitVec.ofNat 32 (4 + k) := by
  have h : esp - 4#32 = esp - 8#32 + 4#32 := by
    rw [BitVec.sub_eq_add_neg, BitVec.sub_eq_add_neg, BitVec.add_assoc]
    rfl
  rw [h, BitVec.add_assoc, BitVec.ofNat_add]

/-- The argument block is stored in place, unless one of its addresses is refused. -/
theorem wp_pushArguments {esp sz : Word} {block : List Byte} :
    wp (pushArguments c esp sz block)
      (fun _ s' => Pushed c esp sz s s' ∧ ∀ x, InArguments c esp sz x → c.refused x = false)
      (fun l _ => l = .killed ∧ ∃ x, InArguments c esp sz x ∧ c.refused x = true) s := by
  have hkill : (∃ x, InArguments c esp sz x ∧ c.refused x = true) → ∀ s₂ : State,
      (Leave.killed = .killed ∧ ∃ x, InArguments c esp sz x ∧ c.refused x = true) :=
    fun h _ => ⟨rfl, h⟩
  unfold pushArguments
  rw [wp_bind]
  refine wp_push ⟨fun _ _ => rfl, rfl, rfl, rfl⟩
    (fun i hi => .inl ⟨i, hi, rfl⟩) (fun hblock s₁ hs₁ => ?_) hkill
  refine wp_seq (wp_forI (I := fun k s' => Pushed c esp sz s s' ∧
    ∀ j < 4 * k, c.refused (esp + BitVec.ofNat 32 j) = false) (fun k hk s' hs' => ?_)
    ⟨hs₁, fun j hj => absurd hj (Nat.not_lt_zero j)⟩) fun _ s₂ hs₂ => ?_
  · have hat : ∀ j, esp + BitVec.ofNat 32 (4 * k) + BitVec.ofNat 32 j =
        esp + BitVec.ofNat 32 (4 * k + j) := by
      intro j
      rw [BitVec.add_assoc, ← BitVec.ofNat_add]
    refine wp_push hs'.1 (fun j hj => ?_) (fun hserved s₃ hs₃ => ⟨hs₃, fun j hj => ?_⟩) hkill
    · rw [hat]
      exact .inr (.inl ⟨4 * k + j, by omega, rfl⟩)
    · by_cases hlt : j < 4 * k
      · exact hs'.2 j hlt
      · have hj' := hserved (j - 4 * k) (by omega)
        rwa [hat, Nat.add_sub_cancel' (Nat.not_lt.mp hlt)] at hj'
  · rw [wp_bind]
    refine wp_push hs₂.1 (fun j hj => .inr (.inr ⟨j, by omega, rfl⟩)) (fun hlow s₃ hs₃ => ?_) hkill
    refine wp_push hs₃ (fun j hj => ?_) (fun hhigh s₄ hs₄ => ⟨hs₄, fun x hx => ?_⟩) hkill
    · rw [next_word]
      exact .inr (.inr ⟨4 + j, by omega, rfl⟩)
    · rcases hx with ⟨j, hj, rfl⟩ | ⟨j, hj, rfl⟩ | ⟨j, hj, rfl⟩
      · exact hblock j hj
      · exact hs₂.2 j hj
      · by_cases hlt : j < 4
        · exact hlow j hlt
        · have hj' := hhigh (j - 4) (by omega)
          rwa [next_word, Nat.add_sub_cancel' (Nat.not_lt.mp hlt)] at hj'

/-! ## The call

`Needs` is what a call of `execl` needs from the file, the heap and the addresses that its stores
go to, and `Clean` is what is asked of the outcome. `exec` clears the address space before
the first segment is loaded, and nothing that goes wrong later can be taken back; so a call that
lacks something is clean exactly if this shows before. -/

/-- None of the addresses is refused. -/
def AllServed (c : Call) (as : List Word) : Prop := ∀ a ∈ as, c.refused a = false

theorem wp_touchAll {as : List Word} {Q : Unit → State → Prop} {E : Leave → State → Prop}
    (hok : AllServed c as → Q () s) (hkill : ¬AllServed c as → E .killed s) :
    wp (touchAll c as) Q E s := by
  unfold touchAll
  split
  · rename_i h
    obtain ⟨a, ha, hr⟩ := List.any_eq_true.mp h
    refine hkill fun hall => ?_
    rw [hall a ha] at hr
    cases hr
  · rename_i h
    refine hok fun a ha => ?_
    exact Bool.eq_false_iff.mpr fun hr => h (List.any_eq_true.mpr ⟨a, ha, hr⟩)

/-- All bytes of a segment are there, and all its zeros. -/
structure Complete (d : Device) (ph : ProgramHeader) : Prop where
  file : fileBytes d ph = ph.filesize.toNat
  zeros : zeroBytes ph = ph.memsize.toNat - ph.filesize.toNat

/-- The memory with the first `k` of the `PT_LOAD` segments in it. -/
def image (d : Device) (eh : Header) : Nat → Bytes → Bytes
  | 0, m => m
  | k + 1, m =>
    let ph := programHeader d eh k
    if ph.type = 1 then
      overlay (overlay (image d eh k m) ph.vaddr ph.filesize.toNat fun i =>
        d.content (ph.offset.toNat + i)) (ph.vaddr + ph.filesize)
        (ph.memsize.toNat - ph.filesize.toNat) fun _ => 0
    else image d eh k m

theorem loaded_eq_image {m : Bytes} : ∀ {k : Nat}, (∀ i < k, (programHeader d eh i).type = 1 →
    Complete d (programHeader d eh i)) → loaded d eh k m = image d eh k m := by
  intro k
  induction k with
  | zero => exact fun _ => rfl
  | succ k ih =>
    intro h
    have hk := ih fun i hi => h i (Nat.lt_succ_of_lt hi)
    unfold loaded image
    rw [hk]
    by_cases htype : (programHeader d eh k).type = 1
    · have hc := h k (Nat.lt_succ_self k) htype
      simp only [if_pos htype]
      unfold segmentIn
      rw [hc.file, hc.zeros]
    · simp only [if_neg htype]

/-- Where the argument block is. -/
def stack (g : Config) (c : Call) : Word := Sys.argBlock g (blockSize c)

/-- The program has been started: every segment is in the new memory, below the arguments. -/
structure Started (g : Config) (c : Call) (d : Device) (s s' : State) (entry : Word) : Prop where
  entry : entry = (header d).entry
  segments : ∀ i < (header d).phentnum.toNat, (programHeader d (header d) i).type = 1 →
    Complete d (programHeader d (header d) i) ∧ SegmentFree g d (programHeader d (header d) i)
  mem : ∀ x, ¬InArguments c (stack g c) (blockSize c) x →
    s'.bus.mem x = image d (header d) (header d).phentnum.toNat (fresh g s.bus.mem) x

/-- The call fails with everything as it was, or starts the program. -/
def Clean (g : Config) (c : Call) (room : Word → Bool) (file : Option Device) (s : State) : Prop :=
  (∃ s', execl g c room file s = .ok Sys.failed s' ∧ s'.bus.mem = s.bus.mem ∧ SameTables s s') ∨
  ∃ d, file = some d ∧ ∃ entry esp s', execl g c room file s = .error (.user entry esp) s' ∧
    Started g c d s s' entry

/-- What a call needs once `read_header` has accepted the file. -/
structure Completes (g : Config) (c : Call) (room : Word → Bool) (d : Device) : Prop where
  room : room (blockSize c) = true
  fits : Sys.argSize c < 2 ^ 32
  readable : ∀ i < (header d).phentnum.toNat, Readable d (header d) i
  segments : ∀ i < (header d).phentnum.toNat, (programHeader d (header d) i).type = 1 →
    Complete d (programHeader d (header d) i) ∧ SegmentFree g d (programHeader d (header d) i)
  served : ∀ i < (header d).phentnum.toNat, Served c.refused d (header d) i
  arguments : ∀ x, InArguments c (stack g c) (blockSize c) x → c.refused x = false

/-- What a call needs. -/
structure Needs (g : Config) (c : Call) (room : Word → Bool) (file : Option Device) : Prop where
  path : AllServed c (Sys.argBytes c 0) ∧ AllServed c (Sys.strBytes c (c.args 0))
  argv : ∀ d, file = some d → AllServed c (Sys.argvBytes c)
  completes : ∀ d, file = some d → Accepted d → Completes g c room d

/-- An address that is stored to for the program. -/
def Stored (g : Config) (c : Call) (d : Device) (x : Word) : Prop :=
  (∃ i < (header d).phentnum.toNat, (programHeader d (header d) i).type = 1 ∧
    InSegment d (programHeader d (header d) i) x) ∨ InArguments c (stack g c) (blockSize c) x

/-- The program has been reached: what is not among its arguments is what was loaded. -/
structure Reaches (g : Config) (c : Call) (d : Device) (s s' : State) (entry esp : Word) : Prop where
  entry : entry = (header d).entry
  esp : esp = stack g c - 8#32
  argv : AllServed c (Sys.argvBytes c)
  accepted : Accepted d
  served : ∀ x, Stored g c d x → c.refused x = false
  mem : ∀ x, ¬InArguments c (stack g c) (blockSize c) x →
    s'.bus.mem x = loaded d (header d) (header d).phentnum.toNat (fresh g s.bus.mem) x
  tables : s'.fdt = s.fdt ∧ s'.pdt = s.pdt ∧ s'.sdt = Sys.Table.empty

/-- How `exec` ends if it does not return. -/
def ExecLeaves (g : Config) (c : Call) (room : Word → Bool) (d : Device) (s : State) (l : Leave)
    (s' : State) : Prop :=
  (∃ entry esp, l = .user entry esp ∧ Reaches g c d s s' entry esp ∧
    ((∀ i < (header d).phentnum.toNat, (programHeader d (header d) i).type = 1 →
      Complete d (programHeader d (header d) i) ∧ SegmentFree g d (programHeader d (header d) i)) →
        Completes g c room d)) ∨
  ((∀ entry esp, l ≠ .user entry esp) ∧
    (AllServed c (Sys.argvBytes c) → Accepted d ∧ ¬Completes g c room d ∧
      (l = .killed → ∃ x, Stored g c d x ∧ c.refused x = true)))

theorem strings_served (h : AllServed c (Sys.argvBytes c)) :
    AllServed c (c.argv.flatMap (Sys.strBytes c)) :=
  fun a ha => h a (List.mem_append_right _ ha)

/-- The arguments are copied if there is room and they fit. -/
theorem wp_copyArguments (h : AllServed c (Sys.argvBytes c)) :
    wp (copyArguments c room)
      (fun _ s' => s' = s ∧ room (blockSize c) = true ∧ Sys.argSize c < 2 ^ 32)
      (fun l _ => (l = .outOfMemory ∨ l = .overrun) ∧
        ¬(room (blockSize c) = true ∧ Sys.argSize c < 2 ^ 32)) s := by
  unfold copyArguments allocate
  by_cases hroom : room (blockSize c) = true
  case neg =>
    rw [if_neg hroom]
    exact ⟨.inl rfl, fun h => hroom h.1⟩
  rw [if_pos hroom, wp_bind, wp_pure, wp_bind]
  refine wp_touchAll (fun _ => ?_) fun hno => absurd (strings_served h) hno
  by_cases hfits : 2 ^ 32 ≤ Sys.argSize c
  · rw [if_pos hfits]
    exact ⟨.inr rfl, fun h => absurd h.2 (Nat.not_lt.mpr hfits)⟩
  · rw [if_neg hfits]
    exact ⟨rfl, hroom, Nat.not_le.mp hfits⟩

theorem wp_exec :
    wp (exec g c room d) (fun r s' => r = Sys.failed ∧ s' = s ∧
      AllServed c (Sys.argvBytes c) ∧ ¬Accepted d) (ExecLeaves g c room d s) s := by
  unfold exec
  rw [wp_bind]
  refine wp_touchAll (fun hargv => ?_) fun hno =>
    .inr ⟨fun _ _ h => by (cases h), fun h => absurd h hno⟩
  refine wp_seq (wp_mono wp_readHeader (fun _ _ h => h) fun _ _ h => h.elim) fun r s₁ h => ?_
  obtain ⟨rfl, hsome, hnone⟩ := h
  cases r with
  | none => exact ⟨rfl, rfl, hargv, hnone rfl⟩
  | some eh =>
    obtain ⟨rfl, hacc⟩ := hsome eh rfl
    have stops : ∀ {l : Leave} {s' : State}, (∀ entry esp, l ≠ .user entry esp) →
        ¬Completes g c room d → (l = .killed → ∃ x, Stored g c d x ∧ c.refused x = true) →
        ExecLeaves g c room d s₁ l s' :=
      fun hl hno hkill => .inr ⟨hl, fun _ => ⟨hacc, hno, hkill⟩⟩
    simp only
    rw [wp_bind]
    refine wp_mono (wp_copyArguments hargv) (fun block s₂ h => ?_) fun l s₂ h => ?_
    case refine_2 =>
      obtain ⟨hl, hno⟩ := h
      refine stops ?_ (fun hc => hno ⟨hc.room, hc.fits⟩) ?_ <;> rcases hl with rfl | rfl <;> nofun
    obtain ⟨rfl, hroom, hfits⟩ := h
    rw [reset, wp_bind, wp_modify, wp_bind]
    refine wp_mono wp_load (fun entry s₃ h => ?_) fun l s₃ h => ?_
    case refine_2 =>
      obtain ⟨rfl, i, hi, hno⟩ | ⟨rfl, i, hi, hno⟩ := h
      · exact stops nofun (fun hc => hno (hc.readable i hi)) nofun
      · refine stops nofun (fun hc => hno (hc.served i hi)) fun _ => ?_
        obtain ⟨htype, x, hx, hr⟩ := not_served.mp hno
        exact ⟨x, .inl ⟨i, hi, htype, hx⟩, hr⟩
    obtain ⟨hentry, hall, hmem, htables⟩ := h
    rw [wp_bind]
    refine wp_mono wp_pushArguments (fun _ s₄ h => ?_) fun l s₄ h => ?_
    case refine_2 =>
      obtain ⟨rfl, x, hx, hr⟩ := h
      refine stops nofun (fun hc => ?_) fun _ => ⟨x, .inr hx, hr⟩
      rw [hc.arguments x hx] at hr
      cases hr
    obtain ⟨hpushed, hserved⟩ := h
    have hreaches : Reaches g c d s₂ s₄ entry (stack g c - 8#32) := by
      refine ⟨hentry, rfl, hargv, hacc, ?_, fun x hx => ?_, htables.trans hpushed.tables⟩
      · rintro x (⟨i, hi, htype, hx⟩ | hx)
        · exact (hall i hi).2 htype x hx
        · exact hserved x hx
      · rw [hpushed.mem x hx, hmem]
    refine .inl ⟨entry, _, rfl, hreaches, fun hsegments => ?_⟩
    exact ⟨hroom, hfits, fun i hi => (hall i hi).1, hsegments, fun i hi => (hall i hi).2, hserved⟩

/-- How `execl` ends: it fails and nothing has changed, or it is left as `exec` is. -/
theorem wp_execl {file : Option Device} :
    wp (execl g c room file)
      (fun r s' => r = Sys.failed ∧ s' = s ∧ AllServed c (Sys.argBytes c 0) ∧
        AllServed c (Sys.strBytes c (c.args 0)) ∧
        ∀ d, file = some d → AllServed c (Sys.argvBytes c) ∧ ¬Accepted d)
      (fun l s' => (∃ d, file = some d ∧ AllServed c (Sys.argBytes c 0) ∧
        AllServed c (Sys.strBytes c (c.args 0)) ∧ ExecLeaves g c room d s l s') ∨
        ((∀ entry esp, l ≠ .user entry esp) ∧
          ¬(AllServed c (Sys.argBytes c 0) ∧ AllServed c (Sys.strBytes c (c.args 0))))) s := by
  unfold execl
  rw [wp_bind]
  refine wp_touchAll (fun hargs => ?_) fun hno =>
    .inr ⟨fun _ _ h => by (cases h), fun h => hno h.1⟩
  rw [wp_bind]
  refine wp_touchAll (fun hpath => ?_) fun hno =>
    .inr ⟨fun _ _ h => by (cases h), fun h => hno h.2⟩
  cases file with
  | none => exact ⟨rfl, rfl, hargs, hpath, fun d h => by cases h⟩
  | some d =>
    refine wp_mono wp_exec (fun r s' h => ?_) fun l s' h => .inl ⟨d, rfl, hargs, hpath, h⟩
    obtain ⟨hr, hs, hargv, hno⟩ := h
    exact ⟨hr, hs, hargs, hpath, fun d' h => by cases h; exact ⟨hargv, hno⟩⟩

/-- A call that has ended well had what it needs. -/
theorem Clean.needs {file : Option Device} (h : Clean g c room file s) : Needs g c room file := by
  rcases h with ⟨s', hrun, -, -⟩ | ⟨d, rfl, entry, esp, s', hrun, hstarted⟩
  · obtain ⟨-, -, hargs, hpath, hfile⟩ := wp_ok wp_execl hrun
    exact ⟨⟨hargs, hpath⟩, fun d hd => (hfile d hd).1, fun d hd hacc => absurd hacc (hfile d hd).2⟩
  · rcases wp_error wp_execl hrun with ⟨d', hd, hargs, hpath, hleaves⟩ | ⟨hno, -⟩
    · cases hd
      rcases hleaves with ⟨_, _, -, hreaches, hall⟩ | ⟨hno, -⟩
      · exact ⟨⟨hargs, hpath⟩, fun d' h => by (cases h; exact hreaches.argv),
          fun d' h _ => by cases h; exact hall hstarted.segments⟩
      · exact absurd rfl (hno entry esp)
    · exact absurd rfl (hno entry esp)

theorem Needs.clean {file : Option Device} (h : Needs g c room file) : Clean g c room file s := by
  have hrun : wp (execl g c room file) _ _ s := wp_execl
  unfold wp at hrun
  cases hx : execl g c room file s with
  | ok r s' =>
    rw [hx] at hrun
    obtain ⟨rfl, rfl, -⟩ := hrun
    exact .inl ⟨s', hx, rfl, rfl, rfl, rfl⟩
  | error l s' =>
    rw [hx] at hrun
    rcases hrun with ⟨d, rfl, -, -, hleaves⟩ | ⟨-, hno⟩
    · rcases hleaves with ⟨entry, esp, rfl, hreaches, -⟩ | ⟨-, hno⟩
      · have hsegments := (h.completes d rfl hreaches.accepted).segments
        refine .inr ⟨d, rfl, entry, esp, s', hx, hreaches.entry, hsegments, fun x hx => ?_⟩
        rw [hreaches.mem x hx, loaded_eq_image fun i hi htype => (hsegments i hi htype).1]
      · obtain ⟨hacc, hno, -⟩ := hno (h.argv d rfl)
        exact absurd (h.completes d rfl hacc) hno
    · exact absurd h.path hno

/-- `execl` fails cleanly, or starts the program, exactly where it has what it needs. -/
theorem execl_clean (g : Config) (c : Call) (room : Word → Bool) (file : Option Device)
    (s : State) : Clean g c room file s ↔ Needs g c room file :=
  ⟨Clean.needs, Needs.clean⟩

/-- A call with one argument, at the start of user memory. -/
def plainCall : Call where
  num := 9
  argp := 0x80000000
  args i := if i = 0 then 0x80000010 else if i = 1 then 0x80000010 else 0
  refused _ := false
  strlen _ := 2
  argv := [0x80000010]
  search := []
  found := true
  image _ := none
  size _ := 0

/-- The file ends in its second program header. -/
theorem short_header_halts :
    ¬Clean ⟨0xfee00000, 0xfec00000⟩ plainCall (fun _ => true)
      (some (smallFile 2 0x80000000 4)) noTables := by
  intro h
  have hread := (h.needs.completes _ rfl (by decide)).readable 1 (by decide)
  exact absurd hread (by decide)

end OsKernel.Elf
