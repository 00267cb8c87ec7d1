import OsKernel.Block.ReadAll
import OsKernel.Sys.Rules

/-!
# The buffers of `read` and `write`

The system calls `read` and `write` once more, down to the bytes: `check_range`, the
descriptor object, `read_all` of the file, and the loop of `StdOut::write`. What the handlers
do with their arguments and handles is in `Sys/Model.lean`; here the arguments have been read.
The pages of the buffer are there: at the addresses that `check_range` lets through, a page
fault is served.

A `World` keeps what was stored to and what was read through the pointer of the user, beside
the memory itself, because the results are about accesses and not only about what they leave
behind: a store of the byte that was there already would not show in memory, and would still
be one.

The arithmetic is all in `checkRange`, which adds two 32-bit words and compares. The lemmas
about it are in numbers: a range that it lets through does not wrap, begins at `0x80000000` or
above, and is off the two pages of the APICs, if these are not the last page of the address
space, where the end of their own page wraps to 0. `Protected` is the plain statement of what
a user must not touch, and is used again for the loader and for `wait`.

`fdRead_delivers` is what ties this file to `Sys/Model.lean`: the transfer returns what the
handler there returns, and leaves the same offset.
-/

set_option autoImplicit false

namespace OsKernel.Sys.Buffers

open Lib Prog

/-- What a transfer works on. -/
structure World where
  files : Nat → File
  bus : Block.Bus
  /-- the bytes read through the pointer of the user, the latest first -/
  loads : List Word
  /-- what the output stream got, the latest first -/
  output : List Byte

abbrev Transfer := Prog Block.Stop World

/-- A transfer of a block device. -/
def onBus {α : Type} (x : Block.Transfer α) : Transfer α := fun w =>
  match x w.bus with
  | .ok a bus => .ok a { w with bus := bus }
  | .error e bus => .error e { w with bus := bus }

def file (o : Nat) : Transfer File := do
  let w ← get
  pure (w.files o)

def setFile (o : Nat) (f : File) : Transfer Unit :=
  modify fun w => { w with files := Function.update w.files o f }

/-- `io->put(buffer[i])`. -/
def put (buffer : Word) (i : Nat) : Transfer Unit :=
  modify fun w =>
    { w with
      loads := (buffer + BitVec.ofNat 32 i) :: w.loads
      output := w.bus.mem (buffer + BitVec.ofNat 32 i) :: w.output }

/-- `FD::write`. -/
def fdWrite (o : Option Nat) (buffer len : Word) : Transfer Word :=
  match o with
  | none => pure failed
  | some o => do
    match ← file o with
    | .stdOut | .stdErr =>
      forI (if len.msb then 0 else len.toNat) (put buffer)
      pure len
    | .stdIn | .file _ _ => pure failed

/-- `FD::read`; `node` are the open files. -/
def fdRead (node : Nat → Block.Device) (fuel : Nat) (o : Option Nat) (buffer len : Word) :
    Transfer Word :=
  match o with
  | none => pure failed
  | some o => do
    match ← file o with
    | .file n offset =>
      if (node n).size < offset then pure failed
      else
        let cnt ← onBus ((node n).readAll fuel offset len buffer)
        setFile o (.file n ((offset.setWidth 64 + cnt).setWidth 32))
        pure (cnt.setWidth 32)
    | .stdIn | .stdOut | .stdErr => pure failed

/-- `SYS::write`, of the descriptor `des` of a process with the table `fdt`. -/
def write (g : Config) (fdt : Table) (des buffer len : Word) : Transfer Word :=
  if !checkRange g buffer len then pure failed
  else fdWrite (fdt.get typeFd des) buffer len

/-- `SYS::read`. -/
def read (g : Config) (node : Nat → Block.Device) (fuel : Nat) (fdt : Table)
    (des buffer len : Word) : Transfer Word :=
  if !checkRange g buffer len then pure failed
  else fdRead node fuel (fdt.get typeFd des) buffer len

/-! ## The range -/

/-- The address, not wrapped, is one that the user must not have. -/
def Protected (g : Config) (a : Nat) : Prop :=
  a < 2 ^ 31 ∨ 2 ^ 32 ≤ a ∨
    (g.localAPIC.toNat ≤ a ∧ a < g.localAPIC.toNat + 4096) ∨
    (g.ioAPIC.toNat ≤ a ∧ a < g.ioAPIC.toNat + 4096)

variable {g : Config} {b n : Word}

/-- The top page is none of the APICs'. -/
theorem page_end {apic : Word} (h : apic < 0xfffff000#32) :
    (apic + 4096#32).toNat = apic.toNat + 4096 := by
  rw [BitVec.lt_def] at h
  rw [BitVec.toNat_add]
  have hc : (4096#32).toNat = 4096 := rfl
  have hc' : (0xfffff000#32).toNat = 0xfffff000 := rfl
  omega

/-- What `check_range` lets through, in numbers. -/
theorem checkRange_iff (hl : g.localAPIC < 0xfffff000#32) (hi : g.ioAPIC < 0xfffff000#32) :
    checkRange g b n = true ↔
      b.toNat + n.toNat < 2 ^ 32 ∧ 2 ^ 31 ≤ b.toNat ∧
      (b.toNat + n.toNat ≤ g.localAPIC.toNat ∨ g.localAPIC.toNat + 4096 ≤ b.toNat) ∧
      (b.toNat + n.toNat ≤ g.ioAPIC.toNat ∨ g.ioAPIC.toNat + 4096 ≤ b.toNat) := by
  have hb := b.isLt
  have hn := n.isLt
  have hc : (0x80000000#32).toNat = 2 ^ 31 := rfl
  unfold checkRange
  simp only [Bool.and_eq_true, Bool.or_eq_true, decide_eq_true_eq, BitVec.le_def,
    page_end hl, page_end hi, hc, BitVec.toNat_add]
  by_cases hwrap : b.toNat + n.toNat < 2 ^ 32
  · rw [Nat.mod_eq_of_lt hwrap]
    exact ⟨fun ⟨⟨⟨_, h₂⟩, h₃⟩, h₄⟩ => ⟨hwrap, h₂, h₃, h₄⟩,
      fun ⟨_, h₂, h₃, h₄⟩ => ⟨⟨⟨Nat.le_add_right .., h₂⟩, h₃⟩, h₄⟩⟩
  · refine ⟨fun ⟨⟨⟨h₁, _⟩, _⟩, _⟩ => ?_, fun h => absurd h.1 hwrap⟩
    omega

/-- A range with a protected byte is turned down. -/
theorem protected_refused (hl : g.localAPIC < 0xfffff000#32) (hi : g.ioAPIC < 0xfffff000#32)
    (h : ∃ i < n.toNat, Protected g (b.toNat + i)) : checkRange g b n = false := by
  refine Bool.eq_false_iff.mpr fun hok => ?_
  obtain ⟨i, hin, hp⟩ := h
  obtain ⟨h₁, h₂, h₃, h₄⟩ := (checkRange_iff hl hi).mp hok
  unfold Protected at hp
  omega

/-- A length that is let through stays what it is as an `int`. -/
theorem len_not_negative (hl : g.localAPIC < 0xfffff000#32) (hi : g.ioAPIC < 0xfffff000#32)
    (h : checkRange g b n = true) : n.msb = false := by
  obtain ⟨h₁, h₂, -⟩ := (checkRange_iff hl hi).mp h
  rw [BitVec.msb_eq_decide]
  exact decide_eq_false (by omega)

/-! ## The transfers -/

variable {node : Nat → Block.Device} {w : World} {E : Block.Stop → World → Prop}

/-- Only the first `r` bytes from `b` on have changed. -/
def Within (w w' : World) (b : Word) (r : Nat) : Prop :=
  ∀ a, (∀ i < r, a ≠ b + BitVec.ofNat 32 i) → w'.bus.mem a = w.bus.mem a

/-- The loop of `write` reads the bytes of the buffer and puts them out. -/
theorem wp_putAll (k : Nat) :
    wp (forI k (put b)) (fun _ w' => w'.files = w.files ∧ w'.bus = w.bus ∧
      ∀ a ∈ w'.loads, a ∈ w.loads ∨ ∃ i < k, a = b + BitVec.ofNat 32 i) E w := by
  refine wp_forI (I := fun k (w' : World) => w'.files = w.files ∧ w'.bus = w.bus ∧
    ∀ a ∈ w'.loads, a ∈ w.loads ∨ ∃ i < k, a = b + BitVec.ofNat 32 i)
    (fun i _ w' hw => ?_) ⟨rfl, rfl, fun a ha => .inl ha⟩
  obtain ⟨hfiles, hbus, hloads⟩ := hw
  refine ⟨hfiles, hbus, fun a ha => ?_⟩
  rcases List.mem_cons.mp ha with rfl | ha
  · exact .inr ⟨i, Nat.lt_succ_self i, rfl⟩
  · refine (hloads a ha).imp_right ?_
    rintro ⟨j, hj, rfl⟩
    exact ⟨j, Nat.lt_succ_of_lt hj, rfl⟩

/-- `FD::write` reads no more than the buffer, and stores nothing. -/
theorem wp_fdWrite (o : Option Nat) (hn : n.msb = false) :
    wp (fdWrite o b n) (fun _ w' => w'.files = w.files ∧ w'.bus = w.bus ∧
      ∀ a ∈ w'.loads, a ∈ w.loads ∨ ∃ i < n.toNat, a = b + BitVec.ofNat 32 i)
      (fun _ _ => False) w := by
  have hnothing : w.files = w.files ∧ w.bus = w.bus ∧
      ∀ a ∈ w.loads, a ∈ w.loads ∨ ∃ i < n.toNat, a = b + BitVec.ofNat 32 i :=
    ⟨rfl, rfl, fun a ha => .inl ha⟩
  cases o with
  | none => exact hnothing
  | some o =>
    have hput := wp_putAll (b := b) (w := w) (E := fun _ _ => False) n.toNat
    unfold fdWrite
    simp only [file, bind_assoc, pure_bind, wp_bind, wp_get, hn, Bool.false_eq_true, if_false]
    cases w.files o with
    | stdIn => exact hnothing
    | file m offset => exact hnothing
    | stdOut => exact wp_seq (f := fun _ => pure n) hput fun _ _ h => h
    | stdErr => exact wp_seq (f := fun _ => pure n) hput fun _ _ h => h

/-- `read_all` on the bus of the world. -/
theorem wp_onBus_readAll {d : Block.Device} {offset : Word} {fuel : Nat} (hoff : ¬d.size < offset)
    (hfuel : n.toNat < fuel) :
    wp (onBus (d.readAll fuel offset n b)) (fun cnt w' =>
      cnt = BitVec.ofNat 64 (d.available offset n) ∧ w'.files = w.files ∧
      Within w w' b (d.available offset n)) (fun _ _ => False) w := by
  obtain ⟨blocks, stores, hrun, -⟩ := Block.readLoop_spec fuel offset n b 0 w.bus hoff hfuel
  have hrun' : d.readAll fuel offset n b w.bus = _ := hrun
  unfold wp onBus
  rw [hrun']
  refine ⟨BitVec.zero_add _, rfl, fun a ha => ?_⟩
  exact overlay_off (f := fun i => d.content (offset.toNat + i)) ha

/-- `FD::read` stores what it says it has read, or nothing. -/
theorem wp_fdRead (o : Option Nat) {fuel : Nat} (hn : n.msb = false) (hfuel : n.toNat < fuel) :
    wp (fdRead node fuel o b n) (fun r w' => (r = failed ∧ w' = w) ∨
      (r.msb = false ∧ r.toNat ≤ n.toNat ∧ Within w w' b r.toNat)) (fun _ _ => False) w := by
  cases o with
  | none => exact .inl ⟨rfl, rfl⟩
  | some o =>
    unfold fdRead
    simp only [file, bind_assoc, pure_bind, wp_bind, wp_get]
    cases w.files o with
    | stdIn => exact .inl ⟨rfl, rfl⟩
    | stdOut => exact .inl ⟨rfl, rfl⟩
    | stdErr => exact .inl ⟨rfl, rfl⟩
    | file m offset =>
      simp only
      split
      · exact .inl ⟨rfl, rfl⟩
      · rename_i hoff
        refine wp_seq (wp_onBus_readAll hoff hfuel) fun cnt w' hw => ?_
        obtain ⟨rfl, -, hin⟩ := hw
        have hle := Block.available_le (d := node m) offset n
        have hlt := Block.available_lt (d := node m) offset n
        have hr : ((BitVec.ofNat 64 ((node m).available offset n)).setWidth 32).toNat =
            (node m).available offset n := by
          rw [Block.narrow, BitVec.toNat_ofNat, Nat.mod_eq_of_lt hlt]
        rw [BitVec.msb_eq_decide, decide_eq_false_iff_not] at hn
        refine .inr ⟨?_, by rw [hr]; exact hle, by rw [hr]; exact hin⟩
        rw [BitVec.msb_eq_decide, decide_eq_false_iff_not, hr]
        omega

/-- `FD::read` of `Sys/Model.lean` returns what the transfer returns, and leaves the same offsets. -/
theorem fdRead_delivers {c : Call} {p : Nat} {k : Kernel} {o : Option Nat} {fuel : Nat}
    (hfuel : n.toNat < fuel) (hsize : ∀ m, c.size m = (node m).size) (hfiles : k.files = w.files)
    (hserved : ∀ a, c.refused a = false) :
    wp (fdRead node fuel o b n) (fun r w' =>
      wp (Sys.fdRead c p o b n) (fun r' k' => r' = r ∧ k'.files = w'.files) (fun _ _ => False) k)
      (fun _ _ => False) w := by
  cases o with
  | none => exact ⟨rfl, hfiles⟩
  | some o =>
    unfold fdRead Sys.fdRead
    simp only [file, bind_assoc, pure_bind, wp_bind, wp_get, wp_file, hfiles]
    cases w.files o with
    | stdIn => exact ⟨rfl, hfiles⟩
    | stdOut => exact ⟨rfl, hfiles⟩
    | stdErr => exact ⟨rfl, hfiles⟩
    | file m offset =>
      simp only [hsize]
      split
      · exact ⟨rfl, hfiles⟩
      · rename_i hoff
        refine wp_seq (wp_onBus_readAll hoff hfuel) fun cnt w' hw => ?_
        obtain ⟨rfl, hsame, -⟩ := hw
        have hnone : ¬c.refusesOne (span b (delivered (node m).size offset n)) := by
          rintro ⟨a, -, ha⟩
          rw [hserved a] at ha
          cases ha
        show wp _ _ _ k
        simp only [wp_bind, wp_storeAll, if_neg hnone, wp_setFile, wp_pure]
        refine ⟨(Block.narrow _).symm, ?_⟩
        show Function.update k.files o _ = Function.update w'.files o _
        rw [hfiles, hsame, Block.advance]
        rfl

/-! ## The system calls -/

/-- `read` and `write` stay inside a checked user buffer. -/
theorem buffers_checked (g : Config) (hl : g.localAPIC < 0xfffff000#32)
    (hi : g.ioAPIC < 0xfffff000#32) (node : Nat → Block.Device) (fdt : Table) (des b n : Word)
    (w : World) (fuel : Nat) (hfuel : n.toNat < fuel) :
    ((∃ i < n.toNat, Protected g (b.toNat + i)) →
      read g node fuel fdt des b n w = .ok failed w ∧ write g fdt des b n w = .ok failed w) ∧
    (∃ r w', read g node fuel fdt des b n w = .ok r w' ∧
      ((r = failed ∧ w' = w) ∨ (r.msb = false ∧ r.toNat ≤ n.toNat ∧ Within w w' b r.toNat))) ∧
    (∃ r w', write g fdt des b n w = .ok r w' ∧ w'.files = w.files ∧ w'.bus = w.bus ∧
      ∀ a ∈ w'.loads, a ∈ w.loads ∨ ∃ i < n.toNat, a = b + BitVec.ofNat 32 i) ∧
    (checkRange g b n = true → n.msb = false) := by
  refine ⟨fun h => ?_, ?_, ?_, len_not_negative hl hi⟩
  · have hno := protected_refused hl hi h
    unfold read write
    rw [hno]
    exact ⟨rfl, rfl⟩
  · unfold read
    cases hok : checkRange g b n with
    | false => exact ⟨failed, w, rfl, .inl ⟨rfl, rfl⟩⟩
    | true => exact wp_returns (wp_fdRead _ (len_not_negative hl hi hok) hfuel)
  · unfold write
    cases hok : checkRange g b n with
    | false => exact ⟨failed, w, rfl, rfl, rfl, fun a ha => .inl ha⟩
    | true => exact wp_returns (wp_fdWrite _ (len_not_negative hl hi hok))

/-- A buffer that runs into the page of the local APIC, and one that ends before it. -/
theorem buffers_checked_apic :
    let g : Config := ⟨0xfee00000, 0xfec00000⟩
    let w : World := ⟨fun _ => .file 0 300, ⟨fun _ => 0, [], []⟩, [], []⟩
    let fdt : Table := fun _ => some 3
    read g (fun _ => Block.sectors) 4097 fdt 3 0xfedfffff 2 w = .ok failed w ∧
    ∃ r w', read g (fun _ => Block.sectors) 4097 fdt 3 0xfedfff00 256 w = .ok r w' ∧
      ((r = failed ∧ w' = w) ∨ (r.msb = false ∧ r.toNat ≤ 256 ∧ Within w w' 0xfedfff00 r.toNat)) := by
  intro g w fdt
  refine ⟨((buffers_checked g (by decide) (by decide) (fun _ => Block.sectors) fdt 3 0xfedfffff 2 w
    4097 (by decide)).1 ⟨1, by decide, ?_⟩).1, (buffers_checked g (by decide) (by decide)
    (fun _ => Block.sectors) fdt 3 0xfedfff00 256 w 4097 (by decide)).2.1⟩
  exact .inr (.inr (.inl ⟨by decide, by decide⟩))

end OsKernel.Sys.Buffers
