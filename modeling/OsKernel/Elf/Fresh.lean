import OsKernel.Elf.Mirrored

/-!
# A program sees a fresh address space

When `exec` reaches `switchToUser`, the process finds zeros with the segments of the file in
them, and the argument block at the end of its stack; nothing else of what was there, and
nothing of anybody else's. What the other processes find is what they found before.

The block is a copy of a buffer of the kernel. Where the arguments were in the memory of the
process, it has in it what they were.

`Begun` says it, for one run of `exec`, and `exec_fresh` that it holds from every state that
the processes can reach: the state is that of the isolation theorem (`Vmm/Isolation.lean`),
with any number of processes and whatever they have stored and shared, and one of them starts
a program. The rest are pieces: the arguments have been measured, gathered and pushed
(`wp_measured`, `wp_gathered`, `wp_pushed`), each the flat statement carried over by
`Mirrors`, and between them `reset` and the loader from `Elf/Renewed.lean`.

The block is bounded by the kernel's memory, where the buffer was, and so it fits between the
end of memory and the APICs if there is room for that much (`Roomy`). Where memory ends in the
lower half of the address space, the addresses that are not protected are just those of a
process (`user_of_unprotected`); with more memory than that the identity map covers addresses
that the loader takes for the user's, which is what the results about `check_range` and about
isolation run into as well.

That a run comes to `switchToUser` at all is not in the theorem, as it may run out of frames.
The last section evaluates one that does.
-/

set_option autoImplicit false

namespace OsKernel.Elf.Paged

open Lib Prog
open Vmm
open Block (Device)

/-! ## The upper end of user memory

Where the stack is, and that the block on it is in user memory. The lower of the two APIC pages is
the end of the stack, and memory must end well below it for there to be room; `Roomy` says so. -/

/-- What `sys.cc` takes from the configuration. -/
def apics (c : Vmm.Config) : Sys.Config := ⟨c.localAPIC, c.ioAPIC⟩

/-- Between memory and the APICs there is room for as many arguments as the kernel has memory for. -/
def Roomy (c : Vmm.Config) : Prop :=
  max c.memSize.toNat (2 ^ 31) + VMM_FRAMES.toNat + 32 ≤ (userStack (apics c)).toNat

section room

variable {c : Vmm.Config} {va : Word} {u : Buffer} {m : Bytes} {argv : Word}
  {args : List (Word × Nat)} {w : World}

theorem userStack_le (c : Vmm.Config) : (userStack (apics c)).toNat ≤ c.localAPIC.toNat ∧
    (userStack (apics c)).toNat ≤ c.ioAPIC.toNat := by
  unfold userStack apics
  split
  · rename_i h
    rw [BitVec.lt_def] at h
    exact ⟨Nat.le_refl _, Nat.le_of_lt h⟩
  · rename_i h
    rw [BitVec.lt_def] at h
    exact ⟨Nat.not_lt.mp h, Nat.le_refl _⟩

/-- The APICs are not below the end of the stack. -/
theorem not_apic (h : va.toNat < (userStack (apics c)).toNat) :
    va &&& Flag.MASK ≠ c.localAPIC ∧ va &&& Flag.MASK ≠ c.ioAPIC := by
  obtain ⟨hlocal, hio⟩ := userStack_le c
  have hpage : (va &&& Flag.MASK).toNat = va.toNat / 4096 * 4096 := toNat_and_high va
  constructor
  · intro he
    rw [he] at hpage
    omega
  · intro he
    rw [he] at hpage
    omega

theorem user_between (hmem : max c.memSize.toNat (2 ^ 31) ≤ va.toNat)
    (hlt : va.toNat < (userStack (apics c)).toNat) : c.UserAddr va := by
  obtain ⟨hlocal, hio⟩ := not_apic hlt
  refine ⟨?_, ?_⟩
  · rw [BitVec.le_def]
    have h0 : (0x80000000#32 : Word).toNat = 2 ^ 31 := rfl
    omega
  · rintro (hk | hk | hk)
    · omega
    · exact hlocal hk
    · exact hio hk

/-- With memory up to `0x80000000` at most, user memory is all that is not protected. -/
theorem user_of_unprotected (hmem : c.memSize.toNat ≤ 2 ^ 31)
    (h : ¬Sys.Buffers.Protected (apics c) va.toNat) : c.UserAddr va := by
  unfold Sys.Buffers.Protected apics at h
  dsimp only at h
  have hpage : (va &&& Flag.MASK).toNat = va.toNat / 4096 * 4096 := toNat_and_high va
  refine ⟨?_, ?_⟩
  · rw [BitVec.le_def]
    have h0 : (0x80000000#32 : Word).toNat = 2 ^ 31 := rfl
    omega
  · rintro (hk | hk | hk)
    · omega
    · rw [hk] at hpage
      omega
    · rw [hk] at hpage
      omega

theorem Roomy.first (h : Roomy c) (hva : va.toNat < 0x1000) : ¬c.KernelAddr va := by
  have hroom : _ ≤ _ := h
  obtain ⟨hlocal, hio⟩ : va &&& Flag.MASK ≠ c.localAPIC ∧ va &&& Flag.MASK ≠ c.ioAPIC :=
    not_apic (by omega)
  rintro (hk | hk | hk)
  · omega
  · exact hlocal hk
  · exact hio hk

/-- The block lies in user memory. -/
theorem Roomy.block (h : Roomy c) (hu : OnHeap u) :
    Placed (apics c) u.size ((userStack (apics c) - u.size - 8#32) &&& 0xfffffff0#32) ∧
    ∀ i < 8 + u.size.toNat,
      c.UserAddr (((userStack (apics c) - u.size - 8#32) &&& 0xfffffff0#32) + BitVec.ofNat 32 i) := by
  have hroom : _ ≤ _ := h
  have hstack := (userStack (apics c)).isLt
  obtain ⟨hlow, hhigh⟩ := hu
  have P := @placed (apics c) u.size (by omega)
  refine ⟨P, fun i hi => ?_⟩
  have hbelow := P.below
  have h8 : (8#32).toNat = 8 := rfl
  have hsub : (userStack (apics c) - u.size - 8#32).toNat =
      (userStack (apics c)).toNat - u.size.toNat - 8 := by
    rw [BitVec.toNat_sub, BitVec.toNat_sub, h8]
    omega
  have he := toNat_and_sixteen (userStack (apics c) - u.size - 8#32)
  rw [hsub] at he
  have hat := toNat_offset (a := (userStack (apics c) - u.size - 8#32) &&& 0xfffffff0#32) (i := i)
    (by omega)
  exact user_between (by omega) (by omega)

/-- The lower APIC is not the process's. -/
theorem userStack_kernel (hc : c.Valid) : ¬c.UserAddr (userStack (apics c)) := by
  have hmask : ∀ x : Word, Aligned x → x &&& Flag.MASK = x := fun x hx => by
    have hpage : (x &&& Flag.MASK).toNat = x.toNat / 4096 * 4096 := toNat_and_high x
    unfold Aligned at hx
    exact BitVec.eq_of_toNat_eq (by omega)
  intro hu
  refine hu.2 (.inr ?_)
  unfold userStack apics
  split
  · exact .inl (hmask _ hc.localAligned)
  · exact .inr (hmask _ hc.ioAligned)

/-- No string of a process is so long that `memcpy` takes its length for negative. -/
theorem passed_short (hc : c.Valid) (h : Roomy c) (A : Passed (foreign c) m argv args) :
    ∀ p ∈ args, p.2 + 1 < 2 ^ 31 := by
  intro p hp
  by_contra hge
  have hroom : _ ≤ _ := h
  have hserved : ∀ j ≤ p.2, c.UserAddr (p.1 + BitVec.ofNat 32 j) := fun j hj =>
    foreign_ok.mp (A.served p hp j (Nat.lt_succ_of_le hj))
  have hzero := (hserved 0 (Nat.zero_le _)).1
  rw [BitVec.add_zero, BitVec.le_def] at hzero
  have h0 : (0x80000000#32 : Word).toNat = 2 ^ 31 := rfl
  have hlt := p.1.isLt
  -- it would go on to the lower APIC, or around to address 0
  by_cases hle : p.1.toNat ≤ (userStack (apics c)).toNat
  · have hstack := (userStack (apics c)).isLt
    have hin := hserved ((userStack (apics c)).toNat - p.1.toNat) (by omega)
    refine userStack_kernel hc (Eq.mp (congrArg _ ?_) hin)
    rw [← BitVec.toNat_inj, BitVec.toNat_add, BitVec.toNat_ofNat]
    omega
  · have hin := (hserved (2 ^ 32 - p.1.toNat) (by omega)).1
    rw [BitVec.le_def, BitVec.toNat_add, h0] at hin
    rw [BitVec.toNat_ofNat] at hin
    omega

/-- The arguments of a process are in no buffer of the kernel. -/
theorem passed_apart (A : Passed (foreign c) m argv args) (hu : ∀ x, u.Has x → ¬c.UserAddr x) :
    Apart u argv args where
  pointers i hi j hj hin := hu _ hin (foreign_ok.mp (A.readable i hi j hj))
  strings p hp j hj hin := hu _ hin (foreign_ok.mp (A.served p hp j (Nat.lt_succ_of_le hj)))

/-- All that the kernel has, as one buffer. -/
def ownBuffer : Buffer := ⟨0x1000#32, VMM_FRAMES - 0x1000#32⟩

theorem ownBuffer_has {x : Word} : ownBuffer.Has x ↔ Own x := by
  have hframes : VMM_FRAMES.toNat = 6291456 := by decide
  have hsize : ownBuffer.size.toNat = 6287360 := by decide
  have hstart : ownBuffer.start.toNat = 4096 := by decide
  have hlt := x.isLt
  unfold Buffer.Has Own
  rw [BitVec.toNat_sub]
  omega

/-- With what the kernel has in it, the memory still has the arguments. -/
theorem passed_joined (A : Passed (foreign c) m argv args) :
    Passed (foreign c) (joined m w) argv args :=
  A.framed (u := ownBuffer) (passed_apart A fun _ hx => (ownBuffer_has.mp hx).not_user)
    fun _ hx => if_neg fun hown => hx (ownBuffer_has.mpr hown)

end room

/-! ## The program is started

The stages of `exec` put together: measured, gathered, cleared, loaded, pushed. Each says what the
process finds in its memory afterwards, as bytes at addresses, and the tables and frames behind
are not mentioned again. -/

section start

variable {c : Vmm.Config} {m m' f f₁ f₂ : Bytes} {w : World} {u : Buffer} {argc : Nat}
  {e argv : Word} {d : Device} {args : List (Word × Nat)} {T : Setting}

/-- Only the block counts. -/
theorem onStack_congr (S : OnStack u argc f e m) (hfit : 4 * (argc + 1) ≤ u.size.toNat)
    (h : ∀ i < 8 + u.size.toNat, seen m' e i = seen m e i) : OnStack u argc f e m' where
  relocated :=
    { done := fun k hk => (le32_eq fun j hj => h _ (by omega)).trans (S.relocated.done k hk)
      rest := fun k hk hge => (h _ (by omega)).trans (S.relocated.rest k hk hge) }
  argc := (le32_eq fun j hj => h _ (by omega)).trans S.argc
  argv := (le32_eq fun j hj => h _ (by omega)).trans S.argv

/-- The arguments have arrived from the memory `m` of the process. -/
theorem onStack_arrived (S : OnStack u args.length f₂ e m') (G : Gathered u args f f₁)
    (P : Placed (apics c) u.size e) (hsize : u.size = BitVec.ofNat 32 (total args))
    (hkernel : ∀ x, Own x → f₁ x = f₂ x) (hu : OnHeap u) (A : Passed (foreign c) m argv args)
    (hsame : ∀ x, c.UserAddr x → f x = m x) : Arrived (apics c) m args m' e := by
  have hfits := G.fits
  have hmod : total args % 2 ^ 32 ≤ total args := Nat.mod_le ..
  have hnat := congrArg BitVec.toNat hsize
  rw [BitVec.toNat_ofNat] at hnat
  have hbuffer : ∀ k < u.size.toNat, seen f₂ u.start k = seen f₁ u.start k := fun k hk =>
    (hkernel _ (hu.own ((has_offset u (Nat.lt_trans hk u.size.isLt)).mpr hk))).symm
  have harrived := S.arrived G P (by omega) hbuffer
  exact { harrived with
    copies := fun i hi j hj => (harrived.copies i hi j hj).trans
      (hsame _ (foreign_ok.mp (A.served _ (List.getElem_mem hi) j (Nat.lt_succ_of_le hj)))) }

/-- What a program finds that has been started by a process that found `m` before. -/
structure Begun (c : Vmm.Config) (d : Device) (m : Bytes) (argv pd entry esp : Word) (w : World) :
    Prop where
  accepted : Accepted d
  entry : entry = (header d).entry
  /-- At the end of the stack there is what was in a buffer of the kernel, and everywhere else zeros with
  the segments in them. -/
  memory : ∃ (u : Buffer) (argc : Nat) (k : Bytes), OnHeap u ∧ 4 * (argc + 1) ≤ u.size.toNat ∧
    Placed (apics c) u.size esp ∧ OnStack u argc k esp (shows w.machine pd) ∧
    ∀ x, c.UserAddr x → ¬InBlock u esp x → shows w.machine pd x =
      loaded d (header d) (header d).phentnum.toNat (fun _ => 0) x
  /-- That is what the program was to be told, if it was in the process's memory. -/
  arguments : ∀ args, Passed (foreign c) m argv args →
    Arrived (apics c) m args (shows w.machine pd) esp
  /-- What the tables show is what the program reads. -/
  reads : ∀ x, c.UserAddr x → wp (loadByte true x) (fun b _ => b = shows w.machine pd x)
    (fun e _ => e.Starved) w

section phases

variable (hroom : Roomy T.config)

include hroom

/-- The arguments have been measured. -/
theorem wp_measured (H : Holds T m w.machine) :
    wp (measure argv)
      (fun r w' => (Holds T m w'.machine ∧ ∃ k < 2 ^ 30, r.1 = BitVec.ofNat 32 k) ∧
        ∀ A : { args // Passed (foreign T.config) m argv args }, (r.1 = BitVec.ofNat 32 A.1.length ∧
          ∀ start, Buffer.make start r.1 r.2 = ⟨start, BitVec.ofNat 32 (total A.1)⟩) ∧
        Flat T w' (joined m w))
      (fun e _ => e.NotStarted) w := by
  refine wp_mono (wp_and (wp_measure (fun _ => hroom.first) argv H) (wp_forall fun A => ?_))
    (fun _ _ h => h) fun _ _ h => h.1
  refine wp_mono ((mirrors_measure argv).transfer H.flat (Elf.wp_measure (passed_joined A.2))
    fun _ _ hf => hf.elim) (fun r w' h => ?_) fun _ _ _ => trivial
  obtain ⟨f, ⟨hlen, rfl, hmake⟩, F⟩ := h
  exact ⟨⟨hlen, hmake⟩, F⟩

/-- The arguments have been gathered. -/
theorem wp_gathered (hu : OnHeap u) (hargc : argc < 2 ^ 30)
    (hpassed : ∀ A : { args // Passed (foreign T.config) m argv args }, argc = A.1.length ∧
      Passed (foreign T.config) f argv A.1 ∧ Flat T w f)
    (H : Holds T m w.machine) :
    wp (gather u argv (BitVec.ofNat 32 argc))
      (fun _ w' => (Holds T m w'.machine ∧ 4 * (argc + 1) ≤ u.size.toNat) ∧
        ∀ A : { args // Passed (foreign T.config) m argv args }, ∃ f₁, Gathered u A.1 f f₁ ∧
          Flat T w' f₁)
      (fun e _ => e.NotStarted) w := by
  refine wp_mono (wp_and (wp_gather hu argv hargc H) (wp_forall fun A => ?_))
    (fun _ _ h => h) fun _ _ h => h.1
  obtain ⟨rfl, Af, F⟩ := hpassed A
  have hapart : Apart u argv A.1 := passed_apart A.2 fun x hx => (hu.own hx).not_user
  refine wp_mono ((mirrors_gather hu argv _).transfer F
    (Elf.wp_gather Af hapart (.inr (passed_short T.valid hroom A.2))) fun l _ hl hgiven => ?_)
    (fun _ w' h => h) fun _ _ _ => trivial
  obtain ⟨rfl, -⟩ := hl
  rcases hgiven with h | h <;> cases h

/-- The block is on the stack. -/
theorem wp_pushed (hu : OnHeap u) (hfit : 4 * (argc + 1) ≤ u.size.toNat)
    (H : Holds T m w.machine) :
    wp (push (apics T.config) u (BitVec.ofNat 32 argc))
      (fun r w' => Placed (apics T.config) u.size r ∧ (∀ i < 8 + u.size.toNat,
          T.config.UserAddr (r + BitVec.ofNat 32 i)) ∧
        ∃ f, Holds T f w'.machine ∧ OnStack u argc (joined m w) r f ∧
          ∀ x, ¬InBlock u r x → f x = joined m w x)
      (fun e _ => e.NotStarted) w := by
  obtain ⟨P, hblock⟩ := hroom.block hu
  have hframes : VMM_FRAMES.toNat = 6291456 := by decide
  have hkernel : u.start.toNat + u.size.toNat ≤ 2 ^ 31 := by
    have hhigh := hu.2
    omega
  have hflat : wp (Elf.push (apics T.config) everywhere u (BitVec.ofNat 32 argc)) _ _ (joined m w) :=
    wp_and (wp_pushBuffer P hfit hkernel) (outside_push P hfit (joined m w) fun _ _ => rfl)
  refine wp_mono ((mirrors_push (G := fun _ => False) P hu hfit hblock).transfer H.flat hflat
    fun _ _ _ hf => hf) (fun r w' h => ?_) fun _ _ he => he
  obtain ⟨f, ⟨⟨rfl, hstack, -⟩, hout⟩, F⟩ := h
  exact ⟨P, hblock, f, F.holds, hstack, hout⟩

theorem wp_exec {new : Word → Option Word} (hnew : ∀ n p, new n = some p → OnHeap ⟨p, n⟩)
    (hsegments : ∀ i < (header d).phentnum.toNat, (programHeader d (header d) i).type = 1 →
      ∀ x, InSegment d (programHeader d (header d) i) x → T.config.UserAddr x)
    (discard : Nat → Bool) (H : Holds T m w.machine) :
    wp (exec (apics T.config) new T.pd discard argv d) (fun _ _ => True)
      (fun e w' => ∀ entry esp, e = .leave (.user entry esp) →
        Begun T.config d m argv T.pd entry esp w' ∧ ∃ m', Holds T m' w'.machine) w := by
  have hstop : ∀ (e : End) (w' : World), e.NotStarted → ∀ entry esp, e = .leave (.user entry esp) →
      Begun T.config d m argv T.pd entry esp w' ∧ ∃ m', Holds T m' w'.machine :=
    fun e w' he entry esp hl => absurd hl (he entry esp)
  unfold exec
  rw [wp_bind]
  refine wp_mono (wp_measured hroom H) (fun r w₁ h => ?_) hstop
  obtain ⟨argc, sz⟩ := r
  obtain ⟨⟨H₁, k, hk, hargc⟩, hargs⟩ := h
  dsimp only at hargc hargs
  rw [wp_bind]
  refine wp_inKernel (wp_mono wp_readHeader (fun r s' h => ?_) fun _ _ hf => hf.elim)
  obtain ⟨-, hsome, -⟩ := h
  cases r with
  | none => trivial
  | some eh =>
  obtain ⟨rfl, haccepted⟩ := hsome eh rfl
  dsimp only
  cases hstart : new (Buffer.make 0 argc sz).size with
  | none => exact hstop _ _ fun entry esp hl => (by cases hl)
  | some start =>
  dsimp only
  subst hargc
  generalize hu : Buffer.make start (BitVec.ofNat 32 k) sz = u
  have hheap : OnHeap u := hu ▸ hnew _ _ hstart
  have hlength : ∀ A : { args // Passed (foreign T.config) m argv args }, k = A.1.length := fun A => by
    have hlt := A.2.length_lt
    have hnat := congrArg BitVec.toNat (hargs A).1.1
    rw [BitVec.toNat_ofNat, BitVec.toNat_ofNat] at hnat
    omega
  rw [wp_bind]
  refine wp_mono (wp_gathered hroom hheap hk
    (fun A => ⟨hlength A, passed_joined A.2, (hargs A).2⟩) H₁) (fun _ w₂ h => ?_) hstop
  obtain ⟨⟨H₂, hfit⟩, hgathered⟩ := h
  rw [wp_bind]
  refine wp_mono (wp_reset H₂ discard) (fun _ w₃ H₃ => ?_) hstop
  rw [wp_bind]
  refine wp_mono (wp_load H₃ hsegments) (fun entry w₄ h => ?_) hstop
  obtain ⟨rfl, H₄, hkernel⟩ := h
  rw [wp_bind]
  refine wp_mono (wp_pushed hroom hheap hfit H₄) (fun esp w₅ h => ?_) hstop
  obtain ⟨P, hblock, f, H₅, hstack, hout⟩ := h
  -- the kernel's memory is the same since the arguments were gathered
  have hfound : OnStack u k _ esp (shows w₅.machine T.pd) :=
    onStack_congr hstack hfit fun i hi => H₅.own _ (hblock i hi)
  rw [wp_throw]
  rintro entry esp' hl
  cases hl
  refine ⟨⟨haccepted, rfl, ⟨u, k, _, hheap, hfit, P, hfound, fun x hx hno => ?_⟩,
    fun args A => ?_, fun x hx => ?_⟩, f, H₅⟩
  · rw [H₅.own x hx, hout x hno, joined_user hx]
  · obtain ⟨f₁, G, F₁⟩ := hgathered ⟨args, A⟩
    have hmake := (hargs ⟨args, A⟩).1.2 start
    obtain rfl := hlength ⟨args, A⟩
    refine onStack_arrived hfound G P (by rw [← hu, hmake]) (fun x hx => ?_) hheap A
      fun x hx => joined_user hx
    rw [F₁.own x hx, ← hkernel]
    exact (if_pos hx).symm
  · rw [H₅.own x hx]
    exact wp_mono (wp_loadByte H₅ hx) (fun _ _ h => h.1) fun _ _ he => he

end phases

end start

/-! ## From any state -/

/-- The process whose directory is loaded finds what the tables show. -/
theorem exists_setting {c : Vmm.Config} {κ : KernelMap} {a : Word → Word → Prop} {P : Procs}
    {E : Eager} {S : Space} (hc : c.Valid) (hB : ∃ s₀ a₀ n, Booted c s₀ κ a₀ n)
    (R : Refines c κ a P E S) {pd : Word} (hpd : pd ∈ S.dirs) :
    ∃ T : Setting, T.config = c ∧ T.pd = pd ∧ T.dirs = S.dirs ∧ T.old = shows P.machine ∧
      Holds T (shows P.machine pd) { P.machine with cr3 := pd, tlb := [] } :=
  ⟨⟨c, κ, a, S.dirs, pd, shows P.machine, hc, hB, hpd⟩, rfl, rfl, rfl, rfl,
    ⟨S, R.sound.regs pd [], R.agrees, R.low, rfl⟩, rfl, fun _ _ => rfl, fun _ _ _ _ _ => rfl⟩

/-- In every state that the processes can reach, where one of them starts a program. The buffer comes
from the kernel's heap, and the segments lie in user memory. -/
theorem exec_fresh {c : Vmm.Config} {σ : System} (h : Vmm.Started c σ) (hroom : Roomy c)
    {acts : List Act} {P : Procs} {seen : List (Option Word)}
    (hrun : (Procs.init σ).run c acts = .next (P, seen)) {pid : Nat} {pd : Word}
    (hpd : P.running pid = some pd) (kernel : Bytes) (new : Word → Option Word)
    (hnew : ∀ n p, new n = some p → OnHeap ⟨p, n⟩) (discard : Nat → Bool) (argv : Word) (d : Device)
    (hsegments : ∀ i < (header d).phentnum.toNat, (programHeader d (header d) i).type = 1 →
      ∀ x, InSegment d (programHeader d (header d) i) x → c.UserAddr x) :
    wp (exec (apics c) new pd discard argv d) (fun _ _ => True)
      (fun e w => ∀ entry esp, e = .leave (.user entry esp) →
        Begun c d (shows P.machine pd) argv pd entry esp w ∧
        ∀ q p, P.table.proc q = some p → q ≠ pid → ∀ va, c.UserAddr va →
          shows w.machine p.dir va = shows P.machine p.dir va)
      ⟨{ P.machine with cr3 := pd, tlb := [] }, kernel⟩ := by
  obtain ⟨κ, a, n, B, -⟩ := h.good
  obtain ⟨E, S, R⟩ := (Refines.init B).reaches B h.1 acts hrun
  obtain ⟨hno, -⟩ | ⟨pd', mem, hproc, -, hyes, -⟩ := R.running pid
  · rw [hno] at hpd
    cases hpd
  obtain rfl : pd' = pd := by
    rw [hyes] at hpd
    exact Option.some.inj hpd
  have hlive := R.mem_dirs hproc
  obtain ⟨T, rfl, rfl, hdirs, hold, H⟩ := exists_setting h.1 ⟨_, _, _, B⟩ R hlive
  refine wp_mono (wp_exec (w := ⟨_, kernel⟩) hroom hnew hsegments discard H) (fun _ _ h => h)
    fun e w hpost entry esp hl => ?_
  obtain ⟨hbegun, m', H'⟩ := hpost entry esp hl
  refine ⟨hbegun, fun q p hq hne va hu => ?_⟩
  have hdir : p.dir ∈ T.dirs := by
    rw [hdirs]
    exact R.mem_dirs (r := p.running) hq
  have hshows := H'.others p.dir hdir (R.ne_dir hproc hne hq) va hu
  rw [hold] at hshows
  exact hshows

/-! ### Evaluation

The stack of a new program is stored byte by byte, and each store goes to where the tables say, which
are in the memory that the stores before it have left. With the place and the value of each found at
once, the start of a program can be evaluated. -/

/-- `storeByte`, with its place and its value found at once. -/
def storeByteStrict (va : Word) (v : Byte) : Run Unit := do
  if ← onMachine (access va false true) then
    fun w =>
      if va < VMM_FRAMES then .ok () { w with kernel := overlay w.kernel va 1 fun _ => v }
      else
        strictly (frame (w.machine.walk w.machine.cr3 va)) fun p =>
          strictly (withByte (w.machine.mem p (wordOf va)) (va.toNat % 4) v) fun x =>
            .ok () { w with machine := w.machine.put p (wordOf va) x }
  else throw .again

theorem storeByte_eq_strict : storeByte = storeByteStrict := by
  funext va v
  unfold storeByte storeByteStrict
  congr 1
  funext b
  cases b with
  | false => rfl
  | true =>
    funext w
    show EStateM.Result.ok _ (if _ then _ else _) = if _ then _ else _
    split
    · rfl
    · rw [strictly_eq, strictly_eq]
      rfl

/-- `push` with these stores. -/
def pushStrict (g : Sys.Config) (u : Buffer) (argc : Word) : Run Word := do
  let esp := Sys.argBlock g u.size
  memcpy (loadIn u) storeByteStrict esp u.start u.size
  forI argc.toNat fun i => do
    let v ← loadWord (esp + 4#32 * BitVec.ofNat 32 i)
    storeBytes storeByteStrict (esp + 4#32 * BitVec.ofNat 32 i) (v + esp)
  storeBytes storeByteStrict (esp - 8#32) argc
  storeBytes storeByteStrict (esp - 4#32) esp
  pure (esp - 8#32)

/-- `exec` with these stores. -/
def execStrict (g : Sys.Config) (new : Word → Option Word) (pd : Word) (discard : Nat → Bool)
    (argv : Word) (d : Device) : Run Word := do
  let (argc, sz) ← measure argv
  match ← inKernel (readHeader d) with
  | none => pure Sys.failed
  | some eh =>
    match new (Buffer.make 0 argc sz).size with
    | none => throw (.leave .outOfMemory)
    | some start =>
      let u := Buffer.make start argc sz
      gather u argv argc
      onMachine (do K.assert (pd = (← K.getCR3)); Vmm.reset discard pd)
      let entry ← load d eh
      let esp ← pushStrict g u argc
      throw (.leave (.user entry esp))

theorem exec_eq_strict : exec = execStrict := by
  have hpush : push = pushStrict := by
    unfold push pushStrict relocateAt
    rw [storeByte_eq_strict]
  unfold exec
  rw [hpush]
  rfl

/-- What processes do on the small machine, found by evaluation. -/
theorem small_acts (acts : List Act) (yes : Procs → Bool)
    (h : smallBooted.any (fun σ =>
      match (Procs.init σ).run .small acts with
      | .next (P, _) => yes P
      | _ => false) = true) :
    ∃ σ P seen, Vmm.Started .small σ ∧ (Procs.init σ).run .small acts = .next (P, seen) ∧
      yes P = true := by
  obtain ⟨σ, hσ, hrun⟩ := (Option.any_eq_true _ _).mp h
  cases hP : (Procs.init σ).run .small acts with
  | next r =>
    rw [hP] at hrun
    exact ⟨σ, r.1, r.2, smallBooted_started hσ, hP, hrun⟩
  | starved =>
    rw [hP] at hrun
    cases hrun
  | broken =>
    rw [hP] at hrun
    cases hrun

/-- A process with a page at `0x80000000`, and an argument vector at `0x80001000` with a pointer to the
string `lo`, makes a child. -/
def smallActs : List Act :=
  [.create, .store 0 0x80000000#32 true fun _ => 0x78#32,
    .store 0 0x80001000#32 true fun _ => 0x80001010#32,
    .store 0 0x80001010#32 true fun _ => 0x6f6c#32, .fork 0]

/-- A heap with one free block of a page. -/
def smallHeap (n : Word) : Option Word := if n.toNat ≤ 0x1000 then some 0x200000#32 else none

theorem smallHeap_onHeap (n p : Word) (hp : smallHeap n = some p) : OnHeap ⟨p, n⟩ := by
  unfold smallHeap at hp
  split at hp
  · rename_i hn
    obtain rfl := Option.some.inj hp
    have hframes : VMM_FRAMES.toNat = 6291456 := by decide
    have hstart : (0x200000#32 : Word).toNat = 2097152 := by decide
    unfold OnHeap
    dsimp only
    omega
  · cases hp

/-- The vector and the string, and the page at `0x80000000`, as the process and its child have them. -/
def smallSees (s : Machine) (pd : Word) : Bool :=
  decide (wordAt (shows s pd) 0x80001000#32 = 0x80001010#32 ∧
    wordAt (shows s pd) 0x80001004#32 = 0#32 ∧
    seen (shows s pd) 0x80001010#32 0 ≠ 0 ∧ seen (shows s pd) 0x80001010#32 1 ≠ 0 ∧
    seen (shows s pd) 0x80001010#32 2 = 0 ∧ shows s pd 0x80000000#32 = 0x78)

/-- A program of one segment starts instead of the parent. -/
def smallStarts (P : Procs) : Bool :=
  match P.running 0, P.running 1 with
  | some pd, some child =>
    smallSees P.machine pd &&
      testStop (execStrict (apics .small) smallHeap pd (fun _ => false) 0x80001000#32
        (smallFile 1 0x80000000 4)) (fun e w =>
          match e with
          | .leave l => decide (l = .user 0x80000000#32 0xfebfffe0#32 ∧
              shows w.machine pd 0x80000000#32 = 1 ∧ shows w.machine child 0x80000000#32 = 0x78)
          | _ => false) ⟨{ P.machine with cr3 := pd, tlb := [] }, fun _ => 0⟩
  | _, _ => false

theorem smallSees_passed {s : Machine} {pd : Word} (h : smallSees s pd = true) :
    Passed (foreign .small) (shows s pd) 0x80001000#32 [(0x80001010#32, 2)] := by
  obtain ⟨hptr, hnull, h₀, h₁, h₂, -⟩ := of_decide_eq_true h
  refine ⟨fun i hi => ?_, fun p hp => ?_, hnull, fun p hp => ?_, fun i hi => ?_, fun p hp => ?_⟩
  · obtain rfl : i = 0 := Nat.lt_one_iff.mp hi
    exact hptr
  · obtain rfl := List.mem_singleton.mp hp
    exact (by decide : (0x80001010#32 : Word) ≠ 0)
  · obtain rfl := List.mem_singleton.mp hp
    refine ⟨by decide, fun j hj => ?_, h₂⟩
    obtain rfl | rfl : j = 0 ∨ j = 1 := by
      have hj' : j < 2 := hj
      omega
    · exact h₀
    · exact h₁
  · have hi' : i ≤ 1 := hi
    obtain rfl | rfl : i = 0 ∨ i = 1 := by omega
    · unfold Window.Through
      decide
    · unfold Window.Through
      decide
  · obtain rfl := List.mem_singleton.mp hp
    unfold Window.Through
    decide

/-- The program comes to run: its segment is where the parent's page was, and the argument at the end
of its stack. The child still has the page. -/
theorem exec_fresh_small : ∃ σ P seen pd child w, Vmm.Started .small σ ∧
    (Procs.init σ).run .small smallActs = .next (P, seen) ∧
    P.running 0 = some pd ∧ P.running 1 = some child ∧
    exec (apics .small) smallHeap pd (fun _ => false) 0x80001000#32 (smallFile 1 0x80000000 4)
      ⟨{ P.machine with cr3 := pd, tlb := [] }, fun _ => 0⟩ =
        .error (.leave (.user 0x80000000#32 0xfebfffe0#32)) w ∧
    Begun .small (smallFile 1 0x80000000 4) (shows P.machine pd) 0x80001000#32 pd 0x80000000#32
      0xfebfffe0#32 w ∧
    Arrived (apics .small) (shows P.machine pd) [(0x80001010#32, 2)] (shows w.machine pd)
      0xfebfffe0#32 ∧
    shows P.machine pd 0x80000000#32 = 0x78 ∧ shows w.machine pd 0x80000000#32 = 1 ∧
    shows w.machine child 0x80000000#32 = 0x78 := by
  obtain ⟨σ, P, seen, h, hrun, hyes⟩ := small_acts smallActs smallStarts (by decide +kernel)
  unfold smallStarts at hyes
  split at hyes
  · rename_i pd child hpd hchild
    obtain ⟨hsees, hstops⟩ := Bool.and_eq_true_iff.mp hyes
    obtain ⟨e, w, hx, he⟩ := testStop_iff.mp hstops
    rw [← exec_eq_strict] at hx
    cases e with
    | leave l =>
      obtain ⟨rfl, hnew, hold⟩ := of_decide_eq_true he
      have hsegments : ∀ i < (header (smallFile 1 0x80000000 4)).phentnum.toNat,
          (programHeader (smallFile 1 0x80000000 4) (header (smallFile 1 0x80000000 4)) i).type = 1 →
          ∀ x, InSegment (smallFile 1 0x80000000 4)
            (programHeader (smallFile 1 0x80000000 4) (header (smallFile 1 0x80000000 4)) i) x →
          Config.small.UserAddr x := by
        intro i hi htype x hx
        have hfree : SegmentFree (apics .small) (smallFile 1 0x80000000 4)
          (programHeader (smallFile 1 0x80000000 4) (header (smallFile 1 0x80000000 4)) 0) := by decide
        have hphentnum : (header (smallFile 1 0x80000000 4)).phentnum.toNat = 1 := by decide
        obtain rfl : i = 0 := by omega
        exact user_of_unprotected (by decide) (segmentFree_iff.mp hfree x hx)
      have hbegun := (wp_error (exec_fresh h (by unfold Roomy; decide) hrun hpd (fun _ => 0) smallHeap
        smallHeap_onHeap (fun _ => false) 0x80001000#32 _ hsegments) hx _ _ rfl).1
      exact ⟨σ, P, seen, pd, child, w, h, hrun, hpd, hchild, hx, hbegun,
        hbegun.arguments _ (smallSees_passed hsees), (of_decide_eq_true hsees).2.2.2.2.2, hnew, hold⟩
    | stop e => cases he
    | again => cases he
  · cases hyes

end OsKernel.Elf.Paged
