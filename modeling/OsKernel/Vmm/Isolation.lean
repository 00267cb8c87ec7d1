import OsKernel.Vmm.Leak

/-!
# The kernel's memory is out of reach

A process has the kernel's pages in its directory at all times, some of them through a table
of its own. The statements here say that what its directory shows below `0x80000000` and at
the APICs is the kernel's own entry, without the user bit, and that whatever carries the user
bit is a frame that was allocated for a process and serves as nothing else.

The page-fault handler believes its error code: told that no page is present it stores a new
entry whatever was there. `Truthful` says that it is not told so about a page of the kernel.
Nothing else is asked of a run, and nothing at all of what the processes do: they may store
anywhere they are let, and fault at any address.

`Isolated` is stated over memory. It has the processor's walk in it, the words of directories
and the free list, but no space: a frame with the user bit is one that was free when the
kernel started, is counted, is no live directory, no table of one, and no table of counters.
So a process that writes to everything it can reach changes no word that the kernel reads to
find its way.

The exception is real. `apic_remapped` has the page of the local APIC given to a process, by a
fault with an error code that no processor would produce. The APICs are at user addresses, and
the handler has no test for them.
-/

set_option autoImplicit false

namespace OsKernel.Vmm

open Lib Lib.Prog K PhysMem

/-! ## Addresses of the kernel -/

/-- The addresses that the kernel keeps for itself: memory but for the first page, and the APICs. -/
def Config.KernelAddr (c : Config) (va : Word) : Prop :=
  0x1000 ≤ va.toNat ∧ va.toNat < c.memSize.toNat ∨
    va &&& Flag.MASK = c.localAPIC ∨ va &&& Flag.MASK = c.ioAPIC

theorem aligned_page (va : Word) : Aligned (va &&& Flag.MASK) := by
  unfold Aligned Flag.MASK
  rw [toNat_and_high]
  omega

theorem pageAt_page (va : Word) : pageAt (pdi va) (pti va) = va &&& Flag.MASK := by
  rw [← pdi_page, ← pti_page]
  exact pageAt_of_aligned (aligned_page va)

theorem Config.maps_iff {c : Config} (hc : c.Valid) (va : Word) :
    c.Maps (pdi va) (pti va) ↔ c.KernelAddr va := by
  have hal : c.memSize.toNat % 4096 = 0 := hc.memAligned
  have hpage : (va &&& Flag.MASK).toNat = va.toNat / 4096 * 4096 := toNat_and_high va
  unfold Config.Maps Config.KernelAddr
  rw [pageAt_page, hpage]
  refine or_congr_left ?_
  omega

/-! ## The invariant -/

/-- No directory has a page of a process below `0x80000000`. -/
def LowClear (κ : KernelMap) (S : Space) : Prop :=
  ∀ d ∈ S.dirs, ∀ i, i < 512 → ∀ j, j < 1024 → priv (S.pte κ d i j) = false

namespace LowClear

variable {κ : KernelMap} {b : Prop} {a : Word → Word → Prop} {σ σ' : System} {S : Space}

theorem idle (κ : KernelMap) : LowClear κ (Space.idle κ) := fun d hd => absurd hd (Finset.notMem_empty d)

/-- The slots of user addresses are the upper half. -/
theorem pdi_user {va error_code : Word} (h : ¬ Refused va error_code) : 512 ≤ pdi va := by
  have hge : 0x80000000#32 ≤ va := by
    rw [← BitVec.not_lt]
    exact fun hlt => h (Or.inr (Or.inr (Or.inl hlt)))
  rw [BitVec.le_def] at hge
  have h0 : (0x80000000#32 : Word).toNat = 512 * 2 ^ 22 := by decide
  rw [pdi_eq]
  omega

theorem step (G : Good κ True a σ S) (hL : LowClear κ S) {op : Op} (hok : Truthful σ op)
    (h : System.step σ op = some σ') : ∃ S', Good κ True a σ' S' ∧ LowClear κ S' := by
  obtain ⟨S', G', F⟩ := G.step (fun _ => hok) h
  have H := G.sound.shape
  refine ⟨S', G', fun d hd i hi j hj => ?_⟩
  have hi' : i < 1024 := by omega
  -- no operation maps a page of the process below 0x80000000
  cases op with
  | create =>
    obtain ⟨d', B, hnew⟩ := F
    rw [B.dirs] at hd
    obtain rfl | hd := Finset.mem_insert.mp hd
    · rw [hnew]
      exact κ.pte_priv i j
    · rw [B.pte H hd hi']
      exact hL d hd i hi j hj
  | fork p =>
    obtain ⟨d', F⟩ := F
    rw [F.dirs] at hd
    have hp : p ∈ S.dirs := by
      rw [G.dirs]
      exact System.live_of_fork h
    obtain rfl | hd := Finset.mem_insert.mp hd
    · rw [F.childPresent i hi' j hj]
      exact hL p hp i hi j hj
    · rw [F.present d hd i hi' j hj]
      exact hL d hd i hi j hj
  | fault p va error_code =>
    obtain ⟨hR, -, M⟩ | ⟨-, -, rfl⟩ | ⟨hR, -, -, -, q, P⟩ := F
    · rw [M.dirs] at hd
      have hne : ¬ (d = p ∧ i = pdi va ∧ j = pti va) := fun hh => by
        have := pdi_user hR
        omega
      rw [M.pte d hd i hi' j hj hne]
      exact hL d hd i hi j hj
    · exact hL d hd i hi j hj
    · rw [P.dirs] at hd
      rw [P.pte d hd i hi' j hj]
      exact hL d hd i hi j hj
  | exec p discard =>
    rw [F.dirs] at hd
    by_cases hdp : d = p
    · rw [hdp, F.clear trivial i hi' j hj]
      exact κ.pte_priv i j
    · rw [(F.other trivial d hd hdp i hi').2 j hj]
      exact hL d hd i hi j hj
  | exit p cr3 =>
    rw [F.dirs] at hd
    rw [Space.pte_of_ent_eq F.ent]
    exact hL d (Finset.mem_of_mem_erase hd) i hi j hj
  | store p va f =>
    obtain ⟨rfl, -⟩ := F
    exact hL d hd i hi j hj

end LowClear

/-! ## What a directory shows

Isolation is about walks of the hardware, and the invariant about entries of a space; the lemmas
here lead from one to the other. A page that user mode may touch is named by a private entry, a
private entry names a counted frame, and the kernel's frames are not counted. -/

/-- The kernel's memory is as the kernel has it in the directory `pd`, and user pages are frames of
processes; `σ₀` is the state the kernel started in. -/
structure Isolated (c : Config) (σ₀ σ : System) (pd : Word) : Prop where
  /-- The kernel's own translation, present and writable for the supervisor, not for users. -/
  kernel : ∀ va, c.KernelAddr va →
    σ.machine.walk pd va = σ.machine.walk σ.machine.kpd va ∧
    frame (σ.machine.walk pd va) = va &&& Flag.MASK ∧
    σ.machine.allows pd va false true = true ∧ Vmm.user (σ.machine.walk pd va) = false
  unmapped : ∀ va, va < 0x80000000#32 → ¬ c.KernelAddr va →
    present (σ.machine.walk pd va) = false
  /-- A frame that was handed out after the kernel had started and is counted, but is no directory,
  no table and no table of counters. -/
  user : ∀ va, present (σ.machine.walk pd va) = true → Vmm.user (σ.machine.walk pd va) = true →
    InPool σ.machine (frame (σ.machine.walk pd va)) ∧
    ¬ InPool σ₀.machine (frame (σ.machine.walk pd va)) ∧
    0 < refCount σ.machine (frame (σ.machine.walk pd va)) ∧
    frame (σ.machine.walk pd va) ∉ insert σ.machine.kpd σ.live ∧
    (∀ d ∈ insert σ.machine.kpd σ.live, ∀ i, i < 1024 → present (σ.machine.mem d i) = true →
      frame (σ.machine.mem d i) ≠ frame (σ.machine.walk pd va)) ∧
    ¬ IsRefTable σ.machine (frame (σ.machine.walk pd va))

/-- The supervisor may access a page of the kernel. -/
theorem Sound.allows_kernel {κ : KernelMap} {s : Machine} {S : Space} {n : Nat}
    {a : Word → Word → Prop} {d va : Word} {write : Bool} (h : Sound κ True s S n a)
    (hA : Agrees s S) (hd : d ∈ S.dirs) (hne : κ.pte (pdi va) (pti va) ≠ 0#32) :
    s.allows d va false write = true := by
  have hi := pdi_lt va
  have E := h.shape.dirEntry d hd _ hi
  have hK : KernelEntry (κ.pte (pdi va) (pti va)) := (κ.pteOk _ _).resolve_left hne
  have hpde : κ.pde (pdi va) ≠ 0#32 := fun h0 => hne (κ.noTable _ _ h0)
  have hwalk : s.walk d va = κ.pte (pdi va) (pti va) := by
    rw [h.walk hA hd]
    exact h.shape.pte_kernel trivial hd hi (pti_lt va) hne
  have hent : present (S.ent d (pdi va)) = true ∧ writable (S.ent d (pdi va)) = true := by
    by_cases hp : priv (S.ent d (pdi va)) = true
    · exact ⟨present_of_priv hp, E.mixedWritable trivial hp ((E.mixed hp).mpr hpde)⟩
    · have hK' : KernelEntry (κ.pde (pdi va)) := (κ.pdeOk _).resolve_left hpde
      rw [E.kernel (by simpa using hp)]
      exact ⟨hK'.present, hK'.writable⟩
  unfold Machine.allows
  rw [hwalk, hA d (Space.mem_nodes.mpr (Or.inl hd)) _ hi]
  simp [hent.1, hent.2, hK.present, hK.writable]

namespace Good

variable {c : Config} {κ : KernelMap} {b : Prop} {a : Word → Word → Prop} {n : Nat} {σ₀ σ : System}
  {S : Space} {d : Word}

/-- What carries the user bit is the process's own. -/
theorem priv_of_user (G : Good κ b a σ S) (hd : d ∈ σ.live) {va : Word}
    (hP : present (σ.machine.walk d va) = true) (hu : Vmm.user (σ.machine.walk d va) = true) :
    priv (S.pte κ d (pdi va) (pti va)) = true := by
  rw [← G.dirs] at hd
  rw [G.sound.walk G.agrees hd] at hP hu
  by_contra hn
  have := ((G.sound.shape.pteEntry hd (pdi_lt va) (pti_lt va)).kernelEntry hP (by simpa using hn)).user
  rw [hu] at this
  exact absurd this (by simp)

/-- A table is the kernel's, or belongs to a process. -/
theorem table_node (G : Good κ b a σ S) {x : Word} (hx : x ∈ insert σ.machine.kpd σ.live) {i : Nat}
    (hi : i < 1024) (hP : present (σ.machine.mem x i) = true) :
    frame (σ.machine.mem x i) ∈ κ.frames ∨ frame (σ.machine.mem x i) ∈ S.nodes := by
  have hkernel : ∀ k, present (κ.pde k) = true → frame (κ.pde k) ∈ κ.frames := fun k hk =>
    κ.tableIn k (KernelMap.pde_present_iff.mp hk)
  obtain rfl | hd := Finset.mem_insert.mp hx
  · rw [G.sound.kernel.kpd, G.sound.kernel.pde i hi] at hP ⊢
    exact Or.inl (hkernel i hP)
  · rw [← G.dirs] at hd
    rw [G.agrees x (Space.mem_nodes.mpr (Or.inl hd)) i hi] at hP ⊢
    have E := G.sound.shape.dirEntry x hd i hi
    by_cases hp : priv (S.ent x i) = true
    · exact Or.inr (Space.mem_nodes.mpr (Or.inr (E.table hp)))
    · rw [E.kernel (by simpa using hp)] at hP ⊢
      exact Or.inl (hkernel i hP)

theorem isolated (B : Booted c σ₀.machine κ a n) (hc : c.Valid) (G : Good κ True a σ S)
    (hL : LowClear κ S) (hd : d ∈ σ.live) : Isolated c σ₀ σ d := by
  have H := G.sound.shape
  have hdS : d ∈ S.dirs := by
    rw [G.dirs]
    exact hd
  refine ⟨fun va hva => ?_, fun va hlow hva => ?_, fun va hP hu => ?_⟩
  · have hpage := B.page _ _ (pdi_lt va) (pti_lt va) ((Config.maps_iff hc va).mpr hva)
    have hK : KernelEntry (κ.pte (pdi va) (pti va)) := by
      rw [hpage]
      exact kernelEntry_mk (aligned_pageAt _ _)
    have hwalk : σ.machine.walk d va = κ.pte (pdi va) (pti va) := by
      rw [G.sound.walk G.agrees hdS]
      exact H.pte_kernel trivial hdS (pdi_lt va) (pti_lt va) hK.ne_zero
    refine ⟨by rw [hwalk, G.sound.walk_kpd], ?_, G.sound.allows_kernel G.agrees hdS hK.ne_zero, by rw [hwalk, hK.user]⟩
    rw [hwalk, hpage, frame_mk (aligned_pageAt _ _) low_kFlags, pageAt_page]
  · have hi : pdi va < 512 := by
      rw [BitVec.lt_def] at hlow
      have h0 : (0x80000000#32 : Word).toNat = 512 * 2 ^ 22 := by decide
      rw [pdi_eq]
      omega
    have hnone := B.none _ _ (pdi_lt va) (pti_lt va) fun hm => hva ((Config.maps_iff hc va).mp hm)
    rw [G.sound.walk G.agrees hdS]
    obtain h0 | h0 := (H.pteEntry hdS (pdi_lt va) (pti_lt va)).kernel (hL d hdS _ hi _ (pti_lt va))
    · rw [h0]
      rfl
    · rw [h0, hnone]
      rfl
  · have hp := G.priv_of_user hd hP hu
    have T := H.pteEntry hdS (pdi_lt va) (pti_lt va)
    have hheld := H.held_pte hdS (pdi_lt va) (pti_lt va) hp
    have hnode := T.page hp
    have hkern := T.notKernel hp
    have hcount : 0 < S.count (frame (S.pte κ d (pdi va) (pti va))) := by
      have := H.names_pte hdS (pdi_lt va) (pti_lt va) hp
      unfold Space.count
      omega
    rw [G.sound.walk G.agrees hdS]
    refine ⟨G.sound.acc.inPool hheld, fun hp₀ => ?_, by rw [G.refCount_eq hcount]; exact hcount,
      fun hm => ?_, fun x hx i hi hPx hf => ?_, G.sound.acc.not_refTable hheld⟩
    · obtain hk | ⟨x, hx⟩ := B.pool _ hp₀
      · exact hkern hk
      · exact hheld (G.sound.acc.anchored_none hx).2
    · obtain hk | hl := Finset.mem_insert.mp hm
      · rw [hk, G.sound.kernel.kpd] at hkern
        exact hkern (Finset.mem_union_left _ κ.kpdRaw)
      · rw [← G.dirs] at hl
        exact hnode (Space.mem_nodes.mpr (Or.inl hl))
    · obtain hk | hn := G.table_node hx hi hPx
      · exact hkern (hf ▸ hk)
      · exact hnode (hf ▸ hn)

end Good

/-- In every state that a run with truthful error codes reaches, the directory of every process
keeps the kernel's memory and the APICs out of reach. -/
theorem kernel_isolated {c : Config} {σ₀ σ : System} (h : Started c σ₀) {ops : List Op}
    (hok : RunOk System.step Truthful σ₀ ops) (hr : runs System.step σ₀ ops = some σ) :
    ∀ pd ∈ σ.live, Isolated c σ₀ σ pd := by
  obtain ⟨κ, a, n, B, G₀⟩ := h.good
  obtain ⟨S, G, hL⟩ := runs_inv (fun σ => ∃ S, Good κ True a σ S ∧ LowClear κ S)
    (fun σ op σ' ⟨S, G, hL⟩ hop hs => hL.step G hop hs) ⟨_, G₀ True, LowClear.idle κ⟩ hok hr
  exact fun pd hd => G.isolated B h.1 hL hd

/-- In the small machine the lowest user page is nobody's at first. -/
theorem small_not_kernel : ¬ Config.small.KernelAddr 0x80000000#32 := by
  unfold Config.KernelAddr
  decide

theorem kernel_isolated_small : ∃ σ₀ σ d, Started .small σ₀ ∧
    runs System.step σ₀ [.create, .fault d 0x80000000#32 0x6#32] = some σ ∧ d ∈ σ.live ∧
    Isolated .small σ₀ σ d := by
  obtain ⟨σ₀, κ, a, h, hlive, B⟩ := small_starts
  obtain ⟨σ₁, S₁, d, hs₁, hl₁, G₁, h₁, -, -, hpte⟩ := (B.good hlive True).can_create B.sound (by omega)
  have hd₁ : d ∈ σ₁.live := by
    rw [hl₁]
    exact Finset.mem_insert_self d _
  have htrue : Truthful σ₁ (.fault d 0x80000000#32 0x6#32) := fun _ _ => by
    rw [G₁.sound.walk_kpd, B.none _ _ (pdi_lt _) (pti_lt _) fun hm =>
      small_not_kernel ((Config.maps_iff h.1 _).mp hm)]
    rfl
  obtain ⟨σ₂, hs₂, hl₂⟩ := G₁.can_fault h₁ (by omega) hd₁ _ _ (fun _ => htrue) fun j _ => by
    rw [hpte]
    exact κ.pte_priv _ j
  have hr : runs System.step σ₀ [.create, .fault d 0x80000000#32 0x6#32] = some σ₂ :=
    runs_cons.mpr ⟨σ₁, hs₁, runs_cons.mpr ⟨σ₂, hs₂, rfl⟩⟩
  have hok : RunOk System.step Truthful σ₀ [.create, .fault d 0x80000000#32 0x6#32] := by
    refine ⟨trivial, fun σ hσ => ?_⟩
    rw [hs₁] at hσ
    obtain rfl := Option.some.inj hσ
    exact ⟨htrue, fun _ _ => trivial⟩
  have hd₂ : d ∈ σ₂.live := hl₂ ▸ hd₁
  exact ⟨σ₀, σ₂, d, h, hr, hd₂, kernel_isolated h hok hr d hd₂⟩

/-- Told that the page of the local APIC is not present, the handler gives it to the process. -/
theorem apic_remapped : ∃ σ₀ σ d, Started .small σ₀ ∧
    runs System.step σ₀ [.create, .fault d 0xFEE00000#32 0x2#32] = some σ ∧ d ∈ σ.live ∧
    σ.machine.walk d 0xFEE00000#32 ≠ σ.machine.walk σ.machine.kpd 0xFEE00000#32 ∧
    Vmm.user (σ.machine.walk d 0xFEE00000#32) = true := by
  obtain ⟨σ₀, κ, a, h, hlive, B⟩ := small_starts
  obtain ⟨σ₁, S₁, d, hs₁, hl₁, G₁, h₁, -, -, hpte⟩ := (B.good hlive False).can_create
    (B.sound.forget fun _ => trivial) (by omega)
  have hd₁ : d ∈ σ₁.live := by
    rw [hl₁]
    exact Finset.mem_insert_self d _
  obtain ⟨σ₂, hs₂, hl₂⟩ := G₁.can_fault h₁ (by omega) hd₁ 0xFEE00000#32 0x2#32 (fun hf => hf.elim)
    fun j _ => by
      rw [hpte]
      exact κ.pte_priv _ j
  obtain ⟨S₂, G₂, F⟩ := G₁.step (fun hf => hf.elim) hs₂
  have hd₂ : d ∈ S₂.dirs := by
    rw [G₂.dirs, hl₂]
    exact hd₁
  have hR : ¬ Refused 0xFEE00000#32 0x2#32 := by
    unfold Refused
    decide
  obtain ⟨-, -, M⟩ | ⟨hR', -⟩ | ⟨-, h3, -⟩ := F
  · have hwalk := G₂.sound.walk G₂.agrees hd₂ 0xFEE00000#32
    refine ⟨σ₀, σ₂, d, h, runs_cons.mpr ⟨σ₁, hs₁, runs_cons.mpr ⟨σ₂, hs₂, rfl⟩⟩, hl₂ ▸ hd₁, ?_, ?_⟩
    · rw [hwalk, G₂.sound.walk_kpd]
      intro he
      have hp := M.page
      rw [he, κ.pte_priv] at hp
      exact absurd hp (by simp)
    · rw [hwalk]
      exact (G₂.sound.shape.pteEntry hd₂ (pdi_lt _) (pti_lt _)).user M.page
  · exact absurd hR' hR
  · exact absurd h3 (by decide)

end OsKernel.Vmm
