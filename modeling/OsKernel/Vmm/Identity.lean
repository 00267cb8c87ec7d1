import OsKernel.Vmm.Isolation

/-!
# The kernel's directory is the identity map

What the processor finds in the directory that `global_init` has built, by its own walk
through memory: memory but for the first page, and the pages of the two APICs, each at its own
address, for the kernel to read and write.

`Vmm/Boot.lean` says this of the draft. Here it is said of the words in memory, with nothing
of the construction in the statement: `Machine.translate` is the walk of the processor, and
`IdentityMap` is about all 2³² addresses. An address is mapped to itself, or it is not mapped;
there is no third case, and in particular no frame is mapped under two addresses. What is
mapped the kernel may write, and user mode may not even read it.

The machine need not have an even size. `oddSize` has three pages more than 32 MB, with both
APICs in one slot of the directory, so that the partial table occurs, and `map` both with and
without a table to begin with.
-/

set_option autoImplicit false

namespace OsKernel

open Lib Vmm

/-- The address that the directory `pd` translates `va` to. -/
def Machine.translate (s : Machine) (pd va : Word) : Option Word :=
  if present (s.walk pd va) then some (frame (s.walk pd va) ||| va &&& 0xfff#32) else none

namespace Vmm

open Lib.Prog K PhysMem

/-- The directory `kpd` in memory. -/
structure IdentityMap (c : Config) (s : Machine) : Prop where
  itself : ∀ va, c.KernelAddr va → s.translate s.kpd va = some va
  only : ∀ va, ¬c.KernelAddr va → s.translate s.kpd va = none
  written : ∀ va, c.KernelAddr va → s.allows s.kpd va false true = true
  noUser : ∀ va write, s.allows s.kpd va true write = false
  distinct : ∀ i k, i < 1024 → k < 1024 → present (s.mem s.kpd i) = true →
    present (s.mem s.kpd k) = true → frame (s.mem s.kpd i) = frame (s.mem s.kpd k) → i = k
  apart : ∀ i, i < 1024 → present (s.mem s.kpd i) = true → frame (s.mem s.kpd i) ≠ s.kpd
  pool : InPool s s.kpd ∧
    ∀ i, i < 1024 → present (s.mem s.kpd i) = true → InPool s (frame (s.mem s.kpd i))

namespace Drafted

variable {s : Machine} {D : Draft} {n : Nat} {c : Config} {i : Nat}

theorem inPool (h : Drafted s D n) {p : Word} (hp : p ∈ D.frames) : InPool s p := by
  obtain ⟨L, H, ho, -, -⟩ := h.stock
  exact H.ownIn p (by rw [ho]; exact Draft.own_ne_none_iff.mpr hp)

/-- The slots in memory are those of the draft. -/
theorem present_slot (h : Drafted s D n) (hi : i < 1024) :
    s.mem s.kpd i = D.pde i ∧ (present (s.mem s.kpd i) = true ↔ D.pde i ≠ 0#32) := by
  have hm : s.mem s.kpd i = D.pde i := by rw [h.kpd, h.mem i hi]
  rw [hm]
  refine ⟨rfl, fun hp h0 => ?_, fun hne => ((h.pdeOk i).resolve_left hne).present⟩
  rw [h0] at hp
  exact absurd hp (by simp)

/-- The walk ends at the entry of the draft. -/
theorem walk_eq (h : Drafted s D n) (va : Word) : s.walk s.kpd va = D.pte (pdi va) (pti va) := by
  obtain ⟨hm, hp⟩ := h.present_slot (pdi_lt va)
  unfold Machine.walk
  by_cases hne : D.pde (pdi va) = 0#32
  · have hno : ¬present (s.mem s.kpd (pdi va)) = true := fun h' => hp.mp h' hne
    rw [h.noTable _ _ hne]
    exact if_neg hno
  · simp only [hp.mpr hne, if_true]
    rw [hm, h.table _ _ (pdi_lt va) (pti_lt va) hne]

/-- The frame and the offset make up the address. -/
theorem page_or_offset (va : Word) : va &&& Flag.MASK ||| va &&& 0xfff#32 = va := by
  rw [← BitVec.and_or_distrib_left]
  exact BitVec.and_allOnes

theorem identityMap (h : Drafted s D n) (hc : c.Valid) (hS : Shows D c.Maps c.HasTable) :
    IdentityMap c s := by
  have hpage : ∀ va, c.KernelAddr va → s.walk s.kpd va = va &&& Flag.MASK ||| kFlags := by
    intro va hva
    rw [h.walk_eq, hS.page _ _ (pdi_lt va) (pti_lt va) ((Config.maps_iff hc va).mpr hva), pageAt_page]
  have hnone : ∀ va, ¬c.KernelAddr va → s.walk s.kpd va = 0#32 := by
    intro va hva
    rw [h.walk_eq, hS.none _ _ (pdi_lt va) (pti_lt va) fun hm => hva ((Config.maps_iff hc va).mp hm)]
  refine ⟨fun va hva => ?_, fun va hva => ?_, fun va hva => ?_, fun va write => ?_,
    fun i k hi hk hpi hpk heq => ?_, fun i hi hp => ?_, ?_, fun i hi hp => ?_⟩
  · have hal := aligned_page va
    unfold Machine.translate
    rw [hpage va hva, if_pos (kernelEntry_mk hal).present, frame_mk hal low_kFlags, page_or_offset]
  · unfold Machine.translate
    rw [hnone va hva]
    rfl
  · obtain ⟨hm, hp⟩ := h.present_slot (pdi_lt va)
    have hpte := kernelEntry_mk (aligned_page va)
    have hne : D.pde (pdi va) ≠ 0#32 := by
      intro h0
      have hwalk := h.walk_eq va
      rw [h.noTable _ _ h0, hpage va hva] at hwalk
      exact hpte.ne_zero hwalk
    have hpde := (h.pdeOk _).resolve_left hne
    unfold Machine.allows
    rw [hpage va hva, hm]
    simp [hpde.present, hpde.writable, hpte.present, hpte.writable]
  · have huser : Vmm.user (s.walk s.kpd va) = false := by
      rw [h.walk_eq]
      rcases h.pteOk (pdi va) (pti va) with h0 | hk
      · rw [h0]
        rfl
      · exact hk.user
    unfold Machine.allows
    simp [huser]
  · obtain ⟨hi', hpi'⟩ := h.present_slot hi
    obtain ⟨hk', hpk'⟩ := h.present_slot hk
    rw [hi', hk'] at heq
    exact h.inj i k (hpi'.mp hpi) (hpk'.mp hpk) heq
  · obtain ⟨hi', hp'⟩ := h.present_slot hi
    rw [hi', h.kpd]
    exact h.tableNe i (hp'.mp hp)
  · rw [h.kpd]
    exact h.inPool (Finset.mem_union_left _ h.kpdRaw)
  · obtain ⟨hi', hp'⟩ := h.present_slot hi
    rw [hi']
    exact h.inPool (h.tableIn i (hp'.mp hp))

end Drafted

/-- From 8 MB on there are frames enough for the kernel's own map. -/
theorem Config.bootFrames_le {c : Config} (hsize : 0x800000 ≤ c.memSize.toNat) :
    c.bootFrames ≤ c.poolFrames := by
  have hframes : VMM_FRAMES.toNat = 6291456 := by decide
  have hlt := c.memSize.isLt
  unfold Config.bootFrames Config.poolFrames
  omega

/-- `global_init`, with the frames that `kernelInit` has set aside. -/
theorem globalInit_identity {c : Config} (hmem : Aligned c.memSize) (hlocal : Aligned c.localAPIC)
    (hio : Aligned c.ioAPIC) (hsize : 0x800000 ≤ c.memSize.toNat) (m : Machine) :
    ∃ s, (do
      PhysMem.init VMM_FRAMES (c.memSize - VMM_FRAMES)
      globalInit c : K Unit) m = .ok () s ∧ IdentityMap c s := by
  have hheap : VMM_FRAMES.toNat ≤ c.memSize.toNat :=
    Nat.le_trans (by decide : VMM_FRAMES.toNat ≤ 0x800000) hsize
  have hc : c.Valid := ⟨hmem, hheap, hlocal, hio⟩
  have hrun : wp (do
      PhysMem.init VMM_FRAMES (c.memSize - VMM_FRAMES)
      globalInit c : K Unit) (fun _ s => IdentityMap c s) (fun _ _ => False) m := by
    refine wp_seq (init_untouched hc m) fun _ s₁ h₁ => ?_
    refine wp_mono (globalInit_spec h₁ hc) (fun _ s₂ ⟨D, hD, hS⟩ => hD.identityMap hc hS)
      fun _ _ he => ?_
    exact absurd he.2 (Nat.not_lt_of_le (Config.bootFrames_le hsize))
  obtain ⟨_, s, hs, hmap⟩ := wp_returns hrun
  exact ⟨s, hs, hmap⟩

/-- 32 MB and three pages, and both APICs in one region. -/
def oddSize : Config := ⟨0x2003000#32, 0xfee00000#32, 0xfec00000#32⟩

def coldMachine : Machine where
  mem _ _ := 0xffffffff#32
  firstFree := 0#32
  avail := 0#32
  limit := 0#32
  start := 0#32
  refs _ := 0#32
  kpd := 0#32
  cr3 := 0#32
  tlb := []

theorem globalInit_identity_oddSize : ∃ s, (do
      PhysMem.init VMM_FRAMES (oddSize.memSize - VMM_FRAMES)
      globalInit oddSize : K Unit) coldMachine = .ok () s ∧ IdentityMap oddSize s :=
  globalInit_identity (by decide) (by decide) (by decide) (by decide) coldMachine

end Vmm

end OsKernel
