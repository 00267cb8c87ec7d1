import OsKernel.Vmm.Clear

/-!
# Starting the kernel

`global_init` builds the kernel's directory: an identity map of memory and the two APIC pages.
It runs once, so that its invariant (`Drafted`) is about a directory under construction; at
the end the draft is a `KernelMap` and the machine is `Sound` with no process.

The rules of `Vmm/Sound.lean` are of no use here: they begin with a kernel's map, which is
what is being built. A `Draft` has the directory entries and table entries that have been
stored so far, and the frames taken, in two sets because there are two ways to take one:
tables of the identity map come from `unsafe_alloc_frame` and have no count, a table for an
APIC comes from `map`, by `alloc_frame`, and keeps the count 1 for good. The difference stays
visible to the end, as `raw` and `counted` of the map.

What `memSize` may be is `Config.Valid`: a multiple of the page size, large enough for the
heap. It need not be a multiple of 4 MB, and the last, partial table is the case with the most
to prove. The APICs may lie in that table's slot, in a slot of their own or both in one;
`Shows` says which pages and which slots are there so far, as predicates, so that a page
mapped twice is no special case.

Where the number of frames matters it is counted: `bootFrames` is what this takes at most, and
`boot_spec` says that with so many the kernel does start, whatever memory holds before. So the
runs of the later files begin somewhere.

Interrupt tables, the console and the drivers are started by the same function of the source
and are left out; they touch neither frames nor page tables.
-/

set_option autoImplicit false

namespace OsKernel.Vmm

open Lib Lib.Prog K PhysMem

/-! ## Addresses of pages -/

/-- The address of page `j` of slot `i`. -/
def pageAt (i j : Nat) : Word := BitVec.ofNat 32 (i * 2 ^ 22 + j * 2 ^ 12)

section pageAt

variable {i j : Nat}

theorem toNat_pageAt (hi : i < 1024) (hj : j < 1024) :
    (pageAt i j).toNat = i * 2 ^ 22 + j * 2 ^ 12 := by
  unfold pageAt
  rw [BitVec.toNat_ofNat]
  omega

theorem pdi_eq (va : Word) : pdi va = va.toNat / 2 ^ 22 := by
  unfold pdi
  rw [BitVec.toNat_ushiftRight, Nat.shiftRight_eq_div_pow]

theorem pti_eq (va : Word) : pti va = va.toNat / 2 ^ 12 % 1024 := by
  have hm : (0x3ff#32).toNat = 2 ^ 10 - 1 := by decide
  unfold pti
  rw [BitVec.toNat_and, hm, Nat.and_two_pow_sub_one_eq_mod, BitVec.toNat_ushiftRight,
    Nat.shiftRight_eq_div_pow]

theorem pdi_pageAt (hi : i < 1024) (hj : j < 1024) : pdi (pageAt i j) = i := by
  rw [pdi_eq, toNat_pageAt hi hj]
  omega

theorem pti_pageAt (hi : i < 1024) (hj : j < 1024) : pti (pageAt i j) = j := by
  rw [pti_eq, toNat_pageAt hi hj]
  omega

/-- A page is at the address that names it. -/
theorem pageAt_of_aligned {va : Word} (h : Aligned va) : pageAt (pdi va) (pti va) = va := by
  rw [← BitVec.toNat_inj, toNat_pageAt (pdi_lt va) (pti_lt va), pdi_eq, pti_eq]
  have hlt := va.isLt
  unfold Aligned at h
  omega

theorem pageAt_eq_iff (hi : i < 1024) (hj : j < 1024) {va : Word} (h : Aligned va) :
    pageAt i j = va ↔ i = pdi va ∧ j = pti va := by
  constructor
  · rintro rfl
    exact ⟨(pdi_pageAt hi hj).symm, (pti_pageAt hi hj).symm⟩
  · rintro ⟨rfl, rfl⟩
    exact pageAt_of_aligned h

theorem aligned_pageAt (i j : Nat) : Aligned (pageAt i j) := by
  unfold Aligned pageAt
  rw [BitVec.toNat_ofNat]
  omega

theorem identity_eq (hi : i < 1024) (hj : j < 1024) : identity i j = pageAt i j ||| kFlags := by
  have hsh : BitVec.ofNat 32 i <<< 22 ||| BitVec.ofNat 32 j <<< 12 = pageAt i j := by
    rw [← BitVec.toNat_inj, BitVec.toNat_or, toNat_pageAt hi hj, BitVec.toNat_shiftLeft,
      BitVec.toNat_shiftLeft, BitVec.toNat_ofNat, BitVec.toNat_ofNat, Nat.shiftLeft_eq,
      Nat.shiftLeft_eq, Nat.mod_eq_of_lt (by omega : i < 2 ^ 32),
      Nat.mod_eq_of_lt (by omega : j < 2 ^ 32), Nat.mod_eq_of_lt (by omega),
      Nat.mod_eq_of_lt (by omega), mul_comm i, ← Nat.two_pow_add_eq_or_of_lt (by omega)]
  unfold identity
  rw [hsh]

end pageAt

/-- An aligned address with the kernel's flags. -/
theorem kernelEntry_mk {p : Word} (hp : Aligned p) : KernelEntry (p ||| kFlags) where
  present := by rw [present_mk hp]; rfl
  writable := by rw [writable_mk hp]; rfl
  global := by rw [global_mk hp]; rfl
  user := by rw [user_mk hp]; rfl
  nonGlobal := by rw [nonGlobal_mk hp]; rfl

/-! ## A directory under construction

Before `kpd` is loaded there are no processes and no references to count, so the invariant of the
running system does not apply yet. `Draft` is what there is instead: the frames taken so far, and
the entries of the directory and its tables. The steps of `global_init` fill it in, and when it is
finished it becomes the kernel's map. -/

structure Draft where
  kpd : Word
  raw : Finset Word
  counted : Finset Word
  pde : Nat → Word
  pte : Nat → Nat → Word

namespace Draft

def own (D : Draft) (p : Word) : Own :=
  if p ∈ D.raw then .raw else if p ∈ D.counted then .counted 0 else .none

def frames (D : Draft) : Finset Word := D.raw ∪ D.counted

def addRaw (D : Draft) (p : Word) : Draft := { D with raw := insert p D.raw }

def addCounted (D : Draft) (p : Word) : Draft := { D with counted := insert p D.counted }

/-- Slot `i` gets the table `t`. -/
def install (D : Draft) (i : Nat) (t : Word) (f : Nat → Word) : Draft :=
  { D with
    pde := Function.update D.pde i (t ||| kFlags)
    pte := Function.update D.pte i f }

def setPte (D : Draft) (i j : Nat) (e : Word) : Draft :=
  { D with pte := Function.update D.pte i (Function.update (D.pte i) j e) }

variable {D : Draft} {p : Word}

theorem own_ne_none_iff : D.own p ≠ .none ↔ p ∈ D.frames := by
  unfold own frames
  rw [Finset.mem_union]
  split
  · simp_all
  · split <;> simp_all

theorem own_addRaw : (D.addRaw p).own = Function.update D.own p .raw := by
  funext q
  unfold own addRaw
  by_cases hq : q = p
  · rw [hq, Function.update_self, if_pos (Finset.mem_insert_self p D.raw)]
  · rw [Function.update_of_ne hq]
    simp only [Finset.mem_insert, hq, false_or]

theorem own_addCounted (hp : p ∉ D.frames) :
    (D.addCounted p).own = Function.update D.own p (.counted 0) := by
  have hr : p ∉ D.raw := fun h => hp (Finset.mem_union_left _ h)
  funext q
  unfold own addCounted
  by_cases hq : q = p
  · rw [hq, Function.update_self, if_neg hr, if_pos (Finset.mem_insert_self p D.counted)]
  · rw [Function.update_of_ne hq]
    simp only [Finset.mem_insert, hq, false_or]

end Draft

/-- The allocator's side: nothing has been freed yet, and `n` more frames can be handed out. -/
def Stocked (s : Machine) (D : Draft) (n : Nat) : Prop :=
  ∃ L, PInv s L ∧ L.own = D.own ∧ L.free = [] ∧ n ≤ PCore.room s L

structure Drafted (s : Machine) (D : Draft) (n : Nat) : Prop where
  stock : Stocked s D n
  kpd : s.kpd = D.kpd
  kpdRaw : D.kpd ∈ D.raw
  disj : ∀ p ∈ D.counted, p ∉ D.raw
  mem : ∀ i, i < 1024 → s.mem D.kpd i = D.pde i
  table : ∀ i j, i < 1024 → j < 1024 → D.pde i ≠ 0#32 → s.mem (frame (D.pde i)) j = D.pte i j
  pdeOk : ∀ i, D.pde i = 0#32 ∨ KernelEntry (D.pde i)
  pteOk : ∀ i j, D.pte i j = 0#32 ∨ KernelEntry (D.pte i j)
  tableIn : ∀ i, D.pde i ≠ 0#32 → frame (D.pde i) ∈ D.frames
  tableNe : ∀ i, D.pde i ≠ 0#32 → frame (D.pde i) ≠ D.kpd
  inj : ∀ i k, D.pde i ≠ 0#32 → D.pde k ≠ 0#32 → frame (D.pde i) = frame (D.pde k) → i = k
  noTable : ∀ i j, D.pde i = 0#32 → D.pte i j = 0#32

namespace Drafted

variable {s s' : Machine} {D : Draft} {n m : Nat} {p v : Word} {i j : Nat}

theorem weaken (h : Drafted s D n) (hm : m ≤ n) : Drafted s D m := by
  obtain ⟨L, H, ho, hf, hr⟩ := h.stock
  exact { h with stock := ⟨L, H, ho, hf, hm.trans hr⟩ }

theorem aligned (h : Drafted s D n) (hp : p ∈ D.frames) : Aligned p := by
  obtain ⟨L, H, ho, -, -⟩ := h.stock
  exact H.ownAl (by rw [ho]; exact Draft.own_ne_none_iff.mpr hp)

theorem stock_store (h : Drafted s D n) (hp : p ∈ D.frames) (f : Nat → Word) :
    Stocked { s with mem := Function.update s.mem p f } D n := by
  obtain ⟨L, H, ho, hf, hr⟩ := h.stock
  exact ⟨L, H.store_owned (by rw [ho]; exact Draft.own_ne_none_iff.mpr hp) f, ho, hf, hr⟩

/-- A frame that is no table of the draft. -/
def Spare (D : Draft) (p : Word) : Prop :=
  p ∈ D.frames ∧ p ≠ D.kpd ∧ ∀ i, D.pde i ≠ 0#32 → frame (D.pde i) ≠ p

/-- A new frame, however it was allocated. -/
theorem alloced (h : Drafted s D n) {D' : Draft} (hfree : p ∉ D.frames)
    (hstock : Stocked s' D' m) (hkpd : D'.kpd = D.kpd) (hpde : D'.pde = D.pde)
    (hpte : D'.pte = D.pte) (hraw : D.raw ⊆ D'.raw) (hfr : D.frames ⊆ D'.frames)
    (hin : p ∈ D'.frames) (hdisj : ∀ q ∈ D'.counted, q ∉ D'.raw)
    (hmem : ∀ q ∈ D.frames, s'.mem q = s.mem q) (hk : s'.kpd = s.kpd) :
    Drafted s' D' m ∧ Spare D' p := by
  have hkf : D.kpd ∈ D.frames := Finset.mem_union_left _ h.kpdRaw
  refine ⟨{
    stock := hstock
    kpd := by rw [hk, hkpd, h.kpd]
    kpdRaw := by rw [hkpd]; exact hraw h.kpdRaw
    disj := hdisj
    mem := fun i hi => by rw [hkpd, hpde, hmem _ hkf]; exact h.mem i hi
    table := fun i j hi hj hne => by
      rw [hpde] at hne
      rw [hpde, hpte, hmem _ (h.tableIn i hne)]
      exact h.table i j hi hj hne
    pdeOk := by rw [hpde]; exact h.pdeOk
    pteOk := by rw [hpte]; exact h.pteOk
    tableIn := by rw [hpde]; exact fun i hne => hfr (h.tableIn i hne)
    tableNe := by rw [hpde, hkpd]; exact h.tableNe
    inj := by rw [hpde]; exact h.inj
    noTable := by rw [hpde, hpte]; exact h.noTable }, hin, ?_, ?_⟩
  · rw [hkpd]
    rintro rfl
    exact hfree hkf
  · rw [hpde]
    rintro i hne rfl
    exact hfree (h.tableIn i hne)

theorem unsafeAllocFrame_spec (h : Drafted s D n) :
    wp unsafeAllocFrame (fun p s' => s'.mem p = (fun _ => 0#32) ∧ p ∉ D.frames ∧
        Drafted s' (D.addRaw p) (n - 1) ∧ Spare (D.addRaw p) p)
      (fun e _ => e = .noFrames ∧ n = 0) s := by
  obtain ⟨L, H, ho, hf, hr⟩ := h.stock
  refine wp_mono (PhysMem.unsafeAllocFrame_spec H) (fun p s' ⟨H', T⟩ => ?_)
    (fun e _ he => ⟨he.1, by have := he.2.2; omega⟩)
  have hfree : p ∉ D.frames := fun hp => by
    refine Draft.own_ne_none_iff.mpr hp ?_
    rw [← ho]
    exact T.fresh
  have hroom := T.room
  refine ⟨T.zero, hfree, h.alloced hfree ⟨L.take p, H', ?_, ?_, by omega⟩ rfl rfl rfl
    (Finset.subset_insert _ _) (Finset.union_subset_union_left (Finset.subset_insert _ _))
    (Finset.mem_union_left _ (Finset.mem_insert_self _ _)) (fun q hq => ?_) (fun q hq => ?_)
    T.regs.kpd⟩
  · rw [Ledger.take_own, ho, Draft.own_addRaw]
  · show L.free.tail = []
    rw [hf]
    rfl
  · show q ∉ insert p D.raw
    rw [Finset.mem_insert, not_or]
    exact ⟨by rintro rfl; exact hfree (Finset.mem_union_right _ hq), h.disj q hq⟩
  · exact T.others q (by rintro rfl; exact hfree hq)

theorem allocFrame_spec (h : Drafted s D n) :
    wp allocFrame (fun p s' => s'.mem p = (fun _ => 0#32) ∧ p ∉ D.frames ∧
        Drafted s' (D.addCounted p) (n - 2) ∧ Spare (D.addCounted p) p)
      (fun e _ => e = .noFrames ∧ n < 2) s := by
  obtain ⟨L, H, ho, hf, hr⟩ := h.stock
  refine wp_mono (PhysMem.allocFrame_spec H) (fun p s' ⟨L', al⟩ => ?_)
    (fun e _ he => ⟨he.1, by have := he.2; omega⟩)
  have hfree : p ∉ D.frames := fun hp => by
    refine Draft.own_ne_none_iff.mpr hp ?_
    rw [← ho]
    exact al.fresh
  have hroom := al.room
  refine ⟨al.zero, hfree, h.alloced hfree ⟨L', al.inv, ?_, al.free hf, by omega⟩ rfl rfl rfl
    (Finset.Subset.refl _) (Finset.union_subset_union_right (Finset.subset_insert _ _))
    (Finset.mem_union_right _ (Finset.mem_insert_self _ _)) (fun q hq => ?_) (fun q hq => ?_)
    al.keeps.regs.kpd⟩
  · rw [al.own, ho, Draft.own_addCounted hfree]
  · obtain rfl | hq := Finset.mem_insert.mp hq
    · exact fun hr => hfree (Finset.mem_union_left _ hr)
    · exact h.disj q hq
  · exact al.keeps.mem q (by rw [ho]; exact Draft.own_ne_none_iff.mpr hq)

/-- Filling a frame that is not in use yet. -/
theorem fill (h : Drafted s D n) (hp : Spare D p) (f : Nat → Word) :
    Drafted { s with mem := Function.update s.mem p f } D n :=
  { h with
    stock := h.stock_store hp.1 f
    mem := fun i hi => by
      show Function.update s.mem p f D.kpd i = _
      rw [Function.update_of_ne (Ne.symm hp.2.1)]
      exact h.mem i hi
    table := fun i j hi hj hne => by
      show Function.update s.mem p f (frame (D.pde i)) j = _
      rw [Function.update_of_ne (hp.2.2 i hne)]
      exact h.table i j hi hj hne }

/-- A filled frame becomes the table of a slot. -/
theorem install (h : Drafted s D n) (hp : Spare D p) {f : Nat → Word}
    (hf : ∀ j, f j = 0#32 ∨ KernelEntry (f j))
    (hm : ∀ j, j < 1024 → s.mem p j = f j) :
    Drafted (s.put D.kpd i (p ||| kFlags)) (D.install i p f) n := by
  have hal := h.aligned hp.1
  have hfr : frame (p ||| kFlags) = p := frame_mk hal low_kFlags
  have hke := kernelEntry_mk hal
  have hpde : ∀ k, k ≠ i → (D.install i p f).pde k = D.pde k := fun k hk => Function.update_of_ne hk _ _
  have hpdei : (D.install i p f).pde i = p ||| kFlags := Function.update_self ..
  have hpte : ∀ k, k ≠ i → (D.install i p f).pte k = D.pte k := fun k hk => Function.update_of_ne hk _ _
  have hptei : (D.install i p f).pte i = f := Function.update_self ..
  -- slot `i` is the new table, every other one is as it was
  refine {
    stock := h.stock_store (Finset.mem_union_left _ h.kpdRaw) _
    kpd := h.kpd
    kpdRaw := h.kpdRaw
    disj := h.disj
    mem := fun k hk => ?_
    table := fun k j hk hj hne => ?_
    pdeOk := fun k => ?_
    pteOk := fun k j => ?_
    tableIn := fun k hne => ?_
    tableNe := fun k hne => ?_
    inj := fun k l hk hl hkl => ?_
    noTable := fun k j hk => ?_ }
  · show Function.update s.mem D.kpd (Function.update (s.mem D.kpd) i (p ||| kFlags)) D.kpd k = _
    rw [Function.update_self]
    by_cases hki : k = i
    · rw [hki, Function.update_self, hpdei]
    · rw [Function.update_of_ne hki, hpde k hki]
      exact h.mem k hk
  · show Function.update s.mem D.kpd _ (frame ((D.install i p f).pde k)) j = _
    by_cases hki : k = i
    · rw [hki, hpdei, hptei, hfr, Function.update_of_ne hp.2.1]
      exact hm j hj
    · rw [hpde k hki] at hne ⊢
      rw [hpte k hki, Function.update_of_ne (h.tableNe k hne)]
      exact h.table k j hk hj hne
  · by_cases hki : k = i
    · rw [hki, hpdei]
      exact Or.inr hke
    · rw [hpde k hki]
      exact h.pdeOk k
  · by_cases hki : k = i
    · rw [hki, hptei]
      exact hf j
    · rw [hpte k hki]
      exact h.pteOk k j
  · by_cases hki : k = i
    · rw [hki, hpdei, hfr]
      exact hp.1
    · rw [hpde k hki] at hne ⊢
      exact h.tableIn k hne
  · by_cases hki : k = i
    · rw [hki, hpdei, hfr]
      exact hp.2.1
    · rw [hpde k hki] at hne ⊢
      exact h.tableNe k hne
  · by_cases hki : k = i
    · by_cases hli : l = i
      · rw [hki, hli]
      · rw [hpde l hli] at hl hkl
        rw [hki, hpdei, hfr] at hkl
        exact absurd hkl.symm (hp.2.2 l hl)
    · rw [hpde k hki] at hk hkl
      by_cases hli : l = i
      · rw [hli, hpdei, hfr] at hkl
        exact absurd hkl (hp.2.2 k hk)
      · rw [hpde l hli] at hl hkl
        exact h.inj k l hk hl hkl
  · by_cases hki : k = i
    · rw [hki, hpdei] at hk
      exact absurd hk hke.ne_zero
    · rw [hpde k hki] at hk
      rw [hpte k hki]
      exact h.noTable k j hk

/-- An entry of a table is overwritten. -/
theorem setPte (h : Drafted s D n) (hne : D.pde i ≠ 0#32)
    (hv : v = 0#32 ∨ KernelEntry v) :
    Drafted (s.put (frame (D.pde i)) j v) (D.setPte i j v) n := by
  have hpte : ∀ k l, ¬ (k = i ∧ l = j) → (D.setPte i j v).pte k l = D.pte k l := by
    intro k l hkl
    show Function.update D.pte i _ k l = _
    by_cases hki : k = i
    · rw [hki, Function.update_self, Function.update_of_ne fun hl => hkl ⟨hki, hl⟩]
    · rw [Function.update_of_ne hki]
  have hptei : (D.setPte i j v).pte i j = v := by
    show Function.update D.pte i _ i j = v
    rw [Function.update_self, Function.update_self]
  refine { h with
    stock := h.stock_store (h.tableIn i hne) _
    mem := fun k hk => ?_
    table := fun k l hk hl hnk => ?_
    pteOk := fun k l => ?_
    noTable := fun k l hk => ?_ }
  · show Function.update s.mem (frame (D.pde i)) _ D.kpd k = _
    rw [Function.update_of_ne (Ne.symm (h.tableNe i hne))]
    exact h.mem k hk
  · show Function.update s.mem (frame (D.pde i)) _ (frame (D.pde k)) l = _
    by_cases hki : k = i
    · rw [hki, Function.update_self]
      by_cases hlj : l = j
      · rw [hlj, Function.update_self, hptei]
      · rw [Function.update_of_ne hlj, hpte i l fun hh => hlj hh.2]
        exact h.table i l (hki ▸ hk) hl hne
    · rw [Function.update_of_ne fun hf => hki (h.inj k i hnk hne hf), hpte k l fun hh => hki hh.1]
      exact h.table k l hk hl hnk
  · by_cases hkl : k = i ∧ l = j
    · rw [hkl.1, hkl.2, hptei]
      exact hv
    · rw [hpte k l hkl]
      exact h.pteOk k l
  · rw [hpte k l]
    · exact h.noTable k l hk
    · rintro ⟨rfl, -⟩
      exact hne hk

end Drafted

/-! ## `map` on the kernel's directory -/

/-- Page `j` of slot `i` has been mapped in the draft. -/
structure Drawn (D : Draft) (i j : Nat) (v : Word) (D' : Draft) : Prop where
  kpd : D'.kpd = D.kpd
  pde : ∀ k, D'.pde k ≠ 0#32 ↔ D.pde k ≠ 0#32 ∨ k = i
  pte : ∀ k l, D'.pte k l = if k = i ∧ l = j then v else D.pte k l

namespace Drafted

variable {s : Machine} {D : Draft} {n : Nat} {va : Word}

theorem drawn_setPte {D : Draft} {i j : Nat} {v : Word} (hne : D.pde i ≠ 0#32) :
    Drawn D i j v (D.setPte i j v) where
  kpd := rfl
  pde k := by
    show D.pde k ≠ 0#32 ↔ _
    constructor
    · exact Or.inl
    · rintro (h | rfl)
      · exact h
      · exact hne
  pte k l := by
    show Function.update D.pte i (Function.update (D.pte i) j v) k l = _
    by_cases hk : k = i
    · rw [hk, Function.update_self]
      by_cases hl : l = j
      · rw [hl, Function.update_self, if_pos ⟨rfl, rfl⟩]
      · rw [Function.update_of_ne hl, if_neg fun h => hl h.2]
    · rw [Function.update_of_ne hk, if_neg fun h => hk h.1]

theorem map_present (h : Drafted s D n) (hva : Aligned va) (hne : D.pde (pdi va) ≠ 0#32) :
    wp (map D.kpd va va kFlags) (fun _ s' => ∃ D', Drafted s' D' n ∧
        Drawn D (pdi va) (pti va) (va ||| kFlags) D') (fun _ _ => False) s := by
  have hke := (h.pdeOk _).resolve_left hne
  have hbit : ∀ {e : Word}, e &&& 1#32 = 0#32 ↔ present e = false := and_P
  unfold map ownTable
  simp only [wp_bind, wp_load, wp_ite, wp_assert, wp_store, h.mem _ (pdi_lt va)]
  rw [if_pos (by decide), if_neg (by rw [hbit, hke.present]; simp), if_neg (by
    rw [ne_eq, not_not, and_kFlags]
    exact ⟨hke.present, hke.writable, hke.global⟩)]
  exact ⟨_, h.setPte hne (Or.inr (kernelEntry_mk hva)), drawn_setPte hne⟩

theorem map_spec (h : Drafted s D n) (hva : Aligned va) :
    wp (map D.kpd va va kFlags) (fun _ s' => ∃ D', Drafted s' D' (n - 2) ∧
        Drawn D (pdi va) (pti va) (va ||| kFlags) D')
      (fun e _ => e = .noFrames ∧ n < 2) s := by
  by_cases hne : D.pde (pdi va) ≠ 0#32
  · exact wp_mono (h.map_present hva hne)
      (fun _ s' hpost => by
        obtain ⟨D', h', hD⟩ := hpost
        exact ⟨D', h'.weaken (Nat.sub_le n 2), hD⟩) (fun _ _ he => he.elim)
  have h0 : D.pde (pdi va) = 0#32 := not_not.mp hne
  unfold map ownTable
  simp only [wp_bind, wp_load, wp_ite, wp_assert, wp_store, h.mem _ (pdi_lt va), h0]
  rw [if_pos (by decide), if_pos (by decide)]
  refine wp_mono h.allocFrame_spec (fun p s₁ hpost => ?_) (fun _ _ he => he)
  obtain ⟨hzero, hfree, h₁, hsp⟩ := hpost
  have hal := h₁.aligned hsp.1
  have h₂ := h₁.install (i := pdi va) (f := fun _ => 0#32) hsp (fun _ => Or.inl rfl)
    (fun j _ => by rw [hzero])
  have hpde : ((D.addCounted p).install (pdi va) p fun _ => 0#32).pde (pdi va) = p ||| kFlags :=
    Function.update_self ..
  have hne' : ((D.addCounted p).install (pdi va) p fun _ => 0#32).pde (pdi va) ≠ 0#32 := by
    rw [hpde]
    exact (kernelEntry_mk hal).ne_zero
  have h₃ := h₂.setPte (j := pti va) hne' (Or.inr (kernelEntry_mk hva))
  have hD := drawn_setPte (j := pti va) (v := va ||| kFlags) hne'
  rw [hpde] at h₃
  rw [Function.update_self, Function.update_self]
  refine ⟨_, h₃, hD.kpd, fun k => ?_, fun k l => ?_⟩
  · rw [hD.pde]
    by_cases hk : k = pdi va
    · simp [hk, hne']
    · have : ((D.addCounted p).install (pdi va) p fun _ => 0#32).pde k = D.pde k :=
        Function.update_of_ne hk _ _
      rw [this]
  · rw [hD.pte]
    by_cases hk : k = pdi va
    · have hz : ((D.addCounted p).install (pdi va) p fun _ => 0#32).pte (pdi va) = fun _ => 0#32 :=
        Function.update_self ..
      rw [hk, hz, h.noTable _ _ h0]
    · have : ((D.addCounted p).install (pdi va) p fun _ => 0#32).pte k = D.pte k :=
        Function.update_of_ne hk _ _
      rw [this]

end Drafted

/-! ## The stages of `global_init`

A full table for every 4 MB of memory, page 0 taken out again, a partial table for the rest, and
the two APICs. `Shows` says which pages are mapped after each stage; a stage changes its own pages
and keeps the others. The later stages are calls of `map`, and `Drafted.draw` is one such call. -/

/-- The draft has the identity map of the pages in `P`, and a table in the slots `T`. -/
structure Shows (D : Draft) (P : Nat → Nat → Prop) (T : Nat → Prop) : Prop where
  page : ∀ i j, i < 1024 → j < 1024 → P i j → D.pte i j = pageAt i j ||| kFlags
  none : ∀ i j, i < 1024 → j < 1024 → ¬ P i j → D.pte i j = 0#32
  slot : ∀ i, D.pde i ≠ 0#32 ↔ T i

theorem Shows.congr {D : Draft} {P P' : Nat → Nat → Prop} {T T' : Nat → Prop} (h : Shows D P T)
    (hP : ∀ i j, i < 1024 → j < 1024 → (P' i j ↔ P i j)) (hT : ∀ i, T' i ↔ T i) :
    Shows D P' T' where
  page i j hi hj hp := h.page i j hi hj ((hP i j hi hj).mp hp)
  none i j hi hj hp := h.none i j hi hj fun h' => hp ((hP i j hi hj).mpr h')
  slot i := (h.slot i).trans (hT i).symm

theorem Drawn.shows {D D' : Draft} {P : Nat → Nat → Prop} {T : Nat → Prop} {va : Word}
    (hva : Aligned va) (h : Drawn D (pdi va) (pti va) (va ||| kFlags) D') (hS : Shows D P T) :
    Shows D' (fun i j => P i j ∨ pageAt i j = va) fun i => T i ∨ i = pdi va where
  page i j hi hj hp := by
    rw [h.pte]
    by_cases he : i = pdi va ∧ j = pti va
    · rw [if_pos he, he.1, he.2, pageAt_of_aligned hva]
    · rw [if_neg he]
      exact hS.page i j hi hj (hp.resolve_right fun h' => he ((pageAt_eq_iff hi hj hva).mp h'))
  none i j hi hj hp := by
    rw [not_or, pageAt_eq_iff hi hj hva] at hp
    rw [h.pte, if_neg hp.2]
    exact hS.none i j hi hj hp.1
  slot i := by rw [h.pde, hS.slot]

section stages

variable {s : Machine} {D : Draft} {n : Nat} {P : Nat → Nat → Prop} {T : Nat → Prop}

/-- A page is mapped. -/
theorem Drafted.draw (h : Drafted s D n) (hS : Shows D P T) {va : Word} (hva : Aligned va) :
    wp (map D.kpd va va kFlags) (fun _ s' => ∃ D', Drafted s' D' (n - 2) ∧ D'.kpd = D.kpd ∧
        Shows D' (fun i j => P i j ∨ pageAt i j = va) fun i => T i ∨ i = pdi va)
      (fun e _ => e = .noFrames ∧ n < 2) s :=
  wp_mono (h.map_spec hva)
    (fun _ _ hpost => hpost.elim fun D' h' => ⟨D', h'.1, h'.2.kpd, h'.2.shows hva hS⟩)
    (fun _ _ he => he)

/-- A new table, filled, goes into slot `k`. -/
theorem Drafted.newSlot (h : Drafted s D n) (hS : Shows D P T) {p : Word} {k : Nat}
    (hp : Spare D p) {f : Nat → Word} (hf : ∀ j, f j = 0#32 ∨ KernelEntry (f j))
    (hm : ∀ j, j < 1024 → s.mem p j = f j) {Q : Nat → Prop}
    (hQ : ∀ j, j < 1024 → Q j → f j = pageAt k j ||| kFlags)
    (hnQ : ∀ j, j < 1024 → ¬ Q j → f j = 0#32) :
    ∃ D', Drafted (s.put D.kpd k (p ||| kFlags)) D' n ∧ D'.kpd = D.kpd ∧
      Shows D' (fun i j => i ≠ k ∧ P i j ∨ i = k ∧ Q j) fun i => T i ∨ i = k := by
  have hpo : ∀ i, i ≠ k → (D.install k p f).pde i = D.pde i := fun i hi => Function.update_of_ne hi _ _
  have hto : ∀ i, i ≠ k → (D.install k p f).pte i = D.pte i := fun i hi => Function.update_of_ne hi _ _
  have hpk : (D.install k p f).pde k = p ||| kFlags := Function.update_self ..
  have htk : (D.install k p f).pte k = f := Function.update_self ..
  refine ⟨_, h.install hp hf hm, rfl, fun i j hi hj hp' => ?_, fun i j hi hj hp' => ?_, fun i => ?_⟩
  · obtain ⟨hik, hP⟩ | ⟨rfl, hQj⟩ := hp'
    · rw [hto i hik]
      exact hS.page i j hi hj hP
    · rw [htk]
      exact hQ j hj hQj
  · by_cases hik : i = k
    · rw [hik, htk]
      exact hnQ j hj fun hQj => hp' (Or.inr ⟨hik, hQj⟩)
    · rw [hto i hik]
      exact hS.none i j hi hj fun hP => hp' (Or.inl ⟨hik, hP⟩)
  · by_cases hik : i = k
    · rw [hik, hpk]
      exact iff_of_true (kernelEntry_mk (h.aligned hp.1)).ne_zero (Or.inr rfl)
    · rw [hpo i hik, hS.slot, or_iff_left hik]

/-- The full tables. -/
theorem Drafted.fullTables (h : Drafted s D n) (h0 : ∀ i, D.pde i = 0#32) {N : Nat}
    (hN : N ≤ 1024) :
    wp (forI N fun pdi => do
        let pt ← unsafeAllocFrame
        forI PAGES_PER_TABLE fun pti =>
          K.store pt pti (identity pdi pti)
        K.store D.kpd pdi (pt ||| kFlags))
      (fun _ s' => ∃ D', Drafted s' D' (n - N) ∧ D'.kpd = D.kpd ∧
        Shows D' (fun i _ => i < N) fun i => i < N)
      (fun e _ => e = .noFrames ∧ n < N) s := by
  refine wp_forI (I := fun k s' => ∃ D', Drafted s' D' (n - k) ∧ D'.kpd = D.kpd ∧
    Shows D' (fun i _ => i < k) fun i => i < k)
    (fun k hk s₁ hinv => ?_)
    ⟨D, h, rfl, fun i _ _ _ hp => absurd hp (Nat.not_lt_zero i), fun i j _ _ _ => h.noTable i j (h0 i),
      fun i => by simp [h0 i]⟩
  obtain ⟨D₁, h₁, hkpd, hS⟩ := hinv
  simp only [wp_bind, wp_store]
  refine wp_mono h₁.unsafeAllocFrame_spec (fun p s₂ hpost => ?_)
    (fun _ _ he => ⟨he.1, by omega⟩)
  obtain ⟨hzero, hfree, h₂, hsp⟩ := hpost
  -- the new table is filled before the directory names it
  refine wp_mono (wp_forI (n := PAGES_PER_TABLE) (I := fun l s' => Drafted s' (D₁.addRaw p) (n - k - 1) ∧
    ∀ j, j < l → s'.mem p j = identity k j) (fun l _ s₃ hinv => ?_)
    ⟨h₂, fun j hj => absurd hj (Nat.not_lt_zero j)⟩) (fun _ s₃ hpost => ?_) (fun _ _ he => he)
  · obtain ⟨h₃, hm⟩ := hinv
    refine ⟨h₃.fill hsp _, fun j hj => ?_⟩
    show Function.update s₃.mem p _ p j = _
    rw [Function.update_self]
    by_cases hjl : j = l
    · rw [hjl, Function.update_self]
    · rw [Function.update_of_ne hjl]
      exact hm j (by omega)
  · obtain ⟨h₃, hm⟩ := hpost
    have hS₃ : Shows (D₁.addRaw p) (fun i _ => i < k) fun i => i < k := ⟨hS.page, hS.none, hS.slot⟩
    obtain ⟨D₂, h₄, hk₂, hS₂⟩ := h₃.newSlot hS₃ (k := k) (f := fun j => pageAt k j ||| kFlags)
      (Q := fun _ => True) hsp (fun j => Or.inr (kernelEntry_mk (aligned_pageAt k j)))
      (fun j hj => by rw [hm j hj, identity_eq (by omega) hj]) (fun _ _ _ => rfl)
      (fun _ _ hn => absurd trivial hn)
    have hkpd' : (D₁.addRaw p).kpd = D.kpd := hkpd
    rw [hkpd', Nat.sub_sub] at h₄
    exact ⟨D₂, h₄, hk₂.trans hkpd', hS₂.congr
      (fun i j _ _ => by rw [and_true]; omega) fun i => by omega⟩

/-- The last, partial table. -/
theorem Drafted.lastTable (h : Drafted s D n) (hS : Shows D P T) {va : Word} {M : Nat}
    (hva : va.toNat % 2 ^ 22 = 0) (hM : M ≤ 1024) (hfit : va.toNat + M * 4096 < 2 ^ 32)
    (hP : ∀ j, ¬ P (pdi va) j) {kpd : Word} (hk : D.kpd = kpd) :
    wp (do
        let pt ← unsafeAllocFrame
        K.store kpd (va >>> 22).toNat (pt ||| kFlags)
        forI M fun k =>
          map kpd (va + BitVec.ofNat 32 (4096 * k)) (va + BitVec.ofNat 32 (4096 * k)) kFlags)
      (fun _ s' => ∃ D', Drafted s' D' (n - 1) ∧ D'.kpd = kpd ∧
        Shows D' (fun i j => P i j ∨ i = pdi va ∧ j < M) fun i => T i ∨ i = pdi va)
      (fun e _ => e = .noFrames ∧ n < 1) s := by
  subst hk
  have hlt := va.isLt
  simp only [wp_bind, wp_store]
  refine wp_mono h.unsafeAllocFrame_spec (fun p s₁ hpost => ?_)
    (fun _ _ he => ⟨he.1, by omega⟩)
  obtain ⟨hzero, hfree, h₁, hsp⟩ := hpost
  have hS₁ : Shows (D.addRaw p) P T := ⟨hS.page, hS.none, hS.slot⟩
  obtain ⟨D₁, h₂, hk₁, hS₂⟩ := h₁.newSlot hS₁ (k := pdi va) (f := fun _ => 0#32) (Q := fun _ => False)
    hsp (fun _ => Or.inl rfl) (fun j _ => by rw [hzero]) (fun _ _ hf => hf.elim) (fun _ _ _ => rfl)
  -- all its pages are in one slot, so `map` finds the table there
  have hpages : ∀ k, k < M → Aligned (va + BitVec.ofNat 32 (4096 * k)) ∧
      pdi (va + BitVec.ofNat 32 (4096 * k)) = pdi va ∧
      pti (va + BitVec.ofNat 32 (4096 * k)) = k := by
    intro k hk
    have hval : (va + BitVec.ofNat 32 (4096 * k)).toNat = va.toNat + 4096 * k := by
      rw [BitVec.toNat_add, BitVec.toNat_ofNat]
      omega
    rw [pdi_eq, pti_eq, pdi_eq]
    unfold Aligned
    rw [hval]
    omega
  refine wp_forI (I := fun k s' => ∃ D', Drafted s' D' (n - 1) ∧ D'.kpd = D.kpd ∧
    Shows D' (fun i j => P i j ∨ i = pdi va ∧ j < k) fun i => T i ∨ i = pdi va)
    (fun k hk s₂ hinv => ?_) ⟨D₁, h₂, hk₁, hS₂.congr (fun i j _ _ => ?_) fun _ => Iff.rfl⟩
  · obtain ⟨D₂, h₃, hk₂, hS₃⟩ := hinv
    obtain ⟨hal, hpdi, hpti⟩ := hpages k hk
    rw [← hk₂]
    refine wp_mono (h₃.map_present hal (by rw [hpdi, hS₃.slot]; exact Or.inr rfl))
      (fun _ s₃ hpost => ?_) (fun _ _ he => he.elim)
    obtain ⟨D₃, h₄, hD⟩ := hpost
    refine ⟨D₃, h₄, hD.kpd, (hD.shows hal hS₃).congr (fun i j hi hj => ?_) fun i => ?_⟩
    · rw [pageAt_eq_iff hi hj hal, hpdi, hpti, Nat.lt_succ_iff_lt_or_eq]
      tauto
    · rw [hpdi]
      tauto
  · constructor
    · rintro (hp | ⟨-, hj⟩)
      · refine Or.inl ⟨?_, hp⟩
        rintro rfl
        exact hP j hp
      · exact absurd hj (Nat.not_lt_zero j)
    · rintro (⟨-, hp⟩ | ⟨-, hf⟩)
      · exact Or.inl hp
      · exact hf.elim

end stages

/-! ## `global_init`

`Config.Valid` is what a machine must be like for the kernel to start at all: sizes and addresses
at page boundaries, and memory beyond the kernel's own. The frames that the tables take are
counted, for they come from the same pool as those of processes. -/

/-- What the machine must be for the kernel to start: memory and the APICs begin and end at page
boundaries, and there is memory for the kernel's heap. -/
structure Config.Valid (c : Config) : Prop where
  memAligned : Aligned c.memSize
  heapFits : VMM_FRAMES.toNat ≤ c.memSize.toNat
  localAligned : Aligned c.localAPIC
  ioAligned : Aligned c.ioAPIC

/-- The pages the kernel maps: memory but for the first page, and the two APICs. -/
def Config.Maps (c : Config) (i j : Nat) : Prop :=
  0x1000 ≤ (pageAt i j).toNat ∧ (pageAt i j).toNat < c.memSize.toNat ∨
    pageAt i j = c.localAPIC ∨ pageAt i j = c.ioAPIC

/-- The slots of the kernel's directory that have a table. -/
def Config.HasTable (c : Config) (i : Nat) : Prop :=
  i * 2 ^ 22 < c.memSize.toNat ∨ i = pdi c.localAPIC ∨ i = pdi c.ioAPIC

/-- The frames that starting the kernel takes at most. -/
def Config.bootFrames (c : Config) : Nat := c.memSize.toNat / 2 ^ 22 + 6

/-- The allocator before anything has been allocated. -/
def Untouched (s : Machine) (n : Nat) : Prop :=
  ∃ L, PInv s L ∧ (∀ p, L.own p = .none) ∧ L.free = [] ∧ n ≤ PCore.room s L

section globalInit

variable {s : Machine} {D : Draft} {n : Nat} {c : Config}

/-- The kernel's directory, empty. -/
theorem Untouched.firstFrame (h : Untouched s n) :
    wp unsafeAllocFrame (fun p s' => ∃ D, Drafted { s' with kpd := p } D (n - 1) ∧ D.kpd = p ∧
        ∀ i, D.pde i = 0#32)
      (fun e _ => e = .noFrames ∧ n < 1) s := by
  obtain ⟨L, H, ho, hf, hr⟩ := h
  refine wp_mono (PhysMem.unsafeAllocFrame_spec H) (fun p s' ⟨H', T⟩ => ?_)
    (fun e _ he => ⟨he.1, by have := he.2.2; omega⟩)
  have hroom := T.room
  refine ⟨⟨p, {p}, ∅, fun _ => 0#32, fun _ _ => 0#32⟩, {
    stock := ⟨L.take p, H'.regs p s'.cr3 s'.tlb, ?_, ?_, ?_⟩
    kpd := rfl
    kpdRaw := Finset.mem_singleton_self p
    disj := fun q hq => absurd hq (Finset.notMem_empty q)
    mem := fun i _ => by
      show s'.mem p i = _
      rw [T.zero]
    table := fun _ _ _ _ hne => absurd rfl hne
    pdeOk := fun _ => Or.inl rfl
    pteOk := fun _ _ => Or.inl rfl
    tableIn := fun _ hne => absurd rfl hne
    tableNe := fun _ hne => absurd rfl hne
    inj := fun _ _ hne => absurd rfl hne
    noTable := fun _ _ _ => rfl }, rfl, fun _ => rfl⟩
  · funext q
    rw [Ledger.take_own]
    unfold Draft.own
    by_cases hq : q = p
    · rw [hq, Function.update_self, if_pos (Finset.mem_singleton_self p)]
    · rw [Function.update_of_ne hq, if_neg (by simpa using hq), if_neg (Finset.notMem_empty q), ho]
  · show L.free.tail = []
    rw [hf]
    rfl
  · show n - 1 ≤ PCore.room s' (L.take p)
    omega

/-- The last two lines of `global_init`. -/
theorem Drafted.apics (h : Drafted s D n) (hc : c.Valid)
    (hS : Shows D (fun i j => 0x1000 ≤ (pageAt i j).toNat ∧ (pageAt i j).toNat < c.memSize.toNat)
      fun i => i * 2 ^ 22 < c.memSize.toNat) {kpd : Word} (hk : D.kpd = kpd) :
    wp (do
        map kpd c.localAPIC c.localAPIC kFlags
        map kpd c.ioAPIC c.ioAPIC kFlags)
      (fun _ s' => ∃ D', Drafted s' D' (n - 4) ∧ Shows D' c.Maps c.HasTable)
      (fun e _ => e = .noFrames ∧ n < 4) s := by
  subst hk
  rw [wp_bind]
  refine wp_mono (h.draw hS hc.localAligned) (fun _ s₁ ⟨D₁, h₁, hk₁, hS₁⟩ => ?_)
    (fun _ _ he => ⟨he.1, by omega⟩)
  rw [← hk₁]
  refine wp_mono (h₁.draw hS₁ hc.ioAligned) (fun _ s₂ ⟨D₂, h₂, _, hS₂⟩ => ?_)
    (fun _ _ he => ⟨he.1, by omega⟩)
  refine ⟨D₂, (show n - 2 - 2 = n - 4 by omega) ▸ h₂, hS₂.congr (fun i j _ _ => ?_) fun i => ?_⟩
  · unfold Config.Maps
    rw [or_assoc]
  · unfold Config.HasTable
    rw [or_assoc]

theorem globalInit_spec (h : Untouched s n) (hc : c.Valid) :
    wp (globalInit c) (fun _ s' => ∃ D, Drafted s' D (n - c.bootFrames) ∧ Shows D c.Maps c.HasTable)
      (fun e _ => e = .noFrames ∧ n < c.bootFrames) s := by
  have hlt := c.memSize.isLt
  have hal : c.memSize.toNat % 4096 = 0 := hc.memAligned
  have hheap := hc.heapFits
  have hframes : VMM_FRAMES.toNat = 6291456 := by decide
  have hN : (c.memSize >>> 22).toNat = c.memSize.toNat / 2 ^ 22 := by
    rw [BitVec.toNat_ushiftRight, Nat.shiftRight_eq_div_pow]
  have hva : (c.memSize &&& 0xffc00000#32).toNat = c.memSize.toNat / 2 ^ 22 * 2 ^ 22 :=
    toNat_and_region c.memSize
  have hpva : pdi (c.memSize &&& 0xffc00000#32) = c.memSize.toNat / 2 ^ 22 := by
    rw [pdi_eq, hva]
    omega
  unfold globalInit Config.bootFrames
  simp only [wp_bind, wp_modify]
  refine wp_mono h.firstFrame (fun p s₁ hpost => ?_) (fun _ _ he => ⟨he.1, by omega⟩)
  obtain ⟨D₁, h₁, hkp, h0⟩ := hpost
  subst hkp
  have hfull := h₁.fullTables h0 (N := c.memSize.toNat / 2 ^ 22) (by omega)
  rw [hN]
  refine wp_mono hfull (fun _ s₂ hpost => ?_) (fun _ _ he => ⟨he.1, by omega⟩)
  obtain ⟨D₂, h₂, hk₂, hS₂⟩ := hpost
  rw [← hk₂]
  -- there are at least 4 MB, so the first table is there
  have h0ne : D₂.pde 0 ≠ 0#32 := (hS₂.slot 0).mpr (by omega)
  simp only [wp_load, wp_store, wp_ite, h₂.mem 0 (by omega)]
  -- the first page is unmapped
  have h₃ : Drafted (s₂.put (D₂.pde 0 &&& Flag.MASK) 0 0#32) (D₂.setPte 0 0 0#32)
      (n - 1 - c.memSize.toNat / 2 ^ 22) := h₂.setPte (j := 0) h0ne (Or.inl rfl)
  have hD := Drafted.drawn_setPte (j := 0) (v := 0#32) h0ne
  have hS₃ : Shows (D₂.setPte 0 0 0#32) (fun i j => i < c.memSize.toNat / 2 ^ 22 ∧ ¬ (i = 0 ∧ j = 0))
      fun i => i < c.memSize.toNat / 2 ^ 22 := {
    page := fun i j hi hj hp => by
      rw [hD.pte, if_neg hp.2]
      exact hS₂.page i j hi hj hp.1
    none := fun i j hi hj hp => by
      rw [hD.pte]
      by_cases h00 : i = 0 ∧ j = 0
      · rw [if_pos h00]
      · rw [if_neg h00]
        exact hS₂.none i j hi hj fun hlt => hp ⟨hlt, h00⟩
    slot := hS₂.slot }
  by_cases hpart : c.memSize &&& 0xffc00000#32 < c.memSize
  · rw [if_pos hpart]
    rw [BitVec.lt_def, hva] at hpart
    have hM : (c.memSize.toNat - (c.memSize &&& 0xffc00000#32).toNat + 4095) / 4096 =
        c.memSize.toNat % 2 ^ 22 / 4096 := by
      rw [hva]
      omega
    have hbase : (c.memSize &&& 0xffc00000#32).toNat % 2 ^ 22 = 0 := by
      rw [hva]
      exact Nat.mul_mod_left _ _
    have hfit : (c.memSize &&& 0xffc00000#32).toNat + c.memSize.toNat % 2 ^ 22 / 4096 * 4096 <
        2 ^ 32 := by
      rw [hva]
      calc _ ≤ c.memSize.toNat / 2 ^ 22 * 2 ^ 22 + c.memSize.toNat % 2 ^ 22 :=
            Nat.add_le_add_left (Nat.div_mul_le_self _ _) _
        _ = c.memSize.toNat := Nat.div_add_mod' _ _
        _ < 2 ^ 32 := hlt
    -- the rest of memory begins in a slot of its own
    have hnew : ∀ j, ¬ (pdi (c.memSize &&& 0xffc00000#32) < c.memSize.toNat / 2 ^ 22 ∧
        ¬ (pdi (c.memSize &&& 0xffc00000#32) = 0 ∧ j = 0)) := by
      intro j hp
      rw [hpva] at hp
      exact Nat.lt_irrefl _ hp.1
    have hlast := h₃.lastTable hS₃ hbase (by omega) hfit hnew (rfl : _ = D₂.kpd)
    rw [hM]
    simp only [wp_bind, wp_store] at hlast ⊢
    refine wp_mono hlast (fun pt s₃ hl => ?_) (fun _ _ he => ⟨he.1, by omega⟩)
    refine wp_mono hl (fun _ s₄ hpost => ?_) (fun _ _ he => ⟨he.1, by omega⟩)
    obtain ⟨D₄, h₄, hk₄, hS₄⟩ := hpost
    have hap := h₄.apics hc (hS₄.congr (fun i j hi hj => ?_) fun i => ?_) hk₄
    · rw [wp_bind] at hap
      exact wp_mono hap
        (fun _ _ h' => wp_mono h'
          (fun _ _ hpost => hpost.elim fun D' h₅ => ⟨D', h₅.1.weaken (by omega), h₅.2⟩)
          (fun _ _ he => ⟨he.1, by omega⟩))
        (fun _ _ he => ⟨he.1, by omega⟩)
    · rw [toNat_pageAt hi hj, hpva]
      omega
    · rw [hpva]
      omega
  · rw [if_neg hpart]
    rw [BitVec.lt_def, hva] at hpart
    have hap := h₃.apics hc (hS₃.congr (fun i j hi hj => ?_) fun i => ?_) (rfl : _ = D₂.kpd)
    · exact wp_mono hap
        (fun _ _ hpost => hpost.elim fun D' h₅ => ⟨D', h₅.1.weaken (by omega), h₅.2⟩)
        (fun _ _ he => ⟨he.1, by omega⟩)
    · rw [toNat_pageAt hi hj]
      omega
    · omega

end globalInit

/-! ## The kernel's map

The finished draft is handed over to the part of the development that knows about processes. From
here on the kernel's entries are constants: every directory of a process begins with them, and no
operation overwrites one that is in use. -/

/-- The finished draft. -/
def Drafted.map {s : Machine} {D : Draft} {n : Nat} (h : Drafted s D n)
    (hused : ∀ i, D.pde i ≠ 0#32 → ∃ j, j < 1024 ∧ D.pte i j ≠ 0#32) : KernelMap where
  kpd := D.kpd
  raw := D.raw
  counted := D.counted
  pde := D.pde
  pte := D.pte
  kpdRaw := h.kpdRaw
  disj := h.disj
  pdeOk := h.pdeOk
  pteOk := h.pteOk
  tableIn := h.tableIn
  used := hused
  noTable := h.noTable

/-- No process: the only references are the kernel's own. -/
def Space.idle (κ : KernelMap) : Space where
  dirs := ∅
  tables := ∅
  ent := fun _ _ => 0#32
  home := fun _ => 0
  extra := fun p => if p ∈ κ.counted then 1 else 0
  dying := ∅

theorem Space.count_idle (κ : KernelMap) (p : Word) :
    (Space.idle κ).count p = if p ∈ κ.counted then 1 else 0 := by
  have hn : (Space.idle κ).names p = 0 := by
    by_contra hne
    obtain hd | ⟨x, hx, -⟩ := names_pos_iff.mp (Nat.pos_of_ne_zero hne)
    · exact absurd hd (Finset.notMem_empty p)
    · rw [mem_nodes] at hx
      exact hx.elim (fun h => absurd h (Finset.notMem_empty x)) fun h =>
        absurd h (Finset.notMem_empty x)
  unfold count
  rw [hn, Nat.zero_add]
  rfl

theorem Shape.idle (κ : KernelMap) (b : Prop) : Shape κ b (Space.idle κ) where
  disj d hd := absurd hd (Finset.notMem_empty d)
  held t ht := absurd ht (Finset.notMem_empty t)
  still p hp := by
    rw [Space.count_idle, if_neg]
    obtain h | h := hp
    · exact fun hc => κ.disj p hc h
    · exact absurd h (Finset.notMem_empty p)
  dyingRaw p hp := absurd hp (Finset.notMem_empty p)
  kernelNodes x hx := by
    rw [Space.mem_nodes] at hx
    exact hx.elim (fun h => absurd h (Finset.notMem_empty x)) fun h =>
      absurd h (Finset.notMem_empty x)
  kernelCounted p hp := by
    show 0 < if p ∈ κ.counted then 1 else 0
    rw [if_pos hp]
    exact Nat.one_pos
  dirEntry d hd := absurd hd (Finset.notMem_empty d)
  tableEntry t ht := absurd ht (Finset.notMem_empty t)

/-- The kernel has started: `κ` is its map of `c`, and `a` names the tables of reference counts
that the kernel's own frames pin down. -/
structure Booted (c : Config) (s : Machine) (κ : KernelMap) (a : Word → Word → Prop) (n : Nat) :
    Prop where
  sound : Sound κ True s (Space.idle κ) n a
  cr3 : s.cr3 = κ.kpd
  page : ∀ i j, i < 1024 → j < 1024 → c.Maps i j → κ.pte i j = pageAt i j ||| kFlags
  none : ∀ i j, i < 1024 → j < 1024 → ¬ c.Maps i j → κ.pte i j = 0#32
  slot : ∀ i, κ.pde i ≠ 0#32 ↔ c.HasTable i
  pins : ∀ x ∈ κ.counted, ∃ t, a x t
  /-- Every frame handed out so far is the kernel's, or such a table. -/
  pool : ∀ p, InPool s p → p ∈ κ.frames ∨ ∃ x, a x p

/-- A slot with a table has a page. -/
theorem Config.Maps.of_hasTable {c : Config} (hc : c.Valid) {i : Nat} (h : c.HasTable i) :
    i < 1024 ∧ ∃ j, j < 1024 ∧ c.Maps i j := by
  have hlt := c.memSize.isLt
  have hal : c.memSize.toNat % 4096 = 0 := hc.memAligned
  have hheap := hc.heapFits
  have hframes : VMM_FRAMES.toNat = 6291456 := by decide
  unfold Config.Maps
  obtain h | rfl | rfl := h
  · have hi : i < 1024 := by omega
    refine ⟨hi, if i = 0 then 1 else 0, by split <;> omega, Or.inl ?_⟩
    rw [toNat_pageAt hi (by split <;> omega)]
    split <;> omega
  · exact ⟨pdi_lt _, _, pti_lt _, Or.inr (Or.inl (pageAt_of_aligned hc.localAligned))⟩
  · exact ⟨pdi_lt _, _, pti_lt _, Or.inr (Or.inr (pageAt_of_aligned hc.ioAligned))⟩

/-- The draft that `global_init` leaves is a kernel's map. -/
theorem Drafted.booted {s : Machine} {D : Draft} {n : Nat} {c : Config} (h : Drafted s D n)
    (hc : c.Valid) (hS : Shows D c.Maps c.HasTable) :
    ∃ κ a, κ.kpd = D.kpd ∧ Booted c { s with cr3 := D.kpd, tlb := [] } κ a n := by
  obtain ⟨L, H, ho, hf, hr⟩ := h.stock
  have hused : ∀ i, D.pde i ≠ 0#32 → ∃ j, j < 1024 ∧ D.pte i j ≠ 0#32 := by
    intro i hne
    obtain ⟨hi, j, hj, hm⟩ := Config.Maps.of_hasTable hc ((hS.slot i).mp hne)
    refine ⟨j, hj, ?_⟩
    rw [hS.page i j hi hj hm]
    exact (kernelEntry_mk (aligned_pageAt i j)).ne_zero
  have hown : (Space.idle (h.map hused)).own (h.map hused) = L.own := by
    rw [ho]
    funext p
    have hk := Space.count_idle (h.map hused) p
    unfold Space.own Draft.own
    by_cases hp : p ∈ D.raw
    · rw [if_pos hp]
      exact if_pos hp
    · rw [if_neg hp]
      refine (if_neg hp).trans ((if_neg (Finset.notMem_empty p)).trans ?_)
      by_cases hpc : p ∈ D.counted
      · rw [if_pos hpc, hk.trans (if_pos hpc)]
      · rw [if_neg hpc, hk.trans (if_neg hpc)]
  refine ⟨h.map hused, fun x t => x ∈ D.counted ∧ L.table (ridx s.start x) = some t, rfl, {
    sound := {
      acc := ⟨L, ⟨H.regs s.kpd D.kpd [], hown.symm, hr, fun x t hx => ⟨hx.2, ?_⟩⟩⟩
      shape := Shape.idle _ _
      kernel := ⟨h.kpd, h.mem, h.table⟩
      anchor := fun x t hx => hx.1 }
    cr3 := rfl
    page := hS.page
    none := hS.none
    slot := hS.slot
    pins := fun x hx => ?_
    pool := fun p hp => ?_ }⟩
  · have hr : x ∉ D.raw := h.disj x hx.1
    rw [hown, ho]
    unfold Draft.own
    rw [if_neg hr, if_pos hx.1]
    rfl
  · have hxc : x ∈ D.counted := hx
    have hl : (L.own x).live = true := by
      rw [ho]
      unfold Draft.own
      rw [if_neg (h.disj x hxc), if_pos hxc]
      rfl
    obtain ⟨t, ht⟩ := H.table_of_live hl
    exact ⟨t, hx, ht⟩
  · by_cases hpf : p ∈ D.frames
    · exact Or.inl hpf
    -- a frame that nobody holds can only be a table, of a chunk where the kernel holds a frame
    have hnone : L.own p = .none := by
      rw [ho]
      exact not_not.mp fun hne => hpf (Draft.own_ne_none_iff.mp hne)
    obtain hfree | ⟨ch, hch⟩ := H.cover p hp hnone
    · rw [hf] at hfree
      exact absurd hfree (by simp)
    · obtain ⟨x, hl, hx⟩ := exists_live_of_pop_pos H.startAl (H.popPos ch p hch (by simp))
      have hxn : L.own x ≠ .none := by
        intro h0
        rw [h0] at hl
        exact absurd hl (by simp)
      have hxc : x ∈ D.counted := by
        rw [ho] at hl
        unfold Draft.own at hl
        split at hl
        · exact absurd hl (by simp)
        · split at hl
          · assumption
          · exact absurd hl (by simp)
      refine Or.inr ⟨x, hxc, ?_⟩
      rw [hx (H.ownLe hxn) (H.ownAl hxn)]
      exact hch

/-- The frames there are. -/
def Config.poolFrames (c : Config) : Nat := (c.memSize.toNat - VMM_FRAMES.toNat) / 4096

/-- The allocator as `kernelInit` sets it up. -/
theorem init_untouched {c : Config} (hc : c.Valid) (m : Machine) :
    wp (PhysMem.init VMM_FRAMES (c.memSize - VMM_FRAMES)) (fun _ s => Untouched s c.poolFrames)
      (fun _ _ => False) m := by
  have hlt := c.memSize.isLt
  have hal : c.memSize.toNat % 4096 = 0 := hc.memAligned
  have hheap := hc.heapFits
  have hframes : VMM_FRAMES.toNat = 6291456 := by decide
  have hsize : (c.memSize - VMM_FRAMES).toNat = c.memSize.toNat - VMM_FRAMES.toNat := by
    rw [BitVec.toNat_sub]
    omega
  refine wp_mono (init_spec (by decide : Aligned VMM_FRAMES)
    (by unfold Aligned; omega : Aligned (c.memSize - VMM_FRAMES)) (by decide) (by omega))
    (fun _ s₁ ⟨hst, hav, hlim, H⟩ => ?_) (fun _ _ he => he)
  refine ⟨_, H, fun _ => rfl, rfl, ?_⟩
  unfold Config.poolFrames PCore.room
  rw [hlim, hav, BitVec.toNat_add, hsize, List.length_nil, Nat.zero_add]
  refine Nat.div_le_div_right ?_
  omega

/-- The kernel starts, whatever memory holds, if there are frames enough. -/
theorem boot_spec {c : Config} (hc : c.Valid) (m : Machine) :
    wp (boot c) (fun _ s => ∃ κ a, Booted c s κ a (c.poolFrames - c.bootFrames))
      (fun e _ => e = .noFrames ∧ c.poolFrames < c.bootFrames) m := by
  unfold boot perCoreInit
  simp only [wp_bind, wp_get, wp_assert, wp_setCR3]
  refine wp_mono (init_untouched hc m) (fun _ s₁ h₁ => ?_) (fun _ _ he => he.elim)
  refine wp_mono (globalInit_spec h₁ hc) (fun _ s₂ hpost => ?_) (fun _ _ he => he)
  obtain ⟨D, h₂, hS⟩ := hpost
  obtain ⟨κ, a, hk, B⟩ := h₂.booted hc hS
  have hne : s₂.kpd ≠ 0#32 := by
    intro h0
    obtain ⟨L, H₂, ho, -, -⟩ := h₂.stock
    have hpos := H₂.startPos
    have hle := H₂.ownLe (p := D.kpd) (by
      rw [ho]
      exact Draft.own_ne_none_iff.mpr (Finset.mem_union_left _ h₂.kpdRaw))
    rw [← h₂.kpd, h0] at hle
    have : (0#32 : Word).toNat = 0 := rfl
    omega
  rw [if_pos hne]
  rw [← h₂.kpd] at B
  exact ⟨κ, a, B⟩

end OsKernel.Vmm
