import OsKernel.Vmm.Flush
import OsKernel.Vmm.Registers

/-!
# Cores with a TLB

`System` translates every access by a walk through the tables. Here each core has a CR3 of its
own and a TLB, and a process reads and writes through what is cached there. The processor may
cache what the tables grant at any time between two operations of the kernel, and forget it at
any time; the kernel takes out what it thinks it has to.

It is enough. `Coherent` says that what a TLB holds is what the tables say, and each step
keeps it.

## What is assumed of the rest of the kernel

Three conditions stand in `Cores.step`, because their reasons are outside of the memory
manager.

* A process is loaded on one core at most. It has one thread, and a thread is in one place
  (`Threads/Place.lean`).
* A process is destroyed when it is loaded on no core. Its `PCB` goes with the last handle,
  and a thread's own handle goes when the thread is deleted, by another thread under another
  directory.
* The error code of a fault says that there is no page only if there is none. This is the
  processor's: it walks the tables when it faults.

The first is what makes local flushes enough. If two cores had a process loaded, the second
would keep what `write_protect` withdraws on the first, and the kernel sends no interrupts
about it.

## What it does not do

The kernel's own accesses go through the tables, and only user translations are cached. The
kernel's pages are the same in all directories and never change, so caching them could not be
noticed. Nor does a TLB remember directory entries by themselves.
-/

set_option autoImplicit false

namespace OsKernel.Vmm

open Lib Lib.Prog K PhysMem

/-! ## The cores -/

/-- The machine that the cores share, the directories of the processes that are alive, and for each
core its CR3 and its TLB. The registers in `machine` are those of the core that worked last. -/
structure Cores (C : Type) where
  machine : Machine
  live : Finset Word
  cr3 : C → Word
  tlb : C → List TlbEntry

/-- The processor's own part, and the operations of the kernel on the core `k`. Those of a process
run where its directory is loaded. -/
inductive CoreOp (C : Type)
  | create (k : C)
  | fork (k : C)
  | fault (k : C) (va error_code : Word)
  | exec (k : C) (discard : Nat → Bool)
  | exit (k : C) (pd : Word)
  /-- `block` goes on with a thread of the process with directory `pd`. -/
  | switch (k : C) (pd : Word)
  /-- The process stores through the entry `e`, to all or part of a word. -/
  | store (k : C) (e : TlbEntry) (va : Word) (f : Word → Word)
  /-- The processor caches the translation of the page of `va`, with or without writing. -/
  | fill (k : C) (va : Word) (rw : Bool)
  /-- The processor forgets an entry. -/
  | forget (k : C) (e : TlbEntry)

/-- `block` loads CR3 if it changes. -/
def switchTo (new_cr3 : Word) : K Unit := do
  let old_cr3 ← getCR3
  if old_cr3 ≠ new_cr3 then
    setCR3 new_cr3

theorem switchTo_same {s : Machine} {pd : Word} (h : s.cr3 = pd) : switchTo pd s = .ok () s := by
  show (if s.cr3 ≠ pd then setCR3 pd else pure () : K Unit) s = _
  rw [if_neg (not_not.mpr h)]
  rfl

theorem switchTo_other {s : Machine} {pd : Word} (h : s.cr3 ≠ pd) :
    switchTo pd s = .ok () { s with cr3 := pd, tlb := [] } := by
  show (if s.cr3 ≠ pd then setCR3 pd else pure () : K Unit) s = _
  rw [if_pos h]
  rfl

namespace Cores

variable {C : Type} [DecidableEq C]

/-- The machine as the core `k` sees it. -/
def on (σ : Cores C) (k : C) : Machine := { σ.machine with cr3 := σ.cr3 k, tlb := σ.tlb k }

/-- The core `k` has worked, and left `s`. -/
def back (σ : Cores C) (k : C) (s : Machine) (live : Finset Word) : Cores C :=
  ⟨s, live, Function.update σ.cr3 k s.cr3, Function.update σ.tlb k s.tlb⟩

/-- The operations run from start to end. A process is loaded on one core at most, and is destroyed
when it is loaded on none; an error code says that there is no page only if there is none. -/
def step [Fintype C] (σ : Cores C) : CoreOp C → Option (Cores C)
  | .create k =>
    match newProcess (σ.on k) with
    | .ok pd s => some (σ.back k s (insert pd σ.live))
    | .error _ _ => none
  | .fork k =>
    if σ.cr3 k ∈ σ.live then
      match clone (σ.cr3 k) (σ.on k) with
      | .ok pd s => some (σ.back k s (insert pd σ.live))
      | .error _ _ => none
    else none
  | .fault k va error_code =>
    if σ.cr3 k ∈ σ.live ∧
        (error_code &&& 0x1#32 = 0#32 → present (σ.machine.walk (σ.cr3 k) va) = false) then
      (System.survivor (pageFault va error_code (σ.on k))).map fun s => σ.back k s σ.live
    else none
  | .exec k discard =>
    if σ.cr3 k ∈ σ.live then
      (System.survivor (reset discard (σ.cr3 k) (σ.on k))).map fun s => σ.back k s σ.live
    else none
  | .exit k pd =>
    if pd ∈ σ.live ∧ ∀ k', σ.cr3 k' ≠ pd then
      (System.survivor (destroy pd (σ.on k))).map fun s => σ.back k s (σ.live.erase pd)
    else none
  | .switch k pd =>
    if pd = σ.machine.kpd ∨ pd ∈ σ.live ∧ ∀ k', k' ≠ k → σ.cr3 k' ≠ pd then
      (System.survivor (switchTo pd (σ.on k))).map fun s => σ.back k s σ.live
    else none
  | .store k e va f =>
    if e ∈ σ.tlb k ∧ e.page = va &&& Flag.MASK ∧ e.rw = true then
      some ⟨σ.machine.put e.frame (wordOf va) (f (σ.machine.mem e.frame (wordOf va))),
        σ.live, σ.cr3, σ.tlb⟩
    else none
  | .fill k va rw =>
    if σ.machine.allows (σ.cr3 k) va true rw = true then
      some ⟨σ.machine, σ.live, σ.cr3, Function.update σ.tlb k
        (⟨va &&& Flag.MASK, frame (σ.machine.walk (σ.cr3 k) va), rw⟩ :: σ.tlb k)⟩
    else none
  | .forget k e =>
    some ⟨σ.machine, σ.live, σ.cr3,
      Function.update σ.tlb k ((σ.tlb k).filter fun e' => e' ≠ e)⟩

/-- All cores have run `per_core_init`, and no process has been created. -/
def init (σ : System) : Cores C := ⟨σ.machine, ∅, fun _ => σ.machine.kpd, fun _ => []⟩

/-- The same operation where nothing is cached. -/
def op (σ : Cores C) : CoreOp C → Option Op
  | .create _ => some .create
  | .fork k => some (.fork (σ.cr3 k))
  | .fault k va error_code => some (.fault (σ.cr3 k) va error_code)
  | .exec k discard => some (.exec (σ.cr3 k) discard)
  | .exit k pd => some (.exit pd (σ.cr3 k))
  | .store k _ va f => some (.store (σ.cr3 k) va f)
  | .switch _ _ => none
  | .fill _ _ _ => none
  | .forget _ _ => none

/-- The operations of a run, where nothing is cached. -/
def ops [Fintype C] : Cores C → List (CoreOp C) → List Op
  | _, [] => []
  | σ, act :: acts =>
    match σ.step act with
    | none => []
    | some σ' => (σ.op act).toList ++ ops σ' acts

end Cores

/-! ## What a TLB holds

The invariant about an entry is not about memory but about the space behind it: the tables of the
loaded directory name the entry's frame and grant its permission. An operation of one core says
what it does to the space, and `Grants` is kept wherever it takes nothing away.

Two operations take something away. `write_protect` takes permissions, and flushes each page that
it touches, so no entry that writes is left for one; `clear_pd` and `destroy_pd` take pages, and
reload `cr3` or are run under another directory. A page fault gives a page: where a read-only one
is replaced (`map_copy`) its address is flushed, and where there was none (`map`) there is nothing
in the TLB to flush. A table that is replaced on the way shows the pages that were there.

Other cores are not concerned, as no two cores have the same process, and what one process does to
its own tables another does not see. -/

/-- The tables of `d` grant what the entry promises. -/
structure Grants (κ : KernelMap) (S : Space) (d : Word) (e : TlbEntry) : Prop where
  aligned : Aligned e.page
  page : priv (S.pte κ d (pdi e.page) (pti e.page)) = true
  frame : frame (S.pte κ d (pdi e.page) (pti e.page)) = e.frame
  rw : e.rw = true → writable (S.ent d (pdi e.page)) = true ∧
    writable (S.pte κ d (pdi e.page) (pti e.page)) = true

section grants

variable {κ : KernelMap} {b : Prop} {a : Word → Word → Prop} {s : Machine} {S S' : Space}
  {d va : Word} {n : Nat} {e : TlbEntry}

/-- What user mode may do is granted by private entries. -/
theorem Sound.allows_user (h : Sound κ b s S n a) (hA : Agrees s S) (hd : d ∈ S.dirs)
    {write : Bool} : s.allows d va true write = true ↔
    priv (S.pte κ d (pdi va) (pti va)) = true ∧ (write = true →
      writable (S.ent d (pdi va)) = true ∧ writable (S.pte κ d (pdi va) (pti va)) = true) := by
  have T := h.shape.pteEntry hd (pdi_lt va) (pti_lt va)
  have E := h.shape.dirEntry d hd _ (pdi_lt va)
  unfold Machine.allows
  rw [h.walk hA hd, hA d (Space.mem_nodes.mpr (Or.inl hd)) _ (pdi_lt va)]
  constructor
  · intro hall
    simp only [Bool.not_true, Bool.false_or, Bool.and_eq_true, Bool.or_eq_true,
      Bool.not_eq_true'] at hall
    obtain ⟨⟨⟨-, hP⟩, -, hu⟩, hw⟩ := hall
    refine ⟨?_, fun hwr => ?_⟩
    · by_contra hn
      have := (T.kernelEntry hP (by simpa using hn)).user
      rw [hu] at this
      exact absurd this (by simp)
    · rw [hwr] at hw
      simpa using hw
  · rintro ⟨hp, hw⟩
    have hpd := Shape.priv_of_pte hp
    simp only [Bool.not_true, Bool.false_or, Bool.and_eq_true, Bool.or_eq_true, Bool.not_eq_true']
    refine ⟨⟨⟨present_of_priv hpd, present_of_priv hp⟩, E.user hpd, T.user hp⟩, ?_⟩
    cases write with
    | false => exact Or.inl rfl
    | true => exact Or.inr (hw rfl)

/-- The kernel's directory grants user mode nothing. -/
theorem Sound.allows_kpd (h : Sound κ b s S n a) {write : Bool} :
    s.allows s.kpd va true write = false := by
  have huser : user (s.walk s.kpd va) = false := by
    rw [h.walk_kpd va]
    obtain h0 | h0 := κ.pteOk (pdi va) (pti va)
    · rw [h0]
      rfl
    · exact h0.user
  unfold Machine.allows
  simp [huser]

/-- What is granted is what the hardware would find. -/
theorem Grants.iff (h : Sound κ b s S n a) (hA : Agrees s S) (hd : d ∈ S.dirs)
    (hal : Aligned e.page) : Grants κ S d e ↔
      s.allows d e.page true e.rw = true ∧ Vmm.frame (s.walk d e.page) = e.frame := by
  rw [h.allows_user hA hd, h.walk hA hd]
  exact ⟨fun G => ⟨⟨G.page, G.rw⟩, G.frame⟩, fun ⟨⟨hp, hw⟩, hf⟩ => ⟨hal, hp, hf, hw⟩⟩

/-- The same page, under a directory entry that grants no less. -/
theorem Grants.of_eq (G : Grants κ S d e)
    (hpte : S'.pte κ d (pdi e.page) (pti e.page) = S.pte κ d (pdi e.page) (pti e.page))
    (hent : writable (S.ent d (pdi e.page)) = true → writable (S'.ent d (pdi e.page)) = true) :
    Grants κ S' d e where
  aligned := G.aligned
  page := by
    rw [hpte]
    exact G.page
  frame := by
    rw [hpte]
    exact G.frame
  rw h := by
    rw [hpte]
    exact ⟨hent (G.rw h).1, (G.rw h).2⟩

/-- Where nothing may be written any more, an entry that does not write is still granted. -/
theorem Grants.protected {s' : Machine} {x : Word} (G : Grants κ S d e) (P : Protected κ s S x s' S')
    (hrw : e.rw = false) : Grants κ S' d e := by
  have hpte := P.pte d (pdi e.page) (pti e.page)
  refine ⟨G.aligned, ?_, ?_, fun h => absurd (hrw.symm.trans h) (by simp)⟩
  · rw [P.priv_pte]
    exact G.page
  · obtain h | ⟨-, -, h⟩ := hpte
    · rw [h]
      exact G.frame
    · rw [h, frame_protect]
      exact G.frame

end grants

/-- The invariant. -/
structure Coherent {C : Type} (κ : KernelMap) (a : Word → Word → Prop) (σ : Cores C) (S : Space) :
    Prop where
  good : Good κ True a ⟨σ.machine, σ.live⟩ S
  loaded : ∀ k, σ.cr3 k = σ.machine.kpd ∨ σ.cr3 k ∈ σ.live
  alone : ∀ k k', σ.cr3 k ∈ σ.live → σ.cr3 k' = σ.cr3 k → k' = k
  grants : ∀ k, σ.cr3 k ∈ σ.live → ∀ e ∈ σ.tlb k, Grants κ S (σ.cr3 k) e
  empty : ∀ k, σ.cr3 k ∉ σ.live → σ.tlb k = []

namespace Coherent

variable {C : Type} {κ : KernelMap} {a : Word → Word → Prop} {σ σ' : Cores C}
  {S S' : Space} {k : C} {s' : Machine} {live : Finset Word} {va error_code pd : Word}

theorem mem_dirs (H : Coherent κ a σ S) {d : Word} : d ∈ S.dirs ↔ d ∈ σ.live := by
  rw [H.good.dirs]

theorem kpd_not_live (H : Coherent κ a σ S) : σ.machine.kpd ∉ σ.live := by
  intro hl
  refine H.good.sound.shape.kernelNodes _ (Space.mem_nodes.mpr (Or.inl (H.mem_dirs.mpr hl))) ?_
  show σ.machine.kpd ∈ κ.frames
  rw [H.good.sound.kernel.kpd]
  exact Finset.mem_union_left _ κ.kpdRaw

theorem on (H : Coherent κ a σ S) (k : C) :
    Sound κ True (σ.on k) S 0 a ∧ Agrees (σ.on k) S :=
  ⟨H.good.sound.regs _ _, H.good.agrees⟩

/-- A frame that was free is not what some core has loaded. -/
theorem fresh (H : Coherent κ a σ S) {d' : Word} (hfree : S.own κ d' = .none) (k : C) :
    σ.cr3 k ∈ insert d' σ.live ↔ σ.cr3 k ∈ σ.live := by
  rw [Finset.mem_insert]
  refine or_iff_right_of_imp fun heq => ?_
  obtain hk | hl := H.loaded k
  · have hkern := H.good.sound.shape.not_kernel_of_free hfree
    rw [← heq, hk] at hkern
    refine absurd ?_ hkern
    show σ.machine.kpd ∈ κ.frames
    rw [H.good.sound.kernel.kpd]
    exact Finset.mem_union_left _ κ.kpdRaw
  · exact hl

/-- What the hardware does not find is a page of nobody. -/
theorem absent (H : Coherent κ a σ S) (hk : σ.cr3 k ∈ σ.live)
    (hno : present (σ.machine.walk (σ.cr3 k) va) = false) :
    priv (S.pte κ (σ.cr3 k) (pdi va) (pti va)) = false ∧ κ.pte (pdi va) (pti va) = 0#32 := by
  have hd := H.mem_dirs.mpr hk
  rw [H.good.sound.walk H.good.agrees hd] at hno
  refine ⟨not_priv_of_absent hno, ?_⟩
  by_contra hne
  have T := H.good.sound.shape.pteEntry hd (pdi_lt va) (pti_lt va)
  rw [T.keeps trivial hne, KernelMap.pte_present_iff.mpr hne] at hno
  exact absurd hno (by simp)

/-- Who has an entry has a process. -/
theorem live_of_mem (H : Coherent κ a σ S) {e : TlbEntry} (he : e ∈ σ.tlb k) :
    σ.cr3 k ∈ σ.live := by
  by_contra hl
  rw [H.empty k hl] at he
  exact absurd he List.not_mem_nil

/-- A store through an entry is one that a walk through the tables would let through, to the same
place. -/
theorem stored (H : Coherent κ a σ S) {e : TlbEntry} (he : e ∈ σ.tlb k)
    (hpage : e.page = va &&& Flag.MASK) (hrw : e.rw = true) (f : Word → Word) (c : Word)
    (m : List TlbEntry) :
    System.step ⟨{ σ.machine with cr3 := c, tlb := m }, σ.live⟩ (.store (σ.cr3 k) va f) =
      some ⟨{ σ.machine with cr3 := c, tlb := m }.put e.frame (wordOf va)
        (f (σ.machine.mem e.frame (wordOf va))), σ.live⟩ := by
  have hl := H.live_of_mem he
  have hd := H.mem_dirs.mpr hl
  have g := H.grants k hl e he
  have hsound := H.good.sound.regs c m
  have hpi : pdi e.page = pdi va := by rw [hpage, pdi_page]
  have hti : pti e.page = pti va := by rw [hpage, pti_page]
  have hall : Machine.allows { σ.machine with cr3 := c, tlb := m } (σ.cr3 k) va true true =
      true := by
    refine (hsound.allows_user H.good.agrees hd).mpr ?_
    rw [← hpi, ← hti]
    exact ⟨g.page, fun _ => g.rw hrw⟩
  have hframe : frame (Machine.walk { σ.machine with cr3 := c, tlb := m } (σ.cr3 k) va) =
      e.frame := by
    rw [hsound.walk H.good.agrees hd, ← hpi, ← hti]
    exact g.frame
  unfold System.step
  dsimp only
  rw [if_pos ⟨hl, hall⟩, hframe]

/-- What `write_protect` leaves in the TLB is granted afterwards: nothing that writes is left. -/
theorem protects (H : Coherent κ a σ S) (hl : σ.cr3 k ∈ σ.live) :
    wp (writeProtect (σ.cr3 k)) (fun _ s' => ∃ S', Sound κ True s' S' 0 a ∧ Agrees s' S' ∧
      Protected κ (σ.on k) S (σ.cr3 k) s' S' ∧ (∀ i, i < 1024 → SlotReadOnly S' (σ.cr3 k) i) ∧
      (∀ e ∈ s'.tlb, e ∈ σ.tlb k) ∧
      ∀ e ∈ s'.tlb, Grants κ S (σ.cr3 k) e → Grants κ S' (σ.cr3 k) e) (fun _ _ => False)
      (σ.on k) := by
  obtain ⟨hsound, hagrees⟩ := H.on k
  have hd : σ.cr3 k ∈ S.dirs := H.mem_dirs.mpr hl
  have hdn : σ.cr3 k ∈ S.nodes := Space.mem_nodes.mpr (Or.inl hd)
  have hdist : Distinct (σ.on k) (σ.cr3 k) := by
    intro i j hi hj hoti hotj heq
    unfold Hot tableAt at *
    rw [hagrees _ hdn i hi] at hoti heq
    rw [hagrees _ hdn j hj] at hotj heq
    have hhome := (hsound.shape.dirEntry _ hd i hi).home hoti.1
    rw [heq, (hsound.shape.dirEntry _ hd j hj).home hotj.1] at hhome
    exact hhome.symm
  have hapart : Apart (σ.on k) (σ.cr3 k) := H.good.apart hl
  refine wp_mono (wp_and (hsound.writeProtect_spec hagrees hd) (writeProtect_flushes hapart hdist))
    (fun _ s' hpost => ?_) fun _ _ he => he.1
  obtain ⟨⟨S', h', hA', P, hro⟩, hfewer, hflush⟩ := hpost
  refine ⟨S', h', hA', P, hro, hfewer, fun e he g => g.protected P ?_⟩
  by_contra hrw
  -- an entry that writes names a page that has been taken out
  obtain ⟨hwd, hwp⟩ := g.rw (by simpa using hrw)
  have hi := pdi_lt e.page
  have hj := pti_lt e.page
  have hpd := Shape.priv_of_pte g.page
  have E := hsound.shape.dirEntry _ hd _ hi
  have hot : Hot (σ.on k) (σ.cr3 k) (pdi e.page) := by
    unfold Hot
    rw [hagrees _ hdn _ hi]
    exact ⟨hpd, hwd⟩
  have htn := Space.mem_nodes.mpr (Or.inr (E.table hpd))
  have hpage : HotPage (σ.on k) (tableAt (σ.on k) (σ.cr3 k) (pdi e.page)) (pti e.page) := by
    unfold HotPage tableAt
    rw [hagrees _ hdn _ hi, hagrees _ htn _ hj, ← Space.pte_of_priv hpd]
    exact ⟨g.page, hwp⟩
  exact hflush _ hi hot _ hj hpage e he (pageAt_of_aligned g.aligned).symm

variable [DecidableEq C]

/-- The core `k` has worked under the directory it had loaded. -/
theorem back (H : Coherent κ a σ S) (G : Good κ True a ⟨s', live⟩ S')
    (hlive : ∀ k', σ.cr3 k' ∈ live ↔ σ.cr3 k' ∈ σ.live) (hkpd : s'.kpd = σ.machine.kpd)
    (hcr3 : s'.cr3 = σ.cr3 k) (hfewer : ∀ e ∈ s'.tlb, e ∈ σ.tlb k)
    (hown : σ.cr3 k ∈ σ.live → ∀ e ∈ s'.tlb, Grants κ S (σ.cr3 k) e → Grants κ S' (σ.cr3 k) e)
    (hother : ∀ k', σ.cr3 k' ∈ σ.live → σ.cr3 k' ≠ σ.cr3 k → ∀ e, Grants κ S (σ.cr3 k') e →
      Grants κ S' (σ.cr3 k') e) : Coherent κ a (σ.back k s' live) S' := by
  have hsame : (σ.back k s' live).cr3 = σ.cr3 := by
    show Function.update σ.cr3 k s'.cr3 = σ.cr3
    rw [hcr3, Function.update_eq_self]
  have hne : ∀ {k'}, k' ≠ k → (σ.back k s' live).tlb k' = σ.tlb k' :=
    fun h => Function.update_of_ne h _ _
  have hself : (σ.back k s' live).tlb k = s'.tlb := Function.update_self ..
  refine ⟨G, fun k' => ?_, fun k₁ k₂ h₁ h₂ => ?_, fun k' h e he => ?_, fun k' h => ?_⟩
  · rw [hsame]
    show σ.cr3 k' = s'.kpd ∨ σ.cr3 k' ∈ live
    rw [hkpd, hlive]
    exact H.loaded k'
  · rw [hsame] at h₁ h₂
    exact H.alone k₁ k₂ ((hlive k₁).mp h₁) h₂
  · rw [hsame] at h ⊢
    have hl := (hlive k').mp h
    by_cases hk : k' = k
    · subst hk
      rw [hself] at he
      exact hown hl e he (H.grants k' hl e (hfewer e he))
    · rw [hne hk] at he
      exact hother k' hl (fun heq => hk (H.alone k k' (heq ▸ hl) heq)) e (H.grants k' hl e he)
  · rw [hsame] at h
    have hl := fun h' => h ((hlive k').mpr h')
    by_cases hk : k' = k
    · subst hk
      rw [hself]
      refine List.eq_nil_iff_forall_not_mem.mpr fun e he => ?_
      have := hfewer e he
      rw [H.empty k' hl] at this
      exact absurd this List.not_mem_nil
    · rw [hne hk]
      exact H.empty k' hl

/-- What the processor does with its TLB: what it keeps there is granted. -/
theorem cache (H : Coherent κ a σ S) {l : List TlbEntry}
    (hl : ∀ e ∈ l, σ.cr3 k ∈ σ.live ∧ Grants κ S (σ.cr3 k) e) :
    Coherent κ a ⟨σ.machine, σ.live, σ.cr3, Function.update σ.tlb k l⟩ S := by
  refine ⟨H.good, H.loaded, H.alone, fun k' hlive e he => ?_, fun k' hdead => ?_⟩
  · change e ∈ Function.update σ.tlb k l k' at he
    by_cases hk : k' = k
    · subst hk
      rw [Function.update_self] at he
      exact (hl e he).2
    · rw [Function.update_of_ne hk] at he
      exact H.grants k' hlive e he
  · show Function.update σ.tlb k l k' = []
    by_cases hk : k' = k
    · subst hk
      rw [Function.update_self]
      exact List.eq_nil_iff_forall_not_mem.mpr fun e he => hdead (hl e he).1
    · rw [Function.update_of_ne hk]
      exact H.empty k' hdead

theorem create [Fintype C] (H : Coherent κ a σ S) (h : σ.step (.create k) = some σ') :
    ∃ S', Coherent κ a σ' S' := by
  obtain ⟨hsound, hagrees⟩ := H.on k
  have hspec := wp_and (hsound.copyKpd_spec hagrees) (Alike.fewer alike_copyKpd)
  unfold Cores.step newProcess at h
  dsimp only at h
  cases hr : copyKpd (σ.on k) with
  | error e s' =>
    rw [hr] at h
    exact absurd h (by simp)
  | ok d' s' =>
    rw [hr] at h
    obtain rfl := Option.some.inj h
    obtain ⟨⟨S', h', hA', B, -, -⟩, hfewer⟩ := wp_ok hspec hr
    have hkeep : ∀ x, x ∈ σ.live → ∀ e, Grants κ S x e → Grants κ S' x e := by
      intro x hx e G
      have hxS := H.mem_dirs.mpr hx
      refine G.of_eq (B.pte hsound.shape hxS (pdi_lt _) _) fun hw => ?_
      rw [B.ent x (Space.mem_nodes.mpr (Or.inl hxS))]
      exact hw
    exact ⟨S', H.back ⟨h', hA', by rw [B.dirs, H.good.dirs], B.dying.trans H.good.dying⟩
      (H.fresh B.fresh) B.kept.regs.kpd B.kept.regs.cr3 hfewer (fun hl e _ => hkeep _ hl e)
      fun k' hl _ => hkeep _ hl⟩

/-- The handler has given the process a page, and the TLB does not know another one for it. -/
theorem mapped {c : Prop} (H : Coherent κ a σ S) (hl : σ.cr3 k ∈ σ.live)
    (G : Good κ True a ⟨s', σ.live⟩ S')
    (M : Mapped κ c (σ.on k) S (σ.cr3 k) (pdi va) (pti va) s' S')
    (hfewer : ∀ e ∈ s'.tlb, e ∈ σ.tlb k)
    (hpage : priv (S.pte κ (σ.cr3 k) (pdi va) (pti va)) = true → Flushed s'.tlb (pdi va) (pti va)) :
    Coherent κ a (σ.back k s' σ.live) S' := by
  have hd : σ.cr3 k ∈ S.dirs := H.mem_dirs.mpr hl
  refine H.back G (fun _ => Iff.rfl) M.regs.kpd M.regs.cr3 hfewer (fun _ e he g => ?_)
    fun k' hl' hne e g => ?_
  · have hij : ¬(pdi e.page = pdi va ∧ pti e.page = pti va) := by
      rintro ⟨hi, hj⟩
      have hp := g.page
      rw [hi, hj] at hp
      refine hpage hp e he ?_
      rw [← hi, ← hj, pageAt_of_aligned g.aligned]
    refine g.of_eq (M.pte _ hd _ (pdi_lt _) _ (pti_lt _) fun h => hij h.2) fun hw => ?_
    by_cases hi : pdi e.page = pdi va
    · rw [hi]
      exact M.isWritable
    · rw [M.ent _ hd _ (pdi_lt _) fun h => hi h.2]
      exact hw
  · have hd' := H.mem_dirs.mpr hl'
    refine g.of_eq (M.pte _ hd' _ (pdi_lt _) _ (pti_lt _) fun h => hne h.1) fun hw => ?_
    rw [M.ent _ hd' _ (pdi_lt _) fun h => hne h.1]
    exact hw

/-- The handler has given the process a table, and then killed it. -/
theorem prepared {p : Word} (H : Coherent κ a σ S) (G : Good κ True a ⟨s', σ.live⟩ S')
    (P : Prepared κ (σ.on k) S (σ.cr3 k) (pdi va) p s' S') (hfewer : ∀ e ∈ s'.tlb, e ∈ σ.tlb k) :
    Coherent κ a (σ.back k s' σ.live) S' := by
  have hkeep : ∀ x, x ∈ σ.live → ∀ e, Grants κ S x e → Grants κ S' x e := by
    intro x hx e g
    have hxS := H.mem_dirs.mpr hx
    refine g.of_eq (P.pte x hxS _ (pdi_lt _) _ (pti_lt _)) fun hw => ?_
    by_cases hij : x = σ.cr3 k ∧ pdi e.page = pdi va
    · rw [hij.1, hij.2]
      exact P.isWritable
    · rw [P.ent x hxS _ (pdi_lt _) hij]
      exact hw
  exact H.back G (fun _ => Iff.rfl) P.regs.kpd P.regs.cr3 hfewer (fun hl e _ => hkeep _ hl e)
    fun k' hl _ => hkeep _ hl

/-- The handler has killed the process. -/
theorem killed {e : Stop} (H : Coherent κ a σ S)
    (hstop : NoTable κ S 0 (σ.cr3 k) (pdi va) e ∨ e = .exit (-1) ∧
      (Refused va error_code ∧ s' = σ.on k ∨
        ¬ Refused va error_code ∧ Killed κ True 0 a (σ.on k) S va error_code s'))
    (hexit : ∃ status, e = .exit status) (hfewer : ∀ e ∈ s'.tlb, e ∈ σ.tlb k) :
    ∃ S', Coherent κ a (σ.back k s' σ.live) S' := by
  obtain ⟨status, rfl⟩ := hexit
  obtain hno | ⟨-, ⟨-, rfl⟩ | ⟨-, K⟩⟩ := hstop
  · exact hno.elim (fun h => absurd h.1 (by simp)) fun h => absurd h.1 (by simp)
  · obtain ⟨hsound, hagrees⟩ := H.on k
    exact ⟨S, H.back ⟨hsound, hagrees, H.good.dirs, H.good.dying⟩ (fun _ => Iff.rfl) rfl rfl hfewer
      (fun _ _ _ g => g) fun _ _ _ _ g => g⟩
  · obtain ⟨p, S', h', hA', P⟩ := K.left
    exact ⟨S', H.prepared ⟨h', hA', P.dirs.trans H.good.dirs, P.dying.trans H.good.dying⟩ P hfewer⟩

variable [Fintype C]

theorem fault (H : Coherent κ a σ S) (h : σ.step (.fault k va error_code) = some σ') :
    ∃ S', Coherent κ a σ' S' := by
  obtain ⟨hsound, hagrees⟩ := H.on k
  unfold Cores.step at h
  dsimp only at h
  split at h
  case isFalse => exact absurd h (by simp)
  rename_i hcond
  obtain ⟨hl, htrue⟩ := hcond
  have hd : σ.cr3 k ∈ S.dirs := H.mem_dirs.mpr hl
  have hspec := wp_and (hsound.pageFault_spec hagrees hd va error_code fun _ _ h0 =>
    (H.absent hl (htrue h0)).2) (Alike.fewer (alike_pageFault va error_code))
  obtain ⟨s', hs', rfl⟩ := Option.map_eq_some_iff.mp h
  by_cases h3 : error_code &&& 0x3#32 = 0x3#32
  · -- a page is copied: it leaves the TLB
    obtain ⟨_, ⟨⟨-, -, S', h', hA', M⟩, hfewer⟩, hflush⟩ | ⟨status, ⟨hstop, hfewer⟩, -⟩ :=
      survivor_cases (wp_and hspec (pageFault_flushes h3)) hs'
    · exact ⟨S', H.mapped hl ⟨h', hA', M.dirs.trans H.good.dirs, M.dying.trans H.good.dying⟩ M
        hfewer fun _ => hflush⟩
    · exact H.killed hstop ⟨status, rfl⟩ hfewer
  · -- a page is mapped where there was none, and no TLB knows one
    obtain ⟨_, ⟨hR, -, S', h', hA', M⟩, hfewer⟩ | ⟨status, hstop, hfewer⟩ :=
      survivor_cases hspec hs'
    · have h0 : error_code &&& 0x1#32 = 0#32 := by
        refine (and_one_cases error_code).resolve_right fun h1 => hR ?_
        exact Or.inr (Or.inr (Or.inr ⟨h3, h1⟩))
      refine ⟨S', H.mapped hl ⟨h', hA', M.dirs.trans H.good.dirs, M.dying.trans H.good.dying⟩ M
        hfewer fun hp => ?_⟩
      rw [(H.absent hl (htrue h0)).1] at hp
      exact absurd hp (by simp)
    · exact H.killed hstop ⟨status, rfl⟩ hfewer

theorem exec (H : Coherent κ a σ S) {discard : Nat → Bool}
    (h : σ.step (.exec k discard) = some σ') : ∃ S', Coherent κ a σ' S' := by
  obtain ⟨hsound, hagrees⟩ := H.on k
  unfold Cores.step reset at h
  dsimp only at h
  split at h
  case isFalse => exact absurd h (by simp)
  rename_i hl
  have hd : σ.cr3 k ∈ S.dirs := H.mem_dirs.mpr hl
  obtain ⟨s', hs', rfl⟩ := Option.map_eq_some_iff.mp h
  obtain ⟨_, htlb, S', I⟩ | ⟨_, he, -⟩ :=
    survivor_cases (hsound.clearPd_spec hagrees hd discard) hs'
  case inr => exact absurd he (by simp)
  refine ⟨S', H.back ⟨I.sound, I.agrees, I.dirs.trans H.good.dirs, I.dying.trans H.good.dying⟩
    (fun _ => Iff.rfl) I.regs.kpd I.regs.cr3 ?_ ?_ fun k' hl' hne e g => ?_⟩
  · rw [htlb]
    exact fun e he => absurd he List.not_mem_nil
  · rw [htlb]
    exact fun _ e he => absurd he List.not_mem_nil
  · obtain ⟨hent, hpte⟩ := I.other trivial _ (H.mem_dirs.mpr hl') hne _ (pdi_lt e.page)
    exact g.of_eq (hpte _ (pti_lt _)) fun hw => hent ▸ hw

theorem exit (H : Coherent κ a σ S) (h : σ.step (.exit k pd) = some σ') :
    ∃ S', Coherent κ a σ' S' := by
  obtain ⟨hsound, hagrees⟩ := H.on k
  unfold Cores.step at h
  dsimp only at h
  split at h
  case isFalse => exact absurd h (by simp)
  rename_i hcond
  obtain ⟨hl, hnone⟩ := hcond
  have hd : pd ∈ S.dirs := H.mem_dirs.mpr hl
  have hspec : wp (destroy pd) (fun _ s' => ∃ S', Sound κ True s' S' 0 a ∧ Agrees s' S' ∧
      Destroyed κ (σ.on k) S pd s' S') (fun _ _ => False) (σ.on k) := by
    unfold destroy
    simp only [wp_bind, wp_get, wp_assert]
    have hne : pd ≠ (σ.on k).kpd := by
      rintro rfl
      exact H.kpd_not_live hl
    rw [if_pos hne]
    exact hsound.destroyPd_spec hagrees hd (hnone k)
  obtain ⟨s', hs', rfl⟩ := Option.map_eq_some_iff.mp h
  obtain ⟨_, ⟨S', h', hA', D⟩, hfewer⟩ | ⟨_, he, -⟩ :=
    survivor_cases (wp_and hspec (Alike.fewer (alike_destroy pd))) hs'
  case inr => exact he.elim
  have hkeep : ∀ x, x ∈ σ.live → ∀ e, Grants κ S x e → Grants κ S' x e := fun x hx e g =>
    g.of_eq (Space.pte_of_ent_eq D.ent x _ _) fun hw => by
      rw [D.ent]
      exact hw
  exact ⟨S', H.back ⟨h', hA', by rw [D.dirs, H.good.dirs], D.dying.trans H.good.dying⟩
    (fun k' => Finset.mem_erase.trans (and_iff_right (hnone k'))) D.kept.regs.kpd D.kept.regs.cr3
    hfewer (fun hl e _ => hkeep _ hl e) fun k' hl _ => hkeep _ hl⟩

theorem fork (H : Coherent κ a σ S) (h : σ.step (.fork k) = some σ') :
    ∃ S', Coherent κ a σ' S' := by
  unfold Cores.step at h
  dsimp only at h
  split at h
  case isFalse => exact absurd h (by simp)
  rename_i hl
  have hd : σ.cr3 k ∈ S.dirs := H.mem_dirs.mpr hl
  have hspec : wp (clone (σ.cr3 k)) (fun d' s' =>
      ∃ S', Coherent κ a (σ.back k s' (insert d' σ.live)) S') (fun _ _ => True) (σ.on k) := by
    unfold clone
    simp only [wp_bind, wp_getCR3, wp_assert]
    have hloaded : σ.cr3 k = (σ.on k).cr3 := rfl
    rw [if_pos hloaded]
    refine wp_mono (H.protects hl) (fun _ s₁ hpost => ?_) fun _ _ he => he.elim
    obtain ⟨S₁, h₁, hA₁, P, hro, hfewer₁, hgrants₁⟩ := hpost
    have hd₁ : σ.cr3 k ∈ S₁.dirs := by
      rw [P.dirs]
      exact hd
    refine wp_mono (wp_and (h₁.copyPd_spec hA₁ hd₁ hro) (Alike.fewer (alike_copyPd (σ.cr3 k))))
      (fun d' s' hpost => ?_) fun _ _ _ => trivial
    obtain ⟨⟨S', h', hA', B, -⟩, hfewer⟩ := hpost
    have hkeep : ∀ x, x ∈ σ.live → ∀ e, Grants κ S₁ x e → Grants κ S' x e := by
      intro x hx e g
      have hx₁ : x ∈ S₁.dirs := by
        rw [P.dirs]
        exact H.mem_dirs.mpr hx
      refine g.of_eq (B.pte h₁.shape hx₁ (pdi_lt _) _) fun hw => ?_
      rw [B.ent x (Space.mem_nodes.mpr (Or.inl hx₁))]
      exact hw
    have hfree : S.own κ d' = .none := by
      rw [← Space.own_congr P.count_eq P.dying]
      exact B.fresh
    refine ⟨S', H.back ⟨h', hA', by rw [B.dirs, P.dirs, H.good.dirs],
      (B.dying.trans P.dying).trans H.good.dying⟩ (H.fresh hfree)
      (B.kept.regs.kpd.trans P.regs.kpd) (B.kept.regs.cr3.trans P.regs.cr3)
      (fun e he => hfewer₁ e (hfewer e he))
      (fun hl e he g => hkeep _ hl e (hgrants₁ e (hfewer e he) g)) fun k' hl' hne e g => ?_⟩
    obtain ⟨hent, hpte⟩ := P.other _ (H.mem_dirs.mpr hl') hne _ (pdi_lt e.page)
    exact hkeep _ hl' e (g.of_eq (hpte _ (pti_lt _)) fun hw => hent ▸ hw)
  cases hr : clone (σ.cr3 k) (σ.on k) with
  | error e s' =>
    rw [hr] at h
    exact absurd h (by simp)
  | ok d' s' =>
    rw [hr] at h
    obtain rfl := Option.some.inj h
    exact wp_ok hspec hr

/-- A thread of another process finds an empty TLB; one of the same process finds its own. -/
theorem switch (H : Coherent κ a σ S) (h : σ.step (.switch k pd) = some σ') :
    Coherent κ a σ' S := by
  obtain ⟨hsound, hagrees⟩ := H.on k
  unfold Cores.step at h
  dsimp only at h
  split at h
  case isFalse => exact absurd h (by simp)
  rename_i hcond
  obtain ⟨s', hs', rfl⟩ := Option.map_eq_some_iff.mp h
  -- CR3 is not written, and the TLB stays
  by_cases hsame : (σ.on k).cr3 = pd
  · rw [switchTo_same hsame] at hs'
    obtain rfl := Option.some.inj hs'
    exact H.back ⟨hsound, hagrees, H.good.dirs, H.good.dying⟩ (fun _ => Iff.rfl) rfl rfl
      (fun _ he => he) (fun _ _ _ g => g) fun _ _ _ _ g => g
  rw [switchTo_other hsame] at hs'
  obtain rfl := Option.some.inj hs'
  -- CR3 is written: the TLB of this core is empty, those of the others are as they were
  have hother : ∀ k', k' ≠ k → pd ∈ σ.live → σ.cr3 k' ≠ pd := by
    intro k' hk hl
    obtain rfl | ⟨-, hnone⟩ := hcond
    · exact absurd hl H.kpd_not_live
    · exact hnone k' hk
  have hself : Function.update σ.cr3 k pd k = pd := Function.update_self ..
  have hne : ∀ {k'}, k' ≠ k → Function.update σ.cr3 k pd k' = σ.cr3 k' := fun h =>
    Function.update_of_ne h _ _
  refine ⟨⟨H.good.sound.regs _ _, hagrees, H.good.dirs, H.good.dying⟩, fun k' => ?_,
    fun k₁ k₂ h₁ h₂ => ?_, fun k' hl e he => ?_, fun k' hl => ?_⟩
  · show Function.update σ.cr3 k pd k' = σ.machine.kpd ∨ Function.update σ.cr3 k pd k' ∈ σ.live
    by_cases hk : k' = k
    · subst hk
      rw [hself]
      exact hcond.imp_right And.left
    · rw [hne hk]
      exact H.loaded k'
  · change Function.update σ.cr3 k pd k₁ ∈ σ.live at h₁
    change Function.update σ.cr3 k pd k₂ = Function.update σ.cr3 k pd k₁ at h₂
    by_cases hk₁ : k₁ = k
    · subst hk₁
      rw [hself] at h₁ h₂
      by_contra hk₂
      rw [hne hk₂] at h₂
      exact hother k₂ hk₂ h₁ h₂
    · rw [hne hk₁] at h₁ h₂
      by_cases hk₂ : k₂ = k
      · subst hk₂
        rw [hself] at h₂
        exact absurd h₂.symm (hother k₁ hk₁ (h₂ ▸ h₁))
      · rw [hne hk₂] at h₂
        exact H.alone k₁ k₂ h₁ h₂
  · change Function.update σ.cr3 k pd k' ∈ σ.live at hl
    change e ∈ Function.update σ.tlb k [] k' at he
    show Grants κ S (Function.update σ.cr3 k pd k') e
    by_cases hk : k' = k
    · subst hk
      rw [Function.update_self] at he
      exact absurd he List.not_mem_nil
    · rw [Function.update_of_ne hk] at he
      rw [hne hk] at hl ⊢
      exact H.grants k' hl e he
  · change Function.update σ.cr3 k pd k' ∉ σ.live at hl
    show Function.update σ.tlb k [] k' = []
    by_cases hk : k' = k
    · subst hk
      exact Function.update_self ..
    · rw [Function.update_of_ne hk]
      rw [hne hk] at hl
      exact H.empty k' hl

theorem fill {rw : Bool} (H : Coherent κ a σ S) (h : σ.step (.fill k va rw) = some σ') :
    Coherent κ a σ' S := by
  unfold Cores.step at h
  dsimp only at h
  split at h
  case isFalse => exact absurd h (by simp)
  rename_i hall
  obtain rfl := Option.some.inj h
  have hl : σ.cr3 k ∈ σ.live := by
    refine (H.loaded k).resolve_left fun hk => ?_
    rw [hk, H.good.sound.allows_kpd] at hall
    exact absurd hall (by simp)
  have hd := H.mem_dirs.mpr hl
  refine H.cache fun e he => ⟨hl, ?_⟩
  obtain rfl | he := List.mem_cons.mp he
  · obtain ⟨hp, hw⟩ := (H.good.sound.allows_user H.good.agrees hd).mp hall
    have hwalk := H.good.sound.walk H.good.agrees hd va
    refine ⟨aligned_page va, ?_, ?_, ?_⟩
    · rw [pdi_page, pti_page]
      exact hp
    · rw [pdi_page, pti_page, ← hwalk]
    · rw [pdi_page, pti_page]
      exact hw
  · exact H.grants k hl e he

theorem forget {e : TlbEntry} (H : Coherent κ a σ S) (h : σ.step (.forget k e) = some σ') :
    Coherent κ a σ' S := by
  obtain rfl := Option.some.inj h
  refine H.cache fun e' he' => ?_
  have hmem := (List.mem_filter.mp he').1
  exact ⟨H.live_of_mem hmem, H.grants k (H.live_of_mem hmem) e' hmem⟩

theorem store {e : TlbEntry} {f : Word → Word} (H : Coherent κ a σ S)
    (h : σ.step (.store k e va f) = some σ') : Coherent κ a σ' S := by
  unfold Cores.step at h
  dsimp only at h
  split at h
  case isFalse => exact absurd h (by simp)
  rename_i hcond
  obtain ⟨he, hpage, hrw⟩ := hcond
  obtain rfl := Option.some.inj h
  obtain ⟨S', G, rfl, -⟩ := H.good.store
    (H.stored he hpage hrw f σ.machine.cr3 σ.machine.tlb)
  exact ⟨G, H.loaded, H.alone, H.grants, H.empty⟩

/-- One step of the cores. -/
theorem step (H : Coherent κ a σ S) {act : CoreOp C} (h : σ.step act = some σ') :
    ∃ S', Coherent κ a σ' S' := by
  cases act with
  | create k => exact H.create h
  | fork k => exact H.fork h
  | fault k va error_code => exact H.fault h
  | exec k discard => exact H.exec h
  | exit k pd => exact H.exit h
  | switch k pd => exact ⟨S, H.switch h⟩
  | store k e va f => exact ⟨S, H.store h⟩
  | fill k va rw => exact ⟨S, H.fill h⟩
  | forget k e => exact ⟨S, H.forget h⟩

end Coherent

end OsKernel.Vmm
