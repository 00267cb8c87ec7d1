import OsKernel.Vmm.Isolation
import OsKernel.Vmm.Protect

/-!
# What the kernel takes out of the TLB

`write_protect` takes out the pages that it makes read-only, one by one, the page-fault
handler the page that it has copied, and `clear_pd` everything. `map` takes out nothing.

These are the places where a permission is withdrawn or a page replaced. `map` only adds: a
translation that was not there cannot have been cached, as long as what is cached was there.
That a flush comes after the store is not stated, since the processor fills the TLB between
operations here and not within one.

The results are about the core that runs the function. No other core is told. That none has to
be is a matter of who is loaded where, and is proved in `Vmm/Cores.lean`.
-/

set_option autoImplicit false

namespace OsKernel.Vmm

open Lib Lib.Prog K PhysMem

/-- There is no entry for page `j` of slot `i`. -/
def Flushed (l : List TlbEntry) (i j : Nat) : Prop := ∀ e ∈ l, e.page ≠ pageAt i j

section flush

variable {s s' : Machine} {d t : Word} {i j k : Nat}

theorem Flushed.mono {l l' : List TlbEntry} (h : Flushed l i j) (hl : ∀ e ∈ l', e ∈ l) :
    Flushed l' i j := fun e he => h e (hl e he)

theorem flushed_filter (l : List TlbEntry) (hi : i < 1024) (hj : j < 1024) :
    Flushed (l.filter fun e => e.page ≠
      (BitVec.ofNat 32 i <<< 22 ||| BitVec.ofNat 32 j <<< 12) &&& 0xfffff000#32) i j := by
  have hpage : BitVec.ofNat 32 i <<< 22 ||| BitVec.ofNat 32 j <<< 12 = pageAt i j := by
    rw [← BitVec.toNat_inj, BitVec.toNat_or, toNat_pageAt hi hj, BitVec.toNat_shiftLeft,
      BitVec.toNat_shiftLeft, BitVec.toNat_ofNat, BitVec.toNat_ofNat, Nat.shiftLeft_eq,
      Nat.shiftLeft_eq, Nat.mod_eq_of_lt (by omega : i < 2 ^ 32),
      Nat.mod_eq_of_lt (by omega : j < 2 ^ 32), Nat.mod_eq_of_lt (by omega),
      Nat.mod_eq_of_lt (by omega)]
    have h := Nat.two_pow_add_eq_or_of_lt (i := 22) (b := j * 2 ^ 12) (by omega) i
    rw [Nat.mul_comm] at h
    exact h.symm
  intro e he
  have hne := (List.mem_filter.mp he).2
  rw [hpage, (aligned_pageAt i j).high] at hne
  simpa using hne

/-- A private entry of the table under which something may be written. -/
def HotPage (s : Machine) (t : Word) (j : Nat) : Prop :=
  priv (s.mem t j) = true ∧ writable (s.mem t j) = true

/-- The scan of a table has taken out the pages that it has made read-only. -/
structure Flushing (s : Machine) (t : Word) (k j : Nat) (s' : Machine) : Prop where
  fewer : ∀ e ∈ s'.tlb, e ∈ s.tlb
  flushed : ∀ l, l < j → HotPage s t l → Flushed s'.tlb k l

theorem Flushing.step (I : Scanned s d t k j s') (F : Flushing s t k j s') (hk : k < 1024)
    (hj : j < 1024) :
    wp (do
        if (← load t j) &&& (Flag.NG ||| Flag.RW ||| Flag.P) = Flag.NG ||| Flag.RW ||| Flag.P then do
          store t j ((← load t j) ^^^ Flag.RW)
          invlpg (BitVec.ofNat 32 k <<< 22 ||| BitVec.ofNat 32 j <<< 12)
        else if (← load t j) &&& (Flag.NG ||| Flag.RW ||| Flag.P) = Flag.RW ||| Flag.P then
          store d k ((← load d k) ||| Flag.RW))
      (fun _ s'' => Flushing s t k (j + 1) s'') (fun _ _ => False) s' := by
  have hload : s'.mem t j = s.mem t j := by rw [I.table, if_neg (Nat.lt_irrefl j)]
  simp only [wp_bind, wp_load, wp_ite, wp_pure, wp_store, wp_invlpg, hload]
  by_cases hpw : HotPage s t j
  · rw [if_pos (and_NG_RW_P.mpr hpw)]
    have hsub : ∀ e ∈ s'.tlb.filter fun e => e.page ≠
        (BitVec.ofNat 32 k <<< 22 ||| BitVec.ofNat 32 j <<< 12) &&& 0xfffff000#32, e ∈ s'.tlb :=
      fun e he => (List.mem_filter.mp he).1
    refine ⟨fun e he => F.fewer e (hsub e he), fun l hl hp => ?_⟩
    obtain hl | rfl := Nat.lt_succ_iff_lt_or_eq.mp hl
    · exact (F.flushed l hl hp).mono hsub
    · exact flushed_filter _ hk hj
  · rw [if_neg fun h => hpw (and_NG_RW_P.mp h)]
    have hskip : ∀ l, l < j + 1 → HotPage s t l → Flushed s'.tlb k l := by
      intro l hl hp
      obtain hl | rfl := Nat.lt_succ_iff_lt_or_eq.mp hl
      · exact F.flushed l hl hp
      · exact absurd hp hpw
    split
    · exact ⟨F.fewer, hskip⟩
    · exact ⟨F.fewer, hskip⟩

/-- No two slots that `write_protect` looks into have the same table. -/
def Distinct (s : Machine) (d : Word) : Prop :=
  ∀ i k, i < 1024 → k < 1024 → Hot s d i → Hot s d k → tableAt s d i = tableAt s d k → i = k

/-- `write_protect` takes out every page that could be written. -/
theorem writeProtect_flushes (h : Apart s d) (hdist : Distinct s d) :
    wp (writeProtect d) (fun _ s' => (∀ e ∈ s'.tlb, e ∈ s.tlb) ∧
      ∀ i, i < 1024 → Hot s d i → ∀ j, j < 1024 → HotPage s (tableAt s d i) j →
        Flushed s'.tlb i j) (fun _ _ => False) s := by
  unfold writeProtect
  refine wp_mono (wp_forI (n := PAGES_PER_TABLE) (I := fun k s' => Quieted s d k s' ∧
      (∀ e ∈ s'.tlb, e ∈ s.tlb) ∧ ∀ i, i < k → Hot s d i → ∀ j, j < 1024 →
        HotPage s (tableAt s d i) j → Flushed s'.tlb i j)
    (fun k (hk : k < 1024) s' hinv => ?_)
    ⟨Quieted.refl, fun _ he => he, fun i hi => absurd hi (Nat.not_lt_zero i)⟩)
    (fun _ s' hpost => hpost.2) (fun _ _ he => he)
  obtain ⟨Q, hfewer, hflushed⟩ := hinv
  have hslot : s'.mem d k = s.mem d k := Q.cold k fun h => Nat.lt_irrefl k h.1
  simp only [wp_bind, wp_load, wp_ite, hslot]
  by_cases hot : Hot s d k
  · rw [if_pos (and_NG_RW_P.mpr hot)]
    simp only [wp_store, Function.update_self]
    have hframe : (s.mem d k ^^^ Flag.RW) &&& Flag.MASK = tableAt s d k := frame_protect _
    rw [hframe]
    have hapart : ∀ i, i < 1024 → Hot s d i → tableAt s d i ≠ d := fun i hi hot =>
      h i hi (present_of_priv hot.1)
    have hw' : writable (s'.mem d k) = true := by
      rw [hslot]
      exact hot.2
    -- nobody has touched this table yet
    have htable : s'.mem (tableAt s d k) = s.mem (tableAt s d k) :=
      Q.other _ (hapart k hk hot) fun i hi hoti heq => by
        have := hdist i k (by omega) hk hoti hot heq
        omega
    have hzero := Scanned.zero (s := s') (k := k) (hapart k hk hot)
    rw [hslot] at hzero
    refine wp_mono (wp_forI (n := PAGES_PER_TABLE)
      (I := fun j s'' => Scanned s' d (tableAt s d k) k j s'' ∧ Flushing s' (tableAt s d k) k j s'')
      (fun j (hj : j < 1024) s'' hinv => ?_)
      ⟨hzero, fun _ he => he, fun l hl => absurd hl (Nat.not_lt_zero l)⟩)
      (fun _ s'' hpost => ?_) fun _ _ he => he
    · exact wp_mono (wp_and (hinv.1.step (hapart k hk hot) hw' _) (hinv.2.step hinv.1 hk hj))
        (fun _ _ hpost => hpost) fun _ _ he => he.1
    · obtain ⟨I, F⟩ := hpost
      refine ⟨Q.scan hot (hapart k hk hot) (fun i hi => hapart i (by omega)) I,
        fun e he => hfewer e (F.fewer e he), fun i hi hoti j hj hp => ?_⟩
      obtain hi | rfl := Nat.lt_succ_iff_lt_or_eq.mp hi
      · exact (hflushed i hi hoti j hj hp).mono F.fewer
      · refine F.flushed j hj ?_
        unfold HotPage
        rw [htable]
        exact hp
  · rw [if_neg fun h' => hot (and_NG_RW_P.mp h')]
    refine ⟨Q.skip hot, hfewer, fun i hi hoti => ?_⟩
    obtain hi | rfl := Nat.lt_succ_iff_lt_or_eq.mp hi
    · exact hflushed i hi hoti
    · exact absurd hoti hot

/-- The page-fault handler takes out the page that it has copied. -/
theorem pageFault_flushes {va error_code : Word} (h3 : error_code &&& 0x3#32 = 0x3#32) :
    wp (pageFault va error_code) (fun _ s' => Flushed s'.tlb (pdi va) (pti va))
      (fun _ _ => True) s := by
  unfold pageFault
  simp only [wp_bind, wp_ite, wp_throw, wp_getCR3, wp_invlpg, if_pos h3]
  have hlast : ∀ s : Machine, Flushed (s.tlb.filter fun e => e.page ≠ va &&& 0xfffff000#32)
      (pdi va) (pti va) := by
    intro s e he
    have hne := (List.mem_filter.mp he).2
    rw [pageAt_page]
    unfold Flag.MASK
    simpa using hne
  split
  · trivial
  split
  · trivial
  split
  · trivial
  · exact wp_of_forall (fun _ _ => wp_of_forall (fun _ s' => hlast s') fun _ _ => trivial)
      fun _ _ => trivial

end flush

end OsKernel.Vmm
