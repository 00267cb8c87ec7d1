import OsKernel.PhysMem.Ledger
import Mathlib.Data.List.Nodup

/-!
# A machine that agrees with its ledger

`PInv s L`: the free list, the packed words of `refs` and the 16-bit counters in memory are
what the ledger `L` says. One spec lemma for each function of `PhysMem/Model.lean` then says
how the ledger moves; nothing downstream unfolds those functions again.

`PCore s L h` is the same with one exemption: the chunk `h` may have a table and no counted
frame. That is the state inside `incref` between installing a table and counting the first
frame in it, and the reason the two are separate.

The clauses fall into the part of the list (which frames are on it, that it is a chain, that
they are nobody's) and the part of the counters, chunk by chunk. A chunk has a table exactly
if it counts something. `refs` is a word with an address above and a number below, and the
number may need its twelfth bit: 2048 frames of a chunk can be in use at once, and
`refs_split` needs just the room that there is.

`init` and `unsafe_alloc_frame` are in this file, as they do not touch the counters; the
counting calls are in `PhysMem/Spec.lean`.
-/

set_option autoImplicit false

namespace OsKernel.PhysMem

open Lib Lib.Prog K

/-- `p` is a frame that has been handed out at some time. -/
def InPool (s : Machine) (p : Word) : Prop :=
  Aligned p ∧ s.start.toNat ≤ p.toNat ∧ p.toNat < s.avail.toNat

instance (s : Machine) (p : Word) : Decidable (InPool s p) :=
  inferInstanceAs (Decidable (_ ∧ _ ∧ _))

/-- The registers and the bounds that `PhysMem` never changes. -/
structure SameRegs (s s' : Machine) : Prop where
  start : s'.start = s.start
  limit : s'.limit = s.limit
  kpd : s'.kpd = s.kpd
  cr3 : s'.cr3 = s.cr3
  tlb : s'.tlb = s.tlb

theorem SameRegs.refl (s : Machine) : SameRegs s s := ⟨rfl, rfl, rfl, rfl, rfl⟩

theorem SameRegs.trans {s t u : Machine} (h : SameRegs s t) (h' : SameRegs t u) :
    SameRegs s u :=
  ⟨h'.start.trans h.start, h'.limit.trans h.limit, h'.kpd.trans h.kpd, h'.cr3.trans h.cr3,
    h'.tlb.trans h.tlb⟩

theorem SameRegs.store {s t : Machine} (h : SameRegs s t) (m : Word → Nat → Word) :
    SameRegs s { t with mem := m } :=
  ⟨h.start, h.limit, h.kpd, h.cr3, h.tlb⟩

structure PCore (s : Machine) (L : Ledger) (h : Option Nat) : Prop where
  startPos : 0 < s.start.toNat
  startAl : Aligned s.start
  limitAl : Aligned s.limit
  availAl : Aligned s.avail
  startLe : s.start.toNat ≤ s.avail.toNat
  availLe : s.avail.toNat ≤ s.limit.toNat
  chain : Chain s.mem s.firstFree L.free
  freeNodup : L.free.Nodup
  freeIn : ∀ p ∈ L.free, InPool s p
  freeOwn : ∀ p ∈ L.free, L.own p = .none
  freeTable : ∀ p ∈ L.free, ∀ c, L.table c ≠ some p
  tableIn : ∀ c t, L.table c = some t → InPool s t
  tableOwn : ∀ c t, L.table c = some t → L.own t = .none
  tableInj : ∀ c c' t, L.table c = some t → L.table c' = some t → c = c'
  ownIn : ∀ p, L.own p ≠ .none → InPool s p
  cover : ∀ p, InPool s p → L.own p = .none → p ∈ L.free ∨ ∃ c, L.table c = some p
  /-- A chunk without a table has no counted frame, and the low bits of its word say so. -/
  noTable : ∀ c, L.table c = none →
    (s.refs c).toNat % 4096 = 0 ∧ pop s.start L.own c = 0
  /-- The word of a chunk with a table is the table's address plus the population. -/
  hasTable : ∀ c t, L.table c = some t → (s.refs c).toNat = t.toNat + pop s.start L.own c
  popPos : ∀ c t, L.table c = some t → h ≠ some c → 0 < pop s.start L.own c
  /-- The 16-bit counters are the reference counts. -/
  counters : ∀ c t, L.table c = some t → ∀ r, r < 2048 →
    (rd16 (s.mem t) r).toNat = (slot s.start L.own c r).refs

/-- The machine agrees with the ledger. -/
abbrev PInv (s : Machine) (L : Ledger) : Prop := PCore s L none

namespace PCore

variable {s : Machine} {L : Ledger} {h : Option Nat}

/-- How many frames can still be handed out. -/
def room (s : Machine) (L : Ledger) : Nat :=
  L.free.length + (s.limit.toNat - s.avail.toNat) / 4096

theorem toInv (H : PCore s L h) (hp : ∀ c, h = some c → 0 < pop s.start L.own c) :
    PInv s L :=
  { H with
    popPos := fun c t ht _ => by
      by_cases hc : h = some c
      · exact hp c hc
      · exact H.popPos c t ht hc }

theorem exempt (H : PInv s L) (h : Option Nat) : PCore s L h :=
  { H with popPos := fun c t ht _ => H.popPos c t ht (by simp) }

theorem ownLe (H : PCore s L h) {p : Word} (hp : L.own p ≠ .none) :
    s.start.toNat ≤ p.toNat := (H.ownIn p hp).2.1

theorem ownAl (H : PCore s L h) {p : Word} (hp : L.own p ≠ .none) : Aligned p :=
  (H.ownIn p hp).1

/-- The null pointer is no frame of the pool. -/
theorem ne_zero (H : PCore s L h) {p : Word} (hp : InPool s p) : p ≠ 0#32 := by
  rintro rfl
  have hpos := H.startPos
  have hle : s.start.toNat ≤ 0 := hp.2.1
  omega

/-- A counted frame has a table behind it. -/
theorem table_of_live (H : PCore s L h) {p : Word} (hp : (L.own p).live = true) :
    ∃ t, L.table (ridx s.start p) = some t := by
  have hne : L.own p ≠ .none := by intro h0; rw [h0] at hp; exact absurd hp (by simp)
  cases ht : L.table (ridx s.start p) with
  | some t => exact ⟨t, rfl⟩
  | none =>
    have h0 := (H.noTable _ ht).2
    have h1 := pop_pos_of L.own H.startAl (H.ownAl hne) (H.ownLe hne) hp
    omega

/-- The word of `refs` comes apart into the table and the population. -/
theorem refs_split (H : PCore s L h) {c : Nat} {t : Word} (ht : L.table c = some t) :
    s.refs c &&& 0xfffff000#32 = t ∧
      (s.refs c &&& 0xfff#32).toNat = pop s.start L.own c := by
  have h1 := H.hasTable c t ht
  have h2 : t.toNat % 4096 = 0 := (H.tableIn c t ht).1
  have h3 := pop_le s.start L.own c
  constructor
  · rw [← BitVec.toNat_inj, toNat_and_high]
    omega
  · rw [toNat_and_low]
    omega

/-- The counter of a frame. -/
theorem counter_of (H : PCore s L h) {p t : Word} (hp : L.own p ≠ .none)
    (ht : L.table (ridx s.start p) = some t) :
    (rd16 (s.mem t) (rofs s.start p)).toNat = (L.own p).refs := by
  rw [H.counters _ t ht _ (rofs_lt (H.ownLe hp)), slot_self _ H.startAl (H.ownAl hp) (H.ownLe hp)]

theorem table_ne_own (H : PCore s L h) {p t : Word} {c : Nat} (hp : L.own p ≠ .none)
    (ht : L.table c = some t) : p ≠ t := by
  rintro rfl
  exact hp (H.tableOwn c p ht)

theorem table_notMem_free (H : PCore s L h) {t : Word} {c : Nat} (ht : L.table c = some t) :
    t ∉ L.free := fun hm => H.freeTable t hm c ht

/-- Memory outside the allocator's own structures is the clients': writing a frame that somebody
holds keeps the invariant. -/
theorem store_owned (H : PCore s L h) {p : Word} (hp : L.own p ≠ .none) (m : Nat → Word) :
    PCore { s with mem := Function.update s.mem p m } L h where
  startPos := H.startPos
  startAl := H.startAl
  limitAl := H.limitAl
  availAl := H.availAl
  startLe := H.startLe
  availLe := H.availLe
  chain := H.chain.congr fun q hq => by
    have hne : q ≠ p := by rintro rfl; exact hp (H.freeOwn q hq)
    show Function.update s.mem p m q 0 = _
    rw [Function.update_of_ne hne]
  freeNodup := H.freeNodup
  freeIn := H.freeIn
  freeOwn := H.freeOwn
  freeTable := H.freeTable
  tableIn := H.tableIn
  tableOwn := H.tableOwn
  tableInj := H.tableInj
  ownIn := H.ownIn
  cover := H.cover
  noTable := H.noTable
  hasTable := H.hasTable
  popPos := H.popPos
  counters c t ht r hr := by
    have hne : t ≠ p := (H.table_ne_own hp ht).symm
    rw [← H.counters c t ht r hr]
    show (rd16 (Function.update s.mem p m t) r).toNat = _
    rw [Function.update_of_ne hne]

/-- The invariant does not look at CR3, the TLB or `kpd`. -/
theorem regs (H : PCore s L h) (kpd cr3 : Word) (tlb : List TlbEntry) :
    PCore { s with kpd := kpd, cr3 := cr3, tlb := tlb } L h :=
  ⟨H.startPos, H.startAl, H.limitAl, H.availAl, H.startLe, H.availLe, H.chain, H.freeNodup,
    H.freeIn, H.freeOwn, H.freeTable, H.tableIn, H.tableOwn, H.tableInj, H.ownIn, H.cover,
    H.noTable, H.hasTable, H.popPos, H.counters⟩

end PCore

/-! ## `init` -/

/-- The allocator that `init` leaves: nothing handed out, nothing counted. -/
theorem init_spec {s : Machine} {start size : Word} (hs : Aligned start) (hz : Aligned size)
    (hpos : 0 < start.toNat) (hfit : start.toNat + size.toNat < 2 ^ 32) :
    wp (init start size) (fun _ s' => s'.start = start ∧ s'.avail = start ∧
        s'.limit = start + size ∧ PInv s' ⟨fun _ => .none, [], fun _ => Option.none⟩)
      (fun _ _ => False) s := by
  have hlim : (start + size).toNat = start.toNat + size.toNat := by
    rw [BitVec.toNat_add, Nat.mod_eq_of_lt hfit]
  unfold init
  simp only [wp_bind, wp_assert, wp_modify]
  rw [if_pos (offset_eq_zero hs), if_pos (offset_eq_zero hz)]
  refine ⟨trivial, trivial, trivial, {
    startPos := hpos
    startAl := hs
    limitAl := ?_
    availAl := hs
    startLe := Nat.le_refl _
    availLe := ?_
    chain := rfl
    freeNodup := List.nodup_nil
    freeIn := fun _ hp => absurd hp (by simp)
    freeOwn := fun _ hp => absurd hp (by simp)
    freeTable := fun _ hp => absurd hp (by simp)
    tableIn := fun _ _ ht => absurd ht (by simp)
    tableOwn := fun _ _ ht => absurd ht (by simp)
    tableInj := fun _ _ _ ht => absurd ht (by simp)
    ownIn := fun _ hp => absurd rfl hp
    cover := fun p hp _ => ?_
    noTable := fun c _ => ⟨rfl, pop_eq_zero (fun _ => rfl) c⟩
    hasTable := fun _ _ ht => absurd ht (by simp)
    popPos := fun _ _ ht => absurd ht (by simp)
    counters := fun _ _ ht => absurd ht (by simp) }⟩
  · show (start + size).toNat % 4096 = 0
    have h1 : start.toNat % 4096 = 0 := hs
    have h2 : size.toNat % 4096 = 0 := hz
    omega
  · show start.toNat ≤ (start + size).toNat
    omega
  · have h1 := hp.2.1
    have h2 := hp.2.2
    exact absurd (Nat.lt_of_le_of_lt h1 h2) (Nat.lt_irrefl _)

/-! ## `unsafe_alloc_frame`

A frame comes from the head of the free list or, if that is empty, from the memory behind it that
has never been used; `PCore.taken` is the rule for both, since what they do to the ledger is the
same. `Taken` is what a caller may use: the frame, that it is zero, and what has not changed. -/

/-- The ledger after handing out `p` without a count. -/
def Ledger.take (L : Ledger) (p : Word) : Ledger :=
  { L with own := Function.update L.own p .raw, free := L.free.tail }

@[simp] theorem Ledger.take_table (L : Ledger) (p : Word) : (L.take p).table = L.table := rfl

@[simp] theorem Ledger.take_own (L : Ledger) (p : Word) :
    (L.take p).own = Function.update L.own p .raw := rfl

/-- What `unsafe_alloc_frame` guarantees. -/
structure Taken (s : Machine) (L : Ledger) (p : Word) (s' : Machine) : Prop where
  fresh : L.own p = .none
  isHead : p = L.free.headD s.avail
  noTable : ∀ c, L.table c ≠ some p
  zero : s'.mem p = fun _ => 0#32
  others : ∀ q, q ≠ p → s'.mem q = s.mem q
  regs : SameRegs s s'
  refs : s'.refs = s.refs
  room : PCore.room s' (L.take p) + 1 = PCore.room s L
  mono : s.avail.toNat ≤ s'.avail.toNat

/-- A run that stops does so for lack of frames, with nothing changed. -/
def OutOfFrames (s : Machine) (L : Ledger) (e : Stop) (s' : Machine) : Prop :=
  e = .noFrames ∧ s' = s ∧ PCore.room s L = 0

section take

variable {s : Machine} {L : Ledger} {h : Option Nat}

/-- The invariant after a free or a new frame `p` has been taken out and zeroed. -/
theorem PCore.taken (H : PCore s L h) {p : Word} {s' : Machine} (hp : L.own p = .none)
    (hin : InPool s' p) (hnt : ∀ c, L.table c ≠ some p)
    (hmem : s'.mem = Function.update s.mem p fun _ => 0#32)
    (hch : Chain s.mem s'.firstFree L.free.tail) (hnf : p ∉ L.free.tail)
    (hst : s'.start = s.start) (hlim : s'.limit = s.limit) (href : s'.refs = s.refs)
    (hav : Aligned s'.avail) (hle : s.avail.toNat ≤ s'.avail.toNat)
    (hle' : s'.avail.toNat ≤ s.limit.toNat)
    (hold : ∀ q, InPool s' q → q = p ∨ (InPool s q ∧ (q ∈ L.free → q ∈ L.free.tail))) :
    PCore s' (L.take p) h := by
  have hpin := hin.2.1
  rw [hst] at hpin
  -- a frame taken out is not counted by its chunk before it is given away
  have hpop : ∀ c, pop s.start (L.take p).own c = pop s.start L.own c := fun c =>
    pop_update_same H.startAl hin.1 hpin (by rw [hp]; rfl) c
  have hmono : ∀ q, InPool s q → InPool s' q := fun q hq =>
    ⟨hq.1, by rw [hst]; exact hq.2.1, Nat.lt_of_lt_of_le hq.2.2 hle⟩
  have htail : ∀ q ∈ L.free.tail, q ∈ L.free := fun q hq => List.mem_of_mem_tail hq
  have hown : ∀ q, q ≠ p → (L.take p).own q = L.own q := fun q hq => Function.update_of_ne hq _ _
  refine
    { startPos := hst ▸ H.startPos
      startAl := hst ▸ H.startAl
      limitAl := hlim ▸ H.limitAl
      availAl := hav
      startLe := by rw [hst]; exact Nat.le_trans H.startLe hle
      availLe := by rw [hlim]; exact hle'
      chain := ?_
      freeNodup := H.freeNodup.tail
      freeIn := fun q hq => hmono q (H.freeIn q (htail q hq))
      freeOwn := fun q hq => ?_
      freeTable := fun q hq => H.freeTable q (htail q hq)
      tableIn := fun c t ht => hmono t (H.tableIn c t ht)
      tableOwn := fun c t ht => ?_
      tableInj := H.tableInj
      ownIn := fun q hq => ?_
      cover := fun q hq hn => ?_
      noTable := fun c hc => ?_
      hasTable := fun c t ht => ?_
      popPos := fun c t ht hh => ?_
      counters := fun c t ht r hr => ?_ }
  · refine Chain.congr (fun q hq => ?_) hch
    have hne : q ≠ p := by rintro rfl; exact hnf hq
    rw [hmem, Function.update_of_ne hne]
  · have hne : q ≠ p := by rintro rfl; exact hnf hq
    rw [hown q hne]
    exact H.freeOwn q (htail q hq)
  · have hne : t ≠ p := by rintro rfl; exact hnt c ht
    rw [hown t hne]
    exact H.tableOwn c t ht
  · by_cases hqp : q = p
    · rw [hqp]; exact hin
    · rw [hown q hqp] at hq
      exact hmono q (H.ownIn q hq)
  · have hne : q ≠ p := by
      rintro rfl
      simp [Ledger.take] at hn
    rw [hown q hne] at hn
    obtain hqp | ⟨hqs, htl⟩ := hold q hq
    · exact absurd hqp hne
    · obtain hf | hc := H.cover q hqs hn
      · exact Or.inl (htl hf)
      · exact Or.inr hc
  · rw [href, hst, hpop c]
    exact H.noTable c hc
  · rw [href, hst, hpop c]
    exact H.hasTable c t ht
  · rw [hst, hpop c]
    exact H.popPos c t ht hh
  · have hne : t ≠ p := by rintro rfl; exact hnt c ht
    rw [hmem, Function.update_of_ne hne, hst, H.counters c t ht r hr]
    exact (slot_refs_same H.startAl hin.1 hpin (by rw [hp]; rfl) hr).symm

theorem unsafeAllocFrame_spec (H : PCore s L h) :
    wp unsafeAllocFrame (fun p s' => PCore s' (L.take p) h ∧ Taken s L p s')
      (OutOfFrames s L) s := by
  unfold unsafeAllocFrame
  simp only [wp_bind, wp_get, wp_ite, wp_set, wp_pure, wp_throw, wp_assert, wp_bzero]
  by_cases hff : s.firstFree = 0#32
  -- no freed frame: the next one above `avail`, if there is one
  · have hnil : L.free = [] := Chain.nil_of_zero (hff ▸ H.chain)
    rw [if_neg (by simpa using hff)]
    by_cases hav : s.avail = s.limit
    · rw [if_pos hav]
      refine ⟨rfl, rfl, ?_⟩
      simp [PCore.room, hnil, hav]
    · rw [if_neg hav]
      have hlt : s.avail.toNat < s.limit.toNat := by
        have := H.availLe
        have hne : s.avail.toNat ≠ s.limit.toNat := fun h => hav (BitVec.toNat_inj.mp h)
        omega
      have hA : s.avail.toNat % 4096 = 0 := H.availAl
      have hL : s.limit.toNat % 4096 = 0 := H.limitAl
      have hlim := s.limit.isLt
      have hnext : (s.avail + FRAME_SIZE).toNat = s.avail.toNat + 4096 := by
        unfold FRAME_SIZE
        rw [BitVec.toNat_add]
        show (s.avail.toNat + 4096) % _ = _
        omega
      rw [if_pos (offset_eq_zero H.availAl)]
      have hfree : L.own s.avail = .none := by
        by_contra hne
        have := (H.ownIn _ hne).2.2
        omega
      have hnt : ∀ c, L.table c ≠ some s.avail := fun c ht => by
        have := (H.tableIn c _ ht).2.2
        omega
      refine ⟨H.taken hfree ⟨H.availAl, H.startLe, ?_⟩ hnt rfl ?_ ?_ rfl rfl rfl ?_ ?_ ?_ ?_, ?_⟩
      · show s.avail.toNat < (s.avail + FRAME_SIZE).toNat
        omega
      · rw [hnil]; exact hff
      · rw [hnil]; simp
      · show (s.avail + FRAME_SIZE).toNat % 4096 = 0
        omega
      · show s.avail.toNat ≤ (s.avail + FRAME_SIZE).toNat
        omega
      · show (s.avail + FRAME_SIZE).toNat ≤ s.limit.toNat
        omega
      · rintro q ⟨hq1, hq2, hq3⟩
        have hq3' : q.toNat < (s.avail + FRAME_SIZE).toNat := hq3
        have hq1' : q.toNat % 4096 = 0 := hq1
        by_cases hqa : q = s.avail
        · exact Or.inl hqa
        · have hne : q.toNat ≠ s.avail.toNat := fun h => hqa (BitVec.toNat_inj.mp h)
          refine Or.inr ⟨⟨hq1, hq2, by omega⟩, fun hm => ?_⟩
          rw [hnil] at hm
          exact absurd hm (by simp)
      · refine ⟨hfree, by rw [hnil]; rfl, hnt, Function.update_self .., fun q hq =>
          Function.update_of_ne hq _ _, ⟨rfl, rfl, rfl, rfl, rfl⟩, rfl, ?_, ?_⟩
        · unfold PCore.room Ledger.take
          rw [hnil]
          simp only [List.tail_nil, List.length_nil]
          show 0 + (s.limit.toNat - (s.avail + FRAME_SIZE).toNat) / 4096 + 1 = _
          rw [hnext]
          omega
        · show s.avail.toNat ≤ (s.avail + FRAME_SIZE).toNat
          omega
  -- the head of the free list
  · rw [if_pos (by simpa using hff)]
    cases hfl : L.free with
    | nil =>
      have := H.chain
      rw [hfl] at this
      exact absurd this hff
    | cons p rest =>
      have hch := H.chain
      rw [hfl] at hch
      obtain ⟨hp, -, hrest⟩ := hch
      have hmem : p ∈ L.free := by rw [hfl]; exact List.mem_cons_self
      have hnd := H.freeNodup
      rw [hfl] at hnd
      rw [hp, if_pos (offset_eq_zero (H.freeIn p hmem).1)]
      refine ⟨H.taken (H.freeOwn p hmem) (H.freeIn p hmem) (H.freeTable p hmem) rfl ?_ ?_ rfl rfl
        rfl H.availAl (Nat.le_refl _) H.availLe ?_, ?_⟩
      · rw [hfl]; exact hrest
      · rw [hfl]; exact (List.nodup_cons.mp hnd).1
      · intro q hq
        by_cases hqp : q = p
        · exact Or.inl hqp
        · refine Or.inr ⟨hq, fun hm => ?_⟩
          rw [hfl] at hm ⊢
          exact (List.mem_cons.mp hm).resolve_left hqp
      · refine ⟨H.freeOwn p hmem, by rw [hfl]; rfl, H.freeTable p hmem, Function.update_self ..,
          fun q hq => Function.update_of_ne hq _ _, ⟨rfl, rfl, rfl, rfl, rfl⟩, rfl, ?_, Nat.le_refl _⟩
        unfold PCore.room Ledger.take
        rw [hfl]
        simp only [List.tail_cons, List.length_cons]
        omega

end take

end OsKernel.PhysMem
