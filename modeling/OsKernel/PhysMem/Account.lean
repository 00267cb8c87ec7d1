import OsKernel.PhysMem.Spec

/-!
# What a client sees of `PhysMem`

The page-directory code only cares who owns which frame; the free list, the tables and the
packed words are the allocator's business. `Accounts s own n a` hides the ledger behind the
map `own`:

* `n` is a number of frames that can still be handed out, so that a client can show that it
  does not run out of them;
* `a x t` says that the frame `x` stays counted and that `t` is the table of its chunk. Such a
  table is never given back, which is what a client needs to know to say where the frames it
  returned have gone.

Each operation of `PhysMem` has one rule here. `Kept H s s'` is the frame condition of all of
them: what lies in the frames of `H`, and the registers, are as before.

The ledger is under an existential. A client cannot ask which frame is a table or in which
order the list is, so a change of the allocator's insides ends at this file. The last section
opens it again, for statements about memory that have to say what is free: `IsFree` and
`IsRefTable` look at the words, and `isFree_of_none` says what a frame is that nobody holds.
-/

set_option autoImplicit false

namespace OsKernel.PhysMem

open Lib Lib.Prog K

/-- The contents of the frames in `H`, and the registers, are as before. -/
structure Kept (H : Word → Prop) (s s' : Machine) : Prop where
  mem : ∀ q, H q → s'.mem q = s.mem q
  regs : SameRegs s s'
  mono : s.avail.toNat ≤ s'.avail.toNat

namespace Kept

variable {H H' : Word → Prop} {s t u : Machine}

theorem refl (H : Word → Prop) (s : Machine) : Kept H s s :=
  ⟨fun _ _ => rfl, SameRegs.refl s, Nat.le_refl _⟩

theorem trans (h : Kept H s t) (h' : Kept H t u) : Kept H s u :=
  ⟨fun q hq => (h'.mem q hq).trans (h.mem q hq), h.regs.trans h'.regs, h.mono.trans h'.mono⟩

theorem weaken (h : Kept H s t) (hh : ∀ q, H' q → H q) : Kept H' s t :=
  ⟨fun q hq => h.mem q (hh q hq), h.regs, h.mono⟩

/-- The pool only grows. -/
theorem inPool (h : Kept H s t) {p : Word} (hp : InPool s p) : InPool t p :=
  ⟨hp.1, by rw [h.regs.start]; exact hp.2.1, hp.2.2.trans_le h.mono⟩

/-- A store outside `H`. -/
theorem store (h : Kept H s t) {p : Word} (hp : ¬ H p) (m : Nat → Word) :
    Kept H s { t with mem := Function.update t.mem p m } :=
  ⟨fun q hq => by
    have hqp : q ≠ p := by rintro rfl; exact hp hq
    show Function.update t.mem p m q = _
    rw [Function.update_of_ne hqp]
    exact h.mem q hq, h.regs.store _, h.mono⟩

end Kept

/-- The frames somebody holds. -/
def Held (own : Word → Own) (p : Word) : Prop := own p ≠ .none

/-- The ledger behind a client's view. -/
structure Backs (L : Ledger) (s : Machine) (own : Word → Own) (n : Nat)
    (a : Word → Word → Prop) : Prop where
  inv : PInv s L
  owners : L.own = own
  room : n ≤ PCore.room s L
  anchored : ∀ x t, a x t → L.table (ridx s.start x) = some t ∧ (own x).live = true

/-- The allocator works, `own` says who holds each frame, and `n` more can be handed out. -/
def Accounts (s : Machine) (own : Word → Own) (n : Nat) (a : Word → Word → Prop) : Prop :=
  ∃ L, Backs L s own n a

namespace Accounts

variable {s : Machine} {own : Word → Own} {n : Nat} {a : Word → Word → Prop}

theorem weaken (A : Accounts s own n a) {m : Nat} (h : m ≤ n) : Accounts s own m a := by
  obtain ⟨L, B⟩ := A
  exact ⟨L, B.inv, B.owners, h.trans B.room, B.anchored⟩

theorem inPool (A : Accounts s own n a) {p : Word} (hp : Held own p) : InPool s p := by
  obtain ⟨L, B⟩ := A
  exact B.inv.ownIn p (by rw [B.owners]; exact hp)

theorem aligned (A : Accounts s own n a) {p : Word} (hp : Held own p) : Aligned p :=
  (A.inPool hp).1

/-- Writing a frame that somebody holds. -/
theorem store (A : Accounts s own n a) {p : Word} (hp : Held own p) (m : Nat → Word) :
    Accounts { s with mem := Function.update s.mem p m } own n a := by
  obtain ⟨L, B⟩ := A
  exact ⟨L, B.inv.store_owned (by rw [B.owners]; exact hp) m, B.owners, B.room, B.anchored⟩

theorem regs (A : Accounts s own n a) (kpd cr3 : Word) (tlb : List TlbEntry) :
    Accounts { s with kpd := kpd, cr3 := cr3, tlb := tlb } own n a := by
  obtain ⟨L, B⟩ := A
  exact ⟨L, B.inv.regs kpd cr3 tlb, B.owners, B.room, B.anchored⟩

/-! ## `alloc_frame` and `incref` -/

theorem allocFrame_spec (A : Accounts s own n a) :
    wp allocFrame (fun p s' => own p = .none ∧ s'.mem p = (fun _ => 0#32) ∧
        Accounts s' (Function.update own p (.counted 0)) (n - 2) a ∧ Kept (Held own) s s')
      (fun e _ => e = .noFrames ∧ n < 2) s := by
  obtain ⟨L, B⟩ := A
  refine wp_mono (PhysMem.allocFrame_spec B.inv) (fun p s' ⟨L', al⟩ => ?_) (fun e _ h => ?_)
  · have hroom := al.room
    have hr := B.room
    refine ⟨B.owners ▸ al.fresh, al.zero, ⟨L', al.inv, ?_, by omega, fun x t hx => ?_⟩, ?_⟩
    · rw [al.own, B.owners]
    · obtain ⟨ht, hl⟩ := B.anchored x t hx
      have hxp : x ≠ p := by
        rintro rfl
        rw [← B.owners, al.fresh] at hl
        exact absurd hl (by simp)
      rw [Function.update_of_ne hxp, al.keeps.regs.start]
      exact ⟨al.table _ _ ht, hl⟩
    · exact ⟨fun q hq => al.keeps.mem q (by rw [B.owners]; exact hq), al.keeps.regs, al.keeps.mono⟩
  · exact ⟨h.1, Nat.lt_of_le_of_lt B.room h.2⟩

theorem incref_spec (A : Accounts s own n a) {p : Word} {k : Nat} (hp : own p = .counted k) :
    wp (incref p) (fun _ s' => Accounts s' (Function.update own p (.counted (k + 1))) n a ∧
        Kept (Held own) s s')
      (fun e _ => e = .refOverflow ∧ k + 1 = 65535) s := by
  obtain ⟨L, B⟩ := A
  have hL : L.own p = .counted k := by rw [B.owners]; exact hp
  have hinc := B.inv.incref_of_counted hL
  obtain ⟨t, ht⟩ := B.inv.table_of_live (p := p) (by rw [hL]; rfl)
  refine wp_mono (PhysMem.incref_counted_spec B.inv hL) (fun _ s' ⟨H', K', hr'⟩ => ?_)
    (fun e _ h => h)
  refine ⟨⟨L.inc p, H', ?_, hr' ▸ B.room, fun x t hx => ?_⟩, ?_⟩
  · rw [Ledger.inc_own, hL, B.owners]
    rfl
  · obtain ⟨ht, hl⟩ := B.anchored x t hx
    rw [K'.regs.start]
    refine ⟨ht, ?_⟩
    by_cases hxp : x = p
    · rw [hxp, Function.update_self]
      rfl
    · rw [Function.update_of_ne hxp]
      exact hl
  · exact ⟨fun q hq => K'.mem q (by rw [B.owners]; exact hq), K'.regs, K'.mono⟩

/-! ## `decref` -/

/-- The frame of an anchor stays counted. -/
def Anchored (own : Word → Own) (a : Word → Word → Prop) : Prop :=
  ∀ x t, a x t → (own x).live = true

theorem subRef_spec (A : Accounts s own n a) {p : Word} {k : Nat} (hp : own p = .counted k) :
    wp (subRef p) (fun b s' => b = decide (k = 0) ∧
        Accounts s' (Function.update own p (Own.counted k).dec) n a ∧ Kept (Held own) s s')
      (fun _ _ => False) s := by
  obtain ⟨L, B⟩ := A
  have hL : L.own p = .counted k := by rw [B.owners]; exact hp
  refine wp_mono (PhysMem.subRef_spec B.inv hL) (fun b s' ⟨hb, H', K', hav⟩ => ?_)
    (fun _ _ h => h)
  have hroom : PCore.room s' (L.dec p) = PCore.room s L := by
    unfold PCore.room
    rw [hav, K'.regs.limit]
    rfl
  refine ⟨hb, ⟨L.dec p, H', ?_, hroom ▸ B.room, fun x t hx => ?_⟩,
    ⟨fun q hq => K'.mem q (by rw [B.owners]; exact hq), K'.regs, K'.mono⟩⟩
  · rw [Ledger.dec_own, hL, B.owners]
  · obtain ⟨ht, hl⟩ := B.anchored x t hx
    rw [K'.regs.start]
    refine ⟨ht, ?_⟩
    by_cases hxp : x = p
    · rw [hxp, Function.update_self]
      cases k <;> rfl
    · rw [Function.update_of_ne hxp]
      exact hl

theorem release_spec (A : Accounts s own n a) {p : Word} (hp : own p = .dying)
    (ha : Anchored (Function.update own p .none) a) :
    wp (release p) (fun _ s' => Accounts s' (Function.update own p .none) n a ∧
        Kept (Held (Function.update own p .none)) s s')
      (fun _ _ => False) s := by
  obtain ⟨L, B⟩ := A
  have hL : L.own p = .dying := by rw [B.owners]; exact hp
  refine wp_mono (PhysMem.release_spec B.inv hL) (fun _ s' ⟨H', hmem, hregs, hav⟩ => ?_)
    (fun _ _ h => h)
  have hown : (L.release s.start p).own = Function.update own p .none := by
    rw [Ledger.release_own, B.owners]
  refine ⟨⟨L.release s.start p, H', hown, ?_, fun x t hx => ?_⟩, ⟨fun q hq => ?_, hregs, ?_⟩⟩
  · have hlen : L.free.length ≤ (L.release s.start p).free.length := Ledger.release_length ..
    have hr := B.room
    unfold PCore.room at hr ⊢
    rw [hav, hregs.limit]
    omega
  · have hl := ha x t hx
    rw [hregs.start]
    refine ⟨?_, hl⟩
    have hxn : own x ≠ .none := by
      intro h0
      by_cases hxp : x = p
      · rw [hxp, Function.update_self] at hl
        exact absurd hl (by simp)
      · rw [Function.update_of_ne hxp, h0] at hl
        exact absurd hl (by simp)
    refine Ledger.release_keeps (B.anchored x t hx).1 (fun _ => ?_)
    have hpos := pop_pos_of (Function.update L.own p .none) B.inv.startAl
      (B.inv.ownAl (by rw [B.owners]; exact hxn)) (B.inv.ownLe (by rw [B.owners]; exact hxn))
      (show (Function.update L.own p .none x).live = true by rw [B.owners]; exact hl)
    exact hpos
  · by_cases hqp : q = p
    · rw [hqp] at hq
      exact absurd (Function.update_self p _ own) hq
    · refine hmem q ?_ hqp
      have hq' : own q ≠ .none := fun h0 => hq (by rw [Function.update_of_ne hqp]; exact h0)
      rw [B.owners]
      exact hq'
  · rw [hav]

/-- `decref` of a frame that keeps another reference. -/
theorem decref_more_spec (A : Accounts s own n a) {p : Word} {k : Nat} (f : Word → K Unit)
    (hp : own p = .counted (k + 1)) :
    wp (decref p f) (fun _ s' => Accounts s' (Function.update own p (.counted k)) n a ∧
        Kept (Held own) s s') (fun _ _ => False) s := by
  unfold decref
  simp only [wp_bind]
  refine wp_mono (A.subRef_spec hp) (fun b s' hpost => ?_) (fun _ _ h => h)
  obtain ⟨hb, A', K'⟩ := hpost
  have hb' : b = false := by rw [hb]; simp
  rw [hb', if_neg (by simp)]
  exact ⟨A', K'⟩

/-- `decref` of the last reference: the callback runs on a frame that is dying, and what it leaves
behind is given back. -/
theorem decref_last_spec (A : Accounts s own n a) {p : Word} {f : Word → K Unit}
    {Q : Unit → Machine → Prop} {E : Stop → Machine → Prop} (hp : own p = .counted 0)
    (hf : ∀ s', Accounts s' (Function.update own p .dying) n a → Kept (Held own) s s' →
      wp (f p) (fun _ t => wp (release p) Q E t) E s') :
    wp (decref p f) Q E s := by
  unfold decref
  simp only [wp_bind]
  refine wp_mono (A.subRef_spec hp) (fun b s' hpost => ?_) (fun _ _ h => h.elim)
  obtain ⟨hb, A', K'⟩ := hpost
  have hb' : b = true := by rw [hb]; simp
  rw [hb', if_pos rfl, wp_bind]
  exact hf s' A' K'

end Accounts

/-! ## Reading the allocator's state -/

/-- `t` is a table of reference counts. -/
def IsRefTable (s : Machine) (t : Word) : Prop :=
  ∃ c, s.refs c &&& 0xfff#32 ≠ 0#32 ∧ s.refs c &&& 0xfffff000#32 = t

/-- `p` is on the free list. -/
def IsFree (s : Machine) (p : Word) : Prop := ∃ l, Chain s.mem s.firstFree l ∧ p ∈ l

theorem PCore.isFree_iff {s : Machine} {L : Ledger} (H : PInv s L) {p : Word} :
    IsFree s p ↔ p ∈ L.free := by
  constructor
  · rintro ⟨l, hl, hp⟩
    rwa [Chain.unique H.chain hl] at hp
  · exact fun hp => ⟨L.free, H.chain, hp⟩

/-- The two levels hold what the ledger says. -/
theorem PCore.refCount_eq {s : Machine} {L : Ledger} (H : PInv s L) {p : Word} (hp : Aligned p)
    (hle : s.start.toNat ≤ p.toNat) : refCount s p = (L.own p).refs := by
  unfold refCount
  cases ht : L.table (ridx s.start p) with
  | none =>
    obtain ⟨hlow, hpop⟩ := H.noTable _ ht
    rw [if_pos (by rw [← BitVec.toNat_inj, toNat_and_low]; exact hlow)]
    by_contra hne
    obtain ⟨k, hk⟩ := Own.refs_pos_iff.mp (Nat.pos_of_ne_zero (Ne.symm hne))
    have := pop_pos_of L.own H.startAl hp hle (by rw [hk]; rfl)
    omega
  | some t =>
    obtain ⟨hhigh, hlow⟩ := H.refs_split ht
    have hpos := H.popPos _ t ht (by simp)
    have hne : s.refs (ridx s.start p) &&& 0xfff#32 ≠ 0#32 := by
      intro h0
      rw [h0] at hlow
      have hz : (0#32 : Word).toNat = 0 := rfl
      omega
    rw [if_neg hne, hhigh, H.counters _ t ht _ (rofs_lt hle), slot_self _ H.startAl hp hle]

namespace Accounts

variable {s : Machine} {own : Word → Own} {n : Nat} {a : Word → Word → Prop}

theorem refCount_pool (A : Accounts s own n a) {p : Word} (hp : InPool s p) :
    refCount s p = (own p).refs := by
  obtain ⟨L, B⟩ := A
  rw [B.inv.refCount_eq hp.1 hp.2.1, B.owners]

theorem refCount_eq (A : Accounts s own n a) {p : Word} (hp : Held own p) :
    refCount s p = (own p).refs := A.refCount_pool (A.inPool hp)

/-- A table of counters belongs to the allocator. -/
theorem anchored_none (A : Accounts s own n a) {x t : Word} (hx : a x t) :
    InPool s t ∧ own t = .none := by
  obtain ⟨L, B⟩ := A
  have ht := (B.anchored x t hx).1
  exact ⟨B.inv.tableIn _ t ht, by rw [← B.owners]; exact B.inv.tableOwn _ t ht⟩

theorem not_isFree (A : Accounts s own n a) {p : Word} (hp : Held own p) : ¬ IsFree s p := by
  obtain ⟨L, B⟩ := A
  rw [B.inv.isFree_iff]
  intro hm
  refine hp ?_
  rw [← B.owners]
  exact B.inv.freeOwn p hm

theorem not_refTable (A : Accounts s own n a) {p : Word} (hp : Held own p) : ¬ IsRefTable s p := by
  obtain ⟨L, B⟩ := A
  rintro ⟨c, hne, rfl⟩
  cases ht : L.table c with
  | none =>
    refine hne ?_
    rw [← BitVec.toNat_inj, toNat_and_low]
    exact (B.inv.noTable c ht).1
  | some t =>
    rw [(B.inv.refs_split ht).1] at hp
    rw [← B.owners] at hp
    exact hp (B.inv.tableOwn c t ht)

/-- A frame of the pool that nobody holds is free and uncounted, or an anchored table: there are no
other tables if every counted frame is an anchor. -/
theorem isFree_of_none (A : Accounts s own n a) {p : Word} (hp : InPool s p) (h0 : own p = .none)
    (hall : ∀ x, (own x).live = true → ∃ t, a x t) (hna : ∀ x, ¬ a x p) :
    IsFree s p ∧ refCount s p = 0 := by
  obtain ⟨L, B⟩ := A
  have hL : L.own p = .none := by rw [B.owners]; exact h0
  refine ⟨B.inv.isFree_iff.mpr ?_, by rw [B.inv.refCount_eq hp.1 hp.2.1, hL]; rfl⟩
  refine (B.inv.cover p hp hL).resolve_right ?_
  rintro ⟨c, hc⟩
  obtain ⟨x, hl, hx⟩ := exists_live_of_pop_pos B.inv.startAl (B.inv.popPos c p hc (by simp))
  have hxn : L.own x ≠ .none := by
    intro hn
    rw [hn] at hl
    exact absurd hl (by simp)
  obtain ⟨t, ht⟩ := hall x (by rw [← B.owners]; exact hl)
  have htab := (B.anchored x t ht).1
  rw [hx (B.inv.ownLe hxn) (B.inv.ownAl hxn), hc] at htab
  obtain rfl := Option.some.inj htab
  exact hna x ht

end Accounts

end OsKernel.PhysMem
