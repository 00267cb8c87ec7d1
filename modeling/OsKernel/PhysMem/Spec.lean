import OsKernel.PhysMem.Inv

/-!
# What `incref`, `decref` and `alloc_frame` do to the ledger

One lemma for each. The ledger moves by `Ledger.ensure`, `Ledger.inc`, `Ledger.dec` and
`Ledger.release`; everything a client can see (the frames it holds and their contents, the
registers, the room left) is read off the ledger afterwards.

The halves of the calls are specified one by one, in the order in which they run:
`ensureTable`, `countRef`, `subRef`, `release`. Between two halves the machine agrees with
some ledger too, or with one but for one chunk (`PCore`), so the proof about a whole call is
the composition and nothing more. That is also what the nesting needs. The callback of a
`decref` runs between `subRef` and `release`, with the frame `dying`; whatever it does is
given as a hypothesis on the ledger that it leaves, and it may be another `decref`.

Calls can stop, and each lemma says for which reasons and with which state: there is no frame
for the table that a first reference needs, or the counter is full.
-/

set_option autoImplicit false

namespace OsKernel.PhysMem

open Lib Lib.Prog K

namespace Ledger

/-- Chunk `c` gets the table `t` if it has none. -/
def ensure (L : Ledger) (c : Nat) (t : Word) : Ledger :=
  match L.table c with
  | some _ => L
  | none => { L with free := L.free.tail, table := Function.update L.table c (some t) }

/-- One more reference to `p`. -/
def inc (L : Ledger) (p : Word) : Ledger :=
  { L with own := Function.update L.own p (L.own p).inc }

/-- One reference to `p` less. -/
def dec (L : Ledger) (p : Word) : Ledger :=
  { L with own := Function.update L.own p (L.own p).dec }

/-- `p` goes on the free list, and the table of its chunk after it if it was the last. -/
def release (L : Ledger) (start p : Word) : Ledger :=
  let own := Function.update L.own p .none
  let c := ridx start p
  match L.table c with
  | some t =>
    if pop start own c = 0 then
      { own := own, free := t :: p :: L.free, table := Function.update L.table c none }
    else { L with own := own, free := p :: L.free }
  | none => { L with own := own, free := p :: L.free }

@[simp] theorem ensure_own (L : Ledger) (c : Nat) (t : Word) : (L.ensure c t).own = L.own := by
  unfold ensure
  split <;> rfl

@[simp] theorem inc_own (L : Ledger) (p : Word) :
    (L.inc p).own = Function.update L.own p (L.own p).inc := rfl

@[simp] theorem dec_own (L : Ledger) (p : Word) :
    (L.dec p).own = Function.update L.own p (L.own p).dec := rfl

@[simp] theorem release_own (L : Ledger) (start p : Word) :
    (L.release start p).own = Function.update L.own p .none := by
  unfold release
  dsimp only
  split
  · split <;> rfl
  · rfl

theorem release_length (L : Ledger) (start p : Word) :
    L.free.length ≤ (L.release start p).free.length := by
  unfold release
  dsimp only
  split
  · split <;> simp only [List.length_cons] <;> omega
  · simp only [List.length_cons]
    omega

/-- Only a chunk that loses its last counted frame loses its table. -/
theorem release_keeps {L : Ledger} {start p t : Word} {c : Nat} (h : L.table c = some t)
    (hp : ridx start p = c → 0 < pop start (Function.update L.own p .none) c) :
    (L.release start p).table c = some t := by
  unfold release
  dsimp only
  split
  · split
    · rename_i h0
      have hne : c ≠ ridx start p := by
        rintro rfl
        have := hp rfl
        omega
      exact (Function.update_of_ne hne _ _).trans h
    · exact h
  · exact h

theorem ensure_of_some {L : Ledger} {c : Nat} {t u : Word} (h : L.table c = some u) :
    L.ensure c t = L := by
  unfold ensure
  rw [h]

theorem ensure_keeps {L : Ledger} {c' : Nat} {u : Word} (c : Nat) (t : Word)
    (h : L.table c' = some u) : (L.ensure c t).table c' = some u := by
  unfold ensure
  cases hc : L.table c with
  | some v => exact h
  | none =>
    have hne : c' ≠ c := by
      rintro rfl
      rw [hc] at h
      exact absurd h (by simp)
    exact (Function.update_of_ne hne _ _).trans h

theorem ensure_free (L : Ledger) (c : Nat) (t : Word) (h : L.free = []) :
    (L.ensure c t).free = [] := by
  unfold ensure
  split
  · exact h
  · show L.free.tail = []
    rw [h]
    rfl

theorem ensure_table (L : Ledger) (c : Nat) (t : Word) :
    ∃ u, (L.ensure c t).table c = some u := by
  unfold ensure
  cases h : L.table c with
  | some u => exact ⟨u, h⟩
  | none => exact ⟨t, Function.update_self ..⟩

end Ledger

/-- The contents of every frame that somebody holds, and the registers, are as before. -/
structure Keeps (s : Machine) (L : Ledger) (s' : Machine) : Prop where
  mem : ∀ q, L.own q ≠ .none → s'.mem q = s.mem q
  regs : SameRegs s s'
  mono : s.avail.toNat ≤ s'.avail.toNat

theorem Keeps.refl (s : Machine) (L : Ledger) : Keeps s L s :=
  ⟨fun _ _ => rfl, SameRegs.refl s, Nat.le_refl _⟩

theorem Keeps.trans {s t u : Machine} {L L' : Ledger} (h : Keeps s L t) (h' : Keeps t L' u)
    (hl : ∀ q, L.own q ≠ .none → L'.own q ≠ .none) : Keeps s L u :=
  ⟨fun q hq => (h'.mem q (hl q hq)).trans (h.mem q hq), h.regs.trans h'.regs,
    Nat.le_trans h.mono h'.mono⟩

variable {s : Machine} {L : Ledger} {p : Word}

/-! ## `incref`

`incref` is taken in the two halves of the source: the section that makes sure that the chunk has
a table, and the counting. The table comes from `unsafe_alloc_frame`, and until it is in `refs`
the ledger has one frame in use that is nobody's; `PCore` has the chunk that the table is meant
for as a parameter, so that the invariant holds at the seam as well. -/

/-- The new table of a chunk without counted frames. -/
theorem PCore.installed (H : PInv s L) {c : Nat} {t : Word} {s' : Machine}
    (hc : L.table c = none) (H' : PCore s' (L.take t) none) (T : Taken s L t s') :
    PCore { s' with refs := Function.update s'.refs c t } (L.ensure c t) (some c) := by
  have hens : L.ensure c t =
      { L with free := L.free.tail, table := Function.update L.table c (some t) } := by
    unfold Ledger.ensure
    rw [hc]
  have hst := T.regs.start
  have hpop0 := (H.noTable c hc).2
  have htin : InPool s' t := H'.ownIn t (by simp [Ledger.take])
  -- nothing in the chunk is counted yet, which is what a table of zeros says
  have hslot0 : ∀ r, r < 2048 → (slot s'.start L.own c r).refs = 0 := by
    intro r hr
    rw [hst]
    by_contra hne
    obtain ⟨k, hk⟩ := Own.refs_pos_iff.mp (Nat.pos_of_ne_zero hne)
    have hmem : r ∈ (Finset.range 2048).filter fun r => (slot s.start L.own c r).live = true := by
      rw [Finset.mem_filter, Finset.mem_range]
      exact ⟨hr, by rw [hk]; rfl⟩
    unfold pop at hpop0
    rw [Finset.card_eq_zero] at hpop0
    rw [hpop0] at hmem
    exact absurd hmem (by simp)
  have hownt : ∀ q, q ≠ t → (L.take t).own q = L.own q := fun q hq => Function.update_of_ne hq _ _
  have hpops : ∀ c', pop s'.start L.own c' = pop s'.start (L.take t).own c' := fun c' =>
    (pop_update_same (hst ▸ H.startAl) htin.1 htin.2.1 (by rw [T.fresh]; rfl) c').symm
  have hslots : ∀ c' r, r < 2048 →
      (slot s'.start L.own c' r).refs = (slot s'.start (L.take t).own c' r).refs := fun c' r hr =>
    (slot_refs_same (hst ▸ H.startAl) htin.1 htin.2.1 (by rw [T.fresh]; rfl) hr).symm
  have htable : ∀ {c' u}, Function.update L.table c (some t) c' = some u →
      (c' = c ∧ t = u) ∨ (c' ≠ c ∧ L.table c' = some u) := by
    intro c' u hu
    by_cases hcc : c' = c
    · rw [hcc, Function.update_self] at hu
      exact .inl ⟨hcc, Option.some.inj hu⟩
    · rw [Function.update_of_ne hcc] at hu
      exact .inr ⟨hcc, hu⟩
  -- `t` is a table now: only what is about chunk `c` or about `t` is new
  rw [hens]
  refine
    { startPos := H'.startPos
      startAl := H'.startAl
      limitAl := H'.limitAl
      availAl := H'.availAl
      startLe := H'.startLe
      availLe := H'.availLe
      chain := H'.chain
      freeNodup := H'.freeNodup
      freeIn := H'.freeIn
      freeOwn := fun q hq => ?_
      freeTable := fun q hq c' hc' => ?_
      tableIn := fun c' u hu => ?_
      tableOwn := fun c' u hu => ?_
      tableInj := fun c₁ c₂ u h₁ h₂ => ?_
      ownIn := fun q hq => ?_
      cover := fun q hq hn => ?_
      noTable := fun c' hc' => ?_
      hasTable := fun c' u hu => ?_
      popPos := fun c' u hu hh => ?_
      counters := fun c' u hu r hr => ?_ }
  · exact H.freeOwn q (List.mem_of_mem_tail hq)
  · rcases htable hc' with ⟨-, rfl⟩ | ⟨-, hold⟩
    · have hraw := H'.freeOwn t hq
      simp [Ledger.take] at hraw
    · exact H'.freeTable q hq c' hold
  · rcases htable hu with ⟨-, rfl⟩ | ⟨-, hold⟩
    · exact htin
    · exact H'.tableIn c' u hold
  · rcases htable hu with ⟨-, rfl⟩ | ⟨-, hold⟩
    · exact T.fresh
    · exact H.tableOwn c' u hold
  · rcases htable h₁ with ⟨h1, rfl⟩ | ⟨-, hold⟩
    · rcases htable h₂ with ⟨h2, -⟩ | ⟨-, hold⟩
      · rw [h1, h2]
      · exact absurd hold (T.noTable c₂)
    · rcases htable h₂ with ⟨-, rfl⟩ | ⟨-, hold'⟩
      · exact absurd hold (T.noTable c₁)
      · exact H.tableInj c₁ c₂ u hold hold'
  · have hqt : q ≠ t := by rintro rfl; exact hq T.fresh
    exact H'.ownIn q (by rw [hownt q hqt]; exact hq)
  · by_cases hqt : q = t
    · exact Or.inr ⟨c, by rw [hqt]; exact Function.update_self ..⟩
    · obtain hf | ⟨c', hc'⟩ := H'.cover q hq (by rw [hownt q hqt]; exact hn)
      · exact Or.inl hf
      · refine Or.inr ⟨c', ?_⟩
        have hcc : c' ≠ c := by
          rintro rfl
          have h2 : L.table c' = some q := hc'
          rw [hc] at h2
          exact absurd h2 (by simp)
        exact (Function.update_of_ne hcc ..).trans hc'
  · have hcc : c' ≠ c := by rintro rfl; simp at hc'
    have hn := H'.noTable c' ((Function.update_of_ne hcc ..).symm.trans hc')
    show (Function.update s'.refs c t c').toNat % 4096 = 0 ∧ pop s'.start L.own c' = 0
    rw [Function.update_of_ne hcc, hpops c']
    exact hn
  · show (Function.update s'.refs c t c').toNat = u.toNat + pop s'.start L.own c'
    rcases htable hu with ⟨rfl, rfl⟩ | ⟨hcc, hold⟩
    · rw [Function.update_self, hst, hpop0]
      rfl
    · rw [Function.update_of_ne hcc, hpops c']
      exact H'.hasTable c' u hold
  · show 0 < pop s'.start L.own c'
    rcases htable hu with ⟨rfl, -⟩ | ⟨-, hold⟩
    · exact absurd rfl hh
    · rw [hpops c']
      exact H'.popPos c' u hold (by simp)
  · show (rd16 (s'.mem u) r).toNat = (slot s'.start L.own c' r).refs
    rcases htable hu with ⟨rfl, rfl⟩ | ⟨-, hold⟩
    · rw [T.zero, rd16_zero, hslot0 r hr]
      rfl
    · rw [hslots c' r hr]
      exact H'.counters c' u hold r hr

/-- A chunk that has a table keeps it. -/
theorem ensureTable_of_table (H : PInv s L) {t : Word} (ht : L.table (ridx s.start p) = some t) :
    ensureTable p s = .ok () s := by
  have hpos := H.popPos _ t ht (by simp)
  have hlow := (H.refs_split ht).2
  have hnz : ¬ (s.refs (ridx s.start p) &&& 0xfff#32 = 0#32) := by
    intro h0
    rw [h0] at hlow
    have : (0#32).toNat = 0 := rfl
    omega
  have hwp : wp (ensureTable p) (fun _ s' => s' = s) (fun _ _ => False) s := by
    unfold ensureTable
    simp only [wp_bind, wp_get, wp_ite]
    rw [if_neg hnz]
    rfl
  obtain ⟨_, s', hrun, rfl⟩ := wp_returns hwp
  exact hrun

theorem ensureTable_spec (H : PInv s L) (p : Word) :
    wp (ensureTable p) (fun _ s' =>
        PCore s' (L.ensure (ridx s.start p) (L.free.headD s.avail)) (some (ridx s.start p)) ∧
        Keeps s L s' ∧
        PCore.room s L ≤
          PCore.room s' (L.ensure (ridx s.start p) (L.free.headD s.avail)) + 1)
      (OutOfFrames s L) s := by
  cases ht : L.table (ridx s.start p) with
  | some t =>
    rw [Ledger.ensure_of_some ht]
    unfold wp
    rw [ensureTable_of_table H ht]
    exact ⟨H.exempt _, Keeps.refl s L, Nat.le_succ _⟩
  | none =>
    unfold ensureTable
    simp only [wp_bind, wp_get, wp_ite]
    have hz : s.refs (ridx s.start p) &&& 0xfff#32 = 0#32 := by
      rw [← BitVec.toNat_inj, toNat_and_low]
      exact (H.noTable _ ht).1
    rw [if_pos hz]
    refine wp_mono (unsafeAllocFrame_spec H) (fun t s' hpost => ?_) (fun _ _ h => h)
    obtain ⟨H', T⟩ := hpost
    rw [← T.isHead]
    simp only [setRefs, wp_modify]
    refine ⟨PCore.installed H ht H' T, ⟨fun q hq => ?_, T.regs.trans ⟨rfl, rfl, rfl, rfl, rfl⟩, T.mono⟩, ?_⟩
    · refine T.others q ?_
      rintro rfl
      exact hq T.fresh
    · have hr := T.room
      have hl : (L.ensure (ridx s.start p) t).free = L.free.tail := by
        unfold Ledger.ensure
        rw [ht]
      unfold PCore.room at hr ⊢
      rw [hl]
      simp only [Ledger.take] at hr
      show _ ≤ L.free.tail.length + (s'.limit.toNat - s'.avail.toNat) / 4096 + 1
      omega

/-- A frame is counted differently: its counter is written, and the word of its chunk if the chunk
did not count it. -/
theorem PCore.recounted {h : Option Nat} (H : PCore s L h) {t : Word} {v : BitVec 16} {o : Own}
    {s' : Machine} (hh : ∀ c, h = some c → c = ridx s.start p) (hp : L.own p ≠ .none)
    (hlive : o.live = true) (hv : v.toNat = o.refs) (ht : L.table (ridx s.start p) = some t)
    (hmem : s'.mem = Function.update s.mem t (wr16 (s.mem t) (rofs s.start p) v))
    (hrefs : ∀ c, (s'.refs c).toNat = (s.refs c).toNat +
      if c = ridx s.start p ∧ (L.own p).live = false then 1 else 0)
    (hreg : SameRegs s s') (hff : s'.firstFree = s.firstFree) (hav : s'.avail = s.avail) :
    PInv s' { L with own := Function.update L.own p o } := by
  have hst := hreg.start
  have hle := H.ownLe hp
  have hal := H.ownAl hp
  have hin : ∀ q, InPool s' q ↔ InPool s q := fun q => by unfold InPool; rw [hst, hav]
  have hown : ∀ q, Function.update L.own p o q = .none ↔ L.own q = .none := by
    intro q
    by_cases hq : q = p
    · rw [hq, Function.update_self]
      refine ⟨fun h0 => ?_, fun h0 => absurd h0 hp⟩
      rw [h0] at hlive
      cases hlive
    · rw [Function.update_of_ne hq]
  have hslot : ∀ c r, r < 2048 → slot s'.start (Function.update L.own p o) c r =
      if c = ridx s.start p ∧ r = rofs s.start p then o else slot s.start L.own c r := by
    intro c r hr
    rw [hst]
    exact slot_update _ _ H.startAl hal hle hr
  -- the chunk counts one frame more exactly when it did not count this one
  have hpop : ∀ c, pop s'.start (Function.update L.own p o) c = pop s.start L.own c +
      if c = ridx s.start p ∧ (L.own p).live = false then 1 else 0 := by
    intro c
    rw [hst]
    by_cases hc : c = ridx s.start p
    · cases hl : (L.own p).live with
      | false =>
        rw [if_pos ⟨hc, rfl⟩, hc]
        exact pop_update_add H.startAl hal hle hl hlive
      | true =>
        rw [if_neg fun h => (by cases h.2), Nat.add_zero]
        exact pop_update_same H.startAl hal hle (hlive.trans hl.symm) c
    · rw [if_neg fun h => hc h.1, Nat.add_zero]
      exact pop_update_other H.startAl hal hle hc
  have hmemo : ∀ q, q ≠ t → s'.mem q = s.mem q := fun q hq => by
    rw [hmem, Function.update_of_ne hq]
  have htable : ∀ {c u}, L.table c = some u → c = ridx s.start p → u = t := by
    rintro c u hu rfl
    rw [ht] at hu
    exact (Option.some.inj hu).symm
  refine
    { startPos := hst ▸ H.startPos
      startAl := hst ▸ H.startAl
      limitAl := hreg.limit ▸ H.limitAl
      availAl := hav ▸ H.availAl
      startLe := by rw [hst, hav]; exact H.startLe
      availLe := by rw [hreg.limit, hav]; exact H.availLe
      chain := ?_
      freeNodup := H.freeNodup
      freeIn := fun q hq => (hin q).mpr (H.freeIn q hq)
      freeOwn := fun q hq => (hown q).mpr (H.freeOwn q hq)
      freeTable := H.freeTable
      tableIn := fun c u hu => (hin u).mpr (H.tableIn c u hu)
      tableOwn := fun c u hu => (hown u).mpr (H.tableOwn c u hu)
      tableInj := H.tableInj
      ownIn := fun q hq => (hin q).mpr (H.ownIn q fun h0 => hq ((hown q).mpr h0))
      cover := fun q hq hn => H.cover q ((hin q).mp hq) ((hown q).mp hn)
      noTable := fun c hc => ?_
      hasTable := fun c u hu => ?_
      popPos := fun c u hu _ => ?_
      counters := fun c u hu r hr => ?_ }
  · rw [hff]
    refine H.chain.congr fun q hq => ?_
    rw [hmemo q (fun h => H.freeTable q hq _ (h ▸ ht))]
  · have hcp : c ≠ ridx s.start p := by
      rintro rfl
      have hnone : L.table (ridx s.start p) = none := hc
      rw [ht] at hnone
      cases hnone
    rw [hrefs c, hpop c, if_neg fun h => hcp h.1, Nat.add_zero, Nat.add_zero]
    exact H.noTable c hc
  · rw [hrefs c, hpop c, H.hasTable c u hu]
    omega
  · by_cases hcp : c = ridx s.start p
    · rw [hst, hcp]
      refine pop_pos_of _ H.startAl hal hle ?_
      show (Function.update L.own p o p).live = true
      rw [Function.update_self]
      exact hlive
    · have hold := H.popPos c u hu fun h0 => hcp (hh c h0)
      rw [hpop c]
      omega
  · rw [hslot c r hr]
    by_cases hcp : c = ridx s.start p
    · rw [htable hu hcp, hmem, Function.update_self, rd16_wr16]
      by_cases hrp : r = rofs s.start p
      · rw [if_pos hrp, if_pos ⟨hcp, hrp⟩, hv]
      · rw [if_neg hrp, if_neg fun h => hrp h.2]
        exact H.counters c t (htable hu hcp ▸ hu) r hr
    · have hut : u ≠ t := fun h => hcp (H.tableInj _ _ u hu (h ▸ ht))
      rw [hmemo u hut, if_neg fun h => hcp h.1]
      exact H.counters c u hu r hr

/-- The ledger after one more reference, with the counter and the population written. -/
theorem PCore.counted {h : Option Nat} (H : PCore s L h) {t : Word} {s' : Machine}
    (hh : ∀ c, h = some c → c = ridx s.start p)
    (hp : L.own p ≠ .none) (hd : L.own p ≠ .dying) (ht : L.table (ridx s.start p) = some t)
    (hmem : s'.mem = Function.update s.mem t
      (wr16 (s.mem t) (rofs s.start p) (rd16 (s.mem t) (rofs s.start p) + 1#16)))
    (hov : rd16 (s.mem t) (rofs s.start p) ≠ 0xffff#16)
    (hrefs : s'.refs = if rd16 (s.mem t) (rofs s.start p) = 0#16 then
      Function.update s.refs (ridx s.start p) (s.refs (ridx s.start p) + 1#32) else s.refs)
    (hreg : SameRegs s s') (hff : s'.firstFree = s.firstFree) (hav : s'.avail = s.avail) :
    PInv s' (L.inc p) := by
  have hcnt := H.counter_of hp ht
  have hlive : (L.own p).inc.live = true := by
    cases L.own p <;> rfl
  have hnew : (rd16 (s.mem t) (rofs s.start p) + 1#16).toNat = (L.own p).inc.refs := by
    have hfull : (rd16 (s.mem t) (rofs s.start p)).toNat ≠ 65535 := fun h =>
      hov (BitVec.toNat_inj.mp h)
    have hlt := (rd16 (s.mem t) (rofs s.start p)).isLt
    have hone : (1#16).toNat = 1 := rfl
    rw [Own.refs_inc, ← hcnt, BitVec.toNat_add]
    omega
  have hzero : rd16 (s.mem t) (rofs s.start p) = 0#16 ↔ (L.own p).live = false := by
    rw [← BitVec.toNat_inj, hcnt]
    cases ho : L.own p with
    | none => exact absurd ho hp
    | raw => simp
    | dying => exact absurd ho hd
    | counted k => simp
  refine H.recounted hh hp hlive hnew ht hmem (fun c => ?_) hreg hff hav
  rw [hrefs]
  by_cases hz : rd16 (s.mem t) (rofs s.start p) = 0#16
  · rw [if_pos hz]
    by_cases hc : c = ridx s.start p
    · -- the word is the table's address and the population, which are apart
      rw [if_pos ⟨hc, hzero.mp hz⟩, hc, Function.update_self, BitVec.toNat_add]
      have hword := H.hasTable _ t ht
      have hsmall := pop_le s.start L.own (ridx s.start p)
      have haligned : t.toNat % 4096 = 0 := (H.tableIn _ t ht).1
      have hlt := t.isLt
      have hone : (1#32).toNat = 1 := rfl
      omega
    · rw [if_neg fun h => hc h.1, Function.update_of_ne hc]
      rfl
  · rw [if_neg hz, if_neg fun h => hz (hzero.mpr h.2)]
    rfl

theorem countRef_spec {h : Option Nat} (H : PCore s L h) (hh : ∀ c, h = some c → c = ridx s.start p)
    (hp : L.own p ≠ .none) (hd : L.own p ≠ .dying)
    (ht : ∃ t, L.table (ridx s.start p) = some t) :
    wp (countRef p) (fun _ s' => PInv s' (L.inc p) ∧ Keeps s L s' ∧ s'.avail = s.avail)
      (fun e s' => e = .refOverflow ∧ (L.own p).refs = 65535 ∧ s' = s) s := by
  obtain ⟨t, ht⟩ := ht
  have hsplit := (H.refs_split ht).1
  have hcnt := H.counter_of hp ht
  unfold countRef fetchAdd16
  simp only [wp_bind, wp_get, wp_ite, wp_throw, wp_modify, wp_pure, setRefs, hsplit, and_true, true_and]
  by_cases hov : rd16 (s.mem t) (rofs s.start p) = 0xffff#16
  · rw [if_pos hov, ← hcnt, hov]
    rfl
  · rw [if_neg hov]
    have hkeep : ∀ q, L.own q ≠ .none → q ≠ t := fun q hq => H.table_ne_own hq ht
    by_cases hz : rd16 (s.mem t) (rofs s.start p) = 0#16
    · rw [if_pos hz]
      refine ⟨H.counted hh hp hd ht rfl hov ?_ ⟨rfl, rfl, rfl, rfl, rfl⟩ rfl rfl,
        ⟨fun q hq => Function.update_of_ne (hkeep q hq) _ _, ⟨rfl, rfl, rfl, rfl, rfl⟩,
          Nat.le_refl _⟩⟩
      rw [if_pos hz]
    · rw [if_neg hz]
      refine ⟨H.counted hh hp hd ht rfl hov ?_ ⟨rfl, rfl, rfl, rfl, rfl⟩ rfl rfl,
        ⟨fun q hq => Function.update_of_ne (hkeep q hq) _ _, ⟨rfl, rfl, rfl, rfl, rfl⟩,
          Nat.le_refl _⟩⟩
      rw [if_neg hz]

/-- The ledger after `incref(p)`. -/
def Ledger.incref (L : Ledger) (s : Machine) (p : Word) : Ledger :=
  (L.ensure (ridx s.start p) (L.free.headD s.avail)).inc p

@[simp] theorem Ledger.incref_own (L : Ledger) (s : Machine) (p : Word) :
    (L.incref s p).own = Function.update L.own p (L.own p).inc := by
  unfold Ledger.incref
  rw [Ledger.inc_own, Ledger.ensure_own]

/-- `incref` stops only when there is no frame for the table it needs, or at a full counter. -/
def IncFails (s : Machine) (L : Ledger) (p : Word) (e : Stop) : Prop :=
  e = .noFrames ∧ PCore.room s L = 0 ∨ e = .refOverflow ∧ (L.own p).refs = 65535

theorem incref_spec (H : PInv s L) (hp : L.own p ≠ .none) (hd : L.own p ≠ .dying) :
    wp (incref p) (fun _ s' => PInv s' (L.incref s p) ∧ Keeps s L s' ∧
        PCore.room s L ≤ PCore.room s' (L.incref s p) + 1)
      (fun e _ => IncFails s L p e) s := by
  unfold incref
  simp only [wp_bind, wp_assert]
  rw [if_pos (offset_eq_zero (H.ownAl hp))]
  refine wp_mono (ensureTable_spec H p) (fun _ s₁ hpost => ?_)
    (fun e _ h => Or.inl ⟨h.1, h.2.2⟩)
  obtain ⟨H₁, K₁, R₁⟩ := hpost
  have hst := K₁.regs.start
  refine wp_mono (countRef_spec H₁ (p := p) (fun c hc => ?_) (by simpa using hp) (by simpa using hd)
    (by rw [hst]; exact Ledger.ensure_table ..)) (fun _ s₂ hpost => ?_) (fun e _ h => ?_)
  · rw [hst]
    exact (Option.some.inj hc).symm
  · obtain ⟨H₂, K₂, hav⟩ := hpost
    refine ⟨H₂, K₁.trans K₂ (by simp), ?_⟩
    have hroom : PCore.room s₂ (L.incref s p) =
        PCore.room s₁ (L.ensure (ridx s.start p) (L.free.headD s.avail)) := by
      unfold PCore.room
      rw [hav, K₂.regs.limit]
      rfl
    rw [hroom]
    exact R₁
  · exact Or.inr ⟨h.1, by simpa using h.2.1⟩

/-- A frame that is already counted needs no new table. -/
theorem PCore.incref_of_counted (H : PInv s L) {k : Nat} (hp : L.own p = .counted k) :
    L.incref s p = L.inc p := by
  obtain ⟨t, ht⟩ := H.table_of_live (p := p) (by rw [hp]; rfl)
  unfold Ledger.incref
  rw [Ledger.ensure_of_some ht]

/-- `incref` of a counted frame. -/
theorem incref_counted_spec (H : PInv s L) {k : Nat} (hp : L.own p = .counted k) :
    wp (incref p) (fun _ s' => PInv s' (L.inc p) ∧ Keeps s L s' ∧
        PCore.room s' (L.inc p) = PCore.room s L)
      (fun e _ => e = .refOverflow ∧ k + 1 = 65535) s := by
  obtain ⟨t, ht⟩ := H.table_of_live (p := p) (by rw [hp]; rfl)
  unfold incref
  simp only [wp_bind, wp_assert]
  rw [if_pos (offset_eq_zero (H.ownAl (by rw [hp]; simp)))]
  unfold wp
  rw [ensureTable_of_table H ht]
  refine wp_mono (countRef_spec (H.exempt none) (p := p) (fun c hc => by simp at hc)
    (by rw [hp]; simp) (by rw [hp]; simp) ⟨t, ht⟩) (fun _ s' hpost => ⟨hpost.1, hpost.2.1, ?_⟩)
    (fun e _ h => ⟨h.1, by rw [← h.2.1, hp]; rfl⟩)
  obtain ⟨-, K', hav⟩ := hpost
  unfold PCore.room
  rw [hav, K'.regs.limit]
  rfl

/-! ## `alloc_frame` -/

/-- The ledger after `alloc_frame` has returned the frame `p`; `s'` is the machine between the
allocation and the counting. -/
def Ledger.alloc (L : Ledger) (s' : Machine) (p : Word) : Ledger :=
  (L.take p).incref s' p

/-- What `alloc_frame` guarantees a client. -/
structure Alloced (s : Machine) (L : Ledger) (p : Word) (s' : Machine) (L' : Ledger) : Prop where
  fresh : L.own p = .none
  own : L'.own = Function.update L.own p (.counted 0)
  table : ∀ c t, L.table c = some t → L'.table c = some t
  free : L.free = [] → L'.free = []
  zero : s'.mem p = fun _ => 0#32
  keeps : Keeps s L s'
  inv : PInv s' L'
  room : PCore.room s L ≤ PCore.room s' L' + 2

theorem allocFrame_spec (H : PInv s L) :
    wp allocFrame (fun p s' => ∃ L', Alloced s L p s' L')
      (fun e _ => e = .noFrames ∧ PCore.room s L < 2) s := by
  unfold allocFrame
  simp only [wp_bind, wp_pure]
  refine wp_mono (unsafeAllocFrame_spec H) (fun p s₁ hpost => ?_)
    (fun e _ h => ⟨h.1, by rw [h.2.2]; exact Nat.two_pos⟩)
  obtain ⟨H₁, T⟩ := hpost
  have hraw : (L.take p).own p = .raw := Function.update_self ..
  refine wp_mono (incref_spec H₁ (p := p) (by rw [hraw]; simp) (by rw [hraw]; simp))
    (fun _ s₂ hpost => ⟨(L.take p).incref s₁ p, ?_⟩) (fun e _ h => ?_)
  · obtain ⟨H₂, K₂, R₂⟩ := hpost
    have hroom := T.room
    refine ⟨T.fresh, ?_, fun c t ht => ?_, fun hf => ?_, ?_, ?_, H₂, by omega⟩
    · rw [Ledger.incref_own, hraw, Ledger.take_own, Function.update_idem]
      rfl
    · exact Ledger.ensure_keeps _ _ (show (L.take p).table c = some t from ht)
    · refine Ledger.ensure_free _ _ _ ?_
      show L.free.tail = []
      rw [hf]
      rfl
    · rw [K₂.mem p (by rw [hraw]; simp), T.zero]
    · refine ⟨fun q hq => ?_, T.regs.trans K₂.regs, Nat.le_trans T.mono K₂.mono⟩
      have hqp : q ≠ p := by rintro rfl; exact hq T.fresh
      rw [K₂.mem q (by rw [Ledger.take_own, Function.update_of_ne hqp]; exact hq), T.others q hqp]
  · have hroom := T.room
    obtain ⟨he, h0⟩ | ⟨-, h0⟩ := h
    · exact ⟨he, by omega⟩
    · rw [hraw] at h0
      exact absurd h0 (by simp)

/-! ## `decref`

The counter of the frame goes down by one. If it was the last reference, the callback runs while
the frame still counts in its chunk (it is dying in the ledger), and the chunk is counted down
only when the callback has returned. The callback is a parameter here; what is required of it is
what `release` needs to find on the way back. -/

/-- The ledger after the counter of `p` went down by one. -/
theorem PCore.uncounted (H : PInv s L) {k : Nat} {t : Word} (hp : L.own p = .counted k)
    (ht : L.table (ridx s.start p) = some t) :
    PInv { s with
        mem := Function.update s.mem t
          (wr16 (s.mem t) (rofs s.start p) (rd16 (s.mem t) (rofs s.start p) - 1#16)) }
      (L.dec p) := by
  have hne : L.own p ≠ .none := by rw [hp]; simp
  have hcnt := H.counter_of hne ht
  have hlive : (L.own p).dec.live = true := by
    rw [hp]
    cases k <;> rfl
  have hnew : (rd16 (s.mem t) (rofs s.start p) - 1#16).toNat = (L.own p).dec.refs := by
    have hlt := (rd16 (s.mem t) (rofs s.start p)).isLt
    have hone : (1#16).toNat = 1 := rfl
    rw [BitVec.toNat_sub, Own.refs_dec]
    rw [hcnt] at hlt ⊢
    rw [hp, Own.refs_counted] at hlt ⊢
    omega
  refine H.recounted (fun c hc => by cases hc) hne hlive hnew ht rfl (fun c => ?_)
    ⟨rfl, rfl, rfl, rfl, rfl⟩ rfl rfl
  rw [if_neg fun h => by rw [hp] at h; cases h.2]
  rfl

theorem subRef_spec (H : PInv s L) {k : Nat} (hp : L.own p = .counted k) :
    wp (subRef p) (fun b s' => b = decide (k = 0) ∧ PInv s' (L.dec p) ∧ Keeps s L s' ∧
      s'.avail = s.avail) (fun _ _ => False) s := by
  have hne : L.own p ≠ .none := by rw [hp]; simp
  obtain ⟨t, ht⟩ := H.table_of_live (p := p) (by rw [hp]; rfl)
  have hsplit := H.refs_split ht
  have hpos := H.popPos _ t ht (by simp)
  have hcnt := H.counter_of hne ht
  have hnz : s.refs (ridx s.start p) &&& 0xfff#32 ≠ 0#32 := by
    intro h0
    rw [h0] at hsplit
    have : (0#32).toNat = 0 := rfl
    omega
  unfold subRef subFetch16
  simp only [wp_bind, wp_get, wp_modify, wp_pure, wp_assert, hsplit.1, and_true]
  rw [if_pos (offset_eq_zero (H.ownAl hne)), if_pos hnz]
  refine ⟨?_, H.uncounted hp ht, fun q hq => ?_, ⟨rfl, rfl, rfl, rfl, rfl⟩, Nat.le_refl _⟩
  · rw [decide_eq_decide, ← BitVec.toNat_inj, BitVec.toNat_sub, hcnt, hp]
    have h1 := (rd16 (s.mem t) (rofs s.start p)).isLt
    rw [hcnt, hp] at h1
    simp only [Own.refs_counted] at h1 ⊢
    have h2 : (1#16).toNat = 1 := rfl
    have h3 : (0#16).toNat = 0 := rfl
    omega
  · exact Function.update_of_ne (H.table_ne_own hq ht) _ _

/-- A frame put back: linked at the head of the free list, and no longer counted by its chunk. -/
theorem PCore.freed (H : PInv s L) (hp : L.own p = .dying) :
    PCore { s with
        mem := Function.update s.mem p (Function.update (s.mem p) 0 s.firstFree),
        firstFree := p,
        refs := Function.update s.refs (ridx s.start p) (s.refs (ridx s.start p) - 1#32) }
      { L with own := Function.update L.own p .none, free := p :: L.free }
      (some (ridx s.start p)) := by
  have hne : L.own p ≠ .none := by rw [hp]; simp
  have hle := H.ownLe hne
  have hal := H.ownAl hne
  have hpin := H.ownIn p hne
  have hnf : p ∉ L.free := fun hm => hne (H.freeOwn p hm)
  obtain ⟨t, ht⟩ := H.table_of_live (p := p) (by rw [hp]; rfl)
  -- a frame that dies is counted no more, so the counters of its chunk stay
  have hslot : ∀ c r, r < 2048 → (slot s.start (Function.update L.own p .none) c r).refs =
      (slot s.start L.own c r).refs := by
    intro c r hr
    rw [slot_update _ _ H.startAl hal hle hr]
    split
    · rename_i hcr
      rw [hcr.1, hcr.2, slot_self _ H.startAl hal hle, hp]
      rfl
    · rfl
  -- of the chunk's population it is taken out, and the word goes down with it
  have hpop := pop_update_sub (v := .none) H.startAl hal hle (by rw [hp]; rfl : (L.own p).live = true)
    rfl
  have hpopo : ∀ c, c ≠ ridx s.start p →
      pop s.start (Function.update L.own p .none) c = pop s.start L.own c := fun c hc =>
    pop_update_other H.startAl hal hle hc
  have hown : ∀ q, q ≠ p → Function.update L.own p .none q = L.own q := fun q hq =>
    Function.update_of_ne hq _ _
  refine
    { startPos := H.startPos
      startAl := H.startAl
      limitAl := H.limitAl
      availAl := H.availAl
      startLe := H.startLe
      availLe := H.availLe
      chain := H.chain.push (H.ne_zero hpin) hnf
      freeNodup := List.nodup_cons.mpr ⟨hnf, H.freeNodup⟩
      freeIn := fun q hq => ?_
      freeOwn := fun q hq => ?_
      freeTable := fun q hq => ?_
      tableIn := H.tableIn
      tableOwn := fun c u hu => ?_
      tableInj := H.tableInj
      ownIn := fun q hq => ?_
      cover := fun q hq hn => ?_
      noTable := fun c hc => ?_
      hasTable := fun c u hu => ?_
      popPos := fun c u hu hh => ?_
      counters := fun c u hu r hr => ?_ }
  · obtain rfl | hq := List.mem_cons.mp hq
    · exact hpin
    · exact H.freeIn q hq
  · obtain rfl | hq := List.mem_cons.mp hq
    · exact Function.update_self ..
    · have hqp : q ≠ p := fun h => hnf (h ▸ hq)
      show Function.update L.own p .none q = .none
      rw [hown q hqp]
      exact H.freeOwn q hq
  · obtain rfl | hq := List.mem_cons.mp hq
    · exact fun c hc => hne (H.tableOwn c _ hc)
    · exact H.freeTable q hq
  · show Function.update L.own p .none u = .none
    rw [hown u (H.table_ne_own hne hu).symm]
    exact H.tableOwn c u hu
  · by_cases hqp : q = p
    · rw [hqp]; exact hpin
    · exact H.ownIn q (by rw [← hown q hqp]; exact hq)
  · by_cases hqp : q = p
    · exact Or.inl (by rw [hqp]; exact List.mem_cons_self)
    · obtain hf | hc := H.cover q hq (by rw [← hown q hqp]; exact hn)
      · exact Or.inl (List.mem_cons_of_mem _ hf)
      · exact Or.inr hc
  · have hcp : c ≠ ridx s.start p := by
      rintro rfl
      have h2 : L.table (ridx s.start p) = none := hc
      rw [ht] at h2
      exact absurd h2 (by simp)
    show (Function.update s.refs _ _ c).toNat % 4096 = 0 ∧ pop s.start _ c = 0
    rw [Function.update_of_ne hcp, hpopo c hcp]
    exact H.noTable c hc
  · show (Function.update s.refs _ _ c).toNat =
      u.toNat + pop s.start (Function.update L.own p .none) c
    have h1 := H.hasTable c u hu
    by_cases hcp : c = ridx s.start p
    · rw [hcp] at h1 ⊢
      have h2 : (1#32).toNat = 1 := rfl
      have h3 := (s.refs (ridx s.start p)).isLt
      rw [Function.update_self, BitVec.toNat_sub]
      omega
    · rw [Function.update_of_ne hcp, hpopo c hcp]
      exact h1
  · have hcp : c ≠ ridx s.start p := by rintro rfl; exact hh rfl
    show 0 < pop s.start _ c
    rw [hpopo c hcp]
    exact H.popPos c u hu (by simp)
  · show (rd16 (Function.update s.mem p _ u) r).toNat = _
    rw [Function.update_of_ne (H.table_ne_own hne hu).symm]
    exact (H.counters c u hu r hr).trans (hslot c r hr).symm

/-- The table of a chunk whose population has reached zero put back. -/
theorem PCore.tableFreed {c : Nat} {t : Word} (H : PCore s L (some c)) (ht : L.table c = some t)
    (h0 : pop s.start L.own c = 0) :
    PInv { s with mem := Function.update s.mem t (Function.update (s.mem t) 0 s.firstFree),
                  firstFree := t }
      { L with free := t :: L.free, table := Function.update L.table c none } := by
  have hnf := H.table_notMem_free ht
  have htin := H.tableIn c t ht
  have hother : ∀ c' u, Function.update L.table c none c' = some u → c' ≠ c ∧ L.table c' = some u := by
    intro c' u hu
    by_cases hc : c' = c
    · rw [hc, Function.update_self] at hu
      exact absurd hu (by simp)
    · exact ⟨hc, by rwa [Function.update_of_ne hc] at hu⟩
  refine
    { startPos := H.startPos
      startAl := H.startAl
      limitAl := H.limitAl
      availAl := H.availAl
      startLe := H.startLe
      availLe := H.availLe
      chain := H.chain.push (H.ne_zero htin) hnf
      freeNodup := List.nodup_cons.mpr ⟨hnf, H.freeNodup⟩
      freeIn := fun q hq => ?_
      freeOwn := fun q hq => ?_
      freeTable := fun q hq c' hc' => ?_
      tableIn := fun c' u hu => H.tableIn c' u (hother c' u hu).2
      tableOwn := fun c' u hu => H.tableOwn c' u (hother c' u hu).2
      tableInj := fun c₁ c₂ u h₁ h₂ => H.tableInj c₁ c₂ u (hother c₁ u h₁).2 (hother c₂ u h₂).2
      ownIn := H.ownIn
      cover := fun q hq hn => ?_
      noTable := fun c' hc' => ?_
      hasTable := fun c' u hu => H.hasTable c' u (hother c' u hu).2
      popPos := fun c' u hu _ => H.popPos c' u (hother c' u hu).2
        fun h => (hother c' u hu).1 (Option.some.inj h).symm
      counters := fun c' u hu r hr => ?_ }
  · obtain rfl | hq := List.mem_cons.mp hq
    · exact htin
    · exact H.freeIn q hq
  · obtain rfl | hq := List.mem_cons.mp hq
    · exact H.tableOwn c _ ht
    · exact H.freeOwn q hq
  · obtain ⟨hne, hc2⟩ := hother c' q hc'
    obtain rfl | hq := List.mem_cons.mp hq
    · exact hne (H.tableInj c' c _ hc2 ht)
    · exact H.freeTable q hq c' hc2
  · obtain hf | ⟨c', hc'⟩ := H.cover q hq hn
    · exact Or.inl (List.mem_cons_of_mem _ hf)
    -- the word of the chunk keeps the address of the table and no count
    · by_cases hc : c' = c
      · rw [hc, ht] at hc'
        exact Or.inl (by rw [← Option.some.inj hc']; exact List.mem_cons_self)
      · exact Or.inr ⟨c', by
          show Function.update L.table c none c' = some q
          rw [Function.update_of_ne hc]; exact hc'⟩
  · by_cases hc : c' = c
    · rw [hc]
      have h1 := H.hasTable c t ht
      have h2 : t.toNat % 4096 = 0 := htin.1
      exact ⟨by show (s.refs c).toNat % 4096 = 0; omega, h0⟩
    · exact H.noTable c' (by
        have h2 : Function.update L.table c none c' = none := hc'
        rwa [Function.update_of_ne hc] at h2)
  · obtain ⟨hc, hc2⟩ := hother c' u hu
    have hut : u ≠ t := by rintro rfl; exact hc (H.tableInj c' c _ hc2 ht)
    show (rd16 (Function.update s.mem t _ u) r).toNat = _
    rw [Function.update_of_ne hut]
    exact H.counters c' u hc2 r hr

theorem release_spec (H : PInv s L) (hp : L.own p = .dying) :
    wp (release p) (fun _ s' => PInv s' (L.release s.start p) ∧
        (∀ q, L.own q ≠ .none → q ≠ p → s'.mem q = s.mem q) ∧ SameRegs s s' ∧
        s'.avail = s.avail) (fun _ _ => False) s := by
  have hne : L.own p ≠ .none := by rw [hp]; simp
  obtain ⟨t, ht⟩ := H.table_of_live (p := p) (by rw [hp]; rfl)
  have hal := H.ownAl hne
  have hF := H.freed hp
  have hpt := H.table_ne_own hne ht
  have hlt := pop_update_sub (v := .none) H.startAl hal (H.ownLe hne)
    (by rw [hp]; rfl : (L.own p).live = true) rfl
  obtain ⟨hhigh, hlow⟩ := hF.refs_split (c := ridx s.start p) (t := t) ht
  simp only [Function.update_self] at hhigh hlow
  unfold release deallocFrame
  simp only [wp_bind, wp_get, wp_ite, wp_modify, wp_pure, wp_assert, setRefs, and_true]
  rw [if_pos (offset_eq_zero hal)]
  by_cases h0 : pop s.start (Function.update L.own p .none) (ridx s.start p) = 0
  · have hz : s.refs (ridx s.start p) - 1#32 &&& 0xfff#32 = 0#32 := by
      rw [← BitVec.toNat_inj, hlow, h0]
      rfl
    have hT := hF.tableFreed (c := ridx s.start p) (t := t) ht h0
    have hL : L.release s.start p =
        { own := Function.update L.own p .none, free := t :: p :: L.free,
          table := Function.update L.table (ridx s.start p) none } := by
      unfold Ledger.release
      simp only [ht]
      rw [if_pos h0]
    rw [if_pos hz, hhigh,
      if_pos (offset_eq_zero (H.tableIn _ t ht).1), hL]
    refine ⟨hT, fun q hq hqp => ?_, ⟨rfl, rfl, rfl, rfl, rfl⟩⟩
    show Function.update (Function.update s.mem p _) t _ q = _
    rw [Function.update_of_ne (H.table_ne_own hq ht), Function.update_of_ne hqp]
  · have hz : ¬ (s.refs (ridx s.start p) - 1#32 &&& 0xfff#32 = 0#32) := by
      intro h
      rw [h] at hlow
      exact h0 hlow.symm
    have hL : L.release s.start p =
        { L with own := Function.update L.own p .none, free := p :: L.free } := by
      unfold Ledger.release
      simp only [ht]
      rw [if_neg h0]
    rw [if_neg hz, hL]
    refine ⟨hF.toInv fun c hc => ?_, fun q hq hqp => Function.update_of_ne hqp _ _,
      ⟨rfl, rfl, rfl, rfl, rfl⟩⟩
    rw [← Option.some.inj hc]
    exact Nat.pos_of_ne_zero h0

end OsKernel.PhysMem
