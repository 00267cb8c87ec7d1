import OsKernel.Lib.Simulation
import OsKernel.Vmm.Model

/-!
# The memory manager does not see the TLB

Two machines are twins if they differ in CR3 and in the TLB only. The functions of
`physmem.cc` do the same on twins. Those of `vmm.cc` also read CR3, and do the same on twins
that agree on it: none of them looks at the TLB, so that what they do to memory is the same
whatever is in it, and they take entries out of it and put none in.

`Alike` (`Lib/Prog.lean`) is the relation between a program and itself that says so. It is
closed under sequencing and loops, so there is one short lemma for each function, in the order
of the source, and the proof of each is the list of what the function calls. Nothing of what a
function is for is used; a change to a function that keeps its calls keeps its lemma.

Two things follow from the same lemma, because the relation also bounds the entries: with
equal TLBs to begin with, that there are no more entries afterwards (`Alike.fewer`); with
different ones, that memory is the same. The first is used for coherence and the second for
the comparison with a system that caches nothing.
-/

set_option autoImplicit false

namespace OsKernel

open Lib Lib.Prog K PhysMem Vmm

/-- `t` is `s` but for CR3, where `P` relates the two, and the TLB; that of `s` is within `l`. -/
def Twin (P : Word → Word → Prop) (l : List TlbEntry) (s t : Machine) : Prop :=
  (∃ c m, t = { s with cr3 := c, tlb := m } ∧ P s.cr3 c) ∧ ∀ e ∈ s.tlb, e ∈ l

variable {P : Word → Word → Prop} {l : List TlbEntry} {s t : Machine}

namespace Twin

theorem mem (h : Twin P l s t) : t.mem = s.mem := by
  obtain ⟨⟨c, m, rfl, -⟩, -⟩ := h
  rfl

theorem start (h : Twin P l s t) : t.start = s.start := by
  obtain ⟨⟨c, m, rfl, -⟩, -⟩ := h
  rfl

theorem refs (h : Twin P l s t) : t.refs = s.refs := by
  obtain ⟨⟨c, m, rfl, -⟩, -⟩ := h
  rfl

theorem kpd (h : Twin P l s t) : t.kpd = s.kpd := by
  obtain ⟨⟨c, m, rfl, -⟩, -⟩ := h
  rfl

theorem cr3 (h : Twin Eq l s t) : t.cr3 = s.cr3 := by
  obtain ⟨⟨c, m, rfl, hc⟩, -⟩ := h
  exact hc.symm

theorem refl (s : Machine) : Twin Eq s.tlb s s := ⟨⟨s.cr3, s.tlb, rfl, rfl⟩, fun _ he => he⟩

end Twin

/-- What does the same on twins puts nothing into the TLB. -/
theorem Alike.fewer {α : Type} {x : K α} (h : Alike (Twin Eq s.tlb) x) :
    wp x (fun _ s' => ∀ e ∈ s'.tlb, e ∈ s.tlb) (fun _ s' => ∀ e ∈ s'.tlb, e ∈ s.tlb) s := by
  have hend := h s s (Twin.refl s)
  unfold wp
  cases hx : x s with
  | ok a s' =>
    rw [hx] at hend
    exact hend.2.2
  | error e s' =>
    rw [hx] at hend
    exact hend.2.2

namespace K

theorem alike_assert (c : Prop) [Decidable c] : Alike (Twin P l) (assert c) :=
  Alike.ite (Alike.pure ()) (Alike.throw _)

theorem alike_load (p : Word) (i : Nat) : Alike (Twin P l) (load p i) :=
  Alike.get (fun _ => Alike.pure _) fun _ _ h => by rw [h.mem]

/-- A change of something else. -/
theorem alike_modify {f : Machine → Machine}
    (hf : ∀ s c m, f { s with cr3 := c, tlb := m } = { f s with cr3 := c, tlb := m })
    (hcr3 : ∀ s, (f s).cr3 = s.cr3) (htlb : ∀ s, (f s).tlb = s.tlb) :
    Alike (Twin P l) (modify f : K PUnit) := by
  apply Alike.modify
  intro s t h
  obtain ⟨⟨c, m, rfl, hc⟩, hl⟩ := h
  refine ⟨⟨c, m, hf s c m, ?_⟩, ?_⟩
  · rw [hcr3]
    exact hc
  · rw [htlb]
    exact hl

/-- A change of memory. -/
theorem alike_write (f : (Word → Nat → Word) → Word → Nat → Word) :
    Alike (Twin P l) (modify fun s => { s with mem := f s.mem } : K PUnit) :=
  alike_modify (fun _ _ _ => rfl) (fun _ => rfl) fun _ => rfl

theorem alike_store (p : Word) (i : Nat) (v : Word) : Alike (Twin P l) (store p i v) :=
  alike_write fun mem => Function.update mem p (Function.update (mem p) i v)

theorem alike_bzero (p : Word) : Alike (Twin P l) (bzero p) :=
  alike_write fun mem => Function.update mem p fun _ => 0#32

theorem alike_memcpy (dst src : Word) : Alike (Twin P l) (memcpy dst src) :=
  alike_write fun mem => Function.update mem dst (mem src)

theorem alike_getCR3 : Alike (Twin Eq l) getCR3 :=
  Alike.get (fun _ => Alike.pure _) fun _ _ h => by rw [h.cr3]

theorem alike_setCR3 (pd : Word) : Alike (Twin Eq l) (setCR3 pd) := by
  apply Alike.modify
  intro s t h
  obtain ⟨⟨c, m, rfl, -⟩, -⟩ := h
  exact ⟨⟨pd, [], rfl, rfl⟩, fun e he => absurd he List.not_mem_nil⟩

theorem alike_invlpg (va : Word) : Alike (Twin P l) (invlpg va) := by
  apply Alike.modify
  intro s t h
  obtain ⟨⟨c, m, rfl, hc⟩, hl⟩ := h
  exact ⟨⟨c, _, rfl, hc⟩, fun e he => hl e (List.mem_filter.mp he).1⟩

end K

/-! ## Frames and reference counts -/

namespace PhysMem

/-- The lines of `unsafe_alloc_frame` after the choice of a frame. -/
def cleared (p : Word) : K Word := do
  assert (offset p = 0#32)
  bzero p
  return p

theorem unsafeAllocFrame_listed (h : s.firstFree ≠ 0#32) : unsafeAllocFrame s =
    cleared s.firstFree { s with firstFree := s.mem s.firstFree 0 } := by
  unfold unsafeAllocFrame
  show (ite (s.firstFree ≠ 0#32) _ _ : K Word) s = _
  rw [if_pos h]
  rfl

theorem unsafeAllocFrame_fresh (h : ¬s.firstFree ≠ 0#32) (ha : s.avail ≠ s.limit) :
    unsafeAllocFrame s = cleared s.avail { s with avail := s.avail + FRAME_SIZE } := by
  unfold unsafeAllocFrame
  show (ite (s.firstFree ≠ 0#32) _ _ : K Word) s = _
  rw [if_neg h]
  show (ite (s.avail = s.limit) _ _ : K Word) s = _
  rw [if_neg ha]
  rfl

theorem unsafeAllocFrame_none (h : ¬s.firstFree ≠ 0#32) (ha : s.avail = s.limit) :
    unsafeAllocFrame s = .error .noFrames s := by
  unfold unsafeAllocFrame
  show (ite (s.firstFree ≠ 0#32) _ _ : K Word) s = _
  rw [if_neg h]
  show (ite (s.avail = s.limit) _ _ : K Word) s = _
  rw [if_pos ha]
  rfl

theorem alike_cleared (p : Word) : Alike (Twin P l) (cleared p) := by
  apply (alike_assert _).bind
  intro _
  exact (alike_bzero p).bind fun _ => Alike.pure p

theorem alike_unsafeAllocFrame : Alike (Twin P l) unsafeAllocFrame := by
  intro s t h
  obtain ⟨⟨c, m, rfl, hc⟩, hl⟩ := h
  by_cases hf : s.firstFree ≠ 0#32
  · rw [unsafeAllocFrame_listed hf, unsafeAllocFrame_listed (s := { s with cr3 := c, tlb := m }) hf]
    exact alike_cleared _ _ _ ⟨⟨c, m, rfl, hc⟩, hl⟩
  · by_cases ha : s.avail = s.limit
    · rw [unsafeAllocFrame_none hf ha,
        unsafeAllocFrame_none (s := { s with cr3 := c, tlb := m }) hf ha]
      exact ⟨rfl, ⟨c, m, rfl, hc⟩, hl⟩
    · rw [unsafeAllocFrame_fresh hf ha,
        unsafeAllocFrame_fresh (s := { s with cr3 := c, tlb := m }) hf ha]
      exact alike_cleared _ _ _ ⟨⟨c, m, rfl, hc⟩, hl⟩

theorem alike_deallocFrame (p : Word) : Alike (Twin P l) (deallocFrame p) :=
  (alike_assert _).bind fun _ => alike_modify (fun _ _ _ => rfl) (fun _ => rfl) fun _ => rfl

theorem alike_setRefs (i : Nat) (v : Word) : Alike (Twin P l) (setRefs i v) :=
  alike_modify (fun _ _ _ => rfl) (fun _ => rfl) fun _ => rfl

theorem alike_fetchAdd16 (rtb : Word) (i : Nat) : Alike (Twin P l) (fetchAdd16 rtb i) := by
  unfold fetchAdd16
  refine Alike.get (fun s => ?_) fun s t h => by rw [h.mem]
  refine Alike.ite ?_ ?_
  · exact Alike.throw _
  · exact (alike_write fun mem => Function.update mem rtb (wr16 (mem rtb) i _)).bind
      fun _ => Alike.pure _

theorem alike_subFetch16 (rtb : Word) (i : Nat) : Alike (Twin P l) (subFetch16 rtb i) := by
  unfold subFetch16
  refine Alike.get (fun s => ?_) fun s t h => by rw [h.mem]
  exact (alike_write fun mem => Function.update mem rtb (wr16 (mem rtb) i _)).bind
    fun _ => Alike.pure _

theorem alike_ensureTable (p : Word) : Alike (Twin P l) (ensureTable p) := by
  unfold ensureTable
  refine Alike.get (fun s => ?_) fun s t h => by rw [h.start, h.refs]
  exact Alike.ite (alike_unsafeAllocFrame.bind fun _ => alike_setRefs _ _) (Alike.pure ())

theorem alike_countRef (p : Word) : Alike (Twin P l) (countRef p) := by
  unfold countRef
  refine Alike.get (fun s => ?_) fun s t h => by rw [h.start, h.refs]
  apply (alike_fetchAdd16 _ _).bind
  intro old
  refine Alike.ite ?_ (Alike.pure ())
  exact Alike.get (fun _ => alike_setRefs _ _) fun s t h => by rw [h.refs]

theorem alike_incref (p : Word) : Alike (Twin P l) (incref p) := by
  apply (alike_assert _).bind
  intro _
  exact (alike_ensureTable p).bind fun _ => alike_countRef p

theorem alike_subRef (p : Word) : Alike (Twin P l) (subRef p) := by
  apply (alike_assert _).bind
  intro _
  refine Alike.get (fun s => ?_) fun s t h => by rw [h.start, h.refs]
  apply (alike_assert _).bind
  intro _
  exact (alike_subFetch16 _ _).bind fun _ => Alike.pure _

theorem alike_release (p : Word) : Alike (Twin P l) (release p) := by
  apply (alike_deallocFrame p).bind
  intro _
  refine Alike.get (fun s => ?_) fun s t h => by rw [h.start, h.refs]
  apply (alike_setRefs _ _).bind
  intro _
  exact Alike.ite (alike_deallocFrame _) (Alike.pure ())

theorem alike_decref (p : Word) {f : Word → K Unit} (hf : ∀ q, Alike (Twin P l) (f q)) :
    Alike (Twin P l) (decref p f) := by
  apply (alike_subRef p).bind
  intro last
  exact Alike.ite ((hf p).bind fun _ => alike_release p) (Alike.pure ())

theorem alike_allocFrame : Alike (Twin P l) allocFrame :=
  alike_unsafeAllocFrame.bind fun p => (alike_incref p).bind fun _ => Alike.pure p

end PhysMem

/-! ## Page tables

No function of the memory manager reads the TLB, so each does the same in two machines that differ
in nothing else. Those that look at `cr3` need the two to agree on it, and have `Eq` in their
statement. The proofs follow the code by the rules for the pieces that it is made of. -/

namespace Vmm

theorem alike_destroyPg (p : Word) : Alike (Twin P l) (destroyPg p) := Alike.pure ()

theorem alike_destroyPt (p : Word) : Alike (Twin P l) (destroyPt p) := by
  apply Alike.forI
  intro i
  apply (alike_load p i).bind
  intro pte
  exact Alike.ite (alike_decref _ alike_destroyPg) (Alike.pure ())

theorem alike_destroyPd (p : Word) : Alike (Twin Eq l) (destroyPd p) := by
  apply alike_getCR3.bind
  intro c
  apply (alike_assert _).bind
  intro _
  refine Alike.bind (Alike.forI fun i => ?_) fun _ => alike_decref _ alike_destroyPg
  apply (alike_load p i).bind
  intro pde
  exact Alike.ite (alike_decref _ alike_destroyPt) (Alike.pure ())

theorem alike_clearPt (discard : Bool) (pt : Word) : Alike (Twin P l) (clearPt discard pt) := by
  refine Alike.bind (Alike.foldI fun i d => ?_) fun _ => alike_assert _
  apply (alike_load pt i).bind
  intro pte
  refine Alike.ite (Alike.pure d) (Alike.ite (Alike.pure false) ?_)
  apply (alike_decref _ alike_destroyPg).bind
  intro _
  exact (alike_store pt i _).bind fun _ => Alike.pure d

theorem alike_clearPd (discard : Nat → Bool) (pd : Word) :
    Alike (Twin Eq l) (clearPd discard pd) := by
  refine Alike.bind (Alike.forI fun i => ?_) fun _ => alike_getCR3.bind alike_setCR3
  apply (alike_load pd i).bind
  intro pde
  refine Alike.ite (Alike.pure ()) (Alike.ite (Alike.pure ()) (Alike.ite ?_ ?_))
  · exact (alike_decref _ alike_destroyPt).bind fun _ => alike_store pd i _
  · exact alike_clearPt _ _

theorem alike_copyKpd : Alike (Twin P l) copyKpd := by
  apply alike_allocFrame.bind
  intro pd
  refine Alike.get (fun s => ?_) fun s t h => by rw [h.kpd]
  exact (alike_memcpy pd _).bind fun _ => Alike.pure pd

theorem alike_copyPg (pg : Word) : Alike (Twin P l) (copyPg pg) := by
  apply alike_allocFrame.bind
  intro newPg
  exact (alike_memcpy newPg pg).bind fun _ => Alike.pure newPg

theorem alike_copyPt (pt : Word) : Alike (Twin P l) (copyPt pt) := by
  apply alike_allocFrame.bind
  intro newPt
  refine Alike.bind (Alike.forI fun i => ?_) fun _ => Alike.pure newPt
  apply (alike_load pt i).bind
  intro pte
  refine Alike.ite (Alike.pure ()) (Alike.ite ?_ (Alike.ite ?_ ?_))
  · exact (alike_assert _).bind fun _ => alike_store newPt i _
  · exact (alike_store newPt i _).bind fun _ => alike_incref _
  · exact (alike_copyPg _).bind fun _ => alike_store newPt i _

theorem alike_copyPd (pd : Word) : Alike (Twin P l) (copyPd pd) := by
  apply alike_allocFrame.bind
  intro newPd
  refine Alike.bind (Alike.forI fun i => ?_) fun _ => Alike.pure newPd
  apply (alike_load pd i).bind
  intro pde
  refine Alike.ite (Alike.pure ()) (Alike.ite ?_ (Alike.ite ?_ ?_))
  · exact alike_store newPd i _
  · exact (alike_store newPd i _).bind fun _ => alike_incref _
  · exact (alike_copyPt _).bind fun _ => alike_store newPd i _

theorem alike_ownTable (pd va flags : Word) : Alike (Twin P l) (ownTable pd va flags) := by
  apply (alike_load _ _).bind
  intro pde
  apply (alike_assert _).bind
  intro _
  have hlast : Alike (Twin P l) (load pd (pdi va)) := alike_load _ _
  refine Alike.ite ?_ (Alike.ite ?_ hlast)
  · exact alike_allocFrame.bind fun _ => (alike_store _ _ _).bind fun _ => hlast
  · apply (alike_copyPt _).bind
    intro pt
    apply (alike_store _ _ _).bind
    intro _
    exact Alike.ite ((alike_decref _ alike_destroyPt).bind fun _ => hlast) hlast

theorem alike_map (pd va pa flags : Word) : Alike (Twin P l) (map pd va pa flags) :=
  (alike_ownTable pd va flags).bind fun _ => alike_store _ _ _

theorem alike_mapCopy (pd va pa flags : Word) : Alike (Twin P l) (mapCopy pd va pa flags) := by
  apply (alike_ownTable pd va flags).bind
  intro pde
  apply (alike_load _ _).bind
  intro pte
  have hlast : Alike (Twin P l) (store (pde &&& Flag.MASK) (pti va) (pa ||| flags)) :=
    alike_store _ _ _
  refine Alike.ite (Alike.ite (Alike.throw _) ?_) hlast
  apply (alike_memcpy pa _).bind
  intro _
  exact (alike_decref _ alike_destroyPg).bind fun _ => hlast

theorem alike_writeProtect (pd : Word) : Alike (Twin P l) (writeProtect pd) := by
  refine Alike.forI fun i => ?_
  apply (alike_load pd i).bind
  intro pde
  refine Alike.ite ?_ (Alike.pure ())
  apply (alike_load pd i).bind
  intro _
  apply (alike_store pd i _).bind
  intro _
  apply (alike_load pd i).bind
  intro _
  refine Alike.forI fun j => ?_
  apply (alike_load _ j).bind
  intro pte
  refine Alike.ite ?_ ?_
  · apply (alike_load _ j).bind
    intro _
    exact (alike_store _ j _).bind fun _ => alike_invlpg _
  · apply (alike_load _ j).bind
    intro _
    refine Alike.ite ?_ (Alike.pure ())
    exact (alike_load pd i).bind fun _ => alike_store pd i _

theorem alike_pageFault (va error_code : Word) :
    Alike (Twin Eq l) (pageFault va error_code) := by
  unfold pageFault
  have hmap : ∀ flags, Alike (Twin Eq l) (do
      let pa ← allocFrame
      map (← getCR3) (va &&& Flag.MASK) pa flags) := by
    intro flags
    apply alike_allocFrame.bind
    intro pa
    exact alike_getCR3.bind fun _ => alike_map _ _ _ _
  have hcopy : ∀ flags, Alike (Twin Eq l) (do
      let pa ← allocFrame
      mapCopy (← getCR3) (va &&& Flag.MASK) pa flags
      invlpg va) := by
    intro flags
    apply alike_allocFrame.bind
    intro pa
    apply alike_getCR3.bind
    intro c
    exact (alike_mapCopy _ _ _ _).bind fun _ => alike_invlpg va
  refine Alike.ite (Alike.throw _) ?_
  refine Alike.ite (Alike.throw _) ?_
  refine Alike.ite (Alike.throw _) ?_
  exact Alike.ite (hcopy _) (Alike.ite (Alike.throw _) (hmap _))

theorem alike_clone (cr3 : Word) : Alike (Twin Eq l) (clone cr3) := by
  apply alike_getCR3.bind
  intro c
  apply (alike_assert _).bind
  intro _
  exact (alike_writeProtect cr3).bind fun _ => alike_copyPd cr3

theorem alike_destroy (cr3 : Word) : Alike (Twin Eq l) (destroy cr3) := by
  refine Alike.get (fun s => ?_) fun s t h => by rw [h.kpd]
  exact (alike_assert _).bind fun _ => alike_destroyPd cr3

end Vmm

end OsKernel
