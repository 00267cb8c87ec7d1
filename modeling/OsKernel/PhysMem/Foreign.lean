import OsKernel.PhysMem.Frames

/-!
# Frames that are not the allocator's

`dealloc_frame` says on the console that it does not free a frame outside of the range, and
links it all the same. Runs in which frames outside of the range are given back, too, and what
such a call may do without harm.

`deallocFrame` of `PhysMem/Model.lean` stores the link wherever it is told to. That is right
for the frames of the range, which the kernel's identity map covers, and not for an arbitrary
address: once paging is on the store goes through the address space in force, and a page that
is not there makes it fault while `PhysMem::lock` is held. Here the callers' state says
whether paging is on and which pages are there then. Of the address spaces only two things are
assumed, those that `global_init` makes true of `kpd` and that every process takes over from
it: page 0 is not there, and the frames of the range are.

Reference counts are left out, as in `PhysMem/Frames.lean`: what a foreign frame does to the
list does not depend on who counts it.

That a call ignores the frame is a statement about everything after it, too (`Ignores`): a
frame from outside that is on the list will be handed out, and then it is too late. So the
condition is found by asking when the frame does not become the head of the list, and there is
one such case.
-/

set_option autoImplicit false

namespace OsKernel.PhysMem

open Lib Lib.Prog K

/-- The pages that are there under some page directory of the kernel. -/
structure Space (lo hi : Nat) where
  present : Word → Bool
  null : present 0#32 = false
  range : ∀ p, FrameIn lo hi p → present p = true

/-- The pool and its callers. -/
structure Callers (lo hi : Nat) where
  pool : Pool
  /-- the address space in force, if paging is on -/
  space : Option (Space lo hi)

inductive CallerOp (lo hi : Nat)
  | use (op : PoolOp)
  /-- paging is turned on, or another address space is loaded -/
  | load (c : Space lo hi)
  /-- `dealloc_frame` of an address that is not in the range -/
  | foreign (p : Word)

variable {lo hi : Nat}

namespace Callers

/-- Without paging every address is the physical one. -/
def present (s : Callers lo hi) (p : Word) : Bool :=
  s.space.all fun c => c.present p

/-- `dealloc_frame` of any address; there is no state after it if it does not come back. -/
def dealloc (s : Callers lo hi) (p : Word) : Option (Callers lo hi) :=
  if s.present p then
    match deallocFrame p s.pool.machine with
    | .ok _ m => some { s with pool := ⟨m, s.pool.live⟩ }
    | .error _ _ => none
  else none

def step (s : Callers lo hi) : CallerOp lo hi → Option (Callers lo hi)
  | .use op => (s.pool.step op).map fun pool => { s with pool := pool }
  | .load c => some { s with space := some c }
  | .foreign p => if Aligned p ∧ ¬(lo ≤ p.toNat ∧ p.toNat < hi) then s.dealloc p else none

/-- The null pointer is given back while no frame is on the list and paging is not on yet. -/
def Harmless (s : Callers lo hi) (p : Word) : Prop :=
  s.space = none ∧ p = 0#32 ∧ s.pool.machine.firstFree = 0#32

/-- Whatever is given back from outside of the range is harmless. -/
def StepOk (s : Callers lo hi) : CallerOp lo hi → Prop
  | .use _ => True
  | .load _ => True
  | .foreign p => s.Harmless p

/-- The frames that are handed out next are in the range, and so are those on the list. -/
def Clean (s : Callers lo hi) : Prop :=
  (∃ free, Chain s.pool.machine.mem s.pool.machine.firstFree free ∧ ∀ q ∈ free, FrameIn lo hi q) ∧
    ∀ q m, unsafeAllocFrame s.pool.machine = .ok q m → FrameIn lo hi q

/-- `dealloc_frame(p)` comes back and does nothing, as it says: neither to the allocator's own state,
nor to the frames of the range, nor to anything that is handed out or linked later. -/
structure Ignores (s : Callers lo hi) (p : Word) (t : Callers lo hi) : Prop where
  run : s.dealloc p = some t
  firstFree : t.pool.machine.firstFree = s.pool.machine.firstFree
  avail : t.pool.machine.avail = s.pool.machine.avail
  limit : t.pool.machine.limit = s.pool.machine.limit
  start : t.pool.machine.start = s.pool.machine.start
  mem : ∀ q, FrameIn lo hi q → t.pool.machine.mem q = s.pool.machine.mem q
  later : ∀ ops u, runs step t ops = some u → RunOk step StepOk t ops → u.Clean

end Callers

open Callers

variable {used : Nat} {free : List Word} {s t : Callers lo hi} {p : Word}

/-- What `dealloc_frame` does to any frame. -/
theorem deallocFrame_eq (hp : Aligned p) (m : Machine) :
    deallocFrame p m = .ok () { m with
      mem := Function.update m.mem p (Function.update (m.mem p) 0 m.firstFree), firstFree := p } := by
  have hspec : wp (deallocFrame p) (fun _ m' => m' = { m with
      mem := Function.update m.mem p (Function.update (m.mem p) 0 m.firstFree), firstFree := p })
      (fun _ _ => False) m := by
    unfold deallocFrame
    simp only [wp_bind, wp_assert, offset_eq_zero hp, if_true, wp_modify]
  obtain ⟨_, m', hrun, rfl⟩ := wp_returns hspec
  exact hrun

/-- The frame at the head of the list is handed out, whatever it is. -/
theorem unsafeAllocFrame_head {m : Machine} (hp : Aligned m.firstFree) (hne : m.firstFree ≠ 0#32) :
    ∃ m', unsafeAllocFrame m = .ok m.firstFree m' := by
  have hspec : wp unsafeAllocFrame (fun q _ => q = m.firstFree) (fun _ _ => False) m := by
    unfold unsafeAllocFrame
    simp only [wp_bind, wp_get, if_pos hne, wp_set, wp_pure, wp_assert, offset_eq_zero hp, if_true,
      wp_bzero]
  obtain ⟨q, m', hrun, rfl⟩ := wp_returns hspec
  exact ⟨m', hrun⟩

/-- A call that comes back has linked its frame. -/
theorem Callers.dealloc_eq (hp : Aligned p) : s.dealloc p = if s.present p then
    some { s with pool := ⟨{ s.pool.machine with
      mem := Function.update s.pool.machine.mem p
        (Function.update (s.pool.machine.mem p) 0 s.pool.machine.firstFree)
      firstFree := p }, s.pool.live⟩ } else none := by
  unfold dealloc
  rw [deallocFrame_eq hp]

/-- The null pointer faults as soon as paging is on. -/
theorem Callers.present_null : s.present 0#32 = true ↔ s.space = none := by
  unfold present
  cases hspace : s.space with
  | none => exact ⟨fun _ => rfl, fun _ => rfl⟩
  | some c =>
    refine ⟨fun h => ?_, fun h => by cases h⟩
    rw [Option.all_some, c.null] at h
    cases h

namespace Parts

theorem clean (P : Parts lo hi used free s.pool) : s.Clean := by
  refine ⟨⟨free, P.chain, fun q hq => ?_⟩, fun q m hrun => (wp_ok P.alloc hrun).range⟩
  have hin := (P.freeIn q hq).1
  exact ⟨hin.1, hin.2.1, Nat.lt_of_lt_of_le hin.2.2 P.usedLe⟩

/-- A harmless call: the words at address 0 are no frame's. -/
theorem ignore (P : Parts lo hi used free s.pool) (h : s.Harmless p) :
    ∃ t, s.dealloc p = some t ∧ t.pool.machine.firstFree = s.pool.machine.firstFree ∧
      t.pool.machine.avail = s.pool.machine.avail ∧ t.pool.machine.limit = s.pool.machine.limit ∧
      t.pool.machine.start = s.pool.machine.start ∧
      (∀ q, FrameIn lo hi q → t.pool.machine.mem q = s.pool.machine.mem q) ∧
      Parts lo hi used free t.pool := by
  obtain ⟨hoff, rfl, hfirst⟩ := h
  have hempty : free = [] := by
    cases free with
    | nil => rfl
    | cons q rest => exact absurd (P.chain.1.symm.trans hfirst) P.chain.2.1
  subst hempty
  refine ⟨_, (dealloc_eq (by unfold Aligned; decide)).trans (if_pos (present_null.mpr hoff)),
    hfirst.symm, rfl, rfl, rfl, fun q hq => ?_, { P with chain := rfl }⟩
  have hq0 : q ≠ 0#32 := by
    rintro rfl
    have hle : lo ≤ 0 := hq.2.1
    have hpos := P.loPos
    omega
  exact Function.update_of_ne hq0 ..

theorem callerStep {op : CallerOp lo hi} (P : Parts lo hi used free s.pool) (hok : s.StepOk op)
    (h : s.step op = some t) : ∃ used' free', Parts lo hi used' free' t.pool := by
  cases op with
  | use op =>
    obtain ⟨pool, hstep, rfl⟩ := Option.map_eq_some_iff.mp h
    exact P.step hstep
  | load c =>
    obtain rfl := Option.some.inj h
    exact ⟨used, free, P⟩
  | foreign p =>
    obtain ⟨u, hrun, -, -, -, -, -, P'⟩ := P.ignore hok
    unfold Callers.step at h
    dsimp only at h
    split at h
    · rw [hrun] at h
      obtain rfl := Option.some.inj h
      exact ⟨used, free, P'⟩
    · cases h

theorem callerRuns {ops : List (CallerOp lo hi)} (P : Parts lo hi used free s.pool)
    (hr : runs Callers.step s ops = some t) (hok : RunOk Callers.step StepOk s ops) :
    ∃ used' free', Parts lo hi used' free' t.pool :=
  runs_inv (fun s : Callers lo hi => ∃ used free, Parts lo hi used free s.pool)
    (fun _ _ _ ⟨_, _, P⟩ hok h => P.callerStep hok h) ⟨used, free, P⟩ hok hr

theorem ignores (P : Parts lo hi used free s.pool) (h : s.Harmless p) : ∃ t, s.Ignores p t := by
  obtain ⟨t, hrun, hfirst, havail, hlimit, hstart, hmem, P'⟩ := P.ignore h
  refine ⟨t, hrun, hfirst, havail, hlimit, hstart, hmem, fun ops u hr hok => ?_⟩
  obtain ⟨used', free', P''⟩ := P'.callerRuns hr hok
  exact P''.clean

end Parts

/-- A frame from outside that is not ignored: the call faults, or the frame is handed out next, or the
list is lost. -/
theorem Callers.Ignores.harmless (hp : Aligned p) (hout : ¬(lo ≤ p.toNat ∧ p.toNat < hi))
    (h : s.Ignores p t) : s.Harmless p := by
  have hrun := h.run
  rw [dealloc_eq hp] at hrun
  split at hrun
  · rename_i hpresent
    have hfirst : t.pool.machine.firstFree = p := by rw [← Option.some.inj hrun]
    by_cases h0 : p = 0#32
    · exact ⟨present_null.mp (h0 ▸ hpresent), h0, h.firstFree.symm.trans (hfirst.trans h0)⟩
    · exfalso
      obtain ⟨m', hnext⟩ := unsafeAllocFrame_head (hfirst ▸ hp) (hfirst ▸ h0)
      have hin := (h.later [] t rfl trivial).2 _ _ hnext
      rw [hfirst] at hin
      exact hout hin.2
  · cases hrun

/-- In every state that is reached without harm, `dealloc_frame` ignores a frame from outside of the
range exactly if it is the null pointer, no frame is on the list and paging is not on yet. -/
theorem foreign_ignored_iff {start size : Word} {m₀ m : Machine} (hs : Aligned start)
    (hz : Aligned size) (hpos : start ≠ 0#32) (hfit : start.toNat + size.toNat ≤ 2 ^ 32)
    (hinit : PhysMem.init start size m₀ = .ok () m)
    {s : Callers start.toNat (start.toNat + size.toNat)}
    {ops : List (CallerOp start.toNat (start.toNat + size.toNat))}
    (hr : runs Callers.step ⟨⟨m, fun _ => false⟩, none⟩ ops = some s)
    (hok : RunOk Callers.step StepOk ⟨⟨m, fun _ => false⟩, none⟩ ops) (hp : Aligned p)
    (hout : ¬(start.toNat ≤ p.toNat ∧ p.toNat < start.toNat + size.toNat)) :
    (∃ t, s.Ignores p t) ↔ s.Harmless p := by
  obtain ⟨used, free, P⟩ := Parts.callerRuns (s := ⟨⟨m, fun _ => false⟩, none⟩)
    (Parts.init hpos hs hz hfit hinit) hr hok
  exact ⟨fun ⟨_, h⟩ => h.harmless hp hout, P.ignores⟩

/-- The address spaces of a machine whose memory ends with the range. -/
def allButNull : Space 0x600000 0x602000 where
  present p := p ≠ 0#32
  null := rfl
  range p hp := decide_eq_true fun h0 => absurd hp.2.1 (by rw [h0]; decide)

/-- The last page of the kernel's heap is given back, and is handed out next. -/
theorem foreign_handed_out : ∃ m m₂, ∃ t : Callers 0x600000 0x602000,
    PhysMem.init 0x600000#32 0x2000#32 topPool = .ok () m ∧
    (Callers.mk ⟨m, fun _ => false⟩ (some allButNull)).dealloc 0x5ff000#32 = some t ∧
    unsafeAllocFrame t.pool.machine = .ok 0x5ff000#32 m₂ ∧
    ¬∃ t, (Callers.mk ⟨m, fun _ => false⟩ (some allButNull)).Ignores 0x5ff000#32 t := by
  refine ⟨_, _, _, rfl, rfl, rfl, ?_⟩
  rintro ⟨t, h⟩
  exact absurd (h.harmless (by decide) (by decide)).2.1 (by decide)

/-- The null pointer before paging is on, and after. -/
theorem foreign_ignored_iff_null : ∃ m, ∃ s t : Callers 0x600000 0x602000,
    PhysMem.init 0x600000#32 0x2000#32 topPool = .ok () m ∧
    runs Callers.step ⟨⟨m, fun _ => false⟩, none⟩ [.use .alloc, .foreign 0#32] = some s ∧
    runs Callers.step ⟨⟨m, fun _ => false⟩, none⟩
      [.use .alloc, .foreign 0#32, .load allButNull, .use .alloc] = some t ∧
    (∃ u, s.Ignores 0#32 u) ∧ ¬∃ u, t.Ignores 0#32 u := by
  refine ⟨_, _, _, rfl, rfl, rfl, ?_, fun h => ?_⟩
  · refine (@foreign_ignored_iff 0#32 0x600000#32 0x2000#32 topPool _ (by decide) (by decide)
      (by decide) (by decide) rfl _ [.use .alloc, .foreign 0#32] rfl
      ⟨trivial, fun t ht => ⟨?_, fun _ _ => trivial⟩⟩ (by decide) (by decide)).mpr ⟨rfl, rfl, rfl⟩
    obtain rfl := Option.some.inj ht
    exact ⟨rfl, rfl, rfl⟩
  · have hharmless := (@foreign_ignored_iff 0#32 0x600000#32 0x2000#32 topPool _ (by decide)
      (by decide) (by decide) (by decide) rfl _
      [.use .alloc, .foreign 0#32, .load allButNull, .use .alloc] rfl
      ⟨trivial, fun t ht => ⟨?_, fun _ _ => ⟨trivial, fun _ _ => ⟨trivial, fun _ _ => trivial⟩⟩⟩⟩
      (by decide) (by decide)).mp h
    · cases hharmless.1
    · obtain rfl := Option.some.inj ht
      exact ⟨rfl, rfl, rfl⟩

end OsKernel.PhysMem
