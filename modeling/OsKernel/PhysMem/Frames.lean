import OsKernel.Lib.Runs
import OsKernel.PhysMem.Ledger

/-!
# The frame allocator by itself

Runs of `unsafe_alloc_frame` and `dealloc_frame` on any range, without reference counts.
Whoever holds a frame writes what he likes into it. The range may reach the top of the address
space, where `avail` and `limit` become zero.

`Parts` is the invariant, and it is a partition: below `used` each frame is either held or on
the list, once, and from `used` on none has ever been handed out. The bound `used` is a
natural number and not `avail`, because `avail` wraps with the range; that the two are
compared only with `==` in the source is what makes the wrap harmless.

The links are in the frames themselves. So the invariant needs that a holder writes to what he
holds and to nothing else (`PoolOp.fill`), and that is all that it assumes about the callers,
besides that they give back what they hold. What happens if they give back something else is
the subject of `PhysMem/Foreign.lean`.

A range that begins at address zero is excluded, and has to be: the null pointer ends the
list.
-/

set_option autoImplicit false

namespace OsKernel.PhysMem

open Lib Lib.Prog K

/-- The machine, and the frames handed out and not given back. -/
structure Pool where
  machine : Machine
  live : Word → Bool

inductive PoolOp
  | alloc
  | free (p : Word)
  /-- the owner of `p` fills it -/
  | fill (p : Word) (words : Nat → Word)

namespace Pool

def setLive (s : Pool) (m : Machine) (p : Word) (b : Bool) : Pool :=
  ⟨m, Function.update s.live p b⟩

def step (s : Pool) : PoolOp → Option Pool
  | .alloc =>
    match unsafeAllocFrame s.machine with
    | .ok p m => some (s.setLive m p true)
    | .error _ _ => none
  | .free p =>
    if s.live p = true then
      match deallocFrame p s.machine with
      | .ok _ m => some (s.setLive m p false)
      | .error _ _ => none
    else none
  | .fill p words =>
    if s.live p = true then
      some { s with machine := { s.machine with mem := Function.update s.machine.mem p words } }
    else none

end Pool

/-- The frames between two addresses; the upper one may be the top of the address space. -/
def FrameIn (lo hi : Nat) (p : Word) : Prop := Aligned p ∧ lo ≤ p.toNat ∧ p.toNat < hi

/-- The pool hands out `[lo, hi)`; frames from `used` on have never been handed out, and those on
the list have been given back. -/
structure Parts (lo hi used : Nat) (free : List Word) (s : Pool) : Prop where
  loPos : 0 < lo
  hiLe : hi ≤ 2 ^ 32
  hiAl : hi % 4096 = 0
  usedAl : used % 4096 = 0
  loLe : lo ≤ used
  usedLe : used ≤ hi
  avail : s.machine.avail = BitVec.ofNat 32 used
  limit : s.machine.limit = BitVec.ofNat 32 hi
  chain : Chain s.machine.mem s.machine.firstFree free
  nodup : free.Nodup
  freeIn : ∀ p ∈ free, FrameIn lo used p ∧ s.live p = false
  liveIn : ∀ p, s.live p = true → FrameIn lo used p
  cover : ∀ p, FrameIn lo used p → s.live p = true ∨ p ∈ free

namespace Parts

variable {lo hi used : Nat} {free : List Word} {s : Pool}

/-- `avail == limit` only when all has been handed out. -/
theorem avail_eq_limit (P : Parts lo hi used free s) :
    s.machine.avail = s.machine.limit ↔ used = hi := by
  have hpos := P.loPos
  have hle := P.hiLe
  have hlo := P.loLe
  have husedLe := P.usedLe
  rw [P.avail, P.limit, ← BitVec.toNat_inj, BitVec.toNat_ofNat, BitVec.toNat_ofNat]
  omega

theorem top_frame (P : Parts lo hi used free s) (hne : used ≠ hi) :
    (BitVec.ofNat 32 used).toNat = used ∧ Aligned (BitVec.ofNat 32 used) := by
  have hlt : used < 2 ^ 32 := Nat.lt_of_lt_of_le (Nat.lt_of_le_of_ne P.usedLe hne) P.hiLe
  have hval : (BitVec.ofNat 32 used).toNat = used := by
    rw [BitVec.toNat_ofNat, Nat.mod_eq_of_lt hlt]
  refine ⟨hval, ?_⟩
  unfold Aligned
  rw [hval]
  exact P.usedAl

/-- What the caller of `unsafe_alloc_frame` gets. -/
structure Fresh (lo hi : Nat) (s : Pool) (p : Word) (m : Machine) : Prop where
  range : FrameIn lo hi p
  notLive : s.live p = false
  zero : ∀ i, m.mem p i = 0#32
  parts : ∃ used free, Parts lo hi used free (s.setLive m p true)

theorem alloc (P : Parts lo hi used free s) :
    wp unsafeAllocFrame (Fresh lo hi s)
      (fun e _ => e = .noFrames ∧ ∀ p, FrameIn lo hi p → s.live p = true) s.machine := by
  have hmem : ∀ {p q : Word}, q ≠ p →
      Function.update s.machine.mem p (fun _ => 0#32) q = s.machine.mem q :=
    fun h => Function.update_of_ne h ..
  unfold unsafeAllocFrame
  simp only [wp_bind, wp_get]
  cases free with
  -- from the free list
  | cons p rest =>
    obtain ⟨hfirst, hp0, hrest⟩ := P.chain
    obtain ⟨hin, hdead⟩ := P.freeIn p List.mem_cons_self
    obtain ⟨hnot, hnodup⟩ := List.nodup_cons.mp P.nodup
    rw [hfirst, if_pos hp0]
    simp only [wp_bind, wp_set, wp_pure, wp_assert, offset_eq_zero hin.1, if_true, wp_bzero]
    refine ⟨⟨hin.1, hin.2.1, Nat.lt_of_lt_of_le hin.2.2 P.usedLe⟩, hdead, fun i => ?_, used, rest,
      P.loPos, P.hiLe, P.hiAl, P.usedAl, P.loLe, P.usedLe, P.avail, P.limit, ?_, hnodup,
      fun q hq => ?_, fun q hq => ?_, fun q hq => ?_⟩
    · show Function.update s.machine.mem p _ p i = 0#32
      rw [Function.update_self]
    · refine Chain.congr (fun q hq => ?_) hrest
      have hqp : q ≠ p := by
        rintro rfl
        exact hnot hq
      exact congrFun (hmem hqp) 0
    · have hqp : q ≠ p := by
        rintro rfl
        exact hnot hq
      refine ⟨(P.freeIn q (List.mem_cons_of_mem _ hq)).1, ?_⟩
      exact (Function.update_of_ne hqp ..).trans (P.freeIn q (List.mem_cons_of_mem _ hq)).2
    · by_cases hqp : q = p
      · rw [hqp]
        exact hin
      · exact P.liveIn q ((Function.update_of_ne hqp ..).symm.trans hq)
    · by_cases hqp : q = p
      · rw [hqp]
        exact .inl (Function.update_self ..)
      · rcases P.cover q hq with h | h
        · exact .inl ((Function.update_of_ne hqp ..).trans h)
        · exact .inr ((List.mem_cons.mp h).resolve_left hqp)
  -- from the frames that were never used, if there are any left
  | nil =>
    have hzero : s.machine.firstFree = 0#32 := P.chain
    rw [hzero, if_neg (by simp)]
    simp only [wp_bind, wp_ite, wp_throw, wp_set, wp_pure, wp_assert, wp_bzero]
    by_cases hfull : used = hi
    · rw [if_pos (P.avail_eq_limit.mpr hfull)]
      refine ⟨trivial, fun p hp => ?_⟩
      rw [← hfull] at hp
      exact (P.cover p hp).resolve_right (by simp)
    · obtain ⟨hval, hal⟩ := P.top_frame hfull
      have hstep : used + 4096 ≤ hi := by
        have h₁ := P.usedLe
        have h₂ := P.usedAl
        have h₃ := P.hiAl
        omega
      have hnext : BitVec.ofNat 32 used + FRAME_SIZE = BitVec.ofNat 32 (used + 4096) := by
        rw [FRAME_SIZE, BitVec.ofNat_add]
      have htop : s.live (BitVec.ofNat 32 used) = false := by
        cases hlive : s.live (BitVec.ofNat 32 used) with
        | false => rfl
        | true =>
          have hlt := (P.liveIn _ hlive).2.2
          omega
      have hgrow : ∀ q, FrameIn lo (used + 4096) q ↔
          FrameIn lo used q ∨ q = BitVec.ofNat 32 used := by
        intro q
        constructor
        · rintro ⟨hq, hge, hlt⟩
          by_cases hold : q.toNat < used
          · exact .inl ⟨hq, hge, hold⟩
          · refine .inr (BitVec.toNat_inj.mp ?_)
            have h₂ := P.usedAl
            unfold Aligned at hq
            omega
        · rintro (⟨hq, hge, hlt⟩ | rfl)
          · exact ⟨hq, hge, by omega⟩
          · exact ⟨hal, by rw [hval]; exact P.loLe, by omega⟩
      rw [if_neg fun h => hfull (P.avail_eq_limit.mp h), P.avail, if_pos (offset_eq_zero hal)]
      refine ⟨⟨hal, by rw [hval]; exact P.loLe, by omega⟩, htop, fun i => ?_, used + 4096, [],
        P.loPos, P.hiLe, P.hiAl, by have h₂ := P.usedAl; omega, by have h₁ := P.loLe; omega, hstep,
        hnext, P.limit, rfl, List.nodup_nil, fun q hq => by simp at hq, fun q hq => ?_,
        fun q hq => ?_⟩
      · show Function.update s.machine.mem (BitVec.ofNat 32 used) _ (BitVec.ofNat 32 used) i = 0#32
        rw [Function.update_self]
      · refine (hgrow q).mpr ?_
        by_cases hqp : q = BitVec.ofNat 32 used
        · exact .inr hqp
        · exact .inl (P.liveIn q ((Function.update_of_ne hqp ..).symm.trans hq))
      · refine .inl ?_
        rcases (hgrow q).mp hq with h | rfl
        · have hqp : q ≠ BitVec.ofNat 32 used := by
            rintro rfl
            have hlt := h.2.2
            omega
          have hlive := (P.cover q h).resolve_right (by simp)
          exact (Function.update_of_ne hqp ..).trans hlive
        · exact Function.update_self ..

theorem dealloc {p : Word} (P : Parts lo hi used free s) (hp : s.live p = true) :
    wp (deallocFrame p) (fun _ m => Parts lo hi used (p :: free) (s.setLive m p false))
      (fun _ _ => False) s.machine := by
  have hin := P.liveIn p hp
  have hnot : p ∉ free := by
    intro h
    rw [(P.freeIn p h).2] at hp
    cases hp
  have hp0 : p ≠ 0#32 := by
    rintro rfl
    have hge : lo ≤ 0 := hin.2.1
    have hpos := P.loPos
    omega
  unfold deallocFrame
  simp only [wp_bind, wp_assert, offset_eq_zero hin.1, if_true, wp_modify]
  refine ⟨P.loPos, P.hiLe, P.hiAl, P.usedAl, P.loLe, P.usedLe, P.avail, P.limit,
    P.chain.push hp0 hnot, List.nodup_cons.mpr ⟨hnot, P.nodup⟩, fun q hq => ?_, fun q hq => ?_, fun q hq => ?_⟩
  · by_cases hqp : q = p
    · rw [hqp]
      exact ⟨hin, Function.update_self ..⟩
    · have hold := P.freeIn q ((List.mem_cons.mp hq).resolve_left hqp)
      exact ⟨hold.1, (Function.update_of_ne hqp ..).trans hold.2⟩
  · by_cases hqp : q = p
    · rw [hqp]
      exact hin
    · exact P.liveIn q ((Function.update_of_ne hqp ..).symm.trans hq)
  · by_cases hqp : q = p
    · rw [hqp]
      exact .inr List.mem_cons_self
    · rcases P.cover q hq with h | h
      · exact .inl ((Function.update_of_ne hqp ..).trans h)
      · exact .inr (List.mem_cons_of_mem _ h)

theorem fill {p : Word} (P : Parts lo hi used free s) (hp : s.live p = true)
    (words : Nat → Word) : Parts lo hi used free { s with
      machine := { s.machine with mem := Function.update s.machine.mem p words } } := by
  refine { P with chain := Chain.congr (fun q hq => ?_) P.chain }
  have hqp : q ≠ p := by
    rintro rfl
    rw [(P.freeIn q hq).2] at hp
    cases hp
  exact congrFun (Function.update_of_ne hqp ..) 0

theorem step {op : PoolOp} {t : Pool} (P : Parts lo hi used free s) (h : s.step op = some t) :
    ∃ used' free', Parts lo hi used' free' t := by
  cases op with
  | alloc =>
    have hspec := P.alloc
    unfold wp at hspec
    dsimp only [Pool.step] at h
    cases hx : unsafeAllocFrame s.machine with
    | ok p m =>
      rw [hx] at h hspec
      obtain rfl := Option.some.inj h
      exact hspec.parts
    | error e m =>
      rw [hx] at h
      cases h
  | free p =>
    dsimp only [Pool.step] at h
    split at h
    · rename_i hp
      have hspec := P.dealloc hp
      unfold wp at hspec
      cases hx : deallocFrame p s.machine with
      | ok u m =>
        rw [hx] at h hspec
        obtain rfl := Option.some.inj h
        exact ⟨used, p :: free, hspec⟩
      | error e m =>
        rw [hx] at h
        cases h
    · cases h
  | fill p words =>
    dsimp only [Pool.step] at h
    split at h
    · rename_i hp
      obtain rfl := Option.some.inj h
      exact ⟨used, free, P.fill hp words⟩
    · cases h

theorem init {start size : Word} {m m' : Machine} (hpos : start ≠ 0#32)
    (hs : Aligned start) (hz : Aligned size) (hfit : start.toNat + size.toNat ≤ 2 ^ 32)
    (h : PhysMem.init start size m = .ok () m') :
    Parts start.toNat (start.toNat + size.toNat) start.toNat [] ⟨m', fun _ => false⟩ := by
  have hspec : wp (PhysMem.init start size) (fun _ m' => m'.avail = start ∧
      m'.limit = start + size ∧ m'.firstFree = 0#32) (fun _ _ => False) m := by
    unfold PhysMem.init
    simp only [wp_bind, wp_assert, offset_eq_zero hs, offset_eq_zero hz, if_true, wp_modify,
      and_self]
  obtain ⟨havail, hlimit, hfirst⟩ := wp_ok hspec h
  have hlo : 0 < start.toNat := Nat.pos_of_ne_zero fun h0 => hpos (BitVec.toNat_inj.mp h0)
  unfold Aligned at hs hz
  refine ⟨hlo, hfit, by omega, hs, Nat.le_refl _, by omega, ?_, ?_, hfirst, List.nodup_nil,
    fun q hq => absurd hq (by simp), fun q hq => absurd hq (by simp), fun q hq => ?_⟩
  · rw [havail, BitVec.ofNat_toNat, BitVec.setWidth_eq]
  · rw [hlimit, BitVec.ofNat_add, BitVec.ofNat_toNat, BitVec.ofNat_toNat, BitVec.setWidth_eq,
      BitVec.setWidth_eq]
  · have hlt := hq.2.2
    have hge := hq.2.1
    omega

end Parts

/-! ## Every run -/

theorem runs_parts {lo hi used : Nat} {free : List Word} {s t : Pool} {ops : List PoolOp}
    (P : Parts lo hi used free s) (hr : runs Pool.step s ops = some t) :
    ∃ used' free', Parts lo hi used' free' t :=
  runs_inv (fun s => ∃ used free, Parts lo hi used free s)
    (fun _ _ _ ⟨_, _, P⟩ _ h => P.step h) ⟨used, free, P⟩
    (.of_forall (fun _ _ => trivial) ops s) hr

/-- For a range that does not begin at address zero, in every reachable state:

* each frame of the range is either live, or on the free list, or at or above `avail`, and live
  frames are in the range;
* a frame that is handed out is a frame of the range, is not live, and is zero;
* allocation fails only when all frames of the range are live. -/
theorem frames_handed_out_once {start size : Word} {m m' : Machine} (hs : Aligned start)
    (hz : Aligned size) (hpos : start ≠ 0#32) (hfit : start.toNat + size.toNat ≤ 2 ^ 32)
    (hinit : PhysMem.init start size m = .ok () m') {ops : List PoolOp} {s : Pool}
    (hr : runs Pool.step ⟨m', fun _ => false⟩ ops = some s) :
    (∃ used free, s.machine.avail = BitVec.ofNat 32 used ∧
      Chain s.machine.mem s.machine.firstFree free ∧ free.Nodup ∧
      (∀ p, s.live p = true ∨ p ∈ free → FrameIn start.toNat (start.toNat + size.toNat) p) ∧
      ∀ p, FrameIn start.toNat (start.toNat + size.toNat) p →
        (s.live p = true ∧ p ∉ free ∧ ¬used ≤ p.toNat) ∨
        (s.live p = false ∧ p ∈ free ∧ ¬used ≤ p.toNat) ∨
        (s.live p = false ∧ p ∉ free ∧ used ≤ p.toNat)) ∧
    (∀ p m₁, unsafeAllocFrame s.machine = .ok p m₁ →
      FrameIn start.toNat (start.toNat + size.toNat) p ∧ s.live p = false ∧
        ∀ i, m₁.mem p i = 0#32) ∧
    ∀ e m₁, unsafeAllocFrame s.machine = .error e m₁ →
      ∀ p, FrameIn start.toNat (start.toNat + size.toNat) p → s.live p = true := by
  obtain ⟨used, free, P⟩ := runs_parts (.init hpos hs hz hfit hinit) hr
  have hspec := P.alloc
  have hwide : ∀ {p}, FrameIn start.toNat used p →
      FrameIn start.toNat (start.toNat + size.toNat) p :=
    fun h => ⟨h.1, h.2.1, Nat.lt_of_lt_of_le h.2.2 P.usedLe⟩
  refine ⟨⟨used, free, P.avail, P.chain, P.nodup, fun p hp => ?_, fun p hp => ?_⟩,
    fun p m₁ hx => ?_, fun e m₁ hx => ?_⟩
  · rcases hp with h | h
    · exact hwide (P.liveIn p h)
    · exact hwide (P.freeIn p h).1
  · by_cases hold : p.toNat < used
    · rcases P.cover p ⟨hp.1, hp.2.1, hold⟩ with h | h
      · refine .inl ⟨h, fun hf => ?_, Nat.not_le.mpr hold⟩
        rw [(P.freeIn p hf).2] at h
        cases h
      · exact .inr (.inl ⟨(P.freeIn p h).2, h, Nat.not_le.mpr hold⟩)
    · refine .inr (.inr ⟨?_, fun hf => hold (P.freeIn p hf).1.2.2, Nat.not_lt.mp hold⟩)
      cases hlive : s.live p with
      | false => rfl
      | true => exact absurd (P.liveIn p hlive).2.2 hold
  · rw [wp, hx] at hspec
    exact ⟨hspec.range, hspec.notLive, hspec.zero⟩
  · rw [wp, hx] at hspec
    exact hspec.2

/-- Two frames at the top of the address space. -/
def topPool : Machine where
  mem _ _ := 0xffffffff#32
  firstFree := 0#32
  avail := 0xffffe000#32
  limit := 0#32
  start := 0xffffe000#32
  refs _ := 0#32
  kpd := 0#32
  cr3 := 0#32
  tlb := []

theorem frames_handed_out_once_top :
    runs Pool.step ⟨topPool, fun _ => false⟩ [.alloc, .alloc, .free 0xffffe000#32] ≠ none ∧
    ∀ s, runs Pool.step ⟨topPool, fun _ => false⟩ [.alloc, .alloc, .free 0xffffe000#32] = some s →
      ∀ p m₁, unsafeAllocFrame s.machine = .ok p m₁ → s.live p = false := by
  refine ⟨by decide, fun s hr p m₁ hx => ?_⟩
  have hinit : PhysMem.init 0xffffe000#32 0x2000#32 topPool = .ok () topPool := rfl
  exact ((frames_handed_out_once (by decide) (by decide) (by decide) (by decide) hinit
    hr).2.1 p m₁ hx).2.1

/-- A range that begins at address zero: the frame at zero is lost when it is given back. -/
theorem frame_zero_lost : ∃ m s m₁,
    PhysMem.init 0#32 0x1000#32 topPool = .ok () m ∧
    runs Pool.step ⟨m, fun _ => false⟩ [.alloc, .free 0#32] = some s ∧ s.live 0#32 = false ∧
    unsafeAllocFrame s.machine = .error .noFrames m₁ := by
  exact ⟨_, _, _, rfl, rfl, rfl, rfl⟩

end OsKernel.PhysMem
