import OsKernel.Vmm.Tlb

/-!
# The translations that a core may still have cached

In `Cores` the processor decides what it caches, by steps of its own, and a TLB is what it has decided.
Here nothing is left to it: `may` holds, for each core, every translation that was allowed to user mode
at some moment since its address was last flushed there, whether anybody looked at it or not. It is the
largest TLB that the core can have, and the set has no other definition: an operation takes out what it
takes out of a TLB that holds nothing else, and everything that is allowed when it is over comes in.

The moments are those between two operations. What a processor caches in the middle of one is not
modelled: the operations of `Vmm/Model.lean` run from start to end, as everywhere in this development.

Nothing is proved anew about the operations. That they take out of a TLB what they have to is
`Coherent.step`, with the one entry in it; that they do the same to memory whatever is in the TLB is
`Alike`, from `Vmm/Registers.lean`.
-/

set_option autoImplicit false

namespace OsKernel.Vmm

open Lib Lib.Prog K PhysMem

variable {C : Type} {κ : KernelMap} {a : Word → Word → Prop} {σ σ' τ : Cores C} {S : Space}
  {k : C} {e : TlbEntry} {T : C → List TlbEntry}

namespace Cores

/-- The directory loaded on the core allows user mode this translation. -/
def Allowed (σ : Cores C) (k : C) (e : TlbEntry) : Prop :=
  Aligned e.page ∧ σ.machine.allows (σ.cr3 k) e.page true e.rw = true ∧
    frame (σ.machine.walk (σ.cr3 k) e.page) = e.frame

instance (σ : Cores C) (k : C) (e : TlbEntry) : Decidable (σ.Allowed k e) :=
  inferInstanceAs (Decidable (_ ∧ _ ∧ _))

/-- The cores with other TLBs. -/
def caching (σ : Cores C) (T : C → List TlbEntry) : Cores C := { σ with tlb := T }

/-- The cores with empty TLBs. -/
def bare (σ : Cores C) : Cores C := σ.caching fun _ => []

/-- One entry on one core. -/
def one [DecidableEq C] (k : C) (e : TlbEntry) : C → List TlbEntry := fun j => if j = k then [e] else []

theorem mem_one [DecidableEq C] {j : C} {e' : TlbEntry} : e' ∈ one k e j ↔ j = k ∧ e' = e := by
  unfold one
  split
  · rename_i h
    rw [List.mem_singleton]
    exact ⟨fun he => ⟨h, he⟩, fun he => he.2⟩
  · rename_i h
    exact ⟨fun he => absurd he List.not_mem_nil, fun he => absurd he.1 h⟩

end Cores

/-! ## What does not depend on the TLBs

A TLB decides what a store of a process does and nothing else. So from the same cores with other
TLBs every other operation comes to the same state but for the TLBs, and "what could be cached"
can be asked of each entry on its own, as if it were the only one. -/

/-- The same cores, but for the TLBs. -/
structure Same (σ σ' : Cores C) : Prop where
  live : σ'.live = σ.live
  cr3 : σ'.cr3 = σ.cr3
  machine : ∃ c m, σ'.machine = { σ.machine with cr3 := c, tlb := m }

namespace Same

theorem caching (σ : Cores C) (T T' : C → List TlbEntry) : Same (σ.caching T) (σ.caching T') :=
  ⟨rfl, rfl, σ.machine.cr3, σ.machine.tlb, rfl⟩

theorem allowed (F : Same σ σ') (h : σ'.Allowed k e) : σ.Allowed k e := by
  obtain ⟨c, m, hm⟩ := F.machine
  unfold Cores.Allowed at h
  rw [hm, F.cr3] at h
  exact h

theorem twin (F : Same σ σ') (k : C) : Twin Eq (σ.on k).tlb (σ.on k) (σ'.on k) := by
  obtain ⟨c, m, hm⟩ := F.machine
  refine ⟨⟨σ'.cr3 k, σ'.tlb k, ?_, ?_⟩, fun _ he => he⟩
  · unfold Cores.on
    rw [hm]
  · show σ.cr3 k = σ'.cr3 k
    rw [F.cr3]

variable [DecidableEq C]

/-- A core has worked, on both. -/
theorem back (F : Same σ σ') {l : List TlbEntry} {s t : Machine} {live live' : Finset Word}
    (h : Twin Eq l s t) (hl : live' = live) : Same (σ.back k s live) (σ'.back k t live') := by
  have hcr3 := h.cr3
  obtain ⟨⟨c, m, rfl, -⟩, -⟩ := h
  refine ⟨hl, ?_, c, m, rfl⟩
  show Function.update σ'.cr3 k c = Function.update σ.cr3 k s.cr3
  rw [F.cr3, ← hcr3]

variable [Fintype C]

/-- Whatever is cached, an operation that is no store of a process does the same. -/
theorem step (F : Same σ σ') {act : CoreOp C} (hact : ∀ k e va f, act ≠ .store k e va f)
    (h : σ.step act = some τ) : ∃ τ', σ'.step act = some τ' ∧ Same τ τ' := by
  have hwalk : σ'.machine.walk = σ.machine.walk := by
    obtain ⟨c, m, hm⟩ := F.machine
    rw [hm]
    rfl
  have hallows : σ'.machine.allows = σ.machine.allows := by
    obtain ⟨c, m, hm⟩ := F.machine
    rw [hm]
    rfl
  have hkpd : σ'.machine.kpd = σ.machine.kpd := by
    obtain ⟨c, m, hm⟩ := F.machine
    rw [hm]
  -- the operations that end with a state, if they survive
  have hsurvives : ∀ {k : C} {x : K Unit} {live live' : Finset Word},
      (∀ l, Alike (Twin Eq l) x) → live' = live →
      (System.survivor (x (σ.on k))).map (fun s => σ.back k s live) = some τ →
      ∃ τ', (System.survivor (x (σ'.on k))).map (fun s => σ'.back k s live') = some τ' ∧
        Same τ τ' := by
    intro k x live live' hx hl h
    obtain ⟨s, hs, rfl⟩ := Option.map_eq_some_iff.mp h
    obtain ⟨t, ht, htwin⟩ := Matched.survivor (hx _) (F.twin k) hs
    exact ⟨_, Option.map_eq_some_iff.mpr ⟨t, ht, rfl⟩, F.back htwin hl⟩
  -- the two that give a directory
  have hborn : ∀ {k : C} {x : K Word} {pd : Word} {s : Machine}, (∀ l, Alike (Twin Eq l) x) →
      x (σ.on k) = .ok pd s → ∃ t, x (σ'.on k) = .ok pd t ∧
        Same (σ.back k s (insert pd σ.live)) (σ'.back k t (insert pd σ'.live)) := by
    intro k x pd s hx hr
    obtain ⟨t, ht, htwin⟩ := (hx _).ok (F.twin k) hr
    exact ⟨t, ht, F.back htwin (by rw [F.live])⟩
  unfold Cores.step at h ⊢
  cases act with
  | create k =>
    dsimp only at h ⊢
    cases hr : newProcess (σ.on k) with
    | error e s =>
      rw [hr] at h
      cases h
    | ok pd s =>
      rw [hr] at h
      obtain rfl := Option.some.inj h
      obtain ⟨t, ht, hsame⟩ := hborn (x := newProcess) (fun _ => alike_copyKpd) hr
      exact ⟨_, by rw [ht], hsame⟩
  | fork k =>
    dsimp only at h ⊢
    rw [F.cr3, F.live]
    split at h
    · rename_i hl
      rw [if_pos hl, ← F.live]
      cases hr : clone (σ.cr3 k) (σ.on k) with
      | error e s =>
        rw [hr] at h
        cases h
      | ok pd s =>
        rw [hr] at h
        obtain rfl := Option.some.inj h
        obtain ⟨t, ht, hsame⟩ := hborn (fun _ => alike_clone _) hr
        exact ⟨_, by rw [ht], hsame⟩
    · cases h
  | fault k va error_code =>
    dsimp only at h ⊢
    rw [F.cr3, F.live, hwalk]
    split at h
    · rename_i hcond
      rw [if_pos hcond]
      exact hsurvives (fun _ => alike_pageFault va error_code) rfl h
    · cases h
  | exec k discard =>
    dsimp only at h ⊢
    rw [F.cr3, F.live]
    split at h
    · rename_i hl
      rw [if_pos hl]
      exact hsurvives (fun _ => alike_clearPd discard _) rfl h
    · cases h
  | exit k pd =>
    dsimp only at h ⊢
    rw [F.cr3, F.live]
    split at h
    · rename_i hcond
      rw [if_pos hcond]
      exact hsurvives (fun _ => alike_destroy pd) rfl h
    · cases h
  | switch k pd =>
    dsimp only at h ⊢
    rw [F.cr3, F.live, hkpd]
    split at h
    · rename_i hcond
      rw [if_pos hcond]
      exact hsurvives (fun _ => alike_getCR3.bind fun _ =>
        Alike.ite (alike_setCR3 pd) (Alike.pure ())) rfl h
    · cases h
  | store k e va f => exact absurd rfl (hact k e va f)
  | fill k va rw =>
    dsimp only at h ⊢
    rw [F.cr3, hallows, hwalk]
    split at h
    · rename_i hall
      rw [if_pos hall]
      obtain rfl := Option.some.inj h
      exact ⟨_, rfl, F.live, rfl, F.machine⟩
    · cases h
  | forget k e =>
    obtain rfl := Option.some.inj h
    exact ⟨_, rfl, F.live, F.cr3, F.machine⟩

end Same

namespace Coherent

/-- What is in a TLB is allowed. -/
theorem allowed (H : Coherent κ a σ S) (he : e ∈ σ.tlb k) : σ.Allowed k e := by
  have hl := H.live_of_mem he
  have g := H.grants k hl e he
  exact ⟨g.aligned, (Grants.iff H.good.sound H.good.agrees (H.mem_dirs.mpr hl) g.aligned).mp g⟩

/-- The kernel's directory allows nothing. -/
theorem live_of_allowed (H : Coherent κ a σ S) (he : σ.Allowed k e) : σ.cr3 k ∈ σ.live := by
  obtain hk | hl := H.loaded k
  · have hall := he.2.1
    rw [hk] at hall
    have hnone : σ.machine.allows σ.machine.kpd e.page true e.rw = false :=
      H.good.sound.allows_kpd
    rw [hnone] at hall
    cases hall
  · exact hl

/-- Whatever is allowed may be cached. -/
theorem caching (H : Coherent κ a σ S) (hT : ∀ k, ∀ e ∈ T k, σ.Allowed k e) :
    Coherent κ a (σ.caching T) S where
  good := H.good
  loaded := H.loaded
  alone := H.alone
  grants k hl e he := (Grants.iff H.good.sound H.good.agrees (H.mem_dirs.mpr hl)
    (hT k e he).1).mpr (hT k e he).2
  empty k hl := List.eq_nil_iff_forall_not_mem.mpr fun e he => hl (H.live_of_allowed (hT k e he))

theorem bare (H : Coherent κ a σ S) : Coherent κ a σ.bare S :=
  H.caching fun _ _ he => absurd he List.not_mem_nil

end Coherent

/-! ## Everything that was allowed

`may` is the largest TLB that a core can have: whatever was allowed at some moment and that the
operations since have not flushed. An entry survives an operation if the core still has it after
that operation, begun with this entry cached. It is a set and not a list, so no processor of
finite size is meant; whatever a real one holds is part of it. -/

/-- The cores, and what each of them may have cached. -/
structure Seen (C : Type) where
  cores : Cores C
  may : C → Set TlbEntry

namespace Seen

/-- Before the first process. -/
def init (σ : System) : Seen C := ⟨Cores.init σ, fun k => {e | (Cores.init σ : Cores C).Allowed k e}⟩

variable [DecidableEq C] [Fintype C]

inductive Step (s : Seen C) : CoreOp C → Seen C → Prop
  /-- What was there stays if the operation leaves it in a TLB. -/
  | op {act : CoreOp C} {τ : Cores C} (h : s.cores.bare.step act = some τ) :
    Step s act ⟨τ, fun k => {e | τ.Allowed k e ∨
      e ∈ s.may k ∧ ∃ τ', (s.cores.caching (Cores.one k e)).step act = some τ' ∧ e ∈ τ'.tlb k}⟩
  /-- A process stores through a translation that its core may have cached. -/
  | store {k : C} {e : TlbEntry} {va : Word} {f : Word → Word} {τ : Cores C} (he : e ∈ s.may k)
    (h : (s.cores.caching (Cores.one k e)).step (.store k e va f) = some τ) :
    Step s (.store k e va f) ⟨τ, fun j => {e' | τ.Allowed j e' ∨ e' ∈ s.may j}⟩

inductive Run : Seen C → List (CoreOp C) → Seen C → Prop
  | nil {s : Seen C} : Run s [] s
  | cons {s t u : Seen C} {act : CoreOp C} {acts : List (CoreOp C)} (h : Step s act t)
    (hr : Run t acts u) : Run s (act :: acts) u

/-- The invariant: all of it is allowed now. -/
structure Fresh (κ : KernelMap) (a : Word → Word → Prop) (s : Seen C) : Prop where
  coherent : ∃ S, Coherent κ a s.cores.bare S
  allowed : ∀ k, ∀ e ∈ s.may k, s.cores.Allowed k e

variable {s t : Seen C} {act : CoreOp C} {acts : List (CoreOp C)}

omit [DecidableEq C] [Fintype C] in
/-- Entries of `may` can be cached together. -/
theorem Fresh.caching (F : Fresh κ a s) (hT : ∀ k, ∀ e ∈ T k, e ∈ s.may k) :
    ∃ S, Coherent κ a (s.cores.caching T) S := by
  obtain ⟨S, H⟩ := F.coherent
  exact ⟨S, H.caching fun k e he => F.allowed k e (hT k e he)⟩

omit [Fintype C] in
theorem one_subset {M : C → Set TlbEntry} (he : e ∈ M k) : ∀ j, ∀ e' ∈ Cores.one k e j, e' ∈ M j := by
  intro j e' he'
  obtain ⟨rfl, rfl⟩ := Cores.mem_one.mp he'
  exact he

theorem Fresh.step (F : Fresh κ a s) (h : Step s act t) : Fresh κ a t := by
  cases h with
  | op h =>
    obtain ⟨S, H⟩ := F.coherent
    obtain ⟨S', H'⟩ := H.step h
    refine ⟨⟨S', H'.bare⟩, fun k e he => ?_⟩
    rcases he with hall | ⟨he, τ', h', hin⟩
    · exact hall
    have hact : ∀ k e va f, act ≠ .store k e va f := by
      rintro k e va f rfl
      unfold Cores.step at h
      dsimp only at h
      split at h
      · rename_i hcond
        exact absurd hcond.1 List.not_mem_nil
      · cases h
    -- with this entry alone in the TLBs the operation does the same
    obtain ⟨τ'', h'', hsame⟩ := (Same.caching s.cores _ (Cores.one k e)).step hact h
    obtain rfl := Option.some.inj (h''.symm.trans h')
    obtain ⟨S₁, H₁⟩ := F.caching (one_subset he)
    obtain ⟨S₂, H₂⟩ := H₁.step h'
    exact hsame.allowed (H₂.allowed hin)
  | @store k e va f τ he h =>
    obtain ⟨S, H⟩ := F.caching (one_subset he)
    obtain ⟨S', H'⟩ := H.step h
    refine ⟨⟨S', H'.bare⟩, fun j e' he' => ?_⟩
    rcases he' with hall | he'
    · exact hall
    -- the other one is cached as well
    obtain ⟨S₁, H₁⟩ := F.caching (T := fun i => Cores.one k e i ++ Cores.one j e' i)
      fun i x hx => (List.mem_append.mp hx).elim (one_subset he i x) (one_subset he' i x)
    have hcond : e ∈ Cores.one k e k ∧ e.page = va &&& Flag.MASK ∧ e.rw = true := by
      unfold Cores.step at h
      dsimp only at h
      split at h
      · assumption
      · cases h
    have hstore : (s.cores.caching fun i => Cores.one k e i ++ Cores.one j e' i).step
        (.store k e va f) = some _ := if_pos ⟨List.mem_append.mpr (Or.inl hcond.1), hcond.2⟩
    obtain ⟨S₂, H₂⟩ := H₁.step hstore
    have hall := H₂.allowed (k := j) (e := e')
      (List.mem_append.mpr (Or.inr (Cores.mem_one.mpr ⟨rfl, rfl⟩)))
    obtain rfl := Option.some.inj ((if_pos hcond).symm.trans h)
    exact hall

theorem Fresh.run (hr : Run s acts t) : Fresh κ a s → Fresh κ a t := by
  induction hr with
  | nil => exact id
  | cons h _ ih => exact fun F => ih (F.step h)

/-- What is allowed may be cached. -/
theorem Run.mem (hr : Run s acts t) (hs : ∀ k e, s.cores.Allowed k e → e ∈ s.may k) :
    ∀ k e, t.cores.Allowed k e → e ∈ t.may k := by
  induction hr with
  | nil => exact hs
  | cons h _ ih =>
    refine ih fun k e he => ?_
    cases h with
    | op h => exact Or.inl he
    | store _ h => exact Or.inl he

/-- A run of the operations, whatever is cached. -/
theorem Run.of_runs : ∀ {acts : List (CoreOp C)} {σ τ : Cores C} {s : Seen C}, s.cores = σ →
    runs (fun σ act => σ.bare.step act) σ acts = some τ → ∃ t, Run s acts t ∧ t.cores = τ := by
  intro acts
  induction acts with
  | nil =>
    intro σ τ s hs hr
    obtain rfl := Option.some.inj hr
    exact ⟨s, .nil, hs⟩
  | cons act acts ih =>
    intro σ τ s hs hr
    obtain ⟨σ₁, h, hr⟩ := runs_cons.mp hr
    obtain ⟨u, hu, hcores⟩ : ∃ u, Step s act u ∧ u.cores = σ₁ := ⟨_, .op (hs ▸ h), rfl⟩
    obtain ⟨t, ht, hτ⟩ := ih hcores hr
    exact ⟨t, .cons hu ht, hτ⟩

end Seen

variable [DecidableEq C] [Fintype C]

/-- Whatever was allowed at some moment and has not been flushed since is allowed now: a core's TLB
holds no stale entry, whatever the processor chose to cache. -/
theorem no_stale_entry {c : Config} {σ₀ : System} (h : Started c σ₀) {acts : List (CoreOp C)}
    {s : Seen C} (hr : Seen.Run (Seen.init σ₀) acts s) (he : e ∈ s.may k) :
    s.cores.machine.allows (s.cores.cr3 k) e.page true e.rw = true ∧
      frame (s.cores.machine.walk (s.cores.cr3 k) e.page) = e.frame := by
  obtain ⟨κ, a, n, B, -⟩ := h.good
  have F : Seen.Fresh κ a (Seen.init σ₀ : Seen C) :=
    ⟨⟨_, Coherent.init B⟩, fun _ _ he => he⟩
  exact ((F.run hr).allowed k e he).2

/-- A page, a child, and the next store of the parent: its core may have cached the frame that it got
then, and no longer the one that it had before. -/
theorem no_stale_entry_small : ∃ σ₀ s, Started .small σ₀ ∧
    Seen.Run (Seen.init σ₀ : Seen (Fin 2)) [.create 0, .switch 0 0x605000#32,
      .fault 0 0x80000000#32 0x6#32, .fork 0, .fault 0 0x80000000#32 0x7#32] s ∧
    ⟨0x80000000#32, 0x609000#32, true⟩ ∈ s.may 0 ∧
    s.cores.machine.allows (s.cores.cr3 0) 0x80000000#32 true true = true ∧
    ⟨0x80000000#32, 0x606000#32, true⟩ ∉ s.may 0 ∧
    ⟨0x80000000#32, 0x606000#32, false⟩ ∉ s.may 0 := by
  have hrun : smallBooted.any (fun σ₀ => (runs (fun σ act => σ.bare.step act)
      (Cores.init σ₀ : Cores (Fin 2)) [.create 0, .switch 0 0x605000#32,
        .fault 0 0x80000000#32 0x6#32, .fork 0, .fault 0 0x80000000#32 0x7#32]).any
      fun τ => decide (τ.Allowed 0 ⟨0x80000000#32, 0x609000#32, true⟩)) = true := by
    decide +kernel
  obtain ⟨σ₀, h₀, hrun⟩ := (Option.any_eq_true _ _).mp hrun
  obtain ⟨τ, hτ, hall⟩ := (Option.any_eq_true _ _).mp hrun
  have h := smallBooted_started h₀
  obtain ⟨s, hs, rfl⟩ := Seen.Run.of_runs (s := Seen.init σ₀) rfl hτ
  have hin := hs.mem (fun _ _ he => he) 0 _ (of_decide_eq_true hall)
  have hnow := no_stale_entry h hs hin
  have hgone : ∀ rw, ⟨0x80000000#32, 0x606000#32, rw⟩ ∉ s.may 0 := fun rw he => by
    have hthen := no_stale_entry h hs he
    have hsame : (0x609000#32 : Word) = 0x606000#32 := hnow.2.symm.trans hthen.2
    exact absurd hsame (by decide)
  exact ⟨σ₀, s, h, hs, hin, hnow.1, hgone true, hgone false⟩

end OsKernel.Vmm
