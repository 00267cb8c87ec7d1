import OsKernel.Vmm.Cores

/-!
# The TLB changes nothing

In every state that the cores can reach, a TLB holds what the tables say, and leads to pages
that are in use. The cores do to memory what `System` does, where nothing is cached, with the
same operations.

The second is a simulation, and needs the first: a store through a cached entry is matched by
a store through a walk, which is let through because the tables grant what the entry promises.
For the operations of the kernel it needs `Vmm/Registers.lean` and nothing else. The steps
that have no counterpart (a switch, a fill, a forgotten entry) change neither memory nor who
is alive.

What it gives is that everything proved about the runs of `System` holds on the cores as well,
without a word about TLBs in those proofs: `Cores.ops` names the run, and
`tlb_changes_nothing` says that it is one and ends with the same memory.
-/

set_option autoImplicit false

namespace OsKernel.Vmm

open Lib Lib.Prog K PhysMem

/-! ## Both at work

The cores with their TLBs, and the system in which every access walks the tables. An operation of
the kernel reads and writes tables by way of its own addresses and does the same in both; a store
of a process goes through its TLB here and through the tables there, and because the entry is
granted the word is the same. -/

/-- `τ` has the memory and the processes of the cores. -/
structure Matched {C : Type} (σ : Cores C) (τ : System) : Prop where
  live : τ.live = σ.live
  machine : ∃ c m, τ.machine = { σ.machine with cr3 := c, tlb := m }

namespace Matched

variable {C : Type} {κ : KernelMap} {a : Word → Word → Prop} {σ σ' : Cores C} {τ : System}
  {S : Space} {k : C}

/-- A core and the system, once it has loaded the core's directory, are twins. -/
theorem twin (F : Matched σ τ) (k : C) :
    Twin Eq (σ.on k).tlb (σ.on k) { τ.machine with cr3 := σ.cr3 k, tlb := [] } := by
  obtain ⟨c, m, hm⟩ := F.machine
  refine ⟨⟨σ.cr3 k, [], ?_, rfl⟩, fun _ he => he⟩
  rw [hm]
  rfl

variable [DecidableEq C]

/-- The core has worked, and so has the system. -/
theorem back {P : Word → Word → Prop} {l : List TlbEntry} {s t : Machine} {live live' : Finset Word}
    (h : Twin P l s t) (hl : live' = live) : Matched (σ.back k s live) ⟨t, live'⟩ := by
  obtain ⟨⟨c, m, rfl, -⟩, -⟩ := h
  exact ⟨hl, c, m, rfl⟩

/-- What ends the process in one ends it in the other. -/
theorem survivor {α : Type} {x : K α} {s t s' : Machine} {l : List TlbEntry}
    (hx : Alike (Twin Eq l) x) (h : Twin Eq l s t) (hs : System.survivor (x s) = some s') :
    ∃ t', System.survivor (x t) = some t' ∧ Twin Eq l s' t' := by
  cases hr : x s with
  | ok v s₁ =>
    rw [hr] at hs
    obtain rfl := Option.some.inj hs
    obtain ⟨t', ht, h'⟩ := hx.ok h hr
    exact ⟨t', by rw [ht]; rfl, h'⟩
  | error e s₁ =>
    obtain ⟨t', ht, h'⟩ := hx.error h hr
    rw [hr] at hs
    cases e with
    | exit status =>
      obtain rfl := Option.some.inj hs
      exact ⟨t', by rw [ht]; rfl, h'⟩
    | _ => exact absurd hs (by simp [System.survivor])

variable [Fintype C]

/-- One step of the cores is one of the system, or none. -/
theorem step (F : Matched σ τ) (H : Coherent κ a σ S) {act : CoreOp C}
    (h : σ.step act = some σ') :
    ∃ τ', runs System.step τ (σ.op act).toList = some τ' ∧ Matched σ' τ' := by
  have hone : ∀ {op : Op} {τ' : System}, τ.step op = some τ' →
      runs System.step τ [op] = some τ' := fun h => runs_cons.mpr ⟨_, h, rfl⟩
  unfold Cores.step at h
  cases act with
  | create k =>
    dsimp only at h
    cases hr : newProcess (σ.on k) with
    | error e s =>
      rw [hr] at h
      exact absurd h (by simp)
    | ok d s =>
      rw [hr] at h
      obtain rfl := Option.some.inj h
      obtain ⟨c, m, hm⟩ := F.machine
      have htwin : Twin (fun _ _ => True) (σ.on k).tlb (σ.on k) τ.machine :=
        ⟨⟨c, m, hm, trivial⟩, fun _ he => he⟩
      -- nothing of the code reads the TLB, so a twin machine does the same
      obtain ⟨t, ht, h'⟩ := alike_copyKpd.ok htwin hr
      refine ⟨⟨t, insert d τ.live⟩, hone ?_, back h' (by rw [F.live])⟩
      unfold System.step newProcess
      dsimp only
      rw [ht]
  | fork k =>
    dsimp only at h
    split at h
    case isFalse => exact absurd h (by simp)
    rename_i hl
    cases hr : clone (σ.cr3 k) (σ.on k) with
    | error e s =>
      rw [hr] at h
      exact absurd h (by simp)
    | ok d s =>
      rw [hr] at h
      obtain rfl := Option.some.inj h
      obtain ⟨t, ht, h'⟩ := (alike_clone _).ok (F.twin k) hr
      refine ⟨⟨t, insert d τ.live⟩, hone ?_, back h' (by rw [F.live])⟩
      have hrun : (do setCR3 (σ.cr3 k); clone (σ.cr3 k) : K Word) τ.machine = .ok d t := ht
      unfold System.step
      dsimp only
      rw [if_pos (F.live ▸ hl), hrun]
  | fault k va error_code =>
    dsimp only at h
    split at h
    case isFalse => exact absurd h (by simp)
    rename_i hcond
    obtain ⟨s, hs, rfl⟩ := Option.map_eq_some_iff.mp h
    obtain ⟨t, ht, h'⟩ := survivor (alike_pageFault va error_code) (F.twin k) hs
    refine ⟨⟨t, τ.live⟩, hone ?_, back h' F.live⟩
    unfold System.step
    dsimp only
    rw [if_pos (F.live ▸ hcond.1)]
    exact Option.map_eq_some_iff.mpr ⟨t, ht, rfl⟩
  | exec k discard =>
    dsimp only at h
    split at h
    case isFalse => exact absurd h (by simp)
    rename_i hl
    obtain ⟨s, hs, rfl⟩ := Option.map_eq_some_iff.mp h
    obtain ⟨t, ht, h'⟩ := survivor (alike_clearPd discard _) (F.twin k) hs
    refine ⟨⟨t, τ.live⟩, hone ?_, back h' F.live⟩
    unfold System.step
    dsimp only
    rw [if_pos (F.live ▸ hl)]
    exact Option.map_eq_some_iff.mpr ⟨t, ht, rfl⟩
  | exit k pd =>
    dsimp only at h
    split at h
    case isFalse => exact absurd h (by simp)
    rename_i hcond
    obtain ⟨s, hs, rfl⟩ := Option.map_eq_some_iff.mp h
    obtain ⟨t, ht, h'⟩ := survivor (alike_destroy pd) (F.twin k) hs
    refine ⟨⟨t, τ.live.erase pd⟩, hone ?_, back h' (by rw [F.live])⟩
    unfold System.step
    dsimp only
    rw [if_pos (F.live ▸ hcond.1)]
    exact Option.map_eq_some_iff.mpr ⟨t, ht, rfl⟩
  | switch k pd =>
    dsimp only at h
    split at h
    case isFalse => exact absurd h (by simp)
    obtain ⟨s, hs, rfl⟩ := Option.map_eq_some_iff.mp h
    obtain ⟨c, m, hm⟩ := F.machine
    refine ⟨τ, rfl, F.live, ?_⟩
    -- a switch is no step of the system, whether CR3 is written or not
    by_cases hsame : (σ.on k).cr3 = pd
    · rw [switchTo_same hsame] at hs
      obtain rfl := Option.some.inj hs
      exact ⟨c, m, hm⟩
    · rw [switchTo_other hsame] at hs
      obtain rfl := Option.some.inj hs
      exact ⟨c, m, hm⟩
  | store k e va f =>
    dsimp only at h
    split at h
    case isFalse => exact absurd h (by simp)
    rename_i hcond
    obtain ⟨he, hpage, hrw⟩ := hcond
    obtain rfl := Option.some.inj h
    obtain ⟨c, m, hm⟩ := F.machine
    have hτ : τ = ⟨{ σ.machine with cr3 := c, tlb := m }, σ.live⟩ := by
      rw [← hm, ← F.live]
    rw [hτ]
    -- the entry is coherent, so the walk lets the store through to the same place
    exact ⟨_, runs_cons.mpr ⟨_, H.stored he hpage hrw f c m, rfl⟩, rfl, c, m, rfl⟩
  | fill k va rw =>
    dsimp only at h
    split at h
    case isFalse => exact absurd h (by simp)
    obtain rfl := Option.some.inj h
    exact ⟨τ, rfl, F.live, F.machine⟩
  | forget k e =>
    obtain rfl := Option.some.inj h
    exact ⟨τ, rfl, F.live, F.machine⟩

end Matched

/-! ## Every reachable state

The three results about TLBs: what is cached is what the directory maps, no page that is cached is
free or shared with a writer, and the caches make no difference. Each is about every run from the
start of the kernel, with any number of cores. -/

section reachable

variable {C : Type} {κ : KernelMap} {a : Word → Word → Prop} {σ : Cores C} {S : Space}

/-- No process has been created, and the TLBs are empty. -/
theorem Coherent.init {c : Config} {σ₀ : System} {n : Nat} (B : Booted c σ₀.machine κ a n) :
    Coherent κ a (Cores.init σ₀ : Cores C) (Space.idle κ) where
  good := @Booted.good c ⟨σ₀.machine, ∅⟩ κ a n B rfl True
  loaded _ := Or.inl rfl
  alone _ _ hl := absurd hl (Finset.notMem_empty _)
  grants _ hl := absurd hl (Finset.notMem_empty _)
  empty _ _ := rfl

theorem Matched.init {c : Config} {σ₀ : System} (h : Started c σ₀) :
    Matched (Cores.init σ₀ : Cores C) σ₀ := by
  obtain ⟨-, -, -, hlive⟩ := h
  exact ⟨hlive, σ₀.machine.cr3, σ₀.machine.tlb, rfl⟩

/-- Nobody else has the page that an entry writes to. -/
theorem Coherent.only (H : Coherent κ a σ S) {k k' : C} {e e' : TlbEntry} (he : e ∈ σ.tlb k)
    (hrw : e.rw = true) (he' : e' ∈ σ.tlb k') (hframe : e'.frame = e.frame) :
    k' = k ∧ e'.page = e.page := by
  have hl := H.live_of_mem he
  have hl' := H.live_of_mem he'
  have g := H.grants k hl e he
  have g' := H.grants k' hl' e' he'
  have hd := H.mem_dirs.mpr hl
  have hd' := H.mem_dirs.mpr hl'
  have Hs := H.good.sound.shape
  obtain ⟨hwd, hwp⟩ := g.rw hrw
  have hpd := Shape.priv_of_pte g.page
  have hpd' := Shape.priv_of_pte g'.page
  have E := Hs.dirEntry _ hd _ (pdi_lt e.page)
  have E' := Hs.dirEntry _ hd' _ (pdi_lt e'.page)
  have T := Hs.pteEntry hd (pdi_lt e.page) (pti_lt e.page)
  have hone := T.single g.page hwp
  have hpp := g.page
  have hpp' := g'.page
  have hff : frame (S.pte κ (σ.cr3 k') (pdi e'.page) (pti e'.page)) =
      frame (S.pte κ (σ.cr3 k) (pdi e.page) (pti e.page)) := by
    rw [g.frame, g'.frame, hframe]
  rw [Space.pte_of_priv hpd] at hone hpp hff
  rw [Space.pte_of_priv hpd'] at hpp' hff
  -- one entry of one table names the page, and one entry of one directory that table
  obtain ⟨ht, hj⟩ := Space.only (Space.mem_nodes.mpr (Or.inr (E.table hpd))) (pti_lt _) hpp hone
    (Space.mem_nodes.mpr (Or.inr (E'.table hpd'))) (pti_lt _) hpp' hff
  obtain ⟨hdd, hi⟩ := Space.only (Space.mem_nodes.mpr (Or.inl hd)) (pdi_lt _) hpd
    (E.single hpd hwd) (Space.mem_nodes.mpr (Or.inl hd')) (pdi_lt _) hpd' ht
  refine ⟨H.alone k k' hl hdd, ?_⟩
  rw [← pageAt_of_aligned g.aligned, ← pageAt_of_aligned g'.aligned, hi, hj]

variable [DecidableEq C] [Fintype C]

theorem Started.cores {c : Config} {σ₀ : System} (h : Started c σ₀) {acts : List (CoreOp C)}
    (hr : runs Cores.step (Cores.init σ₀) acts = some σ) : ∃ κ a S, Coherent κ a σ S := by
  obtain ⟨κ, a, n, B, -⟩ := h.good
  have hok : RunOk Cores.step (fun _ _ => True) (Cores.init σ₀ : Cores C) acts :=
    RunOk.of_forall (fun _ _ => trivial) acts _
  obtain ⟨S, H⟩ := runs_inv (fun σ => ∃ S, Coherent κ a σ S)
    (fun _ _ _ ⟨_, H⟩ _ hs => H.step hs) ⟨_, Coherent.init B⟩ hok hr
  exact ⟨κ, a, S, H⟩

/-- Run on the cores and run where nothing is cached, the operations do the same. -/
theorem Matched.run {acts : List (CoreOp C)} : ∀ {σ σ' : Cores C} {τ : System} {S : Space},
    Matched σ τ → Coherent κ a σ S → runs Cores.step σ acts = some σ' →
      ∃ τ', runs System.step τ (σ.ops acts) = some τ' ∧ Matched σ' τ' := by
  induction acts with
  | nil =>
    intro σ σ' τ S F _ hr
    obtain rfl := Option.some.inj hr
    exact ⟨τ, rfl, F⟩
  | cons act acts ih =>
    intro σ σ' τ S F H hr
    obtain ⟨σ₁, hs, hr⟩ := runs_cons.mp hr
    obtain ⟨τ₁, hτ, F₁⟩ := F.step H hs
    obtain ⟨S₁, H₁⟩ := H.step hs
    obtain ⟨τ', hτ', F'⟩ := ih F₁ H₁ hr
    refine ⟨τ', ?_, F'⟩
    unfold Cores.ops
    rw [hs]
    show runs System.step τ ((σ.op act).toList ++ σ₁.ops acts) = some τ'
    rw [runs_append, hτ]
    exact hτ'

/-- On the first of two cores a process is created, gets the core and writes to its first page, and
the processor caches that. -/
theorem small_caches : ∃ σ₀ d, ∃ σ : Cores (Fin 2), ∃ e, Started .small σ₀ ∧
    runs Cores.step (Cores.init σ₀ : Cores (Fin 2)) [.create 0, .switch 0 d,
      .fault 0 0x80000000#32 0x6#32, .fill 0 0x80000000#32 true] = some σ ∧ e ∈ σ.tlb 0 := by
  obtain ⟨σ₀, κ, a, h, hlive, B⟩ := small_starts
  have H₀ : Coherent κ a (Cores.init σ₀ : Cores (Fin 2)) (Space.idle κ) := Coherent.init B
  -- `create`
  have hsound₀ : Sound κ True ((Cores.init σ₀ : Cores (Fin 2)).on 0) (Space.idle κ) 504 a :=
    B.sound.regs _ _
  obtain ⟨d, s₁, hr₁, S₁, h₁, hA₁, N, -, hpte⟩ := wp_returns (wp_mono
    (hsound₀.copyKpd_spec (H₀.on 0).2) (fun _ _ h => h) fun _ _ he => by
      have := he.2
      omega)
  have hdk : d ≠ σ₀.machine.kpd := by
    rintro rfl
    refine hsound₀.shape.not_kernel_of_free N.fresh ?_
    rw [B.sound.kernel.kpd]
    exact Finset.mem_union_left _ κ.kpdRaw
  let σ₁ : Cores (Fin 2) := (Cores.init σ₀).back 0 s₁ {d}
  have hs₁ : Cores.step (Cores.init σ₀ : Cores (Fin 2)) (.create 0) = some σ₁ := by
    unfold Cores.step newProcess
    dsimp only
    rw [hr₁]
    rfl
  -- `switch`
  have hcr3 : σ₁.cr3 = fun _ => σ₀.machine.kpd := by
    show Function.update (fun _ => σ₀.machine.kpd) 0 s₁.cr3 = _
    rw [N.kept.regs.cr3]
    exact Function.update_eq_self 0 _
  let s₂ : Machine := { s₁ with cr3 := d, tlb := [] }
  let σ₂ : Cores (Fin 2) := σ₁.back 0 s₂ {d}
  have hs₂ : Cores.step σ₁ (.switch 0 d) = some σ₂ := by
    have hcond : d = σ₁.machine.kpd ∨ d ∈ σ₁.live ∧ ∀ k', k' ≠ 0 → σ₁.cr3 k' ≠ d :=
      Or.inr ⟨Finset.mem_singleton_self d, fun k' _ => by
        rw [hcr3]
        exact hdk.symm⟩
    have hne : (σ₁.on 0).cr3 ≠ d := by
      show σ₁.cr3 0 ≠ d
      rw [hcr3]
      exact hdk.symm
    unfold Cores.step
    dsimp only
    rw [if_pos hcond, switchTo_other hne]
    rfl
  -- `fault`
  have hon : σ₂.on 0 = s₂ := by
    show { s₂ with cr3 := Function.update σ₁.cr3 0 d 0, tlb := Function.update σ₁.tlb 0 [] 0 } = s₂
    rw [Function.update_self, Function.update_self]
  have hd₁ : d ∈ S₁.dirs := by
    rw [N.dirs]
    exact Finset.mem_insert_self d _
  have hκ : κ.pte (pdi 0x80000000#32) (pti 0x80000000#32) = 0#32 :=
    B.none _ _ (pdi_lt _) (pti_lt _) fun hm => small_not_kernel ((Config.maps_iff h.1 _).mp hm)
  obtain ⟨_, s₃, hr₃, -, -, S₃, h₃, hA₃, M⟩ := wp_returns (wp_mono
    ((h₁.regs d []).pageFault_spec hA₁ hd₁ 0x80000000#32 0x6#32 fun _ _ _ => hκ)
    (fun _ _ h => h) fun e s' he => by
      obtain (⟨-, hlt⟩ | ⟨-, j, hj, hp⟩) | ⟨-, ⟨hR, -⟩ | ⟨-, K⟩⟩ := he
      · omega
      · rw [hpte, κ.pte_priv] at hp
        exact absurd hp (by simp)
      · exact absurd hR (by unfold Refused; decide)
      · exact absurd K.code (by decide))
  let σ₃ : Cores (Fin 2) := σ₂.back 0 s₃ {d}
  have hs₃ : Cores.step σ₂ (.fault 0 0x80000000#32 0x6#32) = some σ₃ := by
    have hcr3₂ : σ₂.cr3 0 = d := by
      show Function.update σ₁.cr3 0 d 0 = d
      rw [Function.update_self]
    have hcond : σ₂.cr3 0 ∈ σ₂.live ∧ (0x6#32 &&& 0x1#32 = 0#32 →
        present (σ₂.machine.walk (σ₂.cr3 0) 0x80000000#32) = false) := by
      rw [hcr3₂]
      refine ⟨Finset.mem_singleton_self d, fun _ => ?_⟩
      have hwalk : σ₂.machine.walk d 0x80000000#32 = _ := h₁.walk hA₁ hd₁ 0x80000000#32
      rw [hwalk, hpte, hκ]
      rfl
    unfold Cores.step
    dsimp only
    rw [if_pos hcond, hon, hr₃]
    rfl
  -- `fill`
  have hcr3₃ : σ₃.cr3 0 = d := by
    show Function.update σ₂.cr3 0 s₃.cr3 0 = d
    rw [Function.update_self]
    exact M.regs.cr3
  have hd₃ : d ∈ S₃.dirs := by
    rw [M.dirs]
    exact hd₁
  have hall : σ₃.machine.allows (σ₃.cr3 0) 0x80000000#32 true true = true := by
    rw [hcr3₃]
    exact (h₃.allows_user hA₃ hd₃).mpr ⟨M.page, fun _ => ⟨M.isWritable, M.pageWritable⟩⟩
  let e : TlbEntry := ⟨0x80000000#32 &&& Flag.MASK,
    frame (σ₃.machine.walk (σ₃.cr3 0) 0x80000000#32), true⟩
  let σ₄ : Cores (Fin 2) :=
    ⟨σ₃.machine, σ₃.live, σ₃.cr3, Function.update σ₃.tlb 0 (e :: σ₃.tlb 0)⟩
  have hs₄ : Cores.step σ₃ (.fill 0 0x80000000#32 true) = some σ₄ := if_pos hall
  refine ⟨σ₀, d, σ₄, e, h, runs_cons.mpr ⟨σ₁, hs₁, runs_cons.mpr ⟨σ₂, hs₂, runs_cons.mpr
    ⟨σ₃, hs₃, runs_cons.mpr ⟨σ₄, hs₄, rfl⟩⟩⟩⟩, ?_⟩
  show e ∈ Function.update σ₃.tlb 0 (e :: σ₃.tlb 0) 0
  rw [Function.update_self]
  exact List.mem_cons_self

/-- In every state that the cores can reach, each entry of each TLB names the frame that the
directory loaded on that core gives the page, and promises no more than it grants. -/
theorem tlb_coherent {c : Config} {σ₀ : System} (h : Started c σ₀) {acts : List (CoreOp C)}
    (hr : runs Cores.step (Cores.init σ₀) acts = some σ) {k : C} {e : TlbEntry} (he : e ∈ σ.tlb k) :
    σ.machine.allows (σ.cr3 k) e.page true e.rw = true ∧
      frame (σ.machine.walk (σ.cr3 k) e.page) = e.frame := by
  obtain ⟨κ, a, S, H⟩ := h.cores hr
  have hl := H.live_of_mem he
  have g := H.grants k hl e he
  exact (Grants.iff H.good.sound H.good.agrees (H.mem_dirs.mpr hl) g.aligned).mp g

theorem tlb_coherent_small : ∃ σ₀ d, ∃ σ : Cores (Fin 2), ∃ e, Started .small σ₀ ∧
    runs Cores.step (Cores.init σ₀ : Cores (Fin 2)) [.create 0, .switch 0 d,
      .fault 0 0x80000000#32 0x6#32, .fill 0 0x80000000#32 true] = some σ ∧ e ∈ σ.tlb 0 ∧
    σ.machine.allows (σ.cr3 0) e.page true e.rw = true ∧
    frame (σ.machine.walk (σ.cr3 0) e.page) = e.frame := by
  obtain ⟨σ₀, d, σ, e, h, hr, he⟩ := small_caches
  exact ⟨σ₀, d, σ, e, h, hr, he, tlb_coherent h hr he⟩

/-- What a TLB leads to is a page in use: neither free nor about to be handed out, and no directory
or table of a process. A page that one entry writes to is in no other entry of any core. -/
theorem tlb_frames_safe {c : Config} {σ₀ : System} (h : Started c σ₀) {acts : List (CoreOp C)}
    (hr : runs Cores.step (Cores.init σ₀) acts = some σ) {k : C} {e : TlbEntry} (he : e ∈ σ.tlb k) :
    ¬IsFree σ.machine e.frame ∧
    (∀ q s', allocFrame σ.machine = .ok q s' → q ≠ e.frame) ∧
    e.frame ∉ σ.live ∧ e.frame ∉ System.tables ⟨σ.machine, σ.live⟩ ∧
    (e.rw = true → ∀ k', ∀ e' ∈ σ.tlb k', e'.frame = e.frame → k' = k ∧ e'.page = e.page) := by
  obtain ⟨κ, a, S, H⟩ := h.cores hr
  have hl := H.live_of_mem he
  have hd := H.mem_dirs.mpr hl
  have g := H.grants k hl e he
  have hi := pdi_lt e.page
  have hj := pti_lt e.page
  have hheld := H.good.sound.shape.held_pte hd hi hj g.page
  have hnode := (H.good.sound.shape.pteEntry hd hi hj).page g.page
  rw [g.frame] at hheld hnode
  refine ⟨H.good.sound.acc.not_isFree hheld, fun q s' hq => ?_, fun hlive => hnode ?_,
    fun ht => hnode ?_, fun hrw k' e' he' hf => H.only he hrw he' hf⟩
  · obtain ⟨hfree, -⟩ := wp_ok H.good.sound.allocFrame_spec hq
    rintro rfl
    exact hheld hfree
  · exact Space.mem_nodes.mpr (Or.inl (H.mem_dirs.mpr hlive))
  · exact Space.mem_nodes.mpr (Or.inr (H.good.tables_subset ht))

theorem tlb_frames_safe_small : ∃ σ₀ d, ∃ σ : Cores (Fin 2), ∃ e, Started .small σ₀ ∧
    runs Cores.step (Cores.init σ₀ : Cores (Fin 2)) [.create 0, .switch 0 d,
      .fault 0 0x80000000#32 0x6#32, .fill 0 0x80000000#32 true] = some σ ∧ e ∈ σ.tlb 0 ∧
    ¬IsFree σ.machine e.frame ∧ e.frame ∉ σ.live := by
  obtain ⟨σ₀, d, σ, e, h, hr, he⟩ := small_caches
  obtain ⟨hfree, -, hlive, -⟩ := tlb_frames_safe h hr he
  exact ⟨σ₀, d, σ, e, h, hr, he, hfree, hlive⟩

/-- The cores with their TLBs leave memory as the same operations do where nothing is cached. -/
theorem tlb_changes_nothing {c : Config} {σ₀ : System} (h : Started c σ₀) {acts : List (CoreOp C)}
    (hr : runs Cores.step (Cores.init σ₀) acts = some σ) :
    ∃ τ, runs System.step σ₀ ((Cores.init σ₀ : Cores C).ops acts) = some τ ∧ τ.live = σ.live ∧
      τ.machine = { σ.machine with cr3 := τ.machine.cr3, tlb := τ.machine.tlb } := by
  obtain ⟨κ, a, n, B, -⟩ := h.good
  obtain ⟨τ, hτ, F⟩ := (Matched.init h).run (Coherent.init B) hr
  obtain ⟨c, m, hm⟩ := F.machine
  refine ⟨τ, hτ, F.live, ?_⟩
  rw [hm]

theorem tlb_changes_nothing_small : ∃ σ₀ d, ∃ σ : Cores (Fin 2), ∃ τ, Started .small σ₀ ∧
    runs Cores.step (Cores.init σ₀ : Cores (Fin 2)) [.create 0, .switch 0 d,
      .fault 0 0x80000000#32 0x6#32, .fill 0 0x80000000#32 true] = some σ ∧
    runs System.step σ₀ ((Cores.init σ₀ : Cores (Fin 2)).ops [.create 0, .switch 0 d,
      .fault 0 0x80000000#32 0x6#32, .fill 0 0x80000000#32 true]) = some τ ∧
    τ.machine.mem = σ.machine.mem := by
  obtain ⟨σ₀, d, σ, e, h, hr, -⟩ := small_caches
  obtain ⟨τ, hτ, -, hm⟩ := tlb_changes_nothing h hr
  exact ⟨σ₀, d, σ, τ, h, hr, hτ, by rw [hm]⟩

end reachable

end OsKernel.Vmm
