import OsKernel.Lib.Runs
import OsKernel.Vmm.Boot

/-!
# The memory manager at work

A `System` is the machine and the page directories of the processes that are alive. The
operations are the ones the rest of the kernel calls: process creation, fork, the page-fault
handler, exec and exit, each from start to end, in any order, plus the stores of the processes
themselves. An operation in which the kernel panics has no successor; one in which `SYS::exit`
ends the process leaves the state as it was at that moment.

`Good` ties the system to a space, and `Good.step` says once what each operation does to it.
The results about runs are inductions with that lemma in them, and none of them opens an
operation.

## What is more than the kernel does

The runs here are all sequences of these operations, for any live directory and with any
argument: a page fault with an error code that contradicts the tables, an exec of a process
that is not running, a destruction while any other directory is loaded. `Truthful` and
`Accounted` (`Vmm/Leak.lean`) name the restrictions that some results need, as conditions on a
step and the state before it.

## What it does not do

Operations do not overlap. On two cores they can, each for its own process, and meet in the
allocator, which has a lock, and in the counts, which are updated atomically; the
interleavings of those are in `PhysMem/Calls.lean`. A process has one thread (`thread` is
called with a `PCB` for `init` and for the child of a fork, and nowhere else), so nobody
changes the tables of a process while a call of that process does.

Every access is translated by a walk through the tables as they are. That a cached translation
makes no difference is the subject of `Vmm/Cores.lean` and `Vmm/Tlb.lean`, where these runs
are the reference.
-/

set_option autoImplicit false

namespace OsKernel

open Lib Vmm

/-- The entry that translates `va` under the directory `pd`; zero where there is no table. -/
def Machine.walk (s : Machine) (pd va : Word) : Word :=
  let pde := s.mem pd (pdi va)
  if present pde then s.mem (frame pde) (pti va) else 0#32

/-- May the process with directory `pd` access `va`? Both levels must allow it: always for
presence, in user mode for `US`, and for a write, also in the kernel (CR0.WP), for `RW`. -/
def Machine.allows (s : Machine) (pd va : Word) (user write : Bool) : Bool :=
  let pde := s.mem pd (pdi va)
  let pte := s.walk pd va
  present pde && present pte && (!user || (Vmm.user pde && Vmm.user pte)) &&
    (!write || (writable pde && writable pte))

namespace Vmm

open Lib.Prog K PhysMem

structure System where
  machine : Machine
  live : Finset Word

/-- The index of the word that `va` lies in, in its page. -/
def wordOf (va : Word) : Nat := (va >>> 2 &&& 0x3ff#32).toNat

inductive Op
  /-- `Process::Process`. -/
  | create
  /-- `Process::clone`, in the process with directory `pd`. -/
  | fork (pd : Word)
  /-- `vmm_pageFault`, in the process with directory `pd`. -/
  | fault (pd va error_code : Word)
  /-- `Process::reset`. -/
  | exec (pd : Word) (discard : Nat → Bool)
  /-- `Process::~Process`, while `cr3` is loaded. -/
  | exit (pd cr3 : Word)
  /-- A store of the process itself, of all or part of a word; `f` is the new value. -/
  | store (pd va : Word) (f : Word → Word)

namespace System

/-- The machine after an operation, unless the kernel panicked in it. -/
def survivor {α : Type} : EStateM.Result Stop Machine α → Option Machine
  | .ok _ s => some s
  | .error (.exit _) s => some s
  | .error _ _ => none

def step (σ : System) : Op → Option System
  | .create =>
    match newProcess σ.machine with
    | .ok pd s => some ⟨s, insert pd σ.live⟩
    | .error _ _ => none
  | .fork pd =>
    if pd ∈ σ.live then
      match (do setCR3 pd; clone pd) σ.machine with
      | .ok pd' s => some ⟨s, insert pd' σ.live⟩
      | .error _ _ => none
    else none
  | .fault pd va error_code =>
    if pd ∈ σ.live then
      (survivor ((do setCR3 pd; pageFault va error_code) σ.machine)).map fun s => ⟨s, σ.live⟩
    else none
  | .exec pd discard =>
    if pd ∈ σ.live then
      (survivor ((do setCR3 pd; reset discard pd) σ.machine)).map fun s => ⟨s, σ.live⟩
    else none
  | .exit pd cr3 =>
    if pd ∈ σ.live then
      (survivor ((do setCR3 cr3; destroy pd) σ.machine)).map fun s => ⟨s, σ.live.erase pd⟩
    else none
  | .store pd va f =>
    if pd ∈ σ.live ∧ σ.machine.allows pd va true true = true then
      let p := frame (σ.machine.walk pd va)
      some ⟨σ.machine.put p (wordOf va) (f (σ.machine.mem p (wordOf va))), σ.live⟩
    else none

theorem live_of_fork {σ σ' : System} {pd : Word} (h : σ.step (.fork pd) = some σ') :
    pd ∈ σ.live := by
  unfold step at h
  dsimp only at h
  split at h
  · assumption
  · exact absurd h (by simp)

theorem live_of_fault {σ σ' : System} {pd va error_code : Word}
    (h : σ.step (.fault pd va error_code) = some σ') : pd ∈ σ.live := by
  unfold step at h
  dsimp only at h
  split at h
  · assumption
  · exact absurd h (by simp)

end System

/-- The system right after the kernel has started. -/
def Started (c : Config) (σ : System) : Prop :=
  c.Valid ∧ ∃ m, boot c m = .ok () σ.machine ∧ σ.live = ∅

/-! ## The invariant -/

structure Good (κ : KernelMap) (b : Prop) (a : Word → Word → Prop) (σ : System) (S : Space) :
    Prop where
  sound : Sound κ b σ.machine S 0 a
  agrees : Agrees σ.machine S
  dirs : S.dirs = σ.live
  dying : S.dying = ∅

/-- The error code does not deny a page of the kernel. -/
def Truthful (σ : System) : Op → Prop
  | .fault _ va error_code => 0x80000000#32 ≤ va → error_code &&& 0x1#32 = 0#32 →
    present (σ.machine.walk σ.machine.kpd va) = false
  | _ => True

variable {κ : KernelMap} {b : Prop} {a : Word → Word → Prop} {s : Machine} {S : Space} {n : Nat}
  {σ σ' : System}

/-- The hardware finds the entry that the space shows. -/
theorem Sound.walk (h : Sound κ b s S n a) (hA : Agrees s S) {d : Word} (hd : d ∈ S.dirs)
    (va : Word) : s.walk d va = S.pte κ d (pdi va) (pti va) := by
  have hi := pdi_lt va
  have E := h.shape.dirEntry d hd _ hi
  unfold Machine.walk
  dsimp only
  rw [hA d (Space.mem_nodes.mpr (Or.inl hd)) _ hi]
  by_cases hp : priv (S.ent d (pdi va)) = true
  · rw [if_pos (present_of_priv hp), Space.pte_of_priv hp,
      hA _ (Space.mem_nodes.mpr (Or.inr (E.table hp))) _ (pti_lt va)]
  · have hnp : priv (S.ent d (pdi va)) = false := by simpa using hp
    rw [Space.pte_of_not_priv hnp, E.kernel hnp]
    by_cases hne : κ.pde (pdi va) = 0#32
    · rw [if_neg (by rw [hne]; decide), κ.noTable _ _ hne]
    · rw [if_pos (KernelMap.pde_present_iff.mpr hne), h.kernel.pte _ _ hi (pti_lt va) hne]

/-- The same for the kernel's own directory. -/
theorem Sound.walk_kpd (h : Sound κ b s S n a) (va : Word) :
    s.walk s.kpd va = κ.pte (pdi va) (pti va) := by
  have hi := pdi_lt va
  unfold Machine.walk
  dsimp only
  rw [h.kernel.kpd, h.kernel.pde _ hi]
  by_cases hne : κ.pde (pdi va) = 0#32
  · rw [if_neg (by rw [hne]; decide), κ.noTable _ _ hne]
  · rw [if_pos (KernelMap.pde_present_iff.mpr hne), h.kernel.pte _ _ hi (pti_lt va) hne]

/-! ## One step

Each operation keeps the invariant, and says what it has done to the space (`Effect`). The second
half is there for the results that compare the state before with the state after: which frames
come and go, what a fault adds, that a store changes one page. -/

/-- What an operation does, told in terms of the space. -/
def Effect (κ : KernelMap) (b : Prop) (a : Word → Word → Prop) (s : Machine) (S : Space) :
    Op → Machine → Space → Prop
  | .create, s', S' => ∃ d', Born κ s S d' s' S' ∧ (∀ k l, S'.pte κ d' k l = κ.pte k l)
  | .fork d, s', S' => ∃ d', Forked κ { s with cr3 := d, tlb := [] } S d d' s' S'
  | .fault d va error_code, s', S' =>
    (¬ Refused va error_code ∧ (error_code &&& 0x3#32 = 0x3#32 →
        present (S.pte κ d (pdi va) (pti va)) = true →
        writable (S.pte κ d (pdi va) (pti va)) = false) ∧
      Mapped κ (error_code &&& 0x3#32 = 0x3#32 ∨ priv (S.pte κ d (pdi va) (pti va)) = false)
        { s with cr3 := d, tlb := [] } S d (pdi va) (pti va) s' S') ∨
    (Refused va error_code ∧ s' = { s with cr3 := d, tlb := [] } ∧ S' = S) ∨
    (¬ Refused va error_code ∧ error_code &&& 0x3#32 = 0x3#32 ∧
      present (S.pte κ d (pdi va) (pti va)) = true ∧
      writable (S.pte κ d (pdi va) (pti va)) = true ∧
      ∃ p, Prepared κ { s with cr3 := d, tlb := [] } S d (pdi va) p s' S')
  | .exec d _, s', S' => Clearing κ b 0 a { s with cr3 := d, tlb := [] } S d 1024 s' S'
  | .exit d cr3, s', S' => Destroyed κ { s with cr3 := cr3, tlb := [] } S d s' S'
  | .store d va f, s', S' => S' = S ∧ priv (S.pte κ d (pdi va) (pti va)) = true ∧
      writable (S.ent d (pdi va)) = true ∧ writable (S.pte κ d (pdi va) (pti va)) = true ∧
      s' = s.put (frame (S.pte κ d (pdi va) (pti va))) (wordOf va)
        (f (s.mem (frame (S.pte κ d (pdi va) (pti va))) (wordOf va)))

theorem survivor_cases {α : Type} {x : K α} {Q : α → Machine → Prop} {E : Stop → Machine → Prop}
    {s' : Machine} (h : wp x Q E s) (hx : System.survivor (x s) = some s') :
    (∃ v, Q v s') ∨ ∃ status, E (.exit status) s' := by
  unfold wp at h
  cases hr : x s with
  | ok v t =>
    rw [hr] at h hx
    obtain rfl := Option.some.inj hx
    exact Or.inl ⟨v, h⟩
  | error e t =>
    rw [hr] at h hx
    cases e with
    | exit status =>
      obtain rfl := Option.some.inj hx
      exact Or.inr ⟨status, h⟩
    | _ => exact absurd hx (by simp [System.survivor])

namespace Good

variable {S' : Space} {d : Word}

theorem loaded (G : Good κ b a σ S) (cr3 : Word) :
    Sound κ b { σ.machine with cr3 := cr3, tlb := [] } S 0 a ∧
      Agrees { σ.machine with cr3 := cr3, tlb := [] } S :=
  ⟨G.sound.regs cr3 [], G.agrees⟩

theorem truthful (G : Good κ b a σ S) {va error_code : Word}
    (hok : b → Truthful σ (.fault d va error_code)) (hb : b) (hva : 0x80000000#32 ≤ va)
    (h0 : error_code &&& 0x1#32 = 0#32) : κ.pte (pdi va) (pti va) = 0#32 := by
  have h := hok hb hva h0
  rw [G.sound.walk_kpd] at h
  by_contra hne
  rw [KernelMap.pte_present_iff.mpr hne] at h
  exact absurd h (by simp)

theorem create (G : Good κ b a σ S) (h : σ.step .create = some σ') :
    ∃ S', Good κ b a σ' S' ∧ Effect κ b a σ.machine S .create σ'.machine S' := by
  have hspec := G.sound.copyKpd_spec G.agrees
  unfold System.step newProcess at h
  dsimp only at h
  cases hr : copyKpd σ.machine with
  | error e t => rw [hr] at h; exact absurd h (by simp)
  | ok d' s' =>
    rw [hr] at h
    obtain rfl := Option.some.inj h
    obtain ⟨S', h', hA', B, -, hpte⟩ := wp_ok hspec hr
    exact ⟨S', ⟨h', hA', by rw [B.dirs, G.dirs], B.dying.trans G.dying⟩, d', B, hpte⟩

theorem fork (G : Good κ b a σ S) (h : σ.step (.fork d) = some σ') :
    ∃ S', Good κ b a σ' S' ∧ Effect κ b a σ.machine S (.fork d) σ'.machine S' := by
  unfold System.step at h
  dsimp only at h
  split at h
  · rename_i hd
    obtain ⟨h₁, hA₁⟩ := G.loaded d
    have hspec := h₁.clone_spec hA₁ (by rw [G.dirs]; exact hd) rfl
    cases hr : (do setCR3 d; clone d : K Word) σ.machine with
    | error e t => rw [hr] at h; exact absurd h (by simp)
    | ok d' s' =>
      rw [hr] at h
      obtain rfl := Option.some.inj h
      obtain ⟨S', h', hA', F⟩ := wp_ok hspec hr
      exact ⟨S', ⟨h', hA', by rw [F.dirs, G.dirs], F.dying.trans G.dying⟩, d', F⟩
  · exact absurd h (by simp)

theorem fault (G : Good κ b a σ S) {va error_code : Word}
    (hok : b → Truthful σ (.fault d va error_code))
    (h : σ.step (.fault d va error_code) = some σ') :
    ∃ S', Good κ b a σ' S' ∧ Effect κ b a σ.machine S (.fault d va error_code) σ'.machine S' := by
  unfold System.step at h
  dsimp only at h
  split at h
  · rename_i hd
    obtain ⟨h₁, hA₁⟩ := G.loaded d
    have hdS : d ∈ S.dirs := by rw [G.dirs]; exact hd
    have hspec := h₁.pageFault_spec hA₁ hdS va error_code (G.truthful hok)
    obtain ⟨s', hs', rfl⟩ := Option.map_eq_some_iff.mp h
    obtain ⟨_, hR, hro, S', h', hA', M⟩ | ⟨_, hN | ⟨-, ⟨hR, hs⟩ | ⟨hR, C⟩⟩⟩ := survivor_cases hspec hs'
    · exact ⟨S', ⟨h', hA', M.dirs.trans G.dirs, M.dying.trans G.dying⟩, Or.inl ⟨hR, hro, M⟩⟩
    · exact hN.elim (fun h => absurd h.1 (by simp)) fun h => absurd h.1 (by simp)
    · subst hs
      exact ⟨S, ⟨h₁, hA₁, G.dirs, G.dying⟩, Or.inr (Or.inl ⟨hR, rfl, rfl⟩)⟩
    · obtain ⟨p, S', h', hA', P⟩ := C.left
      exact ⟨S', ⟨h', hA', P.dirs.trans G.dirs, P.dying.trans G.dying⟩,
        Or.inr (Or.inr ⟨hR, C.code, C.present, C.writable, p, P⟩)⟩
  · exact absurd h (by simp)

theorem exec (G : Good κ b a σ S) {discard : Nat → Bool}
    (h : σ.step (.exec d discard) = some σ') :
    ∃ S', Good κ b a σ' S' ∧ Effect κ b a σ.machine S (.exec d discard) σ'.machine S' := by
  unfold System.step at h
  dsimp only at h
  split at h
  · rename_i hd
    obtain ⟨h₁, hA₁⟩ := G.loaded d
    have hspec := h₁.clearPd_spec hA₁ (by rw [G.dirs]; exact hd) discard
    obtain ⟨s', hs', rfl⟩ := Option.map_eq_some_iff.mp h
    obtain ⟨_, -, S', C⟩ | ⟨_, he, -⟩ := survivor_cases hspec hs'
    · exact ⟨S', ⟨C.sound, C.agrees, C.dirs.trans G.dirs, C.dying.trans G.dying⟩, C⟩
    · exact absurd he (by simp)
  · exact absurd h (by simp)

theorem exit (G : Good κ b a σ S) {cr3 : Word} (h : σ.step (.exit d cr3) = some σ') :
    ∃ S', Good κ b a σ' S' ∧ Effect κ b a σ.machine S (.exit d cr3) σ'.machine S' := by
  unfold System.step at h
  dsimp only at h
  split at h
  · rename_i hd
    obtain ⟨h₁, hA₁⟩ := G.loaded cr3
    have hdS : d ∈ S.dirs := by rw [G.dirs]; exact hd
    obtain ⟨s', hs', rfl⟩ := Option.map_eq_some_iff.mp h
    -- both assertions hold, or there would be no next state
    have hspec : wp (do setCR3 cr3; destroy d : K Unit)
        (fun _ s' => ∃ S', Sound κ b s' S' 0 a ∧ Agrees s' S' ∧
          Destroyed κ { σ.machine with cr3 := cr3, tlb := [] } S d s' S')
        (fun e _ => e = .assertion) σ.machine := by
      unfold destroy
      simp only [wp_bind, wp_setCR3, wp_get, wp_assert]
      split
      · by_cases hc : cr3 = d
        · unfold destroyPd
          simp only [wp_bind, wp_getCR3, wp_assert]
          rw [if_neg (not_not.mpr hc.symm)]
          trivial
        · exact wp_mono (h₁.destroyPd_spec hA₁ hdS hc) (fun _ _ h => h) (fun _ _ he => he.elim)
      · trivial
    obtain ⟨_, S', h', hA', D⟩ | ⟨_, he⟩ := survivor_cases hspec hs'
    · exact ⟨S', ⟨h', hA', by rw [D.dirs, G.dirs], D.dying.trans G.dying⟩, D⟩
    · exact absurd he (by simp)
  · exact absurd h (by simp)

theorem store (G : Good κ b a σ S) {va : Word} {f : Word → Word}
    (h : σ.step (.store d va f) = some σ') :
    ∃ S', Good κ b a σ' S' ∧ Effect κ b a σ.machine S (.store d va f) σ'.machine S' := by
  unfold System.step at h
  dsimp only at h
  split at h
  · rename_i hd
    obtain ⟨hd, hall⟩ := hd
    obtain rfl := Option.some.inj h
    have hdS : d ∈ S.dirs := by rw [G.dirs]; exact hd
    have hi := pdi_lt va
    have hj := pti_lt va
    have hwalk := G.sound.walk G.agrees hdS va
    have hpde := G.agrees d (Space.mem_nodes.mpr (Or.inl hdS)) _ hi
    have T := G.sound.shape.pteEntry hdS hi hj
    unfold Machine.allows at hall
    rw [hwalk, hpde] at hall
    simp only [Bool.not_true, Bool.false_or, Bool.and_eq_true] at hall
    obtain ⟨⟨⟨-, hP⟩, -, hu⟩, hwd, hwp⟩ := hall
    -- the user bit says that the page is the process's own
    have hp : priv (S.pte κ d (pdi va) (pti va)) = true := by
      by_contra hn
      have := (T.kernelEntry hP (by simpa using hn)).user
      rw [hu] at this
      exact absurd this (by simp)
    have hheld := G.sound.shape.held_pte hdS hi hj hp
    rw [hwalk]
    refine ⟨S, ⟨G.sound.store hheld (T.notKernel hp) _, fun x hx i hi => ?_, G.dirs, G.dying⟩,
      rfl, hp, hwd, hwp, rfl⟩
    have hxp : x ≠ frame (S.pte κ d (pdi va) (pti va)) := by
      rintro rfl
      exact T.page hp hx
    show Function.update σ.machine.mem _ _ x i = _
    rw [Function.update_of_ne hxp]
    exact G.agrees x hx i hi
  · exact absurd h (by simp)

/-- One step of the system. -/
theorem step (G : Good κ b a σ S) {op : Op} (hok : b → Truthful σ op)
    (h : σ.step op = some σ') :
    ∃ S', Good κ b a σ' S' ∧ Effect κ b a σ.machine S op σ'.machine S' := by
  cases op with
  | create => exact G.create h
  | fork d => exact G.fork h
  | fault d va error_code => exact G.fault hok h
  | exec d discard => exact G.exec h
  | exit d cr3 => exact G.exit h
  | store d va f => exact G.store h

end Good

/-! ## What the system can do -/

/-- The invariant does not need the kernel's entries to be untouched. -/
theorem Shape.forget {κ : KernelMap} {b b' : Prop} {S : Space} (H : Shape κ b S) (hb : b' → b) :
    Shape κ b' S :=
  { H with
    dirEntry := fun d hd i hi => { H.dirEntry d hd i hi with
      mixedWritable := fun h => (H.dirEntry d hd i hi).mixedWritable (hb h) }
    tableEntry := fun t ht j hj => { H.tableEntry t ht j hj with
      keeps := fun h => (H.tableEntry t ht j hj).keeps (hb h) } }

theorem Sound.forget {b' : Prop} (h : Sound κ b s S n a) (hb : b' → b) : Sound κ b' s S n a :=
  { h with shape := h.shape.forget hb }

/-- The state the kernel starts in. -/
theorem Booted.good {c : Config} {σ : System} {κ : KernelMap} {a : Word → Word → Prop} {n : Nat}
    (B : Booted c σ.machine κ a n) (hlive : σ.live = ∅) (b : Prop) :
    Good κ b a σ (Space.idle κ) where
  sound := (B.sound.weaken (Nat.zero_le _)).forget fun _ => trivial
  agrees x hx := absurd (Space.mem_nodes.mp hx) (by simp [Space.idle])
  dirs := hlive.symm
  dying := rfl

theorem Started.good {c : Config} {σ : System} (h : Started c σ) :
    ∃ κ a n, Booted c σ.machine κ a n ∧ ∀ b, Good κ b a σ (Space.idle κ) := by
  obtain ⟨hc, m, hboot, hlive⟩ := h
  obtain ⟨κ, a, B⟩ := wp_ok (boot_spec hc m) hboot
  exact ⟨κ, a, _, B, B.good hlive⟩

/-- With frames enough the kernel starts. -/
theorem exists_started {c : Config} (hc : c.Valid) (hroom : c.bootFrames ≤ c.poolFrames) :
    ∃ σ κ a, Started c σ ∧ σ.live = ∅ ∧
      Booted c σ.machine κ a (c.poolFrames - c.bootFrames) := by
  let m : Machine := ⟨fun _ _ => 0#32, 0#32, 0#32, 0#32, 0#32, fun _ => 0#32, 0#32, 0#32, []⟩
  obtain ⟨u, s, hr, κ, a, B⟩ := wp_returns (wp_mono (boot_spec hc m) (fun _ _ h => h) fun _ _ he => by
    have := he.2
    omega)
  exact ⟨⟨s, ∅⟩, κ, a, ⟨hc, m, hr, rfl⟩, rfl, B⟩

namespace Good

variable {d : Word}

/-- A process can be created while there are two frames, one of them for a table of counters. -/
theorem can_create (G : Good κ b a σ S) (h : Sound κ b σ.machine S n a) (hn : 2 ≤ n) :
    ∃ σ' S' d, System.step σ .create = some σ' ∧ σ'.live = insert d σ.live ∧ Good κ b a σ' S' ∧
      Sound κ b σ'.machine S' (n - 2) a ∧ Born κ σ.machine S d σ'.machine S' ∧
      (∀ k, S'.ent d k = κ.pde k) ∧ ∀ k l, S'.pte κ d k l = κ.pte k l := by
  obtain ⟨d, s', hr, S', h', hA', B, hent, hpte⟩ := wp_returns (wp_mono (h.copyKpd_spec G.agrees)
    (fun _ _ h => h) fun _ _ he => by
      have := he.2
      omega)
  refine ⟨⟨s', insert d σ.live⟩, S', d, ?_, rfl,
    ⟨h'.weaken (Nat.zero_le _), hA', by rw [B.dirs, G.dirs], B.dying.trans G.dying⟩, h', B, hent,
    hpte⟩
  unfold System.step newProcess
  dsimp only
  rw [hr]

/-- A fault is handled, or ends the process, while there are four frames, if nothing is shared in
the slot. -/
theorem can_fault (G : Good κ b a σ S) (h : Sound κ b σ.machine S n a) (hn : 4 ≤ n)
    (hd : d ∈ σ.live) (va error_code : Word) (hok : b → Truthful σ (.fault d va error_code))
    (hnone : ∀ j, j < 1024 → priv (S.pte κ d (pdi va) j) = false) :
    ∃ σ', System.step σ (.fault d va error_code) = some σ' ∧ σ'.live = σ.live := by
  have hdS : d ∈ S.dirs := by
    rw [G.dirs]
    exact hd
  have hspec := (h.regs d []).pageFault_spec G.agrees hdS va error_code (G.truthful hok)
  unfold System.step
  dsimp only
  rw [if_pos hd]
  cases hr : (do setCR3 d; pageFault va error_code : K Unit) σ.machine with
  | ok v t => exact ⟨⟨t, σ.live⟩, rfl, rfl⟩
  | error e t =>
    obtain (⟨-, hlt⟩ | ⟨-, j, hj, hp⟩) | ⟨rfl, -⟩ := wp_error hspec hr
    · omega
    · rw [hnone j hj] at hp
      exact absurd hp (by simp)
    · exact ⟨⟨t, σ.live⟩, rfl, rfl⟩

/-- A process can always be destroyed from the kernel's own address space. -/
theorem can_exit (G : Good κ b a σ S) (hd : d ∈ σ.live) :
    ∃ σ' S', System.step σ (.exit d κ.kpd) = some σ' ∧ σ'.live = σ.live.erase d ∧
      Good κ b a σ' S' ∧
      Destroyed κ { σ.machine with cr3 := κ.kpd, tlb := [] } S d σ'.machine S' := by
  have hdS : d ∈ S.dirs := by
    rw [G.dirs]
    exact hd
  have hdk : d ≠ κ.kpd := by
    rintro rfl
    exact G.sound.shape.kernelNodes _ (Space.mem_nodes.mpr (Or.inl hdS))
      (Finset.mem_union_left _ κ.kpdRaw)
  have hspec : wp (do setCR3 κ.kpd; destroy d : K Unit)
      (fun _ s' => ∃ S', Sound κ b s' S' 0 a ∧ Agrees s' S' ∧
        Destroyed κ { σ.machine with cr3 := κ.kpd, tlb := [] } S d s' S')
      (fun _ _ => False) σ.machine := by
    unfold destroy
    simp only [wp_bind, wp_setCR3, wp_get, wp_assert]
    rw [if_pos (by rw [ne_eq, G.sound.kernel.kpd]; exact hdk)]
    exact (G.sound.regs κ.kpd []).destroyPd_spec G.agrees hdS (Ne.symm hdk)
  obtain ⟨u, s', hr, S', h', hA', D⟩ := wp_returns hspec
  refine ⟨⟨s', σ.live.erase d⟩, S', ?_, rfl,
    ⟨h', hA', by rw [D.dirs, G.dirs], D.dying.trans G.dying⟩, D⟩
  unfold System.step
  dsimp only
  rw [if_pos hd, hr]
  rfl

end Good

end Vmm

end OsKernel
