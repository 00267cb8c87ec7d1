import Mathlib.Logic.Function.Basic
import OsKernel.Lib.Runs

/-!
# The interrupt-safe lock

`InterruptSafeLock` of `atomic.h`, one step at a time, on any number of cores. A thread keeps
its core while interrupts are disabled there; a core whose interrupts are enabled may at any
time go on with another thread, and the thread it leaves may come back on another core.

The saved state is a word of the lock and not of the caller. `entry` and the second half of
`held` remember what the state was when `lock()` was called; nothing reads them.

## What has to be shown

`lock()` reads the interrupt flag, disables interrupts, and tries to take the lock; if it
fails it restores and begins again. Whoever gets it writes what he had read into the lock,
after he has it, and `unlock()` reads it before it gives the lock back. So the word belongs to
the holder, and that holders exclude each other is needed before anything can be said about
flags.

Interrupts are disabled between a test and the exchange, so a thread is not taken off its core
while it has a lock: `Fits` says with which flag a thread runs at each place in the code, and
under which locks. A thread that restores too much would be preempted with a lock in its hand.

The results about calls are about `lock()` and `unlock()` from the step that calls to the step
that comes back, with anything that other cores do in between (`Until`). `unlock()` comes back
with the third step of its core. `lock()` may spin, as somebody else may keep the lock; if it
comes back it has it.

## What it does not do

Locks are given back in the opposite order, the last one first, as the guards of the source
do; the flag that an `unlock()` in another order would restore is not the caller's. Code that
is not the lock's may disable interrupts at any time, and enables them only without a lock.
What is done under a lock is nothing here. Memory is one for all cores, without reordering.
-/

set_option autoImplicit false
set_option linter.unusedSectionVars false

namespace OsKernel.Lock

open Lib

/-- Where a thread is in `lock()` or `unlock()`. -/
inductive Pc (L : Type)
  | outside
  /-- about to read the flags -/
  | flags (l : L)
  /-- interrupts were enabled; about to disable them -/
  | cli (l : L)
  /-- about to exchange `taken` -/
  | exchange (l : L) (wasDisabled : Bool)
  /-- has the lock; about to write `was` -/
  | save (l : L) (wasDisabled : Bool)
  /-- has not got the lock; about to restore the interrupts and retry -/
  | retry (l : L) (wasDisabled : Bool)
  /-- in `unlock()`, about to read `was` -/
  | load (l : L)
  /-- about to clear `taken` -/
  | clear (l : L) (wasDisabled : Bool)
  /-- about to restore the interrupts to what they were before the matching `lock()` -/
  | restore (wasDisabled : Bool) (entry : Bool)
deriving DecidableEq

structure State (C T L : Type) where
  /-- the thread a core runs -/
  on : C → T
  /-- threads that no core runs -/
  ready : T → Bool
  /-- the interrupt flag of a core -/
  enabled : C → Bool
  taken : L → Bool
  was : L → Bool
  pc : T → Pc L
  /-- the interrupt flag at the call of `lock()` that is going on -/
  entry : T → Bool
  /-- the locks of a thread, the last one first, with the interrupt flag at the call of `lock()` -/
  held : T → List (L × Bool)

inductive Event (C T L : Type)
  /-- the thread on this core calls `lock()` -/
  | lock (c : C) (l : L)
  /-- it calls `unlock()` on the lock it took last -/
  | unlock (c : C)
  /-- it makes the next step of the call -/
  | go (c : C)
  /-- outside of the lock's code, it disables interrupts -/
  | disable (c : C)
  /-- without a lock, it enables interrupts -/
  | enable (c : C)
  /-- the core goes on with another thread -/
  | switch (c : C) (t : T)

variable {C T L : Type} [DecidableEq C] [DecidableEq T] [DecidableEq L]

namespace State

def setPc (s : State C T L) (t : T) (pc : Pc L) : State C T L :=
  { s with pc := Function.update s.pc t pc }

def setEnabled (s : State C T L) (c : C) (b : Bool) : State C T L :=
  { s with enabled := Function.update s.enabled c b }

def setTaken (s : State C T L) (l : L) (b : Bool) : State C T L :=
  { s with taken := Function.update s.taken l b }

def setWas (s : State C T L) (l : L) (b : Bool) : State C T L :=
  { s with was := Function.update s.was l b }

def setEntry (s : State C T L) (t : T) (b : Bool) : State C T L :=
  { s with entry := Function.update s.entry t b }

def setHeld (s : State C T L) (t : T) (ls : List (L × Bool)) : State C T L :=
  { s with held := Function.update s.held t ls }

/-- `Interrupts::restore(wasDisabled)`. -/
def restore (s : State C T L) (c : C) (wasDisabled : Bool) : State C T L :=
  if wasDisabled then s else s.setEnabled c true

end State

/-- The next step of the call of `lock()` or `unlock()` that is going on on core `c`. -/
def go (s : State C T L) (c : C) : Option (State C T L) :=
  let t := s.on c
  match s.pc t with
  | .outside => none
  | .flags l =>
    some (if s.enabled c then s.setPc t (.cli l) else s.setPc t (.exchange l true))
  | .cli l => some ((s.setEnabled c false).setPc t (.exchange l false))
  | .exchange l wasDisabled =>
    some (if s.taken l then s.setPc t (.retry l wasDisabled)
      else (s.setTaken l true).setPc t (.save l wasDisabled))
  | .save l wasDisabled =>
    some (((s.setWas l wasDisabled).setHeld t ((l, s.entry t) :: s.held t)).setPc t .outside)
  | .retry l wasDisabled => some ((s.restore c wasDisabled).setPc t (.flags l))
  | .load l => some (s.setPc t (.clear l (s.was l)))
  | .clear l wasDisabled =>
    match s.held t with
    | [] => none
    | (_, entry) :: rest =>
      some (((s.setTaken l false).setHeld t rest).setPc t (.restore wasDisabled entry))
  | .restore wasDisabled _ => some ((s.restore c wasDisabled).setPc t .outside)

def step (s : State C T L) : Event C T L → Option (State C T L)
  | .lock c l =>
    if s.pc (s.on c) = .outside then
      some ((s.setEntry (s.on c) (s.enabled c)).setPc (s.on c) (.flags l))
    else none
  | .unlock c =>
    if s.pc (s.on c) = .outside then
      match s.held (s.on c) with
      | [] => none
      | (l, _) :: _ => some (s.setPc (s.on c) (.load l))
    else none
  | .go c => go s c
  | .disable c => if s.pc (s.on c) = .outside then some (s.setEnabled c false) else none
  | .enable c =>
    if s.pc (s.on c) = .outside ∧ s.held (s.on c) = [] then some (s.setEnabled c true) else none
  | .switch c t =>
    if s.enabled c = true ∧ s.ready t = true then
      some { s with
        on := Function.update s.on c t
        ready := Function.update (Function.update s.ready t false) (s.on c) true }
    else none

/-- Every core runs a thread of its own, with interrupts enabled or not; other threads may be
ready. -/
def State.init (on : C → T) (ready : T → Bool) (enabled : C → Bool) : State C T L where
  on := on
  ready := ready
  enabled := enabled
  taken _ := false
  was _ := false
  pc _ := .outside
  entry _ := false
  held _ := []

/-! ## The invariant -/

/-- The thread has the lock: from the exchange to the clearing of `taken`. -/
def Holds (s : State C T L) (t : T) (l : L) : Prop :=
  (∃ wasDisabled, s.pc t = .save l wasDisabled) ∨ ∃ entry, (l, entry) ∈ s.held t

/-- Interrupts were enabled at the first of nested calls at most. -/
def Nested : List (L × Bool) → Prop
  | [] => True
  | (_, entry) :: rest => (rest ≠ [] → entry = false) ∧ Nested rest

/-- A thread, and the interrupt flag it runs with. -/
def Fits (pc : Pc L) (held : List (L × Bool)) (entry enabled : Bool) : Prop :=
  match pc with
  | .outside => held ≠ [] → enabled = false
  | .flags _ => enabled = entry ∧ (held ≠ [] → entry = false)
  | .cli _ => enabled = true ∧ entry = true ∧ held = []
  | .exchange _ wasDisabled | .retry _ wasDisabled =>
    enabled = false ∧ wasDisabled = !entry ∧ (held ≠ [] → entry = false)
  | .save l wasDisabled =>
    enabled = false ∧ wasDisabled = !entry ∧ (held ≠ [] → entry = false) ∧
      ∀ e, (l, e) ∉ held
  | .load l => enabled = false ∧ ∃ e rest, held = (l, e) :: rest
  | .clear l wasDisabled => enabled = false ∧ ∃ e rest, held = (l, e) :: rest ∧ wasDisabled = !e
  | .restore wasDisabled e => enabled = false ∧ wasDisabled = !e ∧ (held ≠ [] → e = false)

/-- A thread that may be taken off its core holds no lock. -/
theorem Fits.free {pc : Pc L} {held : List (L × Bool)} {entry : Bool}
    (h : Fits pc held entry true) : held = [] ∧ ∀ l b, pc ≠ .save l b := by
  cases pc with
  | outside => exact ⟨by_contra fun hne => (by simpa using h hne), by simp⟩
  | flags l => exact ⟨by_contra fun hne => (by simpa [← h.1] using h.2 hne), by simp⟩
  | cli l => exact ⟨h.2.2, by simp⟩
  | exchange l b => exact absurd h.1 (by simp)
  | save l b => exact absurd h.1 (by simp)
  | retry l b => exact absurd h.1 (by simp)
  | load l => exact absurd h.1 (by simp)
  | clear l b => exact absurd h.1 (by simp)
  | restore b e => exact absurd h.1 (by simp)

/-- A thread with a lock runs with interrupts disabled. -/
theorem Fits.disabled {pc : Pc L} {held : List (L × Bool)} {entry enabled : Bool}
    (h : Fits pc held entry enabled) (hh : held ≠ [] ∨ ∃ l b, pc = .save l b) :
    enabled = false := by
  cases henabled : enabled with
  | false => rfl
  | true =>
    subst henabled
    obtain ⟨hnil, hsave⟩ := h.free
    rcases hh with hne | ⟨l, b, hpc⟩
    · exact absurd hnil hne
    · exact absurd hpc (hsave l b)

structure Inv (s : State C T L) : Prop where
  on_inj : Function.Injective s.on
  not_ready : ∀ c, s.ready (s.on c) = false
  running : ∀ c, Fits (s.pc (s.on c)) (s.held (s.on c)) (s.entry (s.on c)) (s.enabled c)
  resting : ∀ t, s.ready t = true → Fits (s.pc t) (s.held t) (s.entry t) true
  /-- threads that are neither on a core nor ready do nothing -/
  absent : ∀ t, s.ready t = false → (∀ c, s.on c ≠ t) → s.held t = [] ∧ s.pc t = .outside
  nested : ∀ t, Nested (s.held t)
  nodup : ∀ t, ((s.held t).map Prod.fst).Nodup
  unique : ∀ {t t' l}, Holds s t l → Holds s t' l → t = t'
  taken : ∀ {t l}, Holds s t l → s.taken l = true
  saved : ∀ {t l e}, (l, e) ∈ s.held t → s.was l = !e

/-! ## One core makes a step

The invariant is about all cores, threads and locks, and a step is one core's. `Acts` is what the
thread on that core may change: its own place, its core's flag, and locks that it has or takes.
With `Inv.of_acts` each step has to be looked at from the side of its thread alone. -/

/-- What the thread on core `c` may do to the rest: nothing, but for locks that it has or takes. -/
structure Acts (s s' : State C T L) (c : C) : Prop where
  on : s'.on = s.on
  ready : s'.ready = s.ready
  enabled : ∀ c', c' ≠ c → s'.enabled c' = s.enabled c'
  pc : ∀ t, t ≠ s.on c → s'.pc t = s.pc t
  entry : ∀ t, t ≠ s.on c → s'.entry t = s.entry t
  held : ∀ t, t ≠ s.on c → s'.held t = s.held t
  fits : Fits (s'.pc (s.on c)) (s'.held (s.on c)) (s'.entry (s.on c)) (s'.enabled c)
  nested : Nested (s'.held (s.on c))
  nodup : ((s'.held (s.on c)).map Prod.fst).Nodup
  takes : ∀ {l}, Holds s' (s.on c) l →
    s'.taken l = true ∧ (Holds s (s.on c) l ∨ s.taken l = false)
  clears : ∀ {l}, s.taken l = true → s'.taken l = false → Holds s (s.on c) l
  saves : ∀ {l e}, (l, e) ∈ s'.held (s.on c) → s'.was l = !e
  writes : ∀ {l}, s'.was l ≠ s.was l → Holds s (s.on c) l

theorem Inv.of_acts {s s' : State C T L} {c : C} (I : Inv s) (A : Acts s s' c) : Inv s' := by
  have hholds : ∀ {t l}, t ≠ s.on c → Holds s' t l → Holds s t l := by
    intro t l ht h
    unfold Holds at h ⊢
    rwa [A.pc t ht, A.held t ht] at h
  have hnot : ∀ {t}, s.ready t = true → t ≠ s.on c := by
    rintro t ht rfl
    rw [I.not_ready c] at ht
    cases ht
  constructor
  · rw [A.on]
    exact I.on_inj
  · intro c'
    rw [A.on, A.ready]
    exact I.not_ready c'
  · intro c'
    rw [A.on]
    by_cases hc : c' = c
    · rw [hc]
      exact A.fits
    · have hne : s.on c' ≠ s.on c := fun h => hc (I.on_inj h)
      rw [A.pc _ hne, A.held _ hne, A.entry _ hne, A.enabled _ hc]
      exact I.running c'
  · intro t ht
    rw [A.ready] at ht
    have hne := hnot ht
    rw [A.pc _ hne, A.held _ hne, A.entry _ hne]
    exact I.resting t ht
  · intro t ht hon
    rw [A.ready] at ht
    rw [A.on] at hon
    have hne : t ≠ s.on c := fun h => hon c h.symm
    rw [A.pc _ hne, A.held _ hne]
    exact I.absent t ht hon
  · intro t
    by_cases ht : t = s.on c
    · rw [ht]
      exact A.nested
    · rw [A.held t ht]
      exact I.nested t
  · intro t
    by_cases ht : t = s.on c
    · rw [ht]
      exact A.nodup
    · rw [A.held t ht]
      exact I.nodup t
  -- two holders: a lock that was taken just now was free, so nobody else held it
  · intro t t' l h h'
    by_cases ht : t = s.on c
    · by_cases ht' : t' = s.on c
      · rw [ht, ht']
      · subst ht
        rcases (A.takes h).2 with hold | hfree
        · exact I.unique hold (hholds ht' h')
        · rw [I.taken (hholds ht' h')] at hfree
          cases hfree
    · by_cases ht' : t' = s.on c
      · subst ht'
        rcases (A.takes h').2 with hold | hfree
        · exact I.unique (hholds ht h) hold
        · rw [I.taken (hholds ht h)] at hfree
          cases hfree
      · exact I.unique (hholds ht h) (hholds ht' h')
  · intro t l h
    by_cases ht : t = s.on c
    · subst ht
      exact (A.takes h).1
    · have hold := hholds ht h
      cases htaken : s'.taken l with
      | true => rfl
      | false => exact absurd (I.unique hold (A.clears (I.taken hold) htaken)) ht
  · intro t l e h
    by_cases ht : t = s.on c
    · subst ht
      exact A.saves h
    · rw [A.held t ht] at h
      by_cases hwas : s'.was l = s.was l
      · rw [hwas]
        exact I.saved h
      · exact absurd (I.unique (.inr ⟨e, h⟩) (A.writes hwas)) ht

/-- A step that leaves the locks alone. -/
theorem Inv.steps {s s' : State C T L} {c : C} (I : Inv s) (hon : s'.on = s.on)
    (hready : s'.ready = s.ready) (henabled : ∀ c', c' ≠ c → s'.enabled c' = s.enabled c')
    (hpc : ∀ t, t ≠ s.on c → s'.pc t = s.pc t) (hentry : ∀ t, t ≠ s.on c → s'.entry t = s.entry t)
    (hheld : s'.held = s.held) (htaken : s'.taken = s.taken) (hwas : s'.was = s.was)
    (hsave : ∀ l b, s'.pc (s.on c) ≠ .save l b)
    (hfits : Fits (s'.pc (s.on c)) (s.held (s.on c)) (s'.entry (s.on c)) (s'.enabled c)) :
    Inv s' := by
  refine I.of_acts (c := c) ⟨hon, hready, henabled, hpc, hentry, fun _ _ => by rw [hheld], ?_, ?_,
    ?_, fun h => ?_, fun h h' => ?_, fun h => ?_, fun h => ?_⟩
  · rw [hheld]
    exact hfits
  · rw [hheld]
    exact I.nested _
  · rw [hheld]
    exact I.nodup _
  · have hold := h.resolve_left fun ⟨b, hb⟩ => hsave _ b hb
    rw [hheld] at hold
    rw [htaken]
    exact ⟨I.taken (.inr hold), .inl (.inr hold)⟩
  · rw [htaken, h] at h'
    cases h'
  · rw [hheld] at h
    rw [hwas]
    exact I.saved h
  · rw [hwas] at h
    exact absurd rfl h

section Setters

variable {s : State C T L} {c : C} {t : T} {l : L} {b : Bool}

@[simp] theorem setPc_self (pc : Pc L) : (s.setPc t pc).pc t = pc := Function.update_self ..

theorem setPc_ne {t' : T} (pc : Pc L) (h : t' ≠ t) : (s.setPc t pc).pc t' = s.pc t' :=
  Function.update_of_ne h ..

@[simp] theorem setEnabled_self : (s.setEnabled c b).enabled c = b := Function.update_self ..

theorem setEnabled_ne {c' : C} (h : c' ≠ c) : (s.setEnabled c b).enabled c' = s.enabled c' :=
  Function.update_of_ne h ..

@[simp] theorem setTaken_self : (s.setTaken l b).taken l = b := Function.update_self ..

theorem setTaken_ne {l' : L} (h : l' ≠ l) : (s.setTaken l b).taken l' = s.taken l' :=
  Function.update_of_ne h ..

@[simp] theorem setWas_self : (s.setWas l b).was l = b := Function.update_self ..

theorem setWas_ne {l' : L} (h : l' ≠ l) : (s.setWas l b).was l' = s.was l' :=
  Function.update_of_ne h ..

@[simp] theorem setHeld_self (ls : List (L × Bool)) : (s.setHeld t ls).held t = ls :=
  Function.update_self ..

theorem setHeld_ne {t' : T} (ls : List (L × Bool)) (h : t' ≠ t) :
    (s.setHeld t ls).held t' = s.held t' := Function.update_of_ne h ..

@[simp] theorem setEntry_self : (s.setEntry t b).entry t = b := Function.update_self ..

theorem setEntry_ne {t' : T} (h : t' ≠ t) : (s.setEntry t b).entry t' = s.entry t' :=
  Function.update_of_ne h ..

@[simp] theorem restore_on : (s.restore c b).on = s.on := by cases b <;> rfl
@[simp] theorem restore_ready : (s.restore c b).ready = s.ready := by cases b <;> rfl
@[simp] theorem restore_pc : (s.restore c b).pc = s.pc := by cases b <;> rfl
@[simp] theorem restore_entry : (s.restore c b).entry = s.entry := by cases b <;> rfl
@[simp] theorem restore_held : (s.restore c b).held = s.held := by cases b <;> rfl
@[simp] theorem restore_taken : (s.restore c b).taken = s.taken := by cases b <;> rfl
@[simp] theorem restore_was : (s.restore c b).was = s.was := by cases b <;> rfl

theorem restore_ne {c' : C} (h : c' ≠ c) : (s.restore c b).enabled c' = s.enabled c' := by
  cases b with
  | false => exact setEnabled_ne h
  | true => rfl

/-- From disabled interrupts, the state that was saved comes back. -/
theorem restore_self (h : s.enabled c = false) : (s.restore c b).enabled c = !b := by
  cases b with
  | false => exact setEnabled_self
  | true => exact h

end Setters

/-! ## The steps

One lemma for each of the events, in the order of the code: those of `lock()`, with the way back
of a failed exchange, and those of `unlock()`. The saved state is in the lock and not with the
caller; what makes this right is that only the holder writes it, after the exchange, and that the
holder reads it before it gives the lock up. -/

section Steps

variable {s s' : State C T L} {c : C}

theorem Inv.lock {l : L} (I : Inv s) (hpc : s.pc (s.on c) = .outside) :
    Inv ((s.setEntry (s.on c) (s.enabled c)).setPc (s.on c) (.flags l)) := by
  have hfits := I.running c
  rw [hpc] at hfits
  refine I.steps (c := c) rfl rfl (fun _ _ => rfl) (fun t ht => setPc_ne _ ht)
    (fun t ht => setEntry_ne ht) rfl rfl rfl (by simp) ?_
  rw [setPc_self]
  exact ⟨setEntry_self.symm, fun hne => setEntry_self.trans (hfits hne)⟩

theorem Inv.unlock {l : L} {e : Bool} {rest : List (L × Bool)} (I : Inv s)
    (hpc : s.pc (s.on c) = .outside) (hheld : s.held (s.on c) = (l, e) :: rest) :
    Inv (s.setPc (s.on c) (.load l)) := by
  have hfits := I.running c
  rw [hpc] at hfits
  refine I.steps (c := c) rfl rfl (fun _ _ => rfl) (fun t ht => setPc_ne _ ht)
    (fun _ _ => rfl) rfl rfl rfl (by simp) ?_
  rw [setPc_self]
  exact ⟨hfits (by simp [hheld]), e, rest, hheld⟩

theorem Inv.disable (I : Inv s) (hpc : s.pc (s.on c) = .outside) : Inv (s.setEnabled c false) := by
  refine I.steps (c := c) rfl rfl (fun _ h => setEnabled_ne h) (fun _ _ => rfl) (fun _ _ => rfl)
    rfl rfl rfl (fun l b => ?_) ?_
  · show s.pc (s.on c) ≠ _
    simp [hpc]
  · show Fits (s.pc (s.on c)) _ _ _
    rw [hpc]
    exact fun _ => setEnabled_self

theorem Inv.enable (I : Inv s) (hpc : s.pc (s.on c) = .outside) (hheld : s.held (s.on c) = []) :
    Inv (s.setEnabled c true) := by
  refine I.steps (c := c) rfl rfl (fun _ h => setEnabled_ne h) (fun _ _ => rfl) (fun _ _ => rfl)
    rfl rfl rfl (fun l b => ?_) ?_
  · show s.pc (s.on c) ≠ _
    simp [hpc]
  · show Fits (s.pc (s.on c)) _ _ _
    rw [hpc]
    exact fun hne => absurd hheld hne

/-- Interrupts are enabled, so the thread that goes and the thread that comes hold no lock. -/
theorem Inv.switch {t : T} (I : Inv s) (henabled : s.enabled c = true) (ht : s.ready t = true) :
    Inv { s with
      on := Function.update s.on c t
      ready := Function.update (Function.update s.ready t false) (s.on c) true } := by
  have hcome : ∀ c', s.on c' ≠ t := by
    rintro c' rfl
    rw [I.not_ready c'] at ht
    cases ht
  have hgo : t ≠ s.on c := (hcome c).symm
  constructor
  · intro c₁ c₂ h
    by_cases h₁ : c₁ = c
    · by_cases h₂ : c₂ = c
      · rw [h₁, h₂]
      · subst h₁
        have heq : t = s.on c₂ := by simpa [Function.update_of_ne h₂] using h
        exact absurd heq.symm (hcome c₂)
    · by_cases h₂ : c₂ = c
      · subst h₂
        have heq : s.on c₁ = t := by simpa [Function.update_of_ne h₁] using h
        exact absurd heq (hcome c₁)
      · exact I.on_inj (by simpa [Function.update_of_ne h₁, Function.update_of_ne h₂] using h)
  · intro c'
    by_cases hc : c' = c
    · subst hc
      simp [hgo]
    · have hne : s.on c' ≠ s.on c := fun h => hc (I.on_inj h)
      simp [Function.update_of_ne hc, hne, hcome c', I.not_ready c']
  · intro c'
    by_cases hc : c' = c
    · subst hc
      simpa [henabled] using I.resting t ht
    · simpa [Function.update_of_ne hc] using I.running c'
  -- the thread that goes rests with interrupts enabled, as it had them
  · intro t' ht'
    by_cases hgone : t' = s.on c
    · have hfits := I.running c
      rw [henabled] at hfits
      rw [hgone]
      exact hfits
    · have hne : t' ≠ t := by
        rintro rfl
        simp [hgone] at ht'
      exact I.resting t' (by simpa [hgone, hne] using ht')
  · intro t' ht' hon
    have hgone : t' ≠ s.on c := by
      rintro rfl
      simp at ht'
    have hne : t' ≠ t := by
      rintro rfl
      exact hon c (Function.update_self ..)
    refine I.absent t' (by simpa [hgone, hne] using ht') fun c' h => ?_
    by_cases hc : c' = c
    · exact hgone (by rw [← h, hc])
    · exact hon c' ((Function.update_of_ne hc ..).trans h)
  · exact I.nested
  · exact I.nodup
  · exact I.unique
  · exact I.taken
  · exact I.saved

theorem Inv.flags {l : L} (I : Inv s) (hpc : s.pc (s.on c) = .flags l) :
    Inv (if s.enabled c then s.setPc (s.on c) (.cli l) else s.setPc (s.on c) (.exchange l true)) := by
  have hfits := I.running c
  rw [hpc] at hfits
  obtain ⟨hentry, hnested⟩ := hfits
  split
  · rename_i henabled
    refine I.steps (c := c) rfl rfl (fun _ _ => rfl) (fun t ht => setPc_ne _ ht) (fun _ _ => rfl)
      rfl rfl rfl (by simp) ?_
    rw [setPc_self]
    have htrue : s.entry (s.on c) = true := by rw [← hentry, henabled]
    exact ⟨henabled, htrue, by_contra fun hne => by simp [hnested hne] at htrue⟩
  · rename_i hdisabled
    have hfalse : s.enabled c = false := Bool.eq_false_iff.mpr hdisabled
    refine I.steps (c := c) rfl rfl (fun _ _ => rfl) (fun t ht => setPc_ne _ ht) (fun _ _ => rfl)
      rfl rfl rfl (by simp) ?_
    rw [setPc_self]
    exact ⟨hfalse, by simp [State.setPc, ← hentry, hfalse], hnested⟩

theorem Inv.cli {l : L} (I : Inv s) (hpc : s.pc (s.on c) = .cli l) :
    Inv ((s.setEnabled c false).setPc (s.on c) (.exchange l false)) := by
  have hfits := I.running c
  rw [hpc] at hfits
  obtain ⟨-, hentry, hnil⟩ := hfits
  refine I.steps (c := c) rfl rfl (fun _ h => setEnabled_ne h) (fun t ht => setPc_ne _ ht)
    (fun _ _ => rfl) rfl rfl rfl (by simp) ?_
  rw [setPc_self]
  refine ⟨setEnabled_self, ?_, fun hne => absurd hnil hne⟩
  show false = !s.entry (s.on c)
  simp [hentry]

theorem Inv.exchange {l : L} {b : Bool} (I : Inv s) (hpc : s.pc (s.on c) = .exchange l b) :
    Inv (if s.taken l then s.setPc (s.on c) (.retry l b)
      else (s.setTaken l true).setPc (s.on c) (.save l b)) := by
  have hfits := I.running c
  rw [hpc] at hfits
  split
  · refine I.steps (c := c) rfl rfl (fun _ _ => rfl) (fun t ht => setPc_ne _ ht) (fun _ _ => rfl)
      rfl rfl rfl (by simp) ?_
    rw [setPc_self]
    exact hfits
  · rename_i htaken
    have hfree : s.taken l = false := Bool.eq_false_iff.mpr htaken
    obtain ⟨hdisabled, hb, hnested⟩ := hfits
    have hnot : ∀ e, (l, e) ∉ s.held (s.on c) := by
      intro e he
      rw [I.taken (.inr ⟨e, he⟩)] at hfree
      cases hfree
    refine I.of_acts (c := c) ⟨rfl, rfl, fun _ _ => rfl, fun t ht => setPc_ne _ ht,
      fun _ _ => rfl, fun _ _ => rfl, ?_, I.nested _, I.nodup _, fun {l'} h => ?_,
      fun {l'} h h' => ?_, fun h => I.saved h, fun h => absurd rfl h⟩
    · rw [setPc_self]
      exact ⟨hdisabled, hb, hnested, hnot⟩
    · by_cases hl : l' = l
      · subst hl
        exact ⟨setTaken_self, .inr hfree⟩
      · have hold : Holds s (s.on c) l' := by
          rcases h with ⟨b', hb'⟩ | h
          · rw [setPc_self] at hb'
            exact absurd (Pc.save.inj hb').1.symm hl
          · exact .inr h
        exact ⟨(setTaken_ne hl).trans (I.taken hold), .inl hold⟩
    · by_cases hl : l' = l
      · rw [hl, hfree] at h
        cases h
      · have hsame : s.taken l' = false := (setTaken_ne hl).symm.trans h'
        rw [hsame] at h
        cases h

theorem Inv.save {l : L} {b : Bool} (I : Inv s) (hpc : s.pc (s.on c) = .save l b) :
    Inv (((s.setWas l b).setHeld (s.on c) ((l, s.entry (s.on c)) :: s.held (s.on c))).setPc
      (s.on c) .outside) := by
  have hfits := I.running c
  rw [hpc] at hfits
  obtain ⟨hdisabled, hb, hnested, hnot⟩ := hfits
  have hown : Holds s (s.on c) l := .inl ⟨b, hpc⟩
  have hheld : (((s.setWas l b).setHeld (s.on c) ((l, s.entry (s.on c)) :: s.held (s.on c))).setPc
      (s.on c) .outside).held (s.on c) = (l, s.entry (s.on c)) :: s.held (s.on c) := setHeld_self _
  refine I.of_acts (c := c) ⟨rfl, rfl, fun _ _ => rfl, fun t ht => setPc_ne _ ht,
    fun _ _ => rfl, fun t ht => setHeld_ne _ ht, ?_, ?_, ?_, fun {l'} h => ?_,
    fun {l'} h h' => ?_, fun {l' e} h => ?_, fun {l'} h => ?_⟩
  · rw [setPc_self]
    exact fun _ => hdisabled
  · rw [hheld]
    exact ⟨hnested, I.nested _⟩
  · rw [hheld, List.map_cons, List.nodup_cons]
    refine ⟨fun hmem => ?_, I.nodup _⟩
    obtain ⟨⟨l', e⟩, hin, hl⟩ := List.mem_map.mp hmem
    obtain rfl : l' = l := hl
    exact hnot e hin
  · have hold : Holds s (s.on c) l' := by
      rcases h with ⟨b', hb'⟩ | ⟨e, he⟩
      · rw [setPc_self] at hb'
        cases hb'
      · rw [hheld] at he
        rcases List.mem_cons.mp he with heq | he
        · rw [(Prod.mk.inj heq).1]
          exact hown
        · exact .inr ⟨e, he⟩
    exact ⟨I.taken hold, .inl hold⟩
  · have hsame : s.taken l' = false := h'
    rw [hsame] at h
    cases h
  · rw [hheld] at h
    by_cases hl : l' = l
    · subst hl
      rcases List.mem_cons.mp h with heq | h
      · rw [(Prod.mk.inj heq).2, ← hb]
        exact setWas_self
      · exact absurd h (hnot e)
    · rcases List.mem_cons.mp h with heq | h
      · exact absurd (Prod.mk.inj heq).1 hl
      · exact (setWas_ne hl).trans (I.saved h)
  · by_cases hl : l' = l
    · rw [hl]
      exact hown
    · exact absurd (setWas_ne hl) h

theorem Inv.retry {l : L} {b : Bool} (I : Inv s) (hpc : s.pc (s.on c) = .retry l b) :
    Inv ((s.restore c b).setPc (s.on c) (.flags l)) := by
  have hfits := I.running c
  rw [hpc] at hfits
  obtain ⟨hdisabled, hb, hnested⟩ := hfits
  refine I.steps (c := c) (by simp [State.setPc]) (by simp [State.setPc]) (fun _ h => restore_ne h)
    (fun t ht => ?_) (fun _ _ => by simp [State.setPc]) (by simp [State.setPc])
    (by simp [State.setPc]) (by simp [State.setPc]) (by simp) ?_
  · rw [setPc_ne _ ht, restore_pc]
  · rw [setPc_self]
    refine ⟨?_, fun hne => ?_⟩
    · refine (restore_self hdisabled).trans ?_
      simp [State.setPc, hb]
    · simpa [State.setPc] using hnested hne

theorem Inv.load {l : L} (I : Inv s) (hpc : s.pc (s.on c) = .load l) :
    Inv (s.setPc (s.on c) (.clear l (s.was l))) := by
  have hfits := I.running c
  rw [hpc] at hfits
  obtain ⟨hdisabled, e, rest, hheld⟩ := hfits
  refine I.steps (c := c) rfl rfl (fun _ _ => rfl) (fun t ht => setPc_ne _ ht) (fun _ _ => rfl)
    rfl rfl rfl (by simp) ?_
  rw [setPc_self]
  exact ⟨hdisabled, e, rest, hheld, I.saved (by rw [hheld]; exact List.mem_cons_self)⟩

theorem Inv.clear {l l' : L} {b e : Bool} {rest : List (L × Bool)} (I : Inv s)
    (hpc : s.pc (s.on c) = .clear l b) (hheld : s.held (s.on c) = (l', e) :: rest) :
    Inv (((s.setTaken l false).setHeld (s.on c) rest).setPc (s.on c) (.restore b e)) := by
  have hfits := I.running c
  rw [hpc, hheld] at hfits
  obtain ⟨hdisabled, e', rest', hcons, hb⟩ := hfits
  obtain ⟨hl, rfl⟩ := List.cons.inj hcons
  obtain ⟨rfl, rfl⟩ := Prod.mk.inj hl
  have hnested := I.nested (s.on c)
  have hnodup := I.nodup (s.on c)
  rw [hheld] at hnested hnodup
  rw [List.map_cons, List.nodup_cons] at hnodup
  have hrest : ∀ {l₂ e₂}, (l₂, e₂) ∈ rest → (l₂, e₂) ∈ s.held (s.on c) := by
    intro l₂ e₂ h
    rw [hheld]
    exact List.mem_cons_of_mem _ h
  have hother : ∀ {l₂ e₂}, (l₂, e₂) ∈ rest → l₂ ≠ l' := by
    rintro l₂ e₂ h rfl
    exact hnodup.1 (List.mem_map.mpr ⟨_, h, rfl⟩)
  have hheld' : (((s.setTaken l' false).setHeld (s.on c) rest).setPc (s.on c)
      (.restore b e)).held (s.on c) = rest := setHeld_self _
  refine I.of_acts (c := c) ⟨rfl, rfl, fun _ _ => rfl, fun t ht => setPc_ne _ ht,
    fun _ _ => rfl, fun t ht => setHeld_ne _ ht, ?_, ?_, ?_, fun {l₂} h => ?_,
    fun {l₂} h h' => ?_, fun {l₂ e₂} h => ?_, fun h => absurd rfl h⟩
  · rw [setPc_self, hheld']
    exact ⟨hdisabled, hb, hnested.1⟩
  · rw [hheld']
    exact hnested.2
  · rw [hheld']
    exact hnodup.2
  · rcases h with ⟨b', hb'⟩ | ⟨e₂, he⟩
    · rw [setPc_self] at hb'
      cases hb'
    · rw [hheld'] at he
      exact ⟨(setTaken_ne (hother he)).trans (I.taken (.inr ⟨e₂, hrest he⟩)),
        .inl (.inr ⟨e₂, hrest he⟩)⟩
  · by_cases hl : l₂ = l'
    · subst hl
      exact .inr ⟨e, by rw [hheld]; exact List.mem_cons_self⟩
    · have hsame : s.taken l₂ = false := (setTaken_ne hl).symm.trans h'
      rw [hsame] at h
      cases h
  · rw [hheld'] at h
    exact I.saved (hrest h)

theorem Inv.restore {b e : Bool} (I : Inv s) (hpc : s.pc (s.on c) = .restore b e) :
    Inv ((s.restore c b).setPc (s.on c) .outside) := by
  have hfits := I.running c
  rw [hpc] at hfits
  obtain ⟨hdisabled, hb, hnested⟩ := hfits
  refine I.steps (c := c) (by simp [State.setPc]) (by simp [State.setPc]) (fun _ h => restore_ne h)
    (fun t ht => ?_) (fun _ _ => by simp [State.setPc]) (by simp [State.setPc])
    (by simp [State.setPc]) (by simp [State.setPc]) (by simp) ?_
  · rw [setPc_ne _ ht, restore_pc]
  · rw [setPc_self]
    intro hne
    refine (restore_self hdisabled).trans ?_
    rw [hb, Bool.not_not, hnested hne]

theorem Inv.step {e : Event C T L} (I : Inv s) (h : step s e = some s') : Inv s' := by
  cases e with
  | lock c l =>
    dsimp only [Lock.step] at h
    split at h
    · rename_i hpc
      obtain rfl := Option.some.inj h
      exact I.lock hpc
    · cases h
  | unlock c =>
    dsimp only [Lock.step] at h
    split at h
    · rename_i hpc
      cases hheld : s.held (s.on c) with
      | nil =>
        rw [hheld] at h
        cases h
      | cons le rest =>
        rw [hheld] at h
        obtain rfl := Option.some.inj h
        exact I.unlock hpc hheld
    · cases h
  | go c =>
    dsimp only [Lock.step, go] at h
    cases hpc : s.pc (s.on c) with
    | outside => simp [hpc] at h
    | flags l =>
      simp only [hpc, Option.some.injEq] at h
      subst h
      exact I.flags hpc
    | cli l =>
      simp only [hpc, Option.some.injEq] at h
      subst h
      exact I.cli hpc
    | exchange l b =>
      simp only [hpc, Option.some.injEq] at h
      subst h
      exact I.exchange hpc
    | save l b =>
      simp only [hpc, Option.some.injEq] at h
      subst h
      exact I.save hpc
    | retry l b =>
      simp only [hpc, Option.some.injEq] at h
      subst h
      exact I.retry hpc
    | load l =>
      simp only [hpc, Option.some.injEq] at h
      subst h
      exact I.load hpc
    | clear l b =>
      simp only [hpc] at h
      cases hheld : s.held (s.on c) with
      | nil =>
        rw [hheld] at h
        cases h
      | cons le rest =>
        rw [hheld] at h
        obtain rfl := Option.some.inj h
        exact I.clear hpc hheld
    | restore b e =>
      simp only [hpc, Option.some.injEq] at h
      subst h
      exact I.restore hpc
  | disable c =>
    dsimp only [Lock.step] at h
    split at h
    · rename_i hpc
      obtain rfl := Option.some.inj h
      exact I.disable hpc
    · cases h
  | enable c =>
    dsimp only [Lock.step] at h
    split at h
    · rename_i hc
      obtain rfl := Option.some.inj h
      exact I.enable hc.1 hc.2
    · cases h
  | switch c t =>
    dsimp only [Lock.step] at h
    split at h
    · rename_i hc
      obtain rfl := Option.some.inj h
      exact I.switch hc.1 hc.2
    · cases h

theorem Inv.init {on : C → T} {ready : T → Bool} (enabled : C → Bool)
    (hon : Function.Injective on) (hready : ∀ c, ready (on c) = false) :
    Inv (State.init on ready enabled : State C T L) := by
  have hno : ∀ {t l}, ¬Holds (State.init on ready enabled : State C T L) t l := by
    rintro t l (⟨b, h⟩ | ⟨e, h⟩)
    · cases h
    · cases h
  exact ⟨hon, hready, fun _ hne => absurd rfl hne, fun _ _ hne => absurd rfl hne,
    fun _ _ _ => ⟨rfl, rfl⟩, fun _ => trivial, fun _ => List.nodup_nil, fun h => absurd h hno,
    fun h => absurd h hno, fun h => absurd (.inr ⟨_, h⟩) hno⟩

end Steps

/-! ## Calls

The invariant is about states, and what is asked of `lock()` and `unlock()` is about calls. A call
is a run from its first step to the state in which the thread is outside again, with any steps of
other cores in between; `Frame` says that those do not touch the thread. -/

/-- The core that makes the step. -/
def Event.core : Event C T L → C
  | .lock c _ | .unlock c | .go c | .disable c | .enable c | .switch c _ => c

/-- The thread is in `lock()`. -/
def Pc.Locking (l : L) (pc : Pc L) : Prop :=
  pc = .flags l ∨ pc = .cli l ∨
    ∃ wasDisabled, pc = .exchange l wasDisabled ∨ pc = .save l wasDisabled ∨
      pc = .retry l wasDisabled

/-- The run from `s` to `s'` is over when `done` holds, and not before. -/
def Until (done : State C T L → Prop) (s : State C T L) (es : List (Event C T L))
    (s' : State C T L) : Prop :=
  RunOk step (fun u _ => ¬done u) s es ∧ runs step s es = some s' ∧ done s'

section Calls

variable {s s' : State C T L} {c : C} {t : T} {l : L} {e : Bool} {H : List (L × Bool)}
  {ev : Event C T L}

/-- A step is one of its core and of the thread there. -/
structure Frame (s s' : State C T L) (c : C) : Prop where
  pc : ∀ t, t ≠ s.on c → s'.pc t = s.pc t
  held : ∀ t, t ≠ s.on c → s'.held t = s.held t
  entry : ∀ t, t ≠ s.on c → s'.entry t = s.entry t
  on : ∀ c', c' ≠ c → s'.on c' = s.on c'
  enabled : ∀ c', c' ≠ c → s'.enabled c' = s.enabled c'

theorem Frame.refl (s : State C T L) (c : C) : Frame s s c :=
  ⟨fun _ _ => rfl, fun _ _ => rfl, fun _ _ => rfl, fun _ _ => rfl, fun _ _ => rfl⟩

theorem Frame.setPc {u : State C T L} (h : Frame s u c) (pc : Pc L) :
    Frame s (u.setPc (s.on c) pc) c :=
  { h with pc := fun t ht => (setPc_ne pc ht).trans (h.pc t ht) }

theorem Frame.setHeld {u : State C T L} (h : Frame s u c) (ls : List (L × Bool)) :
    Frame s (u.setHeld (s.on c) ls) c :=
  { h with held := fun t ht => (setHeld_ne ls ht).trans (h.held t ht) }

theorem Frame.setEntry {u : State C T L} (h : Frame s u c) (b : Bool) :
    Frame s (u.setEntry (s.on c) b) c :=
  { h with entry := fun t ht => (setEntry_ne ht).trans (h.entry t ht) }

theorem Frame.setEnabled {u : State C T L} (h : Frame s u c) (b : Bool) :
    Frame s (u.setEnabled c b) c :=
  { h with enabled := fun c' hc => (setEnabled_ne hc).trans (h.enabled c' hc) }

theorem Frame.restore {u : State C T L} (h : Frame s u c) (b : Bool) :
    Frame s (u.restore c b) c := by
  cases b with
  | false => exact h.setEnabled true
  | true => exact h

theorem go_frame (h : go s c = some s') : Frame s s' c := by
  have hrefl := Frame.refl s c
  unfold go at h
  cases hpc : s.pc (s.on c) with
  | outside => simp [hpc] at h
  | flags l =>
    simp only [hpc, Option.some.injEq] at h
    subst h
    split
    · exact hrefl.setPc _
    · exact hrefl.setPc _
  | cli l =>
    simp only [hpc, Option.some.injEq] at h
    subst h
    exact (hrefl.setEnabled false).setPc _
  | exchange l b =>
    simp only [hpc, Option.some.injEq] at h
    subst h
    split
    · exact hrefl.setPc _
    · exact Frame.setPc (u := s.setTaken l true) ⟨hrefl.pc, hrefl.held, hrefl.entry, hrefl.on,
        hrefl.enabled⟩ _
  | save l b =>
    simp only [hpc, Option.some.injEq] at h
    subst h
    exact (Frame.setHeld (u := s.setWas l b) ⟨hrefl.pc, hrefl.held, hrefl.entry, hrefl.on,
      hrefl.enabled⟩ _).setPc _
  | retry l b =>
    simp only [hpc, Option.some.injEq] at h
    subst h
    exact (hrefl.restore b).setPc _
  | load l =>
    simp only [hpc, Option.some.injEq] at h
    subst h
    exact hrefl.setPc _
  | clear l b =>
    simp only [hpc] at h
    cases hheld : s.held (s.on c) with
    | nil =>
      rw [hheld] at h
      cases h
    | cons le rest =>
      rw [hheld] at h
      obtain rfl := Option.some.inj h
      exact (Frame.setHeld (u := s.setTaken l false) ⟨hrefl.pc, hrefl.held, hrefl.entry, hrefl.on,
        hrefl.enabled⟩ rest).setPc _
  | restore b e =>
    simp only [hpc, Option.some.injEq] at h
    subst h
    exact (hrefl.restore b).setPc _

theorem step_frame (h : step s ev = some s') : Frame s s' ev.core := by
  have hrefl := Frame.refl s ev.core
  cases ev with
  | lock c l =>
    dsimp only [step] at h
    split at h
    · obtain rfl := Option.some.inj h
      exact (hrefl.setEntry _).setPc _
    · cases h
  | unlock c =>
    dsimp only [step] at h
    split at h
    · cases hheld : s.held (s.on c) with
      | nil =>
        rw [hheld] at h
        cases h
      | cons le rest =>
        rw [hheld] at h
        obtain rfl := Option.some.inj h
        exact hrefl.setPc _
    · cases h
  | go c => exact go_frame h
  | disable c =>
    dsimp only [step] at h
    split at h
    · obtain rfl := Option.some.inj h
      exact hrefl.setEnabled false
    · cases h
  | enable c =>
    dsimp only [step] at h
    split at h
    · obtain rfl := Option.some.inj h
      exact hrefl.setEnabled true
    · cases h
  | switch c u =>
    dsimp only [step] at h
    split at h
    · obtain rfl := Option.some.inj h
      exact ⟨hrefl.pc, hrefl.held, hrefl.entry, fun c' hc => Function.update_of_ne hc ..,
        hrefl.enabled⟩
    · cases h

/-- Inside of a call a core goes on with it, or with another thread. -/
theorem step_inside (h : step s ev = some s') (hpc : s.pc (s.on ev.core) ≠ .outside) :
    go s ev.core = some s' ∨ s.enabled ev.core = true ∧ s'.pc = s.pc ∧ s'.held = s.held ∧
      s'.entry = s.entry := by
  cases ev with
  | lock c l =>
    dsimp only [step, Event.core] at h hpc
    rw [if_neg hpc] at h
    cases h
  | unlock c =>
    dsimp only [step, Event.core] at h hpc
    rw [if_neg hpc] at h
    cases h
  | go c => exact .inl h
  | disable c =>
    dsimp only [step, Event.core] at h hpc
    rw [if_neg hpc] at h
    cases h
  | enable c =>
    dsimp only [step, Event.core] at h hpc
    rw [if_neg fun hc => hpc hc.1] at h
    cases h
  | switch c u =>
    dsimp only [step] at h
    split at h
    · rename_i hc
      obtain rfl := Option.some.inj h
      exact .inr ⟨hc.1, rfl, rfl, rfl⟩
    · cases h

/-- Outside of all calls, what a thread has stays. -/
theorem step_outside (h : step s ev = some s') (hpc : s.pc (s.on ev.core) = .outside) :
    s'.held = s.held := by
  cases ev with
  | lock c l =>
    dsimp only [step, Event.core] at h hpc
    rw [if_pos hpc] at h
    obtain rfl := Option.some.inj h
    rfl
  | unlock c =>
    dsimp only [step, Event.core] at h hpc
    rw [if_pos hpc] at h
    cases hheld : s.held (s.on c) with
    | nil =>
      rw [hheld] at h
      cases h
    | cons le rest =>
      rw [hheld] at h
      obtain rfl := Option.some.inj h
      rfl
  | go c =>
    have hout : s.pc (s.on c) = .outside := hpc
    simp [step, go, hout] at h
  | disable c =>
    dsimp only [step, Event.core] at h hpc
    rw [if_pos hpc] at h
    obtain rfl := Option.some.inj h
    rfl
  | enable c =>
    dsimp only [step] at h
    split at h
    · obtain rfl := Option.some.inj h
      rfl
    · cases h
  | switch c u =>
    dsimp only [step] at h
    split at h
    · obtain rfl := Option.some.inj h
      rfl
    · cases h

/-! ### `unlock()` -/

/-- The thread on core `c` is in `unlock()` of the first of its locks. -/
structure Unlocking (s : State C T L) (c : C) (t : T) (l : L) (e : Bool) (H : List (L × Bool)) :
    Prop where
  on : s.on c = t
  off : s.enabled c = false
  place : s.pc t = .load l ∧ s.held t = (l, e) :: H ∨
    (∃ b, s.pc t = .clear l b ∧ s.held t = (l, e) :: H) ∨
    ∃ b, s.pc t = .restore b e ∧ s.held t = H

/-- It has come back, and the flag is `e`. -/
structure Unlocked (s : State C T L) (c : C) (t : T) (e : Bool) (H : List (L × Bool)) : Prop where
  on : s.on c = t
  enabled : s.enabled c = e
  pc : s.pc t = .outside
  held : s.held t = H

theorem Unlocking.inside (U : Unlocking s c t l e H) : s.pc t ≠ .outside := by
  rcases U.place with ⟨h, -⟩ | ⟨b, h, -⟩ | ⟨b, h, -⟩ <;> simp [h]

theorem Unlocking.go (I : Inv s) (U : Unlocking s c t l e H) (h : go s c = some s') :
    Unlocking s' c t l e H ∨ Unlocked s' c t e H := by
  obtain rfl := U.on
  unfold Lock.go at h
  rcases U.place with ⟨hpc, hheld⟩ | ⟨b, hpc, hheld⟩ | ⟨b, hpc, hheld⟩
  · simp only [hpc, Option.some.injEq] at h
    subst h
    exact .inl ⟨rfl, U.off, .inr (.inl ⟨_, setPc_self _, hheld⟩)⟩
  · simp only [hpc, hheld, Option.some.injEq] at h
    subst h
    exact .inl ⟨rfl, U.off, .inr (.inr ⟨b, setPc_self _, setHeld_self _⟩)⟩
  · simp only [hpc, Option.some.injEq] at h
    subst h
    have hfits := I.running c
    rw [hpc] at hfits
    refine .inr ⟨congrFun restore_on c, ?_, setPc_self _, (congrFun restore_held _).trans hheld⟩
    refine (restore_self U.off).trans ?_
    rw [hfits.2.1, Bool.not_not]

theorem Unlocking.step (I : Inv s) (U : Unlocking s c t l e H) (h : step s ev = some s') :
    Unlocking s' c t l e H ∨ Unlocked s' c t e H := by
  have F := step_frame h
  by_cases hc : ev.core = c
  · subst hc
    have hin := U.inside
    rw [← U.on] at hin
    rcases step_inside h hin with hgo | ⟨hon, -⟩
    · exact U.go I hgo
    · rw [U.off] at hon
      cases hon
  · -- another core: it runs another thread
    have hne : t ≠ s.on ev.core := by
      rw [← U.on]
      exact fun hon => hc (I.on_inj hon).symm
    refine .inl ⟨(F.on c (Ne.symm hc)).trans U.on, (F.enabled c (Ne.symm hc)).trans U.off, ?_⟩
    rw [F.pc t hne, F.held t hne]
    exact U.place

/-- A call of `unlock()` that comes back. -/
theorem Inv.unlocked (I : Inv s) (hheld : s.held (s.on c) = (l, e) :: H) {s₁ : State C T L}
    (h : Lock.step s (.unlock c) = some s₁) {es : List (Event C T L)}
    (hu : Until (fun u => u.pc (s.on c) = .outside) s₁ es s') :
    Unlocked s' c (s.on c) e H := by
  have hstart : Unlocking s₁ c (s.on c) l e H := by
    dsimp only [Lock.step] at h
    split at h
    · rename_i hpc
      rw [hheld] at h
      obtain rfl := Option.some.inj h
      have hfits := I.running c
      rw [hpc] at hfits
      exact ⟨rfl, hfits (by rw [hheld]; exact List.cons_ne_nil _ _), .inl ⟨setPc_self _, hheld⟩⟩
    · cases h
  obtain ⟨hok, hr, hdone⟩ := hu
  have hend := runs_inv
    (fun u => Inv u ∧ (Unlocking u c (s.on c) l e H ∨ Unlocked u c (s.on c) e H))
    (fun u ev u' hinv hok hs => ⟨hinv.1.step hs, ?_⟩) ⟨I.step h, .inl hstart⟩ hok hr
  · exact hend.2.resolve_left fun U => U.inside hdone
  · rcases hinv.2 with U | U
    · exact U.step hinv.1 hs
    · exact absurd U.pc hok

/-- It comes back with the third step of its core. -/
theorem unlock_returns {s₁ : State C T L} (h : step s (.unlock c) = some s₁) :
    ∃ s', runs step s₁ [.go c, .go c, .go c] = some s' ∧ s'.pc (s.on c) = .outside := by
  dsimp only [step] at h
  split at h
  · cases hheld : s.held (s.on c) with
    | nil =>
      rw [hheld] at h
      cases h
    | cons le rest =>
      rw [hheld] at h
      obtain rfl := Option.some.inj h
      simp [runs, step, go, State.setPc, State.setTaken, State.setHeld, hheld]
  · cases h

/-! ### `lock()` -/

/-- The thread is in `lock()`, called with the flag `e` and the locks `H`. -/
structure Locking (s : State C T L) (t : T) (l : L) (e : Bool) (H : List (L × Bool)) : Prop where
  pc : (s.pc t).Locking l
  held : s.held t = H
  entry : s.entry t = e

theorem Locking.inside (K : Locking s t l e H) : s.pc t ≠ .outside := by
  rcases K.pc with h | h | ⟨b, h | h | h⟩ <;> simp [h]

theorem Locking.go (K : Locking s (s.on c) l e H) (h : go s c = some s') :
    Locking s' (s.on c) l e H ∨ s'.pc (s.on c) = .outside ∧ s'.held (s.on c) = (l, e) :: H := by
  obtain ⟨hpc, rfl, rfl⟩ := K
  unfold Lock.go at h
  rcases hpc with hpc | hpc | ⟨b, hpc | hpc | hpc⟩
  · simp only [hpc, Option.some.injEq] at h
    subst h
    left
    split
    · exact ⟨.inr (.inl (setPc_self _)), rfl, rfl⟩
    · exact ⟨.inr (.inr ⟨true, .inl (setPc_self _)⟩), rfl, rfl⟩
  · simp only [hpc, Option.some.injEq] at h
    subst h
    exact .inl ⟨.inr (.inr ⟨false, .inl (setPc_self _)⟩), rfl, rfl⟩
  · simp only [hpc, Option.some.injEq] at h
    subst h
    left
    split
    · exact ⟨.inr (.inr ⟨b, .inr (.inr (setPc_self _))⟩), rfl, rfl⟩
    · exact ⟨.inr (.inr ⟨b, .inr (.inl (setPc_self _))⟩), rfl, rfl⟩
  · simp only [hpc, Option.some.injEq] at h
    subst h
    exact .inr ⟨setPc_self _, setHeld_self _⟩
  · simp only [hpc, Option.some.injEq] at h
    subst h
    exact .inl ⟨.inl (setPc_self _), congrFun restore_held _, congrFun restore_entry _⟩

theorem Locking.step (K : Locking s t l e H) (h : step s ev = some s') :
    Locking s' t l e H ∨ s'.pc t = .outside ∧ s'.held t = (l, e) :: H := by
  by_cases ht : t = s.on ev.core
  · subst ht
    rcases step_inside h K.inside with hgo | ⟨-, hpc, hheld, hentry⟩
    · exact K.go hgo
    · exact .inl ⟨by rw [hpc]; exact K.pc, by rw [hheld]; exact K.held, by rw [hentry]; exact K.entry⟩
  · have F := step_frame h
    exact .inl ⟨by rw [F.pc t ht]; exact K.pc, (F.held t ht).trans K.held,
      (F.entry t ht).trans K.entry⟩

theorem locking_start (h : step s (.lock c l) = some s') :
    Locking s' (s.on c) l (s.enabled c) (s.held (s.on c)) := by
  dsimp only [step] at h
  split at h
  · obtain rfl := Option.some.inj h
    exact ⟨.inl (setPc_self _), rfl, setEntry_self⟩
  · cases h

/-- A call of `lock()` that comes back. -/
theorem locked {s₁ : State C T L} (h : step s (.lock c l) = some s₁) {es : List (Event C T L)}
    (hu : Until (fun u => u.pc (s.on c) = .outside) s₁ es s') :
    s'.held (s.on c) = (l, s.enabled c) :: s.held (s.on c) := by
  obtain ⟨hok, hr, hdone⟩ := hu
  have hend := runs_inv
    (fun u => Locking u (s.on c) l (s.enabled c) (s.held (s.on c)) ∨
      u.pc (s.on c) = .outside ∧ u.held (s.on c) = (l, s.enabled c) :: s.held (s.on c))
    (fun u ev u' hinv hok hs => ?_) (.inl (locking_start h)) hok hr
  · exact (hend.resolve_left fun K => K.inside hdone).2
  · exact (hinv.resolve_right fun hd => hok hd.1).step hs

/-! ### From `lock()` to the matching `unlock()` -/

/-- Between the call of `lock()` and the return of the matching `unlock()`. -/
inductive Bracket (s : State C T L) (t : T) (l : L) (e : Bool) (H : List (L × Bool)) : Prop
  | locking (K : Locking s t l e H)
  | inner (X : List (L × Bool)) (held : s.held t = X ++ (l, e) :: H)
  | leaving (b : Bool) (pc : s.pc t = .restore b e) (held : s.held t = H)
  | finished (pc : s.pc t = .outside) (held : s.held t = H)
    (flag : ∀ c, s.on c = t → s.enabled c = e)

/-- A step of the call that the thread is in, while it has the lock. -/
theorem Bracket.inner_go {X : List (L × Bool)} (held : s.held (s.on c) = X ++ (l, e) :: H)
    (h : go s c = some s') : Bracket s' (s.on c) l e H := by
  unfold Lock.go at h
  cases hpc : s.pc (s.on c) with
  | outside => simp [hpc] at h
  | flags l' =>
    simp only [hpc, Option.some.injEq] at h
    subst h
    refine .inner X ?_
    split
    · exact held
    · exact held
  | cli l' =>
    simp only [hpc, Option.some.injEq] at h
    subst h
    exact .inner X held
  | exchange l' b =>
    simp only [hpc, Option.some.injEq] at h
    subst h
    refine .inner X ?_
    split
    · exact held
    · exact held
  | save l' b =>
    simp only [hpc, Option.some.injEq] at h
    subst h
    refine .inner ((l', s.entry (s.on c)) :: X) ((setHeld_self _).trans ?_)
    rw [held]
    rfl
  | retry l' b =>
    simp only [hpc, Option.some.injEq] at h
    subst h
    exact .inner X ((congrFun restore_held _).trans held)
  | load l' =>
    simp only [hpc, Option.some.injEq] at h
    subst h
    exact .inner X held
  | clear l' b =>
    simp only [hpc] at h
    cases X with
    | nil =>
      rw [held] at h
      obtain rfl := Option.some.inj h
      exact .leaving b (setPc_self _) (setHeld_self _)
    | cons x X =>
      rw [held] at h
      obtain rfl := Option.some.inj h
      exact .inner X (setHeld_self _)
  | restore b e' =>
    simp only [hpc, Option.some.injEq] at h
    subst h
    exact .inner X ((congrFun restore_held _).trans held)

theorem Bracket.step (I : Inv s) (B : Bracket s t l e H) (hok : ¬(s.pc t = .outside ∧ s.held t = H))
    (h : step s ev = some s') : Bracket s' t l e H := by
  have F := step_frame h
  cases B with
  | locking K =>
    rcases K.step h with K' | ⟨-, hheld⟩
    · exact .locking K'
    · exact .inner [] hheld
  | inner X held =>
    by_cases ht : t = s.on ev.core
    · subst ht
      by_cases hpc : s.pc (s.on ev.core) = .outside
      · exact .inner X (by rw [step_outside h hpc]; exact held)
      · rcases step_inside h hpc with hgo | ⟨-, -, hheld, -⟩
        · exact inner_go held hgo
        · exact .inner X (by rw [hheld]; exact held)
    · exact .inner X ((F.held t ht).trans held)
  | leaving b pc held =>
    by_cases ht : t = s.on ev.core
    · subst ht
      have hfits := I.running ev.core
      rw [pc] at hfits
      have U : Unlocking s ev.core (s.on ev.core) l e H := ⟨rfl, hfits.1, .inr (.inr ⟨b, pc, held⟩)⟩
      rcases U.step I h with U' | U'
      · -- the last step of the call leaves it
        rcases step_inside h (by rw [pc]; simp) with hgo | ⟨hon, -⟩
        · unfold Lock.go at hgo
          simp only [pc, Option.some.injEq] at hgo
          subst hgo
          exact absurd (setPc_self _) U'.inside
        · rw [hfits.1] at hon
          cases hon
      · refine .finished U'.pc U'.held fun c hc => ?_
        obtain rfl := (I.step h).on_inj (hc.trans U'.on.symm)
        exact U'.enabled
    · exact .leaving b ((F.pc t ht).trans pc) ((F.held t ht).trans held)
  | finished pc held flag => exact absurd ⟨pc, held⟩ hok

/-- From the call of `lock()` to where the thread is back to the locks it had. -/
theorem Inv.matched (I : Inv s) {s₁ : State C T L} (h : Lock.step s (.lock c l) = some s₁)
    {es : List (Event C T L)}
    (hu : Until (fun u => u.pc (s.on c) = .outside ∧ u.held (s.on c) = s.held (s.on c)) s₁ es s') :
    ∀ c', s'.on c' = s.on c → s'.enabled c' = s.enabled c := by
  obtain ⟨hok, hr, hpc, hheld⟩ := hu
  have hend := runs_inv
    (fun u => Inv u ∧ Bracket u (s.on c) l (s.enabled c) (s.held (s.on c)))
    (fun u ev u' hinv hok hs => ⟨hinv.1.step hs, hinv.2.step hinv.1 hok hs⟩)
    ⟨I.step h, .locking (locking_start h)⟩ hok hr
  cases hend.2 with
  | locking K => exact absurd hpc K.inside
  | inner X held =>
    have hlen := congrArg List.length (hheld.symm.trans held)
    simp only [List.length_append, List.length_cons] at hlen
    omega
  | leaving b pc _ =>
    rw [pc] at hpc
    cases hpc
  | finished _ _ flag => exact flag

end Calls

/-! ## Every run -/

/-- In every reachable state of any number of cores and locks:

* one thread at most holds a lock;
* a thread that holds a lock is on a core, and interrupts are disabled there;
* a call of `lock()` that comes back has put the lock, with the interrupt flag just before the
  call, before those that the thread had;
* a call of `unlock()` comes back after three steps of its core, and where it does, the thread has
  given up the lock and no other, and the flag is the one that stands with the lock;
* where, after a call of `lock()`, the thread is for the first time back to the locks that it had,
  the flag is the one just before the call. -/
theorem lock_is_safe {on : C → T} {ready : T → Bool} {enabled : C → Bool}
    (hon : Function.Injective on) (hready : ∀ c, ready (on c) = false)
    {es : List (Event C T L)} {s : State C T L}
    (hr : runs step (State.init on ready enabled) es = some s) :
    (∀ t t' l, Holds s t l → Holds s t' l → t = t') ∧
    (∀ t l, Holds s t l → ∃ c, s.on c = t ∧ s.enabled c = false) ∧
    (∀ c l s₁ es' s', step s (.lock c l) = some s₁ →
      Until (fun u => u.pc (s.on c) = .outside) s₁ es' s' →
      s'.held (s.on c) = (l, s.enabled c) :: s.held (s.on c)) ∧
    (∀ c s₁, step s (.unlock c) = some s₁ →
      (∃ s', runs step s₁ [.go c, .go c, .go c] = some s' ∧ s'.pc (s.on c) = .outside) ∧
      ∃ l e rest, s.held (s.on c) = (l, e) :: rest ∧
        ∀ es' s', Until (fun u => u.pc (s.on c) = .outside) s₁ es' s' →
          s'.held (s.on c) = rest ∧ ¬Holds s' (s.on c) l ∧ s'.on c = s.on c ∧ s'.enabled c = e) ∧
    ∀ c l s₁ es' s', step s (.lock c l) = some s₁ →
      Until (fun u => u.pc (s.on c) = .outside ∧ u.held (s.on c) = s.held (s.on c)) s₁ es' s' →
      ∀ c', s'.on c' = s.on c → s'.enabled c' = s.enabled c := by
  have I : Inv s := runs_inv Inv (fun _ _ _ I _ h => I.step h) (.init enabled hon hready)
    (.of_forall (fun _ _ => trivial) es _) hr
  refine ⟨fun t t' l => I.unique, fun t l h => ?_, fun c l s₁ es' s' h hu => locked h hu,
    fun c s₁ h => ⟨unlock_returns h, ?_⟩, fun c l s₁ es' s' h hu => I.matched h hu⟩
  -- a thread that has a lock is not resting: it is on a core, with interrupts disabled
  · have hbusy : s.held t ≠ [] ∨ ∃ l b, s.pc t = .save l b := by
      rcases h with ⟨b, hb⟩ | ⟨e, he⟩
      · exact .inr ⟨l, b, hb⟩
      · exact .inl (List.ne_nil_of_mem he)
    by_cases hcore : ∃ c, s.on c = t
    · obtain ⟨c, rfl⟩ := hcore
      exact ⟨c, rfl, (I.running c).disabled hbusy⟩
    · cases hrest : s.ready t with
      | true => exact absurd ((I.resting t hrest).disabled hbusy) (by simp)
      | false =>
        obtain ⟨hheld, hpc⟩ := I.absent t hrest fun c hc => hcore ⟨c, hc⟩
        rcases hbusy with hne | ⟨l, b, hsave⟩
        · exact absurd hheld hne
        · rw [hpc] at hsave
          cases hsave
  · cases hheld : s.held (s.on c) with
    | nil =>
      dsimp only [step] at h
      split at h
      · rw [hheld] at h
        cases h
      · cases h
    | cons le rest =>
      obtain ⟨l, e⟩ := le
      refine ⟨l, e, rest, rfl, fun es' s' hu => ?_⟩
      have U := I.unlocked hheld h hu
      have hnodup := I.nodup (s.on c)
      rw [hheld, List.map_cons, List.nodup_cons] at hnodup
      refine ⟨U.held, ?_, U.on, U.enabled⟩
      rintro (⟨b, hb⟩ | ⟨e', he⟩)
      · rw [U.pc] at hb
        cases hb
      · rw [U.held] at he
        exact hnodup.1 (List.mem_map.mpr ⟨_, he, rfl⟩)

/-- Two cores, two locks; the second core waits for the first lock. -/
def contended : List (Event Bool Bool Bool) :=
  [.lock false false, .lock true false, .go false, .go true, .go false, .go false, .go true,
    .go true, .go false, .lock false true, .go false, .go false, .go false]

/-- The first core has both locks. It gives up the second with interrupts off, as they were when it
called for it, and then the first, with interrupts on again. -/
theorem lock_is_safe_nested : ∃ s s₁ s₂ : State Bool Bool Bool,
    runs step (State.init id (fun _ => false) fun _ => true) contended = some s ∧
    Holds s false true ∧ Holds s false false ∧ (∃ c, s.on c = false ∧ s.enabled c = false) ∧
    runs step s [.unlock false, .go false, .go false, .go false] = some s₁ ∧
    ¬Holds s₁ false true ∧ s₁.enabled false = false ∧
    runs step s₁ [.unlock false, .go false, .go false, .go false] = some s₂ ∧
    ¬Holds s₂ false false ∧ s₂.enabled false = true := by
  let start : State Bool Bool Bool := State.init id (fun _ => false) fun _ => true
  let leave : List (Event Bool Bool Bool) := [.go false, .go false, .go false]
  obtain ⟨w, s, u, s₁, u₁, s₂, hcall, hr, hon, hheld, hstep, huntil, hr₁, hrun, hon₁, hheld₁, hstep₁,
      huntil₁, hrun₁, hmatch⟩ :
      ∃ w s u s₁ u₁ s₂ : State Bool Bool Bool,
        step start (.lock false false) = some w ∧
        runs step start contended = some s ∧ s.on false = false ∧
        s.held false = [(true, false), (false, true)] ∧
        step s (.unlock false) = some u ∧
        Until (fun v => v.pc (s.on false) = .outside) u leave s₁ ∧
        runs step start (contended ++ .unlock false :: leave) = some s₁ ∧
        runs step s (.unlock false :: leave) = some s₁ ∧ s₁.on false = false ∧
        s₁.held false = [(false, true)] ∧
        step s₁ (.unlock false) = some u₁ ∧
        Until (fun v => v.pc (s₁.on false) = .outside) u₁ leave s₂ ∧
        runs step s₁ (.unlock false :: leave) = some s₂ ∧
        Until (fun v => v.pc (start.on false) = .outside ∧
            v.held (start.on false) = start.held (start.on false)) w
          (contended.tail ++ (.unlock false :: leave) ++ .unlock false :: leave) s₂ :=
    ⟨_, _, _, _, _, _, rfl, rfl, rfl, by decide, rfl, ⟨by decide, rfl, by decide⟩, rfl, rfl, rfl,
      by decide, rfl, ⟨by decide, rfl, by decide⟩, rfl, ⟨by decide, rfl, by decide⟩⟩
  have hidle : ∀ c : Bool, (fun _ => false : Bool → Bool) (id c) = false := fun _ => rfl
  have hinner : Holds s false true := .inr ⟨false, by rw [hheld]; exact List.mem_cons_self⟩
  obtain ⟨-, hoff, -, hgives, -⟩ := lock_is_safe Function.injective_id hidle hr
  obtain ⟨-, l, e, rest, hcons, hback⟩ := hgives false u hstep
  obtain ⟨-, hgone, -, hflag⟩ := hback leave s₁ huntil
  obtain ⟨-, -, -, hgives₁, -⟩ := lock_is_safe Function.injective_id hidle hr₁
  obtain ⟨-, l₁, e₁, rest₁, hcons₁, hback₁⟩ := hgives₁ false u₁ hstep₁
  obtain ⟨-, hgone₁, hon₂, -⟩ := hback₁ leave s₂ huntil₁
  have hnone : runs step start [] = some start := rfl
  obtain ⟨-, -, -, -, hpair⟩ := lock_is_safe Function.injective_id hidle hnone
  rw [hon, hheld] at hcons
  rw [hon₁, hheld₁] at hcons₁
  obtain ⟨rfl, rfl⟩ := Prod.mk.inj (List.cons.inj hcons).1
  obtain ⟨rfl, rfl⟩ := Prod.mk.inj (List.cons.inj hcons₁).1
  rw [hon] at hgone
  rw [hon₁] at hgone₁ hon₂
  refine ⟨s, s₁, s₂, hr, hinner, .inr ⟨true, ?_⟩, hoff false true hinner, hrun, hgone, hflag, hrun₁,
    hgone₁, hpair false false w _ s₂ hcall hmatch false hon₂⟩
  rw [hheld]
  exact List.mem_cons_of_mem _ List.mem_cons_self

end OsKernel.Lock
