import Mathlib.Data.Fintype.Card
import Mathlib.Data.Finset.Card
import Mathlib.Tactic.ByContra
import OsKernel.Lib.Blocking

/-!
# The barrier

`Barrier` of `barrier.h`, over a `Condition`, for threads that each call `sync()` once. A step
is one locked section: the decrement, the test with the start of `wait()`, the callback of
`wait()` that enqueues, and `notifyAll()`. The blocking between two sections is a step of its
own where `block` comes back without having switched.

A `Barrier` is used up by one round, as its counter is never set again. So each thread calls
it once, there are as many threads as the counter says, and the invariant is small: who has
decremented, who is in the queue, whether the last one has notified. One notification takes
place, so the epoch is 0 before it and 1 after it, and no condition on a number of
notifications is needed.

The last one to decrement goes to `notifyAll()` without waiting, and may get there before
another one has looked at the counter; that thread finds 0 and does not wait. A thread whose
callback is late finds the epoch changed.

As for the reusable barrier, the sections are those of `Lib/Blocking.lean` (`condition_runs`),
and `Threads/Sections.lean` has the same of the conditions of the threads.
-/

set_option autoImplicit false

namespace OsKernel.Barrier.Once

open Lib

/-- Where a thread is in `sync()`. -/
inductive Pc
  | start
  /-- has decremented `count`; about to test it -/
  | test
  /-- in `wait()`, with the epoch that it saw -/
  | blocking (epoch : BitVec 64)
  | queued
  /-- back from `block`; about to take the lock and test again -/
  | woken
  /-- was the last one; about to notify -/
  | release
  | done
  deriving DecidableEq

structure State (T : Type) where
  count : BitVec 32
  epoch : BitVec 64
  queue : List T
  pc : T → Pc

inductive Event (T : Type)
  /-- the next locked section of a thread -/
  | run (t : T)
  /-- `block` found no thread to switch to -/
  | back (t : T)

variable {T : Type} [DecidableEq T]

namespace State

def setPc (s : State T) (t : T) (p : Pc) : State T := { s with pc := Function.update s.pc t p }

/-- `if (--count == 0) goto release`. -/
def decrement (s : State T) (t : T) : State T :=
  { s.setPc t (if s.count - 1 = 0 then .release else .test) with count := s.count - 1 }

/-- `while (count) cv.wait()`, up to where `wait()` lets go of the lock. -/
def check (s : State T) (t : T) : State T :=
  s.setPc t (if s.count = 0 then .done else .blocking s.epoch)

/-- The callback of `wait()`. -/
def enqueue (s : State T) (t : T) (epoch : BitVec 64) : State T :=
  if epoch = s.epoch then { s.setPc t .queued with queue := s.queue ++ [t] }
  else s.setPc t .woken

/-- `cv.notifyAll()`. -/
def notifyAll (s : State T) (t : T) : State T where
  count := s.count
  epoch := s.epoch + 1
  queue := []
  pc u := if u = t then .done else if u ∈ s.queue then .woken else s.pc u

end State

def step (s : State T) : Event T → Option (State T)
  | .run t =>
    match s.pc t with
    | .start => some (s.decrement t)
    | .test => some (s.check t)
    | .woken => some (s.check t)
    | .blocking epoch => some (s.enqueue t epoch)
    | .release => some (s.notifyAll t)
    | .queued => none
    | .done => none
  | .back t =>
    match s.pc t with
    | .blocking _ => some (s.setPc t .woken)
    | _ => none

/-- `Barrier{count}`, and nobody has come. -/
def State.init (count : BitVec 32) : State T := ⟨count, 0, [], fun _ => .start⟩

/-! ## Its condition -/

section Acts

variable {s s' : State T} {e : Event T}

omit [DecidableEq T] in
def State.condition (s : State T) : Condition T := ⟨s.epoch, s.queue⟩

/-- A step acts on the condition, or leaves it alone; `notifyAll()` advances it and takes everybody. -/
theorem acts_step (h : step s e = some s') :
    ∃ acts, runs Condition.act s.condition acts = some s'.condition := by
  unfold step at h
  cases e with
  | run t =>
    dsimp only at h
    split at h
    case h_4 epoch _ =>
      obtain rfl := Option.some.inj h
      unfold State.enqueue
      split
      · rename_i he
        refine ⟨[.join t epoch], runs_cons.mpr ⟨_, ?_, rfl⟩⟩
        exact if_pos he
      · exact ⟨[], rfl⟩
    case h_5 =>
      obtain rfl := Option.some.inj h
      exact ⟨.advance :: List.replicate s.queue.length .take,
        runs_cons.mpr ⟨_, rfl, Condition.runs_takes _ s.queue⟩⟩
    case h_6 | h_7 => cases h
    all_goals
      obtain rfl := Option.some.inj h
      exact ⟨[], rfl⟩
  | back t =>
    dsimp only at h
    split at h
    · obtain rfl := Option.some.inj h
      exact ⟨[], rfl⟩
    · cases h

/-- In every run of the barrier there is a run of its condition. -/
theorem condition_runs {count : BitVec 32} {es : List (Event T)}
    (hr : runs step (State.init count) es = some s) :
    ∃ acts, runs Condition.act ⟨0, []⟩ acts = some s.condition :=
  runs_acts State.condition (fun _ => True) (fun _ _ _ _ _ => trivial)
    (fun _ _ _ _ h => acts_step h) trivial hr

end Acts

/-! ## The invariant -/

/-- The thread is in the queue of the condition, or will go there. -/
def Waits (s : State T) (t : T) : Prop :=
  s.pc t = .queued ∨ s.pc t = .blocking s.epoch ∨
    ((s.pc t = .test ∨ s.pc t = .woken) ∧ s.count ≠ 0)

variable [Fintype T]

/-- The threads that have not decremented. -/
def missing (s : State T) : Finset T := Finset.univ.filter fun t => s.pc t = .start

structure Inv (s : State T) : Prop where
  count : s.count.toNat = (missing s).card
  queue : ∀ t, t ∈ s.queue ↔ s.pc t = .queued
  /-- whoever waits saw the first epoch -/
  old : ∀ {t epoch}, s.pc t = .blocking epoch → epoch = 0
  coming : s.count ≠ 0 → s.epoch = 0 ∧ ∀ t, s.pc t ≠ .release ∧ s.pc t ≠ .done
  one : ∀ {t u}, s.pc t = .release → s.pc u = .release → t = u
  before : ∀ {t}, s.pc t = .release → s.epoch = 0
  after : s.count = 0 → (∀ t, s.pc t ≠ .release) → s.epoch = 1 ∧ s.queue = []

variable {s s' : State T} {t : T} {count : BitVec 32}

omit [Fintype T] in
@[simp] theorem setPc_self (p : Pc) : (s.setPc t p).pc t = p := Function.update_self ..

omit [Fintype T] in
theorem setPc_ne {u : T} (p : Pc) (h : u ≠ t) : (s.setPc t p).pc u = s.pc u :=
  Function.update_of_ne h ..

omit [DecidableEq T] in
theorem mem_missing : t ∈ missing s ↔ s.pc t = .start := by
  simp [missing]

omit [DecidableEq T] in
/-- Nobody is missing exactly if the counter is 0. -/
theorem Inv.count_eq_zero (I : Inv s) : s.count = 0 ↔ ∀ t, s.pc t ≠ .start := by
  have hzero : s.count = 0 ↔ s.count.toNat = 0 :=
    ⟨fun h => by rw [h]; rfl, fun h => BitVec.eq_of_toNat_eq h⟩
  rw [hzero, I.count, Finset.card_eq_zero, Finset.eq_empty_iff_forall_notMem]
  exact forall_congr' fun t => not_congr mem_missing

omit [DecidableEq T] in
theorem Inv.init (hcount : Fintype.card T = count.toNat) (hpos : count ≠ 0) :
    Inv (State.init count : State T) where
  count := by
    have hall : missing (State.init count : State T) = Finset.univ :=
      Finset.filter_true_of_mem fun _ _ => rfl
    rw [hall]
    exact hcount.symm
  queue t := ⟨nofun, nofun⟩
  old h := by cases h
  coming _ := ⟨rfl, fun _ => ⟨nofun, nofun⟩⟩
  one h := by cases h
  before h := by cases h
  after h := absurd h hpos

/-! ## One step

A step of the one-shot barrier moves one thread, but for `notifyAll`, which moves all that wait.
`Inv.move` is the rule for those that change nothing else. The notification is the step that
counts: it happens once, when the counter has come to zero, and every thread that comes to
`wait` later finds the condition met without blocking. -/

/-- A thread moves on without a change to anything else. -/
theorem Inv.move (I : Inv s) {p : Pc} (ht : s.pc t ≠ .start) (htq : s.pc t ≠ .queued)
    (htr : s.pc t ≠ .release) (hp : p ≠ .start) (hq : p ≠ .queued) (hr : p ≠ .release)
    (hold : ∀ epoch, p = .blocking epoch → epoch = 0) (hdone : p = .done → s.count = 0) :
    Inv (s.setPc t p) where
  -- `t` neither starts nor ends a wait here, so each clause is that of the state before
  count := by
    have hsame : missing (s.setPc t p) = missing s := by
      ext u
      rw [mem_missing, mem_missing]
      by_cases hu : u = t
      · subst hu
        rw [setPc_self]
        exact ⟨fun h => absurd h hp, fun h => absurd h ht⟩
      · rw [setPc_ne p hu]
    rw [hsame]
    exact I.count
  queue u := by
    show u ∈ s.queue ↔ _
    rw [I.queue u]
    by_cases hu : u = t
    · subst hu
      rw [setPc_self]
      exact ⟨fun h => absurd h htq, fun h => absurd h hq⟩
    · rw [setPc_ne p hu]
  old {u epoch} h := by
    by_cases hu : u = t
    · subst hu
      rw [setPc_self] at h
      exact hold epoch h
    · rw [setPc_ne p hu] at h
      exact I.old h
  coming h := by
    refine ⟨(I.coming h).1, fun u => ?_⟩
    by_cases hu : u = t
    · subst hu
      rw [setPc_self]
      exact ⟨hr, fun hd => h (hdone hd)⟩
    · rw [setPc_ne p hu]
      exact (I.coming h).2 u
  one {u v} hu hv := by
    have hne : ∀ {w}, (s.setPc t p).pc w = .release → s.pc w = .release := by
      intro w hw
      by_cases h : w = t
      · subst h
        rw [setPc_self] at hw
        exact absurd hw hr
      · rwa [setPc_ne p h] at hw
    exact I.one (hne hu) (hne hv)
  before {u} hu := by
    by_cases h : u = t
    · subst h
      rw [setPc_self] at hu
      exact absurd hu hr
    · rw [setPc_ne p h] at hu
      exact I.before hu
  after h hno := by
    refine I.after h fun u hu => hno u ?_
    have hne : u ≠ t := by
      rintro rfl
      exact htr hu
    rw [setPc_ne p hne]
    exact hu

theorem Inv.decrement (I : Inv s) (ht : s.pc t = .start) : Inv (s.decrement t) := by
  have hcount : s.count ≠ 0 := fun h => I.count_eq_zero.mp h t ht
  obtain ⟨hepoch, hearly⟩ := I.coming hcount
  have hpos : 1 ≤ s.count.toNat := by
    rw [I.count]
    exact Finset.card_pos.mpr ⟨t, mem_missing.mpr ht⟩
  have hself : (s.decrement t).pc t = if s.count - 1 = 0 then .release else .test := setPc_self _
  have hother : ∀ {u}, u ≠ t → (s.decrement t).pc u = s.pc u := fun h => setPc_ne _ h
  -- only `t` can have become the releasing thread
  have hrelease : ∀ {u}, (s.decrement t).pc u = .release → u = t := by
    intro u hu
    by_contra hne
    rw [hother hne] at hu
    exact (hearly u).1 hu
  have hlast : ∀ {u}, (s.decrement t).pc u = .release → s.count - 1 = 0 := by
    intro u hu
    obtain rfl := hrelease hu
    rw [hself] at hu
    by_contra hne
    rw [if_neg hne] at hu
    cases hu
  refine
    { count := ?_
      queue := fun u => ?_
      old := fun {u epoch} hu => ?_
      coming := fun h => ⟨hepoch, fun u => ⟨fun hu => h (hlast hu), ?_⟩⟩
      one := fun hu hv => (hrelease hu).trans (hrelease hv).symm
      before := fun _ => hepoch
      after := fun h hno => ?_ }
  · have herase : missing (s.decrement t) = (missing s).erase t := by
      ext u
      rw [Finset.mem_erase, mem_missing, mem_missing]
      by_cases hu : u = t
      · subst hu
        rw [hself]
        split <;> simp
      · rw [hother hu]
        simp [hu]
    rw [herase, Finset.card_erase_of_mem (mem_missing.mpr ht), ← I.count]
    exact BitVec.toNat_sub_of_le hpos
  · show u ∈ s.queue ↔ _
    rw [I.queue u]
    by_cases hu : u = t
    · subst hu
      rw [hself, ht]
      split <;> simp
    · rw [hother hu]
  · by_cases h : u = t
    · subst h
      rw [hself] at hu
      split at hu <;> cases hu
    · rw [hother h] at hu
      exact I.old hu
  · by_cases h' : u = t
    · subst h'
      rw [hself]
      split <;> nofun
    · rw [hother h']
      exact (hearly u).2
  · refine absurd ?_ (hno t)
    rw [hself]
    exact if_pos h

theorem Inv.check (I : Inv s) (ht : s.pc t = .test ∨ s.pc t = .woken) : Inv (s.check t) := by
  have hne : s.pc t ≠ .start ∧ s.pc t ≠ .queued ∧ s.pc t ≠ .release := by
    rcases ht with h | h <;> rw [h] <;> exact ⟨nofun, nofun, nofun⟩
  unfold State.check
  split
  · rename_i hzero
    exact I.move hne.1 hne.2.1 hne.2.2 nofun nofun nofun nofun fun _ => hzero
  · rename_i hcount
    refine I.move hne.1 hne.2.1 hne.2.2 nofun nofun nofun (fun epoch h => ?_) nofun
    cases h
    exact (I.coming hcount).1

theorem Inv.wake (I : Inv s) {epoch : BitVec 64} (ht : s.pc t = .blocking epoch) :
    Inv (s.setPc t .woken) :=
  I.move (by rw [ht]; nofun) (by rw [ht]; nofun) (by rw [ht]; nofun) nofun nofun nofun nofun nofun

theorem Inv.enqueue (I : Inv s) {epoch : BitVec 64} (ht : s.pc t = .blocking epoch) :
    Inv (s.enqueue t epoch) := by
  unfold State.enqueue
  split
  case isFalse => exact I.wake ht
  rename_i hepoch
  have hfirst : s.epoch = 0 := hepoch.symm.trans (I.old ht)
  have hself : (s.setPc t .queued).pc t = .queued := setPc_self _
  have hback : ∀ {u p}, p ≠ .queued → (s.setPc t .queued).pc u = p → s.pc u = p := by
    intro u p hp hu
    by_cases h : u = t
    · subst h
      rw [hself] at hu
      exact absurd hu.symm hp
    · rwa [setPc_ne _ h] at hu
  have hforth : ∀ {u p}, (∀ e, p ≠ .blocking e) → s.pc u = p → (s.setPc t .queued).pc u = p := by
    intro u p hp hu
    have hne : u ≠ t := by
      rintro rfl
      exact hp epoch (hu.symm.trans ht)
    rwa [setPc_ne _ hne]
  exact
    { count := by
        have hsame : missing (s.setPc t .queued) = missing s := by
          ext u
          rw [mem_missing, mem_missing]
          exact ⟨hback nofun, hforth nofun⟩
        show s.count.toNat = (missing (s.setPc t .queued)).card
        rw [hsame]
        exact I.count
      queue := fun u => by
        show u ∈ s.queue ++ [t] ↔ (s.setPc t .queued).pc u = .queued
        rw [List.mem_append, List.mem_singleton, I.queue u]
        by_cases hu : u = t
        · subst hu
          exact ⟨fun _ => hself, fun _ => .inr rfl⟩
        · rw [setPc_ne _ hu]
          exact ⟨fun h => h.resolve_right hu, .inl⟩
      old := fun hu => I.old (hback nofun hu)
      coming := fun h => ⟨hfirst, fun u => ⟨fun hu => ((I.coming h).2 u).1 (hback nofun hu),
        fun hu => ((I.coming h).2 u).2 (hback nofun hu)⟩⟩
      one := fun hu hv => I.one (hback nofun hu) (hback nofun hv)
      before := fun _ => hfirst
      after := fun h hno => by
        have hlater := (I.after h fun u hu => hno u (hforth nofun hu)).1
        rw [hfirst] at hlater
        cases hlater }

theorem Inv.notifyAll (I : Inv s) (ht : s.pc t = .release) : Inv (s.notifyAll t) := by
  have hzero : s.count = 0 := by
    by_contra hne
    exact ((I.coming hne).2 t).1 ht
  have hself : (s.notifyAll t).pc t = .done := if_pos rfl
  have hother : ∀ {u}, u ≠ t →
      (s.notifyAll t).pc u = if u ∈ s.queue then .woken else s.pc u := fun h => if_neg h
  -- whoever is not the notifier and was not in the queue has not moved
  have hback : ∀ {u p}, (s.notifyAll t).pc u = p → p ≠ .done → p ≠ .woken →
      u ≠ t ∧ s.pc u = p := by
    intro u p hu hd hw
    have hne : u ≠ t := by
      rintro rfl
      exact hd (hu.symm.trans hself)
    rw [hother hne] at hu
    split at hu
    · exact absurd hu.symm hw
    · exact ⟨hne, hu⟩
  have hno : ∀ u, (s.notifyAll t).pc u ≠ .release := fun u hu => by
    obtain ⟨hne, hu⟩ := hback hu nofun nofun
    exact hne (I.one hu ht)
  exact
    { count := by
        have hnone : missing (s.notifyAll t) = missing s := by
          ext u
          rw [mem_missing, mem_missing]
          exact ⟨fun h => (hback h nofun nofun).2, fun h => absurd h (I.count_eq_zero.mp hzero u)⟩
        rw [hnone]
        exact I.count
      queue := fun u => by
        refine ⟨nofun, fun h => ?_⟩
        obtain ⟨hne, hu⟩ := hback h nofun nofun
        rw [hother hne, if_pos ((I.queue u).mpr hu)] at h
        cases h
      old := fun hu => I.old (hback hu nofun nofun).2
      coming := fun h => absurd hzero h
      one := fun hu => absurd hu (hno _)
      before := fun hu => absurd hu (hno _)
      after := fun _ _ => ⟨by show s.epoch + 1 = 1; rw [I.before ht]; rfl, rfl⟩ }

theorem Inv.step {e : Event T} (I : Inv s) (hs : Once.step s e = some s') : Inv s' := by
  cases e with
  | run t =>
    simp only [Once.step] at hs
    cases ht : s.pc t with
    | start =>
      rw [ht] at hs
      cases hs
      exact I.decrement ht
    | test =>
      rw [ht] at hs
      cases hs
      exact I.check (.inl ht)
    | woken =>
      rw [ht] at hs
      cases hs
      exact I.check (.inr ht)
    | blocking epoch =>
      rw [ht] at hs
      cases hs
      exact I.enqueue ht
    | release =>
      rw [ht] at hs
      cases hs
      exact I.notifyAll ht
    | queued =>
      rw [ht] at hs
      cases hs
    | done =>
      rw [ht] at hs
      cases hs
  | back t =>
    simp only [Once.step] at hs
    cases ht : s.pc t <;> rw [ht] at hs <;> cases hs
    exact I.wake ht

/-! ## The result -/

omit [DecidableEq T] in
/-- Nobody has returned before all have come. -/
theorem Inv.done (I : Inv s) (ht : s.pc t = .done) (u : T) : s.pc u ≠ .start := by
  refine I.count_eq_zero.mp ?_ u
  by_contra hne
  exact ((I.coming hne).2 t).2 ht

omit [DecidableEq T] in
/-- When all have come and the last one has notified, nobody waits. -/
theorem Inv.released (I : Inv s) (hall : ∀ u, s.pc u ≠ .start) (hno : ∀ u, s.pc u ≠ .release)
    (t : T) : ¬Waits s t := by
  have hzero := I.count_eq_zero.mpr hall
  obtain ⟨hepoch, hqueue⟩ := I.after hzero hno
  rintro (hq | hb | ⟨-, hcount⟩)
  · have hmem := (I.queue t).mpr hq
    rw [hqueue] at hmem
    cases hmem
  · have hold := I.old hb
    rw [hepoch] at hold
    cases hold
  · exact hcount hzero

/-- `sync()` returns to nobody before all have decremented, and keeps nobody after the last one has
notified. -/
theorem barrier_releases (T : Type) [DecidableEq T] [Fintype T] (count : BitVec 32)
    (hcount : Fintype.card T = count.toNat) (hpos : count ≠ 0) (es : List (Event T)) (s : State T)
    (hr : runs step (.init count) es = some s) :
    (∀ t, s.pc t = .done → ∀ u, s.pc u ≠ .start) ∧
    ((∀ u, s.pc u ≠ .start) → (∀ u, s.pc u ≠ .release) → ∀ t, ¬Waits s t) := by
  have I : Inv s := runs_inv Inv (fun _ _ _ I _ hs => I.step hs) (.init hcount hpos)
    (.of_forall (fun _ _ => trivial) _ _) hr
  exact ⟨fun t ht u => I.done ht u, fun hall hno t => I.released hall hno t⟩

/-- The first of two threads has blocked when the second one comes and notifies. -/
theorem barrier_releases_two :
    ∃ s, runs step (.init 2) [.run false, .run false, .run true, .run true, .run false] = some s ∧
      s.pc false = .woken ∧ ∀ t : Bool, ¬Waits s t := by
  refine ⟨_, rfl, by decide, ?_⟩
  exact (barrier_releases Bool 2 rfl (by decide)
    [.run false, .run false, .run true, .run true, .run false] _ rfl).2 (by decide) (by decide)

end OsKernel.Barrier.Once
