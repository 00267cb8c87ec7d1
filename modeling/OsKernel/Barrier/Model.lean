import Mathlib.Data.Fintype.Card
import Mathlib.Data.Finset.Card
import OsKernel.Lib.Blocking

/-!
# The reusable barrier

`ReusableBarrier` of `barrier.h`, over two semaphores of `semaphore.h`. A step of a thread is
one locked section of a semaphore, the `schedule` that follows it, or one read or write of
`count`. A thread that fails the first test of `down()` is switched out, and its callback has
the second test to do; one that is in the queue is let go by the `schedule` of the `up()` that
took it out.

`arrivals`, `passes`, `leaves` and `turn` are remembered and read by nobody. A pass is counted
where a `down()` on `sem` is granted, which is before it returns.

## Why not over `Threads`

The code of a barrier runs on threads, and `Threads/Model.lean` has threads that may call
`down()` and `up()` at any time. To say there that they call them in the order of `sync()`,
each thread would need a program, and every result would have the cores, the ready queue and
the callbacks in it, of which the barrier sees nothing but how long a step takes to come. So
the barrier has threads that do nothing but `sync()`, again and again, in every order of their
steps.

What the two have in common is proved: the steps of the barrier on its semaphores are acts of
`Lib/Blocking.lean` (`acts_step`, `semaphore_runs`), and so are those of `Threads`
(`Threads/Sections.lean`). What is left out by the smaller model is the schedule. A thread
whose `down()` is granted goes on at some time here, and there after it has been put into the
ready queue and taken out of it.

`count` is read and written in two steps, as `++count` is, although a thread does so only with
the semaphore in its hand. That no other comes between is a result (`Barrier/Inv.lean`).
-/

set_option autoImplicit false

namespace OsKernel.Barrier

open Lib

/-- The two semaphores. -/
inductive Sem
  | mut
  | sem
deriving DecidableEq

/-- Where a thread is in `sync()`. -/
inductive Pc (T : Type)
  | outside
  /-- at the first test of `down()` -/
  | down (k : Sem)
  /-- switched out, at the second test -/
  | again (k : Sem)
  /-- in the queue -/
  | waiting (k : Sem)
  /-- out of the queue, in the hand of an `up()` -/
  | granted (k : Sem)
  /-- the second test has succeeded -/
  | rescheduled (k : Sem)
  /-- `down()` has returned; about to read `count` -/
  | past (k : Sem)
  /-- about to write and compare `count` -/
  | loaded (k : Sem) (count : BitVec 32)
  /-- at the section of `up()`; the last one of the call if `leaving` -/
  | up (k : Sem) (leaving : Bool)
  /-- `up()` has taken `next` out of the queue -/
  | schedule (next : T) (k : Sem) (leaving : Bool)
deriving DecidableEq

structure State (T : Type) where
  /-- the counter of the semaphore -/
  value : Sem → BitVec 64
  waiting : Sem → List T
  count : BitVec 32
  pc : T → Pc T
  /-- `++count` executed -/
  arrivals : Nat
  passes : Nat
  /-- `--count` executed -/
  leaves : Nat
  /-- which arrival a thread's last one was -/
  turn : T → Nat

variable {T : Type}

def State.init : State T where
  value
    | .mut => 1
    | .sem => 0
  waiting _ := []
  count := 0
  pc _ := .outside
  arrivals := 0
  passes := 0
  leaves := 0
  turn _ := 0

/-- What a thread does after `up()`. -/
def afterUp (leaving : Bool) : Pc T := if leaving then .outside else .down .sem

/-- A pass, if it is on `sem`. -/
def Sem.pass : Sem → Nat
  | .mut => 0
  | .sem => 1

variable [DecidableEq T]

namespace State

def setPc (s : State T) (t : T) (p : Pc T) : State T := { s with pc := Function.update s.pc t p }

def setValue (s : State T) (k : Sem) (n : BitVec 64) : State T :=
  { s with value := Function.update s.value k n }

def setWaiting (s : State T) (k : Sem) (l : List T) : State T :=
  { s with waiting := Function.update s.waiting k l }

/-- One `down()` on `k` is granted. -/
def grant (s : State T) (k : Sem) : State T := { s with passes := s.passes + k.pass }

/-- A test of `down()`; `yes` and `no` are where it leads to. -/
def test (s : State T) (k : Sem) (yes no : State T → State T) : State T :=
  if 0 < s.value k then yes ((s.setValue k (s.value k - 1)).grant k) else no s

def down (s : State T) (t : T) (k : Sem) : State T :=
  s.test k (fun s => s.setPc t (.past k)) fun s => s.setPc t (.again k)

def downAgain (s : State T) (t : T) (k : Sem) : State T :=
  s.test k (fun s => s.setPc t (.rescheduled k)) fun s =>
    (s.setWaiting k (s.waiting k ++ [t])).setPc t (.waiting k)

def up (s : State T) (t : T) (k : Sem) (leaving : Bool) : State T :=
  match s.waiting k with
  | [] => (s.setValue k (s.value k + 1)).setPc t (afterUp leaving)
  | next :: rest =>
    (((s.setWaiting k rest).grant k).setPc next (.granted k)).setPc t (.schedule next k leaving)

@[simp] theorem setPc_waiting (s : State T) (t : T) (p : Pc T) : (s.setPc t p).waiting = s.waiting := rfl

omit [DecidableEq T] in
@[simp] theorem grant_waiting (s : State T) (k : Sem) : (s.grant k).waiting = s.waiting := rfl

omit [DecidableEq T] in
@[simp] theorem setWaiting_self (s : State T) (k : Sem) (l : List T) : (s.setWaiting k l).waiting k = l := by
  simp [setWaiting]

omit [DecidableEq T] in
theorem setWaiting_ne (s : State T) {k k' : Sem} (l : List T) (h : k' ≠ k) :
    (s.setWaiting k l).waiting k' = s.waiting k' := by
  simp [setWaiting, h]

/-- `++count == limit`. -/
def arrive (limit : BitVec 32) (s : State T) (t : T) (count : BitVec 32) : State T :=
  { s.setPc t (if count + 1 = limit then .up .sem false else .up .mut false) with
    count := count + 1
    arrivals := s.arrivals + 1
    turn := Function.update s.turn t (s.arrivals + 1) }

/-- `--count == 0`. -/
def leave (s : State T) (t : T) (count : BitVec 32) : State T :=
  { s.setPc t (if count - 1 = 0 then .up .mut true else .up .sem true) with
    count := count - 1
    leaves := s.leaves + 1 }

end State

/-- The next step of thread `t`; `limit` is the number of threads in a group. -/
def step (limit : BitVec 32) (s : State T) (t : T) : Option (State T) :=
  match s.pc t with
  | .outside => some (s.setPc t (.down .mut))
  | .down k => some (s.down t k)
  | .again k => some (s.downAgain t k)
  | .waiting _ => none
  | .granted _ => none
  | .rescheduled k => some (s.setPc t (.past k))
  | .past k => some (s.setPc t (.loaded k s.count))
  | .loaded .mut count => some (s.arrive limit t count)
  | .loaded .sem count => some (s.leave t count)
  | .up k leaving => some (s.up t k leaving)
  | .schedule next k leaving => some ((s.setPc next (.past k)).setPc t (afterUp leaving))

/-! ## Its semaphores -/

section Acts

variable {limit : BitVec 32} {s s' : State T} {t : T} {k : Sem}

omit [DecidableEq T] in
def State.semaphore (s : State T) (k : Sem) : Semaphore T := ⟨s.value k, s.waiting k⟩

/-- What lies between the two states is acts on the semaphore. -/
def Acts (k : Sem) (s s' : State T) : Prop :=
  ∃ acts, runs Semaphore.act (s.semaphore k) acts = some (s'.semaphore k)

omit [DecidableEq T] in
theorem Acts.same (h : s'.semaphore k = s.semaphore k) : Acts k s s' := ⟨[], by rw [h]; rfl⟩

omit [DecidableEq T] in
theorem Acts.one {a : Semaphore.Act T} (h : (s.semaphore k).act a = some (s'.semaphore k)) :
    Acts k s s' := ⟨[a], by
  rw [runs_cons]
  exact ⟨_, h, rfl⟩⟩

omit [DecidableEq T] in
theorem semaphore_setValue (s : State T) (k : Sem) (n : BitVec 64) :
    (s.setValue k n).semaphore k = ⟨n, s.waiting k⟩ :=
  congrArg (Semaphore.mk · _) (Function.update_self ..)

omit [DecidableEq T] in
theorem semaphore_setValue_ne {k' : Sem} (h : k ≠ k') (n : BitVec 64) :
    (s.setValue k' n).semaphore k = s.semaphore k :=
  congrArg (Semaphore.mk · _) (Function.update_of_ne h ..)

omit [DecidableEq T] in
theorem semaphore_setWaiting_ne {k' : Sem} (h : k ≠ k') (l : List T) :
    (s.setWaiting k' l).semaphore k = s.semaphore k :=
  congrArg (Semaphore.mk _) (State.setWaiting_ne s l h)

omit [DecidableEq T] in
/-- A test that succeeds takes the semaphore. -/
theorem acts_test {k' : Sem} {yes no : State T → State T}
    (hyes : ∀ u, (yes u).semaphore k = u.semaphore k) (hno : ¬0 < s.value k' → Acts k s (no s)) :
    Acts k s (s.test k' yes no) := by
  unfold State.test
  split
  · rename_i hpos
    have hgrant : (yes ((s.setValue k' (s.value k' - 1)).grant k')).semaphore k =
        (s.setValue k' (s.value k' - 1)).semaphore k := hyes _
    by_cases hk : k = k'
    · subst hk
      refine .one (a := .take) ?_
      show (if 0 < s.value k then _ else _) = _
      rw [if_pos hpos, hgrant, semaphore_setValue]
      rfl
    · exact .same (hgrant.trans (semaphore_setValue_ne hk _))
  · rename_i hzero
    exact hno hzero

theorem acts_downAgain (k' : Sem) : Acts k s (s.downAgain t k') := by
  refine acts_test (fun _ => rfl) fun hzero => ?_
  by_cases hk : k = k'
  · subst hk
    refine .one (a := .join t) ?_
    show (if 0 < s.value k then _ else _) = some ((s.setWaiting k (s.waiting k ++ [t])).semaphore k)
    rw [if_neg hzero]
    exact congrArg some (congrArg (Semaphore.mk _) (State.setWaiting_self ..).symm)
  · have hsame := semaphore_setWaiting_ne (s := s) hk (s.waiting k' ++ [t])
    exact .same hsame

theorem acts_up (k' : Sem) (leaving : Bool) : Acts k s (s.up t k' leaving) := by
  unfold State.up
  by_cases hk : k = k'
  · subst hk
    refine .one (a := .up) ?_
    cases hl : s.waiting k with
    | nil =>
      have hempty : s.semaphore k = ⟨s.value k, []⟩ := congrArg (Semaphore.mk _) hl
      show _ = some ((s.setValue k (s.value k + 1)).semaphore k)
      rw [hempty, semaphore_setValue, hl]
      rfl
    | cons next rest =>
      have hfull : s.semaphore k = ⟨s.value k, next :: rest⟩ := congrArg (Semaphore.mk _) hl
      show _ = some ((s.setWaiting k rest).semaphore k)
      rw [hfull]
      exact congrArg some (congrArg (Semaphore.mk _) (State.setWaiting_self ..).symm)
  · split
    · exact .same (semaphore_setValue_ne hk _)
    · rename_i rest _
      have hsame := semaphore_setWaiting_ne (s := s) hk rest
      exact .same hsame

/-- A step acts on a semaphore, or leaves it alone. -/
theorem acts_step (h : step limit s t = some s') (k : Sem) : Acts k s s' := by
  unfold step at h
  split at h
  case h_2 k' _ =>
    obtain rfl := Option.some.inj h
    exact acts_test (fun _ => rfl) fun _ => .same rfl
  case h_3 k' _ =>
    obtain rfl := Option.some.inj h
    exact acts_downAgain k'
  case h_10 k' leaving _ =>
    obtain rfl := Option.some.inj h
    exact acts_up k' leaving
  case h_4 | h_5 => cases h
  all_goals
    obtain rfl := Option.some.inj h
    exact .same rfl

/-- In every run of the barrier there is a run of each of its semaphores. -/
theorem semaphore_runs {ts : List T} (hr : runs (step limit) State.init ts = some s) (k : Sem) :
    ∃ acts, runs Semaphore.act ((State.init : State T).semaphore k) acts = some (s.semaphore k) :=
  runs_acts (fun s => State.semaphore s k) (fun _ => True) (fun _ _ _ _ _ => trivial)
    (fun _ _ _ _ h => acts_step h k) trivial hr

end Acts

end OsKernel.Barrier
