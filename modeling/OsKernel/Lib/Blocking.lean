import Mathlib.Logic.Function.Basic
import OsKernel.Lib.Runs

/-!
# Semaphores and conditions

What a thread blocks on, without the threads. A semaphore is a counter and a queue, a condition an
epoch and a queue; an act is what one locked section does to it.

* A semaphore is taken by a `down()` that finds the counter above 0, joined by a thread that finds
  it at 0 for the second time, and put up by an `up()`, which lets the first thread of the queue go
  if there is one and counts otherwise. The thread that is let go does not test the counter again:
  that `up()` was for it.
* A condition has its epoch advanced by each notification, which then takes threads out of the
  queue, as many as it wants or as there are. A thread joins with the epoch that it read while it
  still had the lock, and only if the epoch is still that one: in between it has let go of the lock,
  and a notification may have passed it by.

A model of code that blocks says who does these acts and when. That it does nothing else to its
semaphores and conditions is then one statement, the same for every such model: each step acts on
them, once, several times or not at all, and so each run of the model has in it a run of each of
them (`runs_acts`). Two models whose steps do are models over the same semaphores. Who waits for
whom, and that somebody lets him go, is for the models.
-/

set_option autoImplicit false

namespace OsKernel.Lib

variable {T : Type}

/-! ## Semaphores -/

structure Semaphore (T : Type) where
  count : BitVec 64
  waiting : List T

inductive Semaphore.Act (T : Type)
  /-- a test of `down()` succeeds -/
  | take
  /-- the second test of `down()` fails -/
  | join (t : T)
  | up

def Semaphore.act (s : Semaphore T) : Act T → Option (Semaphore T)
  | .take => if 0 < s.count then some { s with count := s.count - 1 } else none
  | .join t => if 0 < s.count then none else some { s with waiting := s.waiting ++ [t] }
  | .up =>
    match s.waiting with
    | [] => some { s with count := s.count + 1 }
    | _ :: rest => some { s with waiting := rest }

/-! ## Conditions -/

structure Condition (T : Type) where
  epoch : BitVec 64
  queue : List T

inductive Condition.Act (T : Type)
  /-- the callback of `wait()`, for a thread that has seen this epoch -/
  | join (t : T) (epoch : BitVec 64)
  /-- a notification begins -/
  | advance
  /-- it takes a thread -/
  | take

def Condition.act (s : Condition T) : Act T → Option (Condition T)
  | .join t epoch => if epoch = s.epoch then some { s with queue := s.queue ++ [t] } else none
  | .advance => some { s with epoch := s.epoch + 1 }
  | .take =>
    match s.queue with
    | [] => none
    | _ :: rest => some { s with queue := rest }

/-- A notification of everybody. -/
theorem Condition.runs_takes (epoch : BitVec 64) (l : List T) :
    runs Condition.act ⟨epoch, l⟩ (List.replicate l.length .take) = some ⟨epoch, []⟩ := by
  induction l with
  | nil => rfl
  | cons t l ih => exact ih

/-! ## Systems over them -/

/-- A run of a system whose steps act on a component has a run of the component in it. -/
theorem runs_acts {σ α τ β : Type} {step : σ → α → Option σ} {act : τ → β → Option τ} (part : σ → τ)
    (Inv : σ → Prop) (hinv : ∀ s a s', Inv s → step s a = some s' → Inv s')
    (hstep : ∀ s a s', Inv s → step s a = some s' → ∃ acts, runs act (part s) acts = some (part s'))
    {s s' : σ} {as : List α} (hs : Inv s) (hr : runs step s as = some s') :
    ∃ acts, runs act (part s) acts = some (part s') := by
  induction as generalizing s with
  | nil =>
    obtain rfl := Option.some.inj hr
    exact ⟨[], rfl⟩
  | cons a as ih =>
    obtain ⟨u, hu, hr⟩ := runs_cons.mp hr
    obtain ⟨acts, hacts⟩ := hstep s a u hs hu
    obtain ⟨rest, hrest⟩ := ih (hinv s a u hs hu) hr
    refine ⟨acts ++ rest, ?_⟩
    rw [runs_append, hacts]
    exact hrest

end OsKernel.Lib
