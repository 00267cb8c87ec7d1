import OsKernel.Lib.Blocking
import OsKernel.Threads.Moves

/-!
# The semaphores and conditions of the threads

Each step of the threads acts on each semaphore and on each condition, or leaves it alone, in the sense
of `Lib.Semaphore` and `Lib.Condition`. The barriers and the future are models of their own, with
threads that do nothing but call them, and so without ready queue, switch and timer; there the same is
proved of their semaphores and conditions. This is what the models have in common: the sections of
`semaphore.h` and `condition.h` that each of them has are the ones that the threads really run.

It does not say that a run of a barrier is one of the threads: that a thread whose code calls
`down()` comes to the next line after it is the business of the schedule, and of
`every_thread_in_one_place`.
-/

set_option autoImplicit false
set_option linter.unusedSectionVars false

namespace OsKernel.Threads

open Lib

variable {C N I J : Type} [DecidableEq C] [DecidableEq N] [DecidableEq I] [DecidableEq J]

def State.semaphore (s : State C N I J) (i : I) : Semaphore (TCB C N) :=
  ⟨s.count i, s.queues.contents (.waiting i)⟩

def State.condition (s : State C N I J) (j : J) : Condition (TCB C N) :=
  ⟨s.epoch j, s.queues.contents (.queue j)⟩

variable {s s' : State C N I J} {reaper j : J} {i : I} {c : C} {t : TCB C N}
variable {line : QueueId I J → List N} {place : N → Place (Slot C N) (QueueId I J)}

/-! ## Semaphores

Every step of the threads is, for a given semaphore, a short run of acts on it: none for most, one
for a test of `down()` or a section of `up()`. The simp set takes the updates of the state that
leave a semaphore's counter and queue alone; what is left are the two tests and `up()`.

`semaphore_runs` is the outcome: the semaphores of every run are semaphores in the sense of
`Lib/Blocking.lean`, of which the barrier and the future are made as well. -/

/-- What lies between the two states is acts on the semaphore. -/
def Acts (i : I) (s s' : State C N I J) : Prop :=
  ∃ acts, runs Semaphore.act (s.semaphore i) acts = some (s'.semaphore i)

theorem Acts.same (h : s'.semaphore i = s.semaphore i) : Acts i s s' := ⟨[], by rw [h]; rfl⟩

theorem Acts.one {a : Semaphore.Act (TCB C N)}
    (h : (s.semaphore i).act a = some (s'.semaphore i)) : Acts i s s' := ⟨[a], by
  rw [runs_cons]
  exact ⟨_, h, rfl⟩⟩

section neutral

@[simp] theorem semaphore_emit (es : List (Event C N I J)) : (s.emit es).semaphore i = s.semaphore i :=
  rfl

@[simp] theorem semaphore_setCall (k : Call C N I J) : (s.setCall t k).semaphore i = s.semaphore i :=
  rfl

@[simp] theorem semaphore_setBlock (b : Block C N I J) : (s.setBlock t b).semaphore i = s.semaphore i :=
  rfl

@[simp] theorem semaphore_setPreempt (b : Bool) : (s.setPreempt t b).semaphore i = s.semaphore i :=
  rfl

@[simp] theorem semaphore_setCallback (k : Option (Callback C N I J)) :
    (s.setCallback c k).semaphore i = s.semaphore i := rfl

@[simp] theorem semaphore_setLock (o : Option (Holder C N)) :
    (s.setLock j o).semaphore i = s.semaphore i := rfl

@[simp] theorem semaphore_setEpoch (e : BitVec 64) : (s.setEpoch j e).semaphore i = s.semaphore i := rfl

@[simp] theorem semaphore_setLive (n : N) (b : Bool) : (s.setLive n b).semaphore i = s.semaphore i := rfl

end neutral

@[simp] theorem semaphore_schedule (tcb : TCB C N) : (s.schedule tcb).semaphore i = s.semaphore i := by
  unfold State.schedule
  split
  · rfl
  · unfold State.semaphore
    rw [Queues.contents_add_ne tcb (by simp)]

theorem semaphore_add {q : QueueId I J} (h : .waiting i ≠ q) :
    (s.add q t).semaphore i = s.semaphore i := by
  unfold State.semaphore State.add
  rw [Queues.contents_add_ne t h]

theorem semaphore_remove {q : QueueId I J} (h : .waiting i ≠ q) :
    (s.remove q).2.semaphore i = s.semaphore i := by
  unfold State.semaphore State.remove
  rw [Queues.contents_remove_ne h]

theorem semaphore_of_remove {q : QueueId I J} {o : Option (TCB C N)} (h : .waiting i ≠ q)
    (hr : s.remove q = (o, s')) : s'.semaphore i = s.semaphore i := by
  have hrem := semaphore_remove (s := s) h
  rwa [hr] at hrem

theorem semaphore_setCount (s : State C N I J) (i : I) (n : BitVec 64) :
    (s.setCount i n).semaphore i = ⟨n, s.queues.contents (.waiting i)⟩ :=
  congrArg (Semaphore.mk · _) (Function.update_self ..)

theorem semaphore_setCount_ne {i' : I} (h : i ≠ i') (n : BitVec 64) :
    (s.setCount i' n).semaphore i = s.semaphore i :=
  congrArg (Semaphore.mk · _) (Function.update_of_ne h ..)

theorem semaphore_leaveBlock {f : Action I J} (h : s.leaveBlock t f = some s') :
    s'.semaphore i = s.semaphore i := by
  cases f <;> dsimp only [State.leaveBlock] at h
  case stop =>
    split at h
    · obtain rfl := Option.some.inj h
      rfl
    · cases h
  all_goals
    obtain rfl := Option.some.inj h
    rfl

theorem semaphore_resume (h : s.resume c = some s') : s'.semaphore i = s.semaphore i := by
  unfold State.resume at h
  split at h
  · exact (semaphore_leaveBlock h).trans rfl
  · obtain rfl := Option.some.inj h
    rfl

theorem semaphore_tryLock {h : Holder C N} (ht : s.tryLock j h = some s') :
    s'.semaphore i = s.semaphore i := by
  obtain ⟨-, rfl⟩ := Sound.tryLock_eq ht
  rfl

theorem semaphore_choose {f : Action I J} (h : s.choose c t f = some s') :
    s'.semaphore i = s.semaphore i := by
  unfold State.choose at h
  split at h
  · rename_i next s₁ hr
    obtain rfl := Option.some.inj h
    have hne : QueueId.waiting i ≠ (.readyQ : QueueId I J) := by simp
    simpa using semaphore_of_remove hne hr
  · cases f <;> dsimp only [Action.blockOption] at h
    case yield => exact (semaphore_leaveBlock h).trans rfl
    case wait => exact (semaphore_leaveBlock h).trans rfl
    all_goals
      split at h
      · split at h
        · obtain rfl := Option.some.inj h
          rfl
        · cases h
      · obtain rfl := Option.some.inj h
        rfl

/-- The second test of `down()`. -/
theorem acts_downAgain (S : Sound reaper s line place) {i' : I} {me : TCB C N}
    (h : s.downAgain c i' me = some s') : Acts i s s' := by
  unfold State.downAgain at h
  split at h
  · cases h
  split at h
  · rename_i hpos
    obtain rfl := Option.some.inj h
    by_cases hi : i = i'
    · subst hi
      refine .one (a := .take) ?_
      show (if 0 < s.count i then _ else _) = some ((s.setCount i (s.count i - 1)).semaphore i)
      rw [if_pos hpos, semaphore_setCount]
      rfl
    · exact .same (semaphore_setCount_ne hi _)
  · rename_i hzero
    have hres := semaphore_resume (i := i) h
    by_cases hi : i = i'
    · subst hi
      have hjoin : (s.add (.waiting i) me).queues.contents (.waiting i) =
          s.queues.contents (.waiting i) ++ [me] := by
        rw [S.places.threaded.contents_eq]
        simp [State.add, Queues.contents, Queues.add, S.places.threaded.fifo]
      refine .one (a := .join me) ?_
      show (if 0 < s.count i then _ else _) = _
      rw [if_neg hzero, hres]
      exact congrArg some (congrArg (Semaphore.mk _) hjoin.symm)
    · exact .same (hres.trans (semaphore_add (by simpa using hi)))

theorem acts_callbackStep (S : Sound reaper s line place) {k : Callback C N I J}
    (h : s.callbackStep reaper c k = some s') : Acts i s s' := by
  cases k with
  | run f me =>
    cases f with
    | yield => exact .same ((semaphore_resume h).trans (semaphore_schedule me))
    | stop =>
      dsimp only [State.callbackStep] at h
      split at h
      · exact .same (semaphore_resume h)
      · obtain ⟨s₁, hs₁, rfl⟩ := Option.map_eq_some_iff.mp h
        have hne : QueueId.waiting i ≠ (.zombies : QueueId I J) := by simp
        exact .same (by simpa using (semaphore_add hne).trans (semaphore_tryLock hs₁))
    | down i' => exact acts_downAgain S h
    | wait j' e =>
      dsimp only [State.callbackStep, State.waitAgain] at h
      split at h
      · cases h
      split at h
      · cases h
      split at h
      · cases h
      split at h
      · have hne : QueueId.waiting i ≠ (.queue j' : QueueId I J) := by simp
        exact .same ((semaphore_resume h).trans (by simpa using semaphore_add hne))
      · obtain rfl := Option.some.inj h
        exact .same rfl
  | granted i' me => exact .same ((semaphore_resume h).trans (by simp))
  | missed j' me => exact .same ((semaphore_resume h).trans (semaphore_schedule me))
  | notify =>
    dsimp only [State.callbackStep] at h
    split at h
    · rename_i next s₁ hr
      obtain rfl := Option.some.inj h
      have hne : QueueId.waiting i ≠ (.queue reaper : QueueId I J) := by simp
      exact .same (by simpa using semaphore_of_remove hne hr)
    · obtain rfl := Option.some.inj h
      exact .same rfl
  | rouse next =>
    obtain rfl := Option.some.inj h
    exact .same (by simp)
  | unlock =>
    have hres : _ = some s' := h
    exact .same ((semaphore_resume hres).trans (by simp))

theorem semaphore_callStep {k : Call C N I J} (h : s.callStep c t k = some s') :
    s'.semaphore i = s.semaphore i := by
  cases k with
  | none => cases h
  | creating tcb =>
    obtain rfl := Option.some.inj h
    simp
  | deleting it =>
    cases it with
    | idle d => cases h
    | made n =>
      obtain rfl := Option.some.inj h
      rfl
  | stopping | down i' | wait j' e =>
    obtain rfl := Option.some.inj h
    rfl
  | up i' next =>
    obtain rfl := Option.some.inj h
    simp
  | relock j' =>
    obtain ⟨s₁, hs₁, rfl⟩ := Option.map_eq_some_iff.mp h
    simpa using semaphore_tryLock (i := i) hs₁
  | notify j' limit x =>
    dsimp only [State.callStep] at h
    split at h
    · split at h
      · rename_i next s₁ hr
        obtain rfl := Option.some.inj h
        have hne : QueueId.waiting i ≠ (.queue j' : QueueId I J) := by simp
        simpa using semaphore_of_remove hne hr
      · obtain rfl := Option.some.inj h
        rfl
    · obtain rfl := Option.some.inj h
      rfl
  | rouse j' limit x next =>
    obtain rfl := Option.some.inj h
    simp

theorem acts_go (S : Sound reaper s line place) (h : s.go reaper c = some s') : Acts i s s' := by
  unfold State.go at h
  split at h
  · exact acts_callbackStep S h
  · split at h
    · exact .same (semaphore_callStep h)
    · exact .same (semaphore_choose h)
    · obtain rfl := Option.some.inj h
      exact .same rfl
    · obtain rfl := Option.some.inj h
      exact .same rfl
    · cases h

/-- The first test of `down()`. -/
theorem acts_down (i' : I) : Acts i s (s.down t i') := by
  unfold State.down
  split
  · rename_i hpos
    by_cases hi : i = i'
    · subst hi
      refine .one (a := .take) ?_
      show (if 0 < s.count i then _ else _) = some ((s.setCount i (s.count i - 1)).semaphore i)
      rw [if_pos hpos, semaphore_setCount]
      rfl
    · exact .same (semaphore_setCount_ne hi _)
  · exact .same rfl

theorem acts_up (S : Sound reaper s line place) (i' : I) : Acts i s (s.up t i') := by
  unfold State.up
  by_cases hi : i = i'
  · subst hi
    refine .one (a := .up) ?_
    rcases S.take_contents (.waiting i) with ⟨hnil, hr⟩ | ⟨next, rest, hl, hr, hrest⟩
    · have hempty : s.semaphore i = ⟨s.count i, []⟩ := congrArg (Semaphore.mk _) hnil
      rw [hr, hempty]
      show _ = some ((s.setCount i (s.count i + 1)).semaphore i)
      rw [semaphore_setCount, hnil]
      rfl
    · have hfull : s.semaphore i = ⟨s.count i, next :: rest⟩ := congrArg (Semaphore.mk _) hl
      rw [hr, hfull]
      show some (Semaphore.mk (s.count i) rest) = _
      rw [← hrest]
      rfl
  · have hne : QueueId.waiting i ≠ (.waiting i' : QueueId I J) := by simpa using hi
    split
    · rename_i next s₁ hr
      exact .same (by simpa using semaphore_of_remove hne hr)
    · exact .same (semaphore_setCount_ne hi _)

/-- A step of the threads acts on a semaphore, or leaves it alone. -/
theorem acts_step {s s' : State C N I J} (h : Ok reaper s) {l : Label C N I J}
    (hs : step reaper s l = some s') (i : I) : Acts i s s' := by
  obtain ⟨line, place, S⟩ := h
  cases l with
  | go c => exact acts_go S hs
  | timer c =>
    dsimp only [step, State.timer] at hs
    split at hs
    · cases hs
    split at hs
    all_goals
      obtain rfl := Option.some.inj hs
      exact .same rfl
  | create c n =>
    obtain ⟨t, -, hs⟩ := Option.bind_eq_some_iff.mp hs
    dsimp only [State.create] at hs
    split at hs
    · cases hs
    · obtain rfl := Option.some.inj hs
      exact .same rfl
  | reap c =>
    obtain ⟨t, -, rfl⟩ := Option.map_eq_some_iff.mp hs
    unfold State.reap
    split
    · rename_i it s₁ hr
      have hne : QueueId.waiting i ≠ (.zombies : QueueId I J) := by simp
      exact .same (by simpa using semaphore_of_remove hne hr)
    · exact .same rfl
  | yield c | stop c =>
    obtain ⟨t, -, rfl⟩ := Option.map_eq_some_iff.mp hs
    exact .same rfl
  | down c i' =>
    obtain ⟨t, -, rfl⟩ := Option.map_eq_some_iff.mp hs
    exact acts_down i'
  | up c i' =>
    obtain ⟨t, -, rfl⟩ := Option.map_eq_some_iff.mp hs
    exact acts_up S i'
  | lock c j =>
    obtain ⟨t, -, hs⟩ := Option.bind_eq_some_iff.mp hs
    exact .same (semaphore_tryLock hs)
  | unlock c j =>
    obtain ⟨t, -, hs⟩ := Option.bind_eq_some_iff.mp hs
    dsimp only [State.unlock] at hs
    split at hs
    case h_3 => cases hs
    all_goals
      split at hs
      · obtain rfl := Option.some.inj hs
        exact .same rfl
      · cases hs
  | wait c j =>
    obtain ⟨t, -, hs⟩ := Option.bind_eq_some_iff.mp hs
    dsimp only [State.wait] at hs
    split at hs
    · obtain rfl := Option.some.inj hs
      exact .same rfl
    · cases hs
  | notify c j limit =>
    obtain ⟨t, -, hs⟩ := Option.bind_eq_some_iff.mp hs
    dsimp only [State.notify] at hs
    split at hs
    · obtain rfl := Option.some.inj hs
      exact .same rfl
    · cases hs

/-- In every run of the threads there is a run of each semaphore. -/
theorem semaphore_runs {next : TCB C N → Option (TCB C N)} {count : I → BitVec 32}
    {labels : List (Label C N I J)}
    (hr : runs (step reaper) (State.init next count) labels = some s) (i : I) :
    ∃ acts, runs Semaphore.act ⟨(count i).zeroExtend 64, []⟩ acts = some (s.semaphore i) :=
  runs_acts (fun s => State.semaphore s i) (Ok reaper) (fun _ _ _ h => h.step)
    (fun _ _ _ h hs => acts_step h hs i) (Ok.init reaper next count) hr

/-! ## Conditions -/

/-- What lies between the two states is acts on the condition. -/
def Notes (j : J) (s s' : State C N I J) : Prop :=
  ∃ acts, runs Condition.act (s.condition j) acts = some (s'.condition j)

theorem Notes.same (h : s'.condition j = s.condition j) : Notes j s s' := ⟨[], by rw [h]; rfl⟩

theorem Still.condition (h : Still reaper j s s') : s'.condition j = s.condition j := by
  unfold State.condition
  rw [h.epoch, h.contents]

theorem Notes.of_moves (M : Moves reaper j s s') : Notes j s s' := by
  have hepoch : (s.setEpoch j (s.epoch j + 1)).epoch j = s.epoch j + 1 := Function.update_self ..
  cases M with
  | still h => exact .same h.condition
  | locks t hl h => exact .same h.condition
  | unlocks t hl hk h => exact .same h.condition
  | releases t hl hk h =>
    subst h
    exact .same rfl
  | joins c me old hl hc hk he hq h =>
    refine ⟨[.join me old], runs_cons.mpr ⟨_, ?_, rfl⟩⟩
    rw [h.condition]
    show (if old = s.epoch j then _ else _) = _
    rw [if_pos he]
    exact congrArg some (congrArg (Condition.mk _) hq.symm)
  | notifies t limit hl hk h =>
    subst h
    refine ⟨[.advance], runs_cons.mpr ⟨_, ?_, rfl⟩⟩
    exact congrArg some (congrArg (Condition.mk · _) hepoch.symm)
  | takes t limit i next rest hk hi hq hq' h =>
    subst h
    refine ⟨[.take], runs_cons.mpr ⟨_, ?_, rfl⟩⟩
    have hfull : s.condition j = ⟨s.epoch j, next :: rest⟩ := congrArg (Condition.mk _) hq
    rw [hfull]
    exact congrArg some (congrArg (Condition.mk _) hq'.symm)
  | ends t limit i hk hi h =>
    subst h
    exact .same rfl
  | rouses t limit i next hk h =>
    subst h
    have hstill : Still reaper j s (s.schedule next) := .schedule next
    exact .same hstill.condition
  | puts c me hj hl hc h => exact .same h.condition
  | signals c next rest hj hc hq hq' h =>
    subst h
    refine ⟨[.advance, .take], runs_cons.mpr ⟨⟨s.epoch j + 1, next :: rest⟩, ?_,
      runs_cons.mpr ⟨_, ?_, rfl⟩⟩⟩
    · exact congrArg some (congrArg (Condition.mk _) hq)
    · show some (Condition.mk (s.epoch j + 1) rest) = _
      rw [← hq']
      exact congrArg some (congrArg (Condition.mk · _) hepoch.symm)
  | signalsNobody c hj hc hq h =>
    subst h
    refine ⟨[.advance], runs_cons.mpr ⟨_, ?_, rfl⟩⟩
    exact congrArg some (congrArg (Condition.mk · _) hepoch.symm)
  | signalled c next hj hc h =>
    subst h
    have hstill : Still reaper j s (s.schedule next) := .schedule next
    exact .same hstill.condition
  | unlocked c hj hc h => exact .same h.condition

/-- In every run of the threads there is a run of each condition. -/
theorem condition_runs {next : TCB C N → Option (TCB C N)} {count : I → BitVec 32}
    {labels : List (Label C N I J)}
    (hr : runs (step reaper) (State.init next count) labels = some s) (j : J) :
    ∃ acts, runs Condition.act ⟨0, []⟩ acts = some (s.condition j) :=
  runs_acts (fun s => State.condition s j) (Ok reaper) (fun _ _ _ h => h.step)
    (fun s _ s' h hs => by
      obtain ⟨line, place, S⟩ := h
      exact Notes.of_moves (S.moves hs j))
    (Ok.init reaper next count) hr

end OsKernel.Threads
